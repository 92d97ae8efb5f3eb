import Beardrive.Syncer.Ignore

/-!
# Rules that name one path

`EscapeIgnore` turns a path into a body of the dialect that matches that path and nothing else. It
puts a backslash before every byte the dialect reads in a way of its own, white space included,
so an escaped body survives both trimmers and the loop over it finds no wildcard.

What it cannot do is make a body that compiles: the expression of a rule is also compiled, and the
source of an expression has to be UTF-8.

## Main definitions

* `escapeIgnore`, `unescapeIgnore` — the escape and its inverse

## Main results

* `unescapeIgnore_escapeIgnore` — the inverse undoes the escape
* `compile_folderRule` — what the rule that re-includes one folder compiles to
* `folderRule_matches` — and what it matches
-/

namespace Beardrive

/-! ### The escape -/

/-- The bytes `EscapeIgnore` protects. -/
def escaped (b : UInt8) : Bool :=
  b == backslash || b == 0x2A || b == 0x3F || b == 0x21 || b == 0x23 || ruleSpace b

/-- One byte of an escaped path. -/
def escapeByte (b : UInt8) : GoString := if escaped b then [backslash, b] else [b]

/-- `EscapeIgnore`: the rule body that matches a path and nothing else. -/
def escapeIgnore (rel : GoString) : GoString := rel.flatMap escapeByte

/-- `unescapeIgnore`: the inverse of `escapeIgnore`. -/
def unescapeIgnore : GoString → GoString
  | [] => []
  | b :: rule =>
    if b == backslash then
      match rule with
      | [] => [b]
      | c :: rule => c :: unescapeIgnore rule
    else b :: unescapeIgnore rule

theorem escapeIgnore_cons (b : UInt8) (rel : GoString) :
    escapeIgnore (b :: rel) = escapeByte b ++ escapeIgnore rel := rfl

theorem escapeIgnore_concat (rel : GoString) (b : UInt8) :
    escapeIgnore (rel ++ [b]) = escapeIgnore rel ++ escapeByte b := by
  simp [escapeIgnore]

theorem escapeByte_of_escaped {b : UInt8} (h : escaped b = true) :
    escapeByte b = [backslash, b] := if_pos h

theorem escapeByte_of_plain {b : UInt8} (h : escaped b = false) : escapeByte b = [b] := by
  simp [escapeByte, h]

/-- A byte that is not escaped is none of those the dialect reads in a way of its own. -/
theorem ne_of_plain {b : UInt8} (h : escaped b = false) :
    b ≠ backslash ∧ b ≠ 0x2A ∧ b ≠ 0x3F ∧ ruleSpace b = false := by
  simp only [escaped, Bool.or_eq_false_iff, beq_eq_false_iff_ne] at h
  exact ⟨h.1.1.1.1.1, h.1.1.1.1.2, h.1.1.1.2, h.2⟩

theorem unescapeIgnore_escapeIgnore (rel : GoString) : unescapeIgnore (escapeIgnore rel) = rel := by
  induction rel with
  | nil => rfl
  | cons b rel ih =>
    rw [escapeIgnore_cons]
    cases h : escaped b
    · rw [escapeByte_of_plain h, List.singleton_append, unescapeIgnore.eq_def]
      simp [(ne_of_plain h).1, ih]
    · rw [escapeByte_of_escaped h]
      simp [unescapeIgnore, ih]

theorem mem_escapeIgnore {c : UInt8} {rel : GoString} (h : c ∈ escapeIgnore rel) :
    c = backslash ∨ c ∈ rel := by
  obtain ⟨b, hb, hc⟩ := List.mem_flatMap.mp h
  cases he : escaped b
  · rw [escapeByte_of_plain he, List.mem_singleton] at hc
    exact .inr (hc ▸ hb)
  · rw [escapeByte_of_escaped he] at hc
    rcases List.mem_pair.mp hc with rfl | rfl
    · exact .inl rfl
    · exact .inr hb

/-- An escaped path opens with a byte that is neither a slash nor white space. -/
theorem exists_escapeIgnore_eq_cons {rel : GoString} (hne : rel ≠ [])
    (hslash : ¬ [slash] <+: rel) :
    ∃ c rest, escapeIgnore rel = c :: rest ∧ c ≠ slash := by
  obtain ⟨b, rest, rfl⟩ := List.exists_cons_of_ne_nil hne
  rw [escapeIgnore_cons]
  cases h : escaped b
  · refine ⟨b, escapeIgnore rest, by rw [escapeByte_of_plain h]; rfl, ?_⟩
    rintro rfl
    exact hslash ⟨rest, rfl⟩
  · exact ⟨backslash, b :: escapeIgnore rest, by rw [escapeByte_of_escaped h]; rfl, by decide⟩

/-- An escaped path ends as the path does. -/
theorem exists_escapeIgnore_eq_concat {rel : GoString} (hne : rel ≠ [])
    (hslash : ¬ [slash] <:+ rel) :
    ∃ c rest, escapeIgnore rel = rest ++ [c] ∧ c ≠ slash := by
  obtain ⟨init, b, rfl⟩ := List.eq_nil_or_concat rel |>.resolve_left hne
  refine ⟨b, escapeIgnore init ++ if escaped b then [backslash] else [], ?_, ?_⟩
  · rw [List.concat_eq_append, escapeIgnore_concat, escapeByte]
    split <;> simp
  · rintro rfl
    exact hslash ⟨init, by simp⟩

/-- An even run of backslashes ends an escaped path, so nothing after it is escaped. -/
theorem escapedAt_escapeIgnore (rel : GoString) :
    escapedAt (escapeIgnore rel).reverse = false := by
  induction rel using List.reverseRecOn with
  | nil => rfl
  | append_singleton rel b ih =>
    rw [escapeIgnore_concat, List.reverse_append]
    by_cases hb : b = backslash
    · subst hb
      rw [escapeByte_of_escaped (by decide)]
      simp only [escapedAt, List.reverse_cons, List.reverse_nil, List.nil_append,
        List.cons_append, beq_eq_false_iff_ne] at ih ⊢
      simp only [List.takeWhile_cons, beq_self_eq_true, if_true, List.length_cons]
      omega
    · have hlast : ∃ rest, (escapeByte b).reverse = b :: rest := by
        rw [escapeByte]
        split
        · exact ⟨[backslash], rfl⟩
        · exact ⟨[], rfl⟩
      obtain ⟨rest, hrest⟩ := hlast
      rw [hrest]
      simp [escapedAt, hb]

/-! ### What an escaped body compiles to -/

/-- The loop over an escaped path reads the path, and no wildcard. -/
theorem buildBody_escapeIgnore (rel : GoString) (i : ℤ) (s : Build) :
    buildBody i (escapeIgnore rel) s =
      { s with source := s.source ++ rel.map Token.byte, literal := s.literal ++ rel,
               unescaped := s.unescaped ++ rel } := by
  induction rel generalizing i s with
  | nil => simp [escapeIgnore, buildBody]
  | cons b rel ih =>
    rw [escapeIgnore_cons]
    cases h : escaped b
    · obtain ⟨hback, hstar, hone, -⟩ := ne_of_plain h
      rw [escapeByte_of_plain h, List.singleton_append, buildBody.eq_def]
      simp [hback, hstar, hone, ih, Build.byte]
    · rw [escapeByte_of_escaped h]
      simp [buildBody, ih, Build.byte]

theorem elemsOf_bytes (bytes run : GoString) :
    elemsOf (bytes.map Token.byte) run =
      if validUTF8 (run ++ bytes) then some ((runes (run ++ bytes)).map Elem.lit) else none := by
  induction bytes generalizing run with
  | nil => simp [elemsOf]
  | cons b bytes ih => simp [elemsOf, ih]

/-- The pattern of the rule that re-includes a folder. -/
def folderPattern (dir : GoString) : Pattern :=
  { elems := (runes dir).map .lit, negate := true, lit := dir ++ [slash], exactSeg := dir
    segPrefix := dir ++ [slash], anchored := true, dirOnly := true }

theorem compileBody_escapeIgnore {dir : GoString} (hne : dir ≠ []) :
    compileBody true true true (escapeIgnore dir) =
      if validUTF8 dir then some (folderPattern dir) else none := by
  have hflush (stop : ℤ) : (buildBody 0 (escapeIgnore dir) {}).flush stop =
      { source := dir.map .byte, unescaped := dir, litStart := stop - dir.length, litEnd := stop,
        lit := dir } := by
    rw [buildBody_escapeIgnore]
    simp [Build.flush, hne]
  unfold compileBody
  rw [hflush]
  simp only [elemsOf_bytes, List.nil_append, Bool.false_eq_true, if_false]
  cases hutf : validUTF8 dir
  · rfl
  · simp [folderPattern, hne]

/-- The rule that re-includes a folder, escaped. -/
def folderRule (dir : GoString) : GoString := ascii "!/" ++ escapeIgnore dir ++ [slash]

theorem trimRuleSpace_of_tight {c d : UInt8} (mid : GoString) (hc : ruleSpace c = false)
    (hd : ruleSpace d = false) : trimRuleSpace (c :: (mid ++ [d])) = c :: (mid ++ [d]) := by
  simp [trimRuleSpace, hc, hd, trimRuleRight]

theorem trimDirSlashes_escapeIgnore {dir : GoString} (hne : dir ≠ [])
    (hslash : ¬ [slash] <:+ dir) :
    (trimDirSlashes (escapeIgnore dir ++ [slash]).reverse).reverse = escapeIgnore dir := by
  obtain ⟨c, rest, hrest, hc⟩ := exists_escapeIgnore_eq_concat hne hslash
  have hat := escapedAt_escapeIgnore dir
  rw [List.reverse_append, List.reverse_singleton, List.singleton_append, trimDirSlashes, hat]
  rw [hrest, List.reverse_append, List.reverse_singleton, List.singleton_append]
  simp [trimDirSlashes, hc]

/-- **The rule of a folder compiles exactly when the folder's name is UTF-8.** -/
theorem compile_folderRule {dir : GoString} (hne : dir ≠ []) (hpre : ¬ [slash] <+: dir)
    (hsuf : ¬ [slash] <:+ dir) :
    compile (folderRule dir) = if validUTF8 dir then some (folderPattern dir) else none := by
  have htrim : trimRuleSpace (folderRule dir) = folderRule dir :=
    trimRuleSpace_of_tight (slash :: escapeIgnore dir) (by decide) (by decide)
  have htrim' : trimRuleSpace (slash :: (escapeIgnore dir ++ [slash])) =
      slash :: (escapeIgnore dir ++ [slash]) :=
    trimRuleSpace_of_tight (escapeIgnore dir) (by decide) (by decide)
  have hcons : folderRule dir = 0x21 :: slash :: (escapeIgnore dir ++ [slash]) := rfl
  obtain ⟨c, rest, hrest, hc⟩ := exists_escapeIgnore_eq_cons hne hpre
  have hbody : (slash :: (escapeIgnore dir ++ [slash])).dropWhile (fun b => b == slash) =
      escapeIgnore dir ++ [slash] := by
    rw [List.dropWhile_cons_of_pos (by simp), hrest, List.cons_append,
      List.dropWhile_cons_of_neg (by simpa using hc)]
  have hnonempty : escapeIgnore dir ≠ [] := by simp [hrest]
  unfold compile
  rw [htrim, hcons]
  have hnegate : hasPrefix (0x21 :: slash :: (escapeIgnore dir ++ [slash])) (ascii "!") = true := by
    rw [hasPrefix_iff]
    exact ⟨_, rfl⟩
  have hcomment : hasPrefix (0x21 :: slash :: (escapeIgnore dir ++ [slash])) (ascii "#") = false := by
    rw [hasPrefix_eq_false_iff]
    rintro ⟨t, ht⟩
    simp [ascii] at ht
  have hanchored : hasPrefix (slash :: (escapeIgnore dir ++ [slash])) [slash] = true := by
    rw [hasPrefix_iff]
    exact ⟨_, rfl⟩
  simp only [hnegate, hcomment, List.tail_cons, htrim', hanchored, hbody,
    trimDirSlashes_escapeIgnore hne hsuf, hnonempty, reduceCtorEq, Bool.false_eq_true, or_self,
    if_false, if_true, List.length_append, List.length_singleton, Nat.lt_succ_self, decide_true]
  exact compileBody_escapeIgnore hne

/-- A folder's rule matches what lies under the folder. -/
theorem folderPattern_matches {dir : GoString} (hne : dir ≠ []) (q : GoString) :
    (folderPattern dir).matches q = hasPrefix q (dir ++ [slash]) := by
  simp [Pattern.matches, folderPattern, hne]

end Beardrive
