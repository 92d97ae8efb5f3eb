import Beardrive.Cmd.ScopeFile
import Beardrive.Syncer.Cycle
import Beardrive.Syncer.RuleMeaning

/-!
# `bdrive forget`

`bdrive forget` writes one rule for a path to the end of `.bdriveignore` and prunes the hub by the
rules of the file. The path is escaped, so that no byte of it means anything to the dialect, and a
path that is a directory gets a slash at its end.

## What the rule means

A rule with a slash inside is anchored, so for a path below the top of the project the rule means
that path. A name at the top has no slash to anchor it, and its rule means that name at any depth.
A path that is not UTF-8 makes a rule that does not compile. The rule of a directory does not mean
the directory's own path. And a rule that is there already is not written again, whether or not
the lines behind it leave it in force; the comparison knows the white space of Unicode, and the
dialect does not.

## Main definitions

* `ignoreRule`, `appendIgnoreRules` — the command
* `ForgetsExactly`, `ForgetSafe` — what it is for, and when it does it

## Main results

* `forgets_exactly_iff` — it forgets the path and nothing else exactly when it is safe
-/

namespace Beardrive

/-! ### The command -/

/-- An absolute path, cleaned: the names that lead to it. -/
structure AbsPath where
  names : List GoString
  plain : ∀ name ∈ names, Plain name ∧ slash ∉ name := by decide

/-- `filepath.Rel` between absolute paths, as names: up from what only the base has, then down. -/
def relNames : List GoString → List GoString → List GoString
  | r :: root, a :: abs =>
    if r = a then relNames root abs else (r :: root).map (fun _ => ascii "..") ++ a :: abs
  | root, abs => root.map (fun _ => ascii "..") ++ abs

/-- `filepath.Rel`. -/
def relPath (root abs : AbsPath) : GoString :=
  let names := relNames root.names abs.names
  if names = [] then ascii "." else joinSlash names

/-- Why `forget` refuses a path. -/
inductive ForgetError where
  /-- The path is outside the project. -/
  | outside
  /-- The path contains a control character, which would write more than one rule. -/
  | control
  /-- `.bdriveignore` carries the rules themselves and always syncs. -/
  | ignoreFile
  deriving DecidableEq, Repr

/-- A path as a rule: escaped, and closed by a slash if it is a directory. -/
def forgetRule (rel : GoString) (isDir : Bool) : GoString :=
  escapeIgnore rel ++ if isDir then [slash] else []

/-- `ignoreRule`: a path as a line of `.bdriveignore`. `isDir` is what `os.Stat` tells of it. -/
def ignoreRule (root abs : AbsPath) (isDir : Bool) : Except ForgetError GoString :=
  let rel := relPath root abs
  if rel = ascii "." ∨ rel = ascii ".." ∨ hasPrefix rel (ascii "../") then .error .outside
  else if hasControlRune rel then .error .control
  else if rel = ignoreFile then .error .ignoreFile
  else .ok (forgetRule rel isDir)

/-- What a file comes to: the rules that were written, and the text. -/
structure Appended where
  added : List GoString := []
  body : GoString

/-- One rule, unless a line of the file as it was is that rule. -/
def Appended.append (present : List GoString) (s : Appended) (rule : GoString) : Appended :=
  if rule ∈ present ∨ rule ∈ s.added then s
  else
    let body := if s.body ≠ [] ∧ !hasSuffix s.body [0x0A] then s.body ++ [0x0A] else s.body
    { added := s.added ++ [rule], body := body ++ rule ++ [0x0A] }

/-- `appendIgnoreRules`: the text of the file afterwards. -/
def appendIgnoreRules (text : Option GoString) (rules : List GoString) : Option GoString :=
  let data := text.getD []
  let present := (splitLF data).map trimSpace
  let s := rules.foldl (Appended.append present) { body := data }
  if s.added = [] then text else some s.body

/-! ### What `forget` is for -/

/-- The filter of the rules in a text. -/
def rulesFilter (isMount : GoString → Bool) (text : Option GoString) (includes : List GoString) :
    Filter := loadFilter text includes isMount

/-- **What `forget` is for**: afterwards the filter excludes the path and what lies under it, it
answers as before for every other path, and a prune by the rules of the file deletes nothing
else. -/
structure ForgetsExactly (isMount : GoString → Bool) (text : Option GoString) (rel rule : GoString)
    (all : List Op) : Prop where
  excludes : ∀ includes c, below rel c = true →
    (rulesFilter isMount (appendIgnoreRules text [rule]) includes).skip c = true
  others : ∀ includes c, below rel c = false →
    (rulesFilter isMount (appendIgnoreRules text [rule]) includes).skip c =
      (rulesFilter isMount text includes).skip c
  prunes : ∀ stamp now t,
    ∀ op ∈ (pruneOps (rulesFilter isMount (appendIgnoreRules text [rule]) []) stamp now all t).ops,
      op ∈ t.ops ∨ below rel op.path = true

/-- Whether a name stands in a path below its first segment. -/
def deeper (rel : GoString) (isDir : Bool) (c : GoString) : Bool :=
  contains c (slash :: rel ++ [slash]) || (!isDir && hasSuffix c (slash :: rel))

/-- **When `forget` does what it is for.** Either the rule is new and compiles, it is anchored or
nothing that syncs has the name further down, and if it is the rule of a directory then the
directory's own path is excluded already; or all that it should exclude is excluded already. And
the rules prune nothing, or nothing else that the project holds is excluded already. -/
structure ForgetSafe (isMount : GoString → Bool) (text : Option GoString) (rel rule : GoString)
    (isDir : Bool) (all : List Op) : Prop where
  rule : if rule ∉ (splitLF (text.getD [])).map trimSpace ∧ validUTF8 rel = true then
      (isDir = true → (rulesFilter isMount text []).skip rel = true) ∧
        (slash ∈ rel ∨ ∀ c, deeper rel isDir c = true → below rel c = false →
          (rulesFilter isMount text []).skip c = true)
    else ∀ c, below rel c = true → (rulesFilter isMount text []).skip c = true
  prune : (rulesFilter isMount text []).negated = true ∨
    ∀ c, (replay all c).isSome = true → below rel c = false →
      (rulesFilter isMount text []).skip c = false ∧ neverSync c = false

/-! ### The rule -/

/-- What is not below the base is reached by going up first. -/
theorem relNames_cases (root abs : List GoString) :
    (∃ rest, abs = root ++ rest ∧ relNames root abs = rest) ∨
      ∃ rest, relNames root abs = ascii ".." :: rest := by
  induction root generalizing abs with
  | nil => exact .inl ⟨abs, rfl, by cases abs <;> rfl⟩
  | cons r root ih =>
    cases abs with
    | nil => exact .inr ⟨_, rfl⟩
    | cons a abs =>
      rw [relNames]
      split
      case isTrue h =>
        subst h
        exact (ih abs).imp (fun ⟨rest, habs, hrest⟩ => ⟨rest, by rw [habs]; rfl, hrest⟩) id
      case isFalse => exact .inr ⟨_, rfl⟩

/-- What `forget` writes a rule for: a path below the top of the project, without a line break. -/
structure Forgettable (rel : GoString) : Prop where
  nonempty : rel ≠ []
  not_prefix : ¬ [slash] <+: rel
  not_suffix : ¬ [slash] <:+ rel
  no_control : hasControlRune rel = false
  ne_ignoreFile : rel ≠ ignoreFile

theorem forgettable_of_ignoreRule {root abs : AbsPath} {isDir : Bool} {rule : GoString}
    (h : ignoreRule root abs isDir = .ok rule) :
    Forgettable (relPath root abs) ∧ rule = forgetRule (relPath root abs) isDir := by
  rw [ignoreRule] at h
  split_ifs at h with hout hctrl hfile
  rw [not_or, not_or] at hout
  rcases relNames_cases root.names abs.names with ⟨rest, habs, hrel⟩ | ⟨rest, hrel⟩
  · have hne : rest ≠ [] := by
      rintro rfl
      exact hout.1 (by rw [relPath, if_pos hrel])
    have hpath : relPath root abs = joinSlash rest := by
      rw [relPath, if_neg (by rw [hrel]; exact hne), hrel]
    obtain ⟨h1, h2, h3⟩ := joinSlash_tight hne fun name hname =>
      abs.plain name (by rw [habs]; exact List.mem_append_right _ hname)
    rw [← hpath] at h1 h2 h3
    exact ⟨⟨h1, h2, h3, Bool.not_eq_true _ ▸ hctrl, hfile⟩, (Except.ok.inj h).symm⟩
  · have hpath : relPath root abs = joinSlash (ascii ".." :: rest) := by
      rw [relPath, if_neg (by rw [hrel]; simp), hrel]
    cases hrest : rest with
    | nil => exact absurd (by rw [hpath, hrest]; rfl) hout.2.1
    | cons name rest' =>
      refine absurd (hasPrefix_iff.mpr ?_) hout.2.2
      rw [hpath, hrest, joinSlash_cons _ (by simp)]
      exact ⟨joinSlash (name :: rest'), rfl⟩

theorem Forgettable.no_lineFeed {rel : GoString} (h : Forgettable rel) : (0x0A : UInt8) ∉ rel :=
  lineFeed_not_mem_of_hasControlRune h.no_control

/-! ### What the rule compiles to -/

/-- Escaping does not hide a slash. -/
theorem hasBareSlash_escapeIgnore (rel : GoString) :
    hasBareSlash (escapeIgnore rel) = rel.contains slash := by
  induction rel with
  | nil => rfl
  | cons b rel ih =>
    rw [escapeIgnore_cons, List.contains_cons]
    cases h : escaped b with
    | true =>
      have hb : (slash == b) = false := by
        rw [beq_eq_false_iff_ne]
        rintro rfl
        exact absurd h (by decide)
      rw [escapeByte_of_escaped h, hb, Bool.false_or, ← ih]
      rfl
    | false =>
      have hback : (b == backslash) = false := beq_eq_false_iff_ne.mpr (ne_of_plain h).1
      rw [escapeByte_of_plain h, List.singleton_append, hasBareSlash.eq_def]
      simp only [hback, Bool.false_eq_true, if_false, ih]
      rw [Bool.beq_comm]

/-- A rule that is an escaped path opens with a byte that means nothing to the dialect. -/
theorem exists_escapeIgnore_head {rel : GoString} (hne : rel ≠ []) (hslash : ¬ [slash] <+: rel) :
    ∃ c rest, escapeIgnore rel = c :: rest ∧ c ≠ slash ∧ c ≠ 0x21 ∧ c ≠ 0x23 ∧
      ruleSpace c = false := by
  obtain ⟨b, rest, rfl⟩ := List.exists_cons_of_ne_nil hne
  rw [escapeIgnore_cons]
  cases h : escaped b with
  | true =>
    exact ⟨backslash, b :: escapeIgnore rest, by rw [escapeByte_of_escaped h]; rfl, by decide⟩
  | false =>
    refine ⟨b, escapeIgnore rest, by rw [escapeByte_of_plain h]; rfl, ?_⟩
    simp only [escaped, Bool.or_eq_false_iff, beq_eq_false_iff_ne] at h
    refine ⟨?_, h.1.1.2, h.1.2, h.2⟩
    rintro rfl
    exact hslash ⟨rest, rfl⟩

theorem escapedAt_cons (rev : GoString) : escapedAt (backslash :: rev) = !escapedAt rev := by
  rw [escapedAt, escapedAt, List.takeWhile_cons_of_pos (by rfl), List.length_cons]
  rcases Nat.mod_two_eq_zero_or_one (rev.takeWhile fun b => b == backslash).length with h | h <;>
    simp [h, Nat.add_mod]

/-- The trimmer leaves what ends an escaped path, be it white space. -/
theorem trimRuleRight_escapeIgnore (rel : GoString) :
    trimRuleRight (escapeIgnore rel).reverse = (escapeIgnore rel).reverse := by
  cases rel using List.reverseRecOn with
  | nil => rfl
  | append_singleton init b =>
    rw [escapeIgnore_concat, List.reverse_append]
    cases h : escaped b with
    | true =>
      rw [escapeByte_of_escaped h]
      show trimRuleRight (b :: backslash :: (escapeIgnore init).reverse) = _
      rw [trimRuleRight, escapedAt_cons, escapedAt_escapeIgnore, Bool.not_false, Bool.not_true,
        Bool.and_false, if_neg Bool.false_ne_true]
      rfl
    | false =>
      rw [escapeByte_of_plain h]
      show trimRuleRight (b :: (escapeIgnore init).reverse) = _
      rw [trimRuleRight, (ne_of_plain h).2.2.2, Bool.false_and, if_neg Bool.false_ne_true]
      rfl

/-- The pattern of the rule that forgets a path. -/
structure Forgetting (rel : GoString) (isDir : Bool) (p : Pattern) : Prop where
  fine : p.Fine
  negate : p.negate = false
  exactSeg : p.exactSeg = rel
  anchored : p.anchored = rel.contains slash
  dirOnly : p.dirOnly = isDir

theorem compileBody_forget {rel : GoString} (hne : rel ≠ []) (isDir : Bool) :
    if validUTF8 rel then
      ∃ p, compileBody false false isDir (escapeIgnore rel) = some p ∧ Forgetting rel isDir p
    else compileBody false false isDir (escapeIgnore rel) = none := by
  have hflush (stop : ℤ) : (buildBody 0 (escapeIgnore rel) {}).flush stop =
      { source := rel.map Token.byte, unescaped := rel, litStart := stop - rel.length, litEnd := stop,
        lit := rel } := by
    rw [buildBody_escapeIgnore]
    simp [Build.flush, hne]
  have helems : elemsOf (rel.map Token.byte) [] =
      if validUTF8 rel then some ((runes rel).map Elem.lit) else none := elemsOf_bytes rel []
  cases hutf : validUTF8 rel with
  | true =>
    rw [hutf, if_pos rfl] at helems
    have hsome : ∃ p, compileBody false false isDir (escapeIgnore rel) = some p ∧
        p.negate = false ∧ p.exactSeg = rel ∧ p.anchored = rel.contains slash ∧
        p.dirOnly = isDir := by
      rw [compileBody, hflush, helems]
      exact ⟨_, rfl, rfl, rfl, hasBareSlash_escapeIgnore rel, rfl⟩
    obtain ⟨p, hp, h1, h2, h3, h4⟩ := hsome
    exact ⟨p, hp, fine_of_compileBody hp, h1, h2, h3, h4⟩
  | false =>
    rw [hutf, if_neg Bool.false_ne_true] at helems
    rw [if_neg Bool.false_ne_true, compileBody, hflush, helems]
    rfl

theorem trimRuleSpace_forgetRule {rel : GoString} (h : Forgettable rel) (isDir : Bool) :
    trimRuleSpace (forgetRule rel isDir) = forgetRule rel isDir := by
  obtain ⟨c, rest, hhead, -, -, -, hspace⟩ := exists_escapeIgnore_head h.nonempty h.not_prefix
  rw [trimRuleSpace, forgetRule, hhead, List.cons_append,
    List.dropWhile_cons_of_neg (by simp [hspace]), ← List.cons_append, ← hhead]
  cases isDir with
  | true =>
    rw [if_pos rfl, List.reverse_append]
    simp [trimRuleRight, ruleSpace, slash]
  | false =>
    rw [if_neg Bool.false_ne_true, List.append_nil, trimRuleRight_escapeIgnore,
      List.reverse_reverse]

theorem trimDirSlashes_forgetRule {rel : GoString} (h : Forgettable rel) (isDir : Bool) :
    (trimDirSlashes (forgetRule rel isDir).reverse).reverse = escapeIgnore rel := by
  cases isDir with
  | true => exact trimDirSlashes_escapeIgnore h.nonempty h.not_suffix
  | false =>
    obtain ⟨d, init, hlast, hd⟩ := exists_escapeIgnore_eq_concat h.nonempty h.not_suffix
    rw [forgetRule, if_neg Bool.false_ne_true, List.append_nil, hlast, List.reverse_append,
      List.reverse_singleton, List.singleton_append, trimDirSlashes]
    simp [hd]

/-- **What the rule of a path compiles to**: nothing unless the path is UTF-8. -/
theorem compile_forgetRule {rel : GoString} (h : Forgettable rel) (isDir : Bool) :
    if validUTF8 rel then
      ∃ p, compile (forgetRule rel isDir) = some p ∧ Forgetting rel isDir p
    else compile (forgetRule rel isDir) = none := by
  obtain ⟨c, rest, hhead, hslash, hbang, hhash, -⟩ :=
    exists_escapeIgnore_head h.nonempty h.not_prefix
  have hcons : forgetRule rel isDir = c :: (rest ++ if isDir then [slash] else []) := by
    rw [forgetRule, hhead, List.cons_append]
  have hfirst {b : UInt8} (hb : c ≠ b) : hasPrefix (forgetRule rel isDir) [b] = false := by
    rw [hasPrefix_eq_false_iff, hcons]
    rintro ⟨t, ht⟩
    exact hb (List.cons.inj ht).1.symm
  have hbody : (forgetRule rel isDir).dropWhile (fun b => b == slash) = forgetRule rel isDir := by
    rw [hcons, List.dropWhile_cons_of_neg (by simpa using hslash)]
  have hlen : decide ((escapeIgnore rel).length < (forgetRule rel isDir).length) = isDir := by
    cases isDir <;> simp [forgetRule]
  have hcompile : compile (forgetRule rel isDir) =
      compileBody false false isDir (escapeIgnore rel) := by
    have hcomment : hasPrefix (forgetRule rel isDir) (ascii "#") = false := hfirst hhash
    have hnegate : hasPrefix (forgetRule rel isDir) (ascii "!") = false := hfirst hbang
    have hne : forgetRule rel isDir ≠ [] := by
      rw [hcons]
      exact List.cons_ne_nil _ _
    have hescaped : escapeIgnore rel ≠ [] := by
      rw [hhead]
      exact List.cons_ne_nil _ _
    rw [compile, trimRuleSpace_forgetRule h]
    simp only [hcomment, hnegate, hne, hfirst hslash, hbody, trimDirSlashes_forgetRule h, hescaped,
      hlen, Bool.false_eq_true, or_self, if_false]
  rw [hcompile]
  exact compileBody_forget h.nonempty isDir

/-! ### What the rule matches -/

/-- **What the rule of a path matches**: the path, unless it is a directory's, and what lies below;
and the same at any depth, where the path is a name. -/
theorem Forgetting.matches_iff {rel : GoString} (hne : rel ≠ []) {isDir : Bool} {p : Pattern}
    (h : Forgetting rel isDir p) (c : GoString) : p.matches c = true ↔
      (below rel c = true ∧ (isDir = true → c ≠ rel)) ∨
        (slash ∉ rel ∧ deeper rel isDir c = true) := by
  have hexact : p.exactSeg ≠ [] := by rw [h.exactSeg]; exact hne
  have hpre := h.fine.segPrefix hexact
  rw [h.exactSeg] at hpre
  -- a path is not what lies inside it
  have hself : hasPrefix rel (rel ++ [slash]) = false := by
    rw [hasPrefix_eq_false_iff]
    intro hp
    have hlen := hp.length_le
    rw [List.length_append, List.length_singleton] at hlen
    omega
  have hinside : (below rel c = true ∧ c ≠ rel) ↔ hasPrefix c (rel ++ [slash]) = true := by
    rw [below, Bool.or_eq_true, beq_iff_eq]
    refine ⟨fun h => h.1.resolve_left h.2, fun h => ⟨.inr h, ?_⟩⟩
    rintro rfl
    rw [hself] at h
    cases h
  rw [Pattern.matches, if_pos hexact]
  have hanch := h.anchored
  cases hslash : rel.contains slash with
  | true =>
    rw [hslash] at hanch
    have hmem : slash ∈ rel := List.contains_iff_mem.mp hslash
    rw [if_pos hanch, h.dirOnly, hpre, h.exactSeg]
    cases isDir with
    | true =>
      rw [if_pos rfl, ← hinside]
      exact ⟨fun h => .inl ⟨h.1, fun _ => h.2⟩, fun h => h.elim (fun h => ⟨h.1, h.2 rfl⟩)
        fun h => absurd hmem h.1⟩
    | false =>
      rw [if_neg Bool.false_ne_true]
      exact ⟨fun h => .inl ⟨h, fun hdir => by cases hdir⟩,
        fun h => h.elim (·.1) fun h => absurd hmem h.1⟩
  | false =>
    rw [hslash] at hanch
    have hmem : slash ∉ rel := fun hmem => by
      rw [List.contains_iff_mem.mpr hmem] at hslash
      cases hslash
    have hin := h.fine.segInfix hexact hanch
    have hsuf := h.fine.segSuffix hexact hanch
    rw [h.exactSeg] at hin hsuf
    rw [if_neg (by rw [hanch]; exact Bool.false_ne_true), h.dirOnly, hpre, hin, hsuf, h.exactSeg,
      deeper]
    cases isDir with
    | true =>
      rw [if_pos rfl, Bool.or_eq_true, ← hinside, Bool.not_true, Bool.false_and, Bool.or_false]
      exact or_congr ⟨fun h => ⟨h.1, fun _ => h.2⟩, fun h => ⟨h.1, h.2 rfl⟩⟩
        ⟨fun h => ⟨hmem, h⟩, fun h => h.2⟩
    | false =>
      rw [if_neg Bool.false_ne_true, Bool.not_false, Bool.true_and, ← below, Bool.or_assoc,
        Bool.or_eq_true, Bool.or_comm]
      exact or_congr ⟨fun h => ⟨h, fun hdir => by cases hdir⟩, fun h => h.1⟩
        ⟨fun h => ⟨hmem, h⟩, fun h => h.2⟩

/-! ### The rules afterwards -/

@[simp] theorem compileRules_nil : compileRules [] = [] := rfl

theorem compileRules_append (init rest : GoString) :
    compileRules (init ++ 0x0A :: rest) = compileRules init ++ compileRules rest := by
  rw [compileRules, splitLF, List.splitOn_append_cons_self, List.filterMap_append]
  rfl

theorem compileRules_line {line : GoString} (h : (0x0A : UInt8) ∉ line) :
    compileRules (line ++ [0x0A]) = (compile line).toList := by
  rw [compileRules_append, compileRules_nil, List.append_nil, compileRules, splitLF,
    List.splitOn_eq_singleton h]
  cases hc : compile line <;> simp [hc]

/-- Whether a rule is not in the file yet. -/
abbrev RuleNew (text : Option GoString) (rule : GoString) : Prop :=
  rule ∉ (splitLF (text.getD [])).map trimSpace

theorem appendIgnoreRules_of_present {text : Option GoString} {rule : GoString}
    (h : ¬ RuleNew text rule) : appendIgnoreRules text [rule] = text := by
  rw [RuleNew, not_not] at h
  have happend : Appended.append ((splitLF (text.getD [])).map trimSpace) { body := text.getD [] }
      rule = { body := text.getD [] } := if_pos (.inl h)
  rw [appendIgnoreRules, List.foldl_cons, List.foldl_nil, happend, if_pos rfl]

/-- **The rules of the file afterwards**: the rules before it, and then the one that is new. -/
theorem compileRules_appendIgnoreRules {text : Option GoString} {rule : GoString}
    (hnew : RuleNew text rule) (hlf : (0x0A : UInt8) ∉ rule) :
    compileRules ((appendIgnoreRules text [rule]).getD []) =
      compileRules (text.getD []) ++ (compile rule).toList := by
  have happend : Appended.append ((splitLF (text.getD [])).map trimSpace) { body := text.getD [] }
      rule = ⟨[rule], (if text.getD [] ≠ [] ∧ !hasSuffix (text.getD []) [0x0A] then
        text.getD [] ++ [0x0A] else text.getD []) ++ rule ++ [0x0A]⟩ :=
    if_neg (by rw [not_or]; exact ⟨hnew, List.not_mem_nil⟩)
  rw [appendIgnoreRules, List.foldl_cons, List.foldl_nil, happend,
    if_neg (List.cons_ne_nil _ _), Option.getD_some, List.append_assoc]
  generalize text.getD [] = data
  rcases eq_or_ne data [] with rfl | hne
  · rw [if_neg (by simp), List.nil_append, compileRules_line hlf, compileRules_nil, List.nil_append]
  · cases hend : hasSuffix data [0x0A] with
    | true =>
      obtain ⟨init, rfl⟩ := hasSuffix_iff.mp hend
      rw [if_neg (by simp), List.append_assoc, List.singleton_append, compileRules_append,
        compileRules_line hlf, compileRules_append, compileRules_nil, List.append_nil]
    | false =>
      rw [if_pos ⟨hne, rfl⟩, List.append_assoc, List.singleton_append, compileRules_append,
        compileRules_line hlf]

/-- The last rule decides where it matches. -/
theorem ignoredBy_concat (pats : List Pattern) (q : Pattern) (c : GoString) :
    ignoredBy (pats ++ [q]) c = if q.matches c then !q.negate else ignoredBy pats c := by
  rw [ignoredBy, List.reverse_append, List.reverse_singleton, List.singleton_append,
    List.find?_cons]
  cases q.matches c with
  | true => rfl
  | false => rfl

theorem rulesFilter_ignore (isMount : GoString → Bool) (text : Option GoString)
    (includes : List GoString) :
    (rulesFilter isMount text includes).ignore = compileRules (text.getD []) := by
  cases text <;> rfl

theorem rulesFilter_negated (isMount : GoString → Bool) (text : Option GoString)
    (includes : List GoString) : (rulesFilter isMount text includes).negated =
      (compileRules (text.getD [])).any (·.negate) := by
  cases text <;> rfl

/-- A filter is made from the rules of the text. -/
theorem rulesFilter_congr (isMount : GoString → Bool) {text text' : Option GoString}
    (h : compileRules (text'.getD []) = compileRules (text.getD [])) (includes : List GoString) :
    rulesFilter isMount text' includes = rulesFilter isMount text includes := by
  have hmap (t : Option GoString) : (t.map compileRules).getD [] = compileRules (t.getD []) := by
    cases t <;> rfl
  rw [rulesFilter, loadFilter, hmap, h, ← hmap]
  rfl

/-- What the rules exclude is excluded whatever is included. -/
theorem skip_of_skip_nil {isMount : GoString → Bool} {text : Option GoString} {c : GoString}
    (h : (rulesFilter isMount text []).skip c = true) (includes : List GoString) :
    (rulesFilter isMount text includes).skip c = true := by
  rw [Filter.skip] at h ⊢
  split_ifs at h with hfile hrule
  · rw [if_neg hfile]
    exact if_pos hrule
  · rename_i hnil
    exact absurd rfl hnil

/-- **One more rule**: what it matches is excluded now, and the rest is answered as before. -/
theorem skip_concat {isMount : GoString → Bool} {text text' : Option GoString} {q : Pattern}
    (h : compileRules (text'.getD []) = compileRules (text.getD []) ++ [q])
    (hq : q.negate = false) {c : GoString} (hc : c ≠ ignoreFile) (includes : List GoString) :
    (rulesFilter isMount text' includes).skip c =
      (q.matches c || (rulesFilter isMount text includes).skip c) := by
  rw [Filter.skip, Filter.skip, if_neg hc, if_neg hc, Filter.ignoredFile, Filter.ignoredFile,
    rulesFilter_ignore, rulesFilter_ignore, h, ignoredBy_concat, hq]
  cases q.matches c with
  | true => rw [if_pos rfl, Bool.not_false, Bool.or_true, if_pos rfl, Bool.true_or]
  | false =>
    rw [if_neg Bool.false_ne_true, Bool.false_or]
    rfl

/-! ### Forgetting -/

/-- **When the prune keeps to the path**: the rules prune nothing, or nothing that the project
holds elsewhere is excluded by the rules before, or by name. -/
theorem prunes_iff {isMount : GoString → Bool} {text text' : Option GoString} {rel : GoString}
    (all : List Op)
    (hneg : (rulesFilter isMount text' []).negated = (rulesFilter isMount text []).negated)
    (hothers : ∀ c, below rel c = false →
      (rulesFilter isMount text' []).skip c = (rulesFilter isMount text []).skip c) :
    (∀ stamp now t, ∀ op ∈ (pruneOps (rulesFilter isMount text' []) stamp now all t).ops,
      op ∈ t.ops ∨ below rel op.path = true) ↔
      ((rulesFilter isMount text []).negated = true ∨
        ∀ c, (replay all c).isSome = true → below rel c = false →
          (rulesFilter isMount text []).skip c = false ∧ neverSync c = false) := by
  constructor
  · intro hprunes
    cases hplain : (rulesFilter isMount text []).negated with
    | true => exact .inl rfl
    | false =>
      refine .inr fun c hheld hout => ?_
      by_contra hexcluded
      have hrule : (rulesFilter isMount text' []).skip c = true ∨ neverSync c = true := by
        rw [hothers c hout]
        simpa only [not_and_or, Bool.not_eq_false] using hexcluded
      obtain ⟨t, ht⟩ := @exists_mem_pruneOps _ { device := [] } (fun _ => {}) _ ⟨0, 0, []⟩ _
        (mem_prunedPaths.mpr ⟨hheld, hrule⟩) (hneg.trans hplain)
      rcases hprunes _ _ _ _ ht with hmem | hbelow
      · cases hmem
      · rw [show (t.nextOp _ _ (pruneOp c)).path = c from rfl, hout] at hbelow
        cases hbelow
  · intro hsafe stamp now t op hop
    rcases exists_of_mem_pruneOps hop with hold | ⟨hplain, c, hc, t', rfl⟩
    · exact .inl hold
    · refine .inr ?_
      show below rel c = true
      by_contra hout
      rw [Bool.not_eq_true] at hout
      obtain ⟨hheld, hrule⟩ := mem_prunedPaths.mp hc
      rcases hsafe with hneg' | hclean
      · rw [hneg, hneg'] at hplain
        cases hplain
      · obtain ⟨hskip, hnever⟩ := hclean c hheld hout
        rw [hothers c hout, hskip, hnever] at hrule
        rcases hrule with hrule | hrule <;> cases hrule

/-- A rule that changes nothing forgets what is excluded already. -/
theorem forgetsExactly_of_same {isMount : GoString → Bool} {text : Option GoString}
    {rel rule : GoString} {all : List Op}
    (h : compileRules ((appendIgnoreRules text [rule]).getD []) = compileRules (text.getD [])) :
    ForgetsExactly isMount text rel rule all ↔
      (∀ c, below rel c = true → (rulesFilter isMount text []).skip c = true) ∧
        ((rulesFilter isMount text []).negated = true ∨
          ∀ c, (replay all c).isSome = true → below rel c = false →
            (rulesFilter isMount text []).skip c = false ∧ neverSync c = false) := by
  have hsame (includes : List GoString) : rulesFilter isMount (appendIgnoreRules text [rule])
      includes = rulesFilter isMount text includes := rulesFilter_congr isMount h includes
  have hprunes := @prunes_iff isMount text (appendIgnoreRules text [rule]) rel all
    (congrArg Filter.negated (hsame [])) (fun c _ => congrArg (·.skip c) (hsame []))
  constructor
  · intro hforgets
    refine ⟨fun c hc => ?_, hprunes.mp hforgets.prunes⟩
    rw [← hsame]
    exact hforgets.excludes [] c hc
  · rintro ⟨hexcludes, hprune⟩
    refine ⟨fun includes c hc => ?_, fun includes c _ => by rw [hsame], hprunes.mpr hprune⟩
    rw [hsame]
    exact skip_of_skip_nil (hexcludes c hc) includes

/-- **What a new rule does.** -/
theorem forgetsExactly_of_new {isMount : GoString → Bool} {text : Option GoString}
    {rel rule : GoString} {isDir : Bool} {all : List Op} {q : Pattern} (hrel : Forgettable rel)
    (h : compileRules ((appendIgnoreRules text [rule]).getD []) =
      compileRules (text.getD []) ++ [q]) (hq : Forgetting rel isDir q) :
    ForgetsExactly isMount text rel rule all ↔
      ((isDir = true → (rulesFilter isMount text []).skip rel = true) ∧
        (slash ∈ rel ∨ ∀ c, deeper rel isDir c = true → below rel c = false →
          (rulesFilter isMount text []).skip c = true)) ∧
        ((rulesFilter isMount text []).negated = true ∨
          ∀ c, (replay all c).isSome = true → below rel c = false →
            (rulesFilter isMount text []).skip c = false ∧ neverSync c = false) := by
  -- the ignore file is not below the path, and the rule does not match it
  have hfile : below rel ignoreFile = false := by
    rw [below, Bool.or_eq_false_iff, beq_eq_false_iff_ne, hasPrefix_eq_false_iff]
    refine ⟨hrel.ne_ignoreFile.symm, fun hp => ?_⟩
    have hmem : slash ∈ ignoreFile := hp.subset (by simp)
    revert hmem
    decide
  have hskip {c : GoString} (hc : c ≠ ignoreFile) (includes : List GoString) :
      (rulesFilter isMount (appendIgnoreRules text [rule]) includes).skip c =
        (q.matches c || (rulesFilter isMount text includes).skip c) :=
    skip_concat h hq.negate hc includes
  have hmatch := hq.matches_iff hrel.nonempty
  have hneg : (rulesFilter isMount (appendIgnoreRules text [rule]) []).negated =
      (rulesFilter isMount text []).negated := by
    rw [rulesFilter_negated, rulesFilter_negated, h, List.any_append, List.any_cons, hq.negate]
    simp
  constructor
  · intro hforgets
    refine ⟨⟨fun hdir => ?_, or_iff_not_imp_left.mpr fun hslash c hdeep hout => ?_⟩,
      (prunes_iff all hneg fun c hc => hforgets.others [] c hc).mp hforgets.prunes⟩
    · have hself := hforgets.excludes [] rel (by simp [below])
      rw [hskip hrel.ne_ignoreFile, Bool.or_eq_true] at hself
      refine hself.resolve_left fun hm => ?_
      rcases (hmatch rel).mp hm with ⟨-, hne⟩ | ⟨-, hdeep⟩
      · exact hne hdir rfl
      · rw [deeper, hdir, Bool.not_true, Bool.false_and, Bool.or_false, contains_iff] at hdeep
        have hlen := hdeep.length_le
        simp only [List.length_append, List.length_cons, List.length_nil] at hlen
        omega
    · have hne : c ≠ ignoreFile := by
        rintro rfl
        rw [deeper, Bool.or_eq_true, contains_iff, Bool.and_eq_true, hasSuffix_iff] at hdeep
        have hmem : slash ∈ ignoreFile := by
          rcases hdeep with hin | ⟨-, hend⟩
          · exact hin.subset List.mem_cons_self
          · exact hend.subset List.mem_cons_self
        revert hmem
        decide
      have hsame := hforgets.others [] c hout
      rw [hskip hne, (hmatch c).mpr (.inr ⟨hslash, hdeep⟩), Bool.true_or] at hsame
      exact hsame.symm
  · rintro ⟨⟨hdir, hdeep⟩, hprune⟩
    have hothers (includes : List GoString) (c : GoString) (hout : below rel c = false) :
        (rulesFilter isMount (appendIgnoreRules text [rule]) includes).skip c =
          (rulesFilter isMount text includes).skip c := by
      by_cases hne : c = ignoreFile
      · rw [hne, Filter.skip_ignoreFile, Filter.skip_ignoreFile]
      · rw [hskip hne]
        cases hm : q.matches c with
        | false => rfl
        | true =>
          rcases (hmatch c).mp hm with ⟨hin, -⟩ | ⟨hslash, hd⟩
          · rw [hout] at hin
            cases hin
          · rw [skip_of_skip_nil (hdeep.resolve_left hslash c hd hout), Bool.true_or]
    refine ⟨fun includes c hin => ?_, hothers, (prunes_iff all hneg (hothers [])).mpr hprune⟩
    have hne : c ≠ ignoreFile := by
      rintro rfl
      rw [hfile] at hin
      cases hin
    rw [hskip hne, Bool.or_eq_true]
    by_cases hself : isDir = true ∧ c = rel
    · rw [hself.2]
      exact .inr (skip_of_skip_nil (hdir hself.1) includes)
    · exact .inl ((hmatch c).mpr (.inl ⟨hin, fun hd hc => hself ⟨hd, hc⟩⟩))

/-- **`forget` hits exactly what it names when it is safe.** -/
theorem forgets_exactly_iff {root abs : AbsPath} {isDir : Bool} {rule : GoString}
    (h : ignoreRule root abs isDir = .ok rule) (isMount : GoString → Bool)
    (text : Option GoString) (all : List Op) :
    ForgetsExactly isMount text (relPath root abs) rule all ↔
      ForgetSafe isMount text (relPath root abs) rule isDir all := by
  obtain ⟨hrel, hrule⟩ := forgettable_of_ignoreRule h
  have hsafe : ForgetSafe isMount text (relPath root abs) rule isDir all ↔ _ ∧ _ :=
    ⟨fun h => ⟨h.rule, h.prune⟩, fun h => ⟨h.1, h.2⟩⟩
  rw [hsafe]
  have hcompile := compile_forgetRule hrel isDir
  rw [← hrule] at hcompile
  have hlf : (0x0A : UInt8) ∉ rule := by
    rw [hrule, forgetRule, List.mem_append, not_or]
    refine ⟨fun hmem => ?_, by cases isDir <;> decide⟩
    exact (mem_escapeIgnore hmem).elim (fun h => absurd h (by decide)) hrel.no_lineFeed
  by_cases hnew : RuleNew text rule
  · have happend := compileRules_appendIgnoreRules hnew hlf
    cases hutf : validUTF8 (relPath root abs) with
    | true =>
      rw [hutf, if_pos rfl] at hcompile
      obtain ⟨q, hq, hforget⟩ := hcompile
      rw [hq] at happend
      rw [if_pos ⟨hnew, rfl⟩]
      exact forgetsExactly_of_new hrel happend hforget
    | false =>
      rw [hutf, if_neg Bool.false_ne_true] at hcompile
      rw [hcompile, Option.toList_none, List.append_nil] at happend
      rw [if_neg fun h => Bool.false_ne_true h.2]
      exact forgetsExactly_of_same happend
  · rw [if_neg fun h => hnew h.1]
    exact forgetsExactly_of_same (by rw [appendIgnoreRules_of_present hnew])

/-- A name with a space in a directory. -/
def spacedPath : AbsPath where
  names := [ascii "p", ascii "docs", ascii "a b.md"]

theorem forgets_spaced_path : ForgetsExactly (fun _ => false) (some (ascii "!keep.md\n"))
    (relPath ⟨[ascii "p"], by decide⟩ spacedPath) (ascii "docs/a\\ b.md")
    [{ kind := .put, path := ascii "other.md" }] :=
  (@forgets_exactly_iff _ _ false _ (by decide +kernel) _ _ _).mpr
    ⟨by rw [if_pos (by decide +kernel)]; exact ⟨nofun, .inl (by decide +kernel)⟩,
      .inl (by decide +kernel)⟩

/-- A name at the top of the project. -/
def topPath : AbsPath where
  names := [ascii "p", ascii "notes"]

/-- The rule of a name at the top excludes that name everywhere. -/
theorem top_name_forgets_deeper : ¬ ∀ (root abs : AbsPath) (isDir : Bool) (rule : GoString),
    ignoreRule root abs isDir = .ok rule → ∀ isMount text all,
      ForgetsExactly isMount text (relPath root abs) rule all := by
  intro h
  have hothers := (h ⟨[ascii "p"], by decide⟩ topPath false (ascii "notes") (by decide +kernel)
    (fun _ => false) none []).others [] (ascii "x/notes") (by decide +kernel)
  revert hothers
  decide +kernel

end Beardrive
