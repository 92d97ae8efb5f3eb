import Beardrive.Webapp.DataPattern
import Beardrive.Webapp.ScopeTag
import Mathlib.Data.Bool.AllAny

/-!
# The files a data query reads

A query's pattern is compiled to conditions on the path of an indexed row, which one of two
databases evaluates: a range or an equality for the literal segments it begins with, the number of
segments, a comparison for each of the others, and the caller's folder rules as one case
distinction.

What the databases do that is not told here is a parameter (`SqlEngine`): splitting a text, and
matching it with `LIKE` and `GLOB`. Text is compared byte by byte.

## The trailing star

A literal beginning is a range: all paths below it. A pattern that is a literal beginning and `**`
says the path that is the beginning itself, as a star may stand for no segments; the number of
segments allows it, but the range does not hold it (`Omits`).

## Main definitions

* `FileCond`, `FileCond.holds` — a condition, and what it asks of a row
* `fileWhere` — the conditions of a query
* `Omits` — the rows it leaves out

## Main results

* `visible_holds_iff` — the case distinction is the caller's permission to read
* `pattern_holds_iff` — the conditions of a pattern
* `fileWhere_exact_iff` — when a query reads what it says
-/

namespace Beardrive

/-! ### The databases -/

/-- `dialect`. -/
inductive Dialect
  | postgres
  | sqlite
  deriving DecidableEq, Repr

/-- What the databases do. `like` escapes with a backslash. -/
structure SqlEngine where
  splitPart : GoString → ℤ → GoString
  like : GoString → GoString → Bool
  glob : GoString → GoString → Bool

/-- `pathSegment`: counted from one, or from the end. -/
def pathSegment (s : GoString) (n : ℤ) : GoString :=
  let segs := segments s
  if 0 < n ∧ n ≤ segs.length then segs.getD (n - 1).toNat []
  else if n < 0 ∧ -n ≤ segs.length then segs.getD (segs.length + n).toNat []
  else []

/-- A character of a pattern of `LIKE`: `%` is any text, `_` any character. -/
def likeTest (c : GoString) : Option (Option GoString) :=
  if c = ascii "%" then none else if c = ascii "_" then some none else some (some c)

/-- How a pattern of `LIKE` reads, in which a backslash takes the next character as it is. -/
def likeTests : List GoString → Option (List (Option (Option GoString)))
  | [] => some []
  | c :: p =>
    if c = ascii "\\" then
      match p with
      | [] => none
      | d :: p => (likeTests p).map (some (some d) :: ·)
    else (likeTests p).map (likeTest c :: ·)

/-- How a pattern of `GLOB` reads, whose classes have one character each. -/
def globTests : List GoString → Option (List (Option (Option GoString)))
  | [] => some []
  | c :: p =>
    if c = ascii "[" then
      match p with
      | d :: e :: p =>
        if e = ascii "]" ∧ d ≠ ascii "^" then (globTests p).map (some (some d) :: ·) else none
      | _ => none
    else (globTests p).map (globTest c :: ·)

/-- What is documented of them. -/
structure SqlEngine.Documented (e : SqlEngine) : Prop where
  splitPart_eq : ∀ s n, n ≠ 0 → e.splitPart s n = pathSegment s n
  like_iff : ∀ s p tests, likeTests (chars p) = some tests →
    (e.like s p = true ↔ gapMatch charOK tests (chars s))
  glob_iff : ∀ s p tests, globTests (chars p) = some tests →
    (e.glob s p = true ↔ gapMatch charOK tests (chars s))

/-- `length` of a text, in characters: the bytes that do not continue one. -/
def charCount (s : GoString) : ℕ := s.countP fun b => !(0x80 ≤ b && b ≤ 0xBF)

/-! ### Conditions -/

/-- A row of the index, as far as the conditions on its file ask. -/
structure DataItem where
  project : GoString
  path : GoString
  deleted : Bool

/-- One condition. -/
inductive FileCond
  | project (id : GoString)
  | live
  | pathEq (s : GoString)
  | pathGe (s : GoString)
  | pathLt (s : GoString)
  | count (n : ℤ)
  | countAtLeast (n : ℤ)
  | segEq (pos : ℤ) (lit : GoString)
  | segLike (pos : ℤ) (pat : GoString)
  | segGlob (pos : ℤ) (pat : GoString)
  | visible (whens : List (GoString × GoString × Bool)) (otherwise : Bool)

/-- `segment`. -/
def SqlEngine.segment (e : SqlEngine) (d : Dialect) (path : GoString) (pos : ℤ) : GoString :=
  match d with
  | .postgres => e.splitPart path pos
  | .sqlite => pathSegment path pos

/-- The number of segments: `length` of the path, less what is left of it without its slashes. -/
def countOf (path : GoString) : ℤ :=
  (charCount path : ℤ) - charCount (path.filter fun b => b ≠ slash) + 1

/-- A case distinction: the first range that holds the path. -/
def caseOf (path : GoString) (otherwise : Bool) : List (GoString × GoString × Bool) → Bool
  | [] => otherwise
  | (lo, hi, v) :: whens => if lo ≤ path ∧ path < hi then v else caseOf path otherwise whens

/-- What a condition asks of a row. -/
def FileCond.holds (e : SqlEngine) (d : Dialect) (row : DataItem) : FileCond → Bool
  | .project id => row.project = id
  | .live => !row.deleted
  | .pathEq s => row.path = s
  | .pathGe s => s ≤ row.path
  | .pathLt s => row.path < s
  | .count n => countOf row.path = n
  | .countAtLeast n => n ≤ countOf row.path
  | .segEq pos lit => e.segment d row.path pos = lit
  | .segLike pos pat => e.like (e.segment d row.path pos) pat
  | .segGlob pos pat => e.glob (e.segment d row.path pos) pat
  | .visible whens otherwise => caseOf row.path otherwise whens

/-! ### Compiling -/

/-- `pos`. -/
def DataPattern.pos (p : DataPattern) (i : ℕ) : ℤ :=
  match p.star with
  | some k => if k < i then (i : ℤ) - p.segs.length else i + 1
  | none => i + 1

/-- `prefixUpper`. -/
def prefixUpper (p : GoString) : GoString := trimSuffix p [slash] ++ ascii "0"

/-- A replacer of single bytes. -/
def replaceBytes (f : UInt8 → GoString) (s : GoString) : GoString := s.flatMap f

/-- What `globLike` makes of one byte. -/
def likeByte (b : UInt8) : GoString :=
  if b = 0x5C then ascii "\\\\"
  else if b = 0x25 then ascii "\\%"
  else if b = 0x5F then ascii "\\_"
  else if b = 0x2A then ascii "%"
  else if b = 0x3F then ascii "_"
  else [b]

/-- `globLike`. -/
def globLike : GoString → GoString := replaceBytes likeByte

/-- What `globGlob` makes of one byte. -/
def globByte (b : UInt8) : GoString :=
  if b = 0x5B then ascii "[[]" else if b = 0x5D then ascii "[]]" else [b]

/-- `globGlob`. -/
def globGlob : GoString → GoString := replaceBytes globByte

/-- A caller, and the rules of the view in the order the sort gave them: the longest prefixes first,
and rules of one length in any order. -/
structure QueryCaller extends Viewer where
  order : List ViewRule
  perm : order.Perm toViewer.view.folders
  sorted : order.Pairwise fun a b => b.pre.length ≤ a.pre.length

/-- `visible`. -/
def QueryCaller.visible (c : QueryCaller) : FileCond :=
  let cases := c.order.foldl (fun acc rule =>
    let v := atLeast (c.levelAt rule.pre) .read
    if rule.pre = [] then (acc.1, v)
    else (acc.1 ++ [(rule.pre, prefixUpper rule.pre, v)], acc.2)) ([], true)
  .visible cases.1 cases.2

/-- The conditions on the literal segments a pattern begins with. -/
def DataPattern.prefixConds (p : DataPattern) : List FileCond :=
  if p.pre ≠ [] then
    if p.segs.length = p.pre.count slash ∧ p.star = none then
      [.pathEq (trimSuffix p.pre [slash])]
    else [.pathGe p.pre, .pathLt (prefixUpper p.pre)]
  else []

/-- The condition on the number of segments. -/
def DataPattern.countCond (p : DataPattern) : FileCond :=
  if p.star = none then .count p.segs.length else .countAtLeast (p.segs.length - 1)

/-- The condition on one segment. -/
def DataPattern.segCond (d : Dialect) (p : DataPattern) (seg : PatSeg × ℕ) : List FileCond :=
  if seg.2 < p.pre.count slash then []
  else match seg.1 with
    | .star => []
    | .capture _ => []
    | .lit text => [.segEq (p.pos seg.2) text]
    | .glob text =>
      match d with
      | .postgres => [.segLike (p.pos seg.2) (globLike text)]
      | .sqlite => [.segGlob (p.pos seg.2) (globGlob text)]

/-- The conditions of a pattern. -/
def DataPattern.conds (d : Dialect) (p : DataPattern) : List FileCond :=
  p.prefixConds ++ p.countCond :: p.segs.zipIdx.flatMap (p.segCond d)

/-- `fileWhere`. -/
def fileWhere (d : Dialect) (p : DataPattern) (hash : GoString → GoString) (project : GoString)
    (c : QueryCaller) : List FileCond :=
  [.project project, .live] ++ p.conds d ++
    if (c.visibility hash).hides then [c.visible] else []

/-- The conditions admit a row. -/
def admits (e : SqlEngine) (d : Dialect) (conds : List FileCond) (row : DataItem) : Bool :=
  conds.all (FileCond.holds e d row)

/-! ### Texts -/

/-- **The number of segments** is what the two lengths come to. -/
theorem countOf_eq (path : GoString) : countOf path = (segments path).length := by
  have hsplit (s : GoString) :
      charCount s = charCount (s.filter fun b => b ≠ slash) + s.count slash := by
    induction s with
    | nil => rfl
    | cons b s ih =>
      rw [charCount, charCount] at ih ⊢
      by_cases hb : b = slash
      · subst hb
        rw [List.filter_cons_of_neg (by simp), List.countP_cons_of_pos (by decide),
          List.count_cons_self]
        omega
      · rw [List.filter_cons_of_pos (by simpa using hb), List.countP_cons, List.countP_cons,
          List.count_cons_of_ne hb]
        omega
  rw [countOf, hsplit path, segments, length_splitOn]
  push_cast
  omega

/-- Segments from the front. -/
theorem pathSegment_front (path : GoString) (i : ℕ) :
    pathSegment path (i + 1) = (segments path).getD i [] := by
  rw [pathSegment]
  by_cases hi : i < (segments path).length
  · rw [if_pos (by omega), show ((i : ℤ) + 1 - 1).toNat = i by omega]
  · rw [if_neg (by omega), if_neg (by omega), List.getD_eq_getElem?_getD,
      List.getElem?_eq_none (by omega), Option.getD_none]

/-- Segments from the end. -/
theorem pathSegment_back (path : GoString) {j : ℕ} (hpos : 0 < j)
    (hj : j ≤ (segments path).length) :
    pathSegment path (-j) = (segments path).getD ((segments path).length - j) [] := by
  rw [pathSegment]
  rw [if_neg (by omega), if_pos (by omega),
    show ((segments path).length + -(j : ℤ)).toNat = (segments path).length - j by omega]

/-- **The range of a prefix** that ends in a slash holds the texts that begin with it. -/
theorem range_iff (q path : GoString) :
    (q ++ [slash] ≤ path ∧ path < prefixUpper (q ++ [slash])) ↔ q ++ [slash] <+: path := by
  rw [prefixUpper, trimSuffix_append]
  have hnext : ascii "0" = [slash + 1] := by decide
  have hle (c b : UInt8) (s t : GoString) : c :: s ≤ b :: t ↔ c < b ∨ c = b ∧ s ≤ t := by
    rw [← not_lt, List.cons_lt_cons_iff, ← not_lt (b := s)]
    rcases lt_trichotomy c b with h | rfl | h
    · simp [h, h.ne', lt_asymm h]
    · simp
    · simp [h, h.ne', lt_asymm h]
  rw [hnext]
  induction q generalizing path with
  | nil =>
    cases path with
    | nil => simp
    | cons b t =>
      have hbyte : (slash < b ∨ slash = b) ∧ b < slash + 1 ↔ slash = b := by
        simp only [slash, UInt8.lt_iff_toNat_lt, ← UInt8.toNat_inj]
        show (47 < b.toNat ∨ 47 = b.toNat) ∧ b.toNat < 48 ↔ 47 = b.toNat
        omega
      have hnil : [] ≤ t := not_lt.mp (List.not_lt_nil t)
      rw [List.nil_append, List.nil_append, List.cons_prefix_cons, hle, List.cons_lt_cons_iff]
      simpa [hnil] using hbyte
  | cons c q ih =>
    cases path with
    | nil => simp
    | cons b t =>
      rw [List.cons_append, List.cons_append, List.cons_prefix_cons, hle, List.cons_lt_cons_iff]
      refine Iff.trans ?_ (and_congr_right fun _ => ih t)
      constructor
      · rintro ⟨hlo | ⟨rfl, hlo⟩, hhi | ⟨heq, hhi⟩⟩
        · exact absurd hlo (lt_asymm hhi)
        · exact absurd heq hlo.ne'
        · exact absurd hhi (lt_irrefl _)
        · exact ⟨rfl, hlo, hhi⟩
      · rintro ⟨rfl, hlo, hhi⟩
        exact ⟨.inr ⟨rfl, hlo⟩, .inr ⟨rfl, hhi⟩⟩

/-- Literal segments, each with its slash, begin a path when they are its first segments and it has
more. -/
theorem flatMap_prefix_iff {lits : List GoString} (h : ∀ seg ∈ lits, slash ∉ seg)
    (path : GoString) :
    lits.flatMap (· ++ [slash]) <+: path ↔
      lits <+: segments path ∧ lits.length < (segments path).length := by
  induction lits generalizing path with
  | nil =>
    exact iff_of_true List.nil_prefix
      ⟨List.nil_prefix, List.length_pos_iff.mpr (segments_ne_nil path)⟩
  | cons seg lits ih =>
    have hseg := h seg (List.mem_cons_self ..)
    have hrest := ih fun x hx => h x (List.mem_cons_of_mem _ hx)
    rw [List.flatMap_cons, List.append_assoc, List.singleton_append]
    constructor
    · rintro ⟨t, rfl⟩
      rw [List.append_assoc, List.cons_append, head_segments _ _ hseg, List.length_cons,
        List.length_cons, List.cons_prefix_cons]
      obtain ⟨hpre, hlt⟩ := (hrest _).mp (List.prefix_append _ t)
      exact ⟨⟨rfl, hpre⟩, Nat.succ_lt_succ hlt⟩
    · rintro ⟨⟨t, ht⟩, hlt⟩
      have hmore : lits ++ t ≠ [] := by
        intro hnil
        rw [← ht, List.cons_append, hnil, List.length_cons, List.length_singleton] at hlt
        omega
      have hpath : path = seg ++ slash :: joinSlash (lits ++ t) := by
        rw [← joinSlash_cons _ hmore, ← List.cons_append, ht, joinSlash_segments]
      have hslash : ∀ x ∈ lits ++ t, slash ∉ x := fun x hx =>
        not_mem_of_mem_segments (by rw [← ht]; exact List.mem_cons_of_mem seg hx)
      have hsegs : segments (joinSlash (lits ++ t)) = lits ++ t := segments_joinSlash hslash hmore
      have hpre := (hrest (joinSlash (lits ++ t))).mpr (by
        rw [hsegs]
        refine ⟨List.prefix_append _ _, ?_⟩
        rw [← ht, List.cons_append, List.length_cons, List.length_cons] at hlt
        omega)
      rw [hpath]
      exact List.prefix_append_right_inj seg |>.mpr (List.cons_prefix_cons.mpr ⟨rfl, hpre⟩)

theorem flatMap_eq_joinSlash {lits : List GoString} (h : lits ≠ []) :
    lits.flatMap (· ++ [slash]) = joinSlash lits ++ [slash] := by
  induction lits with
  | nil => exact absurd rfl h
  | cons seg lits ih =>
    by_cases hnil : lits = []
    · subst hnil
      simp [joinSlash, List.intercalate]
    · rw [List.flatMap_cons, ih hnil, joinSlash_cons _ hnil, List.append_assoc, List.append_assoc]
      rfl

theorem count_flatMap {lits : List GoString} (h : ∀ seg ∈ lits, slash ∉ seg) :
    (lits.flatMap (· ++ [slash])).count slash = lits.length := by
  induction lits with
  | nil => rfl
  | cons seg lits ih =>
    rw [List.flatMap_cons, List.count_append, List.count_append, ih fun x hx =>
      h x (List.mem_cons_of_mem _ hx),
      List.count_eq_zero_of_not_mem (h seg (List.mem_cons_self ..)), List.length_cons,
      List.count_singleton_self]
    omega

/-! ### Wildcards in two dialects -/

/-- What a replacer of ASCII bytes makes of one character. -/
def replaceChar (f : UInt8 → GoString) (c : GoString) : List GoString :=
  match c with
  | [b] => (f b).map fun d => [d]
  | c => [c]

theorem chars_ascii_append {s : GoString} (h : ∀ b ∈ s, b < 0x80) (t : GoString) :
    chars (s ++ t) = (s.map fun b => [b]) ++ chars t := by
  induction s with
  | nil => rfl
  | cons b s ih =>
    rw [List.cons_append, chars, decodeAll_cons_ascii (h b (List.mem_cons_self ..)), List.map_cons,
      ← chars, ih fun c hc => h c (List.mem_cons_of_mem _ hc)]
    rfl

theorem chars_append_ascii {b : UInt8} (h : b < 0x80) (s t : GoString) :
    chars (s ++ b :: t) = chars s ++ chars (b :: t) := by
  rw [chars, decodeAll_append_ascii h, List.map_append]
  rfl

/-- **A replacer of ASCII bytes replaces characters.** -/
theorem chars_replaceBytes {f : UInt8 → GoString} (hother : ∀ b, 0x80 ≤ b → f b = [b])
    (hascii : ∀ b < 0x80, f b ≠ [] ∧ ∀ c ∈ f b, c < 0x80) (s : GoString) :
    chars (replaceBytes f s) = (chars s).flatMap (replaceChar f) := by
  induction hn : s.length using Nat.strongRecOn generalizing s with
  | _ n ih =>
    by_cases hs : ∃ b ∈ s, b < 0x80
    · obtain ⟨b, hmem, hb⟩ := hs
      obtain ⟨front, t, rfl⟩ := List.append_of_mem hmem
      rw [List.length_append, List.length_cons] at hn
      obtain ⟨hne, hlow⟩ := hascii b hb
      obtain ⟨d, ds, hds⟩ := List.exists_cons_of_ne_nil hne
      have hreplace : replaceBytes f (front ++ b :: t) =
          replaceBytes f front ++ d :: (ds ++ replaceBytes f t) := by
        rw [replaceBytes, List.flatMap_append, List.flatMap_cons, hds]
        rfl
      have hmiddle : chars (d :: (ds ++ replaceBytes f t)) =
          ((f b).map fun d => [d]) ++ chars (replaceBytes f t) := by
        rw [← List.cons_append, ← hds, chars_ascii_append hlow]
      have hself : chars (b :: t) = [b] :: chars t := by
        rw [chars, decodeAll_cons_ascii hb]
        rfl
      rw [hreplace, chars_append_ascii (hlow d (by rw [hds]; exact List.mem_cons_self ..)), hmiddle,
        ih _ (by omega) front rfl, ih _ (by omega) t rfl, chars_append_ascii hb, hself,
        List.flatMap_append, List.flatMap_cons, replaceChar]
    · have hhigh : ∀ b ∈ s, 0x80 ≤ b := fun b hb => not_lt.mp fun h => hs ⟨b, hb, h⟩
      have hself : replaceBytes f s = s := by
        rw [replaceBytes, List.flatMap_congr fun b hb => hother b (hhigh b hb)]
        exact List.flatMap_singleton' s
      have hchar : ∀ c ∈ chars s, replaceChar f c = [c] := by
        intro c hc
        have hbyte : ∀ b ∈ c, 0x80 ≤ b := fun b hb => hhigh b <| by
          rw [← chars_flatten s]
          exact List.mem_flatten_of_mem hc hb
        rcases c with - | ⟨b, - | ⟨b', c⟩⟩
        · rfl
        · rw [replaceChar, hother b (hbyte b (List.mem_singleton_self b))]
          rfl
        · rfl
      rw [hself, List.flatMap_congr hchar]
      exact (List.flatMap_singleton' _).symm

theorem likeTests_cons {c : GoString} (h : c ≠ ascii "\\") (p : List GoString) :
    likeTests (c :: p) = (likeTests p).map (likeTest c :: ·) := by
  rw [likeTests.eq_def]
  exact if_neg h

theorem likeTests_escape (d : GoString) (p : List GoString) :
    likeTests (ascii "\\" :: d :: p) = (likeTests p).map (some (some d) :: ·) := by
  rw [likeTests.eq_def]
  exact if_pos rfl

/-- **What `LIKE` reads in a translated segment** is what the segment says. -/
theorem likeTests_globLike (g : GoString) :
    likeTests (chars (globLike g)) = some ((chars g).map globTest) := by
  rw [globLike, chars_replaceBytes]
  · induction chars g with
    | nil => rfl
    | cons c cs ih =>
      have hescaped {c : GoString} (d : GoString)
          (hreplace : replaceChar likeByte c = [ascii "\\", d])
          (hglob : globTest c = some (some d)) :
          likeTests (replaceChar likeByte c ++ cs.flatMap (replaceChar likeByte)) =
            some (globTest c :: cs.map globTest) := by
        rw [hreplace, hglob, List.cons_append, List.singleton_append, likeTests_escape, ih]
        rfl
      have hplain {c : GoString} (d : GoString) (hreplace : replaceChar likeByte c = [d])
          (hd : d ≠ ascii "\\") (hlike : likeTest d = globTest c) :
          likeTests (replaceChar likeByte c ++ cs.flatMap (replaceChar likeByte)) =
            some (globTest c :: cs.map globTest) := by
        rw [hreplace, List.singleton_append, likeTests_cons hd, ih, hlike]
        rfl
      rw [List.flatMap_cons, List.map_cons]
      rcases c with - | ⟨b, - | ⟨b', c⟩⟩
      · have hself : replaceChar likeByte [] = [[]] := rfl
        exact hplain _ hself (by decide) rfl
      · by_cases h : b = 0x5C ∨ b = 0x25 ∨ b = 0x5F ∨ b = 0x2A ∨ b = 0x3F
        · rcases h with rfl | rfl | rfl | rfl | rfl
          · exact hescaped (ascii "\\") (by decide) (by decide)
          · exact hescaped (ascii "%") (by decide) (by decide)
          · exact hescaped (ascii "_") (by decide) (by decide)
          · exact hplain (ascii "%") (by decide) (by decide) (by decide)
          · exact hplain (ascii "_") (by decide) (by decide) (by decide)
        · simp only [not_or] at h
          obtain ⟨hescape, hpercent, hscore, hstar, hquestion⟩ := h
          have hself : replaceChar likeByte [b] = [[b]] := by
            rw [replaceChar, likeByte, if_neg hescape, if_neg hpercent, if_neg hscore,
              if_neg hstar, if_neg hquestion]
            rfl
          have hne {d : UInt8} {s : GoString} (hs : s = [d]) (hd : b ≠ d) : [b] ≠ s :=
            fun h => hd (List.cons.inj (h.trans hs)).1
          have hlike : likeTest [b] = some (some [b]) :=
            (if_neg (hne rfl hpercent)).trans (if_neg (hne rfl hscore))
          have hglob : globTest [b] = some (some [b]) :=
            (if_neg (hne rfl hstar)).trans (if_neg (hne rfl hquestion))
          exact hplain _ hself (hne rfl hescape) (hlike.trans hglob.symm)
      · have hself : replaceChar likeByte (b :: b' :: c) = [b :: b' :: c] := rfl
        have hne {d : UInt8} {s : GoString} (hs : s = [d]) : b :: b' :: c ≠ s := by
          rw [hs]
          nofun
        have hlike : likeTest (b :: b' :: c) = some (some (b :: b' :: c)) :=
          (if_neg (hne rfl)).trans (if_neg (hne rfl))
        have hglob : globTest (b :: b' :: c) = some (some (b :: b' :: c)) :=
          (if_neg (hne rfl)).trans (if_neg (hne rfl))
        exact hplain _ hself (hne rfl) (hlike.trans hglob.symm)
  · intro b hb
    rw [likeByte]
    split_ifs with h h h h h
    all_goals first | rfl | exact absurd (h ▸ hb) (by decide)
  · intro b hb
    rw [likeByte]
    split_ifs with h h h h h
    all_goals first
      | exact ⟨List.cons_ne_nil _ _, List.all_iff_forall_prop.mp (by decide)⟩
      | exact ⟨List.cons_ne_nil _ _, fun c hc => List.mem_singleton.mp hc ▸ hb⟩

theorem globTests_cons {c : GoString} (h : c ≠ ascii "[") (p : List GoString) :
    globTests (c :: p) = (globTests p).map (globTest c :: ·) := by
  rw [globTests.eq_def]
  exact if_neg h

theorem globTests_class {d : GoString} (h : d ≠ ascii "^") (p : List GoString) :
    globTests (ascii "[" :: d :: ascii "]" :: p) = (globTests p).map (some (some d) :: ·) := by
  rw [globTests.eq_def]
  exact (if_pos rfl).trans (if_pos ⟨rfl, h⟩)

/-- **What `GLOB` reads in a translated segment** is what the segment says. -/
theorem globTests_globGlob (g : GoString) :
    globTests (chars (globGlob g)) = some ((chars g).map globTest) := by
  rw [globGlob, chars_replaceBytes]
  · induction chars g with
    | nil => rfl
    | cons c cs ih =>
      rw [List.flatMap_cons, List.map_cons]
      rcases c with - | ⟨b, - | ⟨b', c⟩⟩
      · have hself : replaceChar globByte [] = [[]] := rfl
        rw [hself, List.singleton_append, globTests_cons (by decide), ih]
        rfl
      · by_cases h : b = 0x5B ∨ b = 0x5D
        · have hclass (c : GoString)
              (hreplace : replaceChar globByte c = [ascii "[", c, ascii "]"])
              (hglob : globTest c = some (some c)) (hd : c ≠ ascii "^") :
              globTests (replaceChar globByte c ++ cs.flatMap (replaceChar globByte)) =
                some (globTest c :: cs.map globTest) := by
            rw [hreplace, hglob, List.cons_append, List.cons_append, List.singleton_append,
              globTests_class hd, ih]
            rfl
          rcases h with rfl | rfl
          · exact hclass [0x5B] (by decide) (by decide) (by decide)
          · exact hclass [0x5D] (by decide) (by decide) (by decide)
        · rw [not_or] at h
          have hself : replaceChar globByte [b] = [[b]] := by
            rw [replaceChar, globByte, if_neg h.1, if_neg h.2]
            rfl
          have hne : [b] ≠ ascii "[" := fun heq => h.1 (List.cons.inj heq).1
          rw [hself, List.singleton_append, globTests_cons hne, ih]
          rfl
      · have hself : replaceChar globByte (b :: b' :: c) = [b :: b' :: c] := rfl
        have hne : b :: b' :: c ≠ ascii "[" := fun h => by cases h
        rw [hself, List.singleton_append, globTests_cons hne, ih]
        rfl
  · intro b hb
    rw [globByte]
    split_ifs with h h
    all_goals first | rfl | exact absurd (h ▸ hb) (by decide)
  · intro b hb
    rw [globByte]
    split_ifs with h h
    all_goals first
      | exact ⟨List.cons_ne_nil _ _, List.all_iff_forall_prop.mp (by decide)⟩
      | exact ⟨List.cons_ne_nil _ _, fun c hc => List.mem_singleton.mp hc ▸ hb⟩

/-! ### What the caller may read -/

section

variable {c : QueryCaller} {path : GoString}

theorem QueryCaller.mem_prefixes {P : GoString} :
    P ∈ c.prefixes ↔ ∃ rule ∈ c.order, rule.pre = P :=
  exists_congr fun rule => and_congr_left fun _ => (c.perm.mem_iff (a := rule)).symm

/-- What the loop over the rules makes of them. -/
theorem QueryCaller.foldl_visible (c : QueryCaller) (rules : List ViewRule)
    (whens : List (GoString × GoString × Bool)) (otherwise : Bool) :
    rules.foldl (fun acc rule =>
        let v := atLeast (c.levelAt rule.pre) .read
        if rule.pre = [] then (acc.1, v)
        else (acc.1 ++ [(rule.pre, prefixUpper rule.pre, v)], acc.2)) (whens, otherwise) =
      (whens ++ (rules.filter fun rule => rule.pre ≠ []).map fun rule =>
          (rule.pre, prefixUpper rule.pre, atLeast (c.levelAt rule.pre) .read),
        if rules.any fun rule => rule.pre = [] then atLeast (c.levelAt []) .read
        else otherwise) := by
  induction rules generalizing whens otherwise with
  | nil => simp
  | cons rule rules ih =>
    rw [List.foldl_cons]
    dsimp only
    by_cases h : rule.pre = []
    · rw [if_pos h, ih, h]
      simp [h]
    · rw [if_neg h, ih]
      simp [h]

/-- The first range that holds a path is that of the first rule whose prefix begins it. -/
theorem caseOf_map (c : QueryCaller) {rules : List ViewRule}
    (h : ∀ rule ∈ rules, ∃ q, rule.pre = q ++ [slash]) (otherwise : Bool) :
    caseOf path otherwise (rules.map fun rule =>
        (rule.pre, prefixUpper rule.pre, atLeast (c.levelAt rule.pre) .read)) =
      match rules.find? fun rule => hasPrefix path rule.pre with
      | some rule => atLeast (c.levelAt rule.pre) .read
      | none => otherwise := by
  induction rules with
  | nil => rfl
  | cons rule rules ih =>
    obtain ⟨q, hq⟩ := h rule (List.mem_cons_self ..)
    have hrange := range_iff q path
    rw [← hq, ← hasPrefix_iff] at hrange
    rw [List.map_cons, caseOf, List.find?_cons]
    by_cases hpre : hasPrefix path rule.pre = true
    · rw [if_pos (hrange.mpr hpre), hpre]
    · rw [if_neg (hrange.not.mpr hpre), Bool.eq_false_iff.mpr hpre,
        ih fun r hr => h r (List.mem_cons_of_mem _ hr)]

/-- **The case distinction is the caller's permission to read**, of one who may read the project. -/
theorem visible_holds_iff {e : SqlEngine} {d : Dialect} {row : DataItem}
    (hbase : atLeast c.base .read = true) :
    (c.visible.holds e d row = true) ↔ atLeast (c.levelAt row.path) .read = true := by
  have hslashed : ∀ rule ∈ c.order.filter fun rule => rule.pre ≠ [],
      ∃ q, rule.pre = q ++ [slash] := by
    intro rule hrule
    obtain ⟨hmem, hne⟩ := List.mem_filter.mp hrule
    have hlisted := QueryCaller.mem_prefixes.mpr ⟨rule, hmem, rfl⟩
    rcases c.toViewer.prefix_cases hlisted with hnil | ⟨q, hq, -⟩
    · exact absurd hnil (by simpa using hne)
    · exact ⟨q, hq⟩
  rw [QueryCaller.visible, c.foldl_visible]
  dsimp only [FileCond.holds]
  rw [List.nil_append, caseOf_map c hslashed]
  cases hfind : (c.order.filter fun rule => rule.pre ≠ []).find? fun rule =>
      hasPrefix row.path rule.pre with
  | some rule =>
    obtain ⟨hpre, before, behind, hsplit, hbefore⟩ := List.find?_eq_some_iff_append.mp hfind
    have hmem : rule ∈ c.order :=
      (List.mem_filter.mp (hsplit ▸ List.mem_append_right _ (List.mem_cons_self ..))).1
    have hsorted := c.sorted.filter fun rule => rule.pre ≠ []
    rw [hsplit, List.pairwise_append, List.pairwise_cons] at hsorted
    have hlongest : Longest c.prefixes row.path rule.pre := by
      refine ⟨QueryCaller.mem_prefixes.mpr ⟨rule, hmem, rfl⟩, hasPrefix_iff.mp hpre, ?_⟩
      intro Q hQ hQpath
      obtain ⟨other, hother, rfl⟩ := QueryCaller.mem_prefixes.mp hQ
      by_cases hnil : other.pre = []
      · rw [hnil]
        exact Nat.zero_le _
      · have hin : other ∈ before ++ rule :: behind := by
          rw [← hsplit]
          exact List.mem_filter.mpr ⟨hother, by simpa using hnil⟩
        rcases List.mem_append.mp hin with hin | hin
        · have hnot := hbefore other hin
          rw [hasPrefix_iff.mpr hQpath] at hnot
          cases hnot
        · rcases List.mem_cons.mp hin with rfl | hin
          · exact le_rfl
          · exact hsorted.2.1.1 other hin
    rw [levelAt_of_longest hlongest]
  | none =>
    have hnone : ∀ P ∈ c.prefixes, P ≠ [] → ¬ P <+: row.path := by
      intro P hP hne hpre
      obtain ⟨rule, hrule, rfl⟩ := QueryCaller.mem_prefixes.mp hP
      have hno := List.find?_eq_none.mp hfind rule
        (List.mem_filter.mpr ⟨hrule, by simpa using hne⟩)
      exact hno (hasPrefix_iff.mpr hpre)
    dsimp only
    split_ifs with hany
    · obtain ⟨rule, hrule, hnil⟩ := List.any_eq_true.mp hany
      have hlongest : Longest c.prefixes row.path [] := by
        refine ⟨QueryCaller.mem_prefixes.mpr ⟨rule, hrule, by simpa using hnil⟩, List.nil_prefix,
          fun Q hQ hQpath => ?_⟩
        by_cases hne : Q = []
        · rw [hne]
        · exact absurd hQpath (hnone Q hQ hne)
      rw [levelAt_of_longest hlongest]
    · have huncovered : ∀ P ∈ c.prefixes, ¬ P <+: row.path := by
        intro P hP
        refine hnone P hP ?_
        rintro rfl
        obtain ⟨rule, hrule, hnil⟩ := QueryCaller.mem_prefixes.mp hP
        exact hany (List.any_eq_true.mpr ⟨rule, hrule, by simpa using hnil⟩)
      have hlevel : ¬ (c.base = .none ∨ c.base = .unset) := by
        rintro (h | h)
        · rw [h] at hbase
          cases hbase
        · rw [h] at hbase
          cases hbase
      rw [levelAt_of_uncovered huncovered, if_neg hlevel, hbase]

end

/-! ### Segments by position -/

/-- The literal segments a pattern begins with. -/
def leading (s : GoString) : List GoString := (segments s).takeWhile isLiteral

/-- Where the segment of a path of `len` segments is that the pattern's segment `i` is compared
with. -/
def DataPattern.place (p : DataPattern) (len i : ℕ) : ℕ :=
  match p.star with
  | some k => if k < i then len + i - p.segs.length else i
  | none => i

/-- A path of `len` segments has the number of them. -/
def DataPattern.Fits (p : DataPattern) (len : ℕ) : Prop :=
  match p.star with
  | some _ => p.segs.length ≤ len + 1
  | none => len = p.segs.length

namespace DataPattern.ParsedFrom

variable {s : GoString} {p : DataPattern}

theorem length_segs (hp : p.ParsedFrom s) : p.segs.length = (segments s).length := by
  rw [hp.segs, List.length_map]

/-- The star is where the text has it. -/
theorem star_iff (hp : p.ParsedFrom s) (k : ℕ) :
    p.star = some k ↔ (segments s)[k]? = some (ascii "**") := by
  rw [hp.star, hp.segs, List.getElem?_map, Option.map_eq_some_iff]
  constructor
  · rintro ⟨seg, hseg, hclass⟩
    rw [hseg, classify_eq_star_iff.mp hclass]
  · intro h
    exact ⟨_, h, classify_star⟩

theorem slash_notMem (seg : GoString) (h : seg ∈ leading s) : slash ∉ seg :=
  not_mem_of_mem_segments (List.takeWhile_sublist _ |>.subset h)

theorem count_pre (hp : p.ParsedFrom s) : p.pre.count slash = (leading s).length := by
  rw [hp.pre, ← leading, count_flatMap slash_notMem]

/-- A segment in front of the first one that is not literal is not the star. -/
theorem leading_length_le (hp : p.ParsedFrom s) {k : ℕ} (hk : p.star = some k) :
    (leading s).length ≤ k := by
  by_contra hlt
  have hget := (hp.star_iff k).mp hk
  obtain ⟨t, ht⟩ := List.takeWhile_prefix (l := segments s) isLiteral
  rw [leading, not_le] at hlt
  rw [← ht, List.getElem?_append_left hlt] at hget
  have hmem : ascii "**" ∈ leading s := List.mem_of_getElem? hget
  have hliteral := List.mem_takeWhile_imp hmem
  rw [isLiteral, classify_star] at hliteral
  cases hliteral

/-- Every segment of the pattern but the star has a place in a path that fits. -/
theorem place_lt (hp : p.ParsedFrom s) {len i : ℕ} (hfits : p.Fits len) {seg : GoString}
    (hi : (segments s)[i]? = some seg) (hne : seg ≠ ascii "**") : p.place len i < len := by
  have hlt := (List.getElem?_eq_some_iff.mp hi).1
  have hn := hp.length_segs
  rw [DataPattern.place]
  cases hstar : p.star with
  | none =>
    rw [DataPattern.Fits, hstar] at hfits
    dsimp only at hfits ⊢
    omega
  | some k =>
    have hget := (hp.star_iff k).mp hstar
    have hk := (List.getElem?_eq_some_iff.mp hget).1
    have hik : i ≠ k := by
      rintro rfl
      rw [hget] at hi
      exact hne (Option.some.inj hi).symm
    rw [DataPattern.Fits, hstar] at hfits
    dsimp only at hfits ⊢
    split_ifs with hki
    · omega
    · omega

/-- **The position of a segment** is its place: counted from the end behind the star. -/
theorem segment_eq (hp : p.ParsedFrom s) {e : SqlEngine} (he : e.Documented) (d : Dialect)
    {path : GoString} (hfits : p.Fits (segments path).length) {i : ℕ} {seg : GoString}
    (hi : (segments s)[i]? = some seg) (hne : seg ≠ ascii "**") :
    e.segment d path (p.pos i) =
      (segments path).getD (p.place (segments path).length i) [] := by
  have hlt := (List.getElem?_eq_some_iff.mp hi).1
  have hn := hp.length_segs
  have hengine (n : ℤ) (h : n ≠ 0) : e.segment d path n = pathSegment path n := by
    cases d with
    | postgres => exact he.splitPart_eq path n h
    | sqlite => rfl
  rw [DataPattern.place, DataPattern.pos]
  cases hstar : p.star with
  | none =>
    dsimp only
    rw [hengine _ (by omega), pathSegment_front]
  | some k =>
    have hget := (hp.star_iff k).mp hstar
    have hik : i ≠ k := by
      rintro rfl
      rw [hget] at hi
      exact hne (Option.some.inj hi).symm
    rw [DataPattern.Fits, hstar] at hfits
    dsimp only at hfits ⊢
    split_ifs with hki
    · have hpos : (i : ℤ) - p.segs.length = -((p.segs.length - i : ℕ) : ℤ) := by omega
      rw [hengine _ (by omega), hpos, pathSegment_back path (by omega) (by omega),
        show (segments path).length - (p.segs.length - i) =
          (segments path).length + i - p.segs.length by omega]
    · rw [hengine _ (by omega), pathSegment_front]

/-- **What a pattern says, by position.** -/
theorem says_iff (hp : p.ParsedFrom s) (path : GoString) :
    Says s path ↔ p.Fits (segments path).length ∧
      ∀ (i : ℕ) (seg : GoString), (segments s)[i]? = some seg → seg ≠ ascii "**" →
        segmentSays seg ((segments path).getD (p.place (segments path).length i) []) := by
  have hgap (i : ℕ) : ((segments s).map segmentGap)[i]? = some none ↔
      (segments s)[i]? = some (ascii "**") := by
    rw [List.getElem?_map, Option.map_eq_some_iff]
    constructor
    · rintro ⟨seg, hseg, hnone⟩
      rw [segmentGap] at hnone
      split_ifs at hnone with h
      rw [hseg, h]
    · intro h
      exact ⟨_, h, if_pos rfl⟩
  have htest (i : ℕ) (seg : GoString) : ((segments s).map segmentGap)[i]? = some (some seg) ↔
      (segments s)[i]? = some seg ∧ seg ≠ ascii "**" := by
    rw [List.getElem?_map, Option.map_eq_some_iff]
    constructor
    · rintro ⟨seg', hseg, hsome⟩
      rw [segmentGap] at hsome
      split_ifs at hsome with h
      cases hsome
      exact ⟨hseg, h⟩
    · rintro ⟨h, hne⟩
      exact ⟨_, h, if_neg hne⟩
  have hcompare (hfits : p.Fits (segments path).length) {i : ℕ} {seg : GoString}
      (hi : (segments s)[i]? = some seg) (hne : seg ≠ ascii "**") :
      (∃ a, (segments path)[p.place (segments path).length i]? = some a ∧ segmentSays seg a) ↔
        segmentSays seg ((segments path).getD (p.place (segments path).length i) []) := by
    rw [List.getD_eq_getElem?_getD, List.getElem?_eq_getElem (hp.place_lt hfits hi hne)]
    simp
  rw [Says]
  cases hstar : p.star with
  | none =>
    have hno : none ∉ (segments s).map segmentGap := by
      intro hmem
      obtain ⟨i, hi⟩ := List.mem_iff_getElem?.mp hmem
      have hsome := (hp.star_iff i).mpr ((hgap i).mp hi)
      rw [hstar] at hsome
      cases hsome
    have hfits : p.Fits (segments path).length ↔
        (segments path).length = ((segments s).map segmentGap).length := by
      rw [DataPattern.Fits, hstar, hp.length_segs, List.length_map]
    have hplace (i : ℕ) : p.place (segments path).length i = i := by rw [DataPattern.place, hstar]
    rw [gapMatch_iff_of_no_gap hno, ← hfits]
    refine and_congr_right fun hfit => forall_congr' fun i => forall_congr' fun seg => ?_
    rw [htest, and_imp]
    refine forall_congr' fun hi => forall_congr' fun hne => ?_
    have h := hcompare hfit hi hne
    rwa [hplace] at h ⊢
  | some k =>
    have hk := (hgap k).mpr ((hp.star_iff k).mp hstar)
    have hone (i : ℕ) (hi : ((segments s).map segmentGap)[i]? = some none) : i = k := by
      have hsome := (hp.star_iff i).mpr ((hgap i).mp hi)
      rw [hstar] at hsome
      exact (Option.some.inj hsome).symm
    have hfits : p.Fits (segments path).length ↔
        ((segments s).map segmentGap).length ≤ (segments path).length + 1 := by
      rw [DataPattern.Fits, hstar, hp.length_segs, List.length_map]
    rw [gapMatch_iff_of_one_gap hk hone, ← hfits]
    refine and_congr_right fun hfit => forall_congr' fun i => forall_congr' fun seg => ?_
    rw [htest, and_imp]
    refine forall_congr' fun hi => forall_congr' fun hne => ?_
    have hik : i ≠ k := by
      rintro rfl
      rw [(hp.star_iff i).mp hstar] at hi
      exact hne (Option.some.inj hi).symm
    have hplace : (if i < k then i
        else (segments path).length + i - ((segments s).map segmentGap).length) =
        p.place (segments path).length i := by
      rw [DataPattern.place, hstar, List.length_map, hp.length_segs]
      dsimp only
      split_ifs with h h'
      all_goals first | rfl | omega
    rw [hplace]
    exact hcompare hfit hi hne

/-! ### The conditions of a pattern -/

/-- The condition on one segment is what the pattern says there. -/
theorem segCond_holds_iff (hp : p.ParsedFrom s) {e : SqlEngine} (he : e.Documented) (d : Dialect)
    {row : DataItem} (hfits : p.Fits (segments row.path).length) {i : ℕ} {seg : GoString}
    (hi : (segments s)[i]? = some seg) :
    (p.segCond d (classify seg, i)).all (FileCond.holds e d row) = true ↔
      ((leading s).length ≤ i → seg ≠ ascii "**" →
        segmentSays seg
          ((segments row.path).getD (p.place (segments row.path).length i) [])) := by
  rw [DataPattern.segCond]
  dsimp only
  rw [hp.count_pre]
  split_ifs with hlead
  · exact iff_of_true rfl fun h => absurd hlead (not_lt.mpr h)
  · rw [forall_prop_of_true (not_lt.mp hlead)]
    by_cases hne : seg = ascii "**"
    · subst hne
      rw [classify_star]
      exact iff_of_true rfl fun h => absurd rfl h
    · have hseg := hp.segment_eq he d hfits hi hne
      have hmeans := segmentSays_iff seg
        ((segments row.path).getD (p.place (segments row.path).length i) [])
      rw [forall_prop_of_true hne]
      generalize (segments row.path).getD (p.place (segments row.path).length i) [] = a at *
      cases hclass : classify seg with
      | star => exact absurd (classify_eq_star_iff.mp hclass) hne
      | capture name =>
        rw [hclass] at hmeans
        exact iff_of_true rfl hmeans
      | lit text =>
        rw [hclass] at hmeans
        obtain ⟨rfl, hmeans⟩ := hmeans
        simp only [List.all_cons, List.all_nil, Bool.and_true, FileCond.holds, hseg,
          decide_eq_true_eq]
        exact hmeans.symm
      | glob text =>
        rw [hclass] at hmeans
        obtain ⟨rfl, hmeans⟩ := hmeans
        rw [hmeans, globMatches]
        cases d with
        | postgres =>
          simp only [List.all_cons, List.all_nil, Bool.and_true, FileCond.holds, hseg]
          exact he.like_iff _ _ _ (likeTests_globLike _)
        | sqlite =>
          simp only [List.all_cons, List.all_nil, Bool.and_true, FileCond.holds, hseg]
          exact he.glob_iff _ _ _ (globTests_globGlob _)

theorem countCond_holds_iff (hp : p.ParsedFrom s) (e : SqlEngine) (d : Dialect) (row : DataItem) :
    p.countCond.holds e d row = true ↔ p.Fits (segments row.path).length := by
  have hpos : 0 < p.segs.length := by
    rw [hp.length_segs]
    exact List.length_pos_iff.mpr (segments_ne_nil s)
  rw [DataPattern.countCond, DataPattern.Fits]
  cases hstar : p.star with
  | none =>
    rw [if_pos rfl]
    simp only [FileCond.holds, countOf_eq, decide_eq_true_eq]
    omega
  | some k =>
    rw [if_neg nofun]
    simp only [FileCond.holds, countOf_eq, decide_eq_true_eq]
    omega

/-- The conditions on the segments, behind the literal ones. -/
theorem segConds_hold_iff (hp : p.ParsedFrom s) {e : SqlEngine} (he : e.Documented) (d : Dialect)
    {row : DataItem} (hfits : p.Fits (segments row.path).length) :
    (p.segs.zipIdx.flatMap (p.segCond d)).all (FileCond.holds e d row) = true ↔
      ∀ (i : ℕ) (seg : GoString), (segments s)[i]? = some seg → (leading s).length ≤ i →
        seg ≠ ascii "**" → segmentSays seg
          ((segments row.path).getD (p.place (segments row.path).length i) []) := by
  rw [List.all_flatMap, List.all_eq_true]
  constructor
  · intro h i seg hi
    refine (hp.segCond_holds_iff he d hfits hi).mp (h _ ?_)
    rw [List.mem_zipIdx_iff_getElem?, hp.segs, List.getElem?_map, hi]
    rfl
  · rintro h ⟨seg, i⟩ hmem
    rw [List.mem_zipIdx_iff_getElem?, hp.segs, List.getElem?_map, Option.map_eq_some_iff] at hmem
    obtain ⟨text, htext, rfl⟩ := hmem
    exact (hp.segCond_holds_iff he d hfits htext).mpr (h i text htext)

/-- The literal segments a pattern begins with are the path's first ones. -/
theorem leading_prefix_iff (hp : p.ParsedFrom s) {path : GoString}
    (hfits : p.Fits (segments path).length) :
    leading s <+: segments path ↔ ∀ (i : ℕ) (seg : GoString), (segments s)[i]? = some seg →
      i < (leading s).length → segmentSays seg
        ((segments path).getD (p.place (segments path).length i) []) := by
  obtain ⟨t, ht⟩ := List.takeWhile_prefix (l := segments s) isLiteral
  have hplace {i : ℕ} (hi : i < (leading s).length) : p.place (segments path).length i = i := by
    rw [DataPattern.place]
    cases hstar : p.star with
    | none => rfl
    | some k =>
      have hk := hp.leading_length_le hstar
      exact if_neg (by omega)
  have hget {i : ℕ} (hi : i < (leading s).length) : (segments s)[i]? = (leading s)[i]? := by
    rw [← ht]
    exact List.getElem?_append_left hi
  have hmeans {i : ℕ} {seg : GoString} (hi : (leading s)[i]? = some seg) (a : GoString) :
      seg ≠ ascii "**" ∧ (segmentSays seg a ↔ a = seg) := by
    have hlit : isLiteral seg = true := List.mem_takeWhile_imp (List.mem_of_getElem? hi)
    have hliteral : classify seg = .lit seg := of_decide_eq_true hlit
    have h := segmentSays_iff seg a
    rw [hliteral] at h
    refine ⟨?_, h.2⟩
    rintro rfl
    rw [classify_star] at hliteral
    cases hliteral
  constructor
  · rintro ⟨u, hu⟩ i seg hseg hi
    rw [hget hi] at hseg
    rw [hplace hi, (hmeans hseg _).2, ← hu, List.getD_eq_getElem?_getD, List.getElem?_append_left hi,
      hseg, Option.getD_some]
  · intro h
    rw [List.prefix_iff_getElem?]
    intro i hi
    have hseg := List.getElem?_eq_getElem hi
    have hlt := hp.place_lt hfits ((hget hi).trans hseg) (hmeans hseg []).1
    have heq := (hmeans hseg _).2.mp (h i _ ((hget hi).trans hseg) hi)
    rw [hplace hi] at hlt heq
    rw [← heq, List.getD_eq_getElem?_getD, List.getElem?_eq_getElem hlt, Option.getD_some]

end DataPattern.ParsedFrom

/-! ### The trailing star -/

/-- The path is the literal part of a pattern that is a literal part and a star. -/
def Omits (s path : GoString) : Prop :=
  s = path ++ ascii "/**" ∧ ∀ seg ∈ segments path, isLiteral seg = true

instance (s path : GoString) : Decidable (Omits s path) :=
  inferInstanceAs (Decidable (_ ∧ _))

theorem Omits.segments_eq {s path : GoString} (h : Omits s path) :
    segments s = segments path ++ [ascii "**"] := by
  have hstar : segments (ascii "**") = [ascii "**"] := by decide
  have hslash : ascii "/**" = slash :: ascii "**" := by decide
  rw [h.1, hslash, segments_append, hstar]

theorem Omits.leading_eq {s path : GoString} (h : Omits s path) : leading s = segments path := by
  have hstar : isLiteral (ascii "**") = false := by
    rw [isLiteral, classify_star]
    rfl
  rw [leading, h.segments_eq, List.takeWhile_append_of_pos h.2, List.takeWhile_cons, hstar]
  exact List.append_nil _

namespace DataPattern.ParsedFrom

variable {s path : GoString} {p : DataPattern}

theorem star_of_omits (hp : p.ParsedFrom s) (h : Omits s path) :
    p.star = some (segments path).length := by
  rw [hp.star_iff, h.segments_eq]
  exact List.getElem?_concat_length

/-- A path that is what the pattern begins with, and no more, is left out when the pattern says it
and is longer. -/
theorem omits_of_leading (hp : p.ParsedFrom s) (hfits : p.Fits (segments path).length)
    (hall : leading s = segments path)
    (hlong : p.segs.length ≠ (leading s).length ∨ p.star ≠ none) :
    Omits s path := by
  obtain ⟨t, ht⟩ := List.takeWhile_prefix (l := segments s) isLiteral
  rw [← leading, hall] at ht
  have hn := hp.length_segs
  rw [← ht, List.length_append] at hn
  rw [hall] at hlong
  rw [DataPattern.Fits] at hfits
  cases hstar : p.star with
  | none =>
    rw [hstar] at hfits hlong
    dsimp only at hfits
    exact absurd hlong (by simp [hfits])
  | some k =>
    have hk := hp.leading_length_le hstar
    have hget := (hp.star_iff k).mp hstar
    rw [hstar] at hfits
    rw [hall] at hk
    rw [← ht, List.getElem?_append_right hk] at hget
    obtain ⟨hlt, heq⟩ := List.getElem?_eq_some_iff.mp hget
    dsimp only at hfits
    have hone : t.length = 1 := by omega
    obtain ⟨x, rfl⟩ := List.length_eq_one_iff.mp hone
    have hx : x = ascii "**" := by simpa using heq
    refine ⟨?_, fun seg hseg => ?_⟩
    · rw [← joinSlash_segments s, ← ht, hx,
        joinSlash_append (segments_ne_nil path) (List.cons_ne_nil _ _), joinSlash_segments]
      have hstar : slash :: joinSlash [ascii "**"] = ascii "/**" := by decide
      rw [hstar]
    · rw [← hall] at hseg
      exact List.mem_takeWhile_imp hseg

/-- The literal part says itself. -/
theorem says_of_omits (hp : p.ParsedFrom s) (h : Omits s path) : Says s path := by
  have hn := hp.length_segs
  rw [h.segments_eq, List.length_append, List.length_singleton] at hn
  have hfits : p.Fits (segments path).length := by
    rw [DataPattern.Fits, hp.star_of_omits h]
    exact hn.le
  have hfront := (hp.leading_prefix_iff hfits).mp (by rw [h.leading_eq])
  refine (hp.says_iff path).mpr ⟨hfits, fun i seg hi hne => hfront i seg hi ?_⟩
  by_contra hlast
  rw [h.leading_eq] at hlast
  rw [h.segments_eq, List.getElem?_append_right (not_lt.mp hlast)] at hi
  exact hne (List.mem_singleton.mp (List.mem_of_getElem? hi))

/-- The conditions on the literal part. -/
theorem prefixConds_hold_iff (hp : p.ParsedFrom s) (e : SqlEngine) (d : Dialect) {row : DataItem}
    (hfits : p.Fits (segments row.path).length) :
    p.prefixConds.all (FileCond.holds e d row) = true ↔
      leading s <+: segments row.path ∧ ¬ Omits s row.path := by
  have hpre : p.pre = (leading s).flatMap (· ++ [slash]) := hp.pre
  rw [DataPattern.prefixConds]
  by_cases hnil : leading s = []
  · rw [hpre, hnil, List.flatMap_nil, if_neg (not_not_intro rfl)]
    refine iff_of_true rfl ⟨List.nil_prefix, fun h => ?_⟩
    rw [h.leading_eq] at hnil
    exact segments_ne_nil _ hnil
  · have hjoin : p.pre = joinSlash (leading s) ++ [slash] := by
      rw [hpre, flatMap_eq_joinSlash hnil]
    have hslash : ∀ seg ∈ leading s, slash ∉ seg := slash_notMem
    rw [if_pos (by rw [hjoin]; exact List.append_ne_nil_of_right_ne_nil _ nofun), hp.count_pre]
    split_ifs with hexact
    · have hlen : (segments row.path).length = (leading s).length := by
        rw [DataPattern.Fits, hexact.2] at hfits
        exact hfits.trans hexact.1
      have hno : ¬ Omits s row.path := fun h => by
        have hsome := hp.star_of_omits h
        rw [hexact.2] at hsome
        cases hsome
      have hpath : row.path = joinSlash (leading s) ↔ leading s <+: segments row.path := by
        constructor
        · intro h
          rw [h, segments_joinSlash hslash hnil]
        · intro h
          rw [h.eq_of_length hlen.symm, joinSlash_segments]
      rw [and_iff_left hno, ← hpath, hjoin, trimSuffix_append]
      simp [FileCond.holds]
    · have hrange := range_iff (joinSlash (leading s)) row.path
      rw [← hjoin] at hrange
      have hconds : [FileCond.pathGe p.pre, .pathLt (prefixUpper p.pre)].all
          (FileCond.holds e d row) = true ↔ p.pre <+: row.path := by
        rw [← hrange]
        simp [FileCond.holds]
      rw [hconds, hpre, flatMap_prefix_iff hslash]
      refine and_congr_right fun hlisted => ?_
      constructor
      · intro hlt h
        rw [h.leading_eq] at hlt
        exact lt_irrefl _ hlt
      · intro hkept
        refine lt_of_le_of_ne hlisted.length_le fun hlen => hkept ?_
        exact hp.omits_of_leading hfits (hlisted.eq_of_length hlen) (not_and_or.mp hexact)

/-- **The conditions of a pattern** are what it says, but for what it leaves out. -/
theorem pattern_holds_iff (hp : p.ParsedFrom s) {e : SqlEngine} (he : e.Documented) (d : Dialect)
    (row : DataItem) :
    (p.conds d).all (FileCond.holds e d row) = true ↔ Says s row.path ∧ ¬ Omits s row.path := by
  rw [DataPattern.conds, List.all_append, List.all_cons, Bool.and_eq_true, Bool.and_eq_true,
    hp.countCond_holds_iff, hp.says_iff]
  by_cases hfits : p.Fits (segments row.path).length
  · rw [hp.prefixConds_hold_iff e d hfits, hp.segConds_hold_iff he d hfits,
      hp.leading_prefix_iff hfits]
    constructor
    · rintro ⟨⟨hfront, hkept⟩, -, hback⟩
      refine ⟨⟨hfits, fun i seg hi hne => ?_⟩, hkept⟩
      rcases lt_or_ge i (leading s).length with hlt | hge
      · exact hfront i seg hi hlt
      · exact hback i seg hi hge hne
    · rintro ⟨⟨-, hall⟩, hkept⟩
      refine ⟨⟨fun i seg hi hlt => hall i seg hi ?_, hkept⟩, hfits,
        fun i seg hi _ hne => hall i seg hi hne⟩
      rintro rfl
      exact absurd hlt (not_lt.mpr (hp.leading_length_le ((hp.star_iff i).mpr hi)))
  · exact iff_of_false (fun h => hfits h.2.1) fun h => hfits h.1.1

end DataPattern.ParsedFrom

/-! ### The files of a query -/

/-- What the visibility asks of a row. -/
theorem QueryCaller.visible_cond_iff (c : QueryCaller) {e : SqlEngine} {d : Dialect}
    (hbase : atLeast c.base .read = true) (hash : GoString → GoString) (row : DataItem) :
    (if (c.visibility hash).hides then [c.visible] else []).all (FileCond.holds e d row) = true ↔
      (c.visibility hash).canRead row.path = true := by
  cases hhides : (c.visibility hash).hides with
  | false =>
    rw [if_neg Bool.false_ne_true]
    exact iff_of_true rfl ((c.visibility hash).all_of_off hhides row.path)
  | true =>
    have hread : (c.visibility hash).canRead row.path = atLeast (c.levelAt row.path) .read := by
      rw [Viewer.visibility, Viewer.visibilityAt] at hhides ⊢
      split_ifs at hhides ⊢ with hbare hnone hadmin hsome
      · exact absurd hhides Bool.false_ne_true
      · exact absurd hhides Bool.false_ne_true
      · exact absurd hhides Bool.false_ne_true
      · rfl
      · exact absurd hhides Bool.false_ne_true
    rw [if_pos rfl, List.all_cons, List.all_nil, Bool.and_true, visible_holds_iff hbase, hread]

/-- **What a query reads**: the live files of the project its pattern says and the caller may read,
but for those it leaves out. -/
theorem admits_fileWhere_iff {e : SqlEngine} (he : e.Documented) (d : Dialect) (c : QueryCaller)
    (hash : GoString → GoString) (hbase : atLeast c.base .read = true) (project : GoString)
    {s : GoString} {p : DataPattern} (hp : p.ParsedFrom s) (row : DataItem) :
    admits e d (fileWhere d p hash project c) row = true ↔
      (row.project = project ∧ row.deleted = false) ∧
        (Says s row.path ∧ ¬ Omits s row.path) ∧ (c.visibility hash).canRead row.path = true := by
  rw [admits, fileWhere, List.all_append, List.all_append, Bool.and_eq_true, Bool.and_eq_true,
    hp.pattern_holds_iff he, c.visible_cond_iff hbase, and_assoc]
  refine and_congr_left fun _ => ?_
  simp [FileCond.holds]

/-- **A query reads what its pattern says**, of what the caller may read, exactly when no such file
is left out. -/
theorem fileWhere_exact_iff {e : SqlEngine} (he : e.Documented) (d : Dialect) (c : QueryCaller)
    (hash : GoString → GoString) (hbase : atLeast c.base .read = true) (project : GoString)
    {s : GoString} {p : DataPattern} (hp : parsePattern s = .ok p) (rows : List DataItem) :
    (∀ row ∈ rows, admits e d (fileWhere d p hash project c) row = true ↔
      row.project = project ∧ row.deleted = false ∧ Says s row.path ∧
        (c.visibility hash).canRead row.path = true) ↔
    ∀ row ∈ rows, row.project = project → row.deleted = false →
      (c.visibility hash).canRead row.path = true → ¬ Omits s row.path := by
  have hparsed := parsePattern_spec hp
  refine forall_congr' fun row => forall_congr' fun _ => ?_
  rw [admits_fileWhere_iff he d c hash hbase project hparsed row]
  constructor
  · intro h hproject hlive hread homits
    exact (h.mpr ⟨hproject, hlive, hparsed.says_of_omits homits, hread⟩).2.1.2 homits
  · intro h
    constructor
    · rintro ⟨⟨hproject, hlive⟩, ⟨hmeans, -⟩, hread⟩
      exact ⟨hproject, hlive, hmeans, hread⟩
    · rintro ⟨hproject, hlive, hmeans, hread⟩
      exact ⟨⟨hproject, hlive⟩, ⟨hmeans, h hproject hlive hread⟩, hread⟩

/-- A database that does what is documented, and nothing else. -/
def plainEngine : SqlEngine where
  splitPart := pathSegment
  like s p := match likeTests (chars p) with
    | some tests => decide (gapMatch charOK tests (chars s))
    | none => false
  glob s p := match globTests (chars p) with
    | some tests => decide (gapMatch charOK tests (chars s))
    | none => false

theorem plainEngine_documented : plainEngine.Documented where
  splitPart_eq _ _ _ := rfl
  like_iff s p tests h := by
    dsimp only [plainEngine]
    rw [h]
    exact decide_eq_true_iff
  glob_iff s p tests h := by
    dsimp only [plainEngine]
    rw [h]
    exact decide_eq_true_iff

/-- A member one folder is closed to. -/
def secretCaller : QueryCaller where
  toViewer := secretViewer (ascii "a@b.c")
  order := (secretViewer (ascii "a@b.c")).view.folders
  perm := .refl _
  sorted := by decide

/-- The file at the literal part itself: the pattern says it, the caller may read it, and the query
does not read it. -/
theorem literal_itself_omitted : ∃ p, parsePattern (ascii "a.json/**") = .ok p ∧
    Says (ascii "a.json/**") (ascii "a.json") ∧
    (secretCaller.visibility oneDigest).canRead (ascii "a.json") = true ∧
    admits plainEngine .sqlite (fileWhere .sqlite p oneDigest (ascii "p") secretCaller)
      ⟨ascii "p", ascii "a.json", false⟩ = false :=
  ⟨⟨[.lit (ascii "a.json"), .star], some 1, ascii "a.json/"⟩, by decide +kernel, by decide +kernel,
    by decide +kernel, by decide +kernel⟩

/-- No file stands at the literal part: the file below it is read, and no other. -/
theorem exact_below_folder :
    (∀ row ∈ [DataItem.mk (ascii "p") (ascii "secret/f/a") false,
        DataItem.mk (ascii "p") (ascii "b/c") false,
        DataItem.mk (ascii "p") (ascii "secret/f") false],
      admits plainEngine .postgres (fileWhere .postgres ⟨[.lit (ascii "b"), .star], some 1,
          ascii "b/"⟩ oneDigest (ascii "p") secretCaller) row = true ↔
        row.project = ascii "p" ∧ row.deleted = false ∧ Says (ascii "b/**") row.path ∧
          (secretCaller.visibility oneDigest).canRead row.path = true) ∧
      admits plainEngine .postgres (fileWhere .postgres ⟨[.lit (ascii "b"), .star], some 1,
          ascii "b/"⟩ oneDigest (ascii "p") secretCaller)
        ⟨ascii "p", ascii "b/c", false⟩ = true :=
  ⟨(fileWhere_exact_iff plainEngine_documented .postgres secretCaller oneDigest
    (by decide +kernel) (ascii "p") (by decide +kernel) _).mpr (by decide +kernel),
    by decide +kernel⟩

end Beardrive
