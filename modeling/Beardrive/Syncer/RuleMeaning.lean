import Beardrive.Syncer.Escape

/-!
# What a rule matches

`regexMatch` runs the elements of a rule over a path. What it decides is said here without running
anything: a path matches when it can be cut into a front, a stretch the elements spell, and a tail.
The front is empty or ends in a slash, and the tail is empty or goes on below a directory.

## Main definitions

* `Elem.Spells`, `Spells` — the stretches that an element, and a sequence of them, stand for

## Main results

* `regexMatch_iff` — the cut
* `fine_of_compile` — what a rule without a wildcard compiles to
-/

namespace Beardrive

/-! ### Expressions -/

/-- The stretches an element stands for. -/
def Elem.Spells : Elem → List Rune → Prop
  | .lit c, u => u = [c]
  | .one, u => ∃ r, u = [r] ∧ r ≠ slashRune
  | .star, u => slashRune ∉ u
  | .deep, u => 0x0A ∉ u

/-- The stretches a sequence of elements stands for. -/
def Spells : List Elem → List Rune → Prop
  | [], u => u = []
  | e :: es, u => ∃ a b, u = a ++ b ∧ e.Spells a ∧ Spells es b

theorem spells_append {es fs : List Elem} {u : List Rune} :
    Spells (es ++ fs) u ↔ ∃ a b, u = a ++ b ∧ Spells es a ∧ Spells fs b := by
  induction es generalizing u with
  | nil =>
    constructor
    · intro h
      exact ⟨[], u, rfl, rfl, h⟩
    · rintro ⟨a, b, rfl, rfl, h⟩
      exact h
  | cons e es ih =>
    constructor
    · rintro ⟨a, b, rfl, ha, hb⟩
      obtain ⟨c, d, rfl, hc, hd⟩ := ih.mp hb
      exact ⟨a ++ c, d, by rw [List.append_assoc], ⟨a, c, rfl, ha, hc⟩, hd⟩
    · rintro ⟨a, b, rfl, ⟨c, d, rfl, hc, hd⟩, hb⟩
      exact ⟨c, d ++ b, by rw [List.append_assoc], hc, ih.mpr ⟨d, b, rfl, hd, hb⟩⟩

theorem spells_singleton {e : Elem} {u : List Rune} : Spells [e] u ↔ e.Spells u := by
  constructor
  · rintro ⟨a, b, rfl, ha, rfl⟩
    rwa [List.append_nil]
  · intro h
    exact ⟨u, [], (List.append_nil u).symm, h, rfl⟩

theorem notNewline_iff {r : Rune} : notNewline r = true ↔ r ≠ 0x0A := bne_iff_ne

theorem spanThen_iff {ok : Rune → Bool} {k : List Rune → Bool} {s : List Rune} :
    spanThen ok k s = true ↔ ∃ u v, s = u ++ v ∧ (∀ r ∈ u, ok r = true) ∧ k v = true := by
  induction s with
  | nil =>
    rw [spanThen]
    constructor
    · intro h
      exact ⟨[], [], rfl, by simp, h⟩
    · rintro ⟨u, v, heq, -, h⟩
      rwa [(List.append_eq_nil_iff.mp heq.symm).2] at h
  | cons r s ih =>
    rw [spanThen, Bool.or_eq_true, Bool.and_eq_true, ih]
    constructor
    · rintro (h | ⟨hr, u, v, rfl, hu, h⟩)
      · exact ⟨[], r :: s, rfl, by simp, h⟩
      · exact ⟨r :: u, v, rfl, List.forall_mem_cons.mpr ⟨hr, hu⟩, h⟩
    · rintro ⟨u, v, heq, hu, h⟩
      cases u with
      | nil => exact .inl (by rwa [heq])
      | cons r' u =>
        obtain ⟨rfl, rfl⟩ := List.cons.inj heq
        obtain ⟨hr, hu⟩ := List.forall_mem_cons.mp hu
        exact .inr ⟨hr, u, v, rfl, hu, h⟩

/-- **A match is a cut**: the elements spell the first part, and the tail takes the rest. -/
theorem matchElems_iff {dirOnly : Bool} {es : List Elem} {s : List Rune} :
    matchElems dirOnly es s = true ↔
      ∃ u v, s = u ++ v ∧ Spells es u ∧ matchTail dirOnly v = true := by
  induction es generalizing s with
  | nil =>
    rw [matchElems]
    constructor
    · intro h
      exact ⟨[], s, rfl, rfl, h⟩
    · rintro ⟨u, v, rfl, rfl, h⟩
      exact h
  | cons e es ih =>
    have hsplit : (∃ u v, s = u ++ v ∧ Spells (e :: es) u ∧ matchTail dirOnly v = true) ↔
        ∃ a b, s = a ++ b ∧ e.Spells a ∧ matchElems dirOnly es b = true := by
      constructor
      · rintro ⟨u, v, rfl, ⟨a, b, rfl, ha, hb⟩, hv⟩
        exact ⟨a, b ++ v, by rw [List.append_assoc], ha, ih.mpr ⟨b, v, rfl, hb, hv⟩⟩
      · rintro ⟨a, b, rfl, ha, hb⟩
        obtain ⟨u, v, rfl, hu, hv⟩ := ih.mp hb
        exact ⟨a ++ u, v, by rw [List.append_assoc], ⟨a, u, rfl, ha, hu⟩, hv⟩
    rw [hsplit]
    cases e with
    | lit c =>
      cases s with
      | nil => simp [matchElems, Elem.Spells]
      | cons r s =>
        rw [matchElems, Bool.and_eq_true, beq_iff_eq]
        constructor
        · rintro ⟨rfl, h⟩
          exact ⟨[r], s, rfl, rfl, h⟩
        · rintro ⟨_, b, heq, rfl, h⟩
          obtain ⟨rfl, rfl⟩ := List.cons.inj heq
          exact ⟨rfl, h⟩
    | one =>
      cases s with
      | nil => simp [matchElems, Elem.Spells]
      | cons r s =>
        rw [matchElems, Bool.and_eq_true, bne_iff_ne]
        constructor
        · rintro ⟨hr, h⟩
          exact ⟨[r], s, rfl, ⟨r, rfl, hr⟩, h⟩
        · rintro ⟨_, b, heq, ⟨r', rfl, hr⟩, h⟩
          obtain ⟨rfl, rfl⟩ := List.cons.inj heq
          exact ⟨hr, h⟩
    | star =>
      rw [matchElems, spanThen_iff]
      have hstar (u : List Rune) : (∀ r ∈ u, (r != slashRune) = true) ↔ Elem.star.Spells u := by
        simp [Elem.Spells, List.forall_mem_ne']
      simp only [hstar]
    | deep =>
      rw [matchElems, spanThen_iff]
      have hdeep (u : List Rune) : (∀ r ∈ u, notNewline r = true) ↔ Elem.deep.Spells u := by
        simp [Elem.Spells, notNewline_iff, List.forall_mem_ne']
      simp only [hdeep]

theorem afterSlash_iff {k : List Rune → Bool} {s : List Rune} :
    afterSlash k s = true ↔ ∃ a b, s = a ++ slashRune :: b ∧ k b = true := by
  induction s with
  | nil => simp [afterSlash]
  | cons r s ih =>
    rw [afterSlash, Bool.or_eq_true, Bool.and_eq_true, beq_iff_eq, ih]
    constructor
    · rintro (⟨rfl, h⟩ | ⟨a, b, rfl, h⟩)
      · exact ⟨[], s, rfl, h⟩
      · exact ⟨r :: a, b, rfl, h⟩
    · rintro ⟨a, b, heq, h⟩
      cases a with
      | nil =>
        obtain ⟨rfl, rfl⟩ := List.cons.inj heq
        exact .inl ⟨rfl, h⟩
      | cons r' a =>
        obtain ⟨rfl, rfl⟩ := List.cons.inj heq
        exact .inr ⟨a, b, rfl, h⟩

/-- Where an expression may start: at the front of a path or, unless it is anchored, behind any
slash. -/
def Pattern.StartsAt (p : Pattern) (pre : List Rune) : Prop :=
  pre = [] ∨ p.anchored = false ∧ ∃ a, pre = a ++ [slashRune]

/-- **What an expression matches.** -/
theorem regexMatch_iff {p : Pattern} {rel : GoString} :
    p.regexMatch rel = true ↔ ∃ pre u v, runes rel = pre ++ (u ++ v) ∧ p.StartsAt pre ∧
      Spells p.elems u ∧ matchTail p.dirOnly v = true := by
  rw [Pattern.regexMatch, Bool.or_eq_true, Bool.and_eq_true, Bool.not_eq_true', matchElems_iff,
    afterSlash_iff]
  constructor
  · rintro (⟨u, v, heq, hu, hv⟩ | ⟨hanch, a, b, heq, hb⟩)
    · exact ⟨[], u, v, heq, .inl rfl, hu, hv⟩
    · obtain ⟨u, v, rfl, hu, hv⟩ := matchElems_iff.mp hb
      exact ⟨a ++ [slashRune], u, v, by rw [heq]; simp, .inr ⟨hanch, a, rfl⟩, hu, hv⟩
  · rintro ⟨pre, u, v, heq, rfl | ⟨hanch, a, rfl⟩, hu, hv⟩
    · exact .inl ⟨u, v, heq, hu, hv⟩
    · exact .inr ⟨hanch, a, u ++ v, by rw [heq]; simp, matchElems_iff.mpr ⟨u, v, rfl, hu, hv⟩⟩

/-! ### Rules without a wildcard -/

/-- As long as no wildcard was met, an expression is the bytes that stand for themselves. -/
def Build.Bytes (s : Build) : Prop := s.wildcard = false → s.source = s.unescaped.map Token.byte

theorem Build.Bytes.byte {s : Build} (h : s.Bytes) (b : UInt8) : (s.byte b).Bytes := by
  intro hw
  show s.source ++ [Token.byte b] = (s.unescaped ++ [b]).map Token.byte
  rw [h hw, List.map_append, List.map_singleton]

theorem Build.bytes_wild (s : Build) (i : ℤ) (e : Elem) : (s.wild i e).Bytes := nofun

theorem Build.Bytes.flush {s : Build} (h : s.Bytes) (stop : ℤ) : (s.flush stop).Bytes := by
  intro hw
  rw [Build.flush] at hw ⊢
  dsimp only at hw ⊢
  split_ifs at hw ⊢ <;> exact h hw

theorem Build.Bytes.buildBody {i : ℤ} {body : GoString} {s : Build} (h : s.Bytes) :
    (buildBody i body s).Bytes := by
  fun_induction Beardrive.buildBody i body s with
  | case1 => exact h
  | case2 => exact h.byte _
  | case3 i b s hb head body ih => exact ih (h.byte _)
  | case4 => exact Build.bytes_wild _ _ _
  | case5 i b s hb hstar head body hdeep ih => exact ih (Build.bytes_wild _ _ _)
  | case6 i b s hb hstar head body hdeep ih => exact ih (Build.bytes_wild _ _ _)
  | case7 i b body s hb hstar hone ih => exact ih (Build.bytes_wild _ _ _)
  | case8 i b body s hb hstar hone ih => exact ih (h.byte _)

/-- **What a rule without a wildcard compiles to**: its expression spells the path it names, and
the literals are that path with slashes around it. -/
structure Pattern.Fine (p : Pattern) : Prop where
  elems : p.exactSeg ≠ [] → p.elems = (runes p.exactSeg).map Elem.lit
  segPrefix : p.exactSeg ≠ [] → p.segPrefix = p.exactSeg ++ [slash]
  segSuffix : p.exactSeg ≠ [] → p.anchored = false → p.segSuffix = slash :: p.exactSeg
  segInfix : p.exactSeg ≠ [] → p.anchored = false → p.segInfix = slash :: p.exactSeg ++ [slash]

theorem fine_of_compileBody {negate anchored dirOnly : Bool} {body : GoString} {p : Pattern}
    (h : compileBody negate anchored dirOnly body = some p) : p.Fine := by
  obtain ⟨elems, helems, rfl⟩ := Option.map_eq_some_iff.mp h
  have hbytes : ((buildBody 0 body {}).flush body.length).Bytes :=
    (Build.Bytes.buildBody fun _ => rfl).flush _
  split
  case isTrue => exact ⟨fun h => absurd rfl h, fun h => absurd rfl h, fun h => absurd rfl h,
    fun h => absurd rfl h⟩
  case isFalse hw =>
    rw [hbytes (Bool.not_eq_true _ ▸ hw), elemsOf_bytes, List.nil_append] at helems
    split at helems
    · refine ⟨fun _ => (Option.some.inj helems).symm, fun _ => rfl, fun _ ha => ?_, fun _ ha => ?_⟩
      · exact if_neg (by simpa using ha)
      · exact if_neg (by simpa using ha)
    · cases helems

theorem fine_of_compile {line : GoString} {p : Pattern} (h : compile line = some p) : p.Fine := by
  rw [compile] at h
  dsimp only at h
  split_ifs at h <;> exact fine_of_compileBody h

theorem fine_of_mem_compileRules {text : GoString} {p : Pattern} (h : p ∈ compileRules text) :
    p.Fine := by
  obtain ⟨line, -, hline⟩ := List.mem_filterMap.mp h
  exact fine_of_compile hline

end Beardrive
