import Beardrive.Lib.Merge3

/-!
# What a merge comes to

`mergeLines` walks the base with a cursor, which every edit sets to the end of its region. Where
the edits stand in order, that is the same as making them one after the other, the last one first:
`applyEdits_eq`. The regions of two sides that do not overlap stand in order, in one of the two
orders, and a sort by their start finds it with one exception. An insertion and a change that
begins behind it have the same start, the sort leaves them as they came, and where the change came
first the cursor goes back and the lines that it replaced are walked again.

Nothing here refers to any particular program.

## Main definitions

* `Edit.apply`, `mergedLines` — a replaced region, and the base with both regions replaced
* `insertsAhead` — whether one side inserts where a change of the other begins

## Main results

* `mergeLines_eq` — a merge is the base with both regions replaced, but for that exception
* `mergeLines_of_insertsAhead` — in that case the two orders do not even agree on the length
-/

namespace Beardrive

variable {α : Type*} [DecidableEq α]

/-- A text with one region replaced. -/
def Edit.apply (e : Edit α) (text : List α) : List α :=
  text.take e.r.from_ ++ e.with_ ++ text.drop e.r.to_

/-- The edits that make a side of a base. -/
def sideEdits (base side : List α) : List (Edit α) := edits side (changedRegions base side)

/-- **The base with the region of each side replaced**, once each. The region that ends first is
the earlier one, and the later one is replaced first. -/
def mergedLines (base a b : List α) : List α :=
  ((sideEdits base a ++ sideEdits base b).insertionSort fun e f =>
    e.r.from_ < f.r.from_ ∨ e.r.from_ = f.r.from_ ∧ e.r.to_ ≤ f.r.to_).foldr Edit.apply base

/-- Whether one side inserts where a change of the other begins. -/
def insertsAhead (a b : List Region) : Bool :=
  a.any fun x => b.any fun y =>
    decide (x.from_ = y.from_ ∧ ¬ (x.from_ = x.to_ ↔ y.from_ = y.to_))

/-! ### What a side changed -/

theorem commonFront_self (s : List α) : commonFront s s = s.length := by
  induction s with
  | nil => rfl
  | cons a s ih => rw [commonFront, if_pos rfl, ih, List.length_cons]

theorem commonFront_le (s t : List α) :
    commonFront s t ≤ s.length ∧ commonFront s t ≤ t.length := by
  induction s generalizing t with
  | nil => simp [commonFront]
  | cons a s ih =>
    cases t with
    | nil => simp [commonFront]
    | cons b t =>
      rw [commonFront]
      have h := ih t
      split <;> simp only [List.length_cons] <;> omega

/-- The common end of two lists, found from their ends. -/
theorem drop_commonFront_reverse (s t : List α) :
    s.drop (s.length - commonFront s.reverse t.reverse) =
      t.drop (t.length - commonFront s.reverse t.reverse) := by
  have h := congrArg List.reverse (take_commonFront s.reverse t.reverse)
  rwa [List.take_reverse, List.take_reverse, List.reverse_reverse, List.reverse_reverse] at h

/-- **What a side changed**: nothing, or one stretch of the base for another one. -/
theorem changedRegions_cases (base side : List α) :
    side = base ∧ changedRegions base side = [] ∨
      ∃ pre cut put post, base = pre ++ cut ++ post ∧ side = pre ++ put ++ post ∧
        (cut ≠ [] ∨ put ≠ []) ∧
        changedRegions base side =
          [⟨pre.length, pre.length + cut.length, pre.length, pre.length + put.length⟩] := by
  have hfront := take_commonFront base side
  obtain ⟨hp, hp'⟩ := commonFront_le base side
  by_cases hsame : commonFront base side = base.length ∧ commonFront base side = side.length
  · refine .inl ⟨?_, by rw [changedRegions, if_pos hsame]⟩
    have h := hfront
    rwa [hsame.1, List.take_length, ← hsame.1, hsame.2, List.take_length, eq_comm] at h
  · have hregion : changedRegions base side = [_] := if_neg hsame
    have hback := drop_commonFront_reverse (base.drop (commonFront base side))
      (side.drop (commonFront base side))
    have hs := commonFront_le (base.drop (commonFront base side)).reverse
      (side.drop (commonFront base side)).reverse
    have hdiff : side ≠ base := fun h => hsame (by rw [h, commonFront_self]; exact ⟨rfl, rfl⟩)
    rw [hregion]
    generalize commonFront base side = p at *
    generalize commonFront (base.drop p).reverse (side.drop p).reverse = e at *
    simp only [List.length_reverse, List.length_drop, List.drop_drop] at hs hback ⊢
    -- the three stretches of either text, cut at the same distance from its ends
    have hbase : base = base.take p ++ (base.drop p).take (base.length - p - e) ++
        base.drop (p + (base.length - p - e)) := by
      rw [← List.drop_drop, List.append_assoc, List.take_append_drop, List.take_append_drop]
    have hside : side = base.take p ++ (side.drop p).take (side.length - p - e) ++
        base.drop (p + (base.length - p - e)) := by
      rw [hback, hfront, ← List.drop_drop, List.append_assoc, List.take_append_drop,
        List.take_append_drop]
    refine .inr ⟨_, _, _, _, hbase, hside, ?_, ?_⟩
    · by_contra h
      rw [not_or, not_not, not_not] at h
      rw [h.1] at hbase
      rw [h.2] at hside
      exact hdiff (hside.trans hbase.symm)
    · simp only [List.length_take, List.length_drop, List.cons.injEq, Region.mk.injEq, and_true]
      omega

/-- The edits that make a side: none, or the one that puts a stretch in the place of another. -/
theorem sideEdits_cases (base side : List α) :
    side = base ∧ changedRegions base side = [] ∧ sideEdits base side = [] ∨
      ∃ e : Edit α, changedRegions base side = [e.r] ∧ sideEdits base side = [e] ∧
        e.apply base = side ∧ e.r.from_ ≤ e.r.to_ ∧ e.r.to_ ≤ base.length ∧
        (e.r.from_ = e.r.to_ → e.with_ ≠ []) := by
  rcases changedRegions_cases base side with ⟨hsame, hr⟩ | ⟨pre, cut, put, post, hb, hs, hne, hr⟩
  · exact .inl ⟨hsame, hr, by rw [sideEdits, hr]; rfl⟩
  · have hput : (side.take (pre.length + put.length)).drop pre.length = put := by
      rw [hs, ← List.length_append, List.take_left, List.drop_left]
    refine .inr ⟨⟨_, put⟩, hr, ?_, ?_, ?_, ?_, ?_⟩
    · rw [sideEdits, hr, edits, List.map_singleton, hput]
    · rw [Edit.apply, hb, hs]
      simp
    · show pre.length ≤ pre.length + cut.length
      omega
    · show pre.length + cut.length ≤ base.length
      simp only [hb, List.length_append]
      omega
    · intro h
      have hcut : cut = [] := List.length_eq_zero_iff.mp (by simpa using h)
      exact hne.resolve_left (not_not.mpr hcut)

/-! ### Edits in order -/

/-- The regions of edits follow each other from `at_` on, within a text of length `n`. -/
def InOrder (n : ℕ) : ℕ → List (Edit α) → Prop
  | at_, [] => at_ ≤ n
  | at_, e :: es => at_ ≤ e.r.from_ ∧ e.r.from_ ≤ e.r.to_ ∧ InOrder n e.r.to_ es

omit [DecidableEq α] in
theorem InOrder.le {n at_ : ℕ} {es : List (Edit α)} (h : InOrder n at_ es) : at_ ≤ n := by
  induction es generalizing at_ with
  | nil => exact h
  | cons e es ih =>
    obtain ⟨hat, hle, hes⟩ := h
    have := ih hes
    omega

omit [DecidableEq α] in
/-- Edits leave what is in front of them. -/
theorem InOrder.take_foldr {base : List α} {at_ k : ℕ} {es : List (Edit α)}
    (h : InOrder base.length at_ es) (hk : k ≤ at_) :
    (es.foldr Edit.apply base).take k = base.take k := by
  induction es generalizing at_ k with
  | nil => rfl
  | cons e es ih =>
    obtain ⟨hat, hle, hes⟩ := h
    have hlen := hes.le
    have hfront : k ≤ (base.take e.r.from_).length := by
      rw [List.length_take]
      omega
    rw [List.foldr_cons, Edit.apply, ih hes hle, List.append_assoc,
      List.take_append_of_le_length hfront, List.take_take, Nat.min_eq_left (by omega)]

omit [DecidableEq α] in
/-- **A walk over edits in order makes them one after the other**, the last one first. -/
theorem applyEdits_eq {base : List α} {at_ : ℕ} {es : List (Edit α)}
    (h : InOrder base.length at_ es) :
    applyEdits base at_ es = (es.foldr Edit.apply base).drop at_ := by
  induction es generalizing at_ with
  | nil => rfl
  | cons e es ih =>
    obtain ⟨hat, hle, hes⟩ := h
    have hlen := hes.le
    have hfront : at_ ≤ (base.take e.r.from_).length := by
      rw [List.length_take]
      omega
    rw [applyEdits, ih hes, List.foldr_cons, Edit.apply, hes.take_foldr hle, List.append_assoc,
      List.append_assoc, List.drop_append_of_le_length hfront]

/-! ### Two sides -/

omit [DecidableEq α] in
/-- A sort of two edits by a relation that holds one way only. -/
theorem insertionSort_pair {r : Edit α → Edit α → Prop} [DecidableRel r] {e f : Edit α}
    (h : r e f) (h' : ¬ r f e) :
    [e, f].insertionSort r = [e, f] ∧ [f, e].insertionSort r = [e, f] := by
  constructor
  · show List.orderedInsert r e (List.orderedInsert r f []) = [e, f]
    exact if_pos h
  · show List.orderedInsert r f (List.orderedInsert r e []) = [e, f]
    exact if_neg h'

/-- Two sides that do not overlap, and none of which inserts where the other begins. -/
structure Apart (e f : Edit α) : Prop where
  ne : e.r.from_ ≠ f.r.from_
  order : e.r.from_ < f.r.from_ → e.r.to_ ≤ f.r.from_
  order' : f.r.from_ < e.r.from_ → f.r.to_ ≤ e.r.from_

omit [DecidableEq α] in
theorem apart_of {e f : Edit α} (he : e.r.from_ ≤ e.r.to_) (hf : f.r.from_ ≤ f.r.to_)
    (hover : overlaps [e.r] [f.r] = false) (hahead : insertsAhead [e.r] [f.r] = false) :
    Apart e f := by
  simp only [overlaps, Region.overlaps, List.any_cons, List.any_nil, Bool.or_false,
    Bool.or_eq_false_iff, Bool.and_eq_false_iff, decide_eq_false_iff_not, beq_eq_false_iff_ne]
    at hover
  simp only [insertsAhead, List.any_cons, List.any_nil, Bool.or_false, decide_eq_false_iff_not]
    at hahead
  constructor <;> omega

/-- Two edits by the start of their regions. -/
def byStart (e f : Edit α) : List (Edit α) := if e.r.from_ < f.r.from_ then [e, f] else [f, e]

omit [DecidableEq α] in
theorem Apart.inOrder {e f : Edit α} (h : Apart e f) {n : ℕ} (he : e.r.from_ ≤ e.r.to_)
    (hf : f.r.from_ ≤ f.r.to_) (hen : e.r.to_ ≤ n) (hfn : f.r.to_ ≤ n) :
    InOrder n 0 (byStart e f) := by
  rw [byStart]
  split
  case isTrue hlt => exact ⟨Nat.zero_le _, he, h.order hlt, hf, hfn⟩
  case isFalse hlt =>
    have hne := h.ne
    exact ⟨Nat.zero_le _, hf, h.order' (by omega), he, hen⟩

omit [DecidableEq α] in
/-- Edits that stand apart are sorted by their start, whichever came first. -/
theorem Apart.sorted {e f : Edit α} (h : Apart e f) (r : Edit α → Edit α → Prop)
    [DecidableRel r]
    (hr : ∀ e f : Edit α, e.r.from_ ≠ f.r.from_ → (r e f ↔ e.r.from_ < f.r.from_)) :
    [e, f].insertionSort r = byStart e f ∧ [f, e].insertionSort r = byStart e f := by
  rw [byStart]
  split
  case isTrue hlt =>
    exact insertionSort_pair ((hr e f h.ne).mpr hlt) (mt (hr f e h.ne.symm).mp (by omega))
  case isFalse hlt =>
    have hne := h.ne
    exact (insertionSort_pair ((hr f e h.ne.symm).mpr (by omega)) (mt (hr e f h.ne).mp hlt)).symm

theorem overlaps_comm (a b : List Region) : overlaps a b = overlaps b a := by
  have hpair (x y : Region) : x.overlaps y = y.overlaps x := by
    rw [Region.overlaps, Region.overlaps, Bool.eq_iff_iff]
    simp only [Bool.or_eq_true, Bool.and_eq_true, decide_eq_true_eq, beq_iff_eq]
    omega
  rw [Bool.eq_iff_iff]
  simp only [overlaps, List.any_eq_true]
  constructor <;> rintro ⟨x, hx, y, hy, h⟩ <;> exact ⟨y, hy, x, hx, hpair x y ▸ h⟩

theorem mergeLines_of_not_overlaps {base a b : List α}
    (h : overlaps (changedRegions base a) (changedRegions base b) = false) :
    mergeLines base a b = some (applyEdits base 0
      ((sideEdits base a ++ sideEdits base b).insertionSort fun e f => e.r.from_ ≤ f.r.from_)) :=
  if_neg (by rw [h]; exact Bool.false_ne_true)

/-- **A merge is the base with both regions replaced**, in either order, unless the sides overlap
or one of them inserts where the other begins. -/
theorem mergeLines_eq {base a b : List α}
    (hover : overlaps (changedRegions base a) (changedRegions base b) = false)
    (hahead : insertsAhead (changedRegions base a) (changedRegions base b) = false) :
    mergeLines base a b = some (mergedLines base a b) ∧
      mergeLines base b a = some (mergedLines base a b) := by
  rw [mergeLines_of_not_overlaps hover, mergeLines_of_not_overlaps (overlaps_comm _ _ ▸ hover),
    mergedLines]
  have hone {e : Edit α} (hle : e.r.from_ ≤ e.r.to_) (hlen : e.r.to_ ≤ base.length) :
      applyEdits base 0 [e] = [e].foldr Edit.apply base :=
    @applyEdits_eq _ base 0 [e] ⟨Nat.zero_le _, hle, hlen⟩
  rcases sideEdits_cases base a with ⟨-, -, hae⟩ | ⟨e, har, hae, -, hele, helen, -⟩
  · rw [hae]
    rcases sideEdits_cases base b with ⟨-, -, hbe⟩ | ⟨f, -, hbe, -, hfle, hflen, -⟩
    · rw [hbe]
      exact ⟨rfl, rfl⟩
    · rw [hbe]
      exact ⟨congrArg some (hone hfle hflen), congrArg some (hone hfle hflen)⟩
  · rw [hae]
    rcases sideEdits_cases base b with ⟨-, -, hbe⟩ | ⟨f, hbr, hbe, -, hfle, hflen, -⟩
    · rw [hbe]
      exact ⟨congrArg some (hone hele helen), congrArg some (hone hele helen)⟩
    · rw [har, hbr] at hover hahead
      have hapart := apart_of hele hfle hover hahead
      rw [hbe]
      have hcode := hapart.sorted (fun e f => e.r.from_ ≤ f.r.from_) fun e f hne => by omega
      have hspec := hapart.sorted
        (fun e f => e.r.from_ < f.r.from_ ∨ e.r.from_ = f.r.from_ ∧ e.r.to_ ≤ f.r.to_)
        fun e f hne => by omega
      rw [List.singleton_append, List.singleton_append, hcode.1, hcode.2, hspec.1, and_self]
      exact congrArg some (applyEdits_eq (hapart.inOrder hele hfle helen hflen))

theorem changedRegions_self (base : List α) : changedRegions base base = [] :=
  if_pos (by simp [commonFront_self])

/-- Merging with an unchanged side gives the other side. -/
theorem mergeLines_unchanged (base a : List α) :
    mergeLines base a base = some a ∧ mergeLines base base a = some a := by
  have hself := changedRegions_self base
  have hmerged : mergedLines base a base = a := by
    have hbase : sideEdits base base = [] := by rw [sideEdits, hself]; rfl
    rw [mergedLines, hbase, List.append_nil]
    rcases sideEdits_cases base a with ⟨rfl, -, hae⟩ | ⟨e, -, hae, happly, -⟩
    · rw [hae]
      rfl
    · rw [hae]
      exact happly
  have h := @mergeLines_eq _ _ base a base (by simp [hself, overlaps])
    (by simp [hself, insertsAhead])
  rwa [hmerged] at h

/-! ### An insertion where the other side begins -/

/-- **Where one side inserts at the start of the other's change, the two orders of a merge differ
in length**: one of them walks the replaced lines again. -/
theorem mergeLines_of_insertsAhead {base a b : List α}
    (h : insertsAhead (changedRegions base a) (changedRegions base b) = true) :
    ∃ ab ba, mergeLines base a b = some ab ∧ mergeLines base b a = some ba ∧
      ab.length ≠ ba.length ∧ ab ≠ [] ∧ ba ≠ [] := by
  rcases sideEdits_cases base a with ⟨-, har, -⟩ | ⟨e, har, hae, -, hele, helen, hew⟩
  · rw [har] at h
    cases h
  rcases sideEdits_cases base b with ⟨-, hbr, -⟩ | ⟨f, hbr, hbe, -, hfle, hflen, hfw⟩
  · rw [har, hbr] at h
    cases h
  rw [har, hbr] at h
  simp only [insertsAhead, List.any_cons, List.any_nil, Bool.or_false, decide_eq_true_eq] at h
  obtain ⟨hfrom, hempty⟩ := h
  have hover : overlaps (changedRegions base a) (changedRegions base b) = false := by
    simp only [har, hbr, overlaps, Region.overlaps, List.any_cons, List.any_nil, Bool.or_false,
      Bool.or_eq_false_iff, Bool.and_eq_false_iff, decide_eq_false_iff_not, beq_eq_false_iff_ne]
    omega
  have hkeep {e f : Edit α} (hle : e.r.from_ ≤ f.r.from_) :
      [e, f].insertionSort (fun e f => e.r.from_ ≤ f.r.from_) = [e, f] := if_pos hle
  -- the second edit starts at or before the end of the first, so the walk adds no line between
  have hlen {e f : Edit α} (hfrom : f.r.from_ ≤ e.r.to_) (hele : e.r.from_ ≤ base.length) :
      (applyEdits base 0 [e, f]).length =
        e.r.from_ + e.with_.length + f.with_.length + (base.length - f.r.to_) := by
    simp only [applyEdits, List.length_append, List.length_drop, List.length_take]
    omega
  have hput : 0 < e.with_.length + f.with_.length := by
    by_cases he : e.r.from_ = e.r.to_
    · have := List.length_pos_iff.mpr (hew he)
      omega
    · have := List.length_pos_iff.mpr (hfw (by omega))
      omega
  have hab := mergeLines_of_not_overlaps hover
  have hba := mergeLines_of_not_overlaps (overlaps_comm _ _ ▸ hover)
  rw [hae, hbe, List.singleton_append, hkeep (by omega)] at hab hba
  have habl := @hlen e f (by omega) (by omega)
  have hbal := @hlen f e (by omega) (by omega)
  refine ⟨_, _, hab, hba, by omega, ?_, ?_⟩ <;> exact List.ne_nil_of_length_pos (by omega)

end Beardrive
