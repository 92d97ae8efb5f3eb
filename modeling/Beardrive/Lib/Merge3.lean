import Mathlib.Data.List.Sort
import Mathlib.Data.List.Infix

/-!
# Three-way merges

Two edits of one list of lines are merged when they changed different regions of it. A side has
one changed region, what is left between the longest common beginning and end, so the regions are
coarse and a merge is easy to judge. Nothing here refers to any particular program.

## Main definitions

* `changedRegions`, `overlaps` — what a side changed, and whether two sides changed the same
* `mergeLines` — the merge

## Main results

* `infix_mergeLines` — what either side put in its region stands in the result
* `mem_mergeLines` — so does every line of a side that the base did not have
-/

namespace Beardrive

variable {α : Type*} [DecidableEq α]

/-- How many elements two lists begin with alike. -/
def commonFront : List α → List α → ℕ
  | a :: s, b :: t => if a = b then commonFront s t + 1 else 0
  | _, _ => 0

/-- A span of the base that a side replaced, and where the replacement lives in that side. -/
structure Region where
  from_ : ℕ
  to_ : ℕ
  toFrom : ℕ
  toTo : ℕ
  deriving DecidableEq, Repr

/-- What a side changed: everything between the common beginning and the common end. -/
def changedRegions (base side : List α) : List Region :=
  let p := commonFront base side
  if p = base.length ∧ p = side.length then []
  else
    let s := commonFront (base.drop p).reverse (side.drop p).reverse
    [{ from_ := p, to_ := base.length - s, toFrom := p, toTo := side.length - s }]

/-- Whether two regions share a line of the base, or are insertions at one point. -/
def Region.overlaps (x y : Region) : Bool :=
  (x.from_ < y.to_ && y.from_ < x.to_) ||
    (x.from_ == x.to_ && y.from_ == y.to_ && x.from_ == y.from_)

/-- Whether the two sides touched the same lines of the base. -/
def overlaps (a b : List Region) : Bool := a.any fun x => b.any fun y => x.overlaps y

/-- A region of the base and what to put there. -/
structure Edit (α : Type*) where
  r : Region
  with_ : List α

/-- The edits that make a side. -/
def edits (side : List α) (regions : List Region) : List (Edit α) :=
  regions.map fun r => { r, with_ := (side.take r.toTo).drop r.toFrom }

/-- Walk the base from `at_`, putting what replaced each region in its place. -/
def applyEdits (base : List α) : ℕ → List (Edit α) → List α
  | at_, [] => base.drop at_
  | at_, e :: es => (base.take e.r.from_).drop at_ ++ e.with_ ++ applyEdits base e.r.to_ es

/-- Merge two edits of one base, where they changed different regions of it. -/
def mergeLines (base a b : List α) : Option (List α) :=
  let ca := changedRegions base a
  let cb := changedRegions base b
  if overlaps ca cb then none
  else
    some (applyEdits base 0
      ((edits a ca ++ edits b cb).insertionSort fun e f => e.r.from_ ≤ f.r.from_))

/-! ### What a side changed -/

theorem take_commonFront (s t : List α) : s.take (commonFront s t) = t.take (commonFront s t) := by
  induction s generalizing t with
  | nil => simp [commonFront]
  | cons a s ih =>
    cases t with
    | nil => simp [commonFront]
    | cons b t =>
      rw [commonFront]
      split
      case isTrue hab => rw [List.take_succ_cons, List.take_succ_cons, ih, hab]
      case isFalse => simp

/-- A line of a side that the base does not have is in what the side changed. -/
theorem mem_changedRegions_of_notMem {base side : List α} {x : α} (hx : x ∈ side)
    (hbase : x ∉ base) :
    ∃ r ∈ changedRegions base side, x ∈ (side.take r.toTo).drop r.toFrom := by
  have hfront := take_commonFront base side
  unfold changedRegions
  generalize commonFront base side = p at hfront
  dsimp only
  have hrest : x ∈ side.drop p := by
    rw [← List.take_append_drop p side, List.mem_append] at hx
    exact hx.resolve_left fun h => hbase (List.mem_of_mem_take (hfront ▸ h))
  split
  case isTrue hlen =>
    rw [hlen.2, List.drop_length] at hrest
    cases hrest
  case isFalse =>
    refine ⟨_, List.mem_singleton_self _, ?_⟩
    dsimp only
    have hback := take_commonFront (base.drop p).reverse (side.drop p).reverse
    generalize commonFront (base.drop p).reverse (side.drop p).reverse = s at hback
    have hmid : x ∈ (side.drop p).reverse.drop s := by
      have hrev := List.mem_reverse.mpr hrest
      rw [← List.take_append_drop s (side.drop p).reverse, List.mem_append] at hrev
      refine hrev.resolve_left fun h => hbase (List.mem_of_mem_drop (i := p) ?_)
      exact List.mem_reverse.mp (List.mem_of_mem_take (hback ▸ h))
    rw [List.drop_reverse, List.mem_reverse, List.length_drop] at hmid
    rwa [List.drop_take, Nat.sub_right_comm]

/-! ### What stands in a merge -/

omit [DecidableEq α] in
/-- What an edit puts in stands in the result. -/
theorem infix_applyEdits {base : List α} {es : List (Edit α)} {e : Edit α} (h : e ∈ es)
    (at_ : ℕ) : e.with_ <:+: applyEdits base at_ es := by
  induction es generalizing at_ with
  | nil => cases h
  | cons e' es ih =>
    rw [applyEdits]
    rcases List.mem_cons.mp h with rfl | h
    · exact List.infix_append _ _ _
    · exact (ih h _).trans (List.suffix_append _ _).isInfix

/-- **What either side put in its region stands in the merge**, in one piece. -/
theorem infix_mergeLines {base a b out side : List α} (h : mergeLines base a b = some out)
    (hside : side = a ∨ side = b) {r : Region} (hr : r ∈ changedRegions base side) :
    (side.take r.toTo).drop r.toFrom <:+: out := by
  unfold mergeLines at h
  dsimp only at h
  split at h
  case isTrue => cases h
  case isFalse =>
    rw [← Option.some.inj h]
    have he : (⟨r, (side.take r.toTo).drop r.toFrom⟩ : Edit α) ∈ edits side
        (changedRegions base side) := List.mem_map_of_mem hr
    refine infix_applyEdits (e := ⟨r, _⟩) ?_ 0
    rw [List.mem_insertionSort, List.mem_append]
    rcases hside with rfl | rfl
    · exact .inl he
    · exact .inr he

/-- **Every line of a side that the base did not have stands in the merge.** -/
theorem mem_mergeLines {base a b out side : List α} (h : mergeLines base a b = some out)
    (hside : side = a ∨ side = b) {x : α} (hx : x ∈ side) (hbase : x ∉ base) : x ∈ out := by
  obtain ⟨r, hr, hmem⟩ := mem_changedRegions_of_notMem hx hbase
  exact (infix_mergeLines h hside hr).mem hmem

omit [DecidableEq α] in
/-- Nothing is made up: a result holds lines of the base and of the edits. -/
theorem mem_of_mem_applyEdits {base : List α} {es : List (Edit α)} {at_ : ℕ} {x : α}
    (h : x ∈ applyEdits base at_ es) : x ∈ base ∨ ∃ e ∈ es, x ∈ e.with_ := by
  induction es generalizing at_ with
  | nil => exact .inl (List.mem_of_mem_drop h)
  | cons e es ih =>
    rw [applyEdits, List.mem_append, List.mem_append] at h
    rcases h with (h | h) | h
    · exact .inl (List.mem_of_mem_take (List.mem_of_mem_drop h))
    · exact .inr ⟨e, List.mem_cons_self, h⟩
    · exact (ih h).imp_right fun ⟨e', he', hx⟩ => ⟨e', List.mem_cons_of_mem _ he', hx⟩

omit [DecidableEq α] in
theorem mem_of_mem_edits {side : List α} {regions : List Region} {e : Edit α}
    (h : e ∈ edits side regions) {x : α} (hx : x ∈ e.with_) : x ∈ side := by
  obtain ⟨r, -, rfl⟩ := List.mem_map.mp h
  exact List.mem_of_mem_take (List.mem_of_mem_drop hx)

/-- A merge holds lines of the base and of the two sides. -/
theorem mem_of_mem_mergeLines {base a b out : List α} (h : mergeLines base a b = some out) {x : α}
    (hx : x ∈ out) : x ∈ base ∨ x ∈ a ∨ x ∈ b := by
  unfold mergeLines at h
  dsimp only at h
  split at h
  case isTrue => cases h
  case isFalse =>
    rw [← Option.some.inj h] at hx
    refine (mem_of_mem_applyEdits hx).imp_right fun ⟨e, he, hmem⟩ => ?_
    rw [List.mem_insertionSort, List.mem_append] at he
    exact he.imp (fun he => mem_of_mem_edits he hmem) fun he => mem_of_mem_edits he hmem

end Beardrive
