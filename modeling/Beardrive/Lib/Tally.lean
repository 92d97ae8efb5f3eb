import Mathlib.Algebra.BigOperators.Group.Finset.Basic
import Mathlib.Algebra.Order.BigOperators.Group.Finset
import Mathlib.Data.List.AList

/-!
# Tallies

A tally is a finite map from keys to rows that each carry a count, and the keys fall into classes.
The total of a class is the sum of the counts of its keys. Totals are compared row by row, and a
map that changes at one key moves the total of one class by the difference. Nothing here refers to
any particular program.

## Main definitions

* `countAt` — the count of a key, zero where there is no row
* `total` — the total of a class

## Main results

* `total_mono`, `total_congr` — totals compare as the rows do
* `total_update` — what a change at one key does to the totals
* `total_move` — a count that moves within a class leaves the totals alone
-/

namespace Beardrive

namespace Tally

variable {κ ι β : Type*} [DecidableEq κ] [DecidableEq ι] (weight : β → ℕ) (cls : κ → ι)

/-- The count of a key. -/
def countAt (m : AList fun _ : κ => β) (k : κ) : ℕ := ((m.lookup k).map weight).getD 0

/-- The total of a class. -/
def total (m : AList fun _ : κ => β) (i : ι) : ℕ :=
  ∑ k ∈ m.keys.toFinset with cls k = i, countAt weight m k

variable {weight cls} {a b c : AList fun _ : κ => β} {k f : κ}

theorem countAt_of_lookup (h : a.lookup k = b.lookup k) : countAt weight a k = countAt weight b k := by
  rw [countAt, countAt, h]

theorem countAt_of_none (h : a.lookup k = none) : countAt weight a k = 0 := by
  rw [countAt, h]
  rfl

theorem countAt_of_some {row : β} (h : a.lookup k = some row) : countAt weight a k = weight row := by
  rw [countAt, h]
  rfl

@[simp] theorem countAt_insert_self (row : β) : countAt weight (a.insert k row) k = weight row :=
  countAt_of_some (AList.lookup_insert a)

theorem countAt_insert_ne {k' : κ} (h : k' ≠ k) (row : β) :
    countAt weight (a.insert k row) k' = countAt weight a k' :=
  countAt_of_lookup (AList.lookup_insert_ne h)

@[simp] theorem countAt_erase_self : countAt weight (a.erase k) k = 0 :=
  countAt_of_none (AList.lookup_erase k a)

theorem countAt_erase_ne {k' : κ} (h : k' ≠ k) :
    countAt weight (a.erase k) k' = countAt weight a k' :=
  countAt_of_lookup (AList.lookup_erase_ne h)

/-- A total is a sum over any set that holds the keys. -/
theorem total_eq_sum {keys : Finset κ} (h : a.keys.toFinset ⊆ keys) (i : ι) :
    total weight cls a i = ∑ k ∈ keys with cls k = i, countAt weight a k := by
  refine Finset.sum_subset (Finset.filter_subset_filter _ h) fun k hk hnot => ?_
  refine countAt_of_none ?_
  rw [AList.lookup_eq_none, AList.mem_keys, ← List.mem_toFinset]
  exact fun hmem => hnot (Finset.mem_filter.mpr ⟨hmem, (Finset.mem_filter.mp hk).2⟩)

theorem total_mono (h : ∀ k, countAt weight a k ≤ countAt weight b k) (i : ι) :
    total weight cls a i ≤ total weight cls b i := by
  have ha : a.keys.toFinset ⊆ a.keys.toFinset ∪ b.keys.toFinset := Finset.subset_union_left
  have hb : b.keys.toFinset ⊆ a.keys.toFinset ∪ b.keys.toFinset := Finset.subset_union_right
  rw [total_eq_sum ha, total_eq_sum hb]
  exact Finset.sum_le_sum fun k _ => h k

theorem total_congr (h : ∀ k, countAt weight a k = countAt weight b k) (i : ι) :
    total weight cls a i = total weight cls b i :=
  le_antisymm (total_mono (fun k => (h k).le) i) (total_mono (fun k => (h k).ge) i)

/-- What a change at one key does to the totals. -/
theorem total_update (h : ∀ k', k' ≠ k → countAt weight a k' = countAt weight b k') (i : ι) :
    total weight cls a i + (if cls k = i then countAt weight b k else 0) =
      total weight cls b i + (if cls k = i then countAt weight a k else 0) := by
  set keys := insert k (a.keys.toFinset ∪ b.keys.toFinset)
  have ha : a.keys.toFinset ⊆ keys :=
    Finset.subset_union_left.trans (Finset.subset_insert k _)
  have hb : b.keys.toFinset ⊆ keys :=
    Finset.subset_union_right.trans (Finset.subset_insert k _)
  rw [total_eq_sum ha, total_eq_sum hb]
  split_ifs with hk
  · have hmem : k ∈ keys.filter (cls · = i) :=
      Finset.mem_filter.mpr ⟨Finset.mem_insert_self .., hk⟩
    have hrest : ∑ k' ∈ (keys.filter (cls · = i)).erase k, countAt weight a k' =
        ∑ k' ∈ (keys.filter (cls · = i)).erase k, countAt weight b k' :=
      Finset.sum_congr rfl fun k' hk' => h k' (Finset.ne_of_mem_erase hk')
    rw [← Finset.sum_erase_add _ _ hmem, ← Finset.sum_erase_add _ _ hmem, hrest]
    omega
  · refine congrArg (· + 0) (Finset.sum_congr rfl fun k' hk' => h k' ?_)
    rintro rfl
    exact hk (Finset.mem_filter.mp hk').2

/-- A count that moves from one key to another of its class leaves the totals alone. -/
theorem total_move (hne : k ≠ f) (hcls : cls k = cls f) {row : β}
    (hrow : weight row = countAt weight a f + countAt weight a k) (i : ι) :
    total weight cls ((a.insert f row).erase k) i = total weight cls a i := by
  have herase := @total_update κ ι β _ _ weight cls ((a.insert f row).erase k) (a.insert f row) k
    (fun k' hk' => countAt_erase_ne hk') i
  have hinsert := @total_update κ ι β _ _ weight cls (a.insert f row) a f
    (fun k' hk' => countAt_insert_ne hk' row) i
  rw [countAt_insert_ne hne, countAt_erase_self, hcls] at herase
  rw [countAt_insert_self, hrow] at hinsert
  split_ifs at herase hinsert <;> omega

end Tally

end Beardrive
