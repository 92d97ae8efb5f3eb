import Mathlib.Data.List.Induction
import Mathlib.Data.List.Nodup
import Mathlib.Data.List.Perm.Basic

/-!
# Groups of a list

The entries of a list with one key are a group of it, in the order of the list. Nothing here refers
to any particular list.

## Main results

* `foldl_group` — what a fold says of a group is what it makes of the group alone
* `perm_of_groups` — lists with the same groups hold the same
* `length_groups_le` — groups of distinct keys do not overlap
-/

namespace Beardrive

/-- **What a fold says of a group is what it makes of the group alone**, where an entry of another
group says nothing about it and an entry of the group says something that what is said so far
decides. -/
theorem foldl_group {α σ ν : Type*} {step : σ → α → σ} {view : σ → ν} {p : α → Bool}
    (hother : ∀ s a, p a = false → view (step s a) = view s)
    (hself : ∀ s t a, p a = true → view s = view t → view (step s a) = view (step t a))
    (l : List α) (s : σ) : view ((l.filter p).foldl step s) = view (l.foldl step s) := by
  induction l using List.reverseRecOn with
  | nil => rfl
  | append_singleton l a ih =>
    rw [List.filter_append, List.foldl_append, List.foldl_append, List.foldl_cons, List.foldl_nil]
    cases h : p a with
    | true =>
      rw [List.filter_cons_of_pos h, List.filter_nil, List.foldl_cons, List.foldl_nil]
      exact hself _ _ a h ih
    | false =>
      rw [List.filter_cons_of_neg (by simp [h]), List.filter_nil, List.foldl_nil, hother _ a h, ih]

/-- Lists with the same groups hold the same. -/
theorem perm_of_groups {α κ : Type*} [DecidableEq α] [DecidableEq κ] {key : α → κ} {l l' : List α}
    (h : ∀ k, (l.filter fun a => key a = k) = l'.filter fun a => key a = k) : l.Perm l' := by
  have hcount (a : α) (l : List α) :
      (l.filter fun b => key b = key a).count a = l.count a :=
    List.count_filter (by simp)
  refine List.perm_iff_count.mpr fun a => ?_
  rw [← hcount a l, h, hcount]

/-- The groups of distinct keys do not hold more than the list. -/
theorem length_groups_le {α κ : Type*} [DecidableEq κ] {key : α → κ} {keys : List κ}
    (hkeys : keys.Nodup) (l : List α) :
    (keys.flatMap fun k => l.filter fun a => key a = k).length ≤ l.length := by
  induction keys generalizing l with
  | nil => exact Nat.zero_le _
  | cons k keys ih =>
    obtain ⟨hk, hkeys⟩ := List.nodup_cons.mp hkeys
    have hrest : (keys.flatMap fun k' => l.filter fun a => key a = k') =
        keys.flatMap fun k' => (l.filter fun a => !decide (key a = k)).filter
          fun a => key a = k' := by
      refine List.flatMap_congr fun k' hk' => ?_
      rw [List.filter_filter]
      refine List.filter_congr fun a _ => ?_
      by_cases heq : key a = k'
      · have hne : key a ≠ k := by
          rintro hak
          exact hk (hak ▸ heq ▸ hk')
        simp [heq, heq ▸ hne]
      · simp [heq]
    rw [List.flatMap_cons, List.length_append, hrest]
    have hle := ih hkeys (l.filter fun a => !decide (key a = k))
    have hsplit := List.length_eq_length_filter_add (l := l) fun a => decide (key a = k)
    omega

end Beardrive
