import Mathlib.Data.List.Sort
import Mathlib.Data.Prod.Lex

/-!
# Ranks in a sorted list

Elements are sorted by a key, and the rank of a key in a list is the number of elements with a
smaller one. When the keys are distinct, every order of the same elements sorts to the same list,
and a cut of the sorted list keeps the elements of small rank. Nothing here refers to any
particular program.

## Main definitions

* `sortBy` — a list, sorted by a key
* `rank` — how many elements have a smaller key

## Main results

* `sortBy_congr` — the order of the elements does not matter
* `mem_take_iff` — a cut keeps the elements of small rank
-/

namespace Beardrive

namespace Rank

variable {α β : Type*} [LinearOrder β] (f : α → β)

/-- A list, sorted by a key. -/
def sortBy (l : List α) : List α := l.insertionSort fun a b => f a ≤ f b

/-- How many elements have a smaller key. -/
def rank (l : List α) (b : β) : ℕ := l.countP fun a => f a < b

theorem sortBy_perm (l : List α) : (sortBy f l).Perm l := List.perm_insertionSort _ l

@[simp] theorem mem_sortBy {l : List α} {a : α} : a ∈ sortBy f l ↔ a ∈ l :=
  (sortBy_perm f l).mem_iff

theorem pairwise_le_sortBy (l : List α) : (sortBy f l).Pairwise fun a b => f a ≤ f b := by
  have : Std.Total fun a b : α => f a ≤ f b := ⟨fun a b => le_total (f a) (f b)⟩
  have : IsTrans α fun a b => f a ≤ f b := ⟨fun a b c hab hbc => le_trans hab hbc⟩
  exact List.pairwise_insertionSort _ l

variable {f} {l l' : List α} {a : α}

/-- Distinct keys are sorted strictly. -/
theorem pairwise_sortBy (h : (l.map f).Nodup) : (sortBy f l).Pairwise fun a b => f a < f b := by
  have hnodup : ((sortBy f l).map f).Nodup := ((sortBy_perm f l).map f).nodup_iff.mpr h
  have hne : (sortBy f l).Pairwise fun a b => f a ≠ f b := List.pairwise_map.mp hnodup
  exact ((pairwise_le_sortBy f l).and hne).imp fun h => lt_of_le_of_ne h.1 h.2

/-- **The order of the elements does not matter.** -/
theorem sortBy_congr (hperm : l.Perm l') (h : (l.map f).Nodup) : sortBy f l = sortBy f l' := by
  have h' : (l'.map f).Nodup := (hperm.map f).nodup_iff.mp h
  have hsorted : (sortBy f l).Perm (sortBy f l') :=
    (sortBy_perm f l).trans (hperm.trans (sortBy_perm f l').symm)
  exact hsorted.eq_of_pairwise (fun a b _ _ hab hba => absurd hba (lt_asymm hab))
    (pairwise_sortBy h) (pairwise_sortBy h')

theorem rank_perm (h : l.Perm l') (b : β) : rank f l b = rank f l' b := h.countP_eq _

theorem rank_mono {b b' : β} (h : b ≤ b') : rank f l b ≤ rank f l b' :=
  List.countP_mono_left fun a _ ha => by
    have hlt : f a < b := by simpa using ha
    simpa using lt_of_lt_of_le hlt h

theorem rank_le_of_sublist (h : l.Sublist l') (b : β) : rank f l b ≤ rank f l' b :=
  h.countP_le

theorem rank_cons_of_le {b : β} (h : b ≤ f a) : rank f (a :: l) b = rank f l b :=
  List.countP_cons_of_neg (by simpa using h)

theorem rank_cons_of_lt {b : β} (h : f a < b) : rank f (a :: l) b = rank f l b + 1 :=
  List.countP_cons_of_pos (by simpa using h)

theorem rank_le_length (b : β) : rank f l b ≤ l.length := List.countP_le_length

/-- An element is not below itself. -/
theorem rank_lt_length (ha : a ∈ l) : rank f l (f a) < l.length := by
  rw [rank, ← Nat.not_le]
  intro hle
  have hall := List.countP_eq_length.mp (le_antisymm List.countP_le_length hle) a ha
  simp at hall

theorem rank_eq_zero_of_forall {b : β} (h : ∀ a ∈ l, b ≤ f a) : rank f l b = 0 := by
  rw [rank, List.countP_eq_zero]
  intro a ha
  simpa using h a ha

/-- **A cut keeps the elements of small rank.** -/
theorem mem_take_iff (h : l.Pairwise fun a b => f a < f b) (n : ℕ) :
    a ∈ l.take n ↔ a ∈ l ∧ rank f l (f a) < n := by
  induction l generalizing n with
  | nil => simp
  | cons x l ih =>
    obtain ⟨hx, hl⟩ := List.pairwise_cons.mp h
    cases n with
    | zero => simp
    | succ n =>
      rw [List.take_succ_cons, List.mem_cons, List.mem_cons, ih hl]
      by_cases hax : a = x
      · subst hax
        have hzero : rank f (a :: l) (f a) = 0 := by
          refine rank_eq_zero_of_forall fun b hb => ?_
          rcases List.mem_cons.mp hb with rfl | hb
          · exact le_refl _
          · exact (hx b hb).le
        simp [hzero]
      · have hrank : a ∈ l → rank f (x :: l) (f a) = rank f l (f a) + 1 :=
          fun ha => rank_cons_of_lt (hx a ha)
        constructor
        · rintro (rfl | ⟨ha, hlt⟩)
          · exact absurd rfl hax
          · exact ⟨.inr ha, by rw [hrank ha]; omega⟩
        · rintro ⟨rfl | ha, hlt⟩
          · exact absurd rfl hax
          · rw [hrank ha] at hlt
            exact .inr ⟨ha, by omega⟩

end Rank

end Beardrive
