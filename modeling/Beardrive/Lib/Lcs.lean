import Mathlib.Data.List.Infix
import Mathlib.Algebra.Order.Group.Nat

/-!
# Longest common subsequences

Two lists have a longest common subsequence, and its length can be found from the front: heads that
are equal are always matched, and of two that differ one is left out. What both lists begin or end
with can be set aside. Nothing here refers to any particular program.

## Main definitions

* `LongestCommon` — the length of a longest common subsequence
* `lcsLength` — the length, found from the front

## Main results

* `longestCommon_lcsLength` — it is the length
* `LongestCommon.append_left`, `LongestCommon.append_right` — shared ends are matched
-/

namespace Beardrive

variable {α : Type*} {a b : List α} {k k' : ℕ}

/-- `k` is the length of a longest common subsequence. -/
structure LongestCommon (a b : List α) (k : ℕ) : Prop where
  attained : ∃ l : List α, l.Sublist a ∧ l.Sublist b ∧ l.length = k
  le : ∀ l : List α, l.Sublist a → l.Sublist b → l.length ≤ k

theorem LongestCommon.unique (h : LongestCommon a b k) (h' : LongestCommon a b k') : k = k' := by
  obtain ⟨l, ha, hb, rfl⟩ := h.attained
  obtain ⟨l', ha', hb', rfl⟩ := h'.attained
  exact Nat.le_antisymm (h'.le l ha hb) (h.le l' ha' hb')

theorem LongestCommon.nil_left (b : List α) : LongestCommon [] b 0 where
  attained := ⟨[], List.Sublist.refl _, List.nil_sublist _, rfl⟩
  le l ha _ := by rw [List.sublist_nil.mp ha, List.length_nil]

theorem LongestCommon.symm (h : LongestCommon a b k) : LongestCommon b a k where
  attained := by
    obtain ⟨l, ha, hb, hl⟩ := h.attained
    exact ⟨l, hb, ha, hl⟩
  le l hb ha := h.le l ha hb

/-- Equal heads are matched. -/
theorem LongestCommon.cons (x : α) (h : LongestCommon a b k) :
    LongestCommon (x :: a) (x :: b) (k + 1) where
  attained := by
    obtain ⟨l, ha, hb, rfl⟩ := h.attained
    exact ⟨x :: l, ha.cons_cons x, hb.cons_cons x, rfl⟩
  le l ha hb := by
    have htail := h.le l.tail ha.tail hb.tail
    rw [List.length_tail] at htail
    omega

/-- Of two heads that differ, one is left out. -/
theorem LongestCommon.of_ne {x y : α} (hne : x ≠ y) (h : LongestCommon a (y :: b) k)
    (h' : LongestCommon (x :: a) b k') : LongestCommon (x :: a) (y :: b) (max k k') where
  attained := by
    rcases Nat.le_total k k' with hle | hle
    · obtain ⟨l, ha, hb, hl⟩ := h'.attained
      exact ⟨l, ha, hb.cons y, by omega⟩
    · obtain ⟨l, ha, hb, hl⟩ := h.attained
      exact ⟨l, ha.cons x, hb, by omega⟩
  le l ha hb := by
    rcases List.sublist_cons_iff.mp ha with ha' | ⟨l, rfl, -⟩
    · exact (h.le l ha' hb).trans (Nat.le_max_left _ _)
    · exact (h'.le _ ha (hb.of_cons_of_ne hne)).trans (Nat.le_max_right _ _)

theorem LongestCommon.reverse (h : LongestCommon a b k) :
    LongestCommon a.reverse b.reverse k where
  attained := by
    obtain ⟨l, ha, hb, rfl⟩ := h.attained
    exact ⟨l.reverse, ha.reverse, hb.reverse, List.length_reverse⟩
  le l ha hb := by
    rw [← List.length_reverse]
    refine h.le l.reverse ?_ ?_
    · simpa using ha.reverse
    · simpa using hb.reverse

/-- **What both begin with is matched.** -/
theorem LongestCommon.append_left (p : List α) (h : LongestCommon a b k) :
    LongestCommon (p ++ a) (p ++ b) (p.length + k) := by
  induction p with
  | nil => rwa [List.length_nil, Nat.zero_add]
  | cons x p ih =>
    rw [List.length_cons, Nat.add_right_comm]
    exact ih.cons x

/-- **What both end with is matched.** -/
theorem LongestCommon.append_right (s : List α) (h : LongestCommon a b k) :
    LongestCommon (a ++ s) (b ++ s) (k + s.length) := by
  have hreverse := (h.reverse.append_left s.reverse).reverse
  rwa [List.length_reverse, List.reverse_append, List.reverse_append, List.reverse_reverse,
    List.reverse_reverse, List.reverse_reverse, Nat.add_comm] at hreverse

variable [DecidableEq α]

/-- The length, found from the front. -/
def lcsLength : List α → List α → ℕ
  | [], _ => 0
  | _ :: _, [] => 0
  | x :: a, y :: b =>
    if x = y then lcsLength a b + 1 else max (lcsLength a (y :: b)) (lcsLength (x :: a) b)
termination_by a b => a.length + b.length

theorem longestCommon_lcsLength (a b : List α) : LongestCommon a b (lcsLength a b) := by
  induction a, b using lcsLength.induct with
  | case1 b =>
    rw [lcsLength]
    exact .nil_left b
  | case2 x a =>
    rw [lcsLength]
    exact (LongestCommon.nil_left _).symm
  | case3 a x b ih =>
    rw [lcsLength, if_pos rfl]
    exact ih.cons x
  | case4 x a y b hne ih ih' =>
    rw [lcsLength, if_neg hne]
    exact ih.of_ne hne ih'

@[simp] theorem lcsLength_nil_left (b : List α) : lcsLength [] b = 0 := by rw [lcsLength]

@[simp] theorem lcsLength_nil_right (a : List α) : lcsLength a [] = 0 := by
  cases a <;> rw [lcsLength]

end Beardrive
