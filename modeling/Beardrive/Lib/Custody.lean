import Mathlib.Logic.Function.Basic
import Mathlib.Data.Nat.Notation

/-!
# Custody

A thing that has to be used exactly once is, at any time, in a pool, in one hand, or used. Whoever
takes it out of the pool is the only one to have it, and so it is used at most once; and as long as
nobody throws it away, it is not lost. Nothing here refers to any particular system.

## Main definitions

* `Custody` — no thing is in two places, and none is used twice
* `InCustody` — a thing is somewhere

## Main results

* `Custody.enter`, `Custody.take`, `Custody.discard` — a thing moves, or is thrown away
* `Custody.use` — a thing in a hand may be used
-/

namespace Beardrive

variable {κ ι : Type*} [DecidableEq κ] [DecidableEq ι]

/-- No thing is in the pool and in a hand, or in two hands, or anywhere once it is used; and it is
used at most once. -/
structure Custody (pool : κ → Prop) (hand : ι → Option κ) (used : κ → ℕ) : Prop where
  once : ∀ k, used k ≤ 1
  pool : ∀ k, pool k → used k = 0 ∧ ∀ i, hand i ≠ some k
  hand : ∀ i k, hand i = some k → used k = 0 ∧ ∀ j, hand j = some k → j = i

/-- A thing is in the pool, in a hand, or used. -/
def InCustody (pool : κ → Prop) (hand : ι → Option κ) (used : κ → ℕ) (k : κ) : Prop :=
  pool k ∨ (∃ i, hand i = some k) ∨ used k = 1

namespace Custody

variable {pool pool' : κ → Prop} {hand : ι → Option κ} {used : κ → ℕ} {k k' : κ} {i j : ι}

omit [DecidableEq κ] in
theorem update_none_eq_some :
    Function.update hand i none j = some k ↔ j ≠ i ∧ hand j = some k := by
  by_cases hji : j = i
  · subst hji
    simp
  · simp [hji]

omit [DecidableEq κ] in
theorem update_some_eq_some : Function.update hand i (some k) j = some k' ↔
    (j = i ∧ k = k') ∨ (j ≠ i ∧ hand j = some k') := by
  by_cases hji : j = i
  · subst hji
    simp
  · simp [hji]

omit [DecidableEq κ] [DecidableEq ι] in
/-- What leaves the pool without being taken is in no other place. -/
theorem mono (h : Custody pool hand used) (hp : ∀ k, pool' k → pool k) :
    Custody pool' hand used :=
  { h with pool := fun k hk => h.pool k (hp k hk) }

omit [DecidableEq κ] [DecidableEq ι] in
/-- A thing that is nowhere may enter the pool. -/
theorem enter (h : Custody pool hand used) (hused : used k = 0) (hhand : ∀ i, hand i ≠ some k)
    (hp : ∀ j, pool' j → pool j ∨ j = k) : Custody pool' hand used := by
  refine { h with pool := fun j hj => ?_ }
  rcases hp j hj with hj | rfl
  · exact h.pool j hj
  · exact ⟨hused, hhand⟩

omit [DecidableEq κ] in
/-- A thing that is in no hand may be taken out of the pool. -/
theorem take (h : Custody pool hand used) (hused : used k = 0) (hhand : ∀ j, hand j ≠ some k)
    (hp : ∀ j, pool' j → pool j ∧ j ≠ k) :
    Custody pool' (Function.update hand i (some k)) used where
  once := h.once
  pool j hj := by
    obtain ⟨hpool, hne⟩ := hp j hj
    refine ⟨(h.pool j hpool).1, fun l hl => ?_⟩
    rcases update_some_eq_some.mp hl with ⟨-, hk⟩ | ⟨-, hl⟩
    · exact hne hk.symm
    · exact (h.pool j hpool).2 l hl
  hand l j hl := by
    rcases update_some_eq_some.mp hl with ⟨hli, rfl⟩ | ⟨-, hl⟩
    · refine ⟨hused, fun m hm => ?_⟩
      rcases update_some_eq_some.mp hm with ⟨hmi, -⟩ | ⟨-, hm⟩
      · exact hmi.trans hli.symm
      · exact absurd hm (hhand m)
    · refine ⟨(h.hand l j hl).1, fun m hm => ?_⟩
      rcases update_some_eq_some.mp hm with ⟨-, rfl⟩ | ⟨-, hm⟩
      · exact absurd hl (hhand l)
      · exact (h.hand l j hl).2 m hm

omit [DecidableEq κ] in
/-- A hand may be emptied. -/
theorem discard (h : Custody pool hand used) (i : ι) :
    Custody pool (Function.update hand i none) used where
  once := h.once
  pool j hj := ⟨(h.pool j hj).1, fun l hl => (h.pool j hj).2 l (update_none_eq_some.mp hl).2⟩
  hand l j hl := by
    have hl := (update_none_eq_some.mp hl).2
    exact ⟨(h.hand l j hl).1, fun m hm => (h.hand l j hl).2 m (update_none_eq_some.mp hm).2⟩

/-- **A thing in a hand may be used**, and then it is nowhere else. -/
theorem use (h : Custody pool hand used) (hi : hand i = some k) :
    Custody pool (Function.update hand i none) (Function.update used k (used k + 1)) := by
  have hd := h.discard i
  have hfree : ∀ j, Function.update hand i none j ≠ some k := fun j hj =>
    (update_none_eq_some.mp hj).1 ((h.hand i k hi).2 j (update_none_eq_some.mp hj).2)
  refine ⟨fun j => ?_, fun j hj => ?_, fun l j hl => ?_⟩
  · by_cases hjk : j = k
    · subst hjk
      have heq : Function.update used j (used j + 1) j = 1 := by
        rw [Function.update_self, (h.hand i j hi).1]
      exact Nat.le_of_eq heq
    · rw [Function.update_of_ne hjk]
      exact h.once j
  · have hjk : j ≠ k := by
      rintro rfl
      exact (h.pool j hj).2 i hi
    rw [Function.update_of_ne hjk]
    exact hd.pool j hj
  · have hjk : j ≠ k := by
      rintro rfl
      exact hfree l hl
    rw [Function.update_of_ne hjk]
    exact hd.hand l j hl

end Custody

end Beardrive
