import Beardrive.Journal.Order
import Mathlib.Order.MinMax

/-!
# The clock of a device

A device raises its clock to every reading it takes from a peer, except readings no clock could
show, and by one for every op it writes. The two are capped differently: absorbing stops at
`maxLamport`, ticking only at the largest integer there is.

## Main definitions

* `absorbLamport`, `tickLamport` — the two movements
* `rederive` — the clock of a cycle, from the journals on disk

## Main results

* `le_rederive` — a reading up to the cap is never above the clock
-/

namespace Beardrive

/-- What a device's clock will absorb from a peer at most. -/
def maxLamport : ℤ := 2 ^ 62

/-- `math.MaxInt64`. -/
def maxInt64 : ℤ := 2 ^ 63 - 1

/-- Advance the local clock to a peer's reading, ignoring absurd ones. -/
def absorbLamport (cur peer : ℤ) : ℤ := if cur < peer ∧ peer ≤ maxLamport then peer else cur

/-- The local increment, which stops rather than wraps. -/
def tickLamport (cur : ℤ) : ℤ := if cur = maxInt64 then cur else cur + 1

/-- Raise the clock by every op of a list. -/
def rederive (cur : ℤ) (ops : List Op) : ℤ :=
  ops.foldl (fun cur op => absorbLamport cur op.lamport) cur

theorem le_absorbLamport (cur peer : ℤ) : cur ≤ absorbLamport cur peer := by
  unfold absorbLamport
  split_ifs with h
  · exact h.1.le
  · exact le_rfl

theorem peer_le_absorbLamport {cur peer : ℤ} (h : peer ≤ max maxLamport cur) :
    peer ≤ absorbLamport cur peer := by
  unfold absorbLamport
  split_ifs with hc
  · exact le_rfl
  · rw [not_and_or, not_lt, not_le] at hc
    omega

theorem le_rederive (cur : ℤ) (ops : List Op) : cur ≤ rederive cur ops := by
  induction ops generalizing cur with
  | nil => exact le_rfl
  | cons op ops ih => exact (le_absorbLamport cur op.lamport).trans (ih _)

/-- **A reading up to the cap, or up to the clock, is never above the clock.** -/
theorem lamport_le_rederive {cur : ℤ} {ops : List Op} {op : Op} (h : op ∈ ops)
    (hop : op.lamport ≤ max maxLamport cur) : op.lamport ≤ rederive cur ops := by
  induction ops generalizing cur with
  | nil => simp at h
  | cons o ops ih =>
    rcases List.mem_cons.mp h with rfl | h
    · exact (peer_le_absorbLamport hop).trans (le_rederive _ _)
    · exact ih h (hop.trans (max_le_max le_rfl (le_absorbLamport cur o.lamport)))

/-- Absorbing stays under the cap, or where the clock was. -/
theorem rederive_le {cur : ℤ} {ops : List Op} : rederive cur ops ≤ max maxLamport cur := by
  induction ops generalizing cur with
  | nil => exact le_max_right _ _
  | cons o ops ih =>
    have hstep : absorbLamport cur o.lamport ≤ max maxLamport cur := by
      unfold absorbLamport
      split_ifs with h
      · exact h.2.trans (le_max_left _ _)
      · exact le_max_right _ _
    exact ih.trans (max_le (le_max_left _ _) hstep)

theorem le_tickLamport (cur : ℤ) : cur ≤ tickLamport cur := by
  unfold tickLamport
  split_ifs <;> omega

theorem lt_tickLamport {cur : ℤ} (h : cur < maxInt64) : cur < tickLamport cur := by
  unfold tickLamport
  split_ifs <;> omega

end Beardrive
