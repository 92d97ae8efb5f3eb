import Mathlib.Algebra.Order.Field.Basic
import Mathlib.Data.List.Basic
import Mathlib.Tactic.Linarith
import Mathlib.Tactic.Ring

/-!
# Metered grants

A machine that answers requests by granting or refusing them is metered when a balance pays for
what it grants: the balance is never negative and never above a bound, it grows no faster than a
rate allows, and each grant costs one. Then no stretch of time sees more grants than the bound and
what the rate brings in during it. Nothing here refers to any particular machine.

## Main definitions

* `grants` — how many of some requests a run grants
* `Metered` — a balance pays for them

## Main results

* `grants_append` — a run is granted what its parts are
* `Metered.grants_le` — the bound, for every run and every stretch of time
-/

namespace Beardrive

section

variable {σ ι : Type*} (step : σ → ι → σ × Bool) (p : ι → Bool)

/-- How many of the requests that `p` picks a run grants. -/
def grants : σ → List ι → ℕ
  | _, [] => 0
  | s, c :: cs => (if (step s c).2 && p c then 1 else 0) + grants (step s c).1 cs

/-- The state behind a run. -/
def stateAfter (s : σ) (cs : List ι) : σ := cs.foldl (fun s c => (step s c).1) s

theorem grants_append (s : σ) (cs ds : List ι) :
    grants step p s (cs ++ ds) = grants step p s cs + grants step p (stateAfter step s cs) ds := by
  induction cs generalizing s with
  | nil => exact (Nat.zero_add _).symm
  | cons c cs ih =>
    rw [List.cons_append, grants, grants, ih, Nat.add_assoc]
    rfl

/-- Requests that are not picked are not counted. -/
theorem grants_eq_zero {s : σ} {cs : List ι} (h : ∀ c ∈ cs, p c = false) :
    grants step p s cs = 0 := by
  induction cs generalizing s with
  | nil => rfl
  | cons c cs ih =>
    rw [grants, h c (List.mem_cons_self ..), Bool.and_false, if_neg Bool.false_ne_true,
      ih fun d hd => h d (List.mem_cons_of_mem _ hd)]

end

variable {K σ ι : Type*} [Field K] [LinearOrder K] [IsStrictOrderedRing K]

/-- A balance pays for what is granted of the requests that `mine` picks. `Fine s t` holds of the
states there are at time `t`. -/
structure Metered (step : σ → ι → σ × Bool) (at_ : ι → K) (mine : ι → Bool) (Fine : σ → K → Prop)
    (balance : σ → K → K) (burst rate : K) : Prop where
  rate_nonneg : 0 ≤ rate
  nonneg : ∀ {s t}, Fine s t → 0 ≤ balance s t
  le_burst : ∀ {s t}, Fine s t → balance s t ≤ burst
  later : ∀ {s t t'}, Fine s t → t ≤ t' → Fine s t' ∧ balance s t' ≤ balance s t + rate * (t' - t)
  pays : ∀ {s c}, Fine s (at_ c) → Fine (step s c).1 (at_ c) ∧
    balance (step s c).1 (at_ c) + (if (step s c).2 && mine c then 1 else 0) ≤ balance s (at_ c)

namespace Metered

variable {step : σ → ι → σ × Bool} {at_ : ι → K} {mine : ι → Bool} {Fine : σ → K → Prop}
  {balance : σ → K → K} {burst rate : K}

/-- The requests of a stretch of time. -/
def during (at_ : ι → K) (mine : ι → Bool) (lo hi : K) (c : ι) : Bool :=
  mine c && decide (lo ≤ at_ c ∧ at_ c ≤ hi)

/-- From a time within the stretch on, the balance and what comes in pay for every grant. -/
theorem grants_le_balance (h : Metered step at_ mine Fine balance burst rate) {lo hi t : K} {s : σ}
    {cs : List ι} (hs : Fine s t) (hlo : lo ≤ t) (hhi : t ≤ hi)
    (hsorted : cs.Pairwise fun c d => at_ c ≤ at_ d) (hlater : ∀ c ∈ cs, t ≤ at_ c) :
    (grants step (during at_ mine lo hi) s cs : K) ≤ balance s t + rate * (hi - t) := by
  induction cs generalizing s t with
  | nil =>
    rw [grants, Nat.cast_zero]
    exact add_nonneg (h.nonneg hs) (mul_nonneg h.rate_nonneg (sub_nonneg.mpr hhi))
  | cons c cs ih =>
    have hc : t ≤ at_ c := hlater c (List.mem_cons_self ..)
    obtain ⟨hfirst, hrest⟩ := List.pairwise_cons.mp hsorted
    by_cases hin : at_ c ≤ hi
    · obtain ⟨hfine, hgain⟩ := h.later hs hc
      obtain ⟨hfine', hpays⟩ := h.pays hfine
      have hbehind := ih hfine' (hlo.trans hc) hin hrest hfirst
      have hpick : during at_ mine lo hi c = mine c := by
        rw [during, decide_eq_true ⟨hlo.trans hc, hin⟩, Bool.and_true]
      rw [grants, hpick, Nat.cast_add, Nat.cast_ite, Nat.cast_one, Nat.cast_zero]
      have hsplit : rate * (hi - t) = rate * (at_ c - t) + rate * (hi - at_ c) := by ring
      rw [hsplit]
      linarith only [hgain, hpays, hbehind]
    · have hno : ∀ d ∈ c :: cs, during at_ mine lo hi d = false := by
        intro d hd
        have hd' : ¬ at_ d ≤ hi := by
          rcases List.mem_cons.mp hd with rfl | hd
          · exact hin
          · exact fun hle => hin ((hfirst d hd).trans hle)
        rw [during, decide_eq_false (fun hdur => hd' hdur.2), Bool.and_false]
      rw [grants_eq_zero step _ hno, Nat.cast_zero]
      exact add_nonneg (h.nonneg hs) (mul_nonneg h.rate_nonneg (sub_nonneg.mpr hhi))

/-- **No stretch of time sees more grants than the bound and what the rate brings in.** -/
theorem grants_le (h : Metered step at_ mine Fine balance burst rate) {lo hi t : K} {s : σ}
    {cs : List ι} (hs : Fine s t) (hle : lo ≤ hi) (ht : t ≤ lo)
    (hsorted : cs.Pairwise fun c d => at_ c ≤ at_ d) (hlater : ∀ c ∈ cs, t ≤ at_ c) :
    (grants step (during at_ mine lo hi) s cs : K) ≤ burst + rate * (hi - lo) := by
  induction cs generalizing s t with
  | nil =>
    rw [grants, Nat.cast_zero]
    exact add_nonneg ((h.nonneg hs).trans (h.le_burst hs))
      (mul_nonneg h.rate_nonneg (sub_nonneg.mpr hle))
  | cons c cs ih =>
    obtain ⟨hfirst, hrest⟩ := List.pairwise_cons.mp hsorted
    by_cases hbefore : at_ c < lo
    · have hc : t ≤ at_ c := hlater c (List.mem_cons_self ..)
      have hpick : during at_ mine lo hi c = false := by
        rw [during, decide_eq_false (fun hdur => absurd hdur.1 (not_le.mpr hbefore)),
          Bool.and_false]
      rw [grants, hpick, Bool.and_false, if_neg Bool.false_ne_true, Nat.zero_add]
      exact ih (h.pays (h.later hs hc).1).1 hbefore.le hrest hfirst
    · have hin : ∀ d ∈ c :: cs, lo ≤ at_ d := by
        intro d hd
        rcases List.mem_cons.mp hd with rfl | hd
        · exact not_lt.mp hbefore
        · exact (not_lt.mp hbefore).trans (hfirst d hd)
      obtain ⟨hfine, -⟩ := h.later hs ht
      exact (h.grants_le_balance hfine le_rfl hle hsorted hin).trans
        (by linarith only [h.le_burst hfine])

end Metered

end Beardrive
