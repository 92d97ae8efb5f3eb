import Mathlib.Data.List.Basic
import Mathlib.Data.List.Nodup
import Mathlib.Data.List.Perm.Basic

/-!
# Sole candidates

Two lists are matched by what may go together. An entry of the second list is given a partner in the
first when exactly one entry there may go with it, and that one may go with exactly one entry of the
second list. Nothing here refers to any particular lists.

The entries are counted as often as they stand in their list, so two equal entries are ambiguous
like any other two. What is matched does not depend on the order of the lists.

## Main definitions

* `partner` — the partner of an entry

## Main results

* `partner_eq_some_iff_of_nodup` — the partner is the only candidate
* `partner_perm` — the order of the lists does not matter
* `eq_of_partner` — no entry is the partner of two
-/

namespace Beardrive

namespace SoleMatch

variable {α β : Type*} (R : α → β → Bool) (as : List α) (bs : List β)

/-- The partner of an entry of the second list. -/
def partner (b : β) : Option α :=
  match as.filter fun a => R a b with
  | [a] => if (bs.filter (R a)).length = 1 then some a else none
  | _ => none

variable {R as bs} {a : α} {b b' : β}

theorem partner_eq_some_iff : partner R as bs b = some a ↔
    (as.filter fun a => R a b) = [a] ∧ (bs.filter (R a)).length = 1 := by
  rw [partner]
  constructor
  · intro h
    split at h
    · rename_i a' hsole
      split_ifs at h with hone
      obtain rfl := Option.some.inj h
      exact ⟨hsole, hone⟩
    · cases h
  · rintro ⟨hsole, hone⟩
    rw [hsole]
    exact if_pos hone

theorem mem_of_partner (h : partner R as bs b = some a) : a ∈ as ∧ R a b = true := by
  have hmem : a ∈ as.filter fun a => R a b := by
    rw [(partner_eq_some_iff.mp h).1]
    exact List.mem_singleton_self a
  exact List.mem_filter.mp hmem

/-- Where the first list has nothing twice, the partner is the only candidate. -/
theorem partner_eq_some_iff_of_nodup (has : as.Nodup) : partner R as bs b = some a ↔
    a ∈ as ∧ R a b = true ∧ (∀ a' ∈ as, R a' b = true → a' = a) ∧
      (bs.filter (R a)).length = 1 := by
  rw [partner_eq_some_iff]
  constructor
  · rintro ⟨hsole, hone⟩
    have hmem {a' : α} : (a' ∈ as ∧ R a' b = true) ↔ a' = a := by
      rw [← List.mem_filter (p := fun a => R a b), hsole, List.mem_singleton]
    obtain ⟨ha, hab⟩ := hmem.mpr rfl
    exact ⟨ha, hab, fun a' ha' hab' => hmem.mp ⟨ha', hab'⟩, hone⟩
  · rintro ⟨ha, hab, honly, hone⟩
    refine ⟨?_, hone⟩
    have hperm : (as.filter fun a => R a b).Perm [a] := by
      refine (List.perm_ext_iff_of_nodup (has.filter _) (List.nodup_singleton a)).mpr fun a' => ?_
      rw [List.mem_filter, List.mem_singleton]
      constructor
      · rintro ⟨ha', hab'⟩
        exact honly a' ha' hab'
      · rintro rfl
        exact ⟨ha, hab⟩
    exact List.perm_singleton.mp hperm

/-- **The order of the lists does not matter.** -/
theorem partner_perm {as' : List α} {bs' : List β} (ha : as.Perm as') (hb : bs.Perm bs') (b : β) :
    partner R as bs b = partner R as' bs' b := by
  ext a
  have hsole : (as.filter fun a => R a b) = [a] ↔ (as'.filter fun a => R a b) = [a] := by
    have hperm := ha.filter fun a => R a b
    constructor
    · intro h
      rw [h] at hperm
      exact List.perm_singleton.mp hperm.symm
    · intro h
      rw [h] at hperm
      exact List.perm_singleton.mp hperm
  rw [partner_eq_some_iff, partner_eq_some_iff, hsole, (hb.filter (R a)).length_eq]

/-- Where one entry passes, its place is the only one. -/
theorem eq_of_length_filter {p : β → Bool} (h : (bs.filter p).length = 1) {i j : ℕ}
    (hi : bs[i]? = some b) (hj : bs[j]? = some b') (hb : p b = true) (hb' : p b' = true) :
    i = j := by
  induction bs generalizing i j with
  | nil => cases h
  | cons c bs ih =>
    cases hc : p c with
    | true =>
      rw [List.filter_cons_of_pos hc, List.length_cons, Nat.add_eq_right,
        List.length_eq_zero_iff, List.filter_eq_nil_iff] at h
      have hzero : ∀ {k : ℕ} {d : β}, (c :: bs)[k]? = some d → p d = true → k = 0 := by
        intro k d hk hd
        cases k with
        | zero => rfl
        | succ k => exact absurd hd (h d (List.mem_of_getElem? hk))
      rw [hzero hi hb, hzero hj hb']
    | false =>
      rw [List.filter_cons_of_neg (by simp [hc])] at h
      cases i with
      | zero =>
        obtain rfl := Option.some.inj hi
        rw [hc] at hb
        cases hb
      | succ i =>
        cases j with
        | zero =>
          obtain rfl := Option.some.inj hj
          rw [hc] at hb'
          cases hb'
        | succ j => rw [ih h hi hj]

/-- **No entry is the partner of two.** -/
theorem eq_of_partner {i j : ℕ} (hi : bs[i]? = some b) (hj : bs[j]? = some b')
    (h : partner R as bs b = some a) (h' : partner R as bs b' = some a) : i = j :=
  eq_of_length_filter (partner_eq_some_iff.mp h).2 hi hj (mem_of_partner h).2 (mem_of_partner h').2

/-- And at most one entry has it. -/
theorem length_filter_partner_le [DecidableEq α] :
    (bs.filter fun b => partner R as bs b = some a).length ≤ 1 := by
  by_cases hnone : (bs.filter fun b => partner R as bs b = some a) = []
  · rw [hnone]
    exact Nat.zero_le 1
  · obtain ⟨b, hb⟩ := List.exists_mem_of_ne_nil _ hnone
    have hpartner := of_decide_eq_true (List.mem_filter.mp hb).2
    rw [← (partner_eq_some_iff.mp hpartner).2]
    refine (List.monotone_filter_right bs fun b hb => ?_).length_le
    exact (mem_of_partner (of_decide_eq_true hb)).2

end SoleMatch

end Beardrive
