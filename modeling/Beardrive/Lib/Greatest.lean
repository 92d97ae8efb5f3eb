import Mathlib

/-!
# The greatest entry of a list

One pass that keeps the entry no later one has exceeded, among those that count. Nothing here
refers to any particular program.

## Main definitions

* `greatest` — the pass

## Main results

* `greatest_eq_some`, `greatest_eq_none_iff` — what it answers
* `find?_of_greatest` — of several that nothing exceeds, the first
-/

namespace Beardrive

variable {α β : Type*}

/-- The entry, among those kept, that no later one exceeds. -/
def greatest (lt : α → α → Bool) (keep : α → Bool) (l : List α) : Option α :=
  l.foldl (fun best a =>
    if keep a then
      match best with
      | none => some a
      | some b => if lt b a then some a else some b
    else best) none

theorem greatest_append_singleton (lt : α → α → Bool) (keep : α → Bool) (l : List α) (a : α) :
    greatest lt keep (l ++ [a])
      = if keep a then
          match greatest lt keep l with
          | none => some a
          | some b => if lt b a then some a else some b
        else greatest lt keep l := by
  rw [greatest, List.foldl_append]
  rfl

/-- Where nothing counts, nothing is answered, and only there. -/
theorem greatest_eq_none_iff {lt : α → α → Bool} {keep : α → Bool} {l : List α} :
    greatest lt keep l = none ↔ ∀ a ∈ l, keep a = false := by
  induction l using List.reverseRecOn with
  | nil => simp [greatest]
  | append_singleton l a ih =>
    rw [greatest_append_singleton, List.forall_mem_append, List.forall_mem_singleton, ← ih]
    cases keep a with
    | false => simp
    | true =>
      cases greatest lt keep l with
      | none => simp
      | some b => cases h : lt b a <;> simp [h]

/-- What is answered is in the list, counts, and is exceeded by nothing that counts. -/
theorem greatest_eq_some [LinearOrder β] {lt : α → α → Bool} {key : α → β}
    (hlt : ∀ a b, lt a b = true ↔ key a < key b) {keep : α → Bool} {l : List α} {g : α}
    (h : greatest lt keep l = some g) :
    g ∈ l ∧ keep g = true ∧ ∀ a ∈ l, keep a = true → key a ≤ key g := by
  induction l using List.reverseRecOn generalizing g with
  | nil => cases h
  | append_singleton l a ih =>
    rw [greatest_append_singleton] at h
    cases hk : keep a with
    | false =>
      rw [hk, if_neg (by simp)] at h
      obtain ⟨hmem, hkeep, hmax⟩ := ih h
      refine ⟨List.mem_append_left _ hmem, hkeep, fun o ho hko => ?_⟩
      rcases List.mem_append.mp ho with ho | ho
      · exact hmax o ho hko
      · rw [List.mem_singleton.mp ho, hk] at hko
        cases hko
    | true =>
      rw [hk, if_pos rfl] at h
      cases hg : greatest lt keep l with
      | none =>
        rw [hg] at h
        obtain rfl := Option.some.inj h
        refine ⟨by simp, hk, fun o ho hko => ?_⟩
        rcases List.mem_append.mp ho with ho | ho
        · rw [greatest_eq_none_iff.mp hg o ho] at hko
          cases hko
        · rw [List.mem_singleton.mp ho]
      | some b =>
        rw [hg] at h
        obtain ⟨hmem, hkeep, hmax⟩ := ih hg
        dsimp only at h
        by_cases hba : lt b a = true
        · rw [if_pos hba] at h
          obtain rfl := Option.some.inj h
          refine ⟨by simp, hk, fun o ho hko => ?_⟩
          rcases List.mem_append.mp ho with ho | ho
          · exact (hmax o ho hko).trans ((hlt b a).mp hba).le
          · rw [List.mem_singleton.mp ho]
        · rw [if_neg hba] at h
          obtain rfl := Option.some.inj h
          refine ⟨List.mem_append_left _ hmem, hkeep, fun o ho hko => ?_⟩
          rcases List.mem_append.mp ho with ho | ho
          · exact hmax o ho hko
          · rw [List.mem_singleton.mp ho]
            exact not_lt.mp (mt (hlt b a).mpr hba)

/-- Only what counts is looked at. -/
theorem greatest_congr {lt : α → α → Bool} {keep keep' : α → Bool} {l : List α}
    (h : ∀ a ∈ l, keep a = keep' a) : greatest lt keep l = greatest lt keep' l := by
  induction l using List.reverseRecOn with
  | nil => rfl
  | append_singleton l a ih =>
    rw [greatest_append_singleton, greatest_append_singleton, h a (by simp),
      ih fun b hb => h b (List.mem_append_left _ hb)]

/-- What is answered is the first of its key that counts. -/
theorem find?_of_greatest [LinearOrder β] {lt : α → α → Bool} {key : α → β}
    (hlt : ∀ a b, lt a b = true ↔ key a < key b) {keep : α → Bool} {l : List α} {g : α}
    (h : greatest lt keep l = some g) :
    l.find? (fun a => keep a && decide (key a = key g)) = some g := by
  induction l using List.reverseRecOn generalizing g with
  | nil => cases h
  | append_singleton l a ih =>
    rw [greatest_append_singleton] at h
    cases hk : keep a with
    | false =>
      rw [hk, if_neg (by simp)] at h
      rw [List.find?_append, ih h, Option.some_or]
    | true =>
      rw [hk, if_pos rfl] at h
      have hnew (hl : ∀ b ∈ l, keep b = true → key b < key a) :
          (l ++ [a]).find? (fun b => keep b && decide (key b = key a)) = some a := by
        have hnone : l.find? (fun b => keep b && decide (key b = key a)) = none := by
          rw [List.find?_eq_none]
          intro b hb
          simp only [Bool.and_eq_true, decide_eq_true_eq, not_and]
          exact fun hkb => (hl b hb hkb).ne
        simp [List.find?_append, hnone, hk]
      cases hg : greatest lt keep l with
      | none =>
        rw [hg] at h
        obtain rfl := Option.some.inj h
        refine hnew fun b hb hkb => ?_
        rw [greatest_eq_none_iff.mp hg b hb] at hkb
        cases hkb
      | some b =>
        rw [hg] at h
        dsimp only at h
        by_cases hba : lt b a = true
        · rw [if_pos hba] at h
          obtain rfl := Option.some.inj h
          exact hnew fun o ho hko =>
            ((greatest_eq_some hlt hg).2.2 o ho hko).trans_lt ((hlt b a).mp hba)
        · rw [if_neg hba] at h
          obtain rfl := Option.some.inj h
          rw [List.find?_append, ih hg, Option.some_or]

end Beardrive
