import Mathlib.Data.List.Basic

/-!
# Tables as lists of fields

A table is a list of fields, of which the first of a key counts. Setting a key replaces that field
or appends one, and erasing it leaves no field of the key. Nothing here refers to any particular
table.

## Main definitions

* `Table.set`, `Table.erase` — a table with one key changed

## Main results

* `Table.lookup_set`, `Table.lookup_erase` — what a key has afterwards
-/

namespace Beardrive

namespace Table

variable {κ α : Type*} [DecidableEq κ]

/-- A table with a key set. -/
def set : List (κ × α) → κ → α → List (κ × α)
  | [], key, v => [(key, v)]
  | (k, old) :: fields, key, v =>
    if k = key then (k, v) :: fields else (k, old) :: set fields key v

/-- A table without a key. -/
def erase (fields : List (κ × α)) (key : κ) : List (κ × α) :=
  fields.filter fun field => decide (field.1 ≠ key)

@[simp] theorem erase_set (fields : List (κ × α)) (key : κ) (v : α) :
    erase (set fields key v) key = erase fields key := by
  induction fields with
  | nil => simp [set, erase]
  | cons field fields ih =>
    obtain ⟨k', old⟩ := field
    rw [set]
    by_cases hk : k' = key
    · subst hk
      simp [erase]
    · rw [if_neg hk, erase, erase, List.filter_cons, List.filter_cons, if_pos (by simpa using hk),
        if_pos (by simpa using hk)]
      exact congrArg _ ih

/-! ### What a key has -/

section Lookup

variable [BEq κ] [LawfulBEq κ]

theorem lookup_set (fields : List (κ × α)) (key k : κ) (v : α) :
    (set fields key v).lookup k = if k = key then some v else fields.lookup k := by
  induction fields with
  | nil =>
    by_cases h : k = key
    · simp [set, h]
    · simp [set, List.lookup_cons, beq_eq_false_iff_ne.mpr h, h]
  | cons field fields ih =>
    obtain ⟨k', old⟩ := field
    rw [set]
    by_cases hk : k' = key
    · subst hk
      rw [if_pos rfl, List.lookup_cons, List.lookup_cons]
      by_cases h : k = k'
      · simp [h]
      · simp [beq_eq_false_iff_ne.mpr h, h]
    · rw [if_neg hk, List.lookup_cons, List.lookup_cons, ih]
      by_cases h : k = k'
      · subst h
        simp [hk]
      · simp [beq_eq_false_iff_ne.mpr h]

theorem lookup_erase (fields : List (κ × α)) (key k : κ) :
    (erase fields key).lookup k = if k = key then none else fields.lookup k := by
  induction fields with
  | nil => simp [erase]
  | cons field fields ih =>
    obtain ⟨k', old⟩ := field
    rw [erase, List.filter_cons]
    rw [erase] at ih
    by_cases hk : k' = key
    · subst hk
      rw [if_neg (by simp), ih, List.lookup_cons]
      by_cases h : k = k'
      · simp [h]
      · simp [beq_eq_false_iff_ne.mpr h]
    · rw [if_pos (by simpa using hk), List.lookup_cons, List.lookup_cons, ih]
      by_cases h : k = k'
      · subst h
        simp [hk]
      · simp [beq_eq_false_iff_ne.mpr h]

end Lookup

end Table

end Beardrive
