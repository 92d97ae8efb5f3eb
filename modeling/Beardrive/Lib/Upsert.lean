import Mathlib

/-!
# Rows that only newer rows replace

A table holds at most one row for a slot, and a row is written only over one with a smaller key.
Whatever the order of the writes, no slot goes back. Nothing here refers to any particular table.

## Main definitions

* `upsert`, `upserts` — one write, and several
* `refusals` — how many of them the table refuses

## Main results

* `upserts_grows` — a row is replaced by none but newer ones
* `upserts_covers` — what was written is there, or something at least as new
* `upserts_origin` — a row was there before, or was written where it is newer than the one before
-/

namespace Beardrive

namespace Upsert

variable {κ ρ β : Type*} [DecidableEq κ] [LinearOrder β] (slot : ρ → κ) (key : ρ → β)

/-- A row is newer than what its slot has. -/
def Lands (rows : κ → Option ρ) (row : ρ) : Prop :=
  ∀ old, rows (slot row) = some old → key old < key row

instance (rows : κ → Option ρ) (row : ρ) : Decidable (Lands slot key rows row) :=
  decidable_of_iff ((rows (slot row)).all fun old => key old < key row) <| by
    unfold Lands
    cases rows (slot row) <;> simp

/-- A row written over an older one. -/
def upsert (rows : κ → Option ρ) (row : ρ) : κ → Option ρ :=
  if Lands slot key rows row then Function.update rows (slot row) (some row) else rows

/-- Several rows written, one after the other. -/
def upserts (rows : κ → Option ρ) (l : List ρ) : κ → Option ρ := l.foldl (upsert slot key) rows

/-- How many of the rows are refused. -/
def refusals (rows : κ → Option ρ) : List ρ → ℕ
  | [] => 0
  | row :: l =>
    (if Lands slot key rows row then 0 else 1) + refusals (upsert slot key rows row) l

theorem upsert_grows {rows : κ → Option ρ} {k : κ} {old : ρ} (h : rows k = some old) (row : ρ) :
    ∃ new, upsert slot key rows row k = some new ∧ key old ≤ key new := by
  unfold upsert
  split
  · rename_i hlands
    by_cases hk : k = slot row
    · subst hk
      exact ⟨row, Function.update_self _ _ _, (hlands old h).le⟩
    · exact ⟨old, by rw [Function.update_of_ne hk, h], le_rfl⟩
  · exact ⟨old, h, le_rfl⟩

/-- **A row is replaced by none but newer ones.** -/
theorem upserts_grows {rows : κ → Option ρ} {k : κ} {old : ρ} (h : rows k = some old)
    (l : List ρ) : ∃ new, upserts slot key rows l k = some new ∧ key old ≤ key new := by
  induction l generalizing rows old with
  | nil => exact ⟨old, h, le_rfl⟩
  | cons row l ih =>
    obtain ⟨mid, hmid, hle⟩ := upsert_grows slot key h row
    obtain ⟨new, hnew, hle'⟩ := ih hmid
    exact ⟨new, hnew, hle.trans hle'⟩

/-- What was written is there, or something at least as new. -/
theorem upsert_covers (rows : κ → Option ρ) (row : ρ) :
    ∃ new, upsert slot key rows row (slot row) = some new ∧ key row ≤ key new := by
  unfold upsert
  split
  · exact ⟨row, Function.update_self _ _ _, le_rfl⟩
  · rename_i hlands
    simp only [Lands, not_forall, not_lt] at hlands
    obtain ⟨old, hold, hle⟩ := hlands
    exact ⟨old, hold, hle⟩

/-- **What was written is there, or something at least as new.** -/
theorem upserts_covers (rows : κ → Option ρ) {l : List ρ} {row : ρ} (h : row ∈ l) :
    ∃ new, upserts slot key rows l (slot row) = some new ∧ key row ≤ key new := by
  induction l generalizing rows with
  | nil => cases h
  | cons a l ih =>
    rcases List.mem_cons.mp h with rfl | h
    · obtain ⟨mid, hmid, hle⟩ := upsert_covers slot key rows row
      obtain ⟨new, hnew, hle'⟩ := upserts_grows slot key hmid l
      exact ⟨new, hnew, hle.trans hle'⟩
    · exact ih _ h

variable {slot key}

/-- A row is written only where it is newer than what was there at first. -/
theorem Lands.of_upsert {rows : κ → Option ρ} {row row' : ρ}
    (h : Lands slot key (upsert slot key rows row') row) : Lands slot key rows row := by
  intro old hold
  obtain ⟨mid, hmid, hle⟩ := upsert_grows slot key hold row'
  exact hle.trans_lt (h mid hmid)

/-- **A row of the table was there before, or it was written, and is newer than the one before.** -/
theorem upserts_origin {rows : κ → Option ρ} {l : List ρ} {k : κ} {row : ρ}
    (h : upserts slot key rows l k = some row) :
    rows k = some row ∨ row ∈ l ∧ slot row = k ∧ Lands slot key rows row := by
  induction l generalizing rows with
  | nil => exact .inl h
  | cons a l ih =>
    rcases ih h with h | ⟨hmem, hslot, hlands⟩
    · by_cases ha : Lands slot key rows a
      · rw [upsert, if_pos ha] at h
        by_cases hk : k = slot a
        · subst hk
          rw [Function.update_self] at h
          obtain rfl := Option.some.inj h
          exact .inr ⟨by simp, rfl, ha⟩
        · rw [Function.update_of_ne hk] at h
          exact .inl h
      · rw [upsert, if_neg ha] at h
        exact .inl h
    · exact .inr ⟨List.mem_cons_of_mem _ hmem, hslot, hlands.of_upsert⟩

end Upsert

end Beardrive
