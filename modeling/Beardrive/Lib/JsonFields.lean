import Beardrive.Lib.JsonString

/-!
# Reading JSON values into records

How a decoder fills a record from an object: member by member, each assigned to the field its key
names. Nothing here refers to any particular program.

A key names the field that is spelled like it, or else the first it folds onto. A member that names
no field is passed over, and a value of the wrong kind makes the whole object unreadable.

## Main definitions

* `FieldTable` — the fields of a record, and how a value is assigned to each
* `FieldTable.read` — a record from an object
* `readArray` — a list from an array

## Main results

* `FieldTable.assign_of_lookup` — a member goes to the field of its name
* `FieldTable.foldlM_field` — so does one that is left out where it is the zero of its type
-/

namespace Beardrive

/-- The names of the fields, and how a value is assigned to each. -/
abbrev FieldTable (α : Type) := List (GoString × (α → Json → Option α))

namespace FieldTable

variable {α : Type} (table : FieldTable α)

/-- The field of a key: the one of exactly its name, or the first it folds onto. -/
def fieldFor (key : GoString) : Option (α → Json → Option α) :=
  (table.lookup key).or ((table.find? fun f => equalFold key f.1).map (·.2))

/-- Assign one member. -/
def assign (w : α) (member : GoString × Json) : Option α := do
  match table.fieldFor (← unquote member.1) with
  | some set => set w member.2
  | none => some w

/-- A record that held `old`. -/
def read (old : α) : Json → Option α
  | .null => some old
  | .obj members => members.foldlM table.assign old
  | _ => none

variable {table}

/-- A member goes to the field of its name. -/
theorem assign_of_lookup {raw k : GoString} {set : α → Json → Option α}
    (hkey : unquote raw = some k) (h : table.lookup k = some set) (w : α) (v : Json) :
    table.assign w (raw, v) = set w v := by
  simp [assign, fieldFor, hkey, h]

/-- A member that is left out where its field would be assigned what it holds. -/
theorem foldlM_field {p : Prop} [Decidable p] {raw k : GoString} {set : α → Json → Option α}
    {v : Json} {w w' : α} (hkey : unquote raw = some k) (hfield : table.lookup k = some set)
    (hread : set w v = some w') (hskip : p → w' = w) :
    (if p then [] else [(raw, v)]).foldlM table.assign w = some w' := by
  by_cases hp : p
  · rw [if_pos hp, hskip hp]
    rfl
  · rw [if_neg hp, List.foldlM_cons, assign_of_lookup hkey hfield, hread]
    rfl

end FieldTable

/-- A list from an array. -/
def readArray {α : Type} (item : Json → Option α) : Json → Option (List α)
  | .null => some []
  | .arr items => items.mapM item
  | _ => none

/-- An array of what was written is read item by item. -/
theorem readArray_map {α β : Type} {item : Json → Option β} {write : α → Json} {wire : α → β}
    (h : ∀ x, item (write x) = some (wire x)) (xs : List α) :
    readArray item (.arr (xs.map write)) = some (xs.map wire) := by
  induction xs with
  | nil => rfl
  | cons x xs ih =>
    rw [readArray] at ih
    rw [readArray, List.map_cons, List.mapM_cons, h, ih]
    rfl

end Beardrive
