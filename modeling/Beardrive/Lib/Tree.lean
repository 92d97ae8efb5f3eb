import Beardrive.Lib.Json
import Mathlib.Data.List.Sort

/-!
# Decoded trees

What a decoder leaves of a text when it is given nothing in particular to decode into: tables,
lists, strings and the rest. A table is a list of fields, of which the first of a name counts. A
value that is neither a table nor a list nor a string is kept as its JSON text, where it has one;
`nil` is told from the others, since a type assertion yields it of what is not there.

`json.Marshal` writes the fields of a table in the order of their names.

## Main definitions

* `Tree` — a decoded value
* `Tree.marshal` — its JSON text, where it has one
-/

namespace Beardrive

/-- A decoded value. -/
inductive Tree where
  | null
  | leaf (text : Option GoString)
  | str (s : GoString)
  | list (items : List Tree)
  | table (fields : List (GoString × Tree))

namespace Tree

/-- The fields of a table, by their names. -/
abbrev Fields := List (GoString × Tree)

/-- Texts between brackets. -/
def listText (texts : List GoString) : GoString :=
  0x5B :: (texts.intersperse [0x2C]).flatten ++ [0x5D]

/-- Members between braces, in the order of their names. -/
def tableText (members : List (GoString × GoString)) : GoString :=
  match members.insertionSort fun a b => a.1 ≤ b.1 with
  | [] => [0x7B, 0x7D]
  | sorted => objectText sorted

mutual

/-- `json.Marshal`; a value that has no JSON text makes what holds it have none. -/
def marshal : Tree → Option GoString
  | null => some Word.null.text
  | leaf text => text
  | str s => some (quote s)
  | list items => (marshalItems items).map listText
  | table fields => (marshalFields fields).map tableText

/-- The texts of the items of a list. -/
def marshalItems : List Tree → Option (List GoString)
  | [] => some []
  | t :: items => t.marshal.bind fun text => (marshalItems items).map (text :: ·)

/-- The texts of the fields of a table. -/
def marshalFields : List (GoString × Tree) → Option (List (GoString × GoString))
  | [] => some []
  | (key, t) :: fields =>
    t.marshal.bind fun text => (marshalFields fields).map ((key, text) :: ·)

end

/-- Whether a value is `nil`. -/
def isNull : Tree → Bool
  | null => true
  | _ => false

theorem isNull_iff {t : Tree} : t.isNull = true ↔ t = null := by
  cases t with
  | null => exact ⟨fun _ => rfl, fun _ => rfl⟩
  | _ => simp [isNull]

/-- `v.([]any)`, with nothing for what is no list. -/
def items : Tree → List Tree
  | list items => items
  | _ => []

end Tree

end Beardrive
