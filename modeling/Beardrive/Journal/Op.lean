import Beardrive.Lib.GoTime

/-!
# Journal operations

Every change to a volume is one `Op` in the journal of the device that made it. The fields are
those of the wire format, under its names.

## Main definitions

* `Kind`, `Op` — a single journaled file operation
* `FileState` — the resolved state of one path after replay
-/

namespace Beardrive

/-- What an op does to its path. `Parse` lets no other kind through. -/
inductive Kind where
  | put
  | delete
  deriving DecidableEq, Repr

/-- `KindPut` and `KindDelete`. -/
def Kind.text : Kind → GoString
  | .put => ascii "put"
  | .delete => ascii "delete"

theorem Kind.text_injective : Function.Injective Kind.text := by
  rintro (_ | _) (_ | _) h
  · rfl
  · exact absurd h (by decide)
  · exact absurd h (by decide)
  · rfl

/-- A single journaled file operation. -/
structure Op where
  seq : ℤ := 0
  lamport : ℤ := 0
  time : Time := {}
  device : GoString := []
  deviceName : GoString := []
  author : GoString := []
  user : GoString := []
  userName : GoString := []
  kind : Kind
  path : GoString
  blob : GoString := []
  size : ℤ := 0
  mode : UInt32 := 0
  note : GoString := []
  session : GoString := []
  mtime : Time := {}
  link : GoString := []
  deriving DecidableEq, Repr

/-- The resolved state of one path after replay. -/
structure FileState where
  blob : GoString := []
  size : ℤ := 0
  mode : UInt32 := 0
  link : GoString := []
  deriving DecidableEq, Repr

/-- What replaying an op leaves at its path: a state for a put, nothing for a delete. -/
def Op.effect (op : Op) : Option FileState :=
  match op.kind with
  | .put => some { blob := op.blob, size := op.size, mode := op.mode, link := op.link }
  | .delete => none

@[simp] theorem Op.effect_put {op : Op} (h : op.kind = .put) :
    op.effect = some { blob := op.blob, size := op.size, mode := op.mode, link := op.link } := by
  simp [Op.effect, h]

@[simp] theorem Op.effect_delete {op : Op} (h : op.kind = .delete) : op.effect = none := by
  simp [Op.effect, h]

end Beardrive
