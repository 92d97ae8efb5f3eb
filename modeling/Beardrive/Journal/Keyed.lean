import Beardrive.Journal.Order

/-!
# What the comparison reads

The comparison of two ops reads nine fields of each. An op that was put together from some of them,
as the mark of a page is, has no kind, and the comparison takes it as it comes.

## Main definitions

* `KeyedOp` — the fields of an op that the comparison reads
* `KeyedOp.less` — the comparison

## Main results

* `KeyedOp.less_iff` — it is the order of a lexicographic key
-/

namespace Beardrive

/-- The fields of an op that the comparison reads, with whatever its kind says. -/
structure KeyedOp where
  lamport : ℤ := 0
  time : Time := {}
  device : GoString := []
  seq : ℤ := 0
  kind : GoString := []
  path : GoString := []
  blob : GoString := []
  size : ℤ := 0
  mode : UInt32 := 0

namespace KeyedOp

/-- `Less`. -/
def less (a b : KeyedOp) : Bool :=
  if a.lamport ≠ b.lamport then a.lamport < b.lamport
  else if ¬ a.time.equal b.time then a.time.before b.time
  else if a.device ≠ b.device then a.device < b.device
  else if a.seq ≠ b.seq then a.seq < b.seq
  else if a.kind ≠ b.kind then a.kind < b.kind
  else if a.path ≠ b.path then a.path < b.path
  else if a.blob ≠ b.blob then a.blob < b.blob
  else if a.size ≠ b.size then a.size < b.size
  else a.mode < b.mode

/-- The nine keys. -/
def key (op : KeyedOp) : OpKey :=
  toLex (op.lamport, toLex (op.time.ns, toLex (op.device, toLex (op.seq, toLex (op.kind,
    toLex (op.path, toLex (op.blob, toLex (op.size, op.mode.toNat))))))))

theorem less_iff {a b : KeyedOp} : a.less b = true ↔ a.key < b.key := by
  have hmode : decide (a.mode < b.mode) = true ↔ a.mode.toNat < b.mode.toNat := by
    rw [decide_eq_true_iff, UInt32.lt_iff_toNat_lt]
  simp only [less, Time.equal, Time.before, beq_iff_eq, ne_eq]
  exact less_step (less_step (less_step (less_step (less_step (less_step (less_step
    (less_step hmode)))))))

end KeyedOp

/-- An op with its kind spelled out. -/
def Op.keyed (op : Op) : KeyedOp where
  lamport := op.lamport
  time := op.time
  device := op.device
  seq := op.seq
  kind := op.kind.text
  path := op.path
  blob := op.blob
  size := op.size
  mode := op.mode

/-- The comparison of ops is that of what it reads. -/
theorem less_keyed (a b : Op) : a.keyed.less b.keyed = less a b := by
  rw [Bool.eq_iff_iff, KeyedOp.less_iff, less_iff]
  exact Iff.rfl

end Beardrive
