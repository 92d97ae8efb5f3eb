import Beardrive.Config.Reserved
import Beardrive.Journal.Order
import Beardrive.Journal.SafePath
import Beardrive.Syncer.Clock

/-!
# Writing through the hub

What a browser or an agent changes through the hub becomes ops of the hub's own journal. They get
their place in the order when they are written: behind every op the hub can see, as long as the
clock has room.

## Main definitions

* `SourcedOp` — an op and the journal it was read from
* `cleanUploadPath` — the paths the hub writes
* `stamp` — the identity and the place of the hub's ops

## Main results

* `stamp_map` — what stamping leaves of an op
* `less_of_stamp` — stamped ops come after everything stored
-/

namespace Beardrive

/-- An op, and the device whose journal it was read from. -/
structure SourcedOp where
  op : Op
  origin : GoString
  deriving DecidableEq

/-- The device identity of a hub. -/
structure HubDevice where
  id : GoString
  name : GoString := []
  author : GoString := []

/-- `cleanUploadPath`: whether the hub writes a path. -/
def cleanUploadPath (p : GoString) : Option GoString :=
  if !safePath p then none else if reservedPath p then none else some p

/-- `nextLamport`: one more, without the wrap. -/
def nextLamport (cur : ℤ) : ℤ := if cur = maxInt64 then cur else cur + 1

/-- An op with the identity of the hub and a place in the order. -/
def Op.placed (op : Op) (device : HubDevice) (now : Time) (lam seq : ℤ) : Op :=
  { op with
    seq, lamport := lam, time := now
    device := device.id, deviceName := device.name, author := device.author }

/-- The loop of `stamp`, from the last clock and the last sequence number. -/
def stampFrom (device : HubDevice) (now : Time) : ℤ → ℤ → List Op → List Op
  | _, _, [] => []
  | lam, seq, op :: ops =>
    op.placed device now (nextLamport lam) (seq + 1) ::
      stampFrom device now (nextLamport lam) (seq + 1) ops

/-- The greatest clock that is stored. -/
def storedLamport (sourced : List SourcedOp) : ℤ :=
  sourced.foldl (fun lam so => max lam so.op.lamport) 0

/-- The greatest sequence number in the hub's own journal. -/
def storedSeq (device : HubDevice) (sourced : List SourcedOp) : ℤ :=
  sourced.foldl (fun seq so => if so.origin = device.id then max seq so.op.seq else seq) 0

/-- `stamp`: the next places in the hub's journal and in replay order, if there is room. -/
def stamp (device : HubDevice) (now : Time) (sourced : List SourcedOp) (ops : List Op) :
    Option (List Op) :=
  if maxInt64 - ops.length < storedSeq device sourced then none
  else some (stampFrom device now (storedLamport sourced) (storedSeq device sourced) ops)

theorem stampFrom_map {γ : Type*} {f : Op → γ} {device : HubDevice} {now : Time}
    (hf : ∀ op lam seq, f (op.placed device now lam seq) = f op) (lam seq : ℤ) (ops : List Op) :
    (stampFrom device now lam seq ops).map f = ops.map f := by
  induction ops generalizing lam seq with
  | nil => rfl
  | cons op ops ih => rw [stampFrom, List.map_cons, List.map_cons, hf, ih]

/-- Stamping gives an op its place and its identity, and leaves the rest. -/
theorem stamp_map {γ : Type*} {f : Op → γ} {device : HubDevice} {now : Time}
    (hf : ∀ op lam seq, f (op.placed device now lam seq) = f op) {sourced : List SourcedOp}
    {ops stamped : List Op} (h : stamp device now sourced ops = some stamped) :
    stamped.map f = ops.map f := by
  unfold stamp at h
  split at h
  · cases h
  · rw [← Option.some.inj h, stampFrom_map hf]

theorem lamport_le_storedLamport {sourced : List SourcedOp} {so : SourcedOp} (h : so ∈ sourced) :
    so.op.lamport ≤ storedLamport sourced := by
  induction sourced using List.reverseRecOn with
  | nil => cases h
  | append_singleton sourced last ih =>
    rw [storedLamport, List.foldl_append, List.foldl_cons, List.foldl_nil]
    rcases List.mem_append.mp h with h | h
    · exact (ih h).trans (le_max_left _ _)
    · rw [List.mem_singleton.mp h]
      exact le_max_right _ _

theorem storedLamport_lt {sourced : List SourcedOp} {n : ℤ} (hn : 0 < n)
    (h : ∀ so ∈ sourced, so.op.lamport < n) : storedLamport sourced < n := by
  induction sourced using List.reverseRecOn with
  | nil => exact hn
  | append_singleton sourced last ih =>
    rw [storedLamport, List.foldl_append, List.foldl_cons, List.foldl_nil]
    exact max_lt (ih fun so hso => h so (List.mem_append_left _ hso)) (h last (by simp))

theorem le_nextLamport (cur : ℤ) : cur ≤ nextLamport cur := by
  unfold nextLamport
  split <;> omega

theorem lamport_of_mem_stampFrom {device : HubDevice} {now : Time} {lam seq : ℤ} {ops : List Op}
    {u : Op} (h : u ∈ stampFrom device now lam seq ops) : nextLamport lam ≤ u.lamport := by
  induction ops generalizing lam seq with
  | nil => cases h
  | cons op ops ih =>
    rcases List.mem_cons.mp h with rfl | h
    · exact le_rfl
    · exact (le_nextLamport _).trans (ih h)

/-- While the clock has room, what is stamped has a greater clock than everything stored. -/
theorem lamport_lt_of_stamp {device : HubDevice} {now : Time} {sourced : List SourcedOp}
    {ops stamped : List Op} (h : stamp device now sourced ops = some stamped)
    (hroom : ∀ so ∈ sourced, so.op.lamport < maxInt64) :
    ∀ u ∈ stamped, ∀ so ∈ sourced, so.op.lamport < u.lamport := by
  unfold stamp at h
  split at h
  · cases h
  · intro u hu so hso
    rw [← Option.some.inj h] at hu
    have hnext : nextLamport (storedLamport sourced) = storedLamport sourced + 1 :=
      if_neg (storedLamport_lt (by decide) hroom).ne
    have hle := lamport_of_mem_stampFrom hu
    have hstored := lamport_le_storedLamport hso
    omega

/-- **While the clock has room, what is stamped comes after everything stored.** -/
theorem less_of_stamp {device : HubDevice} {now : Time} {sourced : List SourcedOp}
    {ops stamped : List Op} (h : stamp device now sourced ops = some stamped)
    (hroom : ∀ so ∈ sourced, so.op.lamport < maxInt64) :
    ∀ u ∈ stamped, ∀ so ∈ sourced, less so.op u = true :=
  fun u hu so hso => less_of_lamport (lamport_lt_of_stamp h hroom u hu so hso)

end Beardrive
