import Beardrive.Journal.Op
import Beardrive.Lib.LastWriter
import Mathlib.Data.Prod.Lex

/-!
# The total order and replay

`less` is the hand-written nine-key comparison ops are replayed in, `replay` the fold. Both are
translated as they stand; `less_iff` then identifies the comparison with the order of one
lexicographic key, which makes `replay` an instance of the last-writer fold.

## What a tie leaves open

The comparison decides every field the fold reads but one: a put also folds its link target, and
`less` never looks at it. Two ops that agree on all nine keys and differ in `link` are therefore
both greatest, and which of them wins is whichever the caller collected last. Such a tie is a
forgery, since an honest device never reuses a sequence number, but the order was extended to
nine keys to settle forged ties.

## Main definitions

* `less`, `sortOps`, `replay` — the order, the stable sort and the fold
* `Tied` — two ops the comparison does not tell apart
* `lastOp` — the op that decides what a path holds

## Main results

* `less_iff` — the comparison is the order of a lexicographic key
* `replay_perm_iff` — replay is independent of the collection order exactly when no two tied
  winners disagree on their link
-/

namespace Beardrive

/-- The total order used to replay ops from many devices. -/
def less (a b : Op) : Bool :=
  if a.lamport ≠ b.lamport then a.lamport < b.lamport
  else if ¬ a.time.equal b.time then a.time.before b.time
  else if a.device ≠ b.device then a.device < b.device
  else if a.seq ≠ b.seq then a.seq < b.seq
  else if a.kind ≠ b.kind then a.kind.text < b.kind.text
  else if a.path ≠ b.path then a.path < b.path
  else if a.blob ≠ b.blob then a.blob < b.blob
  else if a.size ≠ b.size then a.size < b.size
  else a.mode < b.mode

/-- `Sort`: a stable sort by `less`. -/
def sortOps (ops : List Op) : List Op := ops.insertionSort fun a b => less b a = false

/-- The state of a volume: what each path holds. -/
abbrev State := GoString → Option FileState

/-- Fold a set of ops into the resulting volume state: the last writer of a path wins. -/
def replay (ops : List Op) : State :=
  (sortOps ops).foldl (fun state op =>
    match op.kind with
    | .put => Function.update state op.path
        (some { blob := op.blob, size := op.size, mode := op.mode, link := op.link })
    | .delete => Function.update state op.path none) fun _ => none

/-! ### The order as a lexicographic key -/

/-- The nine keys, in the order they are compared. -/
abbrev OpKey :=
  ℤ ×ₗ ℤ ×ₗ GoString ×ₗ ℤ ×ₗ GoString ×ₗ GoString ×ₗ GoString ×ₗ ℤ ×ₗ ℕ

/-- The key an op is ordered by. -/
def Op.key (op : Op) : OpKey :=
  toLex (op.lamport, toLex (op.time.ns, toLex (op.device, toLex (op.seq, toLex (op.kind.text,
    toLex (op.path, toLex (op.blob, toLex (op.size, op.mode.toNat))))))))

/-- Neither op is less than the other. -/
def Tied (a b : Op) : Prop := a.key = b.key

theorem tied_iff {a b : Op} : Tied a b ↔ a.lamport = b.lamport ∧ a.time.ns = b.time.ns ∧
    a.device = b.device ∧ a.seq = b.seq ∧ a.kind = b.kind ∧ a.path = b.path ∧
      a.blob = b.blob ∧ a.size = b.size ∧ a.mode = b.mode := by
  simp [Tied, Op.key, Kind.text_injective.eq_iff, UInt32.toNat_inj]

instance (a b : Op) : Decidable (Tied a b) := decidable_of_iff _ tied_iff.symm

/-- A lexicographic comparison goes on where the first components agree. -/
theorem less_step {α β : Type*} [LinearOrder α] [LinearOrder β] {a b : α} {x y : β} {r : Bool}
    [Decidable (a = b)] [Decidable (a < b)] (h : r = true ↔ x < y) :
    (if ¬ a = b then decide (a < b) else r) = true ↔ toLex (a, x) < toLex (b, y) := by
  rw [Prod.Lex.toLex_lt_toLex]
  by_cases heq : a = b
  · subst heq
    rw [if_neg (not_not_intro rfl), h]
    exact ⟨fun hxy => .inr ⟨rfl, hxy⟩, fun hab => (hab.resolve_left (lt_irrefl a)).2⟩
  · rw [if_pos heq, decide_eq_true_iff]
    exact ⟨.inl, fun hab => hab.resolve_right fun hboth => heq hboth.1⟩

/-- **The comparison is the order of the key.** -/
theorem less_iff {a b : Op} : less a b = true ↔ a.key < b.key := by
  have hkind : a.kind = b.kind ↔ a.kind.text = b.kind.text := Kind.text_injective.eq_iff.symm
  have hmode : decide (a.mode < b.mode) = true ↔ a.mode.toNat < b.mode.toNat := by
    rw [decide_eq_true_iff, UInt32.lt_iff_toNat_lt]
  simp only [less, Time.equal, Time.before, beq_iff_eq, ne_eq, hkind]
  exact less_step (less_step (less_step (less_step (less_step (less_step (less_step
    (less_step hmode)))))))

theorem less_eq_decide (a b : Op) : less a b = decide (a.key < b.key) := by
  rw [Bool.eq_iff_iff, less_iff, decide_eq_true_iff]

theorem not_less_iff {a b : Op} : less a b = false ↔ b.key ≤ a.key := by
  rw [← Bool.not_eq_true, less_iff, not_lt]

theorem less_irrefl (a : Op) : less a a = false := not_less_iff.mpr le_rfl

theorem less_trans {a b c : Op} (hab : less a b) (hbc : less b c) : less a c :=
  less_iff.mpr ((less_iff.mp hab).trans (less_iff.mp hbc))

theorem less_asymm {a b : Op} (h : less a b) : less b a = false :=
  not_less_iff.mpr (less_iff.mp h).le

/-- A greater clock is a greater op. -/
theorem less_of_lamport {a b : Op} (h : a.lamport < b.lamport) : less a b := by
  simp [less, h.ne, h]

theorem lamport_le_of_less {a b : Op} (h : less a b) : a.lamport ≤ b.lamport := by
  by_contra hlt
  exact absurd h (by simp [less_asymm (less_of_lamport (not_le.mp hlt))])

/-! ### Replay as a last-writer fold -/

theorem sortOps_eq (ops : List Op) : sortOps ops = LastWriter.sort Op.key ops := by
  simp only [sortOps, LastWriter.sort, not_less_iff]

theorem replay_eq (ops : List Op) :
    replay ops = LastWriter.lastWriter Op.path Op.effect Op.key ops := by
  rw [replay, sortOps_eq, LastWriter.lastWriter, LastWriter.fold]
  congr 1
  funext state op
  cases h : op.kind <;> simp [h]

/-- The ops for a path that no other op for it exceeds. -/
abbrev Wins (ops : List Op) (p : GoString) (op : Op) : Prop :=
  LastWriter.Winner Op.path Op.key ops p op

theorem wins_iff {ops : List Op} {p : GoString} {op : Op} :
    Wins ops p op ↔ op ∈ ops ∧ op.path = p ∧ ∀ o ∈ ops, o.path = p → less op o = false := by
  simp only [LastWriter.Winner, not_less_iff]

instance (ops : List Op) (p : GoString) (op : Op) : Decidable (Wins ops p op) :=
  decidable_of_iff _ wins_iff.symm

/-- What a path holds is the effect of one of its winners. -/
theorem exists_wins_replay {ops : List Op} {p : GoString} {op : Op} (h : op ∈ ops)
    (hp : op.path = p) : ∃ w, Wins ops p w ∧ replay ops p = w.effect := by
  rw [replay_eq]
  exact LastWriter.exists_winner_lastWriter h hp

theorem replay_eq_none {ops : List Op} {p : GoString} (h : ∀ op ∈ ops, op.path ≠ p) :
    replay ops p = none := by
  rw [replay_eq]
  exact LastWriter.lastWriter_eq_none h

theorem tied_of_wins {ops : List Op} {p : GoString} {a b : Op} (ha : Wins ops p a)
    (hb : Wins ops p b) : Tied a b :=
  le_antisymm (hb.2.2 a ha.1 ha.2.1) (ha.2.2 b hb.1 hb.2.1)

/-- Tied ops fold to the same state when a put carries the same link, and only then. -/
theorem Tied.effect_eq_iff {a b : Op} (h : Tied a b) :
    a.effect = b.effect ↔ a.kind = .put → a.link = b.link := by
  obtain ⟨-, -, -, -, hk, -, hb, hs, hm⟩ := tied_iff.mp h
  cases hka : a.kind with
  | put => simp [Op.effect, hka, hk ▸ hka, hb, hs, hm]
  | delete => simp [Op.effect, hka, hk ▸ hka]

/-- An op that exceeds every other op for its path decides what the path holds. -/
theorem replay_eq_of_greatest {ops : List Op} {op : Op} (h : op ∈ ops)
    (hmax : ∀ o ∈ ops, o.path = op.path → o ≠ op → less o op) :
    replay ops op.path = op.effect := by
  obtain ⟨w, hw, heq⟩ := exists_wins_replay h rfl
  rw [heq]
  by_cases hne : w = op
  · rw [hne]
  · have hlt := less_iff.mp (hmax w hw.1 hw.2.1 hne)
    exact absurd (hw.2.2 op h rfl) hlt.not_ge

/-! ### The op a path holds -/

/-- The op that decides what a path holds. -/
def lastOp (ops : List Op) (p : GoString) : Option Op := LastWriter.last? Op.path (sortOps ops) p

/-- What a path holds is the effect of that op. -/
theorem replay_eq_lastOp (ops : List Op) (p : GoString) :
    replay ops p = (lastOp ops p).bind Op.effect := by
  rw [replay_eq, LastWriter.lastWriter, LastWriter.fold_apply, lastOp, sortOps_eq]

theorem lastOp_eq_none_iff {ops : List Op} {p : GoString} :
    lastOp ops p = none ↔ ∀ op ∈ ops, op.path ≠ p := by
  rw [lastOp, sortOps_eq, LastWriter.last?_eq_none]
  simp only [LastWriter.mem_sort]

/-- It is the winner that was collected last of those that tie with it. -/
theorem lastOp_eq_some_iff {ops : List Op} {p : GoString} {op : Op} :
    lastOp ops p = some op ↔ Wins ops p op ∧
      (ops.filter fun o => o.path = p ∧ o.key = op.key).getLast? = some op := by
  rw [lastOp, sortOps_eq, LastWriter.last?_sort_eq_some_iff]

theorem wins_of_lastOp {ops : List Op} {p : GoString} {op : Op} (h : lastOp ops p = some op) :
    Wins ops p op := (lastOp_eq_some_iff.mp h).1

/-! ### Collection orders -/

/-- Winners of one path that fold to different states show in some collection order. -/
theorem effect_eq_of_replay_perm {ops : List Op}
    (h : ∀ ops' : List Op, ops'.Perm ops → replay ops' = replay ops) {p : GoString} {a b : Op}
    (ha : Wins ops p a) (hb : Wins ops p b) : a.effect = b.effect := by
  simp only [replay_eq] at h
  exact LastWriter.lastWriter_perm_iff.mp h p a b ha hb

/-- **Replay is independent of the order the ops are collected in exactly when no two tied
winners of a path are puts with different links.** -/
theorem replay_perm_iff (ops : List Op) :
    (∀ ops' : List Op, ops'.Perm ops → replay ops' = replay ops) ↔
      ∀ p a b, Wins ops p a → Wins ops p b → a.kind = .put → a.link = b.link := by
  constructor
  · intro h p a b ha hb
    exact (tied_of_wins ha hb).effect_eq_iff.mp (effect_eq_of_replay_perm h ha hb)
  · intro h
    simp only [replay_eq]
    exact LastWriter.lastWriter_perm_iff.mpr fun p a b ha hb =>
      (tied_of_wins ha hb).effect_eq_iff.mpr (h p a b ha hb)

/-- Two links forged onto one clock, device and sequence number: the order they are collected in
decides which of them the path holds. -/
theorem replay_perm_ne : ¬ ∀ ops ops' : List Op, ops'.Perm ops → replay ops' = replay ops := by
  intro h
  let a : Op :=
    { seq := 1, lamport := 1, device := ascii "d", kind := .put, path := ascii "f",
      link := ascii "x" }
  let b : Op := { a with link := ascii "y" }
  have hw : Wins [a, b] (ascii "f") a ∧ Wins [a, b] (ascii "f") b := by decide
  exact absurd (effect_eq_of_replay_perm (h [a, b]) hw.1 hw.2) (by decide)

end Beardrive
