import Beardrive.Syncer.Pull
import Beardrive.Syncer.Scan

/-!
# Restating what a peer withdrew

A device may replace its copy of a peer's journal by a body that lacks ops it has applied. Where
the body holds another op in the slot of such an op it is passed over; where the slot is gone the
op is withdrawn, and the device restates it in its own journal, with its clock, if the folder holds
the file it stands for.

## Whose op it is

A restated op keeps the clock of the op it restates and takes the name and the number of the device
that restates it. Against an op with the same clock the two may sort differently, so what it
outlasts is what is earlier on the clock.

## Main definitions

* `stillHold`, `reassert` — the ops a folder stands behind, and their restatement
* `PullCycle` — the ops of a device before the pull of a cycle and behind it

## Main results

* `tied_of_opID` — an op's identity tells its place and its file, in texts without NUL
* `applied_kept` — an applied op stays or is withdrawn, and a withdrawn op that is held keeps its
  file
-/

namespace Beardrive

/-! ### The identity of an op -/

/-- The texts of an op that its identity spells have no NUL, which separates them. -/
structure Op.Spelled (op : Op) : Prop where
  device : 0 ∉ op.device
  path : 0 ∉ op.path
  blob : 0 ∉ op.blob

/-- What `opID` spells. -/
def opFields (op : Op) : List GoString :=
  [op.device, formatInt op.seq, formatInt op.lamport, op.time.utcNano, op.kind.text, op.path,
    op.blob, formatInt op.size, decimal op.mode.toNat]

theorem opID_eq (op : Op) : opID op = [0].intercalate (opFields op) := by
  simp [opID, opSlot, opFields, List.intercalate]

private theorem zero_notMem_decimal (n : ℕ) : (0 : UInt8) ∉ decimal n := fun h =>
  absurd (digitByte_of_mem_decimal h) (by decide)

private theorem zero_notMem_formatInt (z : ℤ) : (0 : UInt8) ∉ formatInt z := fun h =>
  absurd (Machine.le_of_mem_formatInt h) (by decide)

private theorem zero_notMem_utcNano (t : Time) : (0 : UInt8) ∉ t.utcNano := fun h =>
  absurd (timeByte_of_mem_utcNano 0 h) (by decide)

private theorem zero_notMem_text (k : Kind) : (0 : UInt8) ∉ k.text := by
  cases k <;> decide

/-- An identity has eight separators, and the NULs of its texts. -/
theorem count_opID (op : Op) :
    (opID op).count 0 = 8 + op.device.count 0 + op.path.count 0 + op.blob.count 0 := by
  simp only [opID, opSlot, List.count_append, List.count_cons_self,
    List.count_eq_zero_of_not_mem (zero_notMem_decimal _),
    List.count_eq_zero_of_not_mem (zero_notMem_formatInt _),
    List.count_eq_zero_of_not_mem (zero_notMem_utcNano _),
    List.count_eq_zero_of_not_mem (zero_notMem_text _)]
  omega

theorem splitOn_opID {op : Op} (h : op.Spelled) : (opID op).splitOn 0 = opFields op := by
  rw [opID_eq]
  refine List.splitOn_intercalate 0 (fun l hl => ?_) (List.cons_ne_nil _ _)
  simp only [opFields, List.mem_cons, List.not_mem_nil, or_false] at hl
  rcases hl with rfl | rfl | rfl | rfl | rfl | rfl | rfl | rfl | rfl
  · exact h.device
  · exact zero_notMem_formatInt _
  · exact zero_notMem_formatInt _
  · exact zero_notMem_utcNano _
  · exact zero_notMem_text _
  · exact h.path
  · exact h.blob
  · exact zero_notMem_formatInt _
  · exact zero_notMem_decimal _

/-- **Two ops of one identity are of one kind, path, content, size and mode, and stand at one place
in the order.** Their links may differ. -/
theorem tied_of_opID {op o : Op} (h : op.Spelled) (heq : opID o = opID op) : Tied o op := by
  have hcount := (count_opID o).symm.trans ((congrArg (List.count 0) heq).trans (count_opID op))
  rw [List.count_eq_zero_of_not_mem h.device, List.count_eq_zero_of_not_mem h.path,
    List.count_eq_zero_of_not_mem h.blob] at hcount
  have ho : o.Spelled :=
    ⟨List.count_eq_zero.mp (by omega), List.count_eq_zero.mp (by omega),
      List.count_eq_zero.mp (by omega)⟩
  have hfields : opFields o = opFields op := by
    rw [← splitOn_opID ho, heq, splitOn_opID h]
  simp only [opFields, List.cons.injEq, and_true] at hfields
  obtain ⟨hdevice, hseq, hlamport, htime, hkind, hpath, hblob, hsize, hmode⟩ := hfields
  exact tied_iff.mpr ⟨formatInt_injective hlamport, ns_eq_of_utcNano htime, hdevice,
    formatInt_injective hseq, Kind.text_injective hkind, hpath, hblob, formatInt_injective hsize,
    UInt32.toNat_inj.mp (decimal_injective hmode)⟩

/-- An applied op stays in a body that is accepted, or is withdrawn by it. -/
theorem applied_stays {room : Bool} {copy : Option GoString} {size : ℤ} {data : GoString}
    {r : Pulled} (h : pullJournal room copy size data = some r) {op : Op}
    (hop : op ∈ parse (copy.getD [])) (hspelled : op.Spelled) :
    (∃ o ∈ parse r.copy, Tied o op) ∨ op ∈ r.gone := by
  obtain ⟨hcopy, -, hgone, hredefines, -⟩ := pullJournal_eq_some h
  rw [hcopy, hgone]
  by_cases hslot : (parse data).map opSlot |>.contains (opSlot op)
  · left
    have hid : (parse data).map opID |>.contains (opID op) := by
      have hall := List.any_eq_false.mp hredefines op hop
      rw [hslot, Bool.true_and, Bool.not_eq_true, Bool.not_eq_false'] at hall
      exact hall
    rw [List.contains_iff_mem, List.mem_map] at hid
    obtain ⟨o, ho, heq⟩ := hid
    exact ⟨o, ho, tied_of_opID hspelled heq⟩
  · right
    rw [Bool.not_eq_true] at hslot
    exact List.mem_filter.mpr ⟨hop, by rw [hslot]; rfl⟩

/-! ### Restating -/

/-- Who a device is. -/
structure Device where
  id : GoString
  name : GoString := []
  author : GoString := []

/-- `reassertNote`. -/
def reassertNote : GoString := ascii "re-asserted: the device that published it withdrew it"

/-- `stillHold`: the folder has what a put names, as its own cycle left it there. -/
def stillHold (blobs : Blobs) (cache : Cache) (op : Op) : Bool :=
  if op.kind ≠ .put ∨ op.blob = [] then false
  else (cache.lookup op.path).any (·.blob == op.blob) && blobs.has op.blob

/-- An op of another device as this device states it. -/
def restate (device : Device) (seq : ℤ) (op : Op) : Op :=
  { op with
    device := device.id, deviceName := device.name, author := device.author, seq
    note := reassertNote }

/-- What step 3b of a cycle goes by. -/
structure ReassertEnv where
  device : Device
  filter : Filter
  blobs : Blobs
  cache : Cache

/-- An op that is restated when it is withdrawn: the folder holds it and its path syncs. -/
def ReassertEnv.standsBehind (env : ReassertEnv) (op : Op) : Bool :=
  stillHold env.blobs env.cache op &&
    !(env.filter.skip op.path || neverSync op.path || unsafeRel op.path)

/-- Step 3b: the withdrawn ops that are restated, behind `base` ops of the device. -/
def ReassertEnv.reassert (env : ReassertEnv) (base : ℤ) (gone : List Op) : List Op :=
  ((gone.filter env.standsBehind).zipIdx 1).map fun e => restate env.device (base + e.2) e.1

@[simp] theorem restate_path (device : Device) (seq : ℤ) (op : Op) :
    (restate device seq op).path = op.path := rfl

@[simp] theorem restate_effect (device : Device) (seq : ℤ) (op : Op) :
    (restate device seq op).effect = op.effect := rfl

theorem exists_mem_reassert {env : ReassertEnv} (base : ℤ) {gone : List Op} {op : Op}
    (h : op ∈ gone) (hold : env.standsBehind op = true) :
    ∃ seq, restate env.device seq op ∈ env.reassert base gone := by
  have hmem : op ∈ ((gone.filter env.standsBehind).zipIdx 1).map Prod.fst := by
    rw [List.zipIdx_map_fst]
    exact List.mem_filter.mpr ⟨h, hold⟩
  obtain ⟨⟨o, n⟩, he, rfl⟩ := List.mem_map.mp hmem
  exact ⟨base + n, List.mem_map.mpr ⟨_, he, rfl⟩⟩

theorem eq_restate_of_mem {env : ReassertEnv} {base : ℤ} {gone : List Op} {o : Op}
    (h : o ∈ env.reassert base gone) :
    ∃ op ∈ gone, env.standsBehind op = true ∧ ∃ seq, o = restate env.device seq op := by
  obtain ⟨⟨op, n⟩, he, rfl⟩ := List.mem_map.mp h
  have hmem : op ∈ ((gone.filter env.standsBehind).zipIdx 1).map Prod.fst :=
    List.mem_map.mpr ⟨_, he, rfl⟩
  rw [List.zipIdx_map_fst, List.mem_filter] at hmem
  exact ⟨op, hmem.1, hmem.2, _, rfl⟩

/-! ### A cycle -/

/-- One journal of the listing, with the copy the device has of it. -/
structure PeerPull where
  room : Bool
  copy : Option GoString
  size : ℤ
  data : GoString

/-- What the pull makes of the journal. -/
def PeerPull.outcome (p : PeerPull) : Option Pulled := pullJournal p.room p.copy p.size p.data

/-- The ops of the copy before the pull. -/
def PeerPull.held (p : PeerPull) : List Op := parse (p.copy.getD [])

/-- And behind it. -/
def PeerPull.kept (p : PeerPull) : List Op := (p.outcome.map fun r => parse r.copy).getD p.held

/-- The ops that were withdrawn. -/
def PeerPull.gone (p : PeerPull) : List Op := (p.outcome.map (·.gone)).getD []

/-- A cycle whose pull is not refused: the ops of the device itself, the peers' journals, and what
the cycle journals before step 3b (held back ops, conflict copies and merges) and behind it
(prune). -/
structure PullCycle where
  env : ReassertEnv
  own : List Op
  peers : List PeerPull
  minted : List Op := []
  pruned : List Op := []

/-- The ops before the pull. -/
def PullCycle.before (c : PullCycle) : List Op := c.own ++ c.peers.flatMap PeerPull.held

/-- The ops that were withdrawn. -/
def PullCycle.gone (c : PullCycle) : List Op := c.peers.flatMap PeerPull.gone

/-- The ops that nothing has restated: the device's, and those of the journals it now has. -/
def PullCycle.others (c : PullCycle) : List Op :=
  c.own ++ c.minted ++ c.pruned ++ c.peers.flatMap PeerPull.kept

/-- Step 3b of the cycle. -/
def PullCycle.reasserted (c : PullCycle) : List Op :=
  c.env.reassert (c.own.length + c.minted.length) c.gone

/-- The ops behind the cycle. -/
def PullCycle.after (c : PullCycle) : List Op :=
  c.own ++ c.minted ++ c.reasserted ++ c.pruned ++ c.peers.flatMap PeerPull.kept

/-- Earlier on the clock. -/
def Op.Earlier (o op : Op) : Prop :=
  o.lamport < op.lamport ∨ o.lamport = op.lamport ∧ o.time.ns < op.time.ns

instance (o op : Op) : Decidable (o.Earlier op) := inferInstanceAs (Decidable (_ ∨ _))

theorem less_of_earlier {o op : Op} (h : o.Earlier op) : less o op = true := by
  rcases h with h | ⟨hl, ht⟩
  · exact less_of_lamport h
  · exact less_iff.mpr (Prod.Lex.lt_iff.mpr (.inr ⟨hl, Prod.Lex.lt_iff.mpr (.inl ht)⟩))

theorem mem_after_iff {c : PullCycle} {o : Op} :
    o ∈ c.after ↔ o ∈ c.others ∨ o ∈ c.reasserted := by
  simp only [PullCycle.after, PullCycle.others, List.mem_append]
  tauto

/-- A withdrawn op that is restated keeps its file, against all that is earlier on the clock. -/
theorem reasserted_keeps {c : PullCycle} {op : Op} (hgone : op ∈ c.gone)
    (hold : c.env.standsBehind op = true)
    (hover : ∀ o ∈ c.others ++ c.gone, o.path = op.path → o.effect = op.effect ∨ o.Earlier op)
    {all : List Op} (hall : all.Perm c.after) : replay all op.path = op.effect := by
  obtain ⟨seq, hmine⟩ := exists_mem_reassert (c.own.length + c.minted.length) hgone hold
  have hmem : restate c.env.device seq op ∈ all :=
    hall.mem_iff.mpr (mem_after_iff.mpr (.inr hmine))
  obtain ⟨w, hw, hreplay⟩ := exists_wins_replay hmem rfl
  rw [restate_path] at hreplay hw
  rw [hreplay]
  have hnot {o : Op} (ho : o.Earlier op) (hlo : w.lamport = o.lamport)
      (hto : w.time.ns = o.time.ns) : False := by
    have hless : less w (restate c.env.device seq op) = true := by
      refine less_of_earlier ?_
      rw [Op.Earlier, hlo, hto]
      exact ho
    exact (less_iff.mp hless).not_ge (hw.2.2 _ hmem rfl)
  rcases mem_after_iff.mp (hall.mem_iff.mp hw.1) with hother | hre
  · rcases hover w (List.mem_append_left _ hother) hw.2.1 with heq | hearlier
    · exact heq
    · exact (hnot hearlier rfl rfl).elim
  · obtain ⟨o, ho, -, seq', rfl⟩ := eq_restate_of_mem hre
    rcases hover o (List.mem_append_right _ ho) hw.2.1 with heq | hearlier
    · exact heq
    · exact (hnot hearlier rfl rfl).elim

/-- **An applied op stays as it is but for its link, or is withdrawn; and a withdrawn op that the
folder holds keeps its file, against all that is earlier on the clock.** -/
theorem applied_kept (c : PullCycle) :
    (∀ p ∈ c.peers, ∀ r, p.outcome = some r → ∀ op ∈ p.held, op.Spelled →
      (∃ o ∈ parse r.copy, Tied o op) ∨ op ∈ c.gone) ∧
    ∀ op ∈ c.gone, c.env.standsBehind op = true → replay c.before op.path = op.effect →
      (∀ o ∈ c.others ++ c.gone, o.path = op.path → o.effect = op.effect ∨ o.Earlier op) →
        ∀ all : List Op, all.Perm c.after → replay all op.path = replay c.before op.path := by
  constructor
  · intro p hp r hr op hop hspelled
    refine (applied_stays hr hop hspelled).imp_right fun hgone => ?_
    refine List.mem_flatMap.mpr ⟨p, hp, ?_⟩
    rw [PeerPull.gone, hr]
    exact hgone
  · intro op hgone hold hlive hover all hall
    rw [hlive]
    exact reasserted_keeps hgone hold hover hall

/-- A peer's put of a small file. -/
def peerOp (seq : ℤ) (path : String) : Op :=
  { seq, lamport := seq, device := ascii "p", kind := .put, path := ascii path,
    blob := List.replicate 64 0x61, size := 1 }

/-- A journal of puts by a peer. -/
def peerJournal (ops : List Op) : GoString := (marshal ops).getD []

/-- The journal a device holds. -/
def heldJournal : GoString := peerJournal [peerOp 1 "a"]

/-- The journal it pulls: the op is gone and two others are there. -/
def pulledJournal : GoString := peerJournal [peerOp 2 "b", peerOp 3 "c"]

/-- A cycle that pulls it. -/
def withdrawnCycle (cache : Cache) : PullCycle where
  env :=
    { device := { id := ascii "d" }, filter := {}, cache
      blobs := fun sum => if sum = List.replicate 64 0x61 then some (ascii "x") else none }
  own := []
  peers := [{ room := true, size := 1000, copy := some heldJournal, data := pulledJournal }]

private theorem parse_heldJournal : parse heldJournal = [peerOp 1 "a"] := by decide +kernel

private theorem parse_pulledJournal : parse pulledJournal = [peerOp 2 "b", peerOp 3 "c"] := by
  decide +kernel

private theorem pull_pulledJournal : pullJournal true (some heldJournal) 1000 pulledJournal =
    some ⟨pulledJournal, [peerOp 2 "b", peerOp 3 "c"], [peerOp 1 "a"]⟩ := by decide +kernel

private theorem withdrawnCycle_gone (cache : Cache) :
    (withdrawnCycle cache).gone = [peerOp 1 "a"] := by
  simp [PullCycle.gone, withdrawnCycle, PeerPull.gone, PeerPull.outcome, pull_pulledJournal]

private theorem withdrawnCycle_before (cache : Cache) :
    (withdrawnCycle cache).before = [peerOp 1 "a"] := by
  simp [PullCycle.before, withdrawnCycle, PeerPull.held, parse_heldJournal]

private theorem withdrawnCycle_others (cache : Cache) :
    (withdrawnCycle cache).others = [peerOp 2 "b", peerOp 3 "c"] := by
  simp [PullCycle.others, withdrawnCycle, PeerPull.kept, PeerPull.outcome, pull_pulledJournal,
    parse_pulledJournal]

/-- A file that the folder holds outlasts the withdrawal of its op. -/
theorem applied_kept_held :
    let c := withdrawnCycle
      (AList.singleton (ascii "a") { blob := List.replicate 64 0x61, size := 1 })
    ((∃ o ∈ parse pulledJournal, Tied o (peerOp 1 "a")) ∨ peerOp 1 "a" ∈ c.gone) ∧
      replay c.after (ascii "a") = replay c.before (ascii "a") := by
  intro c
  have hgone : peerOp 1 "a" ∈ c.gone := by
    rw [withdrawnCycle_gone]
    exact List.mem_singleton_self _
  constructor
  · refine (applied_kept c).1 _ (List.mem_singleton_self _) _ pull_pulledJournal _ ?_
      ⟨by decide, by decide, by decide⟩
    rw [PeerPull.held, Option.getD_some, parse_heldJournal]
    exact List.mem_singleton_self _
  · refine (applied_kept c).2 (peerOp 1 "a") hgone (by decide +kernel) ?_ ?_ _ (.refl _)
    · rw [withdrawnCycle_before]
      decide +kernel
    · rw [withdrawnCycle_others, withdrawnCycle_gone]
      decide +kernel

/-- A file that the folder does not hold goes with its op. -/
theorem withdrawn_not_held : ¬ ∀ c : PullCycle,
    (∀ p ∈ c.peers, ∀ r, p.outcome = some r → ∀ op ∈ p.held,
      (∃ o ∈ parse r.copy, Tied o op ∧ o.link = op.link) ∨ op ∈ c.gone) ∧
    ∀ op ∈ c.gone, op.kind = .put → replay c.before op.path = op.effect →
      (∀ o ∈ c.others, o.path = op.path → less op o = false) →
        replay c.after op.path = replay c.before op.path := by
  intro h
  have hgone : peerOp 1 "a" ∈ (withdrawnCycle ∅).gone := by
    rw [withdrawnCycle_gone]
    exact List.mem_singleton_self _
  have hlive : replay (withdrawnCycle ∅).before (ascii "a") = (peerOp 1 "a").effect := by
    rw [withdrawnCycle_before]
    decide +kernel
  have hsame := (h (withdrawnCycle ∅)).2 (peerOp 1 "a") hgone rfl hlive (by
    rw [withdrawnCycle_others]
    decide +kernel)
  -- nothing is restated
  have hafter : ∀ o ∈ (withdrawnCycle ∅).after, o.path ≠ ascii "a" := by
    intro o ho
    rcases mem_after_iff.mp ho with ho | ho
    · rw [withdrawnCycle_others] at ho
      revert o
      decide +kernel
    · obtain ⟨op, hop, hold, -⟩ := eq_restate_of_mem ho
      rw [withdrawnCycle_gone, List.mem_singleton] at hop
      rw [hop] at hold
      exact absurd hold (by decide)
  rw [show (peerOp 1 "a").path = ascii "a" from rfl, replay_eq_none hafter, hlive] at hsame
  cases hsame

end Beardrive
