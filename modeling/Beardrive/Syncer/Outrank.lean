import Beardrive.Syncer.Cycle

/-!
# An edit and what its device had seen

A scan mints its ops above the clock of the device, and the clock is raised to every op the device
holds, whatever was saved of it. So an edit outranks all that was held for its path, and the replay
of any device that has it leaves it there until a later op comes.

The clock follows a peer up to `maxLamport` only, but a device's own ops go on above it. Once one
device has been brought to the cap, the next has its ops and not its clock.

## Main definitions

* `Fleet` — any number of devices and what else is on the remote, with every edit that was minted
* `Outranks` — what an edit is to do

## Main results

* `edits_outrank` — over cycles that hold no op above the cap and the saved clock, every edit does
-/

namespace Beardrive

variable {ι : Type*} [DecidableEq ι]

/-- Devices that sync one project, the ops of journals that none of them writes, and the edits that
were minted, each beside the ops its device held. -/
structure Fleet (ι : Type*) where
  sessions : ι → Session := fun _ => {}
  injected : List Op := []
  edits : List (Op × List Op) := []

/-- What happens in a fleet: an op turns up on the remote, a device runs a cycle, or it comes to an
older state. -/
inductive FleetEvent (ι : Type*) where
  | inject (op : Op)
  | cycle (i : ι) (c : Cycle)
  | restore (i : ι) (lamport : ℤ) (pushed : ℕ)

/-- What an event leaves. The edits of a cycle are the ops of its scan, if the device does not
join. -/
def Fleet.step (s : Fleet ι) : FleetEvent ι → Option (Fleet ι)
  | .inject op => if op.lamport ≤ maxLamport then some { s with injected := op :: s.injected } else none
  | .cycle i c => ((s.sessions i).step c).map fun t =>
      { s with
        sessions := Function.update s.sessions i t
        edits := s.edits ++ if c.joining (s.sessions i) then []
          else (c.localOps (s.sessions i)).map fun op => (op, (s.sessions i).ops) }
  | .restore i lamport pushed =>
    if lamport ≤ (s.sessions i).lamport ∧ pushed ≤ (s.sessions i).pushed then
      some { s with
        sessions := Function.update s.sessions i { s.sessions i with lamport, pushed } }
    else none

/-- What a device pulls is in the journal of another device, or in none of theirs. -/
def Fleet.Possible (s : Fleet ι) : FleetEvent ι → Prop
  | .cycle i c => ∀ op ∈ c.peers, op ∈ s.injected ∨ ∃ j, j ≠ i ∧ op ∈ (s.sessions j).own
  | _ => True

/-- An edit comes behind everything held for its path, and a replay of it, of what was held and of
what is earlier leaves it in its place. -/
def Outranks (e : Op × List Op) : Prop :=
  (∀ o ∈ e.2, o.path = e.1.path → less o e.1 = true) ∧
    ∀ all : List Op, e.1 ∈ all →
      (∀ o ∈ all, o.path = e.1.path → o ∈ e.2 ∨ o = e.1 ∨ less o e.1 = true) →
        replay all e.1.path = e.1.effect

/-- The clock of a device follows what it holds for the paths of its edits: nothing there is above
both the cap and the saved clock, and the clock is not at its end. -/
structure Cycle.Followed (c : Cycle) (s : Session) : Prop where
  room : s.lamport < maxInt64
  held : ∀ op ∈ c.localOps s, ∀ o ∈ s.ops, o.path = op.path → o.lamport ≤ max maxLamport s.lamport

/-- A cycle of a device whose clock follows, where the device does not join. -/
def Fleet.Careful (s : Fleet ι) : FleetEvent ι → Prop
  | .cycle i c => c.joining (s.sessions i) = false → c.Followed (s.sessions i)
  | _ => True

/-! ### One cycle -/

/-- What outranks all that is held stays in its place. -/
theorem outranks_of_held {op : Op} {held : List Op}
    (h : ∀ o ∈ held, o.path = op.path → less o op = true) : Outranks (op, held) := by
  refine ⟨h, fun all hop hall => replay_eq_of_greatest hop fun o ho hp hne => ?_⟩
  rcases hall o ho hp with hheld | heq | hless
  · exact h o hheld hp
  · exact absurd heq hne
  · exact hless

/-- **An edit outranks what its device held**, where the clock follows. -/
theorem outranks_of_followed {c : Cycle} {s : Session} (hjoin : c.joining s = false)
    (h : c.Followed s) : ∀ op ∈ c.localOps s, Outranks (op, s.ops) := by
  intro op hop
  refine outranks_of_held fun o ho hp => less_of_lamport ?_
  have hclock : s.clock < maxInt64 :=
    rederive_le.trans_lt (max_lt (by decide) h.room)
  have hle : o.lamport ≤ s.clock := lamport_le_rederive ho (h.held op hop o ho hp)
  have hmint : ScanMint (c.scanEnv s) s.clock op := by
    rw [Cycle.localOps, hjoin, if_neg (by simp)] at hop
    exact scanMint_of_mem hop
  exact hle.trans_lt (hmint.above hclock)

/-! ### Every run -/

/-- A step of a fleet. -/
def Fleet.Next (s s' : Fleet ι) : Prop := ∃ ev, s.Possible ev ∧ s.step ev = some s'

/-- A careful step. -/
def Fleet.CarefulNext (s s' : Fleet ι) : Prop :=
  ∃ ev, s.Possible ev ∧ s.Careful ev ∧ s.step ev = some s'

/-- **Every edit outranks what its device held when it was minted**, in every run whose clocks
follow. -/
theorem edits_outrank {s : Fleet ι} (h : Relation.ReflTransGen Fleet.CarefulNext {} s) :
    ∀ e ∈ s.edits, Outranks e := by
  have hstep (s s' : Fleet ι) (hs : ∀ e ∈ s.edits, Outranks e) (hnext : s.CarefulNext s') :
      ∀ e ∈ s'.edits, Outranks e := by
    obtain ⟨ev, -, hcareful, hev⟩ := hnext
    cases ev with
    | inject op =>
      rw [Fleet.step] at hev
      split_ifs at hev
      obtain rfl := Option.some.inj hev
      exact hs
    | cycle i c =>
      obtain ⟨t, -, rfl⟩ := Option.map_eq_some_iff.mp hev
      intro e he
      rcases List.mem_append.mp he with he | he
      · exact hs e he
      · split at he
        · cases he
        · rename_i hjoin
          rw [Bool.not_eq_true] at hjoin
          obtain ⟨op, hop, rfl⟩ := List.mem_map.mp he
          exact outranks_of_followed hjoin (hcareful hjoin) op hop
    | restore i lamport pushed =>
      rw [Fleet.step] at hev
      split_ifs at hev
      obtain rfl := Option.some.inj hev
      exact hs
  exact Runs.invariant h hstep (by simp)

/-- A cycle of a device that meets a folder and the journals of its peers. -/
def fleetCycle (device : String) (folder : Folder) (peers pulled : List Op) : Cycle where
  scan := { hash := spelledHash, folder, filter := {}, stamp := { device := ascii device } }
  peers
  pulled

/-- A folder of files that hold their names. -/
def namedFiles (names : List String)
    (h : wellFormedEntries (names.map fun name =>
      (ascii name, .file {} (ascii name) true)) = true := by decide) : Folder where
  entries := names.map fun name => (ascii name, .file {} (ascii name) true)
  wellFormed := h

/-- An op at the cap. -/
def cappedOp : Op := { peerOp 1 "x" with lamport := maxLamport }

/-- An op at the cap is on the remote. -/
def capInjected : Fleet (Fin 2) :=
  (({} : Fleet (Fin 2)).step (.inject cappedOp)).get (by decide)

/-- A device pulls it. -/
def joinCap : FleetEvent (Fin 2) := .cycle 1 (fleetCycle "b" {} [cappedOp] [cappedOp])

/-- The fleet with a device at the cap. -/
def capJoined : Fleet (Fin 2) := (capInjected.step joinCap).get (by decide +kernel)

/-- The device edits two files. -/
def editAboveCap : FleetEvent (Fin 2) :=
  .cycle 1 (fleetCycle "b" (namedFiles ["e", "f"]) [cappedOp] [])

/-- The fleet with its edits. -/
def capEdited : Fleet (Fin 2) := (capJoined.step editAboveCap).get (by decide +kernel)

private theorem step_capInjected :
    ({} : Fleet (Fin 2)).step (.inject cappedOp) = some capInjected := Runs.possible (by decide)

private theorem step_capJoined : capInjected.step joinCap = some capJoined :=
  Runs.possible (by decide)

private theorem step_capEdited : capJoined.step editAboveCap = some capEdited :=
  Runs.possible (by decide)

private theorem possible_joinCap : capInjected.Possible joinCap := by
  intro op hop
  exact .inl (by revert op; decide)

private theorem possible_editAboveCap : capJoined.Possible editAboveCap := by
  intro op hop
  exact .inl (by revert op; decide)

/-- The edits of a device at the cap outrank what it held. -/
theorem edits_outrank_at_cap : capEdited.edits.length = 2 ∧ ∀ e ∈ capEdited.edits, Outranks e := by
  refine ⟨by decide +kernel, edits_outrank <|
    .head ⟨.inject cappedOp, trivial, trivial, step_capInjected⟩ <|
    .head ⟨_, possible_joinCap, ?_, step_capJoined⟩ <|
    .single ⟨_, possible_editAboveCap, ?_, step_capEdited⟩⟩
  · intro hjoin
    exact absurd hjoin (by decide +kernel)
  · intro _
    exact ⟨by decide +kernel, by decide +kernel⟩

/-- What another device pulls. -/
def overCap : List Op := cappedOp :: (capEdited.sessions 1).own

/-- The fleet with a second device that has pulled it. -/
def capPulled : Fleet (Fin 2) :=
  (capEdited.step (.cycle 0 (fleetCycle "a" {} overCap overCap))).get (by decide +kernel)

private theorem possible_overCap (s : Fleet (Fin 2)) {folder : Folder} {pulled : List Op}
    (h : cappedOp ∈ s.injected ∧ ∀ op ∈ (capEdited.sessions 1).own, op ∈ (s.sessions 1).own) :
    s.Possible (.cycle 0 (fleetCycle "a" folder overCap pulled)) := by
  intro op hop
  rcases List.mem_cons.mp hop with rfl | hop
  · exact .inl h.1
  · exact .inr ⟨1, by decide, h.2 op hop⟩

/-- Another device holds the edits of the first and not its clock. -/
theorem edit_below_cap : ¬ ∀ s : Fleet (Fin 2), Relation.ReflTransGen Fleet.Next {} s →
    ∀ e ∈ s.edits, Outranks e := by
  intro h
  have hpull : capEdited.step (.cycle 0 (fleetCycle "a" {} overCap overCap)) = some capPulled :=
    Runs.possible (by decide +kernel)
  have hedit : capPulled.step (.cycle 0 (fleetCycle "a" (namedFiles ["f"]) overCap []))
      = some _ := Runs.possible (by decide +kernel)
  have hall := h _ <|
    .head ⟨.inject cappedOp, trivial, step_capInjected⟩ <|
    .head ⟨_, possible_joinCap, step_capJoined⟩ <|
    .head ⟨_, possible_editAboveCap, step_capEdited⟩ <|
    .head ⟨_, possible_overCap capEdited (by decide +kernel), hpull⟩ <|
    .single ⟨_, possible_overCap capPulled (by decide +kernel), hedit⟩
  exact absurd (fun e he => (hall e he).1) (by decide +kernel)

end Beardrive
