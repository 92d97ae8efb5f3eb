import Beardrive.Syncer.Cycle

/-!
# Ops under a folder the account may not write

The hub answers for the whole journal, and refuses it for one op under a folder the account may not
write. The scan asks for every path before it mints an op. A copy stands in the directory of its
file, so it is under such a folder exactly when the file is, and a file that is was edited before
the folder became one.

Restating and pruning do not ask. And a copy that was made after the folder became restricted may
lose in its turn.

## Main definitions

* `ScopedSession` — a session that remembers under which scope each op was journaled
* `Cycle.Respects`, `Cycle.Confined` — what a cycle is to journal, and what it may meet

## Main results

* `readOnlyPath_conflictName` — a copy is restricted where its file is
* `restricted_kept` — over confined cycles, what is journaled under a restricted folder is a copy
  or a merge of what had been journaled before
-/

namespace Beardrive

/-- A session with its journal, each op beside the scope of the cycle that journaled it. -/
structure ScopedSession where
  session : Session := {}
  journaled : List (Op × WriteScope) := []

/-- The scope of a cycle. -/
def ScopedSession.writeScope (s : ScopedSession) (c : Cycle) : WriteScope :=
  (c.scope s.session).1.scope

/-- A cycle. -/
def ScopedSession.step (s : ScopedSession) (c : Cycle) : Option ScopedSession :=
  (s.session.step c).map fun t =>
    { session := t
      journaled := s.journaled ++ (c.appended s.session).map fun op => (op, s.writeScope c) }

/-- An op that was journaled under a scope that had a path open. -/
def ScopedSession.Preceded (s : ScopedSession) (mine : Op) (p : GoString) : Prop :=
  ∃ scope, (mine, scope) ∈ s.journaled ∧ scope.readOnlyPath p = false

/-- An op that merges or copies an edit of the device that has not been pushed. -/
def Cycle.Preserves (c : Cycle) (s : Session) (mine op : Op) : Prop :=
  ∃ p t, (c.conflictEnv s).At (c.conflictStart s) p t ∧
    (unpushedEdits (c.committed s) s.pushed).lookup p = some mine ∧
      ConflictMint (c.conflictEnv s) t p op

/-- What a cycle journals under a restricted folder merges or copies an edit that was journaled
before the folder was. -/
def Cycle.Respects (c : Cycle) (s : ScopedSession) : Prop :=
  ∀ op ∈ c.appended s.session, (s.writeScope c).readOnlyPath op.path = true →
    ∃ mine, c.Preserves s.session mine op ∧ s.Preceded mine op.path

/-- What a cycle may meet: nothing it would restate or prune is under a restricted folder, and no
edit that loses there was journaled behind the restriction. -/
structure Cycle.Confined (c : Cycle) (s : ScopedSession) : Prop where
  restated : 2 < c.appends → ∀ o ∈ c.gone, (c.reassertEnv s.session).standsBehind o = true →
    (s.writeScope c).readOnlyPath o.path = false
  pruned : 3 < c.appends → c.prune = true → c.shared.negated = false →
    ∀ rel, (replay (c.restated s.session ++ c.peers) rel).isSome →
      c.shared.skip rel = true ∨ neverSync rel = true → (s.writeScope c).readOnlyPath rel = false
  preserved : 1 < c.appends → ∀ p t mine,
    (c.conflictEnv s.session).At (c.conflictStart s.session) p t →
      (c.conflictEnv s.session).outcome t.blobs p ≠ .settled →
        (unpushedEdits (c.committed s.session) s.session.pushed).lookup p = some mine →
          mine ∈ s.session.own → (s.writeScope c).readOnlyPath p = true → s.Preceded mine p

/-! ### A copy is restricted where its file is -/

/-- **A copy is restricted exactly where its file is**, under a scope the hub answered. -/
theorem readOnlyPath_conflictName {scope : WriteScope} (h : scope.Sane) (p deviceName : GoString)
    (t : Time) : scope.readOnlyPath (conflictName p deviceName t) = scope.readOnlyPath p := by
  obtain ⟨hp, hslash⟩ := splitDir_append p
  rw [Bool.eq_iff_iff, WriteScope.readOnlyPath_iff, WriteScope.readOnlyPath_iff]
  refine exists_congr fun pre => and_congr_right fun hpre => ?_
  obtain ⟨folder, rfl, -⟩ := h pre hpre
  rw [conflictName_eq, folder_prefix_iff p folder (slash_notMem_copyName hslash deviceName t)]
  nth_rewrite 2 [← hp]
  exact (folder_prefix_iff p folder hslash).symm

/-- The path of a merge or a copy is restricted where the edit is. -/
theorem ConflictMint.readOnlyPath {env : ConflictEnv} {t : ConflictState} {p : GoString} {op : Op}
    (h : ConflictMint env t p op) {scope : WriteScope} (hsane : scope.Sane) :
    scope.readOnlyPath op.path = scope.readOnlyPath p := by
  cases h with
  | merged mine blob _ => rfl
  | copied loser _ => exact readOnlyPath_conflictName hsane p _ _

theorem ConflictMint.outcome_ne {env : ConflictEnv} {t : ConflictState} {p : GoString} {op : Op}
    (h : ConflictMint env t p op) : env.outcome t.blobs p ≠ .settled := by
  cases h with
  | merged mine blob h => simp [h]
  | copied loser h => simp [h]

theorem Adopts.path {o op : Op} (h : Adopts o op) : op.path = o.path := by
  cases h <;> rfl

/-! ### Every cycle -/

/-- What holds of every session: the journal is the session's, and every scope came from the hub. -/
structure ScopedSession.Sound (s : ScopedSession) : Prop where
  own : s.journaled.map Prod.fst = s.session.own
  sane : ∀ e ∈ s.journaled, e.2.Sane
  saved : s.session.scope.scope.Sane

theorem ScopedSession.sound_init : ({} : ScopedSession).Sound where
  own := rfl
  sane := by simp
  saved := by simp [WriteScope.Sane]

theorem ScopedSession.Sound.writeScope {s : ScopedSession} (h : s.Sound) (c : Cycle) :
    (s.writeScope c).Sane := loadScope_sane h.saved c.answer

theorem ScopedSession.Sound.step {s s' : ScopedSession} (h : s.Sound) {c : Cycle}
    (hstep : s.step c = some s') : s'.Sound := by
  obtain ⟨t, ht, rfl⟩ := Option.map_eq_some_iff.mp hstep
  obtain ⟨-, -, hown, -, -, hscope⟩ := Session.step_eq_some ht
  refine ⟨?_, ?_, ?_⟩
  · rw [List.map_append, h.own, List.map_map, hown]
    exact congrArg (s.session.own ++ ·) (List.map_id _)
  · intro e he
    rcases List.mem_append.mp he with he | he
    · exact h.sane e he
    · obtain ⟨op, -, rfl⟩ := List.mem_map.mp he
      exact h.writeScope c
  · rw [hscope]
    split
    · exact h.writeScope c
    · exact h.saved

/-- **One confined cycle** journals under a restricted folder nothing but what preserves an edit
that had been journaled before. -/
theorem respects_of_confined {s : ScopedSession} (h : s.Sound) {c : Cycle} (hc : c.Confined s) :
    c.Respects s := by
  intro op hop hro
  have hscope : (c.scanEnv s.session).scope = s.writeScope c := rfl
  cases cycleMint_of_mem hop with
  | scanned o made scanned adopts =>
    have hopen := scanned.writable
    rw [hscope, ← adopts.path, hro] at hopen
    cases hopen
  | conflict p t made reached minted =>
    have hsane := h.writeScope c
    rw [minted.readOnlyPath hsane] at hro
    obtain ⟨mine, hmine⟩ := ConflictEnv.edit_of_outcome minted.outcome_ne
    obtain ⟨hmem, hpath, -⟩ := mem_of_unpushedEdits hmine
    refine ⟨mine, ⟨p, t, reached, hmine, minted⟩, ?_⟩
    rcases List.mem_append.mp (List.mem_of_mem_drop hmem) with hown | hlocal
    · obtain ⟨scope, hold, hopen⟩ :=
        hc.preserved made p t mine reached minted.outcome_ne hmine hown hro
      exact ⟨scope, hold, (minted.readOnlyPath (h.sane _ hold)).trans hopen⟩
    · -- the scan of this very cycle asks first
      obtain ⟨o, hscan, hadopts⟩ := scanned_of_mem_localOps hlocal
      have hopen := hscan.writable
      rw [hscope, ← hadopts.path, hpath, hro] at hopen
      cases hopen
  | restated o seq made gone held eq =>
    rw [eq, restate_path, hc.restated made o gone held] at hro
    cases hro
  | pruned rel t made prune plain excluded eq =>
    obtain ⟨hrel, hexcluded⟩ := mem_prunedPaths.mp excluded
    have hopen := hc.pruned made prune plain rel hrel hexcluded
    rw [eq] at hro
    exact absurd (hopen.symm.trans hro) (by decide)

/-- A confined cycle. -/
def ScopedSession.ConfinedNext (s s' : ScopedSession) : Prop :=
  ∃ c : Cycle, c.Confined s ∧ s.step c = some s'

/-- **Over confined cycles, what a device journals under a folder its account may not write, by the
scope of that cycle, is a copy or a merge of an edit it had journaled before the folder was
restricted.** -/
theorem restricted_kept {s : ScopedSession} {c : Cycle}
    (h : Relation.ReflTransGen ScopedSession.ConfinedNext {} s) (hc : c.Confined s) :
    c.Respects s := by
  refine respects_of_confined ?_ hc
  exact Runs.invariant h (fun _ _ hs ⟨_, _, hstep⟩ => hs.step hstep) ScopedSession.sound_init

/-- A cycle that restates and prunes nothing, in a journal written before there were any
restrictions. -/
theorem confined_of_open {s : ScopedSession} {c : Cycle} (hgone : c.gone = [])
    (hprune : c.prune = false) (hopen : ∀ mine ∈ s.session.own, (mine, {}) ∈ s.journaled) :
    c.Confined s where
  restated _ o ho := by
    rw [hgone] at ho
    cases ho
  pruned _ h := absurd (h.symm.trans hprune) (by decide)
  preserved _ _ _ mine _ _ _ hmine _ := ⟨{}, hopen mine hmine, rfl⟩

/-- A device joins a project of one file, in a folder it may still write. -/
def joinFolder : Cycle where
  scan := { hash := spelledHash, folder := {}, filter := {}, stamp := { device := ascii "d" } }
  peers := [peerOp 1 "ro/a"]
  pulled := [peerOp 1 "ro/a"]

/-- It edits another file there. -/
def editFolder : Cycle where
  scan :=
    { hash := spelledHash, filter := {}, stamp := { device := ascii "d" }
      folder := { entries := [(ascii "ro", .dir true [(ascii "f", .file {} (ascii "y") true)])] } }
  peers := [peerOp 1 "ro/a"]

/-- The hub restricts the folder, and a peer's version of the edited file arrives. -/
def restrictFolder : Cycle where
  scan :=
    { hash := spelledHash, filter := {}, stamp := { device := ascii "d" }
      folder := { entries := [(ascii "ro", .dir true [(ascii "f", .file {} (ascii "y") true)])] } }
  blobs := Blobs.put (fun _ => none) spelledHash (ascii "y")
  answer := .lists [ascii "ro/"] [] (ascii "t")
  peers := [peerOp 1 "ro/a", peerOp 5 "ro/f"]
  pulled := [peerOp 1 "ro/a", peerOp 5 "ro/f"]

/-- A peer withdraws the file that was there first. -/
def withdrawFolder : Cycle where
  scan :=
    { hash := spelledHash, filter := {}, stamp := { device := ascii "d" }
      folder := { entries := [(ascii "ro", .dir true [(ascii "a", .file {} (ascii "x") true)])] } }
  cache := AList.singleton (ascii "ro/a") { blob := List.replicate 64 0x61, size := 1 }
  blobs := fun sum => if sum = List.replicate 64 0x61 then some (ascii "x") else none
  answer := .lists [ascii "ro/"] [] (ascii "t")
  peers := [peerOp 2 "b", peerOp 3 "c"]
  pulled := [peerOp 2 "b", peerOp 3 "c"]
  gone := [peerOp 1 "ro/a"]

/-- The session behind the first cycle. -/
def folderJoined : ScopedSession := (({} : ScopedSession).step joinFolder).get (by decide)

private theorem step_joinFolder : ({} : ScopedSession).step joinFolder = some folderJoined :=
  Runs.possible (by decide)

/-- An edit that was journaled before the restriction is copied behind it. -/
theorem restricted_kept_copied : ∃ s : ScopedSession, restrictFolder.Respects s ∧
    ∃ op ∈ restrictFolder.appended s.session,
      (s.writeScope restrictFolder).readOnlyPath op.path = true := by
  have hedit : folderJoined.step editFolder = some _ := Runs.possible (by decide +kernel)
  refine ⟨_, restricted_kept (.head ⟨joinFolder, ?_, step_joinFolder⟩ <|
    .single ⟨editFolder, ?_, hedit⟩) ?_, ?_⟩
  · exact confined_of_open rfl rfl (by decide)
  · exact confined_of_open rfl rfl (by decide +kernel)
  · exact confined_of_open rfl rfl (by decide +kernel)
  · decide +kernel

/-- What a peer withdraws from a restricted folder is restated there. -/
theorem restated_restricted : ¬ ∀ (s : ScopedSession) (c : Cycle),
    Relation.ReflTransGen (fun s s' => ∃ c, s.step c = some s') ({} : ScopedSession) s →
      (∃ s', s.step c = some s') → c.Respects s := by
  intro h
  let c : Cycle := { withdrawFolder with
    peers := [peerOp 1 "ro/a"], pulled := [peerOp 1 "ro/a"], gone := [] }
  let s : ScopedSession := (folderJoined.step c).get (by decide +kernel)
  have hscope : folderJoined.step c = some s := Runs.possible (by decide +kernel)
  have hrespects := h s withdrawFolder (.head ⟨joinFolder, step_joinFolder⟩ <|
    .single ⟨c, hscope⟩) ⟨_, Runs.possible (by decide +kernel)⟩
  obtain ⟨op, hop, hro⟩ : ∃ op ∈ withdrawFolder.appended s.session,
      (s.writeScope withdrawFolder).readOnlyPath op.path = true := by decide +kernel
  obtain ⟨mine, -, scope, hmem, -⟩ := hrespects op hop hro
  have hnone : s.journaled = [] := by decide +kernel
  rw [hnone] at hmem
  cases hmem

end Beardrive
