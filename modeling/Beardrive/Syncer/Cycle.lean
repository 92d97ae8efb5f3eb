import Beardrive.Lib.Runs
import Beardrive.Syncer.Conflict
import Mathlib.Data.List.Dedup

/-!
# The ops of a cycle

A cycle appends to the journal of its device at four places: what the scan found, what the conflict
step merged and copied, what a peer withdrew and this device stands behind, and, when it is asked
to prune, the deletes of what the shared rules exclude. A device that joins a project journals what
it scanned behind the pull, so that it knows which paths the project holds; its ops on those are
put at the bottom of the order.

Each append is durable by itself, and the clock and the count of pushed ops are saved at the end, so
a cycle that is killed, refused or cut short leaves some of the appends and none of the rest.

## Main definitions

* `adopt`, `pruneOps` — the op of a joining device, and of a pruning one
* `Session`, `Cycle` — what a device keeps between cycles, and what one cycle meets
* `Cycle.appended`, `Session.step` — the ops a cycle journals, and the state it leaves

## Main results

* `cycleMint_of_mem` — where an op of a cycle comes from
-/

namespace Beardrive

/-! ### Adopting -/

/-- Step 1b: an op of a joining device on a path the project holds loses to all of the project's
ops. A mount that joins a volume drops an op that says what the project says, and the rest is
numbered anew. -/
def adopt (mountJoining : Bool) (candidates : List Op) (base : ℤ) (ops : List Op) : List Op :=
  if candidates = [] then ops
  else
    let kept := ops.filterMap fun op =>
      match greatest less (fun o => o.path == op.path) candidates with
      | some t =>
        if t.kind = .put then
          if mountJoining ∧ op.kind = .put ∧ op.blob = t.blob ∧ op.link = t.link then none
          else some { op with lamport := 0, note := adoptNote }
        else some op
      | none => some op
    if mountJoining then (kept.zipIdx 1).map fun e => { e.1 with seq := base + e.2 } else kept

/-- An op and what adopting makes of it. -/
inductive Adopts (o : Op) : Op → Prop
  | kept (seq : ℤ) : Adopts o { o with seq }
  | demoted (seq : ℤ) : Adopts o { o with seq, lamport := 0, note := adoptNote }

theorem exists_of_mem_adopt {mountJoining : Bool} {candidates : List Op} {base : ℤ} {ops : List Op}
    {op : Op} (h : op ∈ adopt mountJoining candidates base ops) : ∃ o ∈ ops, Adopts o op := by
  unfold adopt at h
  dsimp only at h
  split at h
  · exact ⟨op, h, .kept op.seq⟩
  have hkept {k : Op} (hk : k ∈ ops.filterMap fun op =>
      match greatest less (fun o => o.path == op.path) candidates with
      | some t =>
        if t.kind = .put then
          if mountJoining ∧ op.kind = .put ∧ op.blob = t.blob ∧ op.link = t.link then none
          else some { op with lamport := 0, note := adoptNote }
        else some op
      | none => some op) (seq : ℤ) : ∃ o ∈ ops, Adopts o { k with seq } := by
    obtain ⟨o, ho, hk⟩ := List.mem_filterMap.mp hk
    refine ⟨o, ho, ?_⟩
    cases hg : greatest less (fun t => t.path == o.path) candidates with
    | none =>
      rw [hg] at hk
      exact Option.some.inj hk ▸ .kept seq
    | some t =>
      rw [hg] at hk
      dsimp only at hk
      split_ifs at hk
      · exact Option.some.inj hk ▸ .demoted seq
      · exact Option.some.inj hk ▸ .kept seq
  split at h
  · obtain ⟨⟨k, n⟩, hk, rfl⟩ := List.mem_map.mp h
    exact hkept (List.fst_mem_of_mem_zipIdx hk) _
  · exact hkept h op.seq

/-! ### Pruning -/

/-- The paths a prune deletes: those the project holds and the shared rules exclude, in order. -/
def prunedPaths (shared : Filter) (all : List Op) : List GoString :=
  ((all.map Op.path).dedup.filter fun rel =>
    (replay all rel).isSome && (shared.skip rel || neverSync rel)).insertionSort (· ≤ ·)

/-- The op that prunes a path. -/
def pruneOp (rel : GoString) : Op :=
  { kind := .delete, path := rel, note := ascii "pruned: excluded by .bdriveignore" }

/-- `pruneOps`: rules that re-include anything prune nothing. -/
def pruneOps (shared : Filter) (stamp : Stamp) (now : GoString → Time) (all : List Op) (s : Tally) :
    Tally :=
  if shared.negated then s
  else (prunedPaths shared all).foldl (fun s rel => s.mint stamp (now rel) (pruneOp rel)) s

theorem mem_prunedPaths {shared : Filter} {all : List Op} {rel : GoString} :
    rel ∈ prunedPaths shared all ↔
      (replay all rel).isSome ∧ (shared.skip rel = true ∨ neverSync rel = true) := by
  rw [prunedPaths, List.mem_insertionSort, List.mem_filter, List.mem_dedup, List.mem_map,
    Bool.and_eq_true, Bool.or_eq_true]
  refine ⟨fun h => h.2, fun h => ⟨?_, h⟩⟩
  by_contra hnone
  rw [replay_eq_none fun op hop hp => hnone ⟨op, hop, hp⟩] at h
  cases h.1

/-! ### Cycles -/

/-- What a device keeps between cycles: its journal, how many of its ops are pushed, its clock, the
ops of its peers, and its scope. -/
structure Session where
  own : List Op := []
  pushed : ℕ := 0
  lamport : ℤ := 0
  peers : List Op := []
  scope : SavedScope := {}

/-- All ops a device has. -/
def Session.ops (s : Session) : List Op := s.own ++ s.peers

/-- The clock a scan starts from. -/
def Session.clock (s : Session) : ℤ := rederive s.lamport s.ops

/-- What one cycle meets: the folder with its rules and its cache, the answer to the request for
the scope, what the pull leaves and returns, and how far the cycle gets. -/
structure Cycle where
  scan : ScanEnv
  cache : Cache := ∅
  blobs : Blobs := fun _ => none
  answer : ScopeAnswer := .unreachable
  /-- The mount has no cache, so that it joins what the volume holds. -/
  fresh : Bool := false
  peers : List Op := []
  pulled : List Op := []
  gone : List Op := []
  fetched : Blobs := fun _ => none
  now : GoString → Time := fun _ => {}
  prune : Bool := false
  shared : Filter := {}
  /-- How many of the four appends are made. -/
  appends : ℕ := 4
  /-- The journal is pushed. -/
  pushes : Bool := false
  /-- The state is saved. -/
  finishes : Bool := true

namespace Cycle

variable (c : Cycle) (s : Session)

/-- `loadScope`, of this cycle. -/
def scope : SavedScope × Bool := loadScope s.scope c.answer

/-- A mount that is new to a volume which is not. -/
def mountJoining : Bool := c.fresh && (0 < s.lamport || 0 < s.pushed || s.ops != [])

/-- Whether what the scan finds was there before the project was. -/
def joining : Bool := (s.lamport == 0 && s.pushed == 0) || c.mountJoining s

/-- What the scan is given. -/
def scanEnv : ScanEnv :=
  { c.scan with
    scope := (c.scope s).1.scope
    hint := if c.joining s || (c.scope s).2 || c.prune then {} else c.scan.hint }

/-- The scan. -/
def scanned : ScanState :=
  (c.scanEnv s).scan (.start c.cache (s.clock) s.own.length c.blobs)

/-- The ops of the scan, as they are journaled. -/
def localOps : List Op :=
  if c.joining s then
    adopt (c.mountJoining s) (c.pulled ++ if c.mountJoining s then s.own ++ c.peers else [])
      s.own.length (c.scanned s).ops
  else (c.scanned s).ops

/-- The journal behind the scan. -/
def committed : List Op := s.own ++ c.localOps s

/-- What the conflict step goes by. -/
def conflictEnv : ConflictEnv where
  hash := c.scan.hash
  stamp := c.scan.stamp
  now := c.now
  own := c.committed s
  pushed := s.pushed
  pulled := c.pulled
  all := c.committed s ++ c.peers
  keyOrder := c.scan.keyOrder
  keyOrder_perm := c.scan.keyOrder_perm

/-- The state the conflict step starts from. -/
def conflictStart : ConflictState where
  lamport := rederive (c.scanned s).lamport c.pulled
  seq := (c.committed s).length
  blobs := fun sum => ((c.scanned s).blobs sum).or (c.fetched sum)

/-- Step 3. -/
def conflicts : ConflictState := (c.conflictEnv s).conflictCopies (c.conflictStart s)

/-- The journal behind the conflict step. -/
def preserved : List Op := c.committed s ++ (c.conflicts s).ops

/-- What restating goes by. -/
def reassertEnv : ReassertEnv where
  device :=
    { id := c.scan.stamp.device, name := c.scan.stamp.deviceName, author := c.scan.stamp.author }
  filter := c.scan.filter
  blobs := (c.conflicts s).blobs
  cache := (c.scanned s).cache

/-- Step 3b. -/
def reasserted : List Op := (c.reassertEnv s).reassert (c.preserved s).length c.gone

/-- The journal behind the restatements. -/
def restated : List Op := c.preserved s ++ c.reasserted s

/-- Step 4b. -/
def pruned : Tally :=
  let start : Tally := { lamport := (c.conflicts s).lamport, seq := (c.restated s).length }
  if c.prune then pruneOps c.shared c.scan.stamp c.now (c.restated s ++ c.peers) start else start

/-- The ops the cycle journals. -/
def appended : List Op :=
  ([c.localOps s, (c.conflicts s).ops, c.reasserted s, (c.pruned s).ops].take c.appends).flatten

end Cycle

/-- What a cycle leaves. What the pull returns is in the peers' journals, and what was withdrawn
was; a scope that has moved makes the device forget them first, so that nothing is. -/
def Session.step (s : Session) (c : Cycle) : Option Session :=
  if (∀ op ∈ c.pulled, op ∈ c.peers) ∧ ∀ op ∈ c.gone, (c.scope s).2 = false ∧ op ∈ s.peers then
    some
      { own := s.own ++ c.appended s
        pushed := if c.pushes then (s.own ++ c.appended s).length else s.pushed
        lamport := if c.finishes then (c.pruned s).lamport else s.lamport
        peers := c.peers
        scope := if c.finishes then (c.scope s).1 else s.scope }
  else none

/-- What a cycle leaves behind is decided by what it met. -/
theorem Session.step_eq_some {s s' : Session} {c : Cycle} (h : s.step c = some s') :
    (∀ op ∈ c.pulled, op ∈ c.peers) ∧ (∀ op ∈ c.gone, (c.scope s).2 = false ∧ op ∈ s.peers) ∧
      s'.own = s.own ++ c.appended s ∧ s'.peers = c.peers ∧
        s'.lamport = (if c.finishes then (c.pruned s).lamport else s.lamport) ∧
          s'.scope = if c.finishes then (c.scope s).1 else s.scope := by
  unfold Session.step at h
  split at h
  · rename_i hpull
    obtain rfl := Option.some.inj h
    exact ⟨hpull.1, hpull.2, rfl, rfl, rfl, rfl⟩
  · cases h

/-! ### Where an op comes from -/

/-- An op of a cycle, by the step that minted it. -/
inductive CycleMint (c : Cycle) (s : Session) (op : Op) : Prop
  | scanned (o : Op) (made : 0 < c.appends) (scanned : ScanMint (c.scanEnv s) (s.clock) o)
      (adopts : Adopts o op)
  | conflict (p : GoString) (t : ConflictState) (made : 1 < c.appends)
      (reached : (c.conflictEnv s).At (c.conflictStart s) p t)
      (minted : ConflictMint (c.conflictEnv s) t p op)
  | restated (o : Op) (seq : ℤ) (made : 2 < c.appends) (gone : o ∈ c.gone)
      (held : (c.reassertEnv s).standsBehind o = true)
      (eq : op = restate (c.reassertEnv s).device seq o)
  | pruned (rel : GoString) (t : Tally) (made : 3 < c.appends) (prune : c.prune = true)
      (plain : c.shared.negated = false)
      (excluded : rel ∈ prunedPaths c.shared (c.restated s ++ c.peers))
      (eq : op = t.nextOp c.scan.stamp (c.now rel) (pruneOp rel))

theorem exists_of_mem_pruneOps {shared : Filter} {stamp : Stamp} {now : GoString → Time}
    {all : List Op} {t : Tally} {op : Op} (h : op ∈ (pruneOps shared stamp now all t).ops) :
    op ∈ t.ops ∨ shared.negated = false ∧ ∃ rel ∈ prunedPaths shared all, ∃ t' : Tally,
      op = t'.nextOp stamp (now rel) (pruneOp rel) := by
  unfold pruneOps at h
  split at h
  · exact .inl h
  · rename_i hneg
    rw [Bool.not_eq_true] at hneg
    refine (?_ : op ∈ t.ops ∨ _).imp_right fun h => ⟨hneg, h⟩
    generalize prunedPaths shared all = rels at h ⊢
    induction rels using List.reverseRecOn with
    | nil => exact .inl h
    | append_singleton rels rel ih =>
      rw [List.foldl_append, List.foldl_cons, List.foldl_nil, Tally.ops_mint, List.mem_append,
        List.mem_singleton] at h
      rcases h with h | rfl
      · exact (ih h).imp_right fun ⟨r, hr, hop⟩ => ⟨r, List.mem_append_left _ hr, hop⟩
      · exact .inr ⟨rel, by simp, _, rfl⟩

theorem mem_appended_iff {c : Cycle} {s : Session} {op : Op} :
    op ∈ c.appended s ↔ (0 < c.appends ∧ op ∈ c.localOps s) ∨
      (1 < c.appends ∧ op ∈ (c.conflicts s).ops) ∨ (2 < c.appends ∧ op ∈ c.reasserted s) ∨
        (3 < c.appends ∧ op ∈ (c.pruned s).ops) := by
  unfold Cycle.appended
  rcases c.appends with _ | _ | _ | _ | n <;> simp

/-- A pruned path has an op. -/
theorem exists_mem_pruneOps {shared : Filter} {stamp : Stamp} {now : GoString → Time}
    {all : List Op} (t : Tally) {rel : GoString} (h : rel ∈ prunedPaths shared all)
    (hplain : shared.negated = false) : ∃ t' : Tally,
      t'.nextOp stamp (now rel) (pruneOp rel) ∈ (pruneOps shared stamp now all t).ops := by
  rw [pruneOps, if_neg (by rw [hplain]; simp)]
  generalize prunedPaths shared all = rels at h ⊢
  induction rels using List.reverseRecOn with
  | nil => cases h
  | append_singleton rels r ih =>
    rw [List.foldl_append, List.foldl_cons, List.foldl_nil, Tally.ops_mint]
    rcases List.mem_append.mp h with h | h
    · obtain ⟨t', ht'⟩ := ih h
      exact ⟨t', List.mem_append_left _ ht'⟩
    · obtain rfl := List.mem_singleton.mp h
      exact ⟨_, List.mem_append_right _ (List.mem_singleton_self _)⟩

/-- What the scan of a cycle leaves to journal is what it minted, adopted or not. -/
theorem scanned_of_mem_localOps {c : Cycle} {s : Session} {op : Op} (h : op ∈ c.localOps s) :
    ∃ o, ScanMint (c.scanEnv s) s.clock o ∧ Adopts o op := by
  rw [Cycle.localOps] at h
  split at h
  · obtain ⟨o, ho, hadopts⟩ := exists_of_mem_adopt h
    exact ⟨o, scanMint_of_mem ho, hadopts⟩
  · exact ⟨op, scanMint_of_mem h, .kept op.seq⟩

/-- A path that is pruned has an op in the cycle. -/
theorem exists_mem_pruned {c : Cycle} {s : Session} (hprune : c.prune = true)
    (hplain : c.shared.negated = false) {rel : GoString}
    (h : rel ∈ prunedPaths c.shared (c.restated s ++ c.peers)) : ∃ t : Tally,
      t.nextOp c.scan.stamp (c.now rel) (pruneOp rel) ∈ (c.pruned s).ops := by
  rw [Cycle.pruned, if_pos hprune]
  exact exists_mem_pruneOps _ h hplain

/-- **Every op of a cycle** comes from one of its four steps. -/
theorem cycleMint_of_mem {c : Cycle} {s : Session} {op : Op} (h : op ∈ c.appended s) :
    CycleMint c s op := by
  rcases mem_appended_iff.mp h with ⟨hmade, hop⟩ | ⟨hmade, hop⟩ | ⟨hmade, hop⟩ | ⟨hmade, hop⟩
  · obtain ⟨o, hmint, hadopts⟩ := scanned_of_mem_localOps hop
    exact .scanned o hmade hmint hadopts
  · rcases mem_conflictCopies hop with hold | ⟨p, t, hat, hmint⟩
    · cases hold
    · exact .conflict p t hmade hat hmint
  · obtain ⟨o, ho, hheld, seq, rfl⟩ := eq_restate_of_mem hop
    exact .restated o seq hmade ho hheld rfl
  · rw [Cycle.pruned] at hop
    split at hop
    · rename_i hprune
      rcases exists_of_mem_pruneOps hop with hold | ⟨hplain, rel, hrel, t, heq⟩
      · cases hold
      · exact .pruned rel t hmade hprune hplain hrel heq
    · cases hop

end Beardrive
