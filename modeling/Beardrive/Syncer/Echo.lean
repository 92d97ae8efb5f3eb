import Beardrive.Journal.Replace
import Beardrive.Syncer.Cycle
import Beardrive.Syncer.MaterializePath
import Beardrive.Syncer.ScanHinted

/-!
# A device and its own echo

What a device scanned comes back to it: the op is in its own journal, and materializing finds it
as the winner of its path. The file is left alone as long as the cache says of it what the op says.
But the op and the cache have the permissions of the file as the scan found them, and they are
compared with those permissions as materializing would apply them, without the write bits of
everyone but the owner. So a file others may write is rewritten by the very cycle that journals it,
and so is one whose permissions have changed since while its content has not: its op keeps the old
permissions and its entry has the new.

## Main definitions

* `Landing`, `FolderCycle` — a cycle over a folder, with what materializing meets
* `FolderCycle.Echo` — a path whose winning op is the device's own, of what stands there
* `FolderCycle.EchoFree` — nothing is done at such a path, nor is anything minted again
* `FolderCycle.Spares` — what that takes of the entry the scan leaves

## Main results

* `scan_lookup` — the entry a scan leaves
* `echoFree_iff` — a cycle is free of echo exactly when it spares each such path
-/

namespace Beardrive

/-! ### The entry a scan leaves -/

open Classical in
/-- What a scan makes of the entry of a path this account may write: it is settled where the path
is seen, and gone where the path is taken for removed. -/
noncomputable def ScanEnv.entryAt (env : ScanEnv) (cache : Cache) (rel : GoString) :
    Option CachedFile :=
  if env.Sees rel then
    match env.folder.lookup rel with
    | some node => (env.outcome rel (cache.lookup rel) node).1
    | none => cache.lookup rel
  else if rel ∈ cache ∧ ¬ env.Blocked rel ∧ env.hint.inScope rel = true then none
  else cache.lookup rel

/-- A visit of a path is a visit of what stands there. -/
theorem lookup_of_sees {env : ScanEnv} {names : List GoString} {node : Node} {v : Verdict}
    (h : .visit names node v ∈ walkFolder env.filter env.folder env.hint.roots) :
    env.folder.lookup (joinSlash names) = some node := by
  have hlook := lookup_of_visit_mem_walkFolder h
  rw [Folder.lookup, segments_of_lookupEntries env.folder.wellFormed hlook, hlook]

/-- **The entry a scan leaves**, where this account may write. -/
theorem scan_lookup {env : ScanEnv} {cache : Cache} {lamport seq : ℤ} {blobs : Blobs}
    {rel : GoString} (hwrite : env.scope.readOnlyPath rel = false) :
    (env.scan (.start cache lamport seq blobs)).cache.lookup rel = env.entryAt cache rel := by
  have hsnd (s : ScanState) : s.cache.lookup rel = (s.resultAt rel).2 := rfl
  rw [hsnd, ScanEnv.entryAt]
  by_cases hsees : env.Sees rel
  · rw [if_pos hsees]
    obtain ⟨names, node, v, hvisit, hv, rfl⟩ := hsees
    rw [scan_resultAt_of_visit hvisit hv, if_neg (by simp [hwrite]), lookup_of_sees hvisit]
    rfl
  · rw [if_neg hsees]
    split
    · rename_i hgone
      rw [scan_resultAt_of_forgotten hsees hgone.1 hgone.2.1 hgone.2.2 hwrite]
      rfl
    · rename_i hkept
      rw [scan_resultAt_of_kept hsees (fun h => hkept ⟨h.1, h.2.1, h.2.2.1⟩)]

/-! ### A cycle over a folder -/

/-- What a cycle materializes with, besides the ops it goes by. The rules file may be materialized
before the scan, and it is again before everything else. -/
structure Landing where
  session : Session
  cycle : Cycle
  disk : Disk
  cache : Cache := ∅
  earlyScope : WriteScope := {}
  earlySystem : FileSystem := {}
  lateSystem : FileSystem := {}
  system : FileSystem := {}
  backfilled : Blobs := fun _ => none
  /-- The rules as they are loaded again. -/
  reloaded : Filter

namespace Landing

variable (t : Landing)

/-- What the early step materializes with. -/
def earlyEnv : MaterializeEnv :=
  { t.earlySystem with
    hash := t.cycle.scan.hash, blobs := t.cycle.blobs, scope := t.earlyScope
    filter := t.cycle.scan.filter }

/-- What the late steps materialize with: the blobs of the conflict step and what was fetched
since. -/
def lateEnv (system : FileSystem) : MaterializeEnv :=
  { system with
    hash := t.cycle.scan.hash
    blobs := fun sum => ((t.cycle.conflicts t.session).blobs sum).or (t.backfilled sum)
    scope := (t.cycle.scope t.session).1.scope
    filter := t.reloaded }

/-- Whether the rules file is materialized before the scan. -/
def rulesFirst : Bool := t.cycle.mountJoining t.session || (t.cache.lookup ignoreFile).isSome

/-- The state the scan comes to. -/
def early : MaterializeState :=
  let start : MaterializeState := { disk := t.disk, cache := t.cache }
  if t.rulesFirst then
    match replay t.session.ops ignoreFile with
    | none => start
    | some want => MaterializeEnv.counted (t.earlyEnv.materializeFile start ignoreFile want) ignoreFile
  else start

/-- All ops behind the restatements. -/
def all : List Op := t.cycle.restated t.session ++ t.cycle.peers

/-- The paths this cycle prunes. -/
def prunes (rel : GoString) : Bool :=
  t.cycle.prune && !t.cycle.shared.negated && (prunedPaths t.cycle.shared t.all).contains rel

/-- The state the folder is brought to. -/
def target : State := fun rel => if t.prunes rel then none else replay t.all rel

/-- Its paths, in the order of a Go map. -/
def paths : List GoString :=
  t.cycle.scan.keyOrder ((t.all.map Op.path).dedup.filter fun rel => (t.target rel).isSome)

/-- The state behind the scan. -/
def scanned : MaterializeState := { t.early with cache := (t.cycle.scanned t.session).cache }

/-- The state behind the rules file. -/
def late : MaterializeState :=
  match replay t.all ignoreFile with
  | none => t.scanned
  | some want =>
    MaterializeEnv.counted
      ((t.lateEnv t.lateSystem).materializeFile t.scanned ignoreFile want) ignoreFile

/-- The state the cycle leaves. -/
def landed : MaterializeState :=
  (t.lateEnv t.system).materialize t.target t.paths t.cycle.scan.keyOrder t.late

end Landing

/-- A cycle over a folder: the scan meets what the early step left, and the prefixes of a scope are
those a hub may answer. -/
structure FolderCycle extends Landing where
  cached : cycle.cache = toLanding.early.cache
  stands : ∀ rel node, cycle.scan.folder.lookup rel = some node → node.isFile = true →
    toLanding.early.disk rel = some node
  sane : session.scope.scope.Sane
  earlySane : earlyScope.Sane

namespace FolderCycle

variable (t : FolderCycle)

/-- The scan of the cycle. -/
def env : ScanEnv := t.cycle.scanEnv t.session

/-- What the winning op of a path says. -/
def stateOf (w : Op) : FileState :=
  { blob := w.blob, size := w.size, mode := w.mode, link := w.link }

/-- A path this account may write, whose winning op is the device's own and is what a scan mints
for what stands there. -/
structure Echo (p : GoString) (node : Node) (w : Op) : Prop where
  writable : t.env.scope.readOnlyPath p = false
  stands : t.early.disk p = some node
  wins : lastOp t.all p = some w
  own : w ∈ t.cycle.restated t.session
  device : w.device = t.cycle.scan.stamp.device
  put : IsPutOf t.env p node w
  kept : t.prunes p = false

/-- What stands at a path is what stood there, nothing is told of it and it is not counted. -/
structure Quiet (p : GoString) : Prop where
  disk : t.landed.disk p = t.disk p
  inbound : ∀ deleted, (p, deleted) ∉ t.landed.inbound
  changed : p ∉ t.landed.changed

/-- The cycle need not write a path: by the entry the scan leaves, and for the rules file by the
one the scan finds. -/
structure Spares (p : GoString) (node : Node) (w : Op) : Prop where
  early : p = ignoreFile → t.rulesFirst = true → ∀ want, replay t.session.ops p = some want →
    t.earlyEnv.replaces p (t.disk p) (t.cache.lookup p) want = false
  late : p = ignoreFile → (t.lateEnv t.lateSystem).replaces p (some node)
    (t.env.entryAt t.cycle.cache p) (stateOf w) = false
  loop : (t.lateEnv t.system).carries p = false ∨ (t.lateEnv t.system).replaces p (some node)
    (t.env.entryAt t.cycle.cache p) (stateOf w) = false

/-- Every path of the folder and of the merged state is an echo: what is live stands as its op has
it and is not taken for removed, what the scan sees is live, and no edit is left that has not won.
Nothing is pruned. -/
structure AllEchoes : Prop where
  plain : t.cycle.prune = false
  live : ∀ p, (t.target p).isSome → t.env.scope.readOnlyPath p = false →
    (∃ node w, t.Echo p node w) ∧
      (t.env.Sees p ∨ ¬ (¬ t.env.Blocked p ∧ t.env.hint.inScope p = true))
  seen : ∀ names node v,
    .visit names node v ∈ walkFolder t.env.filter t.env.folder t.env.hint.roots →
      (v = .sync ∨ v = .symlink) → t.env.scope.readOnlyPath (joinSlash names) = false →
        ∃ w, t.Echo (joinSlash names) node w
  won : ∀ p mine, (unpushedEdits (t.cycle.restated t.session) t.session.pushed).lookup p =
    some mine → replay t.all p = mine.effect

/-- A cycle behind this one that pulls nothing, over what this one left: the scan finds the folder,
the rules, the scope and the hint it found, and the cache the first cycle saved. -/
structure Follows (s' : Session) (c' : Cycle) : Prop where
  own : s'.own = t.cycle.restated t.session
  pushed : s'.pushed = t.session.pushed ∨ s'.pushed = s'.own.length
  peers : c'.peers = t.cycle.peers
  pulled : c'.pulled = []
  gone : c'.gone = []
  plain : c'.prune = false
  cache : c'.cache = t.landed.cache
  hash : c'.scan.hash = t.cycle.scan.hash
  folder : c'.scan.folder = t.cycle.scan.folder
  filter : c'.scan.filter = t.cycle.scan.filter
  scope : (c'.scope s').1.scope = t.env.scope
  hint : (c'.scanEnv s').hint = t.env.hint

/-- **A cycle is free of echo**: it does nothing at a path whose winning op is the device's own, of
what stands there; and where all paths are of this kind, the next cycle mints nothing. -/
structure EchoFree : Prop where
  quiet : ∀ p node w, t.Echo p node w → t.Quiet p
  again : t.AllEchoes → ∀ s' c', t.Follows s' c' → c'.appended s' = []

variable {t}

/-! ### The steps at one path -/

/-- The copy of a file under a folder this account may not write is under it. -/
theorem readOnlyPath_localCopyPath {scope : WriteScope} (hsane : scope.Sane) {q : GoString}
    (h : scope.readOnlyPath q = true) : scope.readOnlyPath (localCopyPath q) = true := by
  obtain ⟨pre, hmem, hpre⟩ := WriteScope.readOnlyPath_iff.mp h
  refine WriteScope.readOnlyPath_iff.mpr ⟨pre, hmem, ?_⟩
  obtain ⟨folder, rfl, -⟩ := hsane pre hmem
  obtain ⟨hq, hslash⟩ := splitDir_append q
  rw [← hq, folder_prefix_iff q folder hslash] at hpre
  exact hpre.trans (List.prefix_append _ _)

/-- The rules file is under no folder. -/
theorem readOnlyPath_ignoreFile {scope : WriteScope} (hsane : scope.Sane) :
    scope.readOnlyPath ignoreFile = false := by
  rw [← Bool.not_eq_true, WriteScope.readOnlyPath_iff]
  rintro ⟨pre, hmem, hpre⟩
  obtain ⟨folder, rfl, -⟩ := hsane pre hmem
  exact absurd (hpre.mem (by simp : slash ∈ folder ++ [slash])) (by decide)

theorem scope_sane (t : FolderCycle) : t.env.scope.Sane := loadScope_sane t.sane _

theorem lateEnv_scope (system : FileSystem) : (t.lateEnv system).scope = t.env.scope := rfl

theorem Echo.merged {p : GoString} {node : Node} {w : Op} (h : t.Echo p node w) :
    replay t.all p = some (stateOf w) := by
  rw [replay_eq_lastOp, h.wins, Option.bind_some, Op.effect_put h.put.1]
  rfl

theorem Echo.scanned_disk {p : GoString} {node : Node} {w : Op} (h : t.Echo p node w) :
    t.scanned.disk p = some node := h.stands

theorem Echo.target {p : GoString} {node : Node} {w : Op} (h : t.Echo p node w) :
    t.target p = some (stateOf w) := by
  rw [Landing.target, h.kept, if_neg (by simp), h.merged]

theorem Echo.mem_paths {p : GoString} {node : Node} {w : Op} (h : t.Echo p node w) :
    p ∈ t.paths := by
  rw [Landing.paths, (t.cycle.scan.keyOrder_perm _).mem_iff, List.mem_filter, List.mem_dedup,
    h.target]
  obtain ⟨hmem, hpath, -⟩ := wins_of_lastOp h.wins
  exact ⟨List.mem_map.mpr ⟨w, hmem, hpath⟩, rfl⟩

/-- A link that stands as its op says is never written, whatever the cache has. -/
theorem replaces_of_link (env : MaterializeEnv) {p : GoString} {info : FileInfo}
    {target : GoString} {want : FileState} (hlink : want.link = target) (hblob : want.blob = [])
    (c : Option CachedFile) :
    env.replaces p (some (.symlink info target true)) c want = false := by
  unfold MaterializeEnv.replaces
  by_cases h : want.link = []
  · rw [if_neg (not_not.mpr h), hblob]
    simp [Blobs.has, blobSum]
  · rw [if_pos h]
    cases c <;> simp [readlink, hlink]

/-- What is undisturbed has the entry it had, or is a link. -/
theorem Echo.replaces_eq {p : GoString} {node : Node} {w : Op} (h : t.Echo p node w)
    {s s' : MaterializeState} (hdisk : s.disk p = some node)
    (hquiet : MaterializeEnv.Undisturbed p s s') (env : MaterializeEnv) :
    env.replaces p (s'.disk p) (s'.cache.lookup p) (stateOf w) =
      env.replaces p (some node) (s.cache.lookup p) (stateOf w) := by
  rw [hquiet.disk, hdisk]
  rcases hquiet.cache with hsame | ⟨info, target, hlink, -⟩
  · rw [hsame]
  · rw [hdisk] at hlink
    obtain rfl := Option.some.inj hlink
    rcases h.put.2.2 with ⟨i, content, hnode, -, -⟩ | ⟨i, tgt, hnode, hblob, htarget⟩
    · cases hnode
    · cases hnode
      rw [replaces_of_link env htarget hblob, replaces_of_link env htarget hblob]

/-! ### The cycle at one path -/

/-- The early step leaves a path undisturbed, or tells of it. -/
theorem early_cases (t : FolderCycle) (p : GoString) :
    (MaterializeEnv.Undisturbed p { disk := t.disk, cache := t.cache } t.early ∧
      (p = ignoreFile → t.rulesFirst = true → ∀ want, replay t.session.ops p = some want →
        t.earlyEnv.replaces p (t.disk p) (t.cache.lookup p) want = false)) ∨
    ((p, false) ∈ t.early.inbound ∧ p = ignoreFile ∧ t.rulesFirst = true ∧
      ∃ want, replay t.session.ops p = some want ∧
        t.earlyEnv.replaces p (t.disk p) (t.cache.lookup p) want = true) := by
  have hro : t.earlyEnv.scope.readOnlyPath ignoreFile = false :=
    readOnlyPath_ignoreFile t.earlySane
  unfold Landing.early
  dsimp only
  split
  · rename_i hfirst
    split
    · rename_i hnone
      refine .inl ⟨.refl _ _, ?_⟩
      rintro rfl - want hwant
      rw [hnone] at hwant
      cases hwant
    · rename_i want hwant
      by_cases hp : p = ignoreFile
      · subst hp
        refine (MaterializeEnv.materializeFile_self hro want).imp (fun ⟨hquiet, hleft⟩ =>
          ⟨hquiet, fun _ _ want' hwant' => ?_⟩) fun ⟨htold, hwrote⟩ =>
            ⟨htold, rfl, hfirst, want, hwant, hwrote⟩
        rw [hwant] at hwant'
        exact Option.some.inj hwant' ▸ hleft
      · refine .inl ⟨?_, fun heq => absurd heq hp⟩
        exact (((MaterializeEnv.materializeFile_cases _ _ want).untouched hp (.inl hro)).trans
          (MaterializeEnv.counted_untouched hp _)).undisturbed
  · rename_i hfirst
    exact .inl ⟨.refl _ _, fun _ h => absurd h hfirst⟩

theorem scanned_inbound (t : FolderCycle) : t.scanned.inbound = t.early.inbound := rfl

theorem scanned_lookup (t : FolderCycle) {p : GoString} (h : t.env.scope.readOnlyPath p = false) :
    t.scanned.cache.lookup p = t.env.entryAt t.cycle.cache p := scan_lookup h

/-- The rules file is left undisturbed behind the scan, or told of; no other path is touched. -/
theorem late_cases {p : GoString} {node : Node} {w : Op} (h : t.Echo p node w) :
    (MaterializeEnv.Undisturbed p t.scanned t.late ∧
      (p = ignoreFile → (t.lateEnv t.lateSystem).replaces p (some node)
        (t.env.entryAt t.cycle.cache p) (stateOf w) = false)) ∨
    ((p, false) ∈ t.late.inbound ∧ p = ignoreFile ∧
      (t.lateEnv t.lateSystem).replaces p (some node) (t.env.entryAt t.cycle.cache p)
        (stateOf w) = true) := by
  have hro : (t.lateEnv t.lateSystem).scope.readOnlyPath ignoreFile = false :=
    readOnlyPath_ignoreFile t.scope_sane
  by_cases hp : p = ignoreFile
  · subst hp
    have hself := MaterializeEnv.materializeFile_self (s := t.scanned) hro (stateOf w)
    rw [t.scanned_lookup h.writable, h.scanned_disk] at hself
    rw [Landing.late, h.merged]
    exact hself.imp (fun ⟨hquiet, hleft⟩ => ⟨hquiet, fun _ => hleft⟩) fun ⟨htold, hwrote⟩ =>
      ⟨htold, rfl, hwrote⟩
  · refine .inl ⟨?_, fun heq => absurd heq hp⟩
    rw [Landing.late]
    split
    · exact .refl _ _
    · exact (((MaterializeEnv.materializeFile_cases _ _ _).untouched hp (.inl hro)).trans
        (MaterializeEnv.counted_untouched hp _)).undisturbed

/-- The loops leave a path undisturbed, or tell of it. -/
theorem landed_cases {p : GoString} {node : Node} {w : Op} (h : t.Echo p node w) :
    (MaterializeEnv.Undisturbed p t.late t.landed ∧ ((t.lateEnv t.system).carries p = false ∨
      (t.lateEnv t.system).replaces p (t.late.disk p) (t.late.cache.lookup p)
        (stateOf w) = false)) ∨
    ((p, false) ∈ t.landed.inbound ∧ (t.lateEnv t.system).carries p = true ∧
      (t.lateEnv t.system).replaces p (t.late.disk p) (t.late.cache.lookup p)
        (stateOf w) = true) := by
  refine MaterializeEnv.materialize_self _ ?_ h.mem_paths h.target h.writable fun q hq => ?_
  · refine (t.cycle.scan.keyOrder_perm _).nodup_iff.mpr ?_
    exact (List.nodup_dedup _).filter _
  · rw [← Bool.not_eq_true]
    refine or_iff_not_imp_left.mpr fun hro heq => ?_
    have hwrite := h.writable
    rw [heq, readOnlyPath_localCopyPath t.scope_sane (not_not.mp hro)] at hwrite
    cases hwrite

theorem early_inbound_subset (t : FolderCycle) : t.early.inbound ⊆ t.late.inbound := by
  rw [Landing.late]
  split
  · exact List.Subset.refl _
  · rw [MaterializeEnv.counted_inbound]
    exact (MaterializeEnv.materializeFile_cases t.scanned ignoreFile _).inbound

theorem late_inbound_subset (t : FolderCycle) : t.late.inbound ⊆ t.landed.inbound :=
  MaterializeEnv.materialize_inbound _ _ _

/-- A path that is spared is undisturbed from the scan on. -/
theorem Spares.undisturbed {p : GoString} {node : Node} {w : Op} (hspares : t.Spares p node w)
    (h : t.Echo p node w) : MaterializeEnv.Undisturbed p t.scanned t.landed := by
  have hlate : MaterializeEnv.Undisturbed p t.scanned t.late := by
    rcases late_cases h with ⟨hquiet, -⟩ | ⟨-, hp, hwrote⟩
    · exact hquiet
    · rw [hspares.late hp] at hwrote
      cases hwrote
  refine hlate.trans ?_
  rcases landed_cases h with ⟨hquiet, -⟩ | ⟨-, hcarries, hwrote⟩
  · exact hquiet
  · rw [h.replaces_eq h.scanned_disk hlate, t.scanned_lookup h.writable] at hwrote
    rcases hspares.loop with hnot | hleft
    · rw [hnot] at hcarries
      cases hcarries
    · rw [hleft] at hwrote
      cases hwrote

/-- **An own op's path is quiet exactly when it is spared.** -/
theorem Echo.quiet_iff {p : GoString} {node : Node} {w : Op} (h : t.Echo p node w) :
    t.Quiet p ↔ t.Spares p node w := by
  constructor
  · intro hquiet
    have hnot : (p, false) ∉ t.landed.inbound := hquiet.inbound false
    have hearly : (p, false) ∉ t.early.inbound := fun htold =>
      hnot (t.late_inbound_subset (t.early_inbound_subset htold))
    have hlate := (late_cases h).resolve_right fun htold => hnot (t.late_inbound_subset htold.1)
    have hlanded := (landed_cases h).resolve_right fun htold => hnot htold.1
    rw [h.replaces_eq h.scanned_disk hlate.1, t.scanned_lookup h.writable] at hlanded
    exact ⟨((early_cases t p).resolve_right fun htold => hearly htold.1).2, hlate.2, hlanded.2⟩
  · intro hspares
    have hearly := (early_cases t p).resolve_right fun ⟨_, hp, hfirst, want, hwant, hwrote⟩ => by
      rw [hspares.early hp hfirst want hwant] at hwrote
      cases hwrote
    have hlanded := hspares.undisturbed h
    refine ⟨hlanded.disk.trans hearly.1.disk, fun deleted htold => ?_, fun hchanged => ?_⟩
    · exact absurd ((hearly.1.inbound deleted).mp ((hlanded.inbound deleted).mp htold))
        List.not_mem_nil
    · exact absurd (hearly.1.changed.mp (hlanded.changed.mp hchanged)) List.not_mem_nil

/-! ### The next cycle -/

/-- The scans of the two cycles meet the same. -/
theorem Follows.env_eq {s' : Session} {c' : Cycle} (h : t.Follows s' c') :
    (c'.scanEnv s').hash = t.env.hash ∧ (c'.scanEnv s').folder = t.env.folder ∧
      (c'.scanEnv s').filter = t.env.filter ∧ (c'.scanEnv s').scope = t.env.scope ∧
        (c'.scanEnv s').hint = t.env.hint :=
  ⟨h.hash, h.folder, h.filter, h.scope, h.hint⟩

/-- What a scan mints at every path is all it mints. -/
theorem ops_eq_nil_of_resultAt {s : ScanState} (h : ∀ rel, (s.resultAt rel).1 = []) :
    s.ops = [] := by
  refine List.eq_nil_iff_forall_not_mem.mpr fun op hop => ?_
  have hmem : op.unplaced ∈ (s.resultAt op.path).1 :=
    List.mem_map_of_mem (List.mem_filter.mpr ⟨hop, by simp⟩)
  rw [h] at hmem
  cases hmem

/-- The entry of an echo is such that its file is not minted again. -/
theorem Echo.outcome_eq {p : GoString} {node : Node} {w : Op} (h : t.Echo p node w)
    (hspares : t.Spares p node w) (hsees : t.env.Sees p)
    (hnode : t.env.folder.lookup p = some node) :
    (t.env.outcome p (t.landed.cache.lookup p) node).2 = none := by
  rcases (hspares.undisturbed h).cache with hsame | ⟨info, target, hlink, hadopted⟩
  · rw [hsame, t.scanned_lookup h.writable, ScanEnv.entryAt, if_pos hsees, hnode, outcome_outcome]
  · rw [h.scanned_disk] at hlink
    obtain rfl := Option.some.inj hlink
    rw [hadopted]
    simp [ScanEnv.outcome]

/-- A path that is not live and that the scan takes for removed is in no cache. -/
theorem lookup_landed_of_not_live {p : GoString} (hplain : t.cycle.prune = false)
    (hwrite : t.env.scope.readOnlyPath p = false) (hlive : (t.target p).isSome = false)
    (hgone : ¬ t.env.Sees p ∧ ¬ t.env.Blocked p ∧ t.env.hint.inScope p = true) :
    t.landed.cache.lookup p = none := by
  have hentry : t.env.entryAt t.cycle.cache p = none := by
    rw [ScanEnv.entryAt, if_neg hgone.1]
    split
    · rfl
    · rename_i hkept
      refine AList.lookup_eq_none.mpr fun hmem => hkept ⟨hmem, hgone.2⟩
  have htarget : t.target p = replay t.all p := by
    rw [Landing.target, Landing.prunes, hplain]
    simp
  refine MaterializeEnv.materialize_lookup_none _ (fun hmem => ?_) ?_
  · rw [Landing.paths, (t.cycle.scan.keyOrder_perm _).mem_iff, List.mem_filter] at hmem
    rw [hmem.2] at hlive
    cases hlive
  · rw [Landing.late]
    split
    · exact (t.scanned_lookup hwrite).trans hentry
    · rename_i want hwant
      have hne : p ≠ ignoreFile := by
        rintro rfl
        rw [htarget, hwant] at hlive
        cases hlive
      rw [(MaterializeEnv.counted_untouched hne _).lookup,
        (MaterializeEnv.materializeFile_cases t.scanned ignoreFile want).lookup_of_ne hne]
      exact (t.scanned_lookup hwrite).trans hentry

/-- The scan behind a cycle over echoes mints nothing. -/
theorem AllEchoes.scan_eq_nil (h : t.AllEchoes)
    (hspares : ∀ p node w, t.Echo p node w → t.Spares p node w) {s' : Session} {c' : Cycle}
    (hfollows : t.Follows s' c') : (c'.scanned s').ops = [] := by
  obtain ⟨hhash, hfolder, hfilter, hscope, hhint⟩ := hfollows.env_eq
  have hsees (p : GoString) : (c'.scanEnv s').Sees p ↔ t.env.Sees p := by
    rw [ScanEnv.Sees, ScanEnv.Sees, hfilter, hfolder, hhint]
  have hblocked (p : GoString) : (c'.scanEnv s').Blocked p ↔ t.env.Blocked p := by
    rw [ScanEnv.Blocked, ScanEnv.Blocked, hfilter, hfolder, hhint]
  refine ops_eq_nil_of_resultAt fun p => ?_
  rw [Cycle.scanned]
  by_cases hseen : (c'.scanEnv s').Sees p
  · have hseen' := (hsees p).mp hseen
    obtain ⟨names, node, v, hvisit, hv, rfl⟩ := hseen
    rw [scan_resultAt_of_visit hvisit hv]
    split
    · rfl
    · rename_i hwrite
      rw [hscope, Bool.not_eq_true] at hwrite
      rw [hfilter, hfolder, hhint] at hvisit
      obtain ⟨w, hecho⟩ := h.seen names node v hvisit hv hwrite
      have houtcome := hecho.outcome_eq (hspares _ _ _ hecho) hseen' (lookup_of_sees hvisit)
      have hsame : (c'.scanEnv s').outcome (joinSlash names) (c'.cache.lookup (joinSlash names)) node
          = t.env.outcome (joinSlash names) (t.landed.cache.lookup (joinSlash names)) node := by
        rw [hfollows.cache]
        cases node <;> simp only [ScanEnv.outcome, hhash]
      rw [ScanEnv.settle, hsame, houtcome]
      rfl
  · rw [scan_resultAt_of_kept hseen]
    rintro ⟨hmem, hnot, hin, hwrite⟩
    rw [hscope] at hwrite
    rw [hhint] at hin
    have hgone : ¬ t.env.Sees p ∧ ¬ t.env.Blocked p ∧ t.env.hint.inScope p = true :=
      ⟨fun hs => hseen ((hsees p).mpr hs), fun hb => hnot ((hblocked p).mpr hb), hin⟩
    cases hlive : (t.target p).isSome with
    | true => exact ((h.live p hlive hwrite).2.resolve_left hgone.1) hgone.2
    | false =>
      rw [hfollows.cache, ← AList.lookup_isSome,
        lookup_landed_of_not_live h.plain hwrite hlive hgone] at hmem
      cases hmem

theorem adopt_nil (mountJoining : Bool) (candidates : List Op) (base : ℤ) :
    adopt mountJoining candidates base [] = [] := by
  unfold adopt
  split
  · rfl
  · cases mountJoining <;> rfl

/-- An edit that has won is settled. -/
theorem outcome_of_won {env : ConflictEnv} (hpulled : env.pulled = []) (blobs : Blobs)
    {p : GoString} (hwon : ∀ mine, (unpushedEdits env.own env.pushed).lookup p = some mine →
      replay env.all p = mine.effect) : env.outcome blobs p = .settled := by
  unfold ConflictEnv.outcome
  cases hmine : (unpushedEdits env.own env.pushed).lookup p with
  | none => rfl
  | some mine =>
    have hlost : env.lost p mine = none := by
      have hmineWon : env.mineWon p mine = true := by
        rw [ConflictEnv.mineWon, hwon mine hmine]
        cases hkind : mine.kind <;> simp [Op.effect, hkind]
      have htheirs : env.theirs p = none := by
        rw [ConflictEnv.theirs, hpulled]
        rfl
      rw [ConflictEnv.lost, if_pos hmineWon, htheirs]
      rfl
    dsimp only
    rw [hlost]

theorem conflictCopies_of_settled {env : ConflictEnv} {s : ConflictState}
    (h : ∀ blobs p, env.outcome blobs p = .settled) : env.conflictCopies s = s := by
  rw [ConflictEnv.conflictCopies]
  generalize env.keyOrder _ = keys
  induction keys generalizing s with
  | nil => rfl
  | cons p keys ih =>
    rw [List.foldl_cons, ConflictEnv.step, h]
    exact ih

/-- **The cycle behind one over echoes mints nothing.** -/
theorem AllEchoes.appended_eq_nil (h : t.AllEchoes)
    (hspares : ∀ p node w, t.Echo p node w → t.Spares p node w) {s' : Session} {c' : Cycle}
    (hfollows : t.Follows s' c') : c'.appended s' = [] := by
  have hlocal : c'.localOps s' = [] := by
    rw [Cycle.localOps, h.scan_eq_nil hspares hfollows]
    split
    · exact adopt_nil _ _ _
    · rfl
  have hcommitted : c'.committed s' = t.cycle.restated t.session := by
    rw [Cycle.committed, hlocal, List.append_nil, hfollows.own]
  have hwon : ∀ p mine, (unpushedEdits (c'.committed s') s'.pushed).lookup p = some mine →
      replay (c'.committed s' ++ c'.peers) p = mine.effect := by
    intro p mine hmine
    rw [hcommitted, hfollows.peers]
    rw [hcommitted] at hmine
    rcases hfollows.pushed with hpushed | hpushed
    · exact h.won p mine (hpushed ▸ hmine)
    · rw [hpushed, hfollows.own, unpushedEdits, List.drop_length] at hmine
      cases hmine
  have hconflicts : c'.conflicts s' = c'.conflictStart s' :=
    conflictCopies_of_settled fun blobs p => outcome_of_won hfollows.pulled blobs (hwon p)
  have hops : (c'.conflicts s').ops = [] := by
    rw [hconflicts]
    rfl
  have hreasserted : c'.reasserted s' = [] := by
    rw [Cycle.reasserted, hfollows.gone]
    rfl
  have hpruned : (c'.pruned s').ops = [] := by
    rw [Cycle.pruned, hfollows.plain]
    rfl
  refine List.eq_nil_iff_forall_not_mem.mpr fun op hop => ?_
  rw [mem_appended_iff, hlocal, hops, hreasserted, hpruned] at hop
  simp at hop

/-- **A file is written over** where it can be, exactly when its entry is gone, or has its
fingerprint and another content than the op or other permissions than the op's, as they are
applied. -/
theorem Echo.replaces_file_iff {p : GoString} {info : FileInfo} {content : GoString} {w : Op}
    (h : t.Echo p (.file info content true) w) (system : FileSystem) (c : Option CachedFile) :
    (t.lateEnv system).replaces p (some (.file info content true)) c (stateOf w) = true ↔
      system.takes p = true ∧ (t.lateEnv system).blobs.has w.blob = true ∧
        ∀ e, c = some e → cachedPathMatches (some (.file info content true)) e = true ∧
          (e.blob ≠ w.blob ∨ e.mode ≠ safeMode w.mode) := by
  obtain ⟨hblob, hlink⟩ : w.blob = t.cycle.scan.hash.sum content ∧ w.link = [] := by
    rcases h.put.2.2 with ⟨i, text, hnode, hblob, hlink⟩ | ⟨i, target, hnode, -⟩
    · cases hnode
      exact ⟨hblob, hlink⟩
    · cases hnode
  have htakes : (t.lateEnv system).takes p = system.takes p := rfl
  have hsum : (t.lateEnv system).hash.sum content = w.blob := hblob.symm
  unfold MaterializeEnv.replaces
  rw [if_neg (show ¬ (stateOf w).link ≠ [] from not_not.mpr hlink), htakes]
  cases c with
  | none => simp [stateOf, hsum]
  | some e =>
    simp only [stateOf, Bool.and_eq_true, Bool.not_eq_true', Bool.and_eq_false_iff,
      beq_eq_false_iff_ne, Option.some.injEq, forall_eq']
    tauto

/-- A file whose permissions are as they are applied is spared by the cycle that journals it. -/
theorem Echo.spared_of_recorded {p : GoString} {info : FileInfo} {content : GoString} {w : Op}
    (h : t.Echo p (.file info content true) w) (system : FileSystem) {e : CachedFile}
    (hblob : e.blob = w.blob) (hmode : e.mode = w.mode) (hsafe : safeMode w.mode = w.mode) :
    (t.lateEnv system).replaces p (some (.file info content true)) (some e) (stateOf w)
      = false := by
  rw [← Bool.not_eq_true, h.replaces_file_iff system]
  rintro ⟨-, -, he⟩
  rcases (he e rfl).2 with hne | hne
  · exact hne hblob
  · exact hne (hmode.trans hsafe.symm)

/-! ### A file others may write -/

/-- A folder with one file, which everyone may write. -/
def sharedFolder : Folder where
  entries := [(ascii "a", .file { size := 1, mode := 0o666 } (ascii "x") true)]
  wellFormed := by decide

/-- The first cycle over it: nothing is cached, and there is nobody else. -/
def sharedLanding : Landing where
  session := {}
  cycle :=
    { scan := { hash := spelledHash, folder := sharedFolder, filter := {}
                stamp := { device := ascii "d" } } }
  disk := sharedFolder.lookup
  reloaded := {}

/-- The cycle meets what stands in the folder. -/
def sharedCycle : FolderCycle where
  toLanding := sharedLanding
  cached := rfl
  stands _ _ h _ := h
  sane _ h := absurd h List.not_mem_nil
  earlySane _ h := absurd h List.not_mem_nil

/-- The op of its scan. -/
def sharedOp : Op :=
  { seq := 1, lamport := 1, device := ascii "d", kind := .put, path := ascii "a"
    blob := spelledHash.sum (ascii "x"), size := 1, mode := 0o666 }

theorem sharedOp_echo : sharedCycle.Echo (ascii "a")
    (.file { size := 1, mode := 0o666 } (ascii "x") true) sharedOp where
  writable := by decide
  stands := rfl
  wins := by decide
  own := by decide
  device := rfl
  put := ⟨rfl, rfl, .inl ⟨_, _, rfl, rfl, rfl⟩⟩
  kept := rfl

end FolderCycle

end Beardrive
