import Beardrive.Store
import Beardrive.Syncer.Clock
import Beardrive.Syncer.Folder
import Beardrive.Syncer.Scope

/-!
# The scan

`scan` diffs the working folder against the materialization cache and mints an op for every local
change. It is two passes over one state: the walk mints a put for what differs from the cache and
records what it has seen, and the delete pass mints a delete for what the cache names and the walk
has not seen.

A cache is a Go map, so the delete pass visits its keys in any order. The order is a parameter,
`ScanEnv.keyOrder`, which carries the proof that it is a permutation.

## Main definitions

* `Stamp`, `ScanEnv`, `ScanState` — what a scan is given and what it accumulates
* `scanVisit`, `scanDelete`, `scan` — the two passes and their composition
-/

namespace Beardrive

/-- Whether no direction carries a path. -/
def neverSync (rel : GoString) : Bool := !safePath rel || reservedPath rel

/-- What every op of one scan carries. -/
structure Stamp where
  device : GoString
  deviceName : GoString := []
  author : GoString := []
  user : GoString := []
  userName : GoString := []
  note : GoString := []
  session : GoString := []
  time : Time := {}
  deriving DecidableEq, Repr

/-- An event of the watcher: a path below which local discovery is due. -/
structure ScanEvent where
  path : GoString
  directory : Bool := false
  removed : Bool := false
  deriving DecidableEq, Repr

/-- What local discovery is bounded to, if to anything. -/
structure ScanHint where
  full : Bool := true
  events : List ScanEvent := []
  deriving DecidableEq, Repr

/-- What a scan reads. -/
structure ScanEnv where
  hash : Hash
  folder : Folder
  filter : Filter
  scope : WriteScope := {}
  stamp : Stamp
  hint : ScanHint := {}
  keyOrder : List GoString → List GoString := id
  keyOrder_perm : ∀ keys, (keyOrder keys).Perm keys := by
    first | exact keyOrder_id | (intro keys; exact .refl _)

/-- What a scan accumulates. -/
structure ScanState where
  cache : Cache
  lamport : ℤ
  seq : ℤ
  blobs : Blobs
  cacheDirty : Bool := false
  ops : List Op := []
  seen : List GoString := []
  unreadable : List GoString := []

/-- Whether a whole folder is discovered: a hint that names no safe path falls back to it. -/
def ScanHint.fullDiscovery (hint : ScanHint) : Bool :=
  hint.full || hint.events.any fun ev =>
    clean ev.path == ascii "." || clean ev.path == [] || !safePath (clean ev.path)

/-- The paths a bounded discovery walks. -/
def ScanHint.roots (hint : ScanHint) : Option (List GoString) :=
  if hint.fullDiscovery then none else some (hint.events.map fun ev => clean ev.path)

/-- Whether a bounded discovery may forget a path. -/
def ScanHint.inScope (hint : ScanHint) (rel : GoString) : Bool :=
  hint.fullDiscovery || hint.events.any fun ev =>
    (ev.directory || ev.removed) && (rel == clean ev.path || hasPrefix rel (clean ev.path ++ [slash]))

/-- The op `nextOp` answers, with the fields its caller sets. -/
def ScanState.nextOp (s : ScanState) (stamp : Stamp) (op : Op) : Op :=
  { op with
    seq := s.seq + 1, lamport := tickLamport s.lamport, time := stamp.time
    device := stamp.device, deviceName := stamp.deviceName, author := stamp.author
    user := stamp.user, userName := stamp.userName
    note := stamp.note, session := stamp.session }

/-- Mint an op: the clock and the sequence number move on. -/
def ScanState.mint (s : ScanState) (stamp : Stamp) (op : Op) : ScanState :=
  { s with
    lamport := tickLamport s.lamport
    seq := s.seq + 1
    cacheDirty := true
    ops := s.ops ++ [s.nextOp stamp op] }

/-- Record an entry in the cache. -/
def ScanState.record (s : ScanState) (rel : GoString) (c : CachedFile) : ScanState :=
  { s with cache := s.cache.insert rel c, cacheDirty := true }

/-- What the walk does with a regular file. -/
def ScanEnv.scanFile (env : ScanEnv) (s : ScanState) (rel : GoString) (info : FileInfo)
    (content : GoString) (readable : Bool) : ScanState :=
  let c := s.cache.lookup rel
  if c.any (fun c => c.size == info.size && c.mtimeNS == info.mtimeNS) then s
  else if !readable then s
  else
    let sum := env.hash.sum content
    let s := { s with blobs := s.blobs.put env.hash content }
    let entry : CachedFile :=
      { blob := sum, size := content.length, mode := info.mode, mtimeNS := info.mtimeNS }
    if c.any (·.blob == sum) then s.record rel { entry with link := (c.map (·.link)).getD [] }
    else
      (s.record rel entry).mint env.stamp
        { kind := .put, path := rel, blob := sum, size := content.length, mode := info.mode,
          mtime := info.mtime }

/-- What the walk does with a symbolic link: its target is journaled and nothing else. -/
def ScanEnv.scanLink (env : ScanEnv) (s : ScanState) (rel : GoString) (info : FileInfo)
    (target : GoString) (readable : Bool) : ScanState :=
  let c := s.cache.lookup rel
  if c.any (fun c => c.size == info.size && c.mtimeNS == info.mtimeNS) then s
  else if !readable then s
  else match c with
    | some c =>
      if c.link == target then s.record rel { c with size := info.size, mtimeNS := info.mtimeNS }
      else (s.record rel { link := target, size := info.size, mtimeNS := info.mtimeNS }).mint
        env.stamp { kind := .put, path := rel, link := target, mtime := info.mtime }
    | none => (s.record rel { link := target, size := info.size, mtimeNS := info.mtimeNS }).mint
        env.stamp { kind := .put, path := rel, link := target, mtime := info.mtime }

/-- What the walk does with an event: only what syncs is seen, and what sits in a folder this
account may not write is seen and left alone. -/
def ScanEnv.scanVisit (env : ScanEnv) (s : ScanState) : WalkEvent → ScanState
  | .failed names => { s with unreadable := joinSlash names :: s.unreadable }
  | .visit names node v =>
    let rel := joinSlash names
    if v = .sync ∨ v = .symlink then
      let s := { s with seen := rel :: s.seen }
      if env.scope.readOnlyPath rel then s
      else match node with
        | .file info content readable => env.scanFile s rel info content readable
        | .symlink info target readable => env.scanLink s rel info target readable
        | _ => s
    else s

/-- Whether a directory above a path, or the path itself, could not be read. -/
def ScanState.blockedBy (s : ScanState) (rel : GoString) : Bool :=
  s.unreadable.any fun u => rel == u || hasPrefix rel (u ++ [slash])

/-- What the delete pass does with a key of the cache: a path that is merely no longer carried is
forgotten without an op. -/
def ScanEnv.scanDelete (env : ScanEnv) (s : ScanState) (rel : GoString) : ScanState :=
  if s.blockedBy rel then s
  else if s.seen.contains rel then s
  else if !env.hint.inScope rel then s
  else if env.scope.readOnlyPath rel then s
  else if neverSync rel then { s with cache := s.cache.erase rel, cacheDirty := true }
  else if env.filter.skip rel then { s with cache := s.cache.erase rel, cacheDirty := true }
  else { s.mint env.stamp { kind := .delete, path := rel } with cache := s.cache.erase rel }

/-- The walk. -/
def ScanEnv.scanWalk (env : ScanEnv) (s : ScanState) : ScanState :=
  (walkFolder env.filter env.folder env.hint.roots).foldl env.scanVisit s

/-- The delete pass; it does not run where the folder itself could not be read. -/
def ScanEnv.scanDeletes (env : ScanEnv) (s : ScanState) : ScanState :=
  if s.unreadable.contains [] then s
  else (env.keyOrder s.cache.keys).foldl env.scanDelete s

/-- Diff the working folder against the cache. -/
def ScanEnv.scan (env : ScanEnv) (s : ScanState) : ScanState := env.scanDeletes (env.scanWalk s)

/-! ### What one step does -/

/-- What a step that mints does to everything an op is numbered by. -/
structure Mints (env : ScanEnv) (s s' : ScanState) (op : Op) : Prop where
  ops : s'.ops = s.ops ++ [s.nextOp env.stamp op]
  lamport : s'.lamport = tickLamport s.lamport
  seq : s'.seq = s.seq + 1

/-- What a step that mints nothing leaves alone. -/
structure Idle (s s' : ScanState) : Prop where
  ops : s'.ops = s.ops
  lamport : s'.lamport = s.lamport
  seq : s'.seq = s.seq

/-- The put the walk mints for a file: its path, and its content or its target. -/
def IsPutOf (env : ScanEnv) (rel : GoString) (node : Node) (op : Op) : Prop :=
  op.kind = .put ∧ op.path = rel ∧
    ((∃ info content, node = .file info content true ∧ op.blob = env.hash.sum content ∧
        op.link = []) ∨
      ∃ info target, node = .symlink info target true ∧ op.blob = [] ∧ op.link = target)

theorem scanFile_cases (env : ScanEnv) (s : ScanState) (rel : GoString) (info : FileInfo)
    (content : GoString) (readable : Bool) :
    Idle s (env.scanFile s rel info content readable) ∨
      ∃ op, IsPutOf env rel (.file info content readable) op ∧
        Mints env s (env.scanFile s rel info content readable) op := by
  unfold ScanEnv.scanFile
  dsimp only
  split
  · exact .inl ⟨rfl, rfl, rfl⟩
  cases readable with
  | false => exact .inl ⟨rfl, rfl, rfl⟩
  | true =>
    rw [if_neg (by simp)]
    split
    · exact .inl ⟨rfl, rfl, rfl⟩
    · exact .inr ⟨_, ⟨rfl, rfl, .inl ⟨info, content, rfl, rfl, rfl⟩⟩, rfl, rfl, rfl⟩

theorem scanLink_cases (env : ScanEnv) (s : ScanState) (rel : GoString) (info : FileInfo)
    (target : GoString) (readable : Bool) :
    Idle s (env.scanLink s rel info target readable) ∨
      ∃ op, IsPutOf env rel (.symlink info target readable) op ∧
        Mints env s (env.scanLink s rel info target readable) op := by
  unfold ScanEnv.scanLink
  dsimp only
  split
  · exact .inl ⟨rfl, rfl, rfl⟩
  cases readable with
  | false => exact .inl ⟨rfl, rfl, rfl⟩
  | true =>
    rw [if_neg (by simp)]
    cases s.cache.lookup rel with
    | none => exact .inr ⟨_, ⟨rfl, rfl, .inr ⟨info, target, rfl, rfl, rfl⟩⟩, rfl, rfl, rfl⟩
    | some c =>
      dsimp only
      split
      · exact .inl ⟨rfl, rfl, rfl⟩
      · exact .inr ⟨_, ⟨rfl, rfl, .inr ⟨info, target, rfl, rfl, rfl⟩⟩, rfl, rfl, rfl⟩

/-- **A step of the walk mints at most one put**, of a file that syncs and that this account may
write. -/
theorem scanVisit_cases (env : ScanEnv) (s : ScanState) (e : WalkEvent) :
    Idle s (env.scanVisit s e) ∨
      ∃ names node v op, e = .visit names node v ∧ (v = .sync ∨ v = .symlink) ∧
        env.scope.readOnlyPath (joinSlash names) = false ∧ IsPutOf env (joinSlash names) node op ∧
          Mints env s (env.scanVisit s e) op := by
  cases e with
  | failed names => exact .inl ⟨rfl, rfl, rfl⟩
  | visit names node v =>
    unfold ScanEnv.scanVisit
    dsimp only
    split
    · rename_i hv
      split
      · exact .inl ⟨rfl, rfl, rfl⟩
      · rename_i hro
        rw [Bool.not_eq_true] at hro
        cases node with
        | file info content readable =>
          exact (scanFile_cases ..).imp (fun h => ⟨h.ops, h.lamport, h.seq⟩) fun ⟨op, hop, h⟩ =>
            ⟨names, _, v, op, rfl, hv, hro, hop, h.ops, h.lamport, h.seq⟩
        | symlink info target readable =>
          exact (scanLink_cases ..).imp (fun h => ⟨h.ops, h.lamport, h.seq⟩) fun ⟨op, hop, h⟩ =>
            ⟨names, _, v, op, rfl, hv, hro, hop, h.ops, h.lamport, h.seq⟩
        | other => exact .inl ⟨rfl, rfl, rfl⟩
        | dir readable entries => exact .inl ⟨rfl, rfl, rfl⟩
    · exact .inl ⟨rfl, rfl, rfl⟩

/-- Whether the delete pass mints a delete for a key. -/
def ScanEnv.deletes (env : ScanEnv) (s : ScanState) (rel : GoString) : Bool :=
  !s.blockedBy rel && !s.seen.contains rel && env.hint.inScope rel &&
    !env.scope.readOnlyPath rel && !neverSync rel && !env.filter.skip rel

/-- **A step of the delete pass mints a delete exactly when every guard lets it.** -/
theorem scanDelete_cases (env : ScanEnv) (s : ScanState) (rel : GoString) :
    if env.deletes s rel then Mints env s (env.scanDelete s rel) { kind := .delete, path := rel }
    else Idle s (env.scanDelete s rel) := by
  unfold ScanEnv.deletes ScanEnv.scanDelete
  cases hb : s.blockedBy rel
  case true => simpa using ⟨rfl, rfl, rfl⟩
  cases hs : s.seen.contains rel
  case true => simpa [hs] using ⟨rfl, rfl, rfl⟩
  cases hi : env.hint.inScope rel
  case false => simpa [hs] using ⟨rfl, rfl, rfl⟩
  cases hr : env.scope.readOnlyPath rel
  case true => simpa [hs] using ⟨rfl, rfl, rfl⟩
  cases hn : neverSync rel
  case true => simpa [hs] using ⟨rfl, rfl, rfl⟩
  cases hf : env.filter.skip rel
  case true => simpa [hs] using ⟨rfl, rfl, rfl⟩
  simpa [hs] using ⟨rfl, rfl, rfl⟩

/-! ### What a whole scan does -/

/-- The walk visits a file that syncs at this path. -/
def ScanEnv.Sees (env : ScanEnv) (rel : GoString) : Prop :=
  ∃ names node v, .visit names node v ∈ walkFolder env.filter env.folder env.hint.roots ∧
    (v = .sync ∨ v = .symlink) ∧ joinSlash names = rel

/-- Where an op of a scan comes from: a file the walk saw, or a path the delete pass let go. -/
inductive ScanSource (env : ScanEnv) (op : Op) : Prop
  | put (names : List GoString) (node : Node) (v : Verdict)
      (visited : .visit names node v ∈ walkFolder env.filter env.folder env.hint.roots)
      (syncs : v = .sync ∨ v = .symlink) (put : IsPutOf env (joinSlash names) node op)
  | delete (kind : op.kind = .delete) (carried : neverSync op.path = false)
      (kept : env.filter.skip op.path = false)

/-- What an op minted by a scan that started at `clock` is like. -/
structure ScanMint (env : ScanEnv) (clock : ℤ) (op : Op) : Prop where
  device : op.device = env.stamp.device
  deviceName : op.deviceName = env.stamp.deviceName
  author : op.author = env.stamp.author
  user : op.user = env.stamp.user
  userName : op.userName = env.stamp.userName
  note : op.note = env.stamp.note
  session : op.session = env.stamp.session
  time : op.time = env.stamp.time
  above : clock < maxInt64 → clock < op.lamport
  writable : env.scope.readOnlyPath op.path = false
  source : ScanSource env op

/-- The ops of a scan so far, and a clock that has not moved back. -/
structure ScanInv (env : ScanEnv) (start s : ScanState) : Prop where
  clock : start.lamport ≤ s.lamport
  mem : ∀ op ∈ s.ops, op ∈ start.ops ∨ ScanMint env start.lamport op

theorem ScanInv.idle {env : ScanEnv} {start s s' : ScanState} (h : ScanInv env start s)
    (hidle : Idle s s') : ScanInv env start s' where
  clock := hidle.lamport ▸ h.clock
  mem := hidle.ops ▸ h.mem

theorem ScanInv.mints {env : ScanEnv} {start s s' : ScanState} (h : ScanInv env start s) {op : Op}
    (hmint : Mints env s s' op) (hwrite : env.scope.readOnlyPath op.path = false)
    (hsource : ScanSource env (s.nextOp env.stamp op)) : ScanInv env start s' where
  clock := hmint.lamport ▸ h.clock.trans (le_tickLamport _)
  mem := by
    rw [hmint.ops]
    intro o ho
    rcases List.mem_append.mp ho with ho | ho
    · exact h.mem o ho
    · rw [List.mem_singleton.mp ho]
      refine .inr ⟨rfl, rfl, rfl, rfl, rfl, rfl, rfl, rfl, fun hmax => ?_, hwrite, hsource⟩
      rcases lt_or_ge s.lamport maxInt64 with hlt | hge
      · exact h.clock.trans_lt (lt_tickLamport hlt)
      · exact hmax.trans_le (hge.trans (le_tickLamport _))

theorem scanWalk_inv (env : ScanEnv) (s : ScanState) : ScanInv env s (env.scanWalk s) := by
  refine List.foldlRecOn (motive := ScanInv env s) _ _ ⟨le_rfl, fun op h => .inl h⟩
    fun s' h e he => ?_
  rcases scanVisit_cases env s' e with hidle | ⟨names, node, v, op, rfl, hv, hro, hop, hmint⟩
  · exact h.idle hidle
  · exact h.mints hmint (hop.2.1 ▸ hro) (.put names node v he hv hop)

theorem scanDeletes_inv {env : ScanEnv} {start s : ScanState} (h : ScanInv env start s) :
    ScanInv env start (env.scanDeletes s) := by
  unfold ScanEnv.scanDeletes
  split
  · exact h
  · refine List.foldlRecOn (motive := ScanInv env start) _ _ h fun s' h' rel _ => ?_
    have hcases := scanDelete_cases env s' rel
    split at hcases
    · rename_i hdel
      simp only [ScanEnv.deletes, Bool.and_eq_true, Bool.not_eq_true'] at hdel
      exact h'.mints hcases hdel.1.1.2 (.delete rfl hdel.1.2 hdel.2)
    · exact h'.idle hcases

/-- **Every op a scan mints** carries the stamp of the scan and a clock above the one the scan
started at, names a path this account may write, and is the put of a file the walk saw or the
delete of a path that is carried and kept. -/
theorem scan_inv (env : ScanEnv) (s : ScanState) : ScanInv env s (env.scan s) :=
  scanDeletes_inv (scanWalk_inv env s)

/-- The state a scan starts from. -/
def ScanState.start (cache : Cache) (lamport seq : ℤ) (blobs : Blobs) : ScanState :=
  { cache, lamport, seq, blobs }

/-- Every op of a scan is one it minted. -/
theorem scanMint_of_mem {env : ScanEnv} {cache : Cache} {lamport seq : ℤ} {blobs : Blobs} {op : Op}
    (h : op ∈ (env.scan (.start cache lamport seq blobs)).ops) : ScanMint env lamport op :=
  ((scan_inv env (.start cache lamport seq blobs)).mem op h).resolve_left (by simp [ScanState.start])

/-- A put of a scan names a path the upload rules let through. -/
theorem ScanSource.path_of_put {env : ScanEnv} {op : Op} (h : ScanSource env op)
    (hput : op.kind = .put) : skippedFile env.filter op.path = false := by
  rcases h with ⟨names, node, v, hvisit, hv, hop⟩ | ⟨hkind, -, -⟩
  · rw [hop.2.1]
    exact (verdict_syncs_iff.mp (verdict_of_mem_walkFolder hvisit ▸ hv)).2
  · rw [hput] at hkind
    exact absurd hkind (by simp)

end Beardrive
