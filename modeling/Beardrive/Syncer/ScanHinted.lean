import Beardrive.Syncer.ScanDeletes
import Beardrive.Syncer.WalkRoots

/-!
# The bounded scan

A scan that is given a hint walks the paths its events name, and forgets only what lies at or
below the events that tell of a removal or of a directory. It is meant to be the full scan of the
same folder, as long as the events cover whatever the full scan would find.

It is not where an event names a path below a regular file. A directory that has been replaced by
a file leaves such events behind, one for each entry that went with it. `Lstat` does not answer
that there is no such entry but that its parent is no directory, the walk takes that for an entry
it could not read, and the delete pass leaves alone what could not be read. So the entries of the
directory are never journaled as deleted. In the other direction a bounded walk may start inside a
directory that cannot be listed, which the full walk leaves alone.

A scan is compared path by path: it treats each path by itself, up to the place of the op in the
order.

## Main definitions

* `ScanState.resultAt` — what a scan has come to at one path
* `ScanEnv.Covers` — a hint that covers what differs from the cache
* `ScanEnv.Reaches` — the exact condition

## Main results

* `scan_resultAt` — what a scan comes to at a path, by what it sees there
* `hinted_scan_eq_full_iff` — when the bounded scan is the full one
-/

namespace Beardrive

/-! ### One path of a scan -/

/-- An op but for its place in the order. -/
def Op.unplaced (op : Op) : Op := { op with seq := 0, lamport := 0 }

/-- What a scan has come to at one path: the ops it minted for it, and the entry of the cache. -/
def ScanState.resultAt (s : ScanState) (rel : GoString) : List Op × Option CachedFile :=
  ((s.ops.filter fun op => op.path = rel).map Op.unplaced, s.cache.lookup rel)

/-- An op as a scan stamps it. -/
def Stamp.apply (stamp : Stamp) (op : Op) : Op :=
  { op with
    seq := 0, lamport := 0, time := stamp.time
    device := stamp.device, deviceName := stamp.deviceName, author := stamp.author
    user := stamp.user, userName := stamp.userName
    note := stamp.note, session := stamp.session }

/-- What a visit makes of the entry of its path, and the op it mints. -/
def ScanEnv.outcome (env : ScanEnv) (rel : GoString) (c : Option CachedFile) :
    Node → Option CachedFile × Option Op
  | .file info content readable =>
    let sum := env.hash.sum content
    let entry : CachedFile :=
      { blob := sum, size := content.length, mode := info.mode, mtimeNS := info.mtimeNS }
    if c.any fun c => c.size == info.size && c.mtimeNS == info.mtimeNS then (c, none)
    else if !readable then (c, none)
    else if c.any (·.blob == sum) then
      (some { entry with link := (c.map (·.link)).getD [] }, none)
    else
      (some entry,
        some { kind := .put, path := rel, blob := sum, size := content.length, mode := info.mode,
               mtime := info.mtime })
  | .symlink info target readable =>
    let entry : CachedFile := { link := target, size := info.size, mtimeNS := info.mtimeNS }
    let op : Op := { kind := .put, path := rel, link := target, mtime := info.mtime }
    if c.any fun c => c.size == info.size && c.mtimeNS == info.mtimeNS then (c, none)
    else if !readable then (c, none)
    else match c with
      | some c =>
        if c.link == target then (some { c with size := info.size, mtimeNS := info.mtimeNS }, none)
        else (some entry, some op)
      | none => (some entry, some op)
  | _ => (c, none)

/-- A result behind an outcome. -/
def ScanEnv.settle (env : ScanEnv) (rel : GoString) (node : Node)
    (r : List Op × Option CachedFile) : List Op × Option CachedFile :=
  (r.1 ++ ((env.outcome rel r.2 node).2.map env.stamp.apply).toList, (env.outcome rel r.2 node).1)

variable {env : ScanEnv}

theorem resultAt_mint (s : ScanState) (op : Op) (rel : GoString) :
    (s.mint env.stamp op).resultAt rel =
      ((s.resultAt rel).1 ++ if op.path = rel then [env.stamp.apply op] else [],
        (s.resultAt rel).2) := by
  unfold ScanState.resultAt ScanState.mint
  have hpath : (s.nextOp env.stamp op).path = op.path := rfl
  have hop : (s.nextOp env.stamp op).unplaced = env.stamp.apply op := rfl
  by_cases h : op.path = rel
  · simp [List.filter_append, hpath, hop, h]
  · simp [List.filter_append, hpath, h]

theorem resultAt_record_self (s : ScanState) (rel : GoString) (c : CachedFile) :
    (s.record rel c).resultAt rel = ((s.resultAt rel).1, some c) := by
  unfold ScanState.resultAt ScanState.record
  rw [AList.lookup_insert]

theorem resultAt_record_of_ne (s : ScanState) {rel key : GoString} (c : CachedFile)
    (h : rel ≠ key) : (s.record key c).resultAt rel = s.resultAt rel := by
  unfold ScanState.resultAt ScanState.record
  rw [AList.lookup_insert_ne h]

theorem settle_none {rel : GoString} {node : Node} {r : List Op × Option CachedFile}
    {c : Option CachedFile} (h : env.outcome rel r.2 node = (c, none)) :
    env.settle rel node r = (r.1, c) := by
  rw [ScanEnv.settle, h]
  simp

theorem settle_some {rel : GoString} {node : Node} {r : List Op × Option CachedFile}
    {c : Option CachedFile} {op : Op} (h : env.outcome rel r.2 node = (c, some op)) :
    env.settle rel node r = (r.1 ++ [env.stamp.apply op], c) := by
  rw [ScanEnv.settle, h]
  simp

theorem settle_of_not_isFile {rel : GoString} {node : Node} (h : node.isFile = false)
    (r : List Op × Option CachedFile) : env.settle rel node r = r := by
  cases node with
  | file => cases h
  | symlink => cases h
  | other => simp [ScanEnv.settle, ScanEnv.outcome]
  | dir => simp [ScanEnv.settle, ScanEnv.outcome]

theorem scanFile_resultAt (s : ScanState) (rel : GoString) (info : FileInfo) (content : GoString)
    (readable : Bool) : (env.scanFile s rel info content readable).resultAt rel =
      env.settle rel (.file info content readable) (s.resultAt rel) := by
  have hc : (s.resultAt rel).2 = s.cache.lookup rel := rfl
  unfold ScanEnv.scanFile
  dsimp only
  by_cases hknown : (s.cache.lookup rel).any
      (fun c => c.size == info.size && c.mtimeNS == info.mtimeNS) = true
  · rw [if_pos hknown, settle_none (by rw [ScanEnv.outcome, hc, if_pos hknown]), ← hc]
  rw [if_neg hknown]
  cases readable with
  | false =>
    rw [if_pos (by rfl), settle_none (by rw [ScanEnv.outcome, hc, if_neg hknown]; rfl), ← hc]
  | true =>
    rw [if_neg (by simp)]
    by_cases hsame : (s.cache.lookup rel).any (·.blob == env.hash.sum content) = true
    · rw [if_pos hsame, resultAt_record_self, settle_none]
      · rfl
      · rw [ScanEnv.outcome, hc, if_neg hknown, if_neg (by simp), if_pos hsame]
    · rw [if_neg hsame, resultAt_mint, resultAt_record_self, if_pos rfl, settle_some]
      · rfl
      · rw [ScanEnv.outcome, hc, if_neg hknown, if_neg (by simp), if_neg hsame]

theorem scanLink_resultAt (s : ScanState) (rel : GoString) (info : FileInfo) (target : GoString)
    (readable : Bool) : (env.scanLink s rel info target readable).resultAt rel =
      env.settle rel (.symlink info target readable) (s.resultAt rel) := by
  have hc : (s.resultAt rel).2 = s.cache.lookup rel := rfl
  unfold ScanEnv.scanLink
  dsimp only
  by_cases hknown : (s.cache.lookup rel).any
      (fun c => c.size == info.size && c.mtimeNS == info.mtimeNS) = true
  · have hout : env.outcome rel (s.resultAt rel).2 (.symlink info target readable) =
        (s.cache.lookup rel, none) := if_pos hknown
    rw [if_pos hknown, settle_none hout, ← hc]
  rw [if_neg hknown]
  cases readable with
  | false =>
    have hout : env.outcome rel (s.resultAt rel).2 (.symlink info target false) =
        (s.cache.lookup rel, none) := if_neg hknown
    rw [if_pos (by rfl), settle_none hout, ← hc]
  | true =>
    rw [if_neg (by simp)]
    cases hlook : s.cache.lookup rel with
    | none =>
      rw [hlook] at hknown hc
      dsimp only
      rw [resultAt_mint, resultAt_record_self, if_pos rfl, settle_some]
      rw [hc]
      rfl
    | some c =>
      rw [hlook] at hknown hc
      dsimp only
      by_cases hsame : (c.link == target) = true
      · rw [if_pos hsame, resultAt_record_self, settle_none]
        rw [hc]
        exact (if_neg hknown).trans (if_pos hsame)
      · rw [if_neg hsame, resultAt_mint, resultAt_record_self, if_pos rfl, settle_some]
        rw [hc]
        exact (if_neg hknown).trans (if_neg hsame)

/-! ### One step at one path -/

/-- An event that is a visit of a file that syncs, at a path. -/
def SeenAt (rel : GoString) : WalkEvent → Prop
  | .visit names _ v => (v = .sync ∨ v = .symlink) ∧ joinSlash names = rel
  | .failed _ => False

/-- **What a visit does at its own path.** -/
theorem scanVisit_resultAt (s : ScanState) {names : List GoString} {node : Node} {v : Verdict}
    (hv : v = .sync ∨ v = .symlink) :
    (env.scanVisit s (.visit names node v)).resultAt (joinSlash names) =
      if env.scope.readOnlyPath (joinSlash names) then s.resultAt (joinSlash names)
      else env.settle (joinSlash names) node (s.resultAt (joinSlash names)) := by
  rw [ScanEnv.scanVisit, if_pos hv]
  dsimp only
  split
  · rfl
  · cases node with
    | file info content readable => exact scanFile_resultAt _ _ info content readable
    | symlink info target readable => exact scanLink_resultAt _ _ info target readable
    | other => exact (settle_of_not_isFile rfl _).symm
    | dir readable entries => exact (settle_of_not_isFile rfl _).symm

theorem scanFile_resultAt_of_ne (s : ScanState) {rel key : GoString} (info : FileInfo)
    (content : GoString) (readable : Bool) (h : rel ≠ key) :
    (env.scanFile s key info content readable).resultAt rel = s.resultAt rel := by
  unfold ScanEnv.scanFile
  dsimp only
  split_ifs
  · rfl
  · rfl
  · exact resultAt_record_of_ne _ _ h
  · rw [resultAt_mint, if_neg (fun heq => h heq.symm), List.append_nil]
    exact resultAt_record_of_ne _ _ h

theorem scanLink_resultAt_of_ne (s : ScanState) {rel key : GoString} (info : FileInfo)
    (target : GoString) (readable : Bool) (h : rel ≠ key) :
    (env.scanLink s key info target readable).resultAt rel = s.resultAt rel := by
  have hmint (c : CachedFile) (op : Op) (hop : op.path = key) :
      ((s.record key c).mint env.stamp op).resultAt rel = s.resultAt rel := by
    rw [resultAt_mint, if_neg (fun heq => h (heq.symm.trans hop)), List.append_nil]
    exact resultAt_record_of_ne _ _ h
  unfold ScanEnv.scanLink
  dsimp only
  split_ifs
  · rfl
  · rfl
  · split
    · split
      · exact resultAt_record_of_ne _ _ h
      · exact hmint _ _ rfl
    · exact hmint _ _ rfl

/-- What an event does at every other path. -/
theorem scanVisit_resultAt_of_not (s : ScanState) {e : WalkEvent} {rel : GoString}
    (h : ¬ SeenAt rel e) : (env.scanVisit s e).resultAt rel = s.resultAt rel := by
  cases e with
  | failed names => rfl
  | visit names node v =>
    rw [ScanEnv.scanVisit]
    dsimp only
    split
    · rename_i hv
      have hne : rel ≠ joinSlash names := fun heq => h ⟨hv, heq.symm⟩
      split
      · rfl
      · cases node with
        | file info content readable => exact scanFile_resultAt_of_ne _ info content readable hne
        | symlink info target readable => exact scanLink_resultAt_of_ne _ info target readable hne
        | other => rfl
        | dir readable entries => rfl
    · rfl

/-- Visiting a path again finds it as the cache has it. -/
theorem outcome_outcome (rel : GoString) (c : Option CachedFile) (node : Node) :
    env.outcome rel (env.outcome rel c node).1 node = ((env.outcome rel c node).1, none) := by
  cases node with
  | other => rfl
  | dir readable entries => rfl
  | file info content readable =>
    by_cases hknown : c.any (fun c => c.size == info.size && c.mtimeNS == info.mtimeNS) = true
    · simp only [ScanEnv.outcome, hknown, if_true]
    cases readable with
    | false => simp [ScanEnv.outcome, hknown]
    | true =>
      by_cases hsame : c.any (·.blob == env.hash.sum content) = true
      · simp [ScanEnv.outcome, hknown, hsame]
      · simp [ScanEnv.outcome, hknown, hsame]
  | symlink info target readable =>
    by_cases hknown : c.any (fun c => c.size == info.size && c.mtimeNS == info.mtimeNS) = true
    · simp only [ScanEnv.outcome, hknown, if_true]
    cases readable with
    | false => simp [ScanEnv.outcome, hknown]
    | true =>
      cases c with
      | none => simp [ScanEnv.outcome]
      | some c =>
        by_cases hsame : (c.link == target) = true
        · simp [ScanEnv.outcome, hknown, hsame]
        · simp [ScanEnv.outcome, hknown, hsame]

theorem settle_settle (rel : GoString) (node : Node) (r : List Op × Option CachedFile) :
    env.settle rel node (env.settle rel node r) = env.settle rel node r :=
  settle_none (outcome_outcome rel r.2 node)

/-- An op is minted only where the cache did not have it. -/
theorem outcome_snd_of_fst_eq {rel : GoString} {c : Option CachedFile} {node : Node}
    (h : (env.outcome rel c node).1 = c) : (env.outcome rel c node).2 = none := by
  have hagain := @outcome_outcome env rel c node
  rw [h] at hagain
  rw [hagain]

/-! ### A whole scan at one path -/

theorem foldl_scanVisit_resultAt_of_not {events : List WalkEvent} {rel : GoString}
    (h : ∀ e ∈ events, ¬ SeenAt rel e) (s : ScanState) :
    (events.foldl env.scanVisit s).resultAt rel = s.resultAt rel := by
  induction events generalizing s with
  | nil => rfl
  | cons e events ih =>
    rw [List.foldl_cons, ih fun e' he' => h e' (List.mem_cons_of_mem _ he')]
    exact scanVisit_resultAt_of_not s (h e List.mem_cons_self)

/-- However often a path is visited, it is settled once. -/
theorem foldl_scanVisit_resultAt {events : List WalkEvent} {rel : GoString} {node : Node}
    (hnode : ∀ names n v, .visit names n v ∈ events → SeenAt rel (.visit names n v) → n = node)
    (hseen : ∃ e ∈ events, SeenAt rel e) (s : ScanState) :
    (events.foldl env.scanVisit s).resultAt rel =
      if env.scope.readOnlyPath rel then s.resultAt rel
      else env.settle rel node (s.resultAt rel) := by
  induction events using List.reverseRecOn with
  | nil => simp at hseen
  | append_singleton events e ih =>
    rw [List.foldl_append, List.foldl_cons, List.foldl_nil]
    have ih := ih fun names n v hmem => hnode names n v (List.mem_append_left _ hmem)
    by_cases hlast : SeenAt rel e
    · cases e with
      | failed names => exact absurd hlast id
      | visit names n v =>
        obtain rfl := hnode names n v (by simp) hlast
        obtain ⟨hv, rfl⟩ := hlast
        rw [scanVisit_resultAt _ hv]
        by_cases hfront : ∃ e ∈ events, SeenAt (joinSlash names) e
        · rw [ih hfront]
          split
          · rfl
          · exact settle_settle _ _ _
        · rw [foldl_scanVisit_resultAt_of_not (by simpa using hfront)]
    · rw [scanVisit_resultAt_of_not _ hlast]
      refine ih ?_
      obtain ⟨e', he', hs⟩ := hseen
      rcases List.mem_append.mp he' with he' | he'
      · exact ⟨e', he', hs⟩
      · rw [List.mem_singleton.mp he'] at hs
        exact absurd hs hlast

/-- The delete pass forgets a path. -/
def ScanEnv.forgets (env : ScanEnv) (s : ScanState) (rel : GoString) : Bool :=
  !s.blockedBy rel && !s.seen.contains rel && env.hint.inScope rel && !env.scope.readOnlyPath rel

/-- What forgetting a path leaves: no entry, and a delete unless the path is no longer carried. -/
def ScanEnv.forget (env : ScanEnv) (rel : GoString) (r : List Op × Option CachedFile) :
    List Op × Option CachedFile :=
  (r.1 ++ if neverSync rel || env.filter.skip rel then []
    else [env.stamp.apply { kind := .delete, path := rel }], none)

theorem resultAt_erase_self (s : ScanState) (rel : GoString) (dirty : Bool) :
    ({ s with cache := s.cache.erase rel, cacheDirty := dirty } : ScanState).resultAt rel =
      ((s.resultAt rel).1, none) := by
  unfold ScanState.resultAt
  rw [AList.lookup_erase]

theorem resultAt_erase_of_ne (s : ScanState) {rel key : GoString} (dirty : Bool) (h : rel ≠ key) :
    ({ s with cache := s.cache.erase key, cacheDirty := dirty } : ScanState).resultAt rel =
      s.resultAt rel := by
  unfold ScanState.resultAt
  rw [AList.lookup_erase_ne h]

theorem scanDelete_resultAt_self (s : ScanState) (rel : GoString) :
    (env.scanDelete s rel).resultAt rel =
      if env.forgets s rel then env.forget rel (s.resultAt rel) else s.resultAt rel := by
  unfold ScanEnv.scanDelete ScanEnv.forgets ScanEnv.forget
  cases hb : s.blockedBy rel
  case true => rfl
  cases hs : s.seen.contains rel
  case true => rfl
  cases hi : env.hint.inScope rel
  case false => rfl
  cases hr : env.scope.readOnlyPath rel
  case true => rfl
  cases hn : neverSync rel
  case true => simp [resultAt_erase_self]
  cases hf : env.filter.skip rel
  case true => simp [resultAt_erase_self]
  have hmint := @resultAt_mint env s { kind := .delete, path := rel } rel
  simp only [Bool.false_eq_true, Bool.not_true, Bool.not_false, Bool.and_self, if_true, if_false,
    Bool.or_self] at hmint ⊢
  exact (resultAt_erase_self (s.mint env.stamp { kind := .delete, path := rel }) rel true).trans
    (by rw [hmint])

theorem scanDelete_resultAt_of_ne (s : ScanState) {rel key : GoString} (h : rel ≠ key) :
    (env.scanDelete s key).resultAt rel = s.resultAt rel := by
  unfold ScanEnv.scanDelete
  split_ifs
  · rfl
  · rfl
  · rfl
  · rfl
  · exact resultAt_erase_of_ne s true h
  · exact resultAt_erase_of_ne s true h
  · have hmint := @resultAt_mint env s { kind := .delete, path := key } rel
    rw [if_neg (fun heq => h heq.symm), List.append_nil] at hmint
    exact (resultAt_erase_of_ne (s.mint env.stamp _) true h).trans hmint

theorem forgets_scanDelete (s : ScanState) (rel key : GoString) :
    env.forgets (env.scanDelete s key) rel = env.forgets s rel := by
  obtain ⟨hs, hu⟩ := scanDelete_seen env s key
  simp only [ScanEnv.forgets, ScanState.blockedBy, hs, hu]

/-- **The delete pass at one path.** -/
theorem foldl_scanDelete_resultAt {keys : List GoString} (hkeys : keys.Nodup) (s : ScanState)
    (rel : GoString) : (keys.foldl env.scanDelete s).resultAt rel =
      if rel ∈ keys ∧ env.forgets s rel = true then env.forget rel (s.resultAt rel)
      else s.resultAt rel := by
  induction keys generalizing s with
  | nil => simp
  | cons key keys ih =>
    obtain ⟨hkey, hkeys⟩ := List.nodup_cons.mp hkeys
    rw [List.foldl_cons, ih hkeys, forgets_scanDelete]
    by_cases h : rel = key
    · subst h
      rw [if_neg (fun hmem => hkey hmem.1), scanDelete_resultAt_self]
      simp
    · rw [scanDelete_resultAt_of_ne s h]
      simp [h]

/-! ### Every path of a scan -/

/-- Something at or above a path could not be read. -/
def ScanEnv.Blocked (env : ScanEnv) (rel : GoString) : Prop :=
  ∃ names, .failed names ∈ walkFolder env.filter env.folder env.hint.roots ∧
    (joinSlash names = [] ∨ below (joinSlash names) rel = true)

theorem mem_scanWalk_unreadable (s : ScanState) (u : GoString) :
    u ∈ (env.scanWalk s).unreadable ↔ u ∈ s.unreadable ∨
      ∃ names, .failed names ∈ walkFolder env.filter env.folder env.hint.roots ∧
        joinSlash names = u := by
  have hfold : ∀ (events : List WalkEvent) (s : ScanState),
      u ∈ (events.foldl env.scanVisit s).unreadable ↔ u ∈ s.unreadable ∨
        ∃ names, .failed names ∈ events ∧ joinSlash names = u := by
    intro events
    induction events with
    | nil => simp
    | cons e events ih =>
      intro s
      rw [List.foldl_cons, ih]
      cases e with
      | visit names node v =>
        rw [scanVisit_unreadable]
        simp
      | failed names =>
        simp only [ScanEnv.scanVisit, List.mem_cons, WalkEvent.failed.injEq]
        constructor
        · rintro ((rfl | h) | ⟨names', h, rfl⟩)
          · exact .inr ⟨names, .inl rfl, rfl⟩
          · exact .inl h
          · exact .inr ⟨names', .inr h, rfl⟩
        · rintro (h | ⟨names', rfl | h, rfl⟩)
          · exact .inl (.inr h)
          · exact .inl (.inl rfl)
          · exact .inr ⟨names', h, rfl⟩
  exact hfold _ s

theorem blocked_iff (cache : Cache) (lamport seq : ℤ) (blobs : Blobs) (rel : GoString) :
    env.Blocked rel ↔ [] ∈ (env.scanWalk (.start cache lamport seq blobs)).unreadable ∨
      (env.scanWalk (.start cache lamport seq blobs)).blockedBy rel = true := by
  simp only [ScanEnv.Blocked, mem_scanWalk_unreadable, ScanState.blockedBy, List.any_eq_true]
  simp only [ScanState.start, List.not_mem_nil, false_or]
  constructor
  · rintro ⟨names, h, hnil | hbelow⟩
    · exact .inl ⟨names, h, hnil⟩
    · exact .inr ⟨_, ⟨names, h, rfl⟩, hbelow⟩
  · rintro (⟨names, h, hnil⟩ | ⟨_, ⟨names, h, rfl⟩, hbelow⟩)
    · exact ⟨names, h, .inl hnil⟩
    · exact ⟨names, h, .inr hbelow⟩

variable {cache : Cache} {lamport seq : ℤ} {blobs : Blobs} {rel : GoString}

theorem scanDeletes_resultAt {s : ScanState} (hroot : [] ∉ s.unreadable) :
    (env.scanDeletes s).resultAt rel =
      if rel ∈ s.cache ∧ env.forgets s rel = true then env.forget rel (s.resultAt rel)
      else s.resultAt rel := by
  have hnodup : (env.keyOrder s.cache.keys).Nodup :=
    (env.keyOrder_perm _).nodup_iff.mpr (AList.keys_nodup _)
  rw [ScanEnv.scanDeletes, if_neg (by simpa using hroot), foldl_scanDelete_resultAt hnodup]
  simp only [(env.keyOrder_perm _).mem_iff, ← AList.mem_keys]

theorem scanDeletes_resultAt_of_not {s : ScanState} (h : env.forgets s rel = false) :
    (env.scanDeletes s).resultAt rel = s.resultAt rel := by
  by_cases hroot : [] ∈ s.unreadable
  · rw [ScanEnv.scanDeletes, if_pos (by simpa using hroot)]
  · rw [scanDeletes_resultAt hroot]
    exact if_neg fun hforget => by simp [h] at hforget

/-- **A path the walk sees is settled**, unless this account may not write it. -/
theorem scan_resultAt_of_visit {names : List GoString} {node : Node} {v : Verdict}
    (h : .visit names node v ∈ walkFolder env.filter env.folder env.hint.roots)
    (hv : v = .sync ∨ v = .symlink) :
    (env.scan (.start cache lamport seq blobs)).resultAt (joinSlash names) =
      if env.scope.readOnlyPath (joinSlash names) then ([], cache.lookup (joinSlash names))
      else env.settle (joinSlash names) node ([], cache.lookup (joinSlash names)) := by
  have hseen : joinSlash names ∈ (env.scanWalk (.start cache lamport seq blobs)).seen :=
    (scanWalk_seen env _ _).mpr (.inr ⟨names, node, v, h, hv, rfl⟩)
  have hwalk : (env.scanWalk (.start cache lamport seq blobs)).resultAt (joinSlash names) =
      if env.scope.readOnlyPath (joinSlash names) then ([], cache.lookup (joinSlash names))
      else env.settle (joinSlash names) node ([], cache.lookup (joinSlash names)) := by
    refine foldl_scanVisit_resultAt (fun names' node' v' h' hs => ?_) ⟨_, h, hv, rfl⟩ _
    -- a path determines its names, and these the entry
    have hlook := lookup_of_visit_mem_walkFolder h
    have hlook' := lookup_of_visit_mem_walkFolder h'
    have hwf := env.folder.wellFormed
    have hnames : names' = names := by
      rw [← segments_of_lookupEntries hwf hlook', hs.2, segments_of_lookupEntries hwf hlook]
    rw [hnames, hlook] at hlook'
    exact (Option.some.inj hlook').symm
  rw [ScanEnv.scan, scanDeletes_resultAt_of_not, hwalk]
  simp [ScanEnv.forgets, hseen]

theorem scanWalk_resultAt_of_not_sees (h : ¬ env.Sees rel) :
    (env.scanWalk (.start cache lamport seq blobs)).resultAt rel = ([], cache.lookup rel) := by
  refine foldl_scanVisit_resultAt_of_not (fun e he hs => ?_) _
  cases e with
  | failed names => exact hs
  | visit names node v => exact h ⟨names, node, v, he, hs⟩

theorem forgets_scanWalk_iff (h : ¬ env.Sees rel)
    (hroot : [] ∉ (env.scanWalk (.start cache lamport seq blobs)).unreadable) :
    env.forgets (env.scanWalk (.start cache lamport seq blobs)) rel = true ↔
      ¬ env.Blocked rel ∧ env.hint.inScope rel = true ∧ env.scope.readOnlyPath rel = false := by
  have hseen : rel ∉ (env.scanWalk (.start cache lamport seq blobs)).seen := by
    rw [scanWalk_seen]
    simpa [ScanState.start] using h
  rw [blocked_iff cache lamport seq blobs, or_iff_right hroot]
  simp [ScanEnv.forgets, hseen, and_assoc]

/-- **A path the walk does not see is forgotten** where nothing above it failed, the hint covers
it and this account may write it. -/
theorem scan_resultAt_of_forgotten (hsees : ¬ env.Sees rel) (hcache : rel ∈ cache)
    (hblocked : ¬ env.Blocked rel) (hin : env.hint.inScope rel = true)
    (hwrite : env.scope.readOnlyPath rel = false) :
    (env.scan (.start cache lamport seq blobs)).resultAt rel =
      env.forget rel ([], cache.lookup rel) := by
  have hroot : [] ∉ (env.scanWalk (.start cache lamport seq blobs)).unreadable := fun h =>
    hblocked ((blocked_iff cache lamport seq blobs rel).mpr (.inl h))
  have hkey : rel ∈ (env.scanWalk (.start cache lamport seq blobs)).cache := by
    rw [mem_scanWalk_cache]
    · exact hcache
    · rw [scanWalk_seen]
      simpa [ScanState.start] using hsees
  rw [ScanEnv.scan, scanDeletes_resultAt hroot, scanWalk_resultAt_of_not_sees hsees]
  exact if_pos ⟨hkey, (forgets_scanWalk_iff hsees hroot).mpr ⟨hblocked, hin, hwrite⟩⟩

/-- Every other path is left as it is. -/
theorem scan_resultAt_of_kept (hsees : ¬ env.Sees rel)
    (hkept : ¬ (rel ∈ cache ∧ ¬ env.Blocked rel ∧ env.hint.inScope rel = true ∧
      env.scope.readOnlyPath rel = false)) :
    (env.scan (.start cache lamport seq blobs)).resultAt rel = ([], cache.lookup rel) := by
  by_cases hroot : [] ∈ (env.scanWalk (.start cache lamport seq blobs)).unreadable
  · rw [ScanEnv.scan, ScanEnv.scanDeletes, if_pos (by simpa using hroot)]
    exact scanWalk_resultAt_of_not_sees hsees
  · rw [ScanEnv.scan, scanDeletes_resultAt hroot, scanWalk_resultAt_of_not_sees hsees]
    refine if_neg fun h => hkept ⟨?_, (forgets_scanWalk_iff hsees hroot).mp h.2⟩
    have hkey := h.1
    rw [mem_scanWalk_cache] at hkey
    · exact hkey
    · rw [scanWalk_seen]
      simpa [ScanState.start] using hsees

/-! ### The bounded scan and the full one -/

/-- The scan of the same folder without a hint. -/
def ScanEnv.full (env : ScanEnv) : ScanEnv := { env with hint := {} }

/-- What stands at a path has the size and the time that the cache has. -/
def Node.asCached (c : Option CachedFile) : Node → Bool
  | .file info _ _ => c.any fun c => c.size == info.size && c.mtimeNS == info.mtimeNS
  | .symlink info _ _ => c.any fun c => c.size == info.size && c.mtimeNS == info.mtimeNS
  | _ => true

/-- The events of a hint cover what differs from the cache: every file that stands and is not as
cached lies at or below one, and every cached path the full walk does not come by lies at or below
one that tells of a removal or of a directory. -/
structure ScanEnv.Covers (env : ScanEnv) (cache : Cache) : Prop where
  changed : ∀ names node v, .visit names node v ∈ walkFolder env.filter env.folder none →
    (v = .sync ∨ v = .symlink) → node.asCached (cache.lookup (joinSlash names)) = false →
      ∃ ev ∈ env.hint.events, below (clean ev.path) (joinSlash names) = true
  gone : ∀ rel ∈ cache, ¬ env.full.Sees rel → ¬ env.full.Blocked rel →
    env.hint.inScope rel = true

/-- The walk starts at the path of an event and `Lstat` fails there. -/
def ScanEnv.FailsAt (env : ScanEnv) (ev : ScanEvent) : Prop :=
  env.folder.lstat (segments (clean ev.path)) = .failed ∧
    targetUnderNestedMount env.filter env.folder (segments (clean ev.path)) = false

/-- No event at which `Lstat` fails is at or above a path the full scan forgets, and what only the
full walk cannot come by is as cached. -/
structure ScanEnv.Reaches (env : ScanEnv) (cache : Cache) : Prop where
  asked : ∀ rel ∈ cache, ¬ env.full.Sees rel → ¬ env.full.Blocked rel →
    env.scope.readOnlyPath rel = false → ∀ ev ∈ env.hint.events, env.FailsAt ev →
      below (clean ev.path) rel = false
  hidden : ∀ rel, ¬ env.full.Sees rel → env.full.Blocked rel →
    env.scope.readOnlyPath rel = false →
      (∀ names node v, .visit names node v ∈ walkFolder env.filter env.folder env.hint.roots →
        (v = .sync ∨ v = .symlink) → joinSlash names = rel →
          (env.outcome rel (cache.lookup rel) node).1 = cache.lookup rel) ∧
      (rel ∈ cache → ¬ env.Sees rel → env.hint.inScope rel = true → env.Blocked rel)

theorem full_roots (env : ScanEnv) : env.full.hint.roots = none := rfl

theorem full_inScope (env : ScanEnv) (rel : GoString) : env.full.hint.inScope rel = true := rfl

theorem mem_hinted_walk_iff (hfull : env.hint.fullDiscovery = false) {e : WalkEvent} :
    e ∈ walkFolder env.filter env.folder env.hint.roots ↔
      ∃ ev ∈ env.hint.events, e ∈ walkRoot env.filter env.folder (segments (clean ev.path)) := by
  rw [ScanHint.roots, if_neg (by simp [hfull]), walkFolder, List.mem_flatMap]
  simp only [List.mem_eraseDups, List.mem_map]
  constructor
  · rintro ⟨_, ⟨ev, hev, rfl⟩, he⟩
    exact ⟨ev, hev, he⟩
  · rintro ⟨ev, hev, he⟩
    exact ⟨_, ⟨ev, hev, rfl⟩, he⟩

/-- What the bounded walk comes by lies at or below an event. -/
theorem below_of_mem_hinted_walk (hfull : env.hint.fullDiscovery = false) {e : WalkEvent}
    (he : e ∈ walkFolder env.filter env.folder env.hint.roots) :
    ∃ ev ∈ env.hint.events, below (clean ev.path) (joinSlash e.names) = true := by
  obtain ⟨ev, hev, he⟩ := (mem_hinted_walk_iff hfull).mp he
  obtain ⟨rest, hrest⟩ := names_of_mem_walkRoot he
  refine ⟨ev, hev, ?_⟩
  have hbelow := below_joinSlash_append (segments_ne_nil (clean ev.path)) rest
  rwa [joinSlash_segments, ← hrest] at hbelow

theorem blocked_full_of_failed {names : List GoString} {rel : GoString}
    (h : .failed names ∈ walkFolder env.filter env.folder none)
    (hrel : joinSlash names = [] ∨ below (joinSlash names) rel = true) : env.full.Blocked rel :=
  ⟨names, h, hrel⟩

/-- What lies behind a directory the full walk cannot list is blocked for it. -/
theorem blocked_full_of_above {init : List GoString} (last : List GoString) {rel : GoString}
    (h : .failed init ∈ walkFolder env.filter env.folder none)
    (hrel : below (joinSlash (init ++ last)) rel = true) : env.full.Blocked rel := by
  refine blocked_full_of_failed h ?_
  by_cases hinit : init = []
  · exact .inl (by rw [hinit]; rfl)
  · exact .inr (below_trans (below_joinSlash_append hinit last) hrel)

/-- The bounded walk sees what the full one sees, or is behind what that could not list. -/
theorem sees_full_or_blocked (hfull : env.hint.fullDiscovery = false) {rel : GoString}
    (h : env.Sees rel) : env.full.Sees rel ∨ env.full.Blocked rel := by
  obtain ⟨names, node, v, hvisit, hv, rfl⟩ := h
  obtain ⟨ev, -, he⟩ := (mem_hinted_walk_iff hfull).mp hvisit
  rcases mem_walkRoot (segments_ne_nil _) he with hin | ⟨init, last, heq, -, hfail⟩ | ⟨heq, -⟩
  · exact .inl ⟨names, node, v, hin, hv, rfl⟩
  · obtain ⟨rest, hrest⟩ := names_of_mem_walkRoot he
    refine .inr (blocked_full_of_above last hfail ?_)
    have hbelow := below_joinSlash_append (segments_ne_nil (clean ev.path)) rest
    rwa [← hrest, heq] at hbelow
  · cases heq

/-- What is blocked for the bounded walk is blocked for the full one, or lies at or below an event
at which `Lstat` fails. -/
theorem blocked_hinted_iff (hfull : env.hint.fullDiscovery = false) {rel : GoString}
    (hfree : ¬ env.full.Blocked rel) :
    env.Blocked rel ↔ ∃ ev ∈ env.hint.events, env.FailsAt ev ∧ below (clean ev.path) rel = true := by
  constructor
  · rintro ⟨names, hfail, hrel⟩
    obtain ⟨ev, hev, he⟩ := (mem_hinted_walk_iff hfull).mp hfail
    obtain ⟨rest, hrest⟩ := names_of_mem_walkRoot he
    have hnames : names = segments (clean ev.path) ++ rest := hrest
    have hbelow := below_joinSlash_append (segments_ne_nil (clean ev.path)) rest
    rw [← hnames] at hbelow
    have hrel : below (joinSlash names) rel = true := by
      refine hrel.resolve_left fun hnil => ?_
      rw [joinSlash_segments, hnil, below_iff, segments_nil] at hbelow
      have hone : segments (clean ev.path) = [[]] := by
        obtain ⟨t, ht, htail⟩ := (List.prefix_cons_iff.mp hbelow).resolve_left (segments_ne_nil _)
        rw [ht, List.prefix_nil.mp htail]
      have hclean : clean ev.path = [] := by
        rw [← joinSlash_segments (clean ev.path), hone]
        rfl
      have hfall : env.hint.fullDiscovery = true := by
        simp only [ScanHint.fullDiscovery, Bool.or_eq_true, List.any_eq_true]
        exact .inr ⟨ev, hev, .inl (.inr (by simp [hclean]))⟩
      simp [hfull] at hfall
    rcases mem_walkRoot (segments_ne_nil _) he with hin | ⟨init, last, heq, -, habove⟩ | ⟨heq, hl, ht⟩
    · exact absurd (blocked_full_of_failed hin (.inr hrel)) hfree
    · refine absurd (blocked_full_of_above last habove ?_) hfree
      rw [← heq]
      exact below_trans hbelow hrel
    · refine ⟨ev, hev, ⟨hl, ht⟩, ?_⟩
      rw [WalkEvent.failed.inj heq, joinSlash_segments] at hrel
      exact hrel
  · rintro ⟨ev, hev, ⟨hl, ht⟩, hrel⟩
    refine ⟨segments (clean ev.path), (mem_hinted_walk_iff hfull).mpr ⟨ev, hev, ?_⟩, .inr ?_⟩
    · rw [walkRoot, if_neg (by simp [ht]), hl]
      exact List.mem_singleton_self _
    · rwa [joinSlash_segments]

/-- A path that is as cached is settled as it is. -/
theorem settle_asCached {rel : GoString} {node : Node} {r : List Op × Option CachedFile}
    (h : node.asCached r.2 = true) : env.settle rel node r = r := by
  cases node with
  | file info content readable => exact settle_none (if_pos h)
  | symlink info target readable => exact settle_none (if_pos h)
  | other => exact settle_of_not_isFile rfl r
  | dir readable entries => exact settle_of_not_isFile rfl r

theorem settle_of_outcome {rel : GoString} {node : Node} {c : Option CachedFile}
    (h : (env.outcome rel c node).1 = c) : env.settle rel node ([], c) = ([], c) :=
  settle_none (Prod.ext h (outcome_snd_of_fst_eq h))

/-- A full scan that sees a path comes to what a bounded one comes to. -/
theorem same_of_sees (hfull : env.hint.fullDiscovery = false) (hc : env.Covers cache)
    {names : List GoString} {node : Node} {v : Verdict}
    (h : .visit names node v ∈ walkFolder env.filter env.folder none)
    (hv : v = .sync ∨ v = .symlink) :
    (env.scan (.start cache lamport seq blobs)).resultAt (joinSlash names) =
      (env.full.scan (.start cache lamport seq blobs)).resultAt (joinSlash names) := by
  have hfullscan := @scan_resultAt_of_visit env.full cache lamport seq blobs names node v h hv
  by_cases hcovered : ∃ ev ∈ env.hint.events, below (clean ev.path) (joinSlash names) = true
  · obtain ⟨ev, hev, hbelow⟩ := hcovered
    have hsegs := segments_of_lookupEntries env.folder.wellFormed (lookup_of_visit_mem_walkFolder h)
    obtain ⟨last, hlast⟩ := below_iff.mp hbelow
    rw [hsegs] at hlast
    have hvisit : .visit names node v ∈ walkFolder env.filter env.folder env.hint.roots := by
      refine (mem_hinted_walk_iff hfull).mpr ⟨ev, hev, ?_⟩
      rw [← hlast] at h ⊢
      exact visit_mem_walkRoot (segments_ne_nil _) h
    exact (scan_resultAt_of_visit hvisit hv).trans hfullscan.symm
  · have hcached : node.asCached (cache.lookup (joinSlash names)) = true := by
      by_contra hdiff
      exact hcovered (hc.changed names node v h hv (by simpa using hdiff))
    have hsees : ¬ env.Sees (joinSlash names) := by
      rintro ⟨names', node', v', hvisit, -, hnames⟩
      obtain ⟨ev, hev, hbelow⟩ := below_of_mem_hinted_walk hfull hvisit
      exact hcovered ⟨ev, hev, hnames ▸ hbelow⟩
    rw [hfullscan, scan_resultAt_of_kept hsees]
    · split
      · rfl
      · exact (settle_asCached hcached).symm
    · rintro ⟨-, -, hin, -⟩
      rw [ScanHint.inScope, hfull, Bool.false_or, List.any_eq_true] at hin
      obtain ⟨ev, hev, hbelow⟩ := hin
      exact hcovered ⟨ev, hev, (Bool.and_eq_true _ _ ▸ hbelow).2⟩

/-- A scan that finds no bound in its hint is the full one. -/
theorem scan_eq_full (hfull : env.hint.fullDiscovery = true) (s : ScanState) :
    env.scan s = env.full.scan s := by
  have hroots : env.hint.roots = none := by rw [ScanHint.roots, if_pos hfull]
  have hin : ∀ rel, env.hint.inScope rel = true := by simp [ScanHint.inScope, hfull]
  have hvisit : env.scanVisit = env.full.scanVisit := rfl
  have hdelete : env.scanDelete = env.full.scanDelete := by
    funext s rel
    simp only [ScanEnv.scanDelete, hin, full_inScope]
    rfl
  simp only [ScanEnv.scan, ScanEnv.scanDeletes, ScanEnv.scanWalk, hroots, full_roots, hvisit,
    hdelete]
  rfl

/-- Two scans mint the same for every path and leave the same cache. -/
def SameScan (s s' : ScanState) : Prop := ∀ rel, s.resultAt rel = s'.resultAt rel

/-- **The bounded scan is the full one** exactly when its hint sets no bound, or it reaches what
the full one does. -/
theorem hinted_scan_eq_full_iff (env : ScanEnv) (cache : Cache) (lamport seq : ℤ) (blobs : Blobs)
    (hc : env.Covers cache) :
    SameScan (env.scan (.start cache lamport seq blobs))
        (env.full.scan (.start cache lamport seq blobs)) ↔
      env.hint.fullDiscovery = true ∨ env.Reaches cache := by
  cases hfull : env.hint.fullDiscovery with
  | true => simp [SameScan, scan_eq_full hfull]
  | false =>
    rw [or_iff_right (by simp)]
    constructor
    · intro hsame
      refine ⟨fun rel hrel hsees hfree hwrite ev hev hfails => ?_,
        fun rel hsees hblocked hwrite => ⟨?_, fun hrel hsees' hin => ?_⟩⟩
      · by_contra hbelow
        have hblocked : env.Blocked rel :=
          (blocked_hinted_iff hfull hfree).mpr ⟨ev, hev, hfails, by simpa using hbelow⟩
        have hkept : (env.scan (.start cache lamport seq blobs)).resultAt rel = _ :=
          scan_resultAt_of_kept
            (fun h => (sees_full_or_blocked hfull h).elim hsees hfree) fun h => h.2.1 hblocked
        have hforgot : (env.full.scan (.start cache lamport seq blobs)).resultAt rel = _ :=
          scan_resultAt_of_forgotten hsees hrel hfree (full_inScope env rel) hwrite
        have hnone : cache.lookup rel = none :=
          congrArg Prod.snd (hkept.symm.trans ((hsame rel).trans hforgot))
        exact AList.lookup_eq_none.mp hnone hrel
      · rintro names node v hvisit hv rfl
        have hkept : (env.full.scan (.start cache lamport seq blobs)).resultAt (joinSlash names) =
            _ := scan_resultAt_of_kept hsees fun h => h.2.1 hblocked
        have hvisited : (env.scan (.start cache lamport seq blobs)).resultAt (joinSlash names) = _ :=
          scan_resultAt_of_visit hvisit hv
        rw [hwrite, if_neg (by simp)] at hvisited
        exact congrArg Prod.snd (hvisited.symm.trans ((hsame _).trans hkept))
      · by_contra hfree
        have hkept : (env.full.scan (.start cache lamport seq blobs)).resultAt rel = _ :=
          scan_resultAt_of_kept hsees fun h => h.2.1 hblocked
        have hforgot : (env.scan (.start cache lamport seq blobs)).resultAt rel = _ :=
          scan_resultAt_of_forgotten hsees' hrel hfree hin hwrite
        have hnone : cache.lookup rel = none :=
          congrArg Prod.snd (hkept.symm.trans ((hsame rel).symm.trans hforgot))
        exact AList.lookup_eq_none.mp hnone hrel
    · intro hreach rel
      by_cases hsees : env.full.Sees rel
      · obtain ⟨names, node, v, hvisit, hv, rfl⟩ := hsees
        exact same_of_sees hfull hc hvisit hv
      by_cases hblocked : env.full.Blocked rel
      · -- the full scan leaves the path alone
        have hkept : (env.full.scan (.start cache lamport seq blobs)).resultAt rel = _ :=
          scan_resultAt_of_kept hsees fun h => h.2.1 hblocked
        rw [hkept]
        by_cases hsees' : env.Sees rel
        · obtain ⟨names, node, v, hvisit, hv, rfl⟩ := hsees'
          rw [scan_resultAt_of_visit hvisit hv]
          cases hwrite : env.scope.readOnlyPath (joinSlash names) with
          | true => rfl
          | false =>
            exact settle_of_outcome
              ((hreach.hidden _ hsees hblocked hwrite).1 names node v hvisit hv rfl)
        · exact scan_resultAt_of_kept hsees' fun ⟨hrel, hfree, hin, hwrite⟩ =>
            hfree ((hreach.hidden rel hsees hblocked hwrite).2 hrel hsees' hin)
      · have hsees' : ¬ env.Sees rel := fun h =>
          (sees_full_or_blocked hfull h).elim hsees hblocked
        by_cases hforget : rel ∈ cache ∧ env.scope.readOnlyPath rel = false
        · obtain ⟨hrel, hwrite⟩ := hforget
          have hfree : ¬ env.Blocked rel := by
            rw [blocked_hinted_iff hfull hblocked]
            rintro ⟨ev, hev, hfails, hbelow⟩
            simp [hreach.asked rel hrel hsees hblocked hwrite ev hev hfails] at hbelow
          have hforgot : (env.full.scan (.start cache lamport seq blobs)).resultAt rel = _ :=
            scan_resultAt_of_forgotten hsees hrel hblocked (full_inScope env rel) hwrite
          rw [hforgot, scan_resultAt_of_forgotten hsees' hrel hfree
            (hc.gone rel hrel hsees hblocked) hwrite]
          rfl
        · have hkept : (env.full.scan (.start cache lamport seq blobs)).resultAt rel = _ :=
            scan_resultAt_of_kept hsees fun h => hforget ⟨h.1, h.2.2.2⟩
          rw [hkept, scan_resultAt_of_kept hsees' fun h => hforget ⟨h.1, h.2.2.2⟩]

/-- A folder in which a file stands where the cache has a directory with one file. -/
def replacedEnv (events : List ScanEvent) : ScanEnv where
  hash := spelledHash
  folder := { entries := [(ascii "d", .file {} (ascii "k") true)] }
  filter := loadFilter none [] fun _ => false
  stamp := { device := ascii "v" }
  hint := { full := false, events }

/-- The cache of that directory. -/
def replacedCache : Cache :=
  (∅ : Cache).insert (ascii "d/x") { blob := spelledHash.sum (ascii "j"), size := 1 }

/-- What the directory leaves behind in a hint: an event of its own. -/
def replacedEvent : ScanEvent := { path := ascii "d", directory := true, removed := true }

theorem replaced_walk (events : List ScanEvent) :
    walkFolder (replacedEnv events).filter (replacedEnv events).folder none =
      [.visit [ascii "d"] (.file {} (ascii "k") true) .sync] := rfl

theorem replaced_covers {events : List ScanEvent} (h : replacedEvent ∈ events) :
    (replacedEnv events).Covers replacedCache where
  changed names node v hvisit _ _ := by
    rw [replaced_walk, List.mem_singleton] at hvisit
    obtain ⟨rfl, -, -⟩ := WalkEvent.visit.inj hvisit
    exact ⟨replacedEvent, h, by decide⟩
  gone rel hrel _ _ := by
    rw [replacedCache, AList.mem_insert] at hrel
    obtain rfl : rel = ascii "d/x" := hrel.resolve_right (AList.notMem_empty rel)
    rw [ScanHint.inScope, Bool.or_eq_true, List.any_eq_true]
    exact .inr ⟨replacedEvent, h, by decide⟩

/-- With the event of the directory alone the two scans agree. -/
theorem hinted_scan_eq_full_directory :
    SameScan ((replacedEnv [replacedEvent]).scan (.start replacedCache 1 1 fun _ => none))
      ((replacedEnv [replacedEvent]).full.scan (.start replacedCache 1 1 fun _ => none)) := by
  refine (hinted_scan_eq_full_iff _ _ 1 1 _
    (replaced_covers (List.mem_singleton_self _))).mpr (.inr ⟨?_, ?_⟩)
  · rintro rel - - - - ev hev ⟨hfails, -⟩
    rw [List.mem_singleton.mp hev] at hfails
    have hfound : (replacedEnv [replacedEvent]).folder.lstat (segments (clean replacedEvent.path)) =
        .found (.file {} (ascii "k") true) := by rfl
    rw [hfound] at hfails
    cases hfails
  · rintro rel - ⟨names, hfail, -⟩
    rw [full_roots, ScanEnv.full, replaced_walk, List.mem_singleton] at hfail
    cases hfail

/-- With the event of its entry as well, the entry is never journaled as deleted. -/
theorem hinted_scan_misses_deletes : ¬ ∀ (env : ScanEnv) (cache : Cache) (lamport seq : ℤ)
    (blobs : Blobs), env.Covers cache → SameScan (env.scan (.start cache lamport seq blobs))
      (env.full.scan (.start cache lamport seq blobs)) := by
  intro h
  have hsame := h (replacedEnv [{ path := ascii "d/x", removed := true }, replacedEvent])
    replacedCache 1 1 (fun _ => none) (replaced_covers (by simp)) (ascii "d/x")
  exact absurd (congrArg Prod.snd hsame) (by decide +kernel)

end Beardrive
