import Beardrive.Syncer.ScanHinted
import Mathlib.Data.Finset.Card

/-!
# Drift

`bdrive status` counts what the next scan would find: files the cache does not know, files whose
size or time moved, and cached paths that are gone. It is a pure read, so it opens no file. The scan
does open a file that is new or has moved, and mints a put where it could read it and the content is
not the cached one; a file that was merely touched drifts and is not journaled.

## Links

The count looks at regular files alone, where the scan journals symbolic links as well. A cached
link is therefore counted as gone for as long as it stands. The count also knows nothing of the
folders this account may not write and of directories that cannot be read. The results below are
about folders without any of these.

## Main definitions

* `drift` — the three counts
* `ScanEnv.moved` — the files a scan does not pass over

## Main results

* `drift_counts` — what is counted is what a scan mints, and the files it opens for nothing
-/

namespace Beardrive

/-! ### The counts -/

/-- What the walk has come to. -/
structure DriftState where
  added : ℕ := 0
  modified : ℕ := 0
  seen : List GoString := []

/-- What a folder holds that the cache does not know about. -/
structure DriftCounts where
  added : ℕ := 0
  modified : ℕ := 0
  removed : ℕ := 0
  deriving DecidableEq, Repr

/-- What the walk does with an event: only a regular file that syncs is looked at. -/
def driftVisit (cache : Cache) (d : DriftState) : WalkEvent → DriftState
  | .visit names (.file info _ _) .sync =>
    let d := { d with seen := joinSlash names :: d.seen }
    match cache.lookup (joinSlash names) with
    | none => { d with added := d.added + 1 }
    | some c =>
      if c.size != info.size || c.mtimeNS != info.mtimeNS then { d with modified := d.modified + 1 }
      else d
  | _ => d

/-- The walk of `drift`. -/
def driftWalk (f : Filter) (folder : Folder) (cache : Cache) : DriftState :=
  (walkFolder f folder none).foldl (driftVisit cache) {}

/-- `Drift`: files added, files whose size or time moved, and cached paths that are gone. -/
def drift (f : Filter) (folder : Folder) (cache : Cache) : DriftCounts :=
  let d := driftWalk f folder cache
  { added := d.added
    modified := d.modified
    removed := cache.keys.countP fun rel =>
      !(d.seen.contains rel || neverSync rel || f.skip rel) }

/-! ### Files a scan does not pass over -/

/-- A file that is new, or whose size or time moved: its path, whether the cache knows it, and
whether it can be read and has another content than the cached one. -/
structure MovedFile where
  rel : GoString
  known : Bool
  put : Bool
  deriving DecidableEq

/-- The file of an event, if it has moved. -/
def ScanEnv.movedAt (env : ScanEnv) (cache : Cache) : WalkEvent → Option MovedFile
  | .visit names (.file info content readable) .sync =>
    match cache.lookup (joinSlash names) with
    | none => some { rel := joinSlash names, known := false, put := readable }
    | some c =>
      if c.size != info.size || c.mtimeNS != info.mtimeNS then
        some { rel := joinSlash names, known := true,
               put := readable && c.blob != env.hash.sum content }
      else none
  | _ => none

/-- The files that a full scan does not pass over. -/
def ScanEnv.moved (env : ScanEnv) (cache : Cache) : List MovedFile :=
  (walkFolder env.filter env.folder none).filterMap (env.movedAt cache)

variable {env : ScanEnv} {cache : Cache}

theorem driftVisit_added (d : DriftState) (e : WalkEvent) :
    (driftVisit cache d e).added =
      d.added + ((env.movedAt cache e).toList.countP fun m => !m.known) := by
  unfold driftVisit ScanEnv.movedAt
  split
  · dsimp only
    cases cache.lookup _ with
    | none => rfl
    | some c =>
      dsimp only
      split_ifs <;> rfl
  · rfl

theorem driftVisit_modified (d : DriftState) (e : WalkEvent) :
    (driftVisit cache d e).modified =
      d.modified + ((env.movedAt cache e).toList.countP fun m => m.known) := by
  unfold driftVisit ScanEnv.movedAt
  split
  · dsimp only
    cases cache.lookup _ with
    | none => rfl
    | some c =>
      dsimp only
      split_ifs <;> rfl
  · rfl

theorem foldl_driftVisit (events : List WalkEvent) (d : DriftState) :
    (events.foldl (driftVisit cache) d).added =
        d.added + ((events.filterMap (env.movedAt cache)).countP fun m => !m.known) ∧
      (events.foldl (driftVisit cache) d).modified =
        d.modified + ((events.filterMap (env.movedAt cache)).countP fun m => m.known) := by
  induction events generalizing d with
  | nil => exact ⟨rfl, rfl⟩
  | cons e events ih =>
    obtain ⟨hadded, hmodified⟩ := ih (driftVisit cache d e)
    have hlist : (e :: events).filterMap (env.movedAt cache) =
        (env.movedAt cache e).toList ++ events.filterMap (env.movedAt cache) := by
      rw [List.filterMap_cons]
      cases env.movedAt cache e <;> rfl
    rw [List.foldl_cons, hadded, hmodified, driftVisit_added, driftVisit_modified, hlist,
      List.countP_append, List.countP_append, Nat.add_assoc, Nat.add_assoc]
    exact ⟨rfl, rfl⟩

/-- **The counts of the walk** are those of the files that have moved. -/
theorem drift_added_modified (env : ScanEnv) (cache : Cache) :
    (drift env.filter env.folder cache).added = ((env.moved cache).countP fun m => !m.known) ∧
      (drift env.filter env.folder cache).modified =
        ((env.moved cache).countP fun m => m.known) := by
  obtain ⟨hadded, hmodified⟩ :=
    @foldl_driftVisit env cache (walkFolder env.filter env.folder none) {}
  exact ⟨hadded.trans (Nat.zero_add _), hmodified.trans (Nat.zero_add _)⟩

/-! ### Every file once -/

/-- The names of a visit. -/
def WalkEvent.visited : WalkEvent → Option (List GoString)
  | .visit names _ _ => some names
  | .failed _ => none

theorem WalkEvent.names_of_visited {e : WalkEvent} {names : List GoString}
    (h : e.visited = some names) : e.names = names := by
  cases e with
  | visit names' n v => exact Option.some.inj h
  | failed names' => cases h

mutual

theorem nodup_walkNode (f : Filter) (names : List GoString) :
    ∀ n : Node, n.wellFormed = true → ((walkNode f names n).filterMap WalkEvent.visited).Nodup
  | .dir readable entries, hwf => by
    have hsub := nodup_walkEntries f names entries hwf
    have hnotin : names ∉ (walkEntries f names entries).filterMap WalkEvent.visited := by
      intro h
      obtain ⟨e, he, hvisited⟩ := List.mem_filterMap.mp h
      obtain ⟨name, rest, hnames⟩ := names_of_mem_walkEntries f names entries e he
      rw [WalkEvent.names_of_visited hvisited] at hnames
      simp at hnames
    rw [walkNode, List.filterMap_cons]
    change (names :: List.filterMap WalkEvent.visited _).Nodup
    split_ifs
    · exact List.nodup_cons.mpr ⟨hnotin, hsub⟩
    · exact List.nodup_singleton _
    · exact List.nodup_singleton _
  | .file .., _ => List.nodup_singleton _
  | .symlink .., _ => List.nodup_singleton _
  | .other, _ => List.nodup_singleton _

theorem nodup_walkEntries (f : Filter) (dir : List GoString) :
    ∀ entries : List (GoString × Node), wellFormedEntries entries = true →
      ((walkEntries f dir entries).filterMap WalkEvent.visited).Nodup
  | [], _ => List.nodup_nil
  | (name, n) :: entries, hwf => by
    obtain ⟨-, hnew, hn, hrest⟩ := wellFormedEntries_cons.mp hwf
    rw [walkEntries, List.filterMap_append, List.nodup_append]
    refine ⟨nodup_walkNode f (dir ++ [name]) n hn, nodup_walkEntries f dir entries hrest, ?_⟩
    rintro names hleft names' hright rfl
    obtain ⟨e, he, hvisited⟩ := List.mem_filterMap.mp hleft
    obtain ⟨e', he', hvisited'⟩ := List.mem_filterMap.mp hright
    obtain ⟨rest, hnames⟩ := names_of_mem_walkNode f _ n e he
    obtain ⟨name', n', hmem, he'⟩ := mem_walkEntries_iff.mp he'
    obtain ⟨rest', hnames'⟩ := names_of_mem_walkNode f _ n' e' he'
    rw [WalkEvent.names_of_visited hvisited] at hnames
    rw [WalkEvent.names_of_visited hvisited', hnames] at hnames'
    have hname : name = name' := by
      simpa using congrArg (fun l => (l.drop dir.length).head?) hnames'
    exact hnew (List.mem_map.mpr ⟨_, hmem, hname.symm⟩)

end

/-- **No path is visited twice.** -/
theorem nodup_walkFolder (f : Filter) (folder : Folder) :
    ((walkFolder f folder none).filterMap WalkEvent.visited).Nodup := by
  rw [walkFolder]
  split
  · exact nodup_walkEntries f [] _ folder.wellFormed
  · exact List.nodup_nil

theorem mem_moved_iff {m : MovedFile} : m ∈ env.moved cache ↔
    ∃ names info content readable,
      .visit names (.file info content readable) .sync ∈ walkFolder env.filter env.folder none ∧
        env.movedAt cache (.visit names (.file info content readable) .sync) = some m := by
  rw [ScanEnv.moved, List.mem_filterMap]
  constructor
  · rintro ⟨e, he, hm⟩
    cases e with
    | failed names => cases hm
    | visit names n v =>
      cases n with
      | file info content readable =>
        cases v with
        | sync => exact ⟨names, info, content, readable, he, hm⟩
        | _ => cases hm
      | _ => cases hm
  · rintro ⟨names, info, content, readable, he, hm⟩
    exact ⟨_, he, hm⟩

/-- What has moved is at the path of the visit, and known where the cache has it. -/
theorem movedAt_eq_some {names : List GoString} {n : Node} {v : Verdict} {m : MovedFile}
    (h : env.movedAt cache (.visit names n v) = some m) :
    m.rel = joinSlash names ∧ m.known = (cache.lookup m.rel).isSome := by
  unfold ScanEnv.movedAt at h
  split at h
  · rename_i heq
    obtain ⟨rfl, -, -⟩ := WalkEvent.visit.inj heq
    cases hc : cache.lookup (joinSlash names) with
    | none =>
      rw [hc] at h
      obtain rfl := Option.some.inj h
      exact ⟨rfl, by rw [hc]; rfl⟩
    | some c =>
      rw [hc] at h
      dsimp only at h
      split_ifs at h
      obtain rfl := Option.some.inj h
      exact ⟨rfl, by rw [hc]; rfl⟩
  · cases h

/-- **No file has moved twice.** -/
theorem nodup_moved (env : ScanEnv) (cache : Cache) :
    ((env.moved cache).map MovedFile.rel).Nodup := by
  have hnames := nodup_walkFolder env.filter env.folder
  have hpaths : ((walkFolder env.filter env.folder none).filterMap fun e =>
      (env.movedAt cache e).bind fun _ => e.visited).Nodup := by
    refine hnames.sublist ?_
    generalize walkFolder env.filter env.folder none = events
    induction events with
    | nil => exact List.Sublist.refl _
    | cons e events ih =>
      rw [List.filterMap_cons, List.filterMap_cons]
      cases env.movedAt cache e with
      | none =>
        cases e.visited with
        | none => exact ih
        | some names => exact ih.cons _
      | some m =>
        cases e.visited with
        | none => exact ih
        | some names => exact ih.cons_cons _
  have hmap : (env.moved cache).map MovedFile.rel =
      ((walkFolder env.filter env.folder none).filterMap fun e =>
        (env.movedAt cache e).bind fun _ => e.visited).map joinSlash := by
    rw [ScanEnv.moved, List.map_filterMap, List.map_filterMap]
    refine List.filterMap_congr fun e _ => ?_
    cases hm : env.movedAt cache e with
    | none => rfl
    | some m =>
      cases e with
      | failed names => cases hm
      | visit names n v => exact congrArg some (movedAt_eq_some hm).1
  rw [hmap]
  refine hpaths.map_on fun names h names' h' heq => ?_
  -- a path determines its names
  have hlook : ∀ names, names ∈ ((walkFolder env.filter env.folder none).filterMap fun e =>
      (env.movedAt cache e).bind fun _ => e.visited) → segments (joinSlash names) = names := by
    intro names h
    obtain ⟨e, he, hvisited⟩ := List.mem_filterMap.mp h
    cases e with
    | failed names => cases hvisited
    | visit names' n v =>
      obtain ⟨m, -, hsome⟩ := Option.bind_eq_some_iff.mp hvisited
      obtain rfl := Option.some.inj hsome
      exact segments_of_lookupEntries env.folder.wellFormed (lookup_of_visit_mem_walkFolder he)
  rw [← hlook names h, heq, hlook names' h']

/-! ### What a scan mints -/

/-- The paths of the ops of some kind. -/
def ScanState.paths (s : ScanState) (p : Op → Bool) : Finset GoString :=
  ((s.ops.filter p).map Op.path).toFinset

theorem ScanState.mem_paths {s : ScanState} {p : Op → Bool} {rel : GoString} :
    rel ∈ s.paths p ↔ ∃ op ∈ s.ops, p op = true ∧ op.path = rel := by
  simp [ScanState.paths, and_assoc]

/-- Whether an op is a put of a path that the cache knows, or of one that it does not know. -/
def isPutKnown (cache : Cache) (known : Bool) (op : Op) : Bool :=
  op.kind == .put && (cache.lookup op.path).isSome == known

/-- Whether an op is a delete. -/
def isDelete (op : Op) : Bool := op.kind == .delete

/-- What the counts are about: no directory fails to be read, no link syncs, and this account may
write whatever the walk sees or the cache has. -/
structure ScanEnv.Plainly (env : ScanEnv) (cache : Cache) : Prop where
  full : env.hint.full = true
  readable : env.folder.allReadable = true
  noLink : ∀ names n, .visit names n .symlink ∉ walkFolder env.filter env.folder none
  writable : ∀ rel, rel ∈ cache ∨ env.Sees rel → env.scope.readOnlyPath rel = false

variable {lamport seq : ℤ} {blobs : Blobs}

/-- What the walk sees is a regular file. -/
theorem ScanEnv.Plainly.sees_iff (h : env.Plainly cache) {rel : GoString} :
    env.Sees rel ↔ ∃ names info content readable,
      .visit names (.file info content readable) .sync ∈ walkFolder env.filter env.folder none ∧
        joinSlash names = rel := by
  rw [ScanEnv.Sees, roots_of_full h.full]
  constructor
  · rintro ⟨names, n, v, hvisit, hv, rfl⟩
    rcases hv with rfl | rfl
    · have hfile := (verdict_syncs_iff.mp (.inl (verdict_of_mem_walkFolder hvisit).symm)).1
      cases n with
      | file info content readable => exact ⟨names, info, content, readable, hvisit, rfl⟩
      | symlink info target readable =>
        have hverdict := verdict_of_mem_walkFolder hvisit
        rw [verdict] at hverdict
        split_ifs at hverdict
      | other => cases hfile
      | dir => cases hfile
    · exact absurd hvisit (h.noLink names n)
  · rintro ⟨names, info, content, readable, hvisit, rfl⟩
    exact ⟨names, _, _, hvisit, .inl rfl, rfl⟩

/-- The ops of a path, through what a scan comes to there. -/
theorem exists_op_iff {s : ScanState} {rel : GoString} {k : Kind} :
    (∃ op ∈ s.ops, op.kind = k ∧ op.path = rel) ↔ ∃ op ∈ (s.resultAt rel).1, op.kind = k := by
  unfold ScanState.resultAt
  constructor
  · rintro ⟨op, hop, hkind, hpath⟩
    exact ⟨op.unplaced, List.mem_map_of_mem (List.mem_filter.mpr ⟨hop, by simpa using hpath⟩), hkind⟩
  · rintro ⟨_, hmem, hkind⟩
    obtain ⟨op, hop, rfl⟩ := List.mem_map.mp hmem
    obtain ⟨hop, hpath⟩ := List.mem_filter.mp hop
    exact ⟨op, hop, hkind, by simpa using hpath⟩

/-- The visit of a file mints a put exactly where it has moved and is to be put. -/
theorem outcome_put_iff {names : List GoString} {info : FileInfo} {content : GoString}
    {readable : Bool} :
    (∃ op ∈ (env.settle (joinSlash names) (.file info content readable)
        ([], cache.lookup (joinSlash names))).1, op.kind = .put) ↔
      ∃ m, env.movedAt cache (.visit names (.file info content readable) .sync) = some m ∧
        m.put = true := by
  rw [ScanEnv.settle, ScanEnv.movedAt]
  simp only [List.nil_append, Option.mem_toList, Option.map_eq_some_iff]
  cases hc : cache.lookup (joinSlash names) with
  | none =>
    cases readable with
    | false => simp [ScanEnv.outcome]
    | true => simp [ScanEnv.outcome, Stamp.apply]
  | some c =>
    by_cases hstat : c.size = info.size ∧ c.mtimeNS = info.mtimeNS
    · simp [ScanEnv.outcome, hstat.1, hstat.2]
    · have hmoved : (c.size != info.size || c.mtimeNS != info.mtimeNS) = true := by
        rw [Bool.or_eq_true, bne_iff_ne, bne_iff_ne]
        exact not_and_or.mp hstat
      cases readable with
      | false => simp [ScanEnv.outcome, hstat, hmoved]
      | true =>
        by_cases hblob : c.blob = env.hash.sum content
        · simp [ScanEnv.outcome, hstat, hmoved, hblob]
        · simp [ScanEnv.outcome, hstat, hmoved, hblob, Stamp.apply]

/-- **The puts of a scan** are the files that have moved and are to be put. -/
theorem put_mem_scan_iff (h : env.Plainly cache) {rel : GoString} :
    (∃ op ∈ (env.scan (.start cache lamport seq blobs)).ops, op.kind = .put ∧ op.path = rel) ↔
      ∃ m ∈ env.moved cache, m.rel = rel ∧ m.put = true := by
  rw [exists_op_iff]
  by_cases hsees : env.Sees rel
  · obtain ⟨names, info, content, readable, hvisit, rfl⟩ := h.sees_iff.mp hsees
    rw [scan_resultAt_of_visit (by rwa [roots_of_full h.full]) (.inl rfl),
      if_neg (by simp [h.writable _ (.inr hsees)]), outcome_put_iff]
    constructor
    · rintro ⟨m, hm, hput⟩
      exact ⟨m, mem_moved_iff.mpr ⟨_, _, _, _, hvisit, hm⟩, (movedAt_eq_some hm).1, hput⟩
    · rintro ⟨m, hmem, hrel, hput⟩
      obtain ⟨names', info', content', readable', hvisit', hm⟩ := mem_moved_iff.mp hmem
      have hlook := lookup_of_visit_mem_walkFolder hvisit
      have hlook' := lookup_of_visit_mem_walkFolder hvisit'
      have hwf := env.folder.wellFormed
      have hnames : names' = names := by
        rw [← segments_of_lookupEntries hwf hlook', ← (movedAt_eq_some hm).1, hrel,
          segments_of_lookupEntries hwf hlook]
      rw [hnames, hlook] at hlook'
      rw [hnames, ← Option.some.inj hlook'] at hm
      exact ⟨m, hm, hput⟩
  · have hnone : ¬ ∃ m ∈ env.moved cache, m.rel = rel ∧ m.put = true := by
      rintro ⟨m, hmem, hrel, -⟩
      obtain ⟨names, info, content, readable, hvisit, hm⟩ := mem_moved_iff.mp hmem
      exact hsees (h.sees_iff.mpr
        ⟨names, info, content, readable, hvisit, (movedAt_eq_some hm).1.symm.trans hrel⟩)
    refine iff_of_false ?_ hnone
    by_cases hforgotten : rel ∈ cache ∧ ¬ env.Blocked rel ∧ env.hint.inScope rel = true ∧
        env.scope.readOnlyPath rel = false
    · obtain ⟨hcache, hblocked, hin, hwrite⟩ := hforgotten
      rw [scan_resultAt_of_forgotten hsees hcache hblocked hin hwrite, ScanEnv.forget]
      split_ifs <;> simp [Stamp.apply]
    · rw [scan_resultAt_of_kept hsees hforgotten]
      simp

/-! ### The counts and the scan -/

theorem driftVisit_seen (d : DriftState) (e : WalkEvent) (rel : GoString) :
    rel ∈ (driftVisit cache d e).seen ↔ rel ∈ d.seen ∨
      ∃ names info content readable,
        e = .visit names (.file info content readable) .sync ∧ joinSlash names = rel := by
  unfold driftVisit
  split
  · rename_i names info content readable
    have hseen : (rel ∈ joinSlash names :: d.seen) ↔ rel ∈ d.seen ∨
        ∃ names' info' content' readable',
          WalkEvent.visit names (.file info content readable) .sync =
            .visit names' (.file info' content' readable') .sync ∧ joinSlash names' = rel := by
      rw [List.mem_cons, or_comm]
      refine or_congr_right ⟨fun h => ⟨_, _, _, _, rfl, h.symm⟩, ?_⟩
      rintro ⟨names', _, _, _, heq, rfl⟩
      rw [(WalkEvent.visit.inj heq).1]
    rw [← hseen]
    dsimp only
    split
    · rfl
    · split_ifs <;> rfl
  · rename_i hnot
    refine ⟨.inl, fun h => h.resolve_right ?_⟩
    rintro ⟨names, info, content, readable, rfl, -⟩
    exact hnot _ _ _ _ rfl

theorem mem_driftWalk_seen (h : env.Plainly cache) {rel : GoString} :
    rel ∈ (driftWalk env.filter env.folder cache).seen ↔ env.Sees rel := by
  have hfold : ∀ (events : List WalkEvent) (d : DriftState),
      rel ∈ (events.foldl (driftVisit cache) d).seen ↔ rel ∈ d.seen ∨
        ∃ names info content readable,
          .visit names (.file info content readable) .sync ∈ events ∧ joinSlash names = rel := by
    intro events
    induction events with
    | nil => simp
    | cons e events ih =>
      intro d
      rw [List.foldl_cons, ih, driftVisit_seen, or_assoc]
      refine or_congr_right ?_
      constructor
      · rintro (⟨names, info, content, readable, rfl, h⟩ | ⟨names, info, content, readable, hmem, h⟩)
        · exact ⟨names, info, content, readable, List.mem_cons_self, h⟩
        · exact ⟨names, info, content, readable, List.mem_cons_of_mem _ hmem, h⟩
      · rintro ⟨names, info, content, readable, hmem, h⟩
        rcases List.mem_cons.mp hmem with heq | hmem
        · exact .inl ⟨names, info, content, readable, heq.symm, h⟩
        · exact .inr ⟨names, info, content, readable, hmem, h⟩
  rw [driftWalk, hfold, or_iff_right (by simp), h.sees_iff]

/-- **What is counted as gone** is what the scan deletes. -/
theorem drift_removed (h : env.Plainly cache) (lamport seq : ℤ) (blobs : Blobs) :
    (drift env.filter env.folder cache).removed =
      ((env.scan (.start cache lamport seq blobs)).paths isDelete).card := by
  have hpaths : (env.scan (.start cache lamport seq blobs)).paths isDelete =
      (cache.keys.filter fun rel => !((driftWalk env.filter env.folder cache).seen.contains rel ||
        neverSync rel || env.filter.skip rel)).toFinset := by
    ext rel
    have hdelete := delete_mem_scan_iff h.full h.readable cache lamport seq blobs rel
    rw [ScanState.mem_paths, List.mem_toFinset, List.mem_filter, ← AList.mem_keys]
    simp only [isDelete, beq_iff_eq]
    rw [hdelete]
    simp only [Bool.not_eq_true', Bool.or_eq_false_iff, List.contains_eq_mem,
      decide_eq_false_iff_not, mem_driftWalk_seen h]
    constructor
    · rintro ⟨hcache, hsees, -, hnever, hskip⟩
      exact ⟨hcache, ⟨hsees, hnever⟩, hskip⟩
    · rintro ⟨hcache, ⟨hsees, hnever⟩, hskip⟩
      exact ⟨hcache, hsees, h.writable rel (.inl hcache), hnever, hskip⟩
  rw [hpaths, List.toFinset_card_of_nodup ((AList.keys_nodup cache).filter _), drift,
    List.countP_eq_length_filter]

/-- How many paths a scan puts, of those that the cache knows or of the others. -/
theorem card_puts (h : env.Plainly cache) (lamport seq : ℤ) (blobs : Blobs) (known : Bool) :
    ((env.scan (.start cache lamport seq blobs)).paths (isPutKnown cache known)).card =
      ((env.moved cache).countP fun m => m.known == known && m.put) := by
  have hpaths : (env.scan (.start cache lamport seq blobs)).paths (isPutKnown cache known) =
      (((env.moved cache).filter fun m => m.known == known && m.put).map MovedFile.rel).toFinset := by
    ext rel
    rw [ScanState.mem_paths, List.mem_toFinset, List.mem_map]
    constructor
    · rintro ⟨op, hop, hput, rfl⟩
      rw [isPutKnown, Bool.and_eq_true, beq_iff_eq, beq_iff_eq] at hput
      obtain ⟨m, hm, hrel, hmput⟩ := (put_mem_scan_iff h).mp ⟨op, hop, hput.1, rfl⟩
      obtain ⟨names, info, content, readable, -, hat⟩ := mem_moved_iff.mp hm
      have hknown := (movedAt_eq_some hat).2
      rw [hrel, hput.2] at hknown
      exact ⟨m, List.mem_filter.mpr ⟨hm, by simp [hknown, hmput]⟩, hrel⟩
    · rintro ⟨m, hm, rfl⟩
      obtain ⟨hm, hput⟩ := List.mem_filter.mp hm
      rw [Bool.and_eq_true, beq_iff_eq] at hput
      obtain ⟨op, hop, hkind, hpath⟩ := (@put_mem_scan_iff env cache lamport seq blobs h m.rel).mpr
        ⟨m, hm, rfl, hput.2⟩
      obtain ⟨names, info, content, readable, -, hat⟩ := mem_moved_iff.mp hm
      refine ⟨op, hop, ?_, hpath⟩
      rw [isPutKnown, hkind, hpath, ← (movedAt_eq_some hat).2, hput.1]
      simp
  have hnodup : (((env.moved cache).filter fun m => m.known == known && m.put).map
      MovedFile.rel).Nodup :=
    (nodup_moved env cache).sublist (List.Sublist.map _ List.filter_sublist)
  rw [hpaths, List.toFinset_card_of_nodup hnodup, List.length_map, List.countP_eq_length_filter]

/-- A scan mints nothing but puts and deletes. -/
theorem ops_eq_nil_iff {s : ScanState} (cache : Cache) : s.ops = [] ↔
    (s.paths (isPutKnown cache false)).card = 0 ∧ (s.paths (isPutKnown cache true)).card = 0 ∧
      (s.paths isDelete).card = 0 := by
  simp only [Finset.card_eq_zero, Finset.eq_empty_iff_forall_notMem, ScanState.mem_paths]
  constructor
  · intro h
    simp [h]
  · rintro ⟨hnew, hknown, hdelete⟩
    refine List.eq_nil_iff_forall_not_mem.mpr fun op hop => ?_
    cases hkind : op.kind with
    | delete => exact hdelete op.path ⟨op, hop, by simp [isDelete, hkind], rfl⟩
    | put =>
      cases hc : (cache.lookup op.path).isSome with
      | false => exact hnew op.path ⟨op, hop, by simp [isPutKnown, hkind, hc], rfl⟩
      | true => exact hknown op.path ⟨op, hop, by simp [isPutKnown, hkind, hc], rfl⟩

/-- **Drift and the scan.** The count of added files is that of the new paths the scan puts and of
the new files it cannot read; that of modified files is that of the known paths the scan puts and
of the known files it opens without a put; that of removed files is that of the deletes. So the
counts are zero exactly where the scan mints nothing and opens no file. -/
theorem drift_counts (env : ScanEnv) (cache : Cache) (h : env.Plainly cache) (lamport seq : ℤ)
    (blobs : Blobs) :
    (drift env.filter env.folder cache).added =
        ((env.scan (.start cache lamport seq blobs)).paths (isPutKnown cache false)).card +
          ((env.moved cache).countP fun m => !m.known && !m.put) ∧
      (drift env.filter env.folder cache).modified =
        ((env.scan (.start cache lamport seq blobs)).paths (isPutKnown cache true)).card +
          ((env.moved cache).countP fun m => m.known && !m.put) ∧
      (drift env.filter env.folder cache).removed =
        ((env.scan (.start cache lamport seq blobs)).paths isDelete).card ∧
      (drift env.filter env.folder cache = {} ↔
        (env.scan (.start cache lamport seq blobs)).ops = [] ∧ env.moved cache = []) := by
  obtain ⟨hadded, hmodified⟩ := drift_added_modified env cache
  have hremoved := drift_removed h lamport seq blobs
  have hsplit : ∀ p : MovedFile → Bool, ((env.moved cache).countP p) =
      ((env.moved cache).countP fun m => p m && m.put) +
        ((env.moved cache).countP fun m => p m && !m.put) := by
    intro p
    induction env.moved cache with
    | nil => rfl
    | cons m moved ih =>
      simp only [List.countP_cons, ih]
      cases p m <;> cases m.put <;> simp <;> omega
  have hnew := hsplit fun m => !m.known
  have hold := hsplit fun m => m.known
  have hputs := card_puts h lamport seq blobs
  have hnewPuts := hputs false
  have holdPuts := hputs true
  simp only [beq_false] at hnewPuts
  simp only [beq_true] at holdPuts
  refine ⟨by rw [hadded, hnew, hnewPuts], by rw [hmodified, hold, holdPuts], hremoved, ?_⟩
  rw [ops_eq_nil_iff cache, ← hremoved]
  have hnil : env.moved cache = [] ↔ (drift env.filter env.folder cache).added = 0 ∧
      (drift env.filter env.folder cache).modified = 0 := by
    rw [hadded, hmodified, List.countP_eq_zero, List.countP_eq_zero]
    constructor
    · intro h
      simp [h]
    · rintro ⟨hnone, hnone'⟩
      refine List.eq_nil_iff_forall_not_mem.mpr fun m hm => ?_
      cases hk : m.known with
      | true => exact hnone' m hm hk
      | false => exact hnone m hm (by rw [hk]; rfl)
  rw [hnil]
  constructor
  · intro h
    rw [hnewPuts, holdPuts]
    rw [h] at hadded hmodified ⊢
    refine ⟨⟨?_, ?_, rfl⟩, rfl, rfl⟩
    · change 0 = _ at hadded
      omega
    · change 0 = _ at hmodified
      omega
  · rintro ⟨⟨-, -, hgone⟩, hzero, hzero'⟩
    cases hd : drift env.filter env.folder cache with
    | mk added modified removed =>
      rw [hd] at hzero hzero' hgone
      cases hzero
      cases hzero'
      cases hgone
      rfl

/-- A folder with one file. -/
def touchedEnv : ScanEnv where
  hash := spelledHash
  folder := { entries := [(ascii "f", .file { size := 1 } (ascii "k") true)] }
  filter := loadFilter none [] fun _ => false
  stamp := { device := ascii "d" }

/-- The cache of a device that stored that file before it was touched. -/
def touchedCache : Cache :=
  (∅ : Cache).insert (ascii "f") { blob := spelledHash.sum (ascii "k"), size := 1, mtimeNS := 1 }

theorem touched_walk : walkFolder touchedEnv.filter touchedEnv.folder none =
    [.visit [ascii "f"] (.file { size := 1 } (ascii "k") true) .sync] := by
  have hverdict : verdict touchedEnv.filter [ascii "f"] (.file { size := 1 } (ascii "k") true) =
      .sync := by decide
  change [WalkEvent.visit [ascii "f"] (.file { size := 1 } (ascii "k") true)
    (verdict touchedEnv.filter [ascii "f"] (.file { size := 1 } (ascii "k") true))] = _
  rw [hverdict]

theorem touched_plainly : touchedEnv.Plainly touchedCache where
  full := rfl
  readable := by decide
  noLink := by
    intro names n h
    rw [touched_walk, List.mem_singleton] at h
    cases (WalkEvent.visit.inj h).2.2
  writable := by
    intro rel _
    rfl

/-- The counts on a file that was touched. -/
theorem drift_counts_touched :
    (drift touchedEnv.filter touchedEnv.folder touchedCache).modified =
        ((touchedEnv.scan (.start touchedCache 1 1 fun _ => none)).paths
          (isPutKnown touchedCache true)).card +
          ((touchedEnv.moved touchedCache).countP fun m => m.known && !m.put) :=
  (drift_counts touchedEnv touchedCache touched_plainly 1 1 fun _ => none).2.1

/-- **A file that was merely touched** drifts, and the scan mints no op for it. -/
theorem touched_drifts :
    drift touchedEnv.filter touchedEnv.folder touchedCache = { modified := 1 } ∧
      (touchedEnv.scan (.start touchedCache 1 1 fun _ => none)).ops = [] := by
  refine ⟨by decide +kernel, ?_⟩
  decide +kernel

end Beardrive
