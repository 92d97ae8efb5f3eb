import Beardrive.Syncer.Scan

/-!
# What a full scan deletes

The walk decides what counts as seen with one predicate and the delete pass decides what to
forget silently with another. A file that stands at a path the first one hides and the second one
lets through is journaled as deleted. This file says which paths those are.

There are two ways. The walk applies the accepted rules of this device and the delete pass does
not, so a path only they exclude is deleted once the cache names it, as it does after a peer has
widened the shared rules and pushed the file. And the walk prunes a directory whose name followed
by a slash is excluded, which for a pattern that ends in an escaped slash excludes nothing below.

## Main results

* `delete_mem_scan_iff` — the paths a full scan deletes
* `sees_iff` — the files the walk sees, among those the delete pass would not forget
* `scan_deletes_missing_iff` — when nothing that still stands is deleted, exactly
-/

namespace Beardrive

variable (env : ScanEnv)

/-! ### The two passes over one path -/

theorem scanFile_seen (s : ScanState) (rel : GoString) (info : FileInfo) (content : GoString)
    (readable : Bool) : (env.scanFile s rel info content readable).seen = s.seen := by
  unfold ScanEnv.scanFile
  dsimp only
  split_ifs <;> rfl

theorem scanLink_seen (s : ScanState) (rel : GoString) (info : FileInfo) (target : GoString)
    (readable : Bool) : (env.scanLink s rel info target readable).seen = s.seen := by
  unfold ScanEnv.scanLink
  dsimp only
  cases s.cache.lookup rel <;> dsimp only <;> split_ifs <;> rfl

/-- The walk sees what syncs. -/
theorem scanVisit_seen (s : ScanState) (e : WalkEvent) (rel : GoString) :
    rel ∈ (env.scanVisit s e).seen ↔ rel ∈ s.seen ∨
      ∃ names node v, e = .visit names node v ∧ (v = .sync ∨ v = .symlink) ∧
        joinSlash names = rel := by
  cases e with
  | failed names => simp [ScanEnv.scanVisit]
  | visit names node v =>
    by_cases hv : v = .sync ∨ v = .symlink
    · have hseen : (env.scanVisit s (.visit names node v)).seen = joinSlash names :: s.seen := by
        rw [ScanEnv.scanVisit, if_pos hv]
        dsimp only
        split
        · rfl
        · cases node
          · exact scanFile_seen ..
          · exact scanLink_seen ..
          · rfl
          · rfl
      rw [hseen, List.mem_cons]
      constructor
      · rintro (rfl | h)
        · exact .inr ⟨names, node, v, rfl, hv, rfl⟩
        · exact .inl h
      · rintro (h | ⟨names', node', v', heq, -, rfl⟩)
        · exact .inr h
        · exact .inl (by rw [(WalkEvent.visit.inj heq).1])
    · rw [ScanEnv.scanVisit, if_neg hv]
      constructor
      · exact .inl
      · rintro (h | ⟨names', node', v', heq, hv', -⟩)
        · exact h
        · exact absurd ((WalkEvent.visit.inj heq).2.2 ▸ hv') hv

theorem scanWalk_seen (s : ScanState) (rel : GoString) :
    rel ∈ (env.scanWalk s).seen ↔ rel ∈ s.seen ∨ env.Sees rel := by
  have hfold : ∀ (events : List WalkEvent) (s : ScanState),
      rel ∈ (events.foldl env.scanVisit s).seen ↔ rel ∈ s.seen ∨
        ∃ names node v, .visit names node v ∈ events ∧ (v = .sync ∨ v = .symlink) ∧
          joinSlash names = rel := by
    intro events
    induction events with
    | nil => simp
    | cons e events ih =>
      intro s
      rw [List.foldl_cons, ih, scanVisit_seen, or_assoc]
      refine or_congr_right ?_
      constructor
      · rintro (⟨names, node, v, rfl, h⟩ | ⟨names, node, v, hmem, h⟩)
        · exact ⟨names, node, v, List.mem_cons_self, h⟩
        · exact ⟨names, node, v, List.mem_cons_of_mem _ hmem, h⟩
      · rintro ⟨names, node, v, hmem, h⟩
        rcases List.mem_cons.mp hmem with heq | hmem
        · exact .inl ⟨names, node, v, heq.symm, h⟩
        · exact .inr ⟨names, node, v, hmem, h⟩
  exact hfold _ s

theorem scanFile_cache (s : ScanState) (rel : GoString) (info : FileInfo) (content : GoString)
    (readable : Bool) : (env.scanFile s rel info content readable).cache = s.cache ∨
      ∃ c, (env.scanFile s rel info content readable).cache = s.cache.insert rel c := by
  unfold ScanEnv.scanFile
  dsimp only
  split_ifs
  · exact .inl rfl
  · exact .inl rfl
  · exact .inr ⟨_, rfl⟩
  · exact .inr ⟨_, rfl⟩

theorem scanLink_cache (s : ScanState) (rel : GoString) (info : FileInfo) (target : GoString)
    (readable : Bool) : (env.scanLink s rel info target readable).cache = s.cache ∨
      ∃ c, (env.scanLink s rel info target readable).cache = s.cache.insert rel c := by
  unfold ScanEnv.scanLink
  dsimp only
  cases s.cache.lookup rel <;> dsimp only <;> split_ifs <;>
    first
    | exact .inl rfl
    | exact .inr ⟨_, rfl⟩

/-- The walk only ever adds what it has seen to the cache. -/
theorem scanVisit_cache (s : ScanState) (e : WalkEvent) :
    (env.scanVisit s e).cache = s.cache ∨ ∃ rel c, rel ∈ (env.scanVisit s e).seen ∧
      (env.scanVisit s e).cache = s.cache.insert rel c := by
  cases e with
  | failed names => exact .inl rfl
  | visit names node v =>
    by_cases hv : v = .sync ∨ v = .symlink
    · have hseen := (scanVisit_seen env s (.visit names node v) (joinSlash names)).mpr
        (.inr ⟨names, node, v, rfl, hv, rfl⟩)
      suffices h : (env.scanVisit s (.visit names node v)).cache = s.cache ∨
          ∃ c, (env.scanVisit s (.visit names node v)).cache = s.cache.insert (joinSlash names) c by
        exact h.imp_right fun ⟨c, hc⟩ => ⟨_, c, hseen, hc⟩
      rw [ScanEnv.scanVisit, if_pos hv]
      dsimp only
      split
      · exact .inl rfl
      · cases node
        · exact scanFile_cache ..
        · exact scanLink_cache ..
        · exact .inl rfl
        · exact .inl rfl
    · rw [ScanEnv.scanVisit, if_neg hv]
      exact .inl rfl

theorem scanVisit_unreadable (s : ScanState) (names : List GoString) (node : Node) (v : Verdict) :
    (env.scanVisit s (.visit names node v)).unreadable = s.unreadable := by
  rw [ScanEnv.scanVisit]
  dsimp only
  split
  · split
    · rfl
    · cases node <;> dsimp only
      · unfold ScanEnv.scanFile
        dsimp only
        split_ifs <;> rfl
      · unfold ScanEnv.scanLink
        dsimp only
        cases s.cache.lookup (joinSlash names) <;> dsimp only <;> split_ifs <;> rfl
  · rfl

/-- The keys the walk leaves unseen are those it found. -/
theorem mem_scanWalk_cache {s : ScanState} {rel : GoString} (h : rel ∉ (env.scanWalk s).seen) :
    rel ∈ (env.scanWalk s).cache ↔ rel ∈ s.cache := by
  have hfold : ∀ (events : List WalkEvent) (s : ScanState),
      rel ∉ (events.foldl env.scanVisit s).seen →
        (rel ∈ (events.foldl env.scanVisit s).cache ↔ rel ∈ s.cache) := by
    intro events
    induction events with
    | nil => exact fun _ _ => Iff.rfl
    | cons e events ih =>
      intro s hnot
      rw [List.foldl_cons] at hnot ⊢
      rw [ih _ hnot]
      rcases scanVisit_cache env s e with hc | ⟨rel', c, hseen, hc⟩
      · rw [hc]
      · have hne : rel ≠ rel' := by
          rintro rfl
          have hgrow : ∀ (events : List WalkEvent) (s : ScanState), rel ∈ s.seen →
              rel ∈ (events.foldl env.scanVisit s).seen := fun events s hs =>
            List.foldlRecOn (motive := fun s : ScanState => rel ∈ s.seen) events env.scanVisit hs
              fun s' hs' e _ => (scanVisit_seen env s' e rel).mpr (.inl hs')
          exact hnot (hgrow events _ hseen)
        rw [hc, AList.mem_insert]
        simp [hne]
  exact hfold _ s h

/-! ### The delete pass -/

theorem scanDelete_seen (s : ScanState) (rel : GoString) :
    (env.scanDelete s rel).seen = s.seen ∧ (env.scanDelete s rel).unreadable = s.unreadable := by
  unfold ScanEnv.scanDelete
  split_ifs <;> exact ⟨rfl, rfl⟩

theorem deletes_congr {s s' : ScanState} (hs : s'.seen = s.seen)
    (hu : s'.unreadable = s.unreadable) (rel : GoString) : env.deletes s' rel = env.deletes s rel := by
  simp only [ScanEnv.deletes, ScanState.blockedBy, hs, hu]

/-- The paths the delete pass deletes are the keys that pass every guard. -/
theorem delete_mem_foldl_iff (keys : List GoString) (s : ScanState) (rel : GoString) :
    (∃ op ∈ (keys.foldl env.scanDelete s).ops, op.kind = .delete ∧ op.path = rel) ↔
      (∃ op ∈ s.ops, op.kind = .delete ∧ op.path = rel) ∨ (rel ∈ keys ∧ env.deletes s rel = true) := by
  induction keys generalizing s with
  | nil => simp
  | cons key keys ih =>
    obtain ⟨hs, hu⟩ := scanDelete_seen env s key
    rw [List.foldl_cons, ih, deletes_congr env hs hu]
    have hcases := scanDelete_cases env s key
    split at hcases
    · rename_i hdel
      rw [hcases.ops]
      constructor
      · rintro (⟨op, hop, hkind, rfl⟩ | ⟨hmem, h⟩)
        · rcases List.mem_append.mp hop with hop | hop
          · exact .inl ⟨op, hop, hkind, rfl⟩
          · rw [List.mem_singleton.mp hop]
            exact .inr ⟨List.mem_cons_self, hdel⟩
        · exact .inr ⟨List.mem_cons_of_mem _ hmem, h⟩
      · rintro (⟨op, hop, h⟩ | ⟨hmem, h⟩)
        · exact .inl ⟨op, List.mem_append_left _ hop, h⟩
        · rcases List.mem_cons.mp hmem with rfl | hmem
          · exact .inl ⟨_, List.mem_append_right _ (List.mem_singleton_self _), rfl, rfl⟩
          · exact .inr ⟨hmem, h⟩
    · rename_i hdel
      rw [hcases.ops]
      refine or_congr_right ⟨fun h => ⟨List.mem_cons_of_mem _ h.1, h.2⟩, fun h => ⟨?_, h.2⟩⟩
      rcases List.mem_cons.mp h.1 with rfl | hmem
      · exact absurd h.2 hdel
      · exact hmem

/-- A walk that meets no error records none. -/
theorem scanWalk_unreadable (s : ScanState)
    (h : ∀ names, .failed names ∉ walkFolder env.filter env.folder env.hint.roots) :
    (env.scanWalk s).unreadable = s.unreadable :=
  List.foldlRecOn (motive := fun s' : ScanState => s'.unreadable = s.unreadable) _ _ rfl
    fun s' hs' e he => by
      cases e with
      | failed names => exact absurd he (h names)
      | visit names node v => rw [scanVisit_unreadable, hs']

variable {env}

theorem roots_of_full (hfull : env.hint.full = true) : env.hint.roots = none := by
  simp [ScanHint.roots, ScanHint.fullDiscovery, hfull]

/-- **The paths a full scan of a readable folder deletes**: the keys of the cache the walk does
not see and the delete pass does not forget. -/
theorem delete_mem_scan_iff (hfull : env.hint.full = true) (hread : env.folder.allReadable = true)
    (cache : Cache) (lamport seq : ℤ) (blobs : Blobs) (rel : GoString) :
    (∃ op ∈ (env.scan (.start cache lamport seq blobs)).ops, op.kind = .delete ∧ op.path = rel) ↔
      rel ∈ cache ∧ ¬ env.Sees rel ∧ env.scope.readOnlyPath rel = false ∧ neverSync rel = false ∧
        env.filter.skip rel = false := by
  rw [Folder.allReadable, Bool.and_eq_true] at hread
  have hnofail : ∀ names, .failed names ∉ walkFolder env.filter env.folder env.hint.roots := by
    intro names
    rw [roots_of_full hfull, walkFolder, if_pos hread.1]
    exact failed_not_mem_walkEntries _ _ _ hread.2
  set start := ScanState.start cache lamport seq blobs
  have hun : (env.scanWalk start).unreadable = [] := scanWalk_unreadable env start hnofail
  have hnodel : ¬ ∃ op ∈ (env.scanWalk start).ops, op.kind = .delete ∧ op.path = rel := by
    rintro ⟨op, hop, hkind, -⟩
    have hput : ∀ op ∈ (env.scanWalk start).ops, op.kind = .put := by
      refine List.foldlRecOn (motive := fun s : ScanState => ∀ op ∈ s.ops, op.kind = .put) _ _
        (by simp [start, ScanState.start]) fun s hs e _ => ?_
      rcases scanVisit_cases env s e with hidle | ⟨_, _, _, o, -, -, -, ho, hmint⟩
      · rwa [hidle.ops]
      · rw [hmint.ops]
        intro op hop
        rcases List.mem_append.mp hop with hop | hop
        · exact hs op hop
        · rw [List.mem_singleton.mp hop]
          exact ho.1
    simp [hput op hop] at hkind
  rw [ScanEnv.scan, ScanEnv.scanDeletes, if_neg (by simp [hun]), delete_mem_foldl_iff,
    or_iff_right hnodel, (env.keyOrder_perm _).mem_iff, AList.mem_keys]
  have hin : env.hint.inScope rel = true := by
    simp [ScanHint.inScope, ScanHint.fullDiscovery, hfull]
  have hseen := scanWalk_seen env start rel
  rw [or_iff_right (by simp [start, ScanState.start])] at hseen
  simp only [ScanEnv.deletes, ScanState.blockedBy, hun, List.any_nil, Bool.not_false, Bool.true_and,
    hin, Bool.and_eq_true, Bool.not_eq_true', List.contains_eq_mem, decide_eq_false_iff_not, hseen]
  constructor
  · rintro ⟨hkey, ⟨⟨⟨hs, -⟩, hr⟩, hn⟩, hf⟩
    exact ⟨(mem_scanWalk_cache env (hseen.not.mpr hs)).mp hkey, hs, hr, hn, hf⟩
  · rintro ⟨hkey, hs, hr, hn, hf⟩
    exact ⟨(mem_scanWalk_cache env (hseen.not.mpr hs)).mpr hkey, ⟨⟨⟨hs, trivial⟩, hr⟩, hn⟩, hf⟩

/-! ### What the walk does not see -/

theorem reservedDir_of_reservedPath {rel : GoString} (h : reservedPath rel = false) :
    ∀ name ∈ segments rel, reservedDir name = false := by
  simp only [reservedPath, Bool.or_eq_false_iff, List.any_eq_false, Bool.not_eq_true] at h
  exact h.1.1

theorem isMount_of_skip {f : Filter} {rel : GoString} (h : f.skip rel = false) :
    ∀ dir ∈ ancestors rel, f.isMount dir = false := by
  intro dir hdir
  by_cases hrel : rel = ignoreFile
  · have hnone : ancestors ignoreFile = [] := by decide
    rw [hrel, hnone] at hdir
    simp at hdir
  · rw [Filter.skip, if_neg hrel] at h
    split at h
    · simp at h
    · rename_i hn
      simp only [Bool.or_eq_true, not_or, Filter.underNestedMount, List.any_eq_true, not_exists,
        not_and, Bool.not_eq_true] at hn
      exact hn.1 dir hdir

/-- **Of the files that stand and that the delete pass would not forget, the walk sees those the
accepted rules let through and that lie in no pruned directory.** -/
theorem sees_iff (hfull : env.hint.full = true) (hread : env.folder.allReadable = true)
    {rel : GoString} (hholds : env.folder.holds rel = true) (hcarried : neverSync rel = false)
    (hkept : env.filter.skip rel = false) :
    env.Sees rel ↔ env.filter.guarded rel = false ∧
      ∀ dir ∈ ancestors rel, env.filter.pruneDir dir = false := by
  rw [Folder.allReadable, Bool.and_eq_true] at hread
  rw [neverSync, Bool.or_eq_false_iff, Bool.not_eq_false'] at hcarried
  obtain ⟨node, hlook, hfile⟩ := Option.any_eq_true _ _ |>.mp hholds
  have hwf := env.folder.wellFormed
  have hskipped : skippedFile env.filter rel = env.filter.guarded rel := by
    simp [skippedFile, hcarried.1, hcarried.2, Filter.skipUp_eq, hkept]
  have hreach : Reached env.filter [] env.folder.entries (segments rel) ↔
      ∀ dir ∈ ancestors rel, env.filter.pruneDir dir = false := by
    constructor
    · intro h dir hdir
      obtain ⟨init, last, heq, hinit, hlast, rfl⟩ := mem_ancestors_iff.mp hdir
      obtain ⟨n, -, hv, entries, rfl⟩ := h init last heq hinit hlast
      exact (verdict_dir_eq_descend_iff.mp hv).2.1
    · intro h init last heq hinit hlast
      have hdir : joinSlash init ∈ ancestors rel :=
        mem_ancestors_iff.mpr ⟨init, last, heq, hinit, hlast, rfl⟩
      have hlook' : lookupEntries (init ++ last) env.folder.entries = some node := heq ▸ hlook
      obtain ⟨sub, hsub⟩ := lookupEntries_append hread.2 hinit hlast hlook'
      refine ⟨_, hsub, verdict_dir_eq_descend_iff.mpr ⟨?_, h _ hdir, ?_⟩, sub, rfl⟩
      · rw [Option.any_eq_false]
        intro name hname
        refine reservedDir_of_reservedPath hcarried.2 name ?_
        rw [heq]
        exact List.mem_append_left _ (List.mem_of_getLast? hname)
      · exact isMount_of_skip hkept _ hdir
  unfold ScanEnv.Sees
  rw [roots_of_full hfull, ← hreach, ← hskipped]
  constructor
  · rintro ⟨names, n, v, hvisit, hv, rfl⟩
    obtain ⟨hn, rfl, hr⟩ := (visit_mem_walkFolder_iff hread.1).mp hvisit
    rw [segments_of_lookupEntries hwf hn]
    exact ⟨(verdict_syncs_iff.mp hv).2, hr⟩
  · rintro ⟨hup, hr⟩
    refine ⟨segments rel, node, _, (visit_mem_walkFolder_iff hread.1).mpr ⟨hlook, rfl, hr⟩, ?_,
      joinSlash_segments rel⟩
    exact verdict_syncs_iff.mpr ⟨hfile, by rwa [joinSlash_segments]⟩

/-! ### Deletes of what still stands -/

/-- **A full scan deletes nothing that still stands exactly when no cached file that stands, and
that is carried, writable and kept by the rules of the folder, is held back by the accepted rules
or lies in a directory the walk prunes.** -/
theorem scan_deletes_missing_iff (env : ScanEnv) (cache : Cache) (lamport seq : ℤ) (blobs : Blobs)
    (hfull : env.hint.full = true) (hread : env.folder.allReadable = true) :
    (∀ op ∈ (env.scan (.start cache lamport seq blobs)).ops, op.kind = .delete →
        env.folder.holds op.path = false) ↔
      ∀ rel ∈ cache, env.folder.holds rel = true → neverSync rel = false →
        env.scope.readOnlyPath rel = false → env.filter.skip rel = false →
          env.filter.guarded rel = false ∧
            ∀ dir ∈ ancestors rel, env.filter.pruneDir dir = false := by
  constructor
  · intro h rel hrel hholds hcarried hwrite hkept
    by_contra hunseen
    obtain ⟨op, hop, hkind, rfl⟩ := (delete_mem_scan_iff hfull hread cache lamport seq blobs rel).mpr
      ⟨hrel, mt (sees_iff hfull hread hholds hcarried hkept).mp hunseen, hwrite, hcarried, hkept⟩
    simp [h op hop hkind] at hholds
  · intro h op hop hkind
    obtain ⟨hrel, hunseen, hwrite, hcarried, hkept⟩ :=
      (delete_mem_scan_iff hfull hread cache lamport seq blobs op.path).mp ⟨op, hop, hkind, rfl⟩
    by_contra hholds
    rw [Bool.not_eq_false] at hholds
    exact hunseen ((sees_iff hfull hread hholds hcarried hkept).mpr
      (h _ hrel hholds hcarried hwrite hkept))

/-- A folder that holds one file, which its own rules no longer exclude and the accepted ones
do. -/
def widenedEnv : ScanEnv where
  hash := spelledHash
  folder :=
    { entries := [(ascii ".bdriveignore", .file {} [] true),
        (ascii "secret", .file {} (ascii "k") true)] }
  filter := (loadFilter (some []) [] fun _ => false).acceptRules (ascii "secret\n")
  stamp := { device := ascii "d" }

/-- The cache of a device that materialized that file when a peer pushed it. -/
def widenedCache : Cache :=
  (∅ : Cache).insert (ascii "secret") { blob := spelledHash.sum (ascii "k"), size := 1 }

/-- The law on the folder whose rules a peer has widened. -/
theorem scan_deletes_missing_widened :
    (∀ op ∈ (widenedEnv.scan (.start widenedCache 1 1 fun _ => none)).ops, op.kind = .delete →
        widenedEnv.folder.holds op.path = false) ↔
      ∀ rel ∈ widenedCache, widenedEnv.folder.holds rel = true → neverSync rel = false →
        widenedEnv.scope.readOnlyPath rel = false → widenedEnv.filter.skip rel = false →
          widenedEnv.filter.guarded rel = false ∧
            ∀ dir ∈ ancestors rel, widenedEnv.filter.pruneDir dir = false :=
  scan_deletes_missing_iff widenedEnv widenedCache 1 1 _ rfl (by decide)

/-- The scan journals the file as deleted while it stands. -/
theorem scan_deletes_standing :
    ¬ ∀ (env : ScanEnv) (cache : Cache) (lamport seq : ℤ) (blobs : Blobs),
      env.hint.full = true → env.folder.allReadable = true →
        ∀ op ∈ (env.scan (.start cache lamport seq blobs)).ops, op.kind = .delete →
          env.folder.holds op.path = false := by
  intro h
  have hdel : ∃ op ∈ (widenedEnv.scan (.start widenedCache 1 1 fun _ => none)).ops,
      op.kind = .delete ∧ op.path = ascii "secret" := by decide +kernel
  obtain ⟨op, hop, hkind, hpath⟩ := hdel
  have hmissing := h widenedEnv widenedCache 1 1 _ rfl (by decide) op hop hkind
  rw [hpath] at hmissing
  exact absurd hmissing (by decide)

end Beardrive
