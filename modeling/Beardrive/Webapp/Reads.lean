import Beardrive.Lib.GoString
import Beardrive.Lib.Runs
import Beardrive.Lib.Tally

/-!
# Read counts

The hub counts visits in daily rows, and folds a row past the retention horizon into the all-time
row of its visit. A fold is two moves in the store, the deletion of the daily rows and the write of
the all-time rows, and a flush makes them in this order, each in one batch with one try a key where
the batch is refused. What is left over after a batch that landed in part is dropped.

## A flush in two halves

Between the two batches the store holds neither the daily rows nor their counts. A process that
dies there, or whose writes are refused and that dies before they are tried again, loses what it
has been counting for a year. A key whose deletion is dropped keeps its row in the store next to
the total it was folded into, and a key whose write is dropped is reported as written.

## Main definitions

* `ReadLedger`, `ReadLedger.compact`, `ReadLedger.persist` — the ledger, its folds and its flush
* `ReadHub` — a ledger over its store, with the visits that were counted
* `ReadHub.Careful` — the steps that do not meet the above

## Main results

* `ReadLedger.Mirrors.compact` — a fold moves counts and keeps every total
* `ReadLedger.persist_cases` — a flush that fails for all keys or for none has three outcomes
* `read_counts_survive` — after careful steps no visit is lost and none is counted twice
-/

namespace Beardrive

/-! ### The ledger -/

/-- `ReadStatKey`: one bucket; no day stands for all time. -/
structure ReadStatKey where
  project : GoString
  path : GoString
  day : GoString
  kind : GoString
  actor : GoString
  deriving DecidableEq, Repr

/-- The all-time bucket of a bucket's visits. -/
def ReadStatKey.allTime (k : ReadStatKey) : ReadStatKey := { k with day := [] }

/-- What a bucket holds: how many visits, and when the last one was. -/
structure ReadStat where
  count : ℕ
  last : ℤ
  deriving DecidableEq, Repr

/-- Buckets, in memory or in the store. -/
abbrev ReadRows := AList fun _ : ReadStatKey => ReadStat

/-- `readDebounce`, in nanoseconds. -/
def readDebounce : ℤ := 600000000000

/-- `readFlushEvery`, in nanoseconds. -/
def readFlushEvery : ℤ := 30000000000

/-- `ReadLedger`: the buckets, those that await a write, the deletions that await a flush, and when
each visit was last counted. -/
structure ReadLedger where
  rows : ReadRows := ∅
  dirty : List ReadStatKey := []
  pendingDel : List ReadStatKey := []
  seen : ReadStatKey → Option ℤ := fun _ => none
  lastFlush : ℤ := 0

/-- What a flush meets: the time, the retention horizon, and what the store says to each batch and
to each key alone. -/
structure FlushEnv where
  now : ℤ := 0
  horizon : GoString := []
  delBatch : Bool := true
  del : ReadStatKey → Bool := fun _ => true
  putBatch : Bool := true
  put : ReadStatKey → Bool := fun _ => true

/-- One visit, the moment it is made and the day of that moment. -/
structure ReadVisit where
  project : GoString
  path : GoString
  kind : GoString
  actor : GoString
  day : GoString := []
  now : ℤ := 0
  deriving DecidableEq, Repr

/-- The bucket of a visit. -/
def ReadVisit.key (v : ReadVisit) : ReadStatKey := ⟨v.project, v.path, v.day, v.kind, v.actor⟩

/-- The part of `Record` that counts; nothing for a visit that is not one. -/
def ReadLedger.count (l : ReadLedger) (v : ReadVisit) : Option ReadLedger :=
  let visit := v.key.allTime
  if v.project = [] ∨ v.path = [] ∨ (l.seen visit).any fun t => decide (v.now - t < readDebounce) then
    none
  else
    let n := ((l.rows.lookup v.key).map ReadStat.count).getD 0
    some { l with seen := Function.update l.seen visit (some v.now),
                  rows := l.rows.insert v.key { count := n + 1, last := v.now },
                  dirty := l.dirty.insert v.key }

/-- One bucket against the retention horizon. -/
def ReadLedger.foldRow (horizon : GoString) (l : ReadLedger) (key : ReadStatKey) : ReadLedger :=
  match l.rows.lookup key with
  | none => l
  | some st =>
    if key.day = [] ∨ ¬ key.day < horizon then l
    else
      let fold := key.allTime
      let agg := match l.rows.lookup fold with
        | none => st
        | some agg => { count := agg.count + st.count, last := max agg.last st.last }
      { l with rows := (l.rows.insert fold agg).erase key,
               dirty := (l.dirty.insert fold).filter (· ≠ key),
               pendingDel := l.pendingDel ++ [key] }

/-- `compactLocked`: fold the daily buckets before the horizon into their all-time buckets. -/
def ReadLedger.compact (l : ReadLedger) (horizon : GoString) : ReadLedger :=
  l.rows.keys.foldl (ReadLedger.foldRow horizon) l

/-- The keys of a queue that land: all of them with the batch, else, where there is more than one,
those that land alone. -/
def landed (batch : Bool) (one : ReadStatKey → Bool) (keys : List ReadStatKey) :
    List ReadStatKey :=
  if batch then keys else if keys.length = 1 then [] else keys.filter one

/-- `DeleteBatch`. -/
def eraseRows (store : ReadRows) (keys : List ReadStatKey) : ReadRows :=
  keys.foldl (fun store key => store.erase key) store

/-- `PutBatch`. -/
def putRows (rows store : ReadRows) (keys : List ReadStatKey) : ReadRows :=
  keys.foldl (fun store key => match rows.lookup key with
    | some st => store.insert key st
    | none => store) store

/-- The first half of `persistLocked`; nothing when no deletion landed. -/
def ReadLedger.persistDeletes (env : FlushEnv) (l : ReadLedger) (store : ReadRows) :
    Option (ReadLedger × ReadRows) :=
  if l.pendingDel = [] then some (l, store)
  else
    let keys := landed env.delBatch env.del l.pendingDel
    if keys = [] then none else some ({ l with pendingDel := [] }, eraseRows store keys)

/-- The second half of `persistLocked`: whether it succeeded, and what it leaves. -/
def ReadLedger.persistPuts (env : FlushEnv) (l : ReadLedger) (store : ReadRows) :
    Bool × ReadLedger × ReadRows :=
  if l.dirty = [] then (true, l, store)
  else
    let keys := landed env.putBatch env.put l.dirty
    if keys = [] then (false, l, store)
    else (true, { l with dirty := [] }, putRows l.rows store keys)

/-- `persistLocked`: write the queued deletions, then the dirty buckets. -/
def ReadLedger.persist (env : FlushEnv) (l : ReadLedger) (store : ReadRows) :
    Bool × ReadLedger × ReadRows :=
  match l.persistDeletes env store with
  | none => (false, l, store)
  | some (l, store) => l.persistPuts env store

/-- The part of `flushLocked` before the store is asked. -/
def ReadLedger.beforeFlush (l : ReadLedger) (env : FlushEnv) : ReadLedger :=
  { l with lastFlush := env.now
           seen := fun k => (l.seen k).filter fun t => decide (env.now - t < readDebounce) }.compact
    env.horizon

/-- The part of `NewReadLedger` before the store is asked. -/
def openLedger (env : FlushEnv) (store : ReadRows) : ReadLedger :=
  { rows := store, lastFlush := env.now : ReadLedger }.compact env.horizon

/-! ### Totals -/

/-- The count of a bucket. -/
abbrev countAt (rows : ReadRows) (k : ReadStatKey) : ℕ := Tally.countAt ReadStat.count rows k

/-- All visits of a (project, path, kind, actor), over every day. -/
abbrev readTotal (rows : ReadRows) (visit : ReadStatKey) : ℕ :=
  Tally.total ReadStat.count ReadStatKey.allTime rows visit

@[simp] theorem ReadStatKey.allTime_allTime (k : ReadStatKey) : k.allTime.allTime = k.allTime := rfl

theorem lookup_eraseRows (keys : List ReadStatKey) (store : ReadRows) (k : ReadStatKey) :
    (eraseRows store keys).lookup k = if k ∈ keys then none else store.lookup k := by
  induction keys generalizing store with
  | nil => simp [eraseRows]
  | cons key keys ih =>
    rw [eraseRows, List.foldl_cons, ← eraseRows, ih]
    by_cases hk : k = key
    · subst hk
      simp [AList.lookup_erase]
    · simp [hk, AList.lookup_erase_ne hk]

theorem lookup_putRows {rows : ReadRows} {keys : List ReadStatKey}
    (h : ∀ k ∈ keys, (rows.lookup k).isSome) (store : ReadRows) (k : ReadStatKey) :
    (putRows rows store keys).lookup k = if k ∈ keys then rows.lookup k else store.lookup k := by
  induction keys generalizing store with
  | nil => simp [putRows]
  | cons key keys ih =>
    obtain ⟨hkey, hkeys⟩ := List.forall_mem_cons.mp h
    obtain ⟨st, hst⟩ := Option.isSome_iff_exists.mp hkey
    rw [putRows, List.foldl_cons, ← putRows, ih hkeys]
    by_cases hk : k = key
    · subst hk
      simp [hst, AList.lookup_insert]
    · simp [hk, hst, AList.lookup_insert_ne hk]

/-! ### The store behind the ledger -/

/-- What the store holds of a ledger: every bucket that is neither to be written nor to be deleted,
and never more than the ledger counts. -/
structure ReadLedger.Mirrors (l : ReadLedger) (store : ReadRows) : Prop where
  dirty : ∀ k ∈ l.dirty, (l.rows.lookup k).isSome
  pending : ∀ k ∈ l.pendingDel, k ∈ l.dirty ∨ l.rows.lookup k = none
  same : ∀ k ∉ l.dirty, k ∉ l.pendingDel → store.lookup k = l.rows.lookup k
  le : ∀ k ∉ l.pendingDel, countAt store k ≤ countAt l.rows k

namespace ReadLedger

variable {l : ReadLedger} {store : ReadRows}

/-- Counting a visit counts it once. -/
theorem Mirrors.count {v : ReadVisit} {l' : ReadLedger} (h : l.Mirrors store)
    (hcount : l.count v = some l') : l'.Mirrors store ∧
      ∀ visit, readTotal l'.rows visit =
        readTotal l.rows visit + if v.key.allTime = visit then 1 else 0 := by
  unfold ReadLedger.count at hcount
  dsimp only at hcount
  split_ifs at hcount
  cases hcount
  refine ⟨⟨fun k hk => ?_, fun k hk => ?_, fun k hk hp => ?_, fun k hk => ?_⟩, fun visit => ?_⟩
  · dsimp only at hk ⊢
    by_cases hkey : k = v.key
    · rw [hkey, AList.lookup_insert]
      rfl
    · rw [AList.lookup_insert_ne hkey]
      exact h.dirty k ((List.mem_insert_iff.mp hk).resolve_left hkey)
  · dsimp only at hk ⊢
    by_cases hkey : k = v.key
    · exact .inl (List.mem_insert_iff.mpr (.inl hkey))
    · rw [AList.lookup_insert_ne hkey, List.mem_insert_iff]
      exact (h.pending k hk).imp_left .inr
  · dsimp only at hk hp ⊢
    rw [List.mem_insert_iff, not_or] at hk
    rw [AList.lookup_insert_ne hk.1]
    exact h.same k hk.2 hp
  · dsimp only at hk ⊢
    have hle := h.le k hk
    by_cases hkey : k = v.key
    · rw [hkey, countAt, countAt, Tally.countAt_insert_self]
      rw [hkey] at hle
      exact hle.trans (Nat.le_succ _)
    · rw [countAt, countAt, Tally.countAt_insert_ne hkey]
      exact hle
  · have hupdate := @Tally.total_update _ _ _ _ _ ReadStat.count ReadStatKey.allTime
      (l.rows.insert v.key ⟨((l.rows.lookup v.key).map ReadStat.count).getD 0 + 1, v.now⟩) l.rows
      v.key
      (fun k hk => Tally.countAt_insert_ne hk _) visit
    rw [Tally.countAt_insert_self] at hupdate
    simp only [Tally.countAt] at hupdate
    split_ifs at hupdate ⊢ <;> simp only [readTotal] <;> omega

theorem Mirrors.foldRow (h : l.Mirrors store) (horizon : GoString) (key : ReadStatKey) :
    (l.foldRow horizon key).Mirrors store ∧
      ∀ visit, readTotal (l.foldRow horizon key).rows visit = readTotal l.rows visit := by
  unfold ReadLedger.foldRow
  split
  · exact ⟨h, fun _ => rfl⟩
  rename_i st hst
  split_ifs with hskip
  · exact ⟨h, fun _ => rfl⟩
  have hne : key ≠ key.allTime := fun heq => hskip (.inl (congrArg ReadStatKey.day heq))
  set agg : ReadStat := match l.rows.lookup key.allTime with
    | none => st
    | some agg => { count := agg.count + st.count, last := max agg.last st.last } with hagg
  have hcount : agg.count = countAt l.rows key.allTime + countAt l.rows key := by
    rw [countAt, countAt, Tally.countAt_of_some hst, hagg]
    cases hfold : l.rows.lookup key.allTime with
    | none => rw [Tally.countAt_of_none hfold, Nat.zero_add]
    | some old => rw [Tally.countAt_of_some hfold]
  refine ⟨⟨fun k hk => ?_, fun k hk => ?_, fun k hk hp => ?_, fun k hk => ?_⟩, fun visit => ?_⟩
  · dsimp only at hk ⊢
    rw [List.mem_filter, decide_eq_true_eq, List.mem_insert_iff] at hk
    rw [AList.lookup_erase_ne hk.2]
    by_cases hfold : k = key.allTime
    · rw [hfold, AList.lookup_insert]
      rfl
    · rw [AList.lookup_insert_ne hfold]
      exact h.dirty k (hk.1.resolve_left hfold)
  · dsimp only at hk ⊢
    by_cases hkey : k = key
    · exact .inr (by rw [hkey, AList.lookup_erase])
    have hk := h.pending k ((List.mem_append.mp hk).resolve_right (by simpa using hkey))
    by_cases hfold : k = key.allTime
    · exact .inl (List.mem_filter.mpr ⟨List.mem_insert_iff.mpr (.inl hfold), by simpa using hkey⟩)
    · rw [AList.lookup_erase_ne hkey, AList.lookup_insert_ne hfold, List.mem_filter,
        List.mem_insert_iff]
      exact hk.imp_left fun hd => ⟨.inr hd, by simpa using hkey⟩
  · dsimp only at hk hp ⊢
    rw [List.mem_append, List.mem_singleton, not_or] at hp
    rw [List.mem_filter, decide_eq_true_eq, not_and_not_right] at hk
    have hk : k ∉ l.dirty.insert key.allTime := fun hd => hp.2 (hk hd)
    rw [List.mem_insert_iff, not_or] at hk
    rw [AList.lookup_erase_ne hp.2, AList.lookup_insert_ne hk.1]
    exact h.same k hk.2 hp.1
  · dsimp only at hk ⊢
    rw [List.mem_append, List.mem_singleton, not_or] at hk
    have hle := h.le k hk.1
    rw [countAt, countAt, Tally.countAt_erase_ne hk.2]
    by_cases hfold : k = key.allTime
    · subst hfold
      rw [Tally.countAt_insert_self, hcount]
      exact hle.trans (Nat.le_add_right _ _)
    · rw [Tally.countAt_insert_ne hfold]
      exact hle
  · exact Tally.total_move hne rfl hcount visit

/-- **A fold moves counts and keeps every total.** -/
theorem Mirrors.compact (h : l.Mirrors store) (horizon : GoString) :
    (l.compact horizon).Mirrors store ∧
      ∀ visit, readTotal (l.compact horizon).rows visit = readTotal l.rows visit := by
  unfold ReadLedger.compact
  induction l.rows.keys generalizing l with
  | nil => exact ⟨h, fun _ => rfl⟩
  | cons key keys ih =>
    obtain ⟨hstep, htotal⟩ := h.foldRow horizon key
    obtain ⟨hrest, hrest'⟩ := ih hstep
    exact ⟨hrest, fun visit => (hrest' visit).trans (htotal visit)⟩

end ReadLedger

namespace ReadLedger

variable {l : ReadLedger} {store : ReadRows} {env : FlushEnv}

/-- No queue lands for some of its keys only. -/
structure AllOrNone (env : FlushEnv) (l : ReadLedger) : Prop where
  del : landed env.delBatch env.del l.pendingDel = [] ∨
    landed env.delBatch env.del l.pendingDel = l.pendingDel
  put : landed env.putBatch env.put l.dirty = [] ∨ landed env.putBatch env.put l.dirty = l.dirty

/-- The outcomes of a flush that fails for all keys of a queue or for none: nothing landed, the
deletions landed alone, or the store holds what the ledger does. -/
inductive Persisted (l : ReadLedger) (store : ReadRows) : Bool × ReadLedger × ReadRows → Prop
  | nothing : Persisted l store (false, l, store)
  | deletions (queued : l.pendingDel ≠ []) :
      Persisted l store (false, { l with pendingDel := [] }, eraseRows store l.pendingDel)
  | all (store' : ReadRows) (same : ∀ k, store'.lookup k = l.rows.lookup k) :
      Persisted l store (true, { l with pendingDel := [], dirty := [] }, store')

theorem Mirrors.lookup_written (h : l.Mirrors store) (k : ReadStatKey) :
    (putRows l.rows (eraseRows store l.pendingDel) l.dirty).lookup k = l.rows.lookup k := by
  rw [lookup_putRows h.dirty, lookup_eraseRows]
  by_cases hd : k ∈ l.dirty
  · rw [if_pos hd]
  rw [if_neg hd]
  by_cases hp : k ∈ l.pendingDel
  · rw [if_pos hp]
    exact ((h.pending k hp).resolve_left hd).symm
  · rw [if_neg hp]
    exact h.same k hd hp

theorem persist_cases (h : l.Mirrors store) (hall : AllOrNone env l) :
    Persisted l store (l.persist env store) := by
  have hwritten := h.lookup_written
  obtain ⟨rows, dirty, pendingDel, seen, lastFlush⟩ := l
  obtain ⟨hdel, hput⟩ := hall
  unfold ReadLedger.persist ReadLedger.persistDeletes ReadLedger.persistPuts
  dsimp only at hwritten hdel hput ⊢
  by_cases hpend : pendingDel = []
  · subst hpend
    rw [if_pos rfl]
    dsimp only
    by_cases hdirty : dirty = []
    · subst hdirty
      rw [if_pos rfl]
      exact .all store hwritten
    · rw [if_neg hdirty]
      rcases hput with hnone | hwhole
      · rw [if_pos hnone]
        exact .nothing
      · rw [hwhole, if_neg hdirty]
        exact .all _ hwritten
  · rw [if_neg hpend]
    rcases hdel with hnone | hwhole
    · rw [if_pos hnone]
      exact .nothing
    rw [hwhole, if_neg hpend]
    dsimp only
    by_cases hdirty : dirty = []
    · subst hdirty
      rw [if_pos rfl]
      exact .all _ hwritten
    · rw [if_neg hdirty]
      rcases hput with hnone | hwhole'
      · rw [if_pos hnone]
        exact .deletions hpend
      · rw [hwhole', if_neg hdirty]
        exact .all _ hwritten

/-- A ledger that was opened mirrors what it was read from. -/
theorem mirrors_open (store : ReadRows) (env : FlushEnv) : (openLedger env store).Mirrors store ∧
    ∀ visit, readTotal (openLedger env store).rows visit = readTotal store visit := by
  have hstart : ({ rows := store, lastFlush := env.now } : ReadLedger).Mirrors store :=
    ⟨by simp, by simp, fun _ _ _ => rfl, fun _ _ => le_rfl⟩
  exact hstart.compact env.horizon

theorem Mirrors.beforeFlush (h : l.Mirrors store) (env : FlushEnv) :
    (l.beforeFlush env).Mirrors store ∧
      ∀ visit, readTotal (l.beforeFlush env).rows visit = readTotal l.rows visit := by
  have hstart : ({ l with
      lastFlush := env.now
      seen := fun k => (l.seen k).filter fun t => decide (env.now - t < readDebounce) } :
        ReadLedger).Mirrors store := ⟨h.dirty, h.pending, h.same, h.le⟩
  exact hstart.compact env.horizon

end ReadLedger

/-! ### The hub -/

/-- A ledger and its store. The history is the visits counted so far, the totals at the last flush
that reported success, and whether a flush has landed its deletions and no flush its writes
since. -/
structure ReadHub where
  ledger : ReadLedger := {}
  store : ReadRows := ∅
  counted : ReadStatKey → ℕ := fun _ => 0
  floor : ReadStatKey → ℕ := fun _ => 0
  half : Bool := false

/-- What the hub goes through: a visit, a flush, and a crash with the reload after it. The process
may die in the middle of a flush, also of the flush a visit sets off; the calls it did not make are
calls that did not land. -/
inductive ReadEvent where
  | record (visit : ReadVisit) (env : FlushEnv)
  | flush (env : FlushEnv)
  | crash (last : Option ReadVisit) (cut : Option FlushEnv) (env : FlushEnv)

namespace ReadHub

/-- The hub after `persistLocked`. -/
def persisted (s : ReadHub) (env : FlushEnv) (l : ReadLedger) : ReadHub :=
  let out := l.persist env s.store
  { s with ledger := out.2.1, store := out.2.2
           half := !out.1 && (s.half || (l.pendingDel != [] && out.2.1.pendingDel == [])) }

/-- The hub after a flush, which reports success or does not. -/
def flushed (s : ReadHub) (env : FlushEnv) (l : ReadLedger) : ReadHub :=
  let s' := s.persisted env l
  { s' with floor := if (l.persist env s.store).1 then readTotal s'.ledger.rows else s.floor }

/-- The hub after a visit, before any flush. -/
def note (s : ReadHub) (v : ReadVisit) : ReadHub :=
  match s.ledger.count v with
  | none => s
  | some l =>
    let visit := v.key.allTime
    { s with ledger := l, counted := Function.update s.counted visit (s.counted visit + 1) }

/-- Whether a visit sets off a flush. -/
def due (s : ReadHub) (v : ReadVisit) : Bool :=
  (s.ledger.count v).isSome && decide (readFlushEvery ≤ v.now - s.ledger.lastFlush)

/-- What a process that dies leaves in the store. -/
def left (s : ReadHub) : Option FlushEnv → ReadRows
  | none => s.store
  | some cut => ((s.ledger.beforeFlush cut).persist cut s.store).2.2

/-- The hub after the process that died is gone and another has opened the store. -/
def reopened (s : ReadHub) (cut : Option FlushEnv) (env : FlushEnv) : ReadHub :=
  let store := s.left cut
  { s with store, half := false : ReadHub }.persisted env (openLedger env store)

/-- One step. -/
def step (s : ReadHub) : ReadEvent → ReadHub
  | .record v env =>
    if s.due v then (s.note v).flushed env ((s.note v).ledger.beforeFlush env) else s.note v
  | .flush env => s.flushed env (s.ledger.beforeFlush env)
  | .crash last cut env => (last.elim s s.note).reopened cut env

/-- What a cut flush did: no deletion landed, or everything did. -/
def Cut (env : FlushEnv) (l : ReadLedger) : Prop :=
  landed env.delBatch env.del l.pendingDel = [] ∨
    (landed env.delBatch env.del l.pendingDel = l.pendingDel ∧
      landed env.putBatch env.put l.dirty = l.dirty)

/-- No batch fails for some keys only, and no process dies between a deletion that landed and the
write of the fold behind it. -/
def Careful (s : ReadHub) : ReadEvent → Prop
  | .record v env => s.due v = true →
      ReadLedger.AllOrNone env ((s.note v).ledger.beforeFlush env)
  | .flush env => ReadLedger.AllOrNone env (s.ledger.beforeFlush env)
  | .crash last cut env => s.half = false ∧
      (∀ c ∈ cut, Cut c ((last.elim s s.note).ledger.beforeFlush c)) ∧
      ReadLedger.AllOrNone env (openLedger env ((last.elim s s.note).left cut))

/-- Any step, and a careful one. -/
def Next (s s' : ReadHub) : Prop := ∃ ev, s.step ev = s'

def CarefulNext (s s' : ReadHub) : Prop := ∃ ev, s.Careful ev ∧ s.step ev = s'

/-- What careful steps keep. -/
structure Sound (s : ReadHub) : Prop where
  mirrors : s.ledger.Mirrors s.store
  memory : ∀ v, s.floor v ≤ readTotal s.ledger.rows v ∧ readTotal s.ledger.rows v ≤ s.counted v
  disk : s.half = false → ∀ v, s.floor v ≤ readTotal s.store v ∧ readTotal s.store v ≤ s.counted v

variable {s : ReadHub} {env : FlushEnv} {l : ReadLedger}

theorem Sound.persisted (hmirrors : l.Mirrors s.store)
    (hmemory : ∀ v, s.floor v ≤ readTotal l.rows v ∧ readTotal l.rows v ≤ s.counted v)
    (hdisk : s.half = false →
      ∀ v, s.floor v ≤ readTotal s.store v ∧ readTotal s.store v ≤ s.counted v)
    (hall : ReadLedger.AllOrNone env l) : (s.persisted env l).Sound := by
  unfold ReadHub.persisted
  generalize hout : l.persist env s.store = out
  have hcases := ReadLedger.persist_cases hmirrors hall
  rw [hout] at hcases
  cases hcases with
  | nothing =>
    refine ⟨hmirrors, hmemory, fun hhalf => hdisk ?_⟩
    cases hs : s.half
    · rfl
    · simp [hs] at hhalf
  | deletions hqueued =>
    refine ⟨⟨hmirrors.dirty, by simp, fun k hk _ => ?_, fun k _ => ?_⟩, hmemory, fun hhalf => ?_⟩
    · dsimp only at hk ⊢
      rw [lookup_eraseRows]
      by_cases hp : k ∈ l.pendingDel
      · rw [if_pos hp]
        exact ((hmirrors.pending k hp).resolve_left hk).symm
      · rw [if_neg hp]
        exact hmirrors.same k hk hp
    · dsimp only
      by_cases hp : k ∈ l.pendingDel
      · rw [countAt, Tally.countAt_of_none (by rw [lookup_eraseRows, if_pos hp])]
        exact Nat.zero_le _
      · have hsame : (eraseRows s.store l.pendingDel).lookup k = s.store.lookup k := by
          rw [lookup_eraseRows, if_neg hp]
        exact (Tally.countAt_of_lookup hsame).trans_le (hmirrors.le k hp)
    · simp [hqueued] at hhalf
  | all store' hsame =>
    have hcount : ∀ k, countAt store' k = countAt l.rows k := fun k =>
      Tally.countAt_of_lookup (hsame k)
    have htotal : ∀ v, readTotal store' v = readTotal l.rows v := Tally.total_congr hcount
    refine ⟨⟨by simp, by simp, fun k _ _ => hsame k, fun k _ => (hcount k).le⟩, hmemory,
      fun _ v => ?_⟩
    exact ⟨(hmemory v).1.trans_eq (htotal v).symm, (htotal v).trans_le (hmemory v).2⟩

/-- A flush that reports success has written what the ledger counts. -/
theorem readTotal_of_success {store : ReadRows} (h : l.Mirrors store)
    (hall : ReadLedger.AllOrNone env l) (hok : (l.persist env store).1 = true) (v : ReadStatKey) :
    readTotal (l.persist env store).2.2 v = readTotal (l.persist env store).2.1.rows v := by
  generalize hout : l.persist env store = out at hok ⊢
  have hcases := ReadLedger.persist_cases h hall
  rw [hout] at hcases
  cases hcases with
  | nothing => cases hok
  | deletions => cases hok
  | all store' hsame => exact Tally.total_congr (fun k => Tally.countAt_of_lookup (hsame k)) v

theorem Sound.flushed (hmirrors : l.Mirrors s.store)
    (hmemory : ∀ v, s.floor v ≤ readTotal l.rows v ∧ readTotal l.rows v ≤ s.counted v)
    (hdisk : s.half = false →
      ∀ v, s.floor v ≤ readTotal s.store v ∧ readTotal s.store v ≤ s.counted v)
    (hall : ReadLedger.AllOrNone env l) : (s.flushed env l).Sound := by
  have hsound := Sound.persisted hmirrors hmemory hdisk hall
  cases hok : (l.persist env s.store).1
  · have hsame : s.flushed env l = s.persisted env l := by
      simp only [ReadHub.flushed, hok, Bool.false_eq_true, if_false]
      rfl
    exact hsame ▸ hsound
  · have hwritten := readTotal_of_success hmirrors hall hok
    have hfloor : (s.flushed env l).floor = readTotal (s.persisted env l).ledger.rows := by
      simp only [ReadHub.flushed, hok, if_true]
    refine ⟨hsound.mirrors, fun v => ?_, fun hhalf v => ?_⟩
    · rw [hfloor]
      exact ⟨le_rfl, (hsound.memory v).2⟩
    · rw [hfloor]
      exact ⟨(hwritten v).ge, (hsound.disk hhalf v).2⟩

theorem Sound.note (h : s.Sound) (v : ReadVisit) : (s.note v).Sound := by
  unfold ReadHub.note
  cases hcount : s.ledger.count v with
  | none => exact h
  | some l =>
    obtain ⟨hmirrors, htotal⟩ := h.mirrors.count hcount
    have hgrow : ∀ visit, s.counted visit ≤
        Function.update s.counted v.key.allTime (s.counted v.key.allTime + 1) visit := by
      intro visit
      by_cases hv : visit = v.key.allTime
      · rw [hv, Function.update_self]
        exact Nat.le_succ _
      · rw [Function.update_of_ne hv]
    refine ⟨hmirrors, fun visit => ?_, fun hhalf visit => ?_⟩
    · have hmemory := h.memory visit
      dsimp only
      rw [htotal visit]
      by_cases hv : v.key.allTime = visit
      · subst hv
        rw [if_pos rfl, Function.update_self]
        omega
      · rw [if_neg hv, Function.update_of_ne (Ne.symm hv)]
        exact hmemory
    · exact ⟨(h.disk hhalf visit).1, (h.disk hhalf visit).2.trans (hgrow visit)⟩

theorem Sound.flush (h : s.Sound) (hall : ReadLedger.AllOrNone env (s.ledger.beforeFlush env)) :
    (s.flushed env (s.ledger.beforeFlush env)).Sound := by
  obtain ⟨hmirrors, htotal⟩ := h.mirrors.beforeFlush env
  refine Sound.flushed hmirrors (fun v => ?_) h.disk hall
  rw [htotal v]
  exact h.memory v

/-- What a cut flush leaves in the store lies between what was there and what the ledger counts. -/
theorem readTotal_cut {store : ReadRows} (h : l.Mirrors store) (hcut : Cut env l) :
    (∀ v, readTotal (l.persist env store).2.2 v = readTotal store v) ∨
      (∀ v, readTotal (l.persist env store).2.2 v = readTotal l.rows v) ∨
      ∀ v, readTotal store v ≤ readTotal (l.persist env store).2.2 v ∧
        readTotal (l.persist env store).2.2 v ≤ readTotal l.rows v := by
  by_cases hpend : l.pendingDel = []
  · refine .inr (.inr ?_)
    have hle : ∀ k, countAt store k ≤ countAt l.rows k := fun k => h.le k (by simp [hpend])
    unfold ReadLedger.persist ReadLedger.persistDeletes ReadLedger.persistPuts
    rw [if_pos hpend]
    dsimp only
    split_ifs with hdirty hnone
    · exact fun v => ⟨le_rfl, Tally.total_mono hle v⟩
    · exact fun v => ⟨le_rfl, Tally.total_mono hle v⟩
    have hlanded : ∀ k ∈ landed env.putBatch env.put l.dirty, (l.rows.lookup k).isSome := by
      intro k hk
      refine h.dirty k ?_
      unfold landed at hk
      split_ifs at hk
      · exact hk
      · exact absurd hk (by simp)
      · exact List.mem_of_mem_filter hk
    have hput (k : ReadStatKey) := lookup_putRows hlanded store k
    refine fun v => ⟨Tally.total_mono (fun k => ?_) v, Tally.total_mono (fun k => ?_) v⟩
    · by_cases hk : k ∈ landed env.putBatch env.put l.dirty
      · exact (hle k).trans_eq (Tally.countAt_of_lookup (by rw [hput, if_pos hk]))
      · exact (Tally.countAt_of_lookup (by rw [hput, if_neg hk])).le
    · by_cases hk : k ∈ landed env.putBatch env.put l.dirty
      · exact (Tally.countAt_of_lookup (by rw [hput, if_pos hk])).le
      · exact (Tally.countAt_of_lookup (by rw [hput, if_neg hk])).trans_le (hle k)
  · rcases hcut with hnone | ⟨hdel, hput⟩
    · refine .inl fun v => ?_
      unfold ReadLedger.persist ReadLedger.persistDeletes
      rw [if_neg hpend]
      simp [hnone]
    · refine .inr (.inl fun v => ?_)
      have hwritten := h.lookup_written
      have hcount : ∀ k, countAt (l.persist env store).2.2 k = countAt l.rows k := by
        intro k
        unfold ReadLedger.persist ReadLedger.persistDeletes ReadLedger.persistPuts
        dsimp only
        rw [if_neg hpend, hdel, if_neg hpend]
        dsimp only
        rw [hput]
        by_cases hdirty : l.dirty = []
        · rw [hdirty] at hwritten
          rw [if_pos hdirty]
          exact Tally.countAt_of_lookup (hwritten k)
        · rw [if_neg hdirty, if_neg hdirty]
          exact Tally.countAt_of_lookup (hwritten k)
      exact Tally.total_congr hcount v

theorem Sound.reopened {cut : Option FlushEnv} (h : s.Sound) (hhalf : s.half = false)
    (hcut : ∀ c ∈ cut, Cut c (s.ledger.beforeFlush c))
    (hall : ReadLedger.AllOrNone env (openLedger env (s.left cut))) :
    (s.reopened cut env).Sound := by
  have hleft : ∀ v, s.floor v ≤ readTotal (s.left cut) v ∧ readTotal (s.left cut) v ≤ s.counted v := by
    intro v
    cases cut with
    | none => exact h.disk hhalf v
    | some c =>
      obtain ⟨hmirrors, htotal⟩ := h.mirrors.beforeFlush c
      have hdisk := h.disk hhalf v
      have hmemory := h.memory v
      rw [← htotal v] at hmemory
      rcases readTotal_cut hmirrors (hcut c rfl) with hsame | hwhole | hbetween
      · exact (hsame v).symm ▸ hdisk
      · exact (hwhole v).symm ▸ hmemory
      · exact ⟨hdisk.1.trans (hbetween v).1, (hbetween v).2.trans hmemory.2⟩
  obtain ⟨hmirrors, htotal⟩ := ReadLedger.mirrors_open (s.left cut) env
  refine @Sound.persisted { s with store := s.left cut, half := false } env _ hmirrors (fun v => ?_)
    (fun _ => hleft) hall
  rw [htotal v]
  exact hleft v

theorem note_half (s : ReadHub) (v : ReadVisit) : (s.note v).half = s.half := by
  unfold ReadHub.note
  split <;> rfl

theorem Sound.step {ev : ReadEvent} (h : s.Sound) (careful : s.Careful ev) :
    (s.step ev).Sound := by
  cases ev with
  | record v env =>
    unfold ReadHub.step
    dsimp only
    split_ifs with hdue
    · exact (h.note v).flush (careful hdue)
    · exact h.note v
  | flush env => exact h.flush careful
  | crash last cut env =>
    obtain ⟨hhalf, hcut, hall⟩ := careful
    cases last with
    | none => exact h.reopened hhalf hcut hall
    | some v => exact (h.note v).reopened ((note_half s v).trans hhalf) hcut hall

theorem sound_init : ({} : ReadHub).Sound := by
  have hempty : ∀ v, readTotal (∅ : ReadRows) v = 0 := fun v => rfl
  refine ⟨⟨by simp, by simp, fun _ _ _ => rfl, fun _ _ => le_rfl⟩, fun v => ?_, fun _ v => ?_⟩
  · exact ⟨le_rfl, le_rfl⟩
  · exact ⟨le_rfl, le_rfl⟩

end ReadHub

/-! ### Runs -/

/-- **No visit is lost and none is counted twice**: over careful steps the totals, those read back
after a crash among them, are at least what they were at the last flush that reported success, and
at most the visits that were counted. -/
theorem read_counts_survive {s : ReadHub} (h : Relation.ReflTransGen ReadHub.CarefulNext {} s)
    (visit : ReadStatKey) : s.floor visit ≤ readTotal s.ledger.rows visit ∧
      readTotal s.ledger.rows visit ≤ s.counted visit := by
  have hsound : s.Sound := Runs.invariant h
    (fun _ _ hs ⟨_, careful, hstep⟩ => hstep ▸ hs.step careful) ReadHub.sound_init
  exact hsound.memory visit

/-- A visit, and the hub that has counted it and written it out. -/
def pageVisit : ReadVisit where
  project := ascii "p"
  path := ascii "a.md"
  kind := ascii "human"
  actor := ascii "x"
  day := ascii "2024-01-01"

def pageHub : ReadHub := (({} : ReadHub).step (.record pageVisit {})).step (.flush {})

/-- A year later the visit is folded, and read back after a crash. -/
def foldedHub : ReadHub :=
  (pageHub.step (.flush { horizon := ascii "2025-01-01" })).step (.crash none none {})

theorem read_count_survives_fold : foldedHub.counted pageVisit.key.allTime = 1 ∧
    readTotal foldedHub.ledger.rows pageVisit.key.allTime = 1 := by
  have hrun : Relation.ReflTransGen ReadHub.CarefulNext {} foldedHub := by
    refine .head ⟨.record pageVisit {}, ?_, rfl⟩ <| .head ⟨.flush {}, ?_, rfl⟩ <|
      .head ⟨.flush { horizon := ascii "2025-01-01" }, ?_, rfl⟩ <|
      .single ⟨.crash none none {}, ?_, rfl⟩
    · exact fun hdue => absurd hdue (by decide +kernel)
    · exact ⟨.inr rfl, .inr rfl⟩
    · exact ⟨.inr rfl, .inr rfl⟩
    · exact ⟨by decide +kernel, by simp, .inr rfl, .inr rfl⟩
  have hkept := read_counts_survive hrun pageVisit.key.allTime
  have hcounted : foldedHub.counted pageVisit.key.allTime = 1 := by decide +kernel
  have hfloor : foldedHub.floor pageVisit.key.allTime = 1 := by decide +kernel
  rw [hcounted, hfloor] at hkept
  exact ⟨hcounted, le_antisymm hkept.2 hkept.1⟩

/-- The fold's deletion lands, its write is refused, and the process dies. -/
def lostHub : ReadHub :=
  (pageHub.step (.flush { horizon := ascii "2025-01-01", putBatch := false })).step
    (.crash none none {})

/-- The visit is gone, although a flush had reported it written. -/
theorem read_count_lost : ¬ ∀ s : ReadHub, Relation.ReflTransGen ReadHub.Next {} s →
    ∀ visit, s.floor visit ≤ readTotal s.ledger.rows visit ∧
      readTotal s.ledger.rows visit ≤ s.counted visit := by
  intro h
  have hrun : Relation.ReflTransGen ReadHub.Next {} lostHub :=
    .head ⟨.record pageVisit {}, rfl⟩ <| .head ⟨.flush {}, rfl⟩ <|
      .head ⟨.flush { horizon := ascii "2025-01-01", putBatch := false }, rfl⟩ <|
      .single ⟨.crash none none {}, rfl⟩
  exact absurd (h lostHub hrun pageVisit.key.allTime).1 (by decide +kernel)

end Beardrive
