import Beardrive.Lib.GoString
import Beardrive.Lib.Rank
import Beardrive.Lib.Runs
import Mathlib.Logic.Function.Basic

/-!
# Comments

Every change to a comment thread is an object of its own, under the thread and a stamp: the time,
with a random tail. A thread is the fold of its events, and a tombstone retires it. Two caps bound
what is read. A listing is cut to the oldest events of the project, and then every author to their
oldest events, where the age is the stamp's.

A writer looks at a listing, refuses when a cap is reached, stores its event, and reads it back
through the caps. The look and the store are two steps, and listings are cached for a while, so
that two processes may both find room for the last event. The one that does not find its own event
is told that it hit the limit.

## Main definitions

* `foldComments`, `boundByAuthor`, `listComments` — what is read, and how it is folded
* `CommentHubs` — the processes of one project and its stored comments
* `CommentHubs.step` — the steps of listings, writes and deletions
* `WithinCaps` — an event that is stored, not deleted and within both caps

## Main results

* `mem_load_iff` — what a complete load of a new listing holds
* `WithinCaps.put`, `WithinCaps.delete` — what another event, or a deletion, leaves
* `shows_foldComments` — an event with its place in the fold shows
-/

namespace Beardrive

/-! ### Events -/

/-- `CommentAnchor`. -/
structure CommentAnchor where
  quote : GoString := []
  quotePrefix : GoString := []
  quoteSuffix : GoString := []
  line : ℕ := 0
  element : GoString := []
  deriving DecidableEq

/-- `commentEvent.Kind`. -/
inductive CommentKind where
  | open_
  | reply
  | resolve
  | reopen
  deriving DecidableEq

/-- The key of a stored event: the thread, and the stamp of nanoseconds and random tail. The text of
a key has fixed widths, so that keys compare as these do. -/
structure CommentKey where
  thread : ℕ
  nanos : ℕ
  tail : ℕ
  deriving DecidableEq

/-- `keyStamp`. -/
def CommentKey.stamp (k : CommentKey) : ℕ ×ₗ ℕ := toLex (k.nanos, k.tail)

/-- `commentEvent`, as it is stored; the thread is the key's. -/
structure CommentBody where
  kind : CommentKind
  path : GoString := []
  anchor : Option CommentAnchor := none
  sha : GoString := []
  body : GoString := []
  author : GoString := []
  name : GoString := []
  time : ℕ
  deriving DecidableEq

/-- `commentEvent`, with the key it was read from. -/
structure CommentEvent extends CommentBody where
  key : CommentKey
  deriving DecidableEq

/-- `CommentMessage`. -/
structure CommentMessage where
  nanos : ℕ
  tail : ℕ
  author : GoString
  name : GoString
  body : GoString
  time : ℕ
  deriving DecidableEq

/-- `CommentThread`, before it is placed. -/
structure CommentThread where
  path : GoString
  anchor : CommentAnchor
  sha : GoString
  author : GoString
  name : GoString
  created : ℕ
  updated : ℕ
  messages : List CommentMessage
  resolved : Bool := false
  resolvedBy : GoString := []
  resolvedName : GoString := []
  resolvedAt : Option ℕ := none
  deriving DecidableEq

/-- `eventMessage`. -/
def eventMessage (ev : CommentEvent) : CommentMessage :=
  ⟨ev.key.nanos, ev.key.tail, ev.author, ev.name, ev.body, ev.time⟩

/-! ### Folding -/

/-- The thread an event opens. -/
def openThread (ev : CommentEvent) : CommentThread where
  path := ev.path
  anchor := ev.anchor.getD {}
  sha := ev.sha
  author := ev.author
  name := ev.name
  created := ev.time
  updated := ev.time
  messages := [eventMessage ev]

/-- What another event does to its thread. -/
def updateThread (t : CommentThread) (ev : CommentEvent) : CommentThread :=
  match ev.kind with
  | .open_ => t
  | .reply => { t with updated := ev.time, messages := t.messages ++ [eventMessage ev] }
  | .resolve =>
    { t with
      updated := ev.time
      messages := if ev.body = [] then t.messages else t.messages ++ [eventMessage ev]
      resolved := true
      resolvedBy := ev.author
      resolvedName := ev.name
      resolvedAt := some ev.time }
  | .reopen =>
    { t with
      updated := ev.time
      messages := if ev.body = [] then t.messages else t.messages ++ [eventMessage ev]
      resolved := false
      resolvedBy := []
      resolvedName := []
      resolvedAt := none }

/-- One round of the loop of `foldComments`, on the thread of the event: a second opening, one
without a path, and an event of a thread that was not opened are skipped. -/
def foldStep (t : Option CommentThread) (ev : CommentEvent) : Option CommentThread :=
  match t with
  | some t => some (updateThread t ev)
  | none => if ev.kind = .open_ ∧ ev.path ≠ [] then some (openThread ev) else none

/-- The order of the fold: by time, and by the key. -/
def CommentEvent.order (ev : CommentEvent) : ℕ ×ₗ (ℕ ×ₗ (ℕ ×ₗ ℕ)) :=
  toLex (ev.time, toLex (ev.key.thread, ev.key.stamp))

/-- `foldComments`. -/
def foldComments (evs : List CommentEvent) : ℕ → Option CommentThread :=
  (Rank.sortBy CommentEvent.order evs).foldl
    (fun threads ev => Function.update threads ev.key.thread
      (foldStep (threads ev.key.thread) ev)) fun _ => none

/-! ### The caps -/

/-- The caps on what is read. -/
structure CommentCaps where
  perProject : ℕ
  perAuthor : ℕ

/-- `maxCommentEventsPerProject` and `maxCommentEventsPerAuthor`. -/
def commentCaps : CommentCaps := ⟨20000, 2000⟩

/-- The loop of `boundByAuthor`, with how many events it kept of each author. -/
def boundByAuthorFrom (cap : ℕ) : (GoString → ℕ) → List CommentEvent → List CommentEvent
  | _, [] => []
  | per, ev :: evs =>
    if per ev.author < cap then
      ev :: boundByAuthorFrom cap (Function.update per ev.author (per ev.author + 1)) evs
    else boundByAuthorFrom cap per evs

/-- `boundByAuthor`. -/
def boundByAuthor (cap : ℕ) (evs : List CommentEvent) : List CommentEvent :=
  boundByAuthorFrom cap (fun _ => 0) (Rank.sortBy (·.key.stamp) evs)

/-! ### The store -/

/-- A stored object: its key, and what it reads as. -/
abbrev CommentObject := CommentKey × Option CommentBody

/-- The objects under `comments/` that a tombstone has not retired. -/
def liveComments (dead : List ℕ) (objects : List CommentObject) : List CommentObject :=
  objects.filter fun o => o.1.thread ∉ dead

/-- `commentCache.list`, when it asks the store: the keys of the oldest live events. -/
def listComments (caps : CommentCaps) (dead : List ℕ) (objects : List CommentObject) :
    List CommentKey :=
  (Rank.sortBy CommentKey.stamp ((liveComments dead objects).map Prod.fst)).take caps.perProject

/-- `readCommentEvent`. -/
def readCommentEvent (objects : List CommentObject) (key : CommentKey) : Option CommentEvent :=
  ((objects.find? (·.1 = key)).bind Prod.snd).map (⟨·, key⟩)

/-- `commentCache.fetch`, when the objects under the keys `lost` cannot be read. -/
def fetchComments (objects : List CommentObject) (lost keys : List CommentKey) :
    List CommentEvent :=
  keys.filterMap fun key => if key ∈ lost then none else readCommentEvent objects key

/-- `loadCommentEvents`, over a listing. -/
def loadCommentEvents (caps : CommentCaps) (objects : List CommentObject)
    (lost keys : List CommentKey) : List CommentEvent :=
  boundByAuthor caps.perAuthor (fetchComments objects lost keys)

/-- `loadThreads`. -/
def loadThreads (caps : CommentCaps) (objects : List CommentObject)
    (lost keys : List CommentKey) : ℕ → Option CommentThread :=
  foldComments (loadCommentEvents caps objects lost keys)

/-! ### Hub processes -/

/-- How far a write has come under the project's lock: it has its stamp, it found room, or it is
stored. -/
inductive CommentWrite where
  | stamped (ev : CommentEvent)
  | checked (ev : CommentEvent)
  | stored (ev : CommentEvent)
  deriving DecidableEq

/-- The processes of one project and its stored comments, by one clock.

`keys` is the listing a process trusts and `flying` has those it was answered and has not recorded.
`waiting` has the openings that wait for the lock, `acked` the events whose writes were
acknowledged. -/
structure CommentHubs (ι : Type*) where
  objects : List CommentObject
  dead : List ℕ := []
  now : ℕ := 0
  keys : ι → Option (List CommentKey) := fun _ => none
  flying : ι → List (List CommentKey) := fun _ => []
  waiting : ι → List CommentEvent := fun _ => []
  call : ι → Option CommentWrite := fun _ => none
  acked : List CommentEvent := []

/-- What can happen next. A load names its listing and the objects it failed to read; a write may be
refused for other reasons, and one that is not answered may have landed. -/
inductive CommentsEvent (ι : Type*) where
  | tick (d : ℕ)
  | list (i : ι)
  | record (i : ι) (keys : List CommentKey)
  | expire (i : ι)
  | create (i : ι) (body : CommentBody) (thread tail : ℕ)
  | begin_ (i : ι) (ev : CommentEvent)
  | update (i : ι) (body : CommentBody) (thread tail : ℕ) (keys lost : List CommentKey)
  | check (i : ι) (keys lost : List CommentKey)
  | refuse (i : ι)
  | put (i : ι) (answered landed : Bool)
  | readBack (i : ι) (keys : Option (List CommentKey)) (lost : List CommentKey)
  | delete (i : ι) (thread : ℕ)

/-- `nextCommentTime`. -/
def nextCommentTime (now : ℕ) (t : CommentThread) : ℕ :=
  if t.updated < now then now else t.updated + 1000

/-- An event with its key. -/
def stampComment (body : CommentBody) (thread tail time : ℕ) : CommentEvent :=
  { body with time := time, key := ⟨thread, time, tail⟩ }

/-- `be.Put`. -/
def putComment (ev : CommentEvent) (objects : List CommentObject) : List CommentObject :=
  (ev.key, some ev.toCommentBody) :: objects.filter (·.1 ≠ ev.key)

namespace CommentHubs

variable {ι : Type*} [DecidableEq ι]

/-- A listing a load of the process may have. -/
def Listing (s : CommentHubs ι) (i : ι) (keys : List CommentKey) : Prop :=
  s.keys i = some keys ∨ keys ∈ s.flying i

instance (s : CommentHubs ι) (i : ι) (keys : List CommentKey) : Decidable (s.Listing i keys) := by
  unfold Listing
  infer_instance

/-- The store answers a listing. -/
def listed (caps : CommentCaps) (s : CommentHubs ι) (i : ι) : CommentHubs ι :=
  { s with
    flying := Function.update s.flying i (listComments caps s.dead s.objects :: s.flying i) }

/-- A write ends. -/
def finish (s : CommentHubs ι) (i : ι) : CommentHubs ι :=
  { s with call := Function.update s.call i none }

/-- A write goes on. -/
def proceed (s : CommentHubs ι) (i : ι) (w : CommentWrite) : CommentHubs ι :=
  { s with call := Function.update s.call i (some w) }

/-- A write is acknowledged. -/
def acknowledge (s : CommentHubs ι) (i : ι) (ev : CommentEvent) : CommentHubs ι :=
  { s.finish i with acked := ev :: s.acked }

/-- The look before a write: a cap is reached. -/
def full (caps : CommentCaps) (evs : List CommentEvent) (ev : CommentEvent) : Bool :=
  decide (caps.perProject ≤ evs.length) ||
    decide (caps.perAuthor ≤ evs.countP fun e => e.author = ev.author)

/-- One step of a process. -/
def step (caps : CommentCaps) (s : CommentHubs ι) : CommentsEvent ι → Option (CommentHubs ι)
  | .tick d => some { s with now := s.now + d }
  | .list i => some (s.listed caps i)
  | .record i keys =>
    if keys ∈ s.flying i then
      some { s with
        keys := Function.update s.keys i (some keys)
        flying := Function.update s.flying i ((s.flying i).erase keys) }
    else none
  | .expire i => some { s with keys := Function.update s.keys i none }
  | .create i body thread tail =>
    if body.kind = .open_ ∧ body.path ≠ [] then
      some { s with
        waiting := Function.update s.waiting i
          (stampComment body thread tail s.now :: s.waiting i) }
    else none
  | .begin_ i ev =>
    if ev ∈ s.waiting i ∧ s.call i = none then
      some { s.proceed i (.stamped ev) with
        waiting := Function.update s.waiting i ((s.waiting i).erase ev) }
    else none
  | .update i body thread tail keys lost =>
    if body.kind ≠ .open_ ∧ s.call i = none ∧ s.Listing i keys then
      (loadThreads caps s.objects lost keys thread).map fun t =>
        s.proceed i (.stamped (stampComment body thread tail (nextCommentTime s.now t)))
    else none
  | .check i keys lost =>
    match s.call i with
    | some (.stamped ev) =>
      if s.Listing i keys then
        if full caps (loadCommentEvents caps s.objects lost keys) ev then some (s.finish i)
        else some (s.proceed i (.checked ev))
      else none
    | _ => none
  | .refuse i =>
    match s.call i with
    | some (.stamped _) => some (s.finish i)
    | some (.checked _) => some (s.finish i)
    | _ => none
  | .put i answered landed =>
    match s.call i with
    | some (.checked ev) =>
      if answered then
        some { s.proceed i (.stored ev) with
          objects := putComment ev s.objects
          keys := Function.update s.keys i none }
      else some { s.finish i with objects := if landed then putComment ev s.objects else s.objects }
    | _ => none
  | .readBack i none _ =>
    match s.call i with
    | some (.stored ev) => some (s.acknowledge i ev)
    | _ => none
  | .readBack i (some keys) lost =>
    match s.call i with
    | some (.stored ev) =>
      if s.Listing i keys then
        if (loadCommentEvents caps s.objects lost keys).any (·.key = ev.key) then
          some (s.acknowledge i ev)
        else some (s.finish i)
      else none
    | _ => none
  | .delete i thread =>
    if s.call i = none then
      some { s with dead := thread :: s.dead, keys := Function.update s.keys i none }
    else none

/-- The state may become the next one. -/
def Next (caps : CommentCaps) (s s' : CommentHubs ι) : Prop := ∃ ev, step caps s ev = some s'

/-- What a listing of the store answers: the objects are listed and fetched in some order. -/
def Answers (caps : CommentCaps) (s : CommentHubs ι) (threads : ℕ → Option CommentThread) : Prop :=
  ∃ objects evs, objects.Perm s.objects ∧
    evs.Perm (fetchComments objects [] (listComments caps s.dead objects)) ∧
    threads = foldComments (boundByAuthor caps.perAuthor evs)

end CommentHubs

/-- An event is in a fold: its thread is there and was updated since, and has its message. -/
def Shows (e : CommentEvent) (threads : ℕ → Option CommentThread) : Prop :=
  ∃ t, threads e.key.thread = some t ∧ e.time ≤ t.updated ∧
    (e.kind = .open_ ∨ e.kind = .reply ∨ e.body ≠ [] → eventMessage e ∈ t.messages)

/-! ### Within the caps -/

theorem mem_boundByAuthorFrom {cap : ℕ} {evs : List CommentEvent} {per : GoString → ℕ}
    {e : CommentEvent} (h : evs.Pairwise fun a b => a.key.stamp < b.key.stamp) :
    e ∈ boundByAuthorFrom cap per evs ↔ e ∈ evs ∧
      per e.author +
        Rank.rank (·.key.stamp) (evs.filter (·.author = e.author)) e.key.stamp < cap := by
  induction evs generalizing per with
  | nil => simp [boundByAuthorFrom]
  | cons x evs ih =>
    obtain ⟨hx, hevs⟩ := List.pairwise_cons.mp h
    by_cases hex : e = x
    · subst hex
      have hnot : e ∉ evs := fun he => lt_irrefl _ (hx e he)
      have hzero : Rank.rank (·.key.stamp) ((e :: evs).filter (·.author = e.author)) e.key.stamp
          = 0 := by
        refine Rank.rank_eq_zero_of_forall fun o ho => ?_
        rcases List.mem_cons.mp (List.mem_of_mem_filter ho) with rfl | ho
        · exact le_refl _
        · exact (hx o ho).le
      rw [hzero, boundByAuthorFrom]
      split_ifs with hcap
      · simp [hcap]
      · rw [ih hevs]
        simp [hnot, hcap]
    have hmem : e ∈ x :: evs ↔ e ∈ evs := by simp [hex]
    have hrest : e ∈ boundByAuthorFrom cap per (x :: evs) ↔
        e ∈ boundByAuthorFrom cap (if per x.author < cap then
          Function.update per x.author (per x.author + 1) else per) evs := by
      rw [boundByAuthorFrom]
      split_ifs <;> simp [hex]
    rw [hrest, ih hevs, hmem]
    refine and_congr_right fun he => ?_
    have hlt := hx e he
    by_cases hauthor : x.author = e.author
    · have hrank : Rank.rank (·.key.stamp) ((x :: evs).filter (·.author = e.author)) e.key.stamp =
          Rank.rank (·.key.stamp) (evs.filter (·.author = e.author)) e.key.stamp + 1 := by
        rw [List.filter_cons_of_pos (by simpa using hauthor)]
        exact Rank.rank_cons_of_lt hlt
      rw [hrank, hauthor]
      split_ifs with hcap
      · rw [Function.update_self]
        omega
      · omega
    · have hfilter : (x :: evs).filter (·.author = e.author) = evs.filter (·.author = e.author) :=
        List.filter_cons_of_neg (by simpa using hauthor)
      rw [hfilter]
      split_ifs with hcap
      · rw [Function.update_of_ne (Ne.symm hauthor)]
      · rfl

/-- **An event is within its author's cap when its rank among the author's events is.** -/
theorem mem_boundByAuthor {cap : ℕ} {evs : List CommentEvent} {e : CommentEvent}
    (h : (evs.map (·.key.stamp)).Nodup) :
    e ∈ boundByAuthor cap evs ↔ e ∈ evs ∧
      Rank.rank (·.key.stamp) (evs.filter (·.author = e.author)) e.key.stamp < cap := by
  rw [boundByAuthor, mem_boundByAuthorFrom (Rank.pairwise_sortBy h), Rank.mem_sortBy, Nat.zero_add,
    Rank.rank_perm ((Rank.sortBy_perm _ evs).filter _)]

theorem boundByAuthorFrom_sublist (cap : ℕ) (per : GoString → ℕ) (evs : List CommentEvent) :
    (boundByAuthorFrom cap per evs).Sublist evs := by
  induction evs generalizing per with
  | nil => exact List.Sublist.refl _
  | cons ev evs ih =>
    rw [boundByAuthorFrom]
    split_ifs
    · exact (ih _).cons_cons ev
    · exact (ih _).cons ev

theorem nodup_liveKeys {objects : List CommentObject} (h : (objects.map (·.1.stamp)).Nodup)
    (dead : List ℕ) :
    (((liveComments dead objects).map Prod.fst).map CommentKey.stamp).Nodup := by
  rw [List.map_map]
  exact h.sublist (List.filter_sublist.map _)

theorem nodup_listComments {objects : List CommentObject} (h : (objects.map (·.1.stamp)).Nodup)
    (caps : CommentCaps) (dead : List ℕ) :
    ((listComments caps dead objects).map CommentKey.stamp).Nodup :=
  (((Rank.sortBy_perm _ _).map _).nodup_iff.mpr (nodup_liveKeys h dead)).sublist
    ((List.take_sublist _ _).map _)

/-- The keys of a listing are the live ones of small rank. -/
theorem mem_listComments {caps : CommentCaps} {dead : List ℕ} {objects : List CommentObject}
    {k : CommentKey} (h : (objects.map (·.1.stamp)).Nodup) :
    k ∈ listComments caps dead objects ↔ k ∈ (liveComments dead objects).map Prod.fst ∧
      Rank.rank (·.1.stamp) (liveComments dead objects) k.stamp < caps.perProject := by
  rw [listComments, Rank.mem_take_iff (Rank.pairwise_sortBy (nodup_liveKeys h dead)),
    Rank.mem_sortBy,
    Rank.rank_perm (Rank.sortBy_perm _ _), Rank.rank, List.countP_map]
  rfl

/-! ### Reading -/

theorem nodup_keys {objects : List CommentObject} (h : (objects.map (·.1.stamp)).Nodup) :
    (objects.map Prod.fst).Nodup := by
  refine List.Nodup.of_map CommentKey.stamp ?_
  rwa [List.map_map]

/-- An object is read when it is stored under its key. -/
theorem readCommentEvent_eq_some {objects : List CommentObject} {key : CommentKey}
    {e : CommentEvent} (h : (objects.map Prod.fst).Nodup) :
    readCommentEvent objects key = some e ↔
      e.key = key ∧ (key, some e.toCommentBody) ∈ objects := by
  have hfind : ∀ b, objects.find? (·.1 = key) = some (key, b) ↔ (key, b) ∈ objects := by
    intro b
    constructor
    · exact List.mem_of_find?_eq_some
    · intro hmem
      induction objects with
      | nil => cases hmem
      | cons o objects ih =>
        rw [List.map_cons, List.nodup_cons] at h
        rcases List.mem_cons.mp hmem with rfl | hmem
        · simp
        · have hne : o.1 ≠ key := fun heq =>
            h.1 (List.mem_map.mpr ⟨(key, b), hmem, heq.symm⟩)
          rw [List.find?_cons_of_neg (by simpa using hne)]
          exact ih h.2 hmem
  constructor
  · intro hread
    obtain ⟨b, hb, rfl⟩ := Option.map_eq_some_iff.mp hread
    obtain ⟨⟨k, o⟩, ho, hsome⟩ := Option.bind_eq_some_iff.mp hb
    obtain rfl : k = key := by simpa using List.find?_some ho
    obtain rfl : o = some b := hsome
    exact ⟨rfl, (hfind _).mp ho⟩
  · rintro ⟨rfl, hmem⟩
    rw [readCommentEvent, (hfind _).mpr hmem]
    rfl

theorem mem_fetchComments {objects : List CommentObject} {keys : List CommentKey}
    {e : CommentEvent} (h : (objects.map Prod.fst).Nodup) :
    e ∈ fetchComments objects [] keys ↔
      e.key ∈ keys ∧ (e.key, some e.toCommentBody) ∈ objects := by
  simp only [fetchComments, List.not_mem_nil, if_false, List.mem_filterMap,
    readCommentEvent_eq_some h]
  constructor
  · rintro ⟨k, hk, rfl, hmem⟩
    exact ⟨hk, hmem⟩
  · rintro ⟨hk, hmem⟩
    exact ⟨e.key, hk, rfl, hmem⟩

theorem readCommentEvent_perm {objects objects' : List CommentObject} {key : CommentKey}
    (hperm : objects.Perm objects') (h : (objects.map Prod.fst).Nodup) :
    readCommentEvent objects key = readCommentEvent objects' key := by
  have h' : (objects'.map Prod.fst).Nodup := (hperm.map _).nodup_iff.mp h
  refine Option.ext fun e => ?_
  rw [readCommentEvent_eq_some h, readCommentEvent_eq_some h', hperm.mem_iff]

/-- An object under a new key changes nothing for the others. -/
theorem readCommentEvent_put {objects : List CommentObject} {ev : CommentEvent} {key : CommentKey}
    (hnew : ∀ o ∈ objects, o.1 ≠ ev.key) (hkey : key ≠ ev.key) :
    readCommentEvent (putComment ev objects) key = readCommentEvent objects key := by
  have hfilter : objects.filter (·.1 ≠ ev.key) = objects :=
    List.filter_eq_self.mpr fun o ho => by simpa using hnew o ho
  rw [readCommentEvent, putComment, hfilter, List.find?_cons_of_neg (by simpa using Ne.symm hkey)]
  rfl

theorem fetchComments_keys (objects : List CommentObject) (lost keys : List CommentKey) :
    ((fetchComments objects lost keys).map (·.key)).Sublist keys := by
  induction keys with
  | nil => exact List.Sublist.refl _
  | cons k keys ih =>
    rw [fetchComments, List.filterMap_cons]
    cases hread : (if k ∈ lost then none else readCommentEvent objects k) with
    | none => exact ih.cons _
    | some e =>
      have hkey : e.key = k := by
        split_ifs at hread
        obtain ⟨b, -, rfl⟩ := Option.map_eq_some_iff.mp hread
        rfl
      rw [List.map_cons, hkey]
      exact ih.cons_cons _

theorem nodup_fetchComments {objects : List CommentObject} {keys : List CommentKey}
    (h : (keys.map CommentKey.stamp).Nodup) (lost : List CommentKey) :
    ((fetchComments objects lost keys).map (·.key.stamp)).Nodup := by
  have hsub := (fetchComments_keys objects lost keys).map CommentKey.stamp
  rw [List.map_map] at hsub
  exact h.sublist hsub

/-! ### Events that are kept -/

/-- The live objects that can be read. -/
def liveEvents (dead : List ℕ) (objects : List CommentObject) : List CommentEvent :=
  (liveComments dead objects).filterMap fun o => o.2.map (⟨·, o.1⟩)

/-- An event that is stored, not deleted, and within both caps. -/
structure WithinCaps (caps : CommentCaps) (dead : List ℕ) (objects : List CommentObject)
    (e : CommentEvent) : Prop where
  stored : (e.key, some e.toCommentBody) ∈ objects
  live : e.key.thread ∉ dead
  project : Rank.rank (·.1.stamp) (liveComments dead objects) e.key.stamp < caps.perProject
  author : Rank.rank (·.key.stamp) ((liveEvents dead objects).filter (·.author = e.author))
    e.key.stamp < caps.perAuthor

section

variable {caps : CommentCaps} {dead : List ℕ} {objects : List CommentObject} {e ev : CommentEvent}

theorem mem_liveComments {o : CommentObject} :
    o ∈ liveComments dead objects ↔ o ∈ objects ∧ o.1.thread ∉ dead := by
  simp [liveComments]

theorem mem_liveEvents : e ∈ liveEvents dead objects ↔
    (e.key, some e.toCommentBody) ∈ objects ∧ e.key.thread ∉ dead := by
  rw [liveEvents, List.mem_filterMap]
  constructor
  · rintro ⟨⟨k, b⟩, ho, hb⟩
    obtain ⟨b, rfl, rfl⟩ := Option.map_eq_some_iff.mp hb
    exact mem_liveComments.mp ho
  · intro h
    exact ⟨(e.key, some e.toCommentBody), mem_liveComments.mpr h, rfl⟩

theorem liveEvents_stamps (dead : List ℕ) (objects : List CommentObject) :
    ((liveEvents dead objects).map (·.key.stamp)).Sublist (objects.map (·.1.stamp)) := by
  have hlive : ((liveComments dead objects).map (·.1.stamp)).Sublist (objects.map (·.1.stamp)) :=
    List.filter_sublist.map _
  refine List.Sublist.trans ?_ hlive
  unfold liveEvents
  induction liveComments dead objects with
  | nil => exact List.Sublist.refl _
  | cons o live ih =>
    rw [List.filterMap_cons]
    cases o.2 with
    | none => exact ih.cons _
    | some b => exact ih.cons_cons _

/-- What a complete load of a new listing holds. -/
theorem mem_load_iff (h : (objects.map (·.1.stamp)).Nodup) :
    e ∈ loadCommentEvents caps objects [] (listComments caps dead objects) ↔
      WithinCaps caps dead objects e := by
  have hkeys := nodup_keys h
  -- the events of a listing are the live ones within the project's cap
  have hfetch : ∀ o, o ∈ fetchComments objects [] (listComments caps dead objects) ↔
      o ∈ liveEvents dead objects ∧
        Rank.rank (·.1.stamp) (liveComments dead objects) o.key.stamp < caps.perProject := by
    intro o
    rw [mem_fetchComments hkeys, mem_listComments h, mem_liveEvents]
    constructor
    · rintro ⟨⟨hlive, hrank⟩, hstored⟩
      obtain ⟨x, hx, heq⟩ := List.mem_map.mp hlive
      exact ⟨⟨hstored, heq ▸ (mem_liveComments.mp hx).2⟩, hrank⟩
    · rintro ⟨⟨hstored, hlive⟩, hrank⟩
      exact ⟨⟨List.mem_map.mpr ⟨_, mem_liveComments.mpr ⟨hstored, hlive⟩, rfl⟩, hrank⟩, hstored⟩
  have hfetchNodup : ((fetchComments objects [] (listComments caps dead objects)).map
      (·.key.stamp)).Nodup := nodup_fetchComments (nodup_listComments h caps dead) []
  have hperm : (fetchComments objects [] (listComments caps dead objects)).Perm
      ((liveEvents dead objects).filter fun o =>
        Rank.rank (·.1.stamp) (liveComments dead objects) o.key.stamp < caps.perProject) := by
    refine (List.perm_ext_iff_of_nodup hfetchNodup.of_map ?_).mpr fun o => ?_
    · exact ((h.sublist (liveEvents_stamps dead objects)).of_map).filter _
    · rw [hfetch, List.mem_filter, decide_eq_true_iff]
  rw [loadCommentEvents, mem_boundByAuthor hfetchNodup, hfetch, mem_liveEvents]
  -- below an event within the project's cap, all events are within it
  have hrank : Rank.rank (·.1.stamp) (liveComments dead objects) e.key.stamp < caps.perProject →
      Rank.rank (·.key.stamp) ((fetchComments objects [] (listComments caps dead objects)).filter
        (·.author = e.author)) e.key.stamp =
      Rank.rank (·.key.stamp) ((liveEvents dead objects).filter (·.author = e.author))
        e.key.stamp := by
    intro hcut
    rw [Rank.rank_perm (hperm.filter _), Rank.rank, Rank.rank, List.countP_filter,
      List.countP_filter, List.countP_filter]
    refine List.countP_congr fun o _ => ?_
    simp only [Bool.and_eq_true, decide_eq_true_eq]
    constructor
    · exact fun ho => ho.1
    · exact fun ho => ⟨ho, lt_of_le_of_lt (Rank.rank_mono ho.1.le) hcut⟩
  constructor
  · rintro ⟨⟨⟨hstored, hlive⟩, hproject⟩, hauthor⟩
    exact ⟨hstored, hlive, hproject, hrank hproject ▸ hauthor⟩
  · rintro ⟨hstored, hlive, hproject, hauthor⟩
    exact ⟨⟨⟨hstored, hlive⟩, hproject⟩, (hrank hproject).symm ▸ hauthor⟩

/-- An event may be stored: its stamp and the thread it opens are new, and it is later than every
live one, or there is room for it. -/
structure MayPut (caps : CommentCaps) (dead : List ℕ) (objects : List CommentObject)
    (ev : CommentEvent) : Prop where
  stamp : ∀ o ∈ objects, o.1.stamp ≠ ev.key.stamp
  thread : ev.kind = .open_ → ∀ o ∈ objects, o.1.thread ≠ ev.key.thread
  later_or_room : (∀ o ∈ liveComments dead objects, o.1.stamp < ev.key.stamp) ∨
    (liveComments dead objects).length < caps.perProject ∧
      ((liveEvents dead objects).filter (·.author = ev.author)).length < caps.perAuthor

theorem mayPut_nil : MayPut caps dead [] ev :=
  ⟨by simp, by simp, .inl (by simp [liveComments])⟩

theorem MayPut.ne (h : MayPut caps dead objects ev) : ∀ o ∈ objects, o.1 ≠ ev.key :=
  fun o ho heq => h.stamp o ho (by rw [heq])

theorem putComment_of_new (h : ∀ o ∈ objects, o.1 ≠ ev.key) :
    putComment ev objects = (ev.key, some ev.toCommentBody) :: objects := by
  rw [putComment, List.filter_eq_self.mpr fun o ho => by simpa using h o ho]

theorem putComment_eq (h : MayPut caps dead objects ev) :
    putComment ev objects = (ev.key, some ev.toCommentBody) :: objects :=
  putComment_of_new h.ne

theorem liveComments_put (h : MayPut caps dead objects ev) :
    liveComments dead (putComment ev objects) =
      if ev.key.thread ∈ dead then liveComments dead objects
      else (ev.key, some ev.toCommentBody) :: liveComments dead objects := by
  rw [putComment_eq h, liveComments, liveComments]
  split_ifs with hdead
  · rw [List.filter_cons_of_neg (by simpa using hdead)]
  · rw [List.filter_cons_of_pos (by simpa using hdead)]

theorem liveEvents_put (h : MayPut caps dead objects ev) :
    liveEvents dead (putComment ev objects) =
      if ev.key.thread ∈ dead then liveEvents dead objects else ev :: liveEvents dead objects := by
  rw [liveEvents, liveComments_put h]
  split_ifs
  · rfl
  · rw [List.filterMap_cons_some (by rfl)]
    rfl

/-- **An event that may be stored displaces none.** -/
theorem WithinCaps.put (he : WithinCaps caps dead objects e) (h : MayPut caps dead objects ev) :
    WithinCaps caps dead (putComment ev objects) e := by
  have hstored : (e.key, some e.toCommentBody) ∈ putComment ev objects := by
    rw [putComment_eq h]
    exact List.mem_cons_of_mem _ he.stored
  by_cases hdead : ev.key.thread ∈ dead
  · refine ⟨hstored, he.live, ?_, ?_⟩
    · rw [liveComments_put h, if_pos hdead]
      exact he.project
    · rw [liveEvents_put h, if_pos hdead]
      exact he.author
  have hlive : (e.key, some e.toCommentBody) ∈ liveComments dead objects :=
    mem_liveComments.mpr ⟨he.stored, he.live⟩
  rcases h.later_or_room with hlater | ⟨hproject, hauthor⟩
  · have hlt : e.key.stamp < ev.key.stamp := hlater _ hlive
    refine ⟨hstored, he.live, ?_, ?_⟩
    · rw [liveComments_put h, if_neg hdead]
      exact lt_of_eq_of_lt (Rank.rank_cons_of_le hlt.le) he.project
    · rw [liveEvents_put h, if_neg hdead, List.filter_cons]
      split_ifs
      · exact lt_of_eq_of_lt (Rank.rank_cons_of_le hlt.le) he.author
      · exact he.author
  · refine ⟨hstored, he.live, ?_, ?_⟩
    · rw [liveComments_put h, if_neg hdead]
      exact Nat.lt_of_lt_of_le (Rank.rank_lt_length (List.mem_cons_of_mem _ hlive)) hproject
    · rw [liveEvents_put h, if_neg hdead, List.filter_cons]
      split_ifs with hsame
      · have hmine : e ∈ (liveEvents dead objects).filter (·.author = e.author) :=
          List.mem_filter.mpr ⟨mem_liveEvents.mpr ⟨he.stored, he.live⟩, by simp⟩
        have hsame : ev.author = e.author := by simpa using hsame
        rw [hsame] at hauthor
        exact Nat.lt_of_lt_of_le (Rank.rank_lt_length (List.mem_cons_of_mem _ hmine)) hauthor
      · exact he.author

/-- Deleting makes room. -/
theorem WithinCaps.delete {thread : ℕ} (he : WithinCaps caps dead objects e)
    (h : e.key.thread ≠ thread) : WithinCaps caps (thread :: dead) objects e := by
  have hlive : (liveComments (thread :: dead) objects).Sublist (liveComments dead objects) := by
    have hfilter : liveComments (thread :: dead) objects =
        (liveComments dead objects).filter fun o => o.1.thread ≠ thread := by
      rw [liveComments, liveComments, List.filter_filter]
      refine List.filter_congr fun o _ => ?_
      simp
    rw [hfilter]
    exact List.filter_sublist
  refine ⟨he.stored, ?_, ?_, ?_⟩
  · rw [List.mem_cons, not_or]
    exact ⟨h, he.live⟩
  · exact lt_of_le_of_lt (Rank.rank_le_of_sublist hlive _) he.project
  · exact lt_of_le_of_lt
      (Rank.rank_le_of_sublist ((hlive.filterMap _).filter _) _) he.author

end

/-! ### What a fold shows -/

section

variable {evs : List CommentEvent} {e o : CommentEvent}

/-- A fold is a fold for each thread. -/
theorem foldl_threads (evs : List CommentEvent) (threads : ℕ → Option CommentThread) (thread : ℕ) :
    evs.foldl (fun threads ev => Function.update threads ev.key.thread
        (foldStep (threads ev.key.thread) ev)) threads thread =
      (evs.filter (·.key.thread = thread)).foldl foldStep (threads thread) := by
  induction evs generalizing threads with
  | nil => rfl
  | cons ev evs ih =>
    rw [List.foldl_cons, ih, List.filter_cons]
    by_cases hthread : ev.key.thread = thread
    · subst hthread
      simp
    · simp [hthread, Function.update_of_ne (Ne.symm hthread)]

/-- A thread that was opened stays. -/
theorem foldl_foldStep_isSome {t : CommentThread} (evs : List CommentEvent) :
    ∃ t', evs.foldl foldStep (some t) = some t' := by
  induction evs generalizing t with
  | nil => exact ⟨t, rfl⟩
  | cons ev evs ih => exact ih

/-- What an event did to its thread, later ones leave. -/
theorem foldl_foldStep_shows {t : CommentThread} {T : ℕ} {m : CommentMessage} {p : Prop}
    (hevs : ∀ ev ∈ evs, T ≤ ev.time) (hT : T ≤ t.updated) (hm : p → m ∈ t.messages) :
    ∃ t', evs.foldl foldStep (some t) = some t' ∧ T ≤ t'.updated ∧ (p → m ∈ t'.messages) := by
  induction evs generalizing t with
  | nil => exact ⟨t, rfl, hT, hm⟩
  | cons ev evs ih =>
    obtain ⟨hev, hevs⟩ := List.forall_mem_cons.mp hevs
    refine ih hevs ?_ fun hp => ?_
    · cases hkind : ev.kind <;> simp [updateThread, hkind, hT, hev]
    · have hmem := hm hp
      cases hkind : ev.kind <;> simp only [updateThread, hkind]
      · exact hmem
      · exact List.mem_append_left _ hmem
      all_goals
        split_ifs
        · exact hmem
        · exact List.mem_append_left _ hmem

/-- What an event does to its thread when it is folded. -/
theorem foldStep_shows {t : Option CommentThread}
    (h : t = none ∧ e.kind = .open_ ∧ e.path ≠ [] ∨ t.isSome ∧ e.kind ≠ .open_) :
    ∃ t', foldStep t e = some t' ∧ e.time ≤ t'.updated ∧
      (e.kind = .open_ ∨ e.kind = .reply ∨ e.body ≠ [] → eventMessage e ∈ t'.messages) := by
  rcases h with ⟨rfl, hkind, hpath⟩ | ⟨hsome, hkind⟩
  · refine ⟨openThread e, ?_, le_refl _, fun _ => by simp [openThread]⟩
    rw [foldStep, if_pos ⟨hkind, hpath⟩]
  · obtain ⟨t, rfl⟩ := Option.isSome_iff_exists.mp hsome
    refine ⟨updateThread t e, rfl, ?_, fun hmessage => ?_⟩
    · cases hk : e.kind <;> simp [updateThread, hk] at hkind ⊢
    · cases hk : e.kind <;> simp_all [updateThread]

/-- No event opens the thread, so there is none. -/
theorem foldl_foldStep_none (h : ∀ ev ∈ evs, ev.kind ≠ .open_) :
    evs.foldl foldStep none = none := by
  induction evs with
  | nil => rfl
  | cons ev evs ih =>
    obtain ⟨hev, hevs⟩ := List.forall_mem_cons.mp h
    rw [List.foldl_cons, foldStep, if_neg fun hopen => hev hopen.1]
    exact ih hevs

/-- An event has its place in the fold: it opens its thread and no other event does, or the thread
was opened before. -/
def Rooted (evs : List CommentEvent) (e : CommentEvent) : Prop :=
  (e.kind = .open_ ∧ e.path ≠ [] ∧
      ∀ o ∈ evs, o.kind = .open_ → o.key.thread = e.key.thread → o = e) ∨
    e.kind ≠ .open_ ∧ ∃ o ∈ evs, o.kind = .open_ ∧ o.path ≠ [] ∧
      o.key.thread = e.key.thread ∧ o.time < e.time

/-- **An event with its place in the fold shows.** -/
theorem shows_foldComments (he : e ∈ evs) (hroot : Rooted evs e)
    (hnodup : (evs.map CommentEvent.order).Nodup) : Shows e (foldComments evs) := by
  have hsorted := Rank.pairwise_sortBy hnodup
  obtain ⟨pre, post, hsplit⟩ := List.append_of_mem ((Rank.mem_sortBy CommentEvent.order).mpr he)
  have hmem : ∀ {o}, o ∈ pre ∨ o = e ∨ o ∈ post ↔ o ∈ evs := by
    intro o
    have hiff := Rank.mem_sortBy CommentEvent.order (l := evs) (a := o)
    rw [← hiff, hsplit]
    simp
  rw [hsplit, List.pairwise_append, List.pairwise_cons] at hsorted
  obtain ⟨-, ⟨hpost, -⟩, hpre⟩ := hsorted
  have htime : ∀ ev ∈ post, e.time ≤ ev.time := fun ev hev =>
    Prod.Lex.monotone_fst _ _ (hpost ev hev).le
  set before := (pre.filter (·.key.thread = e.key.thread)).foldl foldStep none with hbefore
  have hfold : foldComments evs e.key.thread =
      (post.filter (·.key.thread = e.key.thread)).foldl foldStep (foldStep before e) := by
    rw [foldComments, hsplit, foldl_threads, List.filter_append, List.filter_cons_of_pos (by simp),
      List.foldl_append, List.foldl_cons]
  have hplace : before = none ∧ e.kind = .open_ ∧ e.path ≠ [] ∨
      before.isSome ∧ e.kind ≠ .open_ := by
    rcases hroot with ⟨hkind, hpath, honly⟩ | ⟨hkind, o, ho, hopen, hpath, hthread, hlt⟩
    · refine .inl ⟨foldl_foldStep_none fun ev hev hopen => ?_, hkind, hpath⟩
      obtain ⟨hbefore, hthread⟩ := List.mem_filter.mp hev
      have heq : ev = e := honly ev (hmem.mp (.inl hbefore)) hopen (by simpa using hthread)
      have hlt := hpre ev hbefore e List.mem_cons_self
      rw [heq] at hlt
      exact lt_irrefl _ hlt
    · refine .inr ⟨?_, hkind⟩
      have hpreMem : o ∈ pre := by
        rcases hmem.mpr ho with h | rfl | h
        · exact h
        · exact absurd hlt (lt_irrefl _)
        · exact absurd hlt (not_lt.mpr (htime o h))
      obtain ⟨front, back, hfront⟩ := List.append_of_mem
        (List.mem_filter.mpr ⟨hpreMem, by simpa using hthread⟩ :
          o ∈ pre.filter (·.key.thread = e.key.thread))
      rw [hbefore, hfront, List.foldl_append, List.foldl_cons]
      have hsome : ∃ t, foldStep (front.foldl foldStep none) o = some t := by
        cases front.foldl foldStep none with
        | none => exact ⟨openThread o, if_pos ⟨hopen, hpath⟩⟩
        | some t => exact ⟨updateThread t o, rfl⟩
      obtain ⟨t, ht⟩ := hsome
      obtain ⟨t', ht'⟩ := foldl_foldStep_isSome (t := t) back
      rw [ht, ht']
      rfl
  obtain ⟨t, ht, hT, hm⟩ := foldStep_shows hplace
  obtain ⟨t', ht', hT', hm'⟩ := foldl_foldStep_shows
    (fun ev hev => htime ev (List.mem_of_mem_filter hev)) hT hm
  exact ⟨t', by rw [hfold, ht, ht'], hT', hm'⟩

theorem foldl_foldStep_opened {t : CommentThread}
    (hsorted : evs.Pairwise fun a b => a.time ≤ b.time) (h : evs.foldl foldStep none = some t) :
    ∃ o ∈ evs, o.kind = .open_ ∧ o.path ≠ [] ∧ o.time ≤ t.updated := by
  induction evs using List.reverseRecOn generalizing t with
  | nil => cases h
  | append_singleton evs ev ih =>
    rw [List.pairwise_append] at hsorted
    rw [List.foldl_append, List.foldl_cons, List.foldl_nil] at h
    cases hbefore : evs.foldl foldStep none with
    | none =>
      rw [hbefore, foldStep, Option.ite_none_right_eq_some] at h
      obtain ⟨⟨hkind, hpath⟩, heq⟩ := h
      cases heq
      exact ⟨ev, by simp, hkind, hpath, le_refl _⟩
    | some t₀ =>
      rw [hbefore] at h
      cases h
      obtain ⟨o, ho, hkind, hpath, htime⟩ := ih hsorted.1 hbefore
      refine ⟨o, List.mem_append_left _ ho, hkind, hpath, ?_⟩
      have hev : o.time ≤ ev.time := hsorted.2.2 o ho ev List.mem_cons_self
      cases hk : ev.kind <;> simp [updateThread, hk, htime, hev]

/-- A thread was opened by one of the events, and updated since. -/
theorem opened_of_foldComments {thread : ℕ} {t : CommentThread}
    (h : foldComments evs thread = some t) :
    ∃ o ∈ evs, o.kind = .open_ ∧ o.path ≠ [] ∧ o.key.thread = thread ∧ o.time ≤ t.updated := by
  rw [foldComments, foldl_threads] at h
  have hsorted : ((Rank.sortBy CommentEvent.order evs).filter (·.key.thread = thread)).Pairwise
      fun a b => a.time ≤ b.time :=
    ((Rank.pairwise_le_sortBy CommentEvent.order evs).imp
      fun hab => Prod.Lex.monotone_fst _ _ hab).filter _
  obtain ⟨o, ho, hkind, hpath, htime⟩ := foldl_foldStep_opened hsorted h
  obtain ⟨hmem, hthread⟩ := List.mem_filter.mp ho
  exact ⟨o, (Rank.mem_sortBy _).mp hmem, hkind, hpath, by simpa using hthread, htime⟩

end

theorem lt_nextCommentTime (now : ℕ) (t : CommentThread) : t.updated < nextCommentTime now t := by
  unfold nextCommentTime
  split <;> omega

end Beardrive
