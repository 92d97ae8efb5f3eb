import Beardrive.Lib.Crdt
import Beardrive.Lib.Runs

/-!
# Co-editing rooms

The hub holds the document of a file that several people edit, and writes it back from time to
time. A write names its base, the version of the file that the room last wrote or was built from,
and is refused when the file has moved on. A write from outside is thus not replaced unseen: what
the base names is what the document has learnt.

That is so as long as every branch that moves the base has shown the document what it moves it to.
A refusal does not. It puts the text of the room beside the file, moves the base to the version it
was refused for, and the next write replaces that version. Nor has a room of an empty or missing
file any base of its own. And the state of a document is filed under versions it does not spell,
where the door reports a version that came after the one it wrote, or a file is compared by as
much of it as a room holds.

## Main definitions

* `Rooms`, `Rooms.step` — the file, the rooms for it on any number of processes, and what they do
* `Rooms.Careful` — what a step must not do

## Main results

* `replaced_learnt` — after careful steps, what a room has replaced it had learnt
-/

namespace Beardrive

open SharedDoc

/-! ### Rooms -/

/-- A file: its bytes, and whether they were written from outside the room. -/
structure RoomFile where
  body : GoString
  outside : Bool
  deriving DecidableEq

/-- The base of a room: a version, named by its bytes, and the documents that had learnt it when
it became the base. -/
structure RoomBase where
  blob : GoString
  shown : List ℕ
  deriving DecidableEq

/-- A version from outside that a room has replaced; the document of the room, and the files of the
project, right after. -/
structure Replaced (D : Type*) where
  blob : GoString
  doc : D
  files : List (GoString × GoString)
  deriving DecidableEq

/-- Where a task is. `seedDoc` has read the file; it has a state to claim. `snapshot` has captured
the document; it has looked at the file; it has the lease and a base to name; it has written; it
was refused, and then has to move the base; or it has a text to park. A state is to be filed under
a version, and the base to be moved to it. `foldIntoRoom` has read the file; it has edited the
document; it has moved the base. -/
inductive RoomTask (η D : Type*) where
  | idle
  | seeds (i : η) (id : ℕ) (body : GoString)
  | claims (i : η) (id : ℕ) (body : GoString) (newest : Option D) (state : D)
  | captured (i : η) (id : ℕ) (final : Bool) (state : D)
  | looked (i : η) (id : ℕ) (final : Bool) (state : D) (cur : Option GoString)
  | puts (i : η) (id : ℕ) (final : Bool) (state : D) (base : Option RoomBase)
  | wrote (i : η) (id : ℕ) (state : D)
  | refused (i : η) (state : D) (head : GoString)
  | rebases (i : η) (head : GoString)
  | parks (state : D)
  | keeps (i : η) (id : ℕ) (state : D) (blob : GoString) (stores rebases : Bool)
  | folds (i : η) (body : GoString)
  | spliced (i : η) (id : ℕ) (body : GoString)
  | based (i : η) (id : ℕ) (body : GoString)
  deriving DecidableEq

/-- The files of a project, and the versions the file of the room has had; the states filed under
versions, and the version the newest is under; the documents, by number; of each process, which
of them its room has, whether anybody in it may write, its base, and the text it has parked; the
tasks; and what rooms have replaced. -/
structure Rooms (D η ι : Type*) [SharedDoc D] where
  files : List (GoString × RoomFile) := []
  past : List GoString := []
  history : GoString → Option D := fun _ => none
  head : Option GoString := none
  next : ℕ := 0
  doc : ℕ → D := fun _ => SharedDoc.new
  room : η → Option ℕ := fun _ => none
  user : η → Bool := fun _ => false
  base : η → Option RoomBase := fun _ => none
  parked : η → Option GoString := fun _ => none
  task : ι → RoomTask η D := fun _ => .idle
  replaced : List (Replaced D) := []

/-- What can happen: a file is written, or deleted, from outside; the document of a room grows, by
what its editors and the other processes send; somebody who may write joins; a room is loaded, or
dropped; and a task begins, or goes on. -/
inductive RoomEvent (η ι D : Type*) where
  | outside (p : GoString) (body : Option GoString)
  | edit (i : η) (d : D)
  | join (i : η)
  | load (i : η)
  | drop (i : η)
  | seed (t : ι) (i : η) (body : GoString)
  | build (t : ι) (fresh : D)
  | claim (t : ι) (stores : Bool)
  | snapshot (t : ι) (i : η) (final : Bool)
  | look (t : ι) (cur : Option GoString)
  | lease (t : ι) (holds : Bool)
  | put (t : ι)
  | report (t : ι) (sha : GoString)
  | copy (t : ι) (who stamp : GoString) (lands : Bool)
  | store (t : ι)
  | rebase (t : ι)
  | fold (t : ι) (i : η) (body : GoString)
  | splice (t : ι)
  | adopt (t : ι) (i : η) (body sha : GoString)
  | giveUp (t : ι)

/-- `maxSeedBytes`: 2 MiB. -/
def maxSeedBytes : ℕ := 2097152

/-- `sharpShrink`: a save that would empty a file, or keep less than a fifth of it. -/
def sharpShrink (was now : ℕ) : Bool :=
  if was = 0 ∨ was ≤ now then false
  else if now = 0 then true
  else 256 ≤ was && now * 5 < was

/-- `conflictPath`, of a name and a time as they are spelled in it. -/
def conflictPath (path who stamp : GoString) : GoString :=
  path ++ ascii ".bdrive-conflict-" ++ who ++ ascii "-" ++ stamp

/-- A file is written, or deleted. -/
def writeFile (files : List (GoString × RoomFile)) (p : GoString) (file : Option RoomFile) :
    List (GoString × RoomFile) :=
  (file.map fun f => (p, f)).toList ++ files.filter fun f => f.1 ≠ p

section

variable (path : GoString) {D η ι : Type*} [SharedDoc D] [DecidableLE D] [DecidableEq η]
  [DecidableEq ι]

/-- A task goes on. -/
def Rooms.set (s : Rooms D η ι) (t : ι) (task : RoomTask η D) : Rooms D η ι :=
  { s with task := Function.update s.task t task }

/-- `roomRegistry.rebase`. -/
def Rooms.rebase (s : Rooms D η ι) (i : η) (base : RoomBase) : Rooms D η ι :=
  { s with base := Function.update s.base i (some base) }

/-- `storeRoomHistory`. -/
def Rooms.storeHistory (s : Rooms D η ι) (blob : GoString) (state : D) : Rooms D η ι :=
  { s with history := Function.update s.history blob (some state), head := some blob }

/-- `roomRegistry.drop`: the base outlives the room. -/
def Rooms.drop (s : Rooms D η ι) (i : η) : Rooms D η ι :=
  { s with
    room := Function.update s.room i none
    user := Function.update s.user i false
    parked := Function.update s.parked i none }

/-- The document of a room becomes a later one. -/
def Rooms.grow (s : Rooms D η ι) (id : ℕ) (d : D) : Rooms D η ι :=
  { s with doc := Function.update s.doc id d }

/-- `replayInto`, at the end of `seedDoc`: the document is built from a state that spells the file,
and the room dropped where the state does not. -/
def Rooms.replayInto (s : Rooms D η ι) (t : ι) (i : η) (id : ℕ) (body : GoString) (state : D) :
    Rooms D η ι :=
  if text state = body then
    { (s.grow id (applyUpdate (s.doc id) state)).set t .idle with
      base := Function.update s.base i ((s.base i).map fun b =>
        if b.blob = body then { b with shown := id :: b.shown } else b) }
  else (s.drop i).set t .idle

/-- What is left to do for a version. -/
def RoomTask.rest (i : η) (id : ℕ) (state : D) (blob : GoString) (stores rebases : Bool) :
    RoomTask η D :=
  if stores || rebases then .keeps i id state blob stores rebases else .idle

/-- A snapshot is written over a file. -/
def Rooms.land (s : Rooms D η ι) (t : ι) (i : η) (id : ℕ) (state : D) (file : Option RoomFile) :
    Rooms D η ι :=
  let files := writeFile s.files path (some ⟨text state, false⟩)
  { s.set t (.wrote i id state) with
    files := files
    past := text state :: s.past
    replaced := s.replaced ++ ((file.filter (·.outside)).map fun f =>
      ⟨f.body, s.doc id, files.map fun f => (f.1, f.2.body)⟩).toList }

/-- One step, where it is possible. -/
def Rooms.step (s : Rooms D η ι) : RoomEvent η ι D → Option (Rooms D η ι)
  | .outside p body =>
    some { s with
      files := writeFile s.files p (body.map (⟨·, true⟩))
      past := if p = path then body.toList ++ s.past else s.past }
  | .edit i d =>
    match s.room i with
    | some id => if s.doc id ≤ d then some (s.grow id d) else none
    | none => none
  | .join i => some { s with user := Function.update s.user i true }
  | .load i => some { s with room := Function.update s.room i (some s.next), next := s.next + 1 }
  | .drop i => some (s.drop i)
  | .seed t i body =>
    match s.task t, s.room i with
    | .idle, some id =>
      if body ∈ s.past ∧ body ≠ [] ∧ body.length < maxSeedBytes then
        some ((s.rebase i ⟨body, []⟩).set t (.seeds i id body))
      else none
    | _, _ => none
  | .build t fresh =>
    match s.task t with
    | .seeds i id body =>
      match (s.head.filter (· ≠ body)).bind s.history with
      | some newest => some (s.set t (.claims i id body (some newest)
          (SharedDoc.splice newest (runes body))))
      | none =>
        match (s.history body).filter fun state => text state = body with
        | some state => some (s.replayInto t i id body state)
        | none =>
          if SharedDoc.chars fresh = runes body then some (s.set t (.claims i id body none fresh)) else none
    | _ => none
  | .claim t stores =>
    match s.task t with
    | .claims i id body newest state =>
      match (s.history body).filter fun theirs =>
        text theirs = body ∧ newest.all (· ≤ theirs) with
      | some theirs => some (s.replayInto t i id body theirs)
      | none =>
        some ((if stores then s.storeHistory body state else s).replayInto t i id body state)
    | _ => none
  | .snapshot t i final =>
    match s.task t, s.room i with
    | .idle, some id =>
      if s.user i then some (s.set t (.captured i id final (s.doc id))) else none
    | _, _ => none
  | .look t cur =>
    match s.task t with
    | .captured i id final state =>
      if ∀ c ∈ cur, c ∈ s.past then
        match cur.filter fun c => c.take maxSeedBytes = text state with
        | some c =>
          match (s.base i).filter fun b => b.blob = c with
          | some b =>
            some ((s.rebase i
              { b with shown := if text state = c then id :: b.shown else b.shown }).set t .idle)
          | none => some (s.set t (.keeps i id state c true true))
        | none => some (s.set t (.looked i id final state cur))
      else none
    | _ => none
  | .lease t holds =>
    match s.task t with
    | .looked i id final state cur =>
      if holds then
        match cur.filter fun c =>
          (s.base i).all (·.blob ≠ c) && (s.history c).any (· ≤ s.doc id) with
        | some c =>
          some ((s.rebase i ⟨c, [id]⟩).set t (.puts i id final state (some ⟨c, [id]⟩)))
        | none => some (s.set t (.puts i id final state (s.base i)))
      else some (s.set t .idle)
    | _ => none
  | .put t =>
    match s.task t with
    | .puts i id final state base =>
      match s.files.lookup path with
      | some f =>
        if f.body = text state then some (s.set t (.wrote i id state))
        else if base.any (·.blob ≠ f.body) then some (s.set t (.refused i state f.body))
        else if base.isSome && sharpShrink f.body.length (text state).length then
          if final && s.parked i ≠ some (text state) then
            some { s.set t (.parks state) with
              parked := Function.update s.parked i (some (text state)) }
          else some (s.set t .idle)
        else some (s.land path t i id state (some f))
      | none => some (s.land path t i id state none)
    | _ => none
  | .report t sha =>
    match s.task t with
    | .wrote i id state =>
      if sha ∈ s.past then some (s.set t (.keeps i id state sha true true)) else none
    | _ => none
  | .copy t who stamp lands =>
    match s.task t with
    | .refused i state head =>
      some { s.set t (.rebases i head) with
        files :=
          if lands then
            writeFile s.files (conflictPath path who stamp) (some ⟨text state, false⟩)
          else s.files }
    | .parks state =>
      -- What is not parked is tried again.
      if lands then some { s.set t .idle with
        files := writeFile s.files (conflictPath path who stamp) (some ⟨text state, false⟩) }
      else some s
    | _ => none
  | .store t =>
    match s.task t with
    | .keeps i id state blob true rebases =>
      some ((s.storeHistory blob state).set t (.rest i id state blob false rebases))
    | .based i _ body =>
      match s.room i with
      | some id => some ((s.storeHistory body (s.doc id)).set t .idle)
      | none => some (s.set t .idle)
    | _ => none
  | .rebase t =>
    match s.task t with
    | .keeps i id state blob stores true =>
      some ((s.rebase i ⟨blob, if text state = blob then [id] else []⟩).set t
        (.rest i id state blob stores false))
    | .spliced i id body => some ((s.rebase i ⟨body, [id]⟩).set t (.based i id body))
    | .rebases i head => some ((s.rebase i ⟨head, []⟩).set t .idle)
    | _ => none
  | .fold t i body =>
    match s.task t, s.room i with
    | .idle, some _ =>
      if body ∈ s.past then
        if maxSeedBytes ≤ body.length then some (s.drop i) else some (s.set t (.folds i body))
      else none
    | _, _ => none
  | .splice t =>
    match s.task t with
    | .folds i body =>
      match s.room i with
      | some id =>
        some ((s.grow id (SharedDoc.splice (s.doc id) (runes body))).set t (.spliced i id body))
      | none => some (s.set t .idle)
    | _ => none
  | .adopt t i body sha =>
    match s.task t, s.room i with
    | .idle, some id =>
      if sha ∈ s.past ∧ text (s.doc id) = body.take (maxSeedBytes + 1) then
        some (s.set t (.keeps i id (s.doc id) sha true true))
      else none
    | _, _ => none
  | .giveUp t => some (s.set t .idle)

/-- A step of any kind. -/
def Rooms.Next (s s' : Rooms D η ι) : Prop := ∃ ev, s.step path ev = some s'

/-- What a step must not do: replace a version from outside with a base that was not shown to the
document, or with none; and file a state under a version that it has not learnt. -/
def Rooms.Careful (s : Rooms D η ι) : RoomEvent η ι D → Prop
  | .put t => ∀ i id final state base f, s.task t = .puts i id final state base →
      s.files.lookup path = some f → f.outside = true → f.body ≠ text state →
      base ≠ none ∧ ∀ b, base = some b → b.blob = f.body → id ∈ b.shown
  | .store t => (∀ i id state blob rebases, s.task t = .keeps i id state blob true rebases →
      Learnt state blob) ∧
    ∀ i id id' body, s.task t = .based i id body → s.room i = some id' → Learnt (s.doc id') body
  | _ => True

/-- A careful step. -/
def Rooms.CarefulNext (s s' : Rooms D η ι) : Prop :=
  ∃ ev, s.Careful path ev ∧ s.step path ev = some s'

/-! ### What a room relies on -/

omit [DecidableLE D] [DecidableEq η] [DecidableEq ι]

/-- The documents a base was shown to have learnt it. -/
def RoomBase.Shown (b : RoomBase) (doc : ℕ → D) : Prop := ∀ id ∈ b.shown, Learnt (doc id) b.blob

/-- What a task knows. -/
def RoomTask.Fits (doc : ℕ → D) : RoomTask η D → Prop
  | .claims _ _ body _ state => SharedDoc.Spells state body
  | .captured _ id _ state | .looked _ id _ state _ | .wrote _ id state
  | .keeps _ id state _ _ _ => state ≤ doc id
  | .puts _ id _ state base => state ≤ doc id ∧ ∀ b, base = some b → b.Shown doc
  | .spliced _ id body | .based _ id body => Learnt (doc id) body
  | _ => True

/-- The invariant of the rooms. -/
structure Rooms.Sound (s : Rooms D η ι) : Prop where
  history : ∀ blob state, s.history blob = some state → Learnt state blob
  base : ∀ i b, s.base i = some b → b.Shown s.doc
  task : ∀ t, (s.task t).Fits s.doc
  replaced : ∀ r ∈ s.replaced, Learnt r.doc r.blob ∨ ∃ p, (p, r.blob) ∈ r.files

theorem RoomBase.Shown.mono {b : RoomBase} {doc doc' : ℕ → D} (h : b.Shown doc)
    (hdoc : ∀ id, doc id ≤ doc' id) : b.Shown doc' := fun id hid => (h id hid).mono (hdoc id)

theorem RoomTask.Fits.mono {task : RoomTask η D} {doc doc' : ℕ → D} (h : task.Fits doc)
    (hdoc : ∀ id, doc id ≤ doc' id) : task.Fits doc' := by
  cases task with
  | claims i id body newest state => exact h
  | captured i id final state => exact le_trans h (hdoc id)
  | looked i id final state cur => exact le_trans h (hdoc id)
  | puts i id final state base =>
    exact ⟨le_trans h.1 (hdoc id), fun b hb => (h.2 b hb).mono hdoc⟩
  | wrote i id state => exact le_trans h (hdoc id)
  | keeps i id state blob stores rebases => exact le_trans h (hdoc id)
  | spliced i id body => exact Learnt.mono h (hdoc id)
  | based i id body => exact Learnt.mono h (hdoc id)
  | _ => trivial

theorem RoomTask.fits_rest {i : η} {id : ℕ} {state : D} {blob : GoString}
    {stores rebases : Bool} {doc : ℕ → D} (h : state ≤ doc id) :
    (RoomTask.rest i id state blob stores rebases).Fits doc := by
  unfold RoomTask.rest
  split
  · exact h
  · trivial

/-! ### Parts of a step -/

variable {path} [DecidableEq η] [DecidableEq ι]

omit [DecidableEq η] in
/-- A task goes on. -/
theorem Rooms.Sound.set {s : Rooms D η ι} (h : s.Sound) {t : ι} {task : RoomTask η D}
    (ht : task.Fits s.doc) : (s.set t task).Sound :=
  { h with
    task := fun u => by
      show (Function.update s.task t task u).Fits s.doc
      by_cases hu : u = t
      · subst hu
        rw [Function.update_self]
        exact ht
      · rw [Function.update_of_ne hu]
        exact h.task u }

omit [DecidableEq ι] in
/-- A base is set. -/
theorem Rooms.Sound.setBase {s : Rooms D η ι} (h : s.Sound) {i : η} {base : Option RoomBase}
    (hbase : ∀ b, base = some b → b.Shown s.doc) :
    ({ s with base := Function.update s.base i base } : Rooms D η ι).Sound :=
  { h with
    base := fun j b hb => by
      have hb : Function.update s.base i base j = some b := hb
      by_cases hj : j = i
      · subst hj
        rw [Function.update_self] at hb
        exact hbase b hb
      · rw [Function.update_of_ne hj] at hb
        exact h.base j b hb }

omit [DecidableEq ι] in
theorem Rooms.Sound.rebase {s : Rooms D η ι} (h : s.Sound) {i : η} {b : RoomBase}
    (hb : b.Shown s.doc) : (s.rebase i b).Sound :=
  h.setBase fun _ heq => Option.some.inj heq ▸ hb

omit [DecidableEq η] [DecidableEq ι] in
/-- A state is filed under a version it has learnt. -/
theorem Rooms.Sound.storeHistory {s : Rooms D η ι} (h : s.Sound) {blob : GoString} {state : D}
    (hl : Learnt state blob) : (s.storeHistory blob state).Sound :=
  { h with
    history := fun b st hst => by
      have hst : Function.update s.history blob (some state) b = some st := hst
      by_cases hb : b = blob
      · subst hb
        rw [Function.update_self] at hst
        exact Option.some.inj hst ▸ hl
      · rw [Function.update_of_ne hb] at hst
        exact h.history b st hst }

omit [DecidableEq ι] in
theorem Rooms.Sound.drop {s : Rooms D η ι} (h : s.Sound) (i : η) : (s.drop i).Sound :=
  ⟨h.history, h.base, h.task, h.replaced⟩

omit [DecidableEq η] [DecidableEq ι] in
/-- A document that grows has learnt what it had. -/
theorem Rooms.Sound.grow {s : Rooms D η ι} (h : s.Sound) {id : ℕ} {d : D} (hd : s.doc id ≤ d) :
    (s.grow id d).Sound := by
  have hdoc (j : ℕ) : s.doc j ≤ Function.update s.doc id d j := by
    by_cases hj : j = id
    · subst hj
      rw [Function.update_self]
      exact hd
    · rw [Function.update_of_ne hj]
  exact
    { h with
      base := fun i b hb => (h.base i b hb).mono hdoc
      task := fun t => (h.task t).mono hdoc }

/-- **A document that is built from a state which spells the file has learnt it.** -/
theorem Rooms.Sound.replayInto {s : Rooms D η ι} (h : s.Sound) (t : ι) (i : η) (id : ℕ)
    (body : GoString) (state : D) : (s.replayInto t i id body state).Sound := by
  unfold Rooms.replayInto
  split
  · rename_i hspells
    have hgrow : (s.grow id (applyUpdate (s.doc id) state)).Sound :=
      h.grow (le_applyUpdate_left _ _)
    have hlearnt : Learnt ((s.grow id (applyUpdate (s.doc id) state)).doc id) body := by
      show Learnt (Function.update s.doc id (applyUpdate (s.doc id) state) id) body
      rw [Function.update_self]
      exact ⟨state, le_applyUpdate_right _ _, .inl hspells⟩
    have hidle : ((s.grow id (applyUpdate (s.doc id) state)).set t .idle).Sound :=
      hgrow.set trivial
    refine hidle.setBase fun b hb => ?_
    obtain ⟨old, hold, rfl⟩ := Option.map_eq_some_iff.mp hb
    have hshown := hgrow.base i old hold
    split
    · rename_i hblob
      intro j hj
      rcases List.mem_cons.mp hj with rfl | hj
      · rw [hblob]
        exact hlearnt
      · exact hshown j hj
    · exact hshown
  · exact (h.drop i).set trivial

omit [DecidableEq η] in
/-- **A snapshot is written over what its document has learnt.** -/
theorem Rooms.Sound.land {s : Rooms D η ι} (h : s.Sound) {t : ι} {i : η} {id : ℕ} {state : D}
    {file : Option RoomFile} (hstate : state ≤ s.doc id)
    (hfile : ∀ f, file = some f → f.outside = true → Learnt (s.doc id) f.body) :
    (s.land path t i id state file).Sound := by
  have hset : (s.set t (.wrote i id state)).Sound := h.set hstate
  refine { hset with replaced := fun r hr => ?_ }
  rcases List.mem_append.mp hr with hr | hr
  · exact h.replaced r hr
  · obtain ⟨f, hf, rfl⟩ := Option.map_eq_some_iff.mp (Option.mem_toList.mp hr)
    obtain ⟨hf, houtside⟩ := Option.filter_eq_some_iff.mp hf
    exact .inl (hfile f hf houtside)

/-! ### One step -/

variable [DecidableLE D]

/-- **A snapshot names a base that its document has learnt, or that was not shown to it.** -/
theorem Rooms.Sound.lease {s s' : Rooms D η ι} (h : s.Sound) {t : ι} {holds : Bool}
    (hs : s.step path (.lease t holds) = some s') : s'.Sound := by
  simp only [Rooms.step] at hs
  split at hs
  case h_2 => cases hs
  rename_i i id final state cur htask
  have hfits := h.task t
  rw [htask] at hfits
  split at hs
  · split at hs
    · rename_i c hc
      cases hs
      have hany := (Option.filter_eq_some_iff.mp hc).2
      rw [Bool.and_eq_true] at hany
      obtain ⟨old, hold, hle⟩ := (Option.any_eq_true _ _).mp hany.2
      have hlearnt : Learnt (s.doc id) c :=
        (h.history c old hold).mono (of_decide_eq_true hle)
      have hshown : RoomBase.Shown ⟨c, [id]⟩ s.doc := by
        intro j hj
        rw [List.mem_singleton.mp hj]
        exact hlearnt
      exact (h.rebase hshown).set ⟨hfits, fun b hb => Option.some.inj hb ▸ hshown⟩
    · cases hs
      exact h.set ⟨hfits, fun b hb => h.base i b hb⟩
  · cases hs
    exact h.set trivial

/-- The file is as the document has it: it is the base, or becomes it. -/
theorem Rooms.Sound.look {s s' : Rooms D η ι} (h : s.Sound) {t : ι} {cur : Option GoString}
    (hs : s.step path (.look t cur) = some s') : s'.Sound := by
  simp only [Rooms.step] at hs
  split at hs
  case h_2 => cases hs
  rename_i i id final state htask
  have hfits : state ≤ s.doc id := by
    have hfits := h.task t
    rwa [htask] at hfits
  split at hs
  case isFalse => cases hs
  split at hs
  · rename_i c _
    split at hs
    · rename_i b hb
      cases hs
      obtain ⟨hb, hblob⟩ := Option.filter_eq_some_iff.mp hb
      refine Rooms.Sound.set (h.rebase fun j hj => ?_) trivial
      have hj : j ∈ if text state = c then id :: b.shown else b.shown := hj
      split at hj
      · rename_i hspells
        rcases List.mem_cons.mp hj with rfl | hj
        · have hlearnt : Learnt state b.blob := by
            rw [of_decide_eq_true hblob]
            exact SharedDoc.Spells.learnt (.inl hspells)
          exact hlearnt.mono hfits
        · exact h.base i b hb j hj
      · exact h.base i b hb j hj
    · cases hs
      exact h.set hfits
  · cases hs
    exact h.set hfits

/-- **What a careful snapshot replaces, its document has learnt.** -/
theorem Rooms.Sound.put {s s' : Rooms D η ι} (h : s.Sound) {t : ι}
    (hcare : s.Careful path (.put t)) (hs : s.step path (.put t) = some s') : s'.Sound := by
  simp only [Rooms.step] at hs
  split at hs
  case h_2 => cases hs
  rename_i i id final state base htask
  obtain ⟨hstate, hbase⟩ : state ≤ s.doc id ∧ ∀ b, base = some b → b.Shown s.doc := by
    have hfits := h.task t
    rwa [htask] at hfits
  split at hs
  · rename_i f hf
    split at hs
    · cases hs
      exact h.set hstate
    · rename_i hne
      split at hs
      · cases hs
        exact h.set trivial
      · rename_i hsame
        split at hs
        · split at hs
          · cases hs
            have hparks : (s.set t (.parks state)).Sound := h.set trivial
            exact ⟨hparks.history, hparks.base, hparks.task, hparks.replaced⟩
          · cases hs
            exact h.set trivial
        · cases hs
          refine h.land hstate fun g hg houtside => ?_
          obtain rfl := Option.some.inj hg
          obtain ⟨hsome, hshown⟩ := hcare i id final state base f htask hf houtside hne
          obtain ⟨b, rfl⟩ := Option.ne_none_iff_exists'.mp hsome
          have hblob : b.blob = f.body := by simpa using hsame
          rw [← hblob]
          exact hbase b rfl id (hshown b rfl hblob)
  · cases hs
    exact h.land hstate fun g hg => by cases hg

/-- **A careful step keeps the invariant.** -/
theorem Rooms.Sound.step {s s' : Rooms D η ι} (h : s.Sound) (hs : s.CarefulNext path s') :
    s'.Sound := by
  obtain ⟨ev, hcare, hs⟩ := hs
  cases ev with
  | outside p body =>
    cases hs
    exact ⟨h.history, h.base, h.task, h.replaced⟩
  | edit i d =>
    simp only [Rooms.step] at hs
    split at hs
    · split at hs
      · rename_i hle
        cases hs
        exact h.grow hle
      · cases hs
    · cases hs
  | join i =>
    cases hs
    exact ⟨h.history, h.base, h.task, h.replaced⟩
  | load i =>
    cases hs
    exact ⟨h.history, h.base, h.task, h.replaced⟩
  | drop i =>
    cases hs
    exact h.drop i
  | seed t i body =>
    simp only [Rooms.step] at hs
    split at hs
    case h_2 => cases hs
    split at hs
    · cases hs
      refine Rooms.Sound.set (h.rebase fun j hj => ?_) trivial
      cases hj
    · cases hs
  | build t fresh =>
    simp only [Rooms.step] at hs
    split at hs
    case h_2 => cases hs
    rename_i i id body htask
    split at hs
    · cases hs
      exact h.set (.inr (chars_splice _ _))
    · split at hs
      · cases hs
        exact h.replayInto t i id body _
      · split at hs
        · rename_i hfresh
          cases hs
          exact h.set (.inr hfresh)
        · cases hs
  | claim t stores =>
    simp only [Rooms.step] at hs
    split at hs
    case h_2 => cases hs
    rename_i i id body newest state htask
    have hspells : SharedDoc.Spells state body := by
      have hfits := h.task t
      rwa [htask] at hfits
    split at hs
    · cases hs
      exact h.replayInto t i id body _
    · cases hs
      refine Rooms.Sound.replayInto ?_ t i id body state
      split
      · exact h.storeHistory hspells.learnt
      · exact h
  | snapshot t i final =>
    simp only [Rooms.step] at hs
    split at hs
    case h_2 => cases hs
    split at hs
    · cases hs
      exact h.set (le_refl _)
    · cases hs
  | look t cur => exact h.look hs
  | lease t holds => exact h.lease hs
  | put t => exact h.put hcare hs
  | report t sha =>
    simp only [Rooms.step] at hs
    split at hs
    case h_2 => cases hs
    rename_i i id state htask
    have hfits := h.task t
    rw [htask] at hfits
    split at hs
    · cases hs
      exact h.set hfits
    · cases hs
  | copy t who stamp lands =>
    simp only [Rooms.step] at hs
    split at hs
    · rename_i i state head htask
      cases hs
      have hrebases : (s.set t (.rebases i head)).Sound := h.set trivial
      exact ⟨hrebases.history, hrebases.base, hrebases.task, hrebases.replaced⟩
    · split at hs
      · cases hs
        have hidle : (s.set t .idle).Sound := h.set trivial
        exact ⟨hidle.history, hidle.base, hidle.task, hidle.replaced⟩
      · cases hs
        exact h
    · cases hs
  | store t =>
    simp only [Rooms.step] at hs
    split at hs
    · rename_i i id state blob rebases htask
      have hfits := h.task t
      rw [htask] at hfits
      cases hs
      exact (h.storeHistory (hcare.1 i id state blob rebases htask)).set (RoomTask.fits_rest hfits)
    · rename_i i id body htask
      split at hs
      · rename_i id' hroom
        cases hs
        exact (h.storeHistory (hcare.2 i id id' body htask hroom)).set trivial
      · cases hs
        exact h.set trivial
    · cases hs
  | rebase t =>
    simp only [Rooms.step] at hs
    split at hs
    · rename_i i id state blob stores htask
      have hfits : state ≤ s.doc id := by
        have hfits := h.task t
        rwa [htask] at hfits
      cases hs
      refine Rooms.Sound.set (h.rebase fun j hj => ?_) (RoomTask.fits_rest hfits)
      have hj : j ∈ if text state = blob then [id] else [] := hj
      split at hj
      · rename_i hspells
        rw [List.mem_singleton.mp hj]
        exact (SharedDoc.Spells.learnt (.inl hspells)).mono hfits
      · cases hj
    · rename_i i id body htask
      have hfits : Learnt (s.doc id) body := by
        have hfits := h.task t
        rwa [htask] at hfits
      cases hs
      refine Rooms.Sound.set (h.rebase fun j hj => ?_) hfits
      rw [List.mem_singleton.mp hj]
      exact hfits
    · cases hs
      refine Rooms.Sound.set (h.rebase fun j hj => ?_) trivial
      cases hj
    · cases hs
  | fold t i body =>
    simp only [Rooms.step] at hs
    split at hs
    case h_2 => cases hs
    split at hs
    · split at hs
      · cases hs
        exact h.drop i
      · cases hs
        exact h.set trivial
    · cases hs
  | splice t =>
    simp only [Rooms.step] at hs
    split at hs
    case h_2 => cases hs
    rename_i i body htask
    split at hs
    · rename_i id hroom
      cases hs
      refine (h.grow (le_splice _ _)).set ?_
      show Learnt (Function.update s.doc id (splice (s.doc id) (runes body)) id) body
      rw [Function.update_self]
      exact learnt_splice _ _
    · cases hs
      exact h.set trivial
  | adopt t i body sha =>
    simp only [Rooms.step] at hs
    split at hs
    case h_2 => cases hs
    split at hs
    · cases hs
      exact h.set (le_refl _)
    · cases hs
  | giveUp t =>
    cases hs
    exact h.set trivial

/-! ### Runs -/

omit [DecidableEq η] [DecidableEq ι] [DecidableLE D] in
/-- A project with no files, and no rooms. -/
theorem Rooms.sound_init : ({} : Rooms D η ι).Sound where
  history _ _ hst := absurd hst (by simp)
  base _ _ hb := absurd hb (by simp)
  task _ := trivial
  replaced _ hr := absurd hr (by simp)

/-- **What a room replaces does not disappear**: after careful steps of any number of processes,
the document of a room that has replaced a version from outside had learnt it, or the version is
at some path of the project. -/
theorem replaced_learnt {s : Rooms D η ι}
    (h : Relation.ReflTransGen (Rooms.CarefulNext path) {} s) :
    ∀ r ∈ s.replaced, Learnt r.doc r.blob ∨ ∃ p, (p, r.blob) ∈ r.files :=
  (Runs.invariant h (fun _ _ => Rooms.Sound.step) Rooms.sound_init).replaced

end

/-! ### Runs on given events -/

/-- A document that keeps the texts it has had, the last one first. -/
structure TextLog where
  texts : List (List Rune)
  deriving DecidableEq

/-- The runes within so many code units. -/
def takeUnits : ℕ → List Rune → List Rune
  | _, [] => []
  | n, r :: rs => if n = 0 then [] else r :: takeUnits (n - utf16Len [r]) rs

/-- The runes after so many code units. -/
def dropUnits : ℕ → List Rune → List Rune
  | _, [] => []
  | n, r :: rs => if n = 0 then r :: rs else dropUnits (n - utf16Len [r]) rs

theorem utf16Len_cons (r : Rune) (rs : List Rune) :
    utf16Len (r :: rs) = utf16Len [r] + utf16Len rs := by
  simp [utf16Len]

theorem utf16Len_singleton_pos (r : Rune) : 0 < utf16Len [r] := by
  simp only [utf16Len, List.map_cons, List.map_nil, List.sum_cons, List.sum_nil]
  split <;> omega

theorem takeUnits_append (pre rest : List Rune) :
    takeUnits (utf16Len pre) (pre ++ rest) = pre := by
  induction pre with
  | nil => cases rest <;> simp [takeUnits, utf16Len]
  | cons r pre ih =>
    have hpos := utf16Len_singleton_pos r
    rw [List.cons_append, utf16Len_cons, takeUnits, if_neg (by omega), Nat.add_sub_cancel_left, ih]

theorem dropUnits_append (pre rest : List Rune) :
    dropUnits (utf16Len pre) (pre ++ rest) = rest := by
  induction pre with
  | nil => cases rest <;> simp [dropUnits, utf16Len]
  | cons r pre ih =>
    have hpos := utf16Len_singleton_pos r
    rw [List.cons_append, utf16Len_cons, dropUnits, if_neg (by omega), Nat.add_sub_cancel_left, ih]

instance : SharedDoc TextLog where
  le a b := a.texts ⊆ b.texts
  le_refl a := List.Subset.refl a.texts
  le_trans _ _ _ h h' := List.Subset.trans h h'
  new := ⟨[]⟩
  chars d := d.texts.headD []
  applyUpdate d u := ⟨u.texts ++ d.texts⟩
  edit d start del ins :=
    let a := d.texts.headD []
    ⟨(takeUnits start a ++ ins ++ dropUnits del (dropUnits start a)) :: d.texts⟩
  le_applyUpdate_left _ _ := List.subset_append_right _ _
  le_applyUpdate_right _ _ := List.subset_append_left _ _
  le_edit _ _ _ _ := List.subset_cons_self _ _
  chars_edit d pre mid post ins h := by
    simp only [List.headD_cons]
    rw [h, List.append_assoc pre, takeUnits_append, dropUnits_append, dropUnits_append]

instance : DecidableLE TextLog := fun a b => inferInstanceAs (Decidable (a.texts ⊆ b.texts))

/-- What such a document has learnt is one of its texts. -/
theorem TextLog.mem_of_learnt {d : TextLog} {s : GoString} (h : Learnt d s) (hs : s ≠ []) :
    ∃ rs ∈ d.texts, rs.flatMap encodeRune = s ∨ rs = runes s := by
  obtain ⟨x, hx, hspells⟩ := h
  cases htexts : x.texts with
  | nil =>
    have hchars : SharedDoc.chars x = [] := by
      show x.texts.headD [] = []
      rw [htexts]
      rfl
    have hruns : runes s ≠ [] := by
      obtain ⟨b, s, rfl⟩ := List.exists_cons_of_ne_nil hs
      rw [runes_cons]
      exact List.cons_ne_nil _ _
    rcases hspells with htext | htext
    · rw [text, hchars] at htext
      exact absurd htext.symm hs
    · exact absurd (htext.symm.trans hchars) hruns
  | cons rs texts =>
    have hchars : SharedDoc.chars x = rs := by
      show x.texts.headD [] = rs
      rw [htexts]
      rfl
    rw [SharedDoc.Spells, text, hchars] at hspells
    exact ⟨rs, hx (by rw [htexts]; exact List.mem_cons_self), hspells⟩

/-- The file of a room. -/
def roomPath : GoString := ascii "f"

/-- The texts of an editor, the last one first. -/
def typed (texts : List String) : TextLog := ⟨texts.map fun t => runes (ascii t)⟩

/-- A file is opened, edited, and written back. -/
theorem replaced_learnt_edit : ∃ s : Rooms TextLog Unit Unit,
    (∃ r ∈ s.replaced, r.blob = ascii "a" ∧ r.files = [(roomPath, ascii "ab")]) ∧
      ∀ r ∈ s.replaced, Learnt r.doc r.blob ∨ ∃ p, (p, r.blob) ∈ r.files := by
  have hrun : ∃ s : Rooms TextLog Unit Unit,
      Relation.ReflTransGen (Rooms.CarefulNext roomPath) {} s ∧
        s.replaced = [⟨ascii "a", typed ["ab", "a"], [(roomPath, ascii "ab")]⟩] := by
    refine ⟨_, .head ⟨.outside roomPath (some (ascii "a")), trivial,
        Runs.possible (by decide +kernel)⟩ <|
      .head ⟨.load (), trivial, Runs.possible (by decide +kernel)⟩ <|
      .head ⟨.seed () () (ascii "a"), trivial, Runs.possible (by decide +kernel)⟩ <|
      .head ⟨.build () (typed ["a"]), trivial, Runs.possible (by decide +kernel)⟩ <|
      .head ⟨.claim () true, trivial, Runs.possible (by decide +kernel)⟩ <|
      .head ⟨.join (), trivial, Runs.possible (by decide +kernel)⟩ <|
      .head ⟨.edit () (typed ["ab", "a"]), trivial, Runs.possible (by decide +kernel)⟩ <|
      .head ⟨.snapshot () () false, trivial, Runs.possible (by decide +kernel)⟩ <|
      .head ⟨.look () (some (ascii "a")), trivial, Runs.possible (by decide +kernel)⟩ <|
      .head ⟨.lease () true, trivial, Runs.possible (by decide +kernel)⟩ <|
      .single ⟨.put (), ?_, Runs.possible (by decide +kernel)⟩, by decide +kernel⟩
    intro i id final state base f htask _ _ _
    cases htask.symm.trans (by decide +kernel :
      _ = .puts () 0 false (typed ["ab", "a"]) (some ⟨ascii "a", [0]⟩))
    refine ⟨by simp, fun b hb _ => ?_⟩
    cases hb
    exact List.mem_singleton_self 0
  obtain ⟨s, hs, hreplaced⟩ := hrun
  exact ⟨s, ⟨_, by rw [hreplaced]; exact List.mem_singleton_self _, rfl, rfl⟩, replaced_learnt hs⟩

/-- A version that a snapshot was refused for is replaced by the next one. -/
theorem replaced_unlearnt : ¬ ∀ s : Rooms TextLog Unit Unit,
    Relation.ReflTransGen (Rooms.Next roomPath) {} s →
      ∀ r ∈ s.replaced, Learnt r.doc r.blob ∨ ∃ p, (p, r.blob) ∈ r.files := by
  intro h
  have hrun : ∃ s : Rooms TextLog Unit Unit,
      Relation.ReflTransGen (Rooms.Next roomPath) {} s ∧
        s.replaced = [⟨ascii "c", typed ["abd", "ab", "a"], [(roomPath, ascii "abd"),
          (conflictPath roomPath (ascii "w") (ascii "0"), ascii "ab")]⟩] := by
    refine ⟨_, .head ⟨.outside roomPath (some (ascii "a")), Runs.possible (by decide +kernel)⟩ <|
      .head ⟨.load (), Runs.possible (by decide +kernel)⟩ <|
      .head ⟨.seed () () (ascii "a"), Runs.possible (by decide +kernel)⟩ <|
      .head ⟨.build () (typed ["a"]), Runs.possible (by decide +kernel)⟩ <|
      .head ⟨.claim () true, Runs.possible (by decide +kernel)⟩ <|
      .head ⟨.join (), Runs.possible (by decide +kernel)⟩ <|
      .head ⟨.edit () (typed ["ab", "a"]), Runs.possible (by decide +kernel)⟩ <|
      -- A device writes the file.
      .head ⟨.outside roomPath (some (ascii "c")), Runs.possible (by decide +kernel)⟩ <|
      .head ⟨.snapshot () () false, Runs.possible (by decide +kernel)⟩ <|
      .head ⟨.look () (some (ascii "c")), Runs.possible (by decide +kernel)⟩ <|
      .head ⟨.lease () true, Runs.possible (by decide +kernel)⟩ <|
      .head ⟨.put (), Runs.possible (by decide +kernel)⟩ <|
      -- The snapshot is refused: the text of the room goes beside the file, and the base moves.
      .head ⟨.copy () (ascii "w") (ascii "0") true, Runs.possible (by decide +kernel)⟩ <|
      .head ⟨.rebase (), Runs.possible (by decide +kernel)⟩ <|
      .head ⟨.edit () (typed ["abd", "ab", "a"]), Runs.possible (by decide +kernel)⟩ <|
      .head ⟨.snapshot () () false, Runs.possible (by decide +kernel)⟩ <|
      .head ⟨.look () (some (ascii "c")), Runs.possible (by decide +kernel)⟩ <|
      .head ⟨.lease () true, Runs.possible (by decide +kernel)⟩ <|
      .single ⟨.put (), Runs.possible (by decide +kernel)⟩, by decide +kernel⟩
  obtain ⟨s, hs, hreplaced⟩ := hrun
  have hr := h s hs _ (by rw [hreplaced]; exact List.mem_singleton_self _)
  rcases hr with hlearnt | ⟨p, hp⟩
  · obtain ⟨rs, hrs, hspells⟩ := TextLog.mem_of_learnt hlearnt (by decide)
    revert rs
    decide +kernel
  · have hne : ∀ f ∈ [(roomPath, ascii "abd"),
        (conflictPath roomPath (ascii "w") (ascii "0"), ascii "ab")], f.2 ≠ ascii "c" := by
      decide +kernel
    exact hne _ hp rfl

end Beardrive
