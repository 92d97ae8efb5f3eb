import Beardrive.Journal.Log
import Beardrive.Webapp.Upload

/-!
# Writes that name their base

A write through the hub may name the version of its path it was built on. Several hub processes
share one journal: each reads it at a version, reads all the journals there are, looks whether the
path still holds the base, and writes the journal back on the condition that nobody has written it
since. When somebody has, it begins again.

The condition is on the hub's journal alone. What the other processes write there is seen, and
what the members push to their own journals is not: a version that arrives after its journal was
read is replaced by a write that never saw it.

## Main definitions

* `foldFiles`, `CommitBase` — the files the hub serves, and the check of a base
* `Journals`, `Attempt`, `Hubs` — what is stored, one append on its way, and all of them
* `HubStep`, `HubRuns` — every interleaving
* `UnseenByNone` — a push that no append on its way has read past

## Main results

* `holds_iff` — what the check answers
* `journaled_on_base` — a write that is journaled replaces its base
-/

namespace Beardrive

/-! ### The check -/

/-- `isBlobSHA`: 64 digits of lower-case hexadecimal. -/
def isBlobSHA (s : GoString) : Bool :=
  s.length == 64 && s.all fun c => digitByte c || (0x61 ≤ c && c ≤ 0x66)

/-- A file as the hub lists it: a link has a target, everything else a blob. -/
structure HubFileInfo where
  blob : GoString := []
  size : ℤ := 0
  link : GoString := []
  mode : UInt32 := 0
  deriving DecidableEq

/-- What an op leaves of the listing. A put that names no content is passed over. -/
def foldFile (files : GoString → Option HubFileInfo) (op : Op) : GoString → Option HubFileInfo :=
  match op.kind with
  | .put =>
    if op.link ≠ [] then
      Function.update files op.path (some { link := op.link, mode := op.mode })
    else if !isBlobSHA op.blob then files
    else Function.update files op.path (some { blob := op.blob, size := op.size, mode := op.mode })
  | .delete => Function.update files op.path none

/-- `foldFiles`. -/
def foldFiles (ops : List Op) : GoString → Option HubFileInfo := ops.foldl foldFile fun _ => none

/-- The version of a path that the hub serves. -/
def liveVersion (all : List Op) (p : GoString) : Option HubFileInfo := foldFiles (sortOps all) p

/-- `commitBase`: the version a write was built on, and what it writes. -/
structure CommitBase where
  path : GoString
  sha : GoString
  blob : GoString

/-- `commitBase.holds`. -/
def CommitBase.holds (b : CommitBase) (all : List Op) : Bool :=
  match foldFiles (sortOps (all.filter fun op => op.path = b.path)) b.path with
  | none => true
  | some fi => fi.blob == b.sha || fi.blob == b.blob

theorem foldFile_of_ne {files : GoString → Option HubFileInfo} {op : Op} {p : GoString}
    (h : op.path ≠ p) : foldFile files op p = files p := by
  cases hkind : op.kind with
  | put =>
    simp only [foldFile, hkind]
    split
    · exact Function.update_of_ne h.symm _ _
    · split
      · rfl
      · exact Function.update_of_ne h.symm _ _
  | delete =>
    simp only [foldFile, hkind]
    exact Function.update_of_ne h.symm _ _

theorem foldFile_congr {files files' : GoString → Option HubFileInfo} {op : Op} {p : GoString}
    (h : files p = files' p) : foldFile files op p = foldFile files' op p := by
  cases hkind : op.kind with
  | put =>
    simp only [foldFile, hkind]
    split
    · simp only [Function.update_apply, h]
    · split
      · exact h
      · simp only [Function.update_apply, h]
  | delete => simp only [foldFile, hkind, Function.update_apply, h]

/-- A path is listed by its own ops. -/
theorem foldFiles_filter (ops : List Op) (p : GoString) :
    foldFiles (ops.filter fun op => op.path = p) p = foldFiles ops p := by
  induction ops using List.reverseRecOn with
  | nil => rfl
  | append_singleton ops op ih =>
    rw [List.filter_append, foldFiles, foldFiles, List.foldl_append, List.foldl_append]
    rw [foldFiles, foldFiles] at ih
    by_cases h : op.path = p
    · rw [List.filter_cons_of_pos (by simpa using h)]
      exact foldFile_congr ih
    · rw [List.filter_cons_of_neg (by simpa using h), List.foldl_cons, List.foldl_nil,
        foldFile_of_ne h, List.filter_nil, List.foldl_nil]
      exact ih

/-- **A base holds when its path is free, or has the version of the base or what is written.** -/
theorem holds_iff {b : CommitBase} {all : List Op} :
    b.holds all = true ↔
      ∀ fi, liveVersion all b.path = some fi → fi.blob = b.sha ∨ fi.blob = b.blob := by
  have hfold : foldFiles (sortOps (all.filter fun op => op.path = b.path)) b.path =
      liveVersion all b.path := by
    rw [sortOps_eq, LastWriter.sort_filter, foldFiles_filter, liveVersion, sortOps_eq]
  rw [CommitBase.holds, hfold]
  cases liveVersion all b.path <;> simp

/-- Only the ops for its path count. -/
theorem holds_congr {b : CommitBase} {all all' : List Op}
    (h : all.filter (fun op => op.path = b.path) = all'.filter fun op => op.path = b.path) :
    b.holds all = b.holds all' := by
  rw [CommitBase.holds, CommitBase.holds, h]

/-! ### The journals that are stored -/

/-- The journals of a project, by device. What is not listed is empty. -/
structure Journals where
  keys : List GoString
  body : GoString → GoString
  nodup : keys.Nodup
  absent : ∀ k ∉ keys, body k = []

/-- A journal object written whole. -/
def Journals.put (j : Journals) (k b : GoString) : Journals where
  keys := if k ∈ j.keys then j.keys else j.keys.orderedInsert (· ≤ ·) k
  body := Function.update j.body k b
  nodup := by
    split
    · exact j.nodup
    · exact (List.perm_orderedInsert _ k j.keys).nodup_iff.mpr (List.nodup_cons.mpr ⟨‹_›, j.nodup⟩)
  absent := by
    intro d hd
    split at hd
    · have hdk : d ≠ k := fun h => hd (h ▸ ‹k ∈ j.keys›)
      rw [Function.update_of_ne hdk]
      exact j.absent d hd
    · rw [List.mem_orderedInsert, not_or] at hd
      rw [Function.update_of_ne hd.1]
      exact j.absent d hd.2

/-- The ops of listed journals, each with its journal. -/
def sourcedOps (keys : List GoString) (body : GoString → GoString) : List SourcedOp :=
  keys.flatMap fun k => (parse (body k)).map fun op => ⟨op, k⟩

/-- The ops of all stored journals. -/
def Journals.ops (j : Journals) : List Op := (sourcedOps j.keys j.body).map (·.op)

theorem Journals.keys_sublist_put (j : Journals) (k b : GoString) :
    j.keys.Sublist (j.put k b).keys := by
  simp only [put]
  split
  · exact .refl _
  · exact List.sublist_orderedInsert k j.keys

@[simp] theorem Journals.put_body_self (j : Journals) (k b : GoString) : (j.put k b).body k = b :=
  Function.update_self _ _ _

theorem Journals.put_body_of_ne (j : Journals) {d k : GoString} (b : GoString) (h : d ≠ k) :
    (j.put k b).body d = j.body d :=
  Function.update_of_ne h _ _

/-- The ops a journal has for a path. -/
def opsOn (p body : GoString) : List Op := (parse body).filter fun op => op.path = p

theorem filter_sourcedOps (p : GoString) (keys : List GoString) (body : GoString → GoString) :
    ((sourcedOps keys body).map (·.op)).filter (fun op => op.path = p) =
      keys.flatMap fun k => opsOn p (body k) := by
  have hmap (k : GoString) :
      ((parse (body k)).map fun op => (⟨op, k⟩ : SourcedOp)).map (·.op) = parse (body k) := by
    rw [List.map_map]
    exact List.map_id _
  rw [sourcedOps, List.map_flatMap, List.filter_flatMap]
  simp only [hmap, opsOn]

/-- Journals that have nothing for a path may be missing from the list. -/
theorem flatMap_of_sublist {body body' : GoString → GoString} {p : GoString}
    {listed keys : List GoString} (hl : listed.Sublist keys) (hk : keys.Nodup)
    (hsame : ∀ k ∈ listed, opsOn p (body' k) = opsOn p (body k))
    (hrest : ∀ k ∈ keys, k ∉ listed → opsOn p (body k) = []) :
    (listed.flatMap fun k => opsOn p (body' k)) = keys.flatMap fun k => opsOn p (body k) := by
  induction hl with
  | slnil => rfl
  | cons k hl ih =>
    obtain ⟨hk, hnd⟩ := List.nodup_cons.mp hk
    rw [List.flatMap_cons, hrest k List.mem_cons_self fun h => hk (hl.subset h), List.nil_append]
    exact ih hnd hsame fun d hd => hrest d (List.mem_cons_of_mem _ hd)
  | cons_cons k hl ih =>
    obtain ⟨hk, hnd⟩ := List.nodup_cons.mp hk
    rw [List.flatMap_cons, List.flatMap_cons, hsame k List.mem_cons_self,
      ih hnd (fun d hd => hsame d (List.mem_cons_of_mem _ hd)) fun d hd hdl =>
        hrest d (List.mem_cons_of_mem _ hd) ?_]
    rw [List.mem_cons, not_or]
    exact ⟨fun h => hk (h ▸ hd), hdl⟩

/-! ### The append -/

/-- A write: its ops, and the base it names if it names one. -/
structure Write where
  ops : List Op
  base : Option CommitBase := none

/-- `commitIf`: one file of a given content. -/
def commitIf (p blob : GoString) (size : ℤ) (email name note base : GoString) : Write where
  ops := [{ kind := .put, path := p, blob, size, mode := 0o644, user := email, userName := name,
            note }]
  base := if base = [] then none else some ⟨p, base, blob⟩

/-- One append on its way: the hub's journal and its version, the list of the journals, those that
have been read, and the line once it is decided. -/
structure Attempt where
  write : Write
  existing : GoString
  version : ℕ
  tries : ℕ := 0
  listing : Option (List GoString) := none
  got : GoString → Option GoString := fun _ => none
  line : Option GoString := none

/-- What an append knows of a journal. One that was not listed is taken to be empty. -/
def Attempt.knows (a : Attempt) (k : GoString) : Option GoString :=
  match a.listing with
  | none => none
  | some listed => if k ∈ listed then a.got k else some []

/-- `loadSourcedOps`, once every listed journal has been read. -/
def Attempt.sourced (a : Attempt) : List SourcedOp :=
  sourcedOps (a.listing.getD []) fun k => (a.got k).getD []

/-- `next`: the line to append, if the base holds and there is room. -/
def Attempt.next (a : Attempt) (device : HubDevice) (now : Time) : Option GoString :=
  if a.write.base.all fun b => b.holds (a.sourced.map (·.op)) then
    (stamp device now a.sourced a.write.ops).bind marshal
  else none

/-- The hub processes of one device, and what is stored. The version is that of the device's own
journal. -/
structure Hubs (ι : Type*) where
  journals : Journals
  version : ℕ
  attempt : ι → Option Attempt

/-- How often a journal is read and written back before the append is given up. -/
def appendAttempts : ℕ := 5

section

variable {ι : Type*} [DecidableEq ι]

/-- A process goes on with its append, or has none. -/
def Hubs.set (s : Hubs ι) (i : ι) (a : Option Attempt) : Hubs ι :=
  { s with attempt := Function.update s.attempt i a }

/-- `readVersioned`: an append (again) at its beginning. -/
def Hubs.reread (device : HubDevice) (s : Hubs ι) (w : Write) (tries : ℕ) : Attempt where
  write := w
  existing := s.journals.body device.id
  version := s.version
  tries

/-- **The write back goes through: nobody has written the journal since it was read.** -/
def Journaled (device : HubDevice) (s : Hubs ι) (i : ι) (w : Write) (s' : Hubs ι) : Prop :=
  ∃ a line, s.attempt i = some a ∧ a.write = w ∧ a.line = some line ∧ a.version = s.version ∧
    s' = { s.set i none with
      journals := s.journals.put device.id (a.existing ++ line), version := s.version + 1 }

/-- One step of one process. -/
inductive HubStep (device : HubDevice) (s : Hubs ι) : Hubs ι → Prop
  | begin (i : ι) (w : Write) (idle : s.attempt i = none) :
    HubStep device s (s.set i (s.reread device w 0))
  | list (i : ι) (a : Attempt) (ha : s.attempt i = some a) (new : a.listing = none)
      (open_ : a.line = none) :
    HubStep device s
      (s.set i (some { a with listing := some s.journals.keys, got := fun _ => none }))
  | fetch (i : ι) (a : Attempt) (k : GoString) (ha : s.attempt i = some a) (open_ : a.line = none)
      (listed : ∃ l, a.listing = some l ∧ k ∈ l) (new : a.got k = none) :
    HubStep device s
      (s.set i (some { a with got := Function.update a.got k (some (s.journals.body k)) }))
  | next (i : ι) (a : Attempt) (now : Time) (line : GoString) (ha : s.attempt i = some a)
      (read : ∃ l, a.listing = some l ∧ ∀ k ∈ l, (a.got k).isSome) (open_ : a.line = none)
      (decided : a.next device now = some line) :
    HubStep device s (s.set i (some { a with line := some line }))
  | putIf (i : ι) (w : Write) (s' : Hubs ι) (h : Journaled device s i w s') : HubStep device s s'
  | retry (i : ι) (a : Attempt) (ha : s.attempt i = some a) (decided : a.line ≠ none)
      (moved : a.version ≠ s.version) (left : a.tries + 1 < appendAttempts) :
    HubStep device s (s.set i (s.reread device a.write (a.tries + 1)))
  | giveUp (i : ι) : HubStep device s (s.set i none)

/-- A member pushes its own journal. -/
def Hubs.push (s : Hubs ι) (d body : GoString) : Hubs ι :=
  { s with journals := s.journals.put d body }

/-- A push that no append that can still go through has read past: either the append has not read
the journal, or the ops for the path of its base stay what it read. -/
def UnseenByNone (s : Hubs ι) (d body : GoString) : Prop :=
  ∀ i a b, s.attempt i = some a → a.write.base = some b → a.version = s.version →
    a.knows d ≠ none → opsOn b.path body = opsOn b.path (s.journals.body d)

/-- Every interleaving of the processes' steps and of the members' pushes, where the pushes are of
a kind. -/
inductive HubRuns (device : HubDevice) (Good : Hubs ι → GoString → GoString → Prop) :
    Hubs ι → Prop
  | start (s : Hubs ι) (idle : ∀ i, s.attempt i = none) : HubRuns device Good s
  | step {s s' : Hubs ι} (hs : HubRuns device Good s) (h : HubStep device s s') :
    HubRuns device Good s'
  | push {s : Hubs ι} (hs : HubRuns device Good s) (d body : GoString) (member : d ≠ device.id)
      (good : Good s d body) : HubRuns device Good (s.push d body)

/-! ### What an append knows -/

@[simp] theorem Hubs.set_journals (s : Hubs ι) (i : ι) (a : Option Attempt) :
    (s.set i a).journals = s.journals := rfl

@[simp] theorem Hubs.set_version (s : Hubs ι) (i : ι) (a : Option Attempt) :
    (s.set i a).version = s.version := rfl

@[simp] theorem Hubs.set_attempt_self (s : Hubs ι) (i : ι) (a : Option Attempt) :
    (s.set i a).attempt i = a :=
  Function.update_self _ _ _

theorem Hubs.set_attempt_of_ne (s : Hubs ι) {i j : ι} (a : Option Attempt) (h : j ≠ i) :
    (s.set i a).attempt j = s.attempt j :=
  Function.update_of_ne h _ _

/-- What an append knows is what is stored, as far as the path of its base goes. -/
structure Attempt.Current (a : Attempt) (b : CommitBase) (j : Journals) : Prop where
  seen : ∀ k x, a.knows k = some x → opsOn b.path x = opsOn b.path (j.body k)
  listed : ∀ l, a.listing = some l → l.Sublist j.keys
  read : a.line ≠ none → ∀ k, a.knows k ≠ none
  decided : a.line ≠ none → b.holds j.ops = true

/-- The appends that can still go through are current. -/
def Hubs.Fresh (s : Hubs ι) : Prop :=
  ∀ i a b, s.attempt i = some a → a.write.base = some b →
    a.version ≤ s.version ∧ (a.version = s.version → a.Current b s.journals)

omit [DecidableEq ι] in
/-- An append that has just begun knows nothing. -/
theorem current_reread (device : HubDevice) (s : Hubs ι) (w : Write) (tries : ℕ) (b : CommitBase)
    (j : Journals) : (s.reread device w tries).Current b j where
  seen _ _ h := by cases h
  listed _ h := by cases h
  read h := absurd rfl h
  decided h := absurd rfl h

theorem knows_of_listed {a : Attempt} {l : List GoString} {k : GoString} (hl : a.listing = some l)
    (hk : k ∈ l) : a.knows k = a.got k := by
  rw [Attempt.knows, hl]
  exact if_pos hk

theorem knows_of_not_listed {a : Attempt} {l : List GoString} {k : GoString}
    (hl : a.listing = some l) (hk : k ∉ l) : a.knows k = some [] := by
  rw [Attempt.knows, hl]
  exact if_neg hk

/-- An append that has read everything checks its base against what is stored. -/
theorem Attempt.Current.holds_sourced {a : Attempt} {b : CommitBase} {j : Journals}
    {l : List GoString} (h : a.Current b j) (hl : a.listing = some l)
    (hgot : ∀ k ∈ l, (a.got k).isSome) : b.holds (a.sourced.map (·.op)) = b.holds j.ops := by
  refine holds_congr ?_
  rw [Attempt.sourced, Journals.ops, filter_sourcedOps, filter_sourcedOps, hl]
  refine flatMap_of_sublist (h.listed l hl) j.nodup (fun k hk => ?_) fun k _ hk => ?_
  · obtain ⟨x, hx⟩ := Option.isSome_iff_exists.mp (hgot k hk)
    rw [hx]
    exact h.seen k x ((knows_of_listed hl hk).trans hx)
  · exact (h.seen k [] (knows_of_not_listed hl hk)).symm

/-! ### One step -/

/-- One process goes on, and nothing is stored. -/
theorem Hubs.Fresh.set {s : Hubs ι} (h : s.Fresh) (i : ι) {a : Option Attempt}
    (ha : ∀ a' b, a = some a' → a'.write.base = some b →
      a'.version ≤ s.version ∧ (a'.version = s.version → a'.Current b s.journals)) :
    (s.set i a).Fresh := by
  intro j a' b hj hb
  by_cases hji : j = i
  · subst hji
    rw [set_attempt_self] at hj
    exact ha a' b hj hb
  · rw [set_attempt_of_ne s a hji] at hj
    exact h j a' b hj hb

theorem Hubs.Fresh.reread {s : Hubs ι} (h : s.Fresh) (device : HubDevice) (i : ι) (w : Write)
    (tries : ℕ) : (s.set i (s.reread device w tries)).Fresh := by
  refine h.set i fun a' b ha _ => ?_
  cases ha
  exact ⟨le_rfl, fun _ => current_reread device s w tries b s.journals⟩

/-- What is listed is what is stored, and what is not listed is empty. -/
theorem Attempt.Current.list {a : Attempt} {b : CommitBase} {j : Journals}
    (open_ : a.line = none) :
    ({ a with listing := some j.keys, got := fun _ => none } : Attempt).Current b j where
  seen k x hx := by
    by_cases hk : k ∈ j.keys
    · rw [knows_of_listed rfl hk] at hx
      cases hx
    · rw [knows_of_not_listed rfl hk] at hx
      rw [← Option.some.inj hx, j.absent k hk]
  listed l hl := by rw [← Option.some.inj hl]
  read hline := absurd open_ hline
  decided hline := absurd open_ hline

/-- A journal is read as it is stored. -/
theorem Attempt.Current.fetch {a : Attempt} {b : CommitBase} {j : Journals} (h : a.Current b j)
    (k : GoString) (open_ : a.line = none) :
    ({ a with got := Function.update a.got k (some (j.body k)) } : Attempt).Current b j where
  seen d x hx := by
    cases hl : a.listing with
    | none => simp [Attempt.knows, hl] at hx
    | some l =>
      simp only [Attempt.knows, hl] at hx
      by_cases hdl : d ∈ l
      · rw [if_pos hdl] at hx
        by_cases hdk : d = k
        · subst hdk
          rw [Function.update_self] at hx
          rw [← Option.some.inj hx]
        · rw [Function.update_of_ne hdk] at hx
          exact h.seen d x ((knows_of_listed hl hdl).trans hx)
      · rw [if_neg hdl] at hx
        exact h.seen d x ((knows_of_not_listed hl hdl).trans hx)
  listed := h.listed
  read hline := absurd open_ hline
  decided hline := absurd open_ hline

/-- The line is decided where the base holds. -/
theorem Attempt.Current.next {a : Attempt} {b : CommitBase} {j : Journals} {device : HubDevice}
    {now : Time} {line : GoString} (h : a.Current b j) (hb : a.write.base = some b)
    (read : ∃ l, a.listing = some l ∧ ∀ k ∈ l, (a.got k).isSome)
    (decided : a.next device now = some line) :
    ({ a with line := some line } : Attempt).Current b j where
  seen := h.seen
  listed := h.listed
  read _ k := by
    obtain ⟨l, hl, hgot⟩ := read
    simp only [Attempt.knows, hl]
    split
    · exact Option.isSome_iff_ne_none.mp (hgot k ‹_›)
    · exact Option.some_ne_none _
  decided _ := by
    obtain ⟨l, hl, hgot⟩ := read
    rw [Attempt.next] at decided
    split at decided
    · rename_i hholds
      rw [hb, Option.all_some, h.holds_sourced hl hgot] at hholds
      exact hholds
    · cases decided

/-- A push leaves an append current that has not read the journal, or finds its ops unchanged. -/
theorem Attempt.Current.push {a : Attempt} {b : CommitBase} {j : Journals} (h : a.Current b j)
    {d body : GoString}
    (good : a.knows d ≠ none → opsOn b.path body = opsOn b.path (j.body d)) :
    a.Current b (j.put d body) where
  seen k x hx := by
    by_cases hkd : k = d
    · subst hkd
      have hknows : a.knows k ≠ none := by rw [hx]; exact Option.some_ne_none x
      rw [Journals.put_body_self, good hknows]
      exact h.seen k x hx
    · rw [j.put_body_of_ne body hkd]
      exact h.seen k x hx
  listed l hl := (h.listed l hl).trans (j.keys_sublist_put d body)
  read := h.read
  decided hline := by
    have hsame : ∀ k, opsOn b.path ((j.put d body).body k) = opsOn b.path (j.body k) := by
      intro k
      by_cases hkd : k = d
      · subst hkd
        rw [Journals.put_body_self, good (h.read hline k)]
      · rw [j.put_body_of_ne body hkd]
    rw [← h.decided hline]
    refine holds_congr ?_
    rw [Journals.ops, Journals.ops, filter_sourcedOps, filter_sourcedOps]
    symm
    refine flatMap_of_sublist (j.keys_sublist_put d body) (j.put d body).nodup
      (fun k _ => (hsame k).symm) fun k _ hk => ?_
    rw [hsame, j.absent k hk]
    rfl

theorem Hubs.Fresh.step {device : HubDevice} {s s' : Hubs ι} (h : s.Fresh)
    (hstep : HubStep device s s') : s'.Fresh := by
  cases hstep with
  | begin i w idle => exact h.reread device i w 0
  | list i a ha new open_ =>
    refine h.set i fun a' b ha' hb => ?_
    cases ha'
    exact ⟨(h i a b ha hb).1, fun _ => .list open_⟩
  | fetch i a k ha open_ listed new =>
    refine h.set i fun a' b ha' hb => ?_
    cases ha'
    exact ⟨(h i a b ha hb).1, fun hv => ((h i a b ha hb).2 hv).fetch k open_⟩
  | next i a now line ha read open_ decided =>
    refine h.set i fun a' b ha' hb => ?_
    cases ha'
    exact ⟨(h i a b ha hb).1, fun hv => ((h i a b ha hb).2 hv).next hb read decided⟩
  | putIf i w s' hw =>
    obtain ⟨a, line, ha, -, -, -, rfl⟩ := hw
    -- the version has moved, so no append on its way can go through any more
    intro j a' b hj hb
    by_cases hji : j = i
    · subst hji
      exact absurd ((set_attempt_self s j none).symm.trans hj) (by simp)
    · have hle := (h j a' b ((set_attempt_of_ne s none hji).symm.trans hj) hb).1
      exact ⟨hle.trans (Nat.le_succ _), fun hv => absurd hle (by rw [hv]; exact Nat.not_succ_le_self _)⟩
  | retry i a ha decided moved left => exact h.reread device i a.write (a.tries + 1)
  | giveUp i => exact h.set i fun a' b ha' _ => by cases ha'

omit [DecidableEq ι] in
theorem Hubs.Fresh.push {s : Hubs ι} (h : s.Fresh) {d body : GoString}
    (good : UnseenByNone s d body) : (s.push d body).Fresh := by
  intro i a b ha hb
  obtain ⟨hle, hcur⟩ := h i a b ha hb
  exact ⟨hle, fun hv => (hcur hv).push (good i a b ha hb hv)⟩

theorem HubRuns.fresh {device : HubDevice} {s : Hubs ι} (hs : HubRuns device UnseenByNone s) :
    s.Fresh := by
  induction hs with
  | start s idle =>
    intro i a b ha _
    exact absurd ((idle i).symm.trans ha) (by simp)
  | step _ h ih => exact ih.step h
  | push _ d body _ good ih => exact ih.push good

/-! ### Every run -/

/-- **A write that is journaled replaces its base**, what it writes itself, or nothing, if no
member pushes to its path what the append has read past. -/
theorem journaled_on_base {device : HubDevice} {s s' : Hubs ι} {i : ι} {w : Write} {b : CommitBase}
    (hs : HubRuns device UnseenByNone s) (hw : Journaled device s i w s') (hb : w.base = some b) :
    ∀ fi, liveVersion s.journals.ops b.path = some fi → fi.blob = b.sha ∨ fi.blob = b.blob := by
  obtain ⟨a, line, ha, rfl, hline, hv, -⟩ := hw
  refine holds_iff.mp (((hs.fresh i a b ha hb).2 hv).decided ?_)
  rw [hline]
  exact Option.some_ne_none line

end

/-- The content of a version. -/
def contentOf (digit : UInt8) : GoString := List.replicate 64 digit

/-- The journal of a member that has written a file. -/
def writtenBy (lamport : ℤ) (blob : GoString) : GoString :=
  (marshal [{ seq := lamport, lamport, device := ascii "dev", kind := .put, path := ascii "f",
              blob }]).getD []

/-- A project with the journal of one member. -/
def oneMember (body : GoString) : Journals where
  keys := [ascii "dev"]
  body := Function.update (fun _ => []) (ascii "dev") body
  nodup := List.nodup_singleton _
  absent _ hk := Function.update_of_ne (List.mem_singleton.not.mp hk) _ _

/-- A write of one file, on the version that is there. -/
def onBase (base blob : GoString) : Write := commitIf (ascii "f") blob 1 [] [] [] base

/-- One process reads the one journal there is and decides its line. -/
private theorem exists_decided (Good : Hubs Unit → GoString → GoString → Prop) :
    ∃ (s : Hubs Unit) (a : Attempt) (line : GoString),
      HubRuns { id := ascii "hub" } Good s ∧ s.attempt () = some a ∧
        a.write = onBase (contentOf 0x61) (contentOf 0x62) ∧ a.line = some line ∧
          a.version = s.version ∧ s.journals = oneMember (writtenBy 1 (contentOf 0x61)) := by
  let j := oneMember (writtenBy 1 (contentOf 0x61))
  let w := onBase (contentOf 0x61) (contentOf 0x62)
  let s₀ : Hubs Unit := { journals := j, version := 0, attempt := fun _ => none }
  let a₁ := s₀.reread { id := ascii "hub" } w 0
  let a₂ : Attempt := { a₁ with listing := some j.keys, got := fun _ => none }
  let a₃ : Attempt :=
    { a₂ with got := Function.update a₂.got (ascii "dev") (some (j.body (ascii "dev"))) }
  have hread : ∀ k ∈ j.keys, (a₃.got k).isSome := by decide
  have hnext : (a₃.next { id := ascii "hub" } {}).isSome = true := by decide +kernel
  obtain ⟨line, hline⟩ := Option.isSome_iff_exists.mp hnext
  have h₁ : HubRuns { id := ascii "hub" } Good (s₀.set () (some a₁)) :=
    .step (.start s₀ fun _ => rfl) (.begin () w rfl)
  have h₂ := h₁.step (.list () a₁ ((s₀.set_attempt_self () _)) rfl rfl)
  have h₃ := h₂.step (.fetch () a₂ (ascii "dev") (Hubs.set_attempt_self _ () _) rfl
    ⟨j.keys, rfl, List.mem_singleton_self _⟩ rfl)
  have h₄ := h₃.step (.next () a₃ {} line (Hubs.set_attempt_self _ () _) ⟨j.keys, rfl, hread⟩ rfl
    hline)
  exact ⟨_, _, line, h₄, Hubs.set_attempt_self _ () _, rfl, rfl, rfl, rfl⟩

/-- A write whose base is the only version there is. -/
theorem journaled_on_base_alone : ∃ s s' : Hubs Unit,
    HubRuns { id := ascii "hub" } UnseenByNone s ∧
      Journaled { id := ascii "hub" } s () (onBase (contentOf 0x61) (contentOf 0x62)) s' ∧
        ∀ fi, liveVersion s.journals.ops (ascii "f") = some fi →
          fi.blob = contentOf 0x61 ∨ fi.blob = contentOf 0x62 := by
  obtain ⟨s, a, line, hs, ha, hw, hline, hv, -⟩ := exists_decided UnseenByNone
  have hput : Journaled { id := ascii "hub" } s () (onBase (contentOf 0x61) (contentOf 0x62)) _ :=
    ⟨a, line, ha, hw, hline, hv, rfl⟩
  exact ⟨s, _, hs, hput, journaled_on_base hs hput rfl⟩

/-- A member's version that arrives behind the check is replaced by a write that never saw it. -/
theorem unseen_version_replaced : ¬ ∀ (s s' : Hubs Unit) (i : Unit) (w : Write) (b : CommitBase),
    HubRuns { id := ascii "hub" } (fun _ _ _ => True) s → Journaled { id := ascii "hub" } s i w s' →
      w.base = some b → ∀ fi, liveVersion s.journals.ops b.path = some fi →
        fi.blob = b.sha ∨ fi.blob = b.blob := by
  intro h
  obtain ⟨s, a, line, hs, ha, hw, hline, hv, hj⟩ := exists_decided fun _ _ _ => True
  have hs' := hs.push (ascii "dev")
    (writtenBy 1 (contentOf 0x61) ++ writtenBy 2 (contentOf 0x63)) (by decide) trivial
  have hlive : liveVersion ((oneMember (writtenBy 1 (contentOf 0x61))).put (ascii "dev")
      (writtenBy 1 (contentOf 0x61) ++ writtenBy 2 (contentOf 0x63))).ops (ascii "f") =
      some { blob := contentOf 0x63 } := by decide +kernel
  have hbase := h _ _ () (onBase (contentOf 0x61) (contentOf 0x62)) _ hs'
    ⟨a, line, ha, hw, hline, hv, rfl⟩ rfl { blob := contentOf 0x63 }
    (by rw [Hubs.push, hj]; exact hlive)
  exact absurd hbase (by decide)

end Beardrive
