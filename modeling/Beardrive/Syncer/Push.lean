import Beardrive.Journal.RoundTrip

/-!
# Pushing

A device puts what its ops name on the remote before the journal that names it: whole where it is
small, in chunks and with a manifest where it is large. Which ops have been pushed is told by a
count, kept in `sync.json`, and the journal goes up whole.

The count is of the ops that a cycle has in memory, those it read and those it appended. An op
that was appended behind a torn line is counted and cannot be read, and a journal that was torn
has fewer ops than were counted. Either way later ops come to stand in front of the count, and
what they name is never uploaded.

## Main definitions

* `Remote`, `Job` — what is stored, and one upload on its way
* `pushJobs` — the uploads of a push
* `PushState`, `PushStep`, `PushRuns` — the cycles of a device with its crashes, and every run
* `Counted` — a step that leaves what is counted where it is

## Main results

* `served_of_counted` — content is on the remote before the op that names it
-/

namespace Beardrive

/-! ### The remote -/

/-- What a remote stores, as far as one device's content goes: blobs, chunks, manifests with the
chunks they name, and the device's journal. -/
structure Remote where
  blobs : List GoString := []
  chunks : List GoString := []
  manifests : GoString → Option (List GoString) := fun _ => none
  journal : GoString := []

/-- A content can be fetched: whole, or by a manifest all of whose chunks are there. -/
def Remote.Serves (r : Remote) (blob : GoString) : Prop :=
  blob ∈ r.blobs ∨ ∃ m, r.manifests blob = some m ∧ ∀ c ∈ m, c ∈ r.chunks

/-- The content of every op can be fetched. -/
def Remote.ServesAll (r : Remote) (ops : List Op) : Prop :=
  ∀ op ∈ ops, op.kind = .put → op.blob ≠ [] → r.Serves op.blob

/-- A manifest put on the remote. -/
def Remote.addManifest (r : Remote) (blob : GoString) (m : List GoString) : Remote :=
  { r with manifests := Function.update r.manifests blob (some m) }

/-- What others leave of a remote: nothing that was acknowledged is dropped, and a journal is
written by its own device alone. -/
structure Remote.Keeps (r r' : Remote) : Prop where
  blobs : r.blobs ⊆ r'.blobs
  chunks : r.chunks ⊆ r'.chunks
  manifests : ∀ blob m, r.manifests blob = some m → r'.manifests blob = some m
  journal : r'.journal = r.journal

theorem Remote.Keeps.serves {r r' : Remote} (h : r.Keeps r') {blob : GoString}
    (hs : r.Serves blob) : r'.Serves blob := by
  rcases hs with hs | ⟨m, hm, hs⟩
  · exact .inl (h.blobs hs)
  · exact .inr ⟨m, h.manifests blob m hm, fun c hc => h.chunks (hs c hc)⟩

/-- A manifest whose chunks are there serves its content. -/
theorem Remote.serves_addManifest {r : Remote} {m : List GoString} (h : ∀ c ∈ m, c ∈ r.chunks)
    (blob : GoString) : (r.addManifest blob m).Serves blob :=
  .inr ⟨m, Function.update_self _ _ _, h⟩

/-- And takes no content away. -/
theorem Remote.Serves.addManifest {r : Remote} {b blob : GoString} {m : List GoString}
    (hs : r.Serves b) (h : ∀ c ∈ m, c ∈ r.chunks) : (r.addManifest blob m).Serves b := by
  by_cases heq : b = blob
  · exact heq ▸ serves_addManifest h b
  · rcases hs with hs | ⟨m', hm', hs⟩
    · exact .inl hs
    · exact .inr ⟨m', (Function.update_of_ne heq _ _).trans hm', hs⟩

theorem Remote.ServesAll.mono {r r' : Remote} (h : ∀ blob, r.Serves blob → r'.Serves blob)
    {ops : List Op} (hs : r.ServesAll ops) : r'.ServesAll ops :=
  fun op hop hput hblob => h _ (hs op hop hput hblob)

/-! ### The uploads of a push -/

/-- `chunkThreshold`. -/
def chunkThreshold : ℤ := 4 * 2 ^ 20

/-- A content on its way up, and the chunks of it that are not known to be there. -/
structure Job where
  blob : GoString
  size : ℤ
  left : List GoString
  deriving DecidableEq

section

-- how a content is cut into chunks
variable (names : GoString → List GoString)

/-- The jobs for ops, one for each content that is not `seen`. -/
def pushJobs : List GoString → List Op → List Job
  | _, [] => []
  | seen, op :: ops =>
    if op.kind ≠ .put ∨ op.blob = [] ∨ op.blob ∈ seen then pushJobs seen ops
    else
      { blob := op.blob, size := op.size
        left := if chunkThreshold < op.size then names op.blob else [] } ::
          pushJobs (op.blob :: seen) ops

/-- The chunks of a large content are there or still to be put there. -/
def Job.Sound (r : Remote) (j : Job) : Prop :=
  chunkThreshold < j.size → ∀ c ∈ names j.blob, c ∈ j.left ∨ c ∈ r.chunks

variable {names}

theorem sound_of_mem_pushJobs {seen : List GoString} {ops : List Op} {j : Job}
    (h : j ∈ pushJobs names seen ops) (r : Remote) : j.Sound names r := by
  induction ops generalizing seen with
  | nil => exact absurd h List.not_mem_nil
  | cons op ops ih =>
    rw [pushJobs] at h
    split at h
    · exact ih h
    · rcases List.mem_cons.mp h with rfl | h
      · intro hlarge c hc
        exact .inl (by rwa [if_pos hlarge])
      · exact ih h

/-- Every content is seen or has its job. -/
theorem exists_mem_pushJobs (seen : List GoString) {ops : List Op} {op : Op} (h : op ∈ ops)
    (hput : op.kind = .put) (hblob : op.blob ≠ []) :
    op.blob ∈ seen ∨ ∃ j ∈ pushJobs names seen ops, j.blob = op.blob := by
  induction ops generalizing seen with
  | nil => exact absurd h List.not_mem_nil
  | cons o ops ih =>
    rw [pushJobs]
    rcases List.mem_cons.mp h with rfl | h
    · by_cases hseen : op.blob ∈ seen
      · exact .inl hseen
      · rw [if_neg (by simp [hput, hblob, hseen])]
        exact .inr ⟨_, List.mem_cons_self, rfl⟩
    · split
      · exact ih seen h
      · rcases ih (o.blob :: seen) h with hseen | ⟨j, hj, hjb⟩
        · rcases List.mem_cons.mp hseen with heq | hseen
          · exact .inr ⟨_, List.mem_cons_self, heq.symm⟩
          · exact .inl hseen
        · exact .inr ⟨j, List.mem_cons_of_mem _ hj, hjb⟩

end

/-! ### A device and its remote -/

/-- How far a cycle is. -/
inductive PushPhase where
  | working
  | pushing (jobs : List Job)
  | pushed

/-- A cycle: the device's ops in memory, and how many of them it takes to be pushed. -/
structure PushCycle where
  ops : List Op
  pushed : ℕ
  phase : PushPhase := .working

/-- A device: its journal, the `PushedOps` that `sync.json` has and those it had, the cycle that is
on its way, and the remote. -/
structure PushState where
  journal : GoString := []
  sync : ℕ := 0
  older : List ℕ := []
  cycle : Option PushCycle := none
  remote : Remote := {}

/-- Every count that a `sync.json` of the device has held. -/
def PushState.cursors (s : PushState) : List ℕ := s.sync :: s.older

/-- **Content reaches the remote before the op that names it.** -/
def PushState.Served (s : PushState) : Prop := s.remote.ServesAll (parse s.remote.journal)

/-- The device goes on with its cycle. -/
def PushState.goOn (s : PushState) (m : PushCycle) (r : Remote) : PushState :=
  { s with cycle := some m, remote := r }

/-- Ops as a device writes them: the numbers are 64 bits wide and the content names are text. -/
def Writable (ops : List Op) : Prop := (∀ op ∈ ops, op.Fits) ∧ ∀ op ∈ ops, validUTF8 op.blob = true

/-- One step of a device. A step that fails is one that is not made, and every cycle may end where
it is: by `finish`, which saves its count, or by `crash`. -/
inductive PushStep (names : GoString → List GoString) (s : PushState) : PushState → Prop
  | begin (idle : s.cycle = none) :
    PushStep names s { s with cycle := some { ops := parse s.journal, pushed := s.sync } }
  | append (m : PushCycle) (ops : List Op) (new : GoString) (hm : s.cycle = some m)
      (working : m.phase = .working) (writable : Writable ops)
      (hnew : append s.journal ops = some new) :
    PushStep names s { s with journal := new, cycle := some { m with ops := m.ops ++ ops } }
  | torn (m : PushCycle) (ops : List Op) (new cut : GoString) (hm : s.cycle = some m)
      (working : m.phase = .working) (writable : Writable ops)
      (hnew : append s.journal ops = some new) (hfront : s.journal <+: cut) (hcut : cut <+: new) :
    PushStep names s { s with journal := cut, cycle := none }
  | push (m : PushCycle) (hm : s.cycle = some m) (working : m.phase = .working)
      (pending : m.pushed < m.ops.length) :
    PushStep names s (s.goOn
      { m with phase := .pushing (pushJobs names [] (m.ops.drop m.pushed)) } s.remote)
  | putBlob (m : PushCycle) (front back : List Job) (j : Job) (hm : s.cycle = some m)
      (hphase : m.phase = .pushing (front ++ j :: back)) (small : j.size ≤ chunkThreshold) :
    PushStep names s (s.goOn { m with phase := .pushing (front ++ back) }
      { s.remote with blobs := j.blob :: s.remote.blobs })
  | chunkThere (m : PushCycle) (front back : List Job) (j : Job) (c : GoString)
      (left : List GoString) (hm : s.cycle = some m)
      (hphase : m.phase = .pushing (front ++ j :: back)) (large : chunkThreshold < j.size)
      (hleft : j.left = c :: left) (there : c ∈ s.remote.chunks) :
    PushStep names s
      (s.goOn { m with phase := .pushing (front ++ { j with left } :: back) } s.remote)
  | putChunk (m : PushCycle) (front back : List Job) (j : Job) (c : GoString)
      (left : List GoString) (hm : s.cycle = some m)
      (hphase : m.phase = .pushing (front ++ j :: back)) (large : chunkThreshold < j.size)
      (hleft : j.left = c :: left) :
    PushStep names s (s.goOn { m with phase := .pushing (front ++ { j with left } :: back) }
      { s.remote with chunks := c :: s.remote.chunks })
  | putManifest (m : PushCycle) (front back : List Job) (j : Job) (hm : s.cycle = some m)
      (hphase : m.phase = .pushing (front ++ j :: back)) (large : chunkThreshold < j.size)
      (hleft : j.left = []) :
    PushStep names s (s.goOn { m with phase := .pushing (front ++ back) }
      (s.remote.addManifest j.blob (names j.blob)))
  -- the manifest is refused: the content goes up whole
  | manifestRefused (m : PushCycle) (front back : List Job) (j : Job) (hm : s.cycle = some m)
      (hphase : m.phase = .pushing (front ++ j :: back)) (large : chunkThreshold < j.size)
      (hleft : j.left = []) :
    PushStep names s (s.goOn { m with phase := .pushing (front ++ back) }
      { s.remote with blobs := j.blob :: s.remote.blobs })
  | putJournal (m : PushCycle) (hm : s.cycle = some m) (hphase : m.phase = .pushing []) :
    PushStep names s (s.goOn { m with pushed := m.ops.length, phase := .pushed }
      { s.remote with journal := s.journal })
  -- the journal is put and the answer is lost
  | putUnanswered (m : PushCycle) (hm : s.cycle = some m) (hphase : m.phase = .pushing []) :
    PushStep names s (s.goOn m { s.remote with journal := s.journal })
  | finish (m : PushCycle) (hm : s.cycle = some m) :
    PushStep names s { s with sync := m.pushed, older := s.cursors, cycle := none }
  | crash : PushStep names s { s with cycle := none }
  | tear (cut : GoString) (hcut : cut <+: s.journal) :
    PushStep names s { s with journal := cut, cycle := none }
  | restore (c : ℕ) (hc : c ∈ s.older) :
    PushStep names s { s with sync := c, older := s.cursors, cycle := none }
  | others (r : Remote) (hr : s.remote.Keeps r) : PushStep names s { s with remote := r }

/-- The runs of a new device all of whose steps are `Good` ones. -/
inductive PushRuns (names : GoString → List GoString) (Good : PushState → PushState → Prop) :
    PushState → Prop
  | start (r : Remote) (new : r.journal = []) : PushRuns names Good { remote := r }
  | step {s s' : PushState} (hs : PushRuns names Good s) (h : PushStep names s s')
      (good : Good s s') : PushRuns names Good s'

/-- A step leaves every op that is counted where it is, and saves no count that goes beyond the ops
that can be read. -/
structure Counted (s s' : PushState) : Prop where
  kept : ∀ c ∈ s.cursors, (parse s'.journal).take c = (parse s.journal).take c
  covered : ∀ c ∈ s'.cursors, c ∈ s.cursors ∨ c ≤ (parse s.journal).length

/-! ### What a device can rely on -/

/-- What the put ops name is named by others. -/
def NamedBy (ops ops' : List Op) : Prop :=
  ∀ op ∈ ops, op.kind = .put → op.blob ≠ [] → ∃ op' ∈ ops', op'.kind = .put ∧ op'.blob = op.blob

section

variable (names : GoString → List GoString)

/-- What holds within a cycle: the ops behind the count are among those in memory, then they are
there or on their way, and then all of them are there. -/
def PushState.Going (s : PushState) (m : PushCycle) : Prop :=
  match m.phase with
  | .working => m.pushed ∈ s.cursors ∧ m.pushed ≤ m.ops.length ∧
      NamedBy ((parse s.journal).drop m.pushed) (m.ops.drop m.pushed)
  | .pushing jobs => m.pushed ∈ s.cursors ∧ (∀ j ∈ jobs, j.Sound names s.remote) ∧
      ∀ op ∈ (parse s.journal).drop m.pushed, op.kind = .put → op.blob ≠ [] →
        s.remote.Serves op.blob ∨ ∃ j ∈ jobs, j.blob = op.blob
  | .pushed => s.remote.ServesAll (parse s.journal)

/-- What holds between the steps of a device: the ops that are counted can be read, and what they
name is there. -/
structure PushState.Sound (s : PushState) : Prop where
  served : s.Served
  counted : ∀ c ∈ s.cursors,
    c ≤ (parse s.journal).length ∧ s.remote.ServesAll ((parse s.journal).take c)
  going : ∀ m, s.cycle = some m → s.Going names m

variable {names} {s s' : PushState}

theorem Counted.counted (h : Counted s s') (hs : s.Sound names) {c : ℕ} (hc : c ∈ s.cursors) :
    c ≤ (parse s'.journal).length ∧ s.remote.ServesAll ((parse s'.journal).take c) := by
  obtain ⟨hle, hserved⟩ := hs.counted c hc
  have hlen := congrArg List.length (h.kept c hc)
  rw [List.length_take, List.length_take, Nat.min_eq_left hle] at hlen
  rw [h.kept c hc]
  exact ⟨by omega, hserved⟩

/-- A step that ends the cycle and saves no new count. -/
theorem PushState.Sound.idle (hs : s.Sound names) (h : Counted s s')
    (hremote : s'.remote = s.remote) (hcycle : s'.cycle = none)
    (hcursors : ∀ c ∈ s'.cursors, c ∈ s.cursors) : s'.Sound names where
  served := by
    rw [Served, hremote]
    exact hs.served
  counted c hc := hremote ▸ h.counted hs (hcursors c hc)
  going m hm := by
    rw [hcycle] at hm
    cases hm

/-- A step of a push. -/
theorem PushState.Sound.goOn (hs : s.Sound names) {m : PushCycle} {r : Remote}
    (hmono : ∀ blob, s.remote.Serves blob → r.Serves blob)
    (hserved : r.ServesAll (parse r.journal)) (hgoing : (s.goOn m r).Going names m) :
    (s.goOn m r).Sound names where
  served := hserved
  counted c hc := ⟨(hs.counted c hc).1, (hs.counted c hc).2.mono hmono⟩
  going m' hm' := by
    obtain rfl := Option.some.inj hm'
    exact hgoing

/-- A push goes on with its jobs: each is there or still on its way. -/
theorem PushState.Sound.jobs (hs : s.Sound names) {m : PushCycle} {jobs jobs' : List Job}
    {r : Remote} (hm : s.cycle = some m) (hphase : m.phase = .pushing jobs)
    (hmono : ∀ blob, s.remote.Serves blob → r.Serves blob)
    (hjournal : r.journal = s.remote.journal) (hsound : ∀ j ∈ jobs', j.Sound names r)
    (hjobs : ∀ j ∈ jobs, r.Serves j.blob ∨ ∃ j' ∈ jobs', j'.blob = j.blob) :
    (s.goOn { m with phase := .pushing jobs' } r).Sound names := by
  have hgoing := hs.going m hm
  rw [Going, hphase] at hgoing
  obtain ⟨hcursor, -, hpending⟩ := hgoing
  refine hs.goOn hmono (hjournal ▸ hs.served.mono hmono) ⟨hcursor, hsound, ?_⟩
  intro op hop hput hblob
  rcases hpending op hop hput hblob with hserved | ⟨j, hj, hjb⟩
  · exact .inl (hmono _ hserved)
  · rw [← hjb]
    exact hjobs j hj

/-- The jobs of a push whose one job is done. -/
theorem PushState.Sound.jobDone (hs : s.Sound names) {m : PushCycle} {front back : List Job}
    {j : Job} {r : Remote} (hm : s.cycle = some m)
    (hphase : m.phase = .pushing (front ++ j :: back))
    (hmono : ∀ blob, s.remote.Serves blob → r.Serves blob)
    (hchunks : r.chunks = s.remote.chunks) (hjournal : r.journal = s.remote.journal)
    (hserves : r.Serves j.blob) :
    (s.goOn { m with phase := .pushing (front ++ back) } r).Sound names := by
  have hgoing := hs.going m hm
  rw [Going, hphase] at hgoing
  refine hs.jobs hm hphase hmono hjournal ?_ ?_
  · intro i hi
    rw [Job.Sound, hchunks]
    exact hgoing.2.1 i (List.mem_append.mpr ((List.mem_append.mp hi).imp_right
      (List.mem_cons_of_mem _)))
  · intro i hi
    rcases List.mem_append.mp hi with hi | hi
    · exact .inr ⟨i, List.mem_append_left _ hi, rfl⟩
    · rcases List.mem_cons.mp hi with rfl | hi
      · exact .inl hserves
      · exact .inr ⟨i, List.mem_append_right _ hi, rfl⟩

/-- The jobs of a push one chunk of whose job is there. -/
theorem PushState.Sound.chunkDone (hs : s.Sound names) {m : PushCycle} {front back : List Job}
    {j : Job} {c : GoString} {left : List GoString} {r : Remote} (hm : s.cycle = some m)
    (hphase : m.phase = .pushing (front ++ j :: back)) (hleft : j.left = c :: left)
    (hkeeps : s.remote.Keeps r) (hthere : c ∈ r.chunks) :
    (s.goOn { m with phase := .pushing (front ++ { j with left } :: back) } r).Sound names := by
  have hgoing := hs.going m hm
  rw [Going, hphase] at hgoing
  have hsound (i : Job) (hi : i ∈ front ++ j :: back) : i.Sound names r := fun hlarge d hd =>
    (hgoing.2.1 i hi hlarge d hd).imp_right fun hd => hkeeps.chunks hd
  refine hs.jobs hm hphase (fun _ => hkeeps.serves) hkeeps.journal ?_ ?_
  · intro i hi
    rcases List.mem_append.mp hi with hi | hi
    · exact hsound i (List.mem_append_left _ hi)
    · rcases List.mem_cons.mp hi with rfl | hi
      · intro hlarge d hd
        rcases hsound j (List.mem_append_right _ List.mem_cons_self) hlarge d hd with hd | hd
        · rw [hleft] at hd
          rcases List.mem_cons.mp hd with rfl | hd
          · exact .inr hthere
          · exact .inl hd
        · exact .inr hd
      · exact hsound i (List.mem_append_right _ (List.mem_cons_of_mem _ hi))
  · intro i hi
    rcases List.mem_append.mp hi with hi | hi
    · exact .inr ⟨i, List.mem_append_left _ hi, rfl⟩
    · rcases List.mem_cons.mp hi with rfl | hi
      · exact .inr ⟨_, List.mem_append_right _ List.mem_cons_self, rfl⟩
      · exact .inr ⟨i, List.mem_append_right _ (List.mem_cons_of_mem _ hi), rfl⟩

/-- A push whose jobs are done has everything there. -/
theorem PushState.Sound.allServed (hs : s.Sound names) {m : PushCycle} (hm : s.cycle = some m)
    (hphase : m.phase = .pushing []) : s.remote.ServesAll (parse s.journal) := by
  have hgoing := hs.going m hm
  rw [Going, hphase] at hgoing
  obtain ⟨hcursor, -, hpending⟩ := hgoing
  intro op hop hput hblob
  rw [← List.take_append_drop m.pushed (parse s.journal), List.mem_append] at hop
  rcases hop with hop | hop
  · exact (hs.counted _ hcursor).2 op hop hput hblob
  · rcases hpending op hop hput hblob with hserved | ⟨j, hj, -⟩
    · exact hserved
    · exact absurd hj List.not_mem_nil

/-- An op that is read names the content its line was written with. -/
theorem blob_of_decoded {op o : Op} (hfits : op.Fits) (htext : validUTF8 op.blob = true)
    (h : op.decoded = some o) : o.kind = op.kind ∧ o.blob = op.blob := by
  obtain ⟨line, hline, -⟩ := Option.bind_eq_some_iff.mp h
  have hkind : Kind.ofText op.wire.kind = some op.kind := Kind.ofText_text op.kind
  rw [decoded_eq_wire hfits hline, PathRaw.op, hkind, Option.map_some] at h
  obtain rfl := Option.some.inj h
  exact ⟨rfl, toValid_eq_self_iff.mpr htext⟩

/-- Ops that are appended are in memory as well. -/
theorem namedBy_append {old new : GoString} {ops mine : List Op} {n : ℕ} (h : Writable ops)
    (hnew : append old ops = some new) (hn : n ≤ mine.length)
    (hold : NamedBy ((parse old).drop n) (mine.drop n)) :
    NamedBy ((parse new).drop n) ((mine ++ ops).drop n) := by
  obtain ⟨front, tail, hparse, hfront, htail⟩ := exists_parse_append h.1 hnew
  intro o ho hput hblob
  rw [List.drop_append_of_le_length hn]
  rw [hparse, List.drop_append, List.mem_append] at ho
  rcases ho with ho | ho
  · obtain ⟨op, hop, hnamed⟩ := hold o ((hfront.drop n).subset ho) hput hblob
    exact ⟨op, List.mem_append_left _ hop, hnamed⟩
  · obtain ⟨op, hop, hdecoded⟩ := htail o (List.mem_of_mem_drop ho)
    obtain ⟨hkind, hname⟩ := blob_of_decoded (h.1 op hop) (h.2 op hop) hdecoded
    exact ⟨op, List.mem_append_right _ hop, hkind ▸ hput, hname.symm⟩

/-- **One step keeps what a device can rely on**, if it leaves what is counted where it is. -/
theorem PushStep.sound (h : PushStep names s s') (hc : Counted s s') (hs : s.Sound names) :
    s'.Sound names := by
  cases h with
  | begin idle =>
    refine ⟨hs.served, hs.counted, fun m hm => ?_⟩
    obtain rfl := Option.some.inj hm
    refine ⟨List.mem_cons_self, (hs.counted _ List.mem_cons_self).1, fun op hop hput _ => ?_⟩
    exact ⟨op, hop, hput, rfl⟩
  | append m ops new hm working writable hnew =>
    have hgoing := hs.going m hm
    rw [PushState.Going, working] at hgoing
    obtain ⟨hcursor, hle, hnamed⟩ := hgoing
    refine ⟨hs.served, fun c hc' => hc.counted hs hc', fun m' hm' => ?_⟩
    obtain rfl := Option.some.inj hm'
    rw [PushState.Going, working]
    exact ⟨hcursor, hle.trans (by simp), namedBy_append writable hnew hle hnamed⟩
  | torn => exact hs.idle hc rfl rfl fun c hc => hc
  | push m hm working pending =>
    have hgoing := hs.going m hm
    rw [PushState.Going, working] at hgoing
    obtain ⟨hcursor, -, hnamed⟩ := hgoing
    refine hs.goOn (fun _ h => h) hs.served ⟨hcursor, fun j hj => sound_of_mem_pushJobs hj _, ?_⟩
    intro op hop hput hblob
    obtain ⟨op', hop', hput', heq⟩ := hnamed op hop hput hblob
    rcases exists_mem_pushJobs [] hop' hput' (heq ▸ hblob) with
      hseen | ⟨j, hj, hjb⟩
    · exact absurd hseen List.not_mem_nil
    · exact .inr ⟨j, hj, hjb.trans heq⟩
  | putBlob m front back j hm hphase small =>
    exact hs.jobDone hm hphase (fun _ hb => hb.imp_left (List.mem_cons_of_mem _)) rfl rfl
      (.inl List.mem_cons_self)
  | chunkThere m front back j c left hm hphase large hleft there =>
    exact hs.chunkDone hm hphase hleft
      ⟨List.Subset.refl _, List.Subset.refl _, fun _ _ h => h, rfl⟩ there
  | putChunk m front back j c left hm hphase large hleft =>
    exact hs.chunkDone hm hphase hleft
      ⟨List.Subset.refl _, List.subset_cons_self _ _, fun _ _ h => h, rfl⟩ List.mem_cons_self
  | putManifest m front back j hm hphase large hleft =>
    have hgoing := hs.going m hm
    rw [PushState.Going, hphase] at hgoing
    have hchunks : ∀ c ∈ names j.blob, c ∈ s.remote.chunks := by
      intro c hc
      have hj := hgoing.2.1 j (List.mem_append_right _ List.mem_cons_self) large c hc
      exact hj.resolve_left (by simp [hleft])
    exact hs.jobDone hm hphase (fun _ hb => hb.addManifest hchunks) rfl rfl
      (Remote.serves_addManifest hchunks _)
  | manifestRefused m front back j hm hphase large hleft =>
    exact hs.jobDone hm hphase (fun _ hb => hb.imp_left (List.mem_cons_of_mem _)) rfl rfl
      (.inl List.mem_cons_self)
  | putJournal m hm hphase =>
    have hall := hs.allServed hm hphase
    exact hs.goOn (fun _ h => h) hall hall
  | putUnanswered m hm hphase =>
    have hgoing := hs.going m hm
    rw [PushState.Going, hphase] at hgoing
    refine hs.goOn (fun _ h => h) (hs.allServed hm hphase) ?_
    rw [PushState.Going, hphase]
    exact hgoing
  | finish m hm =>
    refine ⟨hs.served, fun c hcur => ?_, fun m' hm' => by cases hm'⟩
    by_cases hold : c ∈ s.cursors
    · exact hc.counted hs hold
    -- the count is a new one: the push went through
    · have hnew : c = m.pushed := (List.mem_cons.mp hcur).resolve_right hold
      have hle := (hc.covered c hcur).resolve_left hold
      have hgoing := hs.going m hm
      refine ⟨hle, fun op hop => ?_⟩
      have hmem := List.mem_of_mem_take hop
      cases hphase : m.phase with
      | working =>
        rw [PushState.Going, hphase] at hgoing
        exact absurd (hnew ▸ hgoing.1) hold
      | pushing jobs =>
        rw [PushState.Going, hphase] at hgoing
        exact absurd (hnew ▸ hgoing.1) hold
      | pushed =>
        rw [PushState.Going, hphase] at hgoing
        exact hgoing op hmem
  | crash => exact hs.idle hc rfl rfl fun c hc => hc
  | tear => exact hs.idle hc rfl rfl fun c hc => hc
  | restore c hc' =>
    refine hs.idle hc rfl rfl fun d hd => ?_
    rcases List.mem_cons.mp hd with rfl | hd
    · exact List.mem_cons_of_mem _ hc'
    · exact hd
  | others r hr =>
    have hmono : ∀ blob, s.remote.Serves blob → r.Serves blob := fun _ => hr.serves
    refine ⟨?_, fun c hcur => ⟨(hs.counted c hcur).1, (hs.counted c hcur).2.mono hmono⟩, ?_⟩
    · rw [PushState.Served, hr.journal]
      exact hs.served.mono hmono
    · intro m hm
      have hgoing := hs.going m hm
      cases hphase : m.phase with
      | working =>
        rw [PushState.Going, hphase] at hgoing ⊢
        exact hgoing
      | pushing jobs =>
        rw [PushState.Going, hphase] at hgoing ⊢
        refine ⟨hgoing.1, fun j hj hlarge c hcn => ?_, fun op hop hput hblob => ?_⟩
        · exact (hgoing.2.1 j hj hlarge c hcn).imp_right fun h => hr.chunks h
        · exact (hgoing.2.2 op hop hput hblob).imp_left (hmono _)
      | pushed =>
        rw [PushState.Going, hphase] at hgoing ⊢
        exact hgoing.mono hmono

theorem sound_of_runs (h : PushRuns names Counted s) : s.Sound names := by
  induction h with
  | start r new =>
    refine ⟨?_, fun c hc => ?_, fun m hm => by cases hm⟩
    · rw [PushState.Served, new]
      exact fun op hop => absurd hop List.not_mem_nil
    · obtain rfl := List.mem_singleton.mp hc
      exact ⟨Nat.zero_le _, fun op hop => absurd hop (by simp)⟩
  | step hs h good ih => exact h.sound good ih

/-- **In every run that leaves what is counted where it is, content is on the remote before the op
that names it.** -/
theorem served_of_counted (h : PushRuns names Counted s) : s.Served := (sound_of_runs h).served

end

/-- A put of a small file, with a content name of one digit. -/
def pushedOp (seq lamport : ℤ) (digit : UInt8) : Op :=
  { seq, lamport, device := ascii "d", kind := .put, path := ascii "f",
    blob := List.replicate 64 digit, size := 1 }

/-- Its line. -/
def pushedLine (seq lamport : ℤ) (digit : UInt8) : GoString :=
  (marshal [pushedOp seq lamport digit]).getD []

theorem writable_pushedOp {seq lamport : ℤ} {digit : UInt8} (hseq : 0 ≤ seq ∧ seq < 8)
    (hlamport : 0 ≤ lamport ∧ lamport < 8) (hdigit : digit < 0x80) :
    Writable [pushedOp seq lamport digit] := by
  refine ⟨List.forall_mem_singleton.mpr ⟨?_, ?_, ?_⟩, List.forall_mem_singleton.mpr ?_⟩
  · exact ⟨by simp only [pushedOp]; omega, by simp only [pushedOp]; omega⟩
  · exact ⟨by simp only [pushedOp]; omega, by simp only [pushedOp]; omega⟩
  · exact ⟨by simp only [pushedOp]; omega, by simp only [pushedOp]; omega⟩
  · refine validUTF8_of_ascii fun b hb => ?_
    rwa [List.eq_of_mem_replicate hb]

/-- A device after a first push. -/
def pushedOnce : PushState where
  journal := pushedLine 1 1 0x61
  sync := 1
  older := [0]
  remote := { blobs := [List.replicate 64 0x61], journal := pushedLine 1 1 0x61 }

/-- What a first push publishes can be fetched. -/
theorem pushedOnce_served : pushedOnce.Served := by
  have hkept {s s' : PushState} (h0 : s.cursors = [0]) (h1 : ∀ c ∈ s'.cursors, c ∈ s.cursors) :
      Counted s s' := by
    refine ⟨fun c hc => ?_, fun c hc => .inl (h1 c hc)⟩
    rw [h0, List.mem_singleton] at hc
    rw [hc, List.take_zero, List.take_zero]
  have hdone : Counted { pushedOnce with sync := 0, older := [] } pushedOnce := by
    refine ⟨fun c _ => rfl, fun c hc => ?_⟩
    rcases List.mem_cons.mp hc with rfl | hc
    · exact .inr (by decide +kernel)
    · exact .inl hc
  have hbegin : PushRuns (fun _ => []) Counted _ :=
    (PushRuns.start {} rfl).step (.begin rfl) (hkept rfl fun _ hc => hc)
  have happend := hbegin.step
    (.append _ [pushedOp 1 1 0x61] (pushedLine 1 1 0x61) rfl rfl
      (writable_pushedOp (by omega) (by omega) (by decide)) (by decide +kernel))
    (hkept rfl fun _ hc => hc)
  have hpush := happend.step (.push _ rfl rfl (by decide)) (hkept rfl fun _ hc => hc)
  have hput := hpush.step (.putBlob _ [] [] ⟨List.replicate 64 0x61, 1, []⟩ rfl rfl
    (by decide)) (hkept rfl fun _ hc => hc)
  have hjournal := hput.step (.putJournal _ rfl rfl) (hkept rfl fun _ hc => hc)
  exact served_of_counted (s := pushedOnce)
    (hjournal.step (.finish { ops := [pushedOp 1 1 0x61], pushed := 1, phase := .pushed } rfl)
      ⟨hdone.kept, hdone.covered⟩)

/-! ### A torn line -/

/-- A cycle that journals ops and pushes nothing. -/
theorem PushRuns.offline {names : GoString → List GoString} {s : PushState}
    (h : PushRuns names (fun _ _ => True) s) (idle : s.cycle = none) (ops : List Op)
    (new : GoString) (writable : Writable ops) (hnew : append s.journal ops = some new) :
    PushRuns names (fun _ _ => True)
      { s with journal := new, older := s.cursors, cycle := none } :=
  ((h.step (.begin idle) trivial).step (.append _ ops new rfl rfl writable hnew) trivial).step
    (.finish { ops := parse s.journal ++ ops, pushed := s.sync } rfl) trivial

/-- A cycle that journals ops and uploads one small content. -/
theorem PushRuns.online {names : GoString → List GoString} {s : PushState}
    (h : PushRuns names (fun _ _ => True) s) (idle : s.cycle = none) (ops : List Op)
    (new : GoString) (j : Job) (writable : Writable ops) (hnew : append s.journal ops = some new)
    (pending : s.sync < (parse s.journal ++ ops).length)
    (hjobs : pushJobs names [] ((parse s.journal ++ ops).drop s.sync) = [j])
    (small : j.size ≤ chunkThreshold) :
    PushRuns names (fun _ _ => True)
      { s with
        journal := new, sync := (parse s.journal ++ ops).length, older := s.cursors, cycle := none,
        remote := { s.remote with blobs := j.blob :: s.remote.blobs, journal := new } } := by
  have hpush := ((h.step (.begin idle) trivial).step
    (.append _ ops new rfl rfl writable hnew) trivial).step (.push _ rfl rfl pending) trivial
  have hput := hpush.step (.putBlob _ [] [] j rfl (congrArg PushPhase.pushing hjobs) small) trivial
  exact (hput.step (.putJournal _ rfl rfl) trivial).step
    (.finish { ops := parse s.journal ++ ops, pushed := _, phase := .pushed } rfl) trivial

/-- The journal behind a torn line and three appends: the first is lost. -/
def tornThree : GoString :=
  (pushedLine 1 1 0x61).take 8 ++ pushedLine 1 1 0x61 ++ pushedLine 1 2 0x62 ++ pushedLine 2 3 0x63

/-- **An op behind a torn line is counted and cannot be read, and the op that takes its place in the
count is published without its content.** -/
theorem published_without_content : ¬ ∀ (names : GoString → List GoString) (s : PushState),
    PushRuns names (fun _ _ => True) s → s.Served := by
  intro h
  have hw {seq lamport : ℤ} {digit : UInt8} := @writable_pushedOp seq lamport digit
  -- a crash tears the first append
  have htorn : PushRuns (fun _ => []) (fun _ _ => True)
      { journal := (pushedLine 1 1 0x61).take 8 } :=
    ((PushRuns.start {} rfl).step (.begin rfl) trivial).step
      (.torn _ [pushedOp 1 1 0x61] (pushedLine 1 1 0x61) _ rfl rfl
        (hw (by omega) (by omega) (by decide)) (by decide +kernel) List.nil_prefix
        (List.take_prefix _ _)) trivial
  have hfirst := htorn.online rfl [pushedOp 1 1 0x61]
    ((pushedLine 1 1 0x61).take 8 ++ pushedLine 1 1 0x61) ⟨List.replicate 64 0x61, 1, []⟩
    (hw (by omega) (by omega) (by decide)) (by decide +kernel) (by decide +kernel)
    (by decide +kernel) (by decide)
  have hsecond := hfirst.offline rfl [pushedOp 1 2 0x62]
    ((pushedLine 1 1 0x61).take 8 ++ pushedLine 1 1 0x61 ++ pushedLine 1 2 0x62)
    (hw (by omega) (by omega) (by decide)) (by decide +kernel)
  have hthird := hsecond.online rfl [pushedOp 2 3 0x63] tornThree ⟨List.replicate 64 0x63, 1, []⟩
    (hw (by omega) (by omega) (by decide)) (by decide +kernel) (by decide +kernel)
    (by decide +kernel) (by decide)
  have hmem : pushedOp 1 2 0x62 ∈ parse tornThree := by decide +kernel
  rcases h _ _ hthird _ hmem rfl (by decide) with hblob | ⟨m, hm, -⟩
  · exact absurd hblob (by decide)
  · cases hm

end Beardrive
