import Beardrive.Lib.Occurrences
import Beardrive.Lib.Runs
import Beardrive.Webapp.FileHistory

/-!
# What an agent's edit and move change

An edit reads a file, replaces a text in what it read and puts the result back, held to the version
it was made on. A move reads a file, puts what it read at another path and then deletes the first.
Neither is one write, and anybody may write in between.

Both read a bounded number of bytes. A move first asks how long the file is said to be, which is the
word of whoever put it; an edit does not ask. What lies beyond the bound is not in what is put back.
And only the edit is held to what it read: a move deletes whatever its source has come to hold.

## Main definitions

* `checkStale`, `mcpEdit`, `mcpMove`, `mcpDelete` — what the tools decide on what they see
* `handleUpload`, `handleRemove` — what the hub makes of their writes
* `AgentHub` — a project, and the calls on their way
* `AgentHub.step` — every interleaving, with the writes of everybody else
* `AgentHub.Careful` — the steps after which the tools do what they say

## Main results

* `Sound.step` — what a careful step keeps
* `agents_change_what_they_name` — what an edit or a move that reports success has changed
-/

namespace Beardrive

open Occurrences

/-! ### What the tools decide -/

/-- How much of a file an edit reads, without one byte. -/
def maxReadBytes : ℕ := 1 <<< 20

/-- How much of a file a move reads, without one byte. -/
def maxMoveBytes : ℕ := 64 <<< 20

/-- Where a byte of zero tells that a file is no text. -/
def binaryScanHead : ℕ := 8 <<< 10

def isBinary (b : GoString) : Bool := (b.take binaryScanHead).contains 0

/-- `shaLike`: whether a string could be a sha, or the beginning of one. -/
def shaLike (s : GoString) : Bool :=
  6 ≤ s.length && s.length ≤ 64 && s.all fun c => digitByte c || (0x61 ≤ c && c ≤ 0x66)

/-- `short`. -/
def shortSHA (sha : GoString) : GoString := sha.take 12

/-- Why a named version is refused. -/
inductive StaleError where
  | uppercase (low : GoString)
  | notSHA (want : GoString)
  | noSuchFile (shown : GoString)
  | sha (e : ShaError)
  | stale (shown now : GoString)
  deriving DecidableEq

/-- Why a tool refuses. -/
inductive ToolError where
  | path (e : ReadError)
  | noOldText
  | readonly (path : GoString)
  | stale (e : StaleError)
  | binary (path : GoString)
  | notFound (path : GoString)
  | several (n : ℕ) (path : GoString)
  | otherProject
  | trailingSlash (path : GoString)
  | collision (path : GoString)
  | taken (path : GoString) (size : ℤ) (sha : GoString)
  | tooLarge (path : GoString) (size : ℤ)
  | wholeProject (path : GoString)
  | nothingUnder (path : GoString)
  deriving DecidableEq

/-- The input of the edit tool. -/
structure EditIn where
  path : GoString
  oldString : GoString
  newString : GoString
  replaceAll : Bool := false
  sha : GoString := []

/-- The input of the move tool. -/
structure MoveIn where
  from_ : GoString
  to_ : GoString

/-- An edit that is to be put: the path, the version it was made on, what is replaced by what, and
the result. -/
structure EditCall where
  path : GoString
  base : GoString
  oldString : GoString
  newString : GoString
  replaceAll : Bool
  body : GoString

/-- What was found when a path was deleted, there and at the destination of the move. -/
structure Gone where
  source : Option HubFileInfo
  destination : Option HubFileInfo

/-- A move: its source as it was spelled, the two paths, the version that was read and the one that
was put, the paths it journaled ops of, and what it found when it deleted its source. -/
structure MoveCall where
  spelling : GoString
  from_ : GoString
  to_ : GoString
  read : GoString
  wrote : GoString := []
  touched : List GoString := []
  gone : Option Gone := none

/-- A hub process: its identity, the account that writes, the project its calls are about and the
tokens that name one, its hash, and how it lowers and sorts. A hash is a sha. -/
structure AgentEnv where
  device : HubDevice
  email : GoString := []
  userName : GoString := []
  project : GoString
  resolveProject : GoString → Option GoString
  hash : GoString → GoString
  isBlobSHA_hash : ∀ c, isBlobSHA (hash c) = true
  toLower : GoString → GoString
  sort : FeedSort

section

variable (env : AgentEnv) (blobs : GoString → Option GoString)

/-- `checkStale`: the version of a file, when a sha names it. -/
def checkStale (v : ProjectView) (rest want shown : GoString) : Except StaleError GoString :=
  if !shaLike want then
    if shaLike (env.toLower want) then .error (.uppercase (env.toLower want))
    else .error (.notSHA want)
  else match v.files rest with
    | none => .error (.noSuchFile shown)
    | some fi =>
      if hasPrefix fi.blob (trimSuffix want (ascii "…")) then .ok fi.blob
      else match resolveSHA env.toLower env.sort v rest want with
        | .error e => .error (.sha e)
        | .ok _ => .error (.stale shown (shortSHA fi.blob))

/-- A virtual path in the project, seen by a caller. -/
def ProjectView.split (v : ProjectView) (path : GoString) :
    Except ReadError (ProjectView × GoString) :=
  splitGranted (fun token => if env.resolveProject token = some env.project then some v else none)
    path

/-- A path that is not a listed file. -/
def ProjectView.notFile (v : ProjectView) (rest shown : GoString) : ReadError :=
  if v.hasPrefixIn (rest ++ [slash]) then .folder shown else .noSuchFile shown

/-- The substitution of `mcpEdit`: nothing when the text already reads as asked. -/
def editText (i : EditIn) (data : GoString) : Except ToolError (Option GoString) :=
  let n := count i.oldString data
  if isBinary data then .error (.binary i.path)
  else if n = 0 then .error (.notFound i.path)
  else if 1 < n && !i.replaceAll then .error (.several n i.path)
  else if i.oldString = i.newString then .ok none
  else if i.replaceAll then .ok (some (replaceAll data i.oldString i.newString))
  else .ok (some (replaceFirst data i.oldString i.newString))

/-- `mcpEdit`, up to the upload: nothing when the file already reads as asked. The sha is checked on
a listing of its own. -/
def mcpEdit (v w : ProjectView) (mayWrite : GoString → Bool) (i : EditIn) :
    Except ToolError (Option EditCall) :=
  match v.split env i.path with
  | .error e => .error (.path e)
  | .ok (v, rest) =>
    if i.oldString = [] then .error .noOldText
    else match v.files rest with
      | none => .error (.path (v.notFile rest i.path))
      | some fi =>
        if !mayWrite rest then .error (.readonly i.path)
        else match (if i.sha = [] then .ok [] else checkStale env w rest i.sha i.path) with
          | .error e => .error (.stale e)
          | .ok _ =>
            match openFile blobs fi with
            | none => .error (.path .unavailable)
            | some content => (editText i (content.take (maxReadBytes + 1))).map fun body =>
              body.map (EditCall.mk rest fi.blob i.oldString i.newString i.replaceAll)

/-- The folders a path is in. -/
def parentsOf (rest : GoString) : List GoString :=
  rest.inits.filter fun a => hasPrefix rest (a ++ [slash])

/-- `checkNoCollision`: whether a path is no folder, and is in no file. -/
def ProjectView.noCollision (v : ProjectView) (rest : GoString) : Bool :=
  !v.hasPrefixIn (rest ++ [slash]) && (parentsOf rest).all fun a => (v.files a).isNone

/-- `mcpMove`, up to the upload: the move and the bytes it copies, or nothing when the file is
already there. Collisions are looked for on a listing of its own. -/
def mcpMove (v w : ProjectView) (i : MoveIn) :
    Except ToolError (Option (MoveCall × GoString)) :=
  let (fromToken, from_) := splitMCPPath i.from_
  let (toToken, to_) := splitMCPPath i.to_
  if fromToken = [] ∨ from_ = [] ∨ toToken = [] ∨ to_ = [] then .error (.path .notAFile)
  else match env.resolveProject fromToken, env.resolveProject toToken with
  | none, _ => .error (.path (.noSuchProject fromToken))
  | _, none => .error (.path (.noSuchProject toToken))
  | some fromID, some toID =>
    if fromID ≠ toID ∨ fromID ≠ env.project then .error .otherProject
    else if from_ = to_ then .ok none
    else match v.files from_ with
      | none => .error (.path (v.notFile from_ i.from_))
      | some fi =>
        if hasSuffix (trimSpace i.to_) [slash] then .error (.trailingSlash i.to_)
        else if !w.noCollision to_ then .error (.collision i.to_)
        else match v.files to_ with
          | some victim => .error (.taken i.to_ victim.size (shortSHA victim.blob))
          | none =>
            if (maxMoveBytes : ℤ) < fi.size then .error (.tooLarge i.from_ fi.size)
            else match openFile blobs fi with
              | none => .error (.path .unavailable)
              | some content =>
                .ok (some ({ spelling := i.from_, from_, to_, read := fi.blob },
                  content.take (maxMoveBytes + 1)))

/-- `mcpDelete`, up to the requests: the files to delete. A path that ends in a slash stands for
everything under it. -/
def mcpDelete (v : ProjectView) (path : GoString) : Except ToolError (List GoString) :=
  if (splitMCPPath path).1 ≠ [] ∧ (splitMCPPath path).2 = [] then .error (.wholeProject path)
  else match v.split env path with
    | .error e => .error (.path e)
    | .ok (v, rest) =>
      if hasSuffix path [slash] then
        let targets := (pathsOf v.listed).filter fun p =>
          (v.files p).isSome && hasPrefix p (rest ++ [slash])
        if targets = [] then .error (.nothingUnder path) else .ok targets.mergeSort
      else if (v.files rest).isNone && v.hasPrefixIn (rest ++ [slash]) then
        .error (.path (.folder path))
      else .ok [rest]

end

/-! ### What the hub makes of a write -/

section

variable (env : AgentEnv) (listed : List Op) (seen : List SourcedOp) (now : Time)

/-- One op is placed after what an append has seen. -/
def AgentEnv.append (op : Op) : Option Op :=
  (stamp env.device now seen [op]).bind List.head?

/-- `handleUploadContent` for a tool: refused, unchanged, or the op that is journaled. The head is
looked up in a snapshot, and the base is held to in what the append has seen. -/
def handleUpload (p body base : GoString) : Option (Option Op) :=
  match cleanUploadPath p with
  | none => none
  | some p =>
    let head := (liveVersion listed p).map HubFileInfo.blob
    if head = some (env.hash body) then some none
    else if base ≠ [] ∧ head ≠ none ∧ head ≠ some base then none
    else
      let w := commitIf p (env.hash body) body.length env.email env.userName [] base
      if w.base.all fun b => b.holds (seen.map (·.op)) then
        (w.ops.head?.bind fun op => env.append seen now op).map some
      else none

/-- `handleRemove`: the op that is journaled, of a path the snapshot has. -/
def handleRemove (p : GoString) : Option Op :=
  match cleanUploadPath p with
  | none => none
  | some p =>
    if (liveVersion listed p).isNone then none
    else env.append seen now
      { kind := .delete, path := p, user := env.email, userName := env.userName,
        note := ascii "remove " ++ p }

end

/-! ### Calls on their way -/

/-- A call on its way: an edit to be put, a move to be put, one whose source is to be deleted, and
one that deletes. -/
inductive AgentCall where
  | editing (e : EditCall)
  | copying (m : MoveCall) (body : GoString)
  | deleting (m : MoveCall)
  | removing (m : MoveCall) (targets : List GoString)

/-- An edit that reported success, with the op it journaled if it journaled one, and what was listed
at its path before and after. -/
structure EditReport where
  edit : EditCall
  journaled : Option Op
  before : Option HubFileInfo
  after : Option HubFileInfo

/-- A project: what is journaled by anybody, what is stored under each sha, the calls on their way,
and the edits and the moves that reported success. -/
structure AgentHub (κ : Type) where
  journals : List SourcedOp := []
  blobs : GoString → Option GoString := fun _ => none
  calls : κ → Option AgentCall := fun _ => none
  edited : List EditReport := []
  moved : List MoveCall := []

/-- What can happen next. Whatever a call sees was journaled before, but it may see less than
there is. -/
inductive AgentEvent (κ : Type) where
  | journal (so : SourcedOp)
  | upload (body : GoString)
  | edit (k : κ) (v w : ProjectView) (mayWrite : GoString → Bool) (i : EditIn)
  | move (k : κ) (v w : ProjectView) (i : MoveIn)
  | put (k : κ) (listed : List Op) (seen : List SourcedOp) (now : Time)
  | list (k : κ) (v : ProjectView)
  | remove (k : κ) (listed : List Op) (seen : List SourcedOp) (now : Time)
  | fail (k : κ)

namespace AgentHub

variable {κ : Type} [DecidableEq κ]

/-- The ops of everybody. -/
def ops (s : AgentHub κ) : List Op := s.journals.map (·.op)

/-- A call goes on, or is over. -/
def set (s : AgentHub κ) (k : κ) (c : Option AgentCall) : AgentHub κ :=
  { s with calls := Function.update s.calls k c }

/-- An upload stores its content, and journals an op or none. -/
def stored (env : AgentEnv) (s : AgentHub κ) (body : GoString) : Option Op → AgentHub κ
  | none => s
  | some op => { s with
      journals := s.journals ++ [⟨op, env.device.id⟩]
      blobs := Function.update s.blobs (env.hash body) (some body) }

/-- Whether a view shows what was journaled. -/
def shows (s : AgentHub κ) (v : ProjectView) : Bool :=
  decide (v.listed.Sublist s.ops) && decide (v.ops.Sublist s.ops)

/-- The content of a call. -/
def putCall (env : AgentEnv) (s : AgentHub κ) (k : κ) (listed : List Op) (seen : List SourcedOp)
    (now : Time) : AgentCall → Option (AgentHub κ)
  | .editing e =>
    match handleUpload env listed seen now e.path e.body e.base with
    | none => some (s.set k none)
    | some op =>
      let s' := s.stored env e.body op
      let r : EditReport := ⟨e, op, liveVersion s.ops e.path, liveVersion s'.ops e.path⟩
      some { s'.set k none with edited := r :: s.edited }
  | .copying m body =>
    match handleUpload env listed seen now m.to_ body [] with
    | none => some (s.set k none)
    | some op => some ((s.stored env body op).set k
        (some (.deleting { m with
          wrote := env.hash body, touched := (op.map Op.path).toList ++ m.touched })))
  | _ => none

/-- One request of a deletion. What it finds at the source and at the destination is noted. -/
def removeCall (env : AgentEnv) (s : AgentHub κ) (k : κ) (listed : List Op)
    (seen : List SourcedOp) (now : Time) (m : MoveCall) (t : GoString) (ts : List GoString) :
    AgentHub κ :=
  match handleRemove env listed seen now t with
  | none => s.set k none
  | some op =>
    let m := { m with
      touched := op.path :: m.touched
      gone := if t = m.from_
        then some (Gone.mk (liveVersion s.ops m.from_) (liveVersion s.ops m.to_)) else m.gone }
    let s := { s with journals := s.journals ++ [SourcedOp.mk op env.device.id] }
    if ts = [] then { s.set k none with moved := m :: s.moved }
    else s.set k (some (.removing m ts))

/-- One step. A call that is refused is over. -/
def step (env : AgentEnv) (s : AgentHub κ) : AgentEvent κ → Option (AgentHub κ)
  | .journal so => some { s with journals := s.journals ++ [so] }
  | .upload body =>
    some { s with blobs := Function.update s.blobs (env.hash body) (some body) }
  | .edit k v w mayWrite i =>
    if (s.calls k).isSome || !s.shows v || !s.shows w then none
    else match mcpEdit env s.blobs v w mayWrite i with
      | .ok (some e) => some (s.set k (some (.editing e)))
      | _ => some s
  | .move k v w i =>
    if (s.calls k).isSome || !s.shows v || !s.shows w then none
    else match mcpMove env s.blobs v w i with
      | .ok (some (m, body)) => some (s.set k (some (.copying m body)))
      | _ => some s
  | .put k listed seen now =>
    if listed.Sublist s.ops ∧ seen.Sublist s.journals then
      (s.calls k).bind (s.putCall env k listed seen now)
    else none
  | .list k v =>
    match s.calls k with
    | some (.deleting m) =>
      if !s.shows v then none
      else match mcpDelete env v m.spelling with
        | .ok targets => some (s.set k (some (.removing m targets)))
        | .error _ => some (s.set k none)
    | _ => none
  | .remove k listed seen now =>
    match s.calls k with
    | some (.removing m (t :: ts)) =>
      if listed.Sublist s.ops ∧ seen.Sublist s.journals then
        some (s.removeCall env k listed seen now m t ts)
      else none
    | _ => none
  | .fail k => some (s.set k none)

/-- The content is the only one that is stored under its hash. -/
def NoClash (env : AgentEnv) (s : AgentHub κ) (body : GoString) : Prop :=
  ∀ c ∈ s.blobs (env.hash body), c = body

/-- A path holds a version. -/
def Holds (s : AgentHub κ) (p blob : GoString) : Prop :=
  (liveVersion s.ops p).map HubFileInfo.blob = some blob

/-- A file that is read is no longer than what is read of it. -/
def ReadsAll (s : AgentHub κ) (v : ProjectView) (path : GoString) (bound : ℕ) : Prop :=
  ∀ fi ∈ v.files (splitMCPPath path).2, ∀ content ∈ openFile s.blobs fi,
    content.length ≤ bound + 1

/-- A careful put. Of an edit, the path is not free, the snapshot and the append have seen what was
journaled of it, and no clock has come to its end. -/
def CarefulPut (env : AgentEnv) (s : AgentHub κ) (listed : List Op) (seen : List SourcedOp) :
    AgentCall → Prop
  | .editing e => s.NoClash env e.body ∧ (liveVersion s.ops e.path).isSome ∧
      liveVersion listed e.path = liveVersion s.ops e.path ∧
      seen.filter (fun so => so.op.path = e.path) =
        s.journals.filter (fun so => so.op.path = e.path) ∧
      ∀ so ∈ seen, so.op.lamport < maxInt64
  | .copying _ body => s.NoClash env body
  | _ => True

/-- A careful list of what to delete: a source that is spelled as a folder is none. -/
def CarefulList (v : ProjectView) : AgentCall → Prop
  | .deleting m => hasSuffix m.spelling [slash] = true → v.hasPrefixIn (m.from_ ++ [slash]) = false
  | _ => True

/-- A careful deletion: the source still holds what was read, and the destination what was put. -/
def CarefulRemove (s : AgentHub κ) : AgentCall → Prop
  | .removing m _ => s.Holds m.from_ m.read ∧ s.Holds m.to_ m.wrote
  | _ => True

/-- A careful step: contents do not clash, files are read whole, and puts and deletions are
careful. -/
def Careful (env : AgentEnv) (s : AgentHub κ) : AgentEvent κ → Prop
  | .journal _ | .fail _ => True
  | .upload body => s.NoClash env body
  | .edit _ v _ _ i => s.ReadsAll v i.path maxReadBytes
  | .move _ v _ i => s.ReadsAll v i.from_ maxMoveBytes
  | .put k listed seen _ => ∀ c ∈ s.calls k, s.CarefulPut env listed seen c
  | .list k v => ∀ c ∈ s.calls k, CarefulList v c
  | .remove k _ _ _ => ∀ c ∈ s.calls k, s.CarefulRemove c

/-- A step of any kind, and a careful one. -/
def Next (env : AgentEnv) (s s' : AgentHub κ) : Prop := ∃ ev, s.step env ev = some s'

def CarefulNext (env : AgentEnv) (s s' : AgentHub κ) : Prop :=
  ∃ ev, s.Careful env ev ∧ s.step env ev = some s'

end AgentHub

/-! ### What a report says -/

/-- An edit replaces every occurrence in a version, or the one there is, and keeps the rest. -/
def EditCall.Replaces (e : EditCall) (blobs : GoString → Option GoString) : Prop :=
  ∃ data n, blobs e.base = some data ∧ Occurrences.Replaced e.oldString e.newString n data e.body ∧ 1 ≤ n ∧
    (e.replaceAll = false → n = 1)

/-- An edit that journaled nothing found its path as asked. One that journaled a version has put its
result on the version it read, or where the path was as asked. -/
def EditReport.Right (env : AgentEnv) (blobs : GoString → Option GoString) (r : EditReport) :
    Prop :=
  r.edit.Replaces blobs ∧
    match r.journaled with
    | none => ∃ fi, r.before = some fi ∧ fi.blob = env.hash r.edit.body
    | some op => op.kind = .put ∧ op.path = r.edit.path ∧ blobs op.blob = some r.edit.body ∧
        (∃ fi, r.before = some fi ∧ (fi.blob = r.edit.base ∨ fi.blob = op.blob)) ∧
        ∃ fi, r.after = some fi ∧ fi.blob = op.blob

/-- A move found one content at its source and at its destination when it deleted the source, and
journaled no op of another path. -/
def MoveCall.Right (blobs : GoString → Option GoString) (m : MoveCall) : Prop :=
  (∃ source destination content, m.gone = some ⟨some source, some destination⟩ ∧
    blobs source.blob = some content ∧ blobs destination.blob = some content) ∧
  ∀ p ∈ m.touched, p = m.to_ ∨ p = m.from_

/-! ### What the tools have read -/

section

variable {env : AgentEnv} {blobs : GoString → Option GoString} {v w : ProjectView}

theorem split_ok {v' : ProjectView} {path rest : GoString}
    (h : v.split env path = .ok (v', rest)) : v' = v ∧ rest = (splitMCPPath path).2 := by
  rw [ProjectView.split, splitGranted] at h
  simp only at h
  by_cases hnil : (splitMCPPath path).1 = [] ∨ (splitMCPPath path).2 = []
  · rw [if_pos hnil] at h
    cases h
  rw [if_neg hnil] at h
  by_cases hproject : env.resolveProject (splitMCPPath path).1 = some env.project
  · simp only [if_pos hproject, Except.ok.injEq, Prod.mk.injEq] at h
    exact ⟨h.1.symm, h.2.symm⟩
  · simp only [if_neg hproject] at h
    cases h

theorem openFile_some {fi : HubFileInfo} {content : GoString}
    (h : openFile blobs fi = some content) : fi.blob ≠ [] ∧ blobs fi.blob = some content := by
  rw [openFile] at h
  split_ifs at h with hlink hsha
  refine ⟨?_, h⟩
  rintro hnil
  rw [hnil] at hsha
  exact absurd hsha (by decide)

/-- What is substituted: every occurrence, or the one there is. -/
theorem editText_some {i : EditIn} {data body : GoString} (hold : i.oldString ≠ [])
    (h : editText i data = .ok (some body)) : ∃ n,
      Occurrences.Replaced i.oldString i.newString n data body ∧ 1 ≤ n ∧ (i.replaceAll = false → n = 1) := by
  rw [editText] at h
  split_ifs at h with hbinary hzero hseveral hsame hreplace
  · cases h
  · cases h
    exact ⟨_, replaced_replaceAll _ hold _, Nat.pos_of_ne_zero hzero,
      fun hone => absurd hone (by simp [hreplace])⟩
  · cases h
    have hle : ¬ 1 < count i.oldString data := by simpa [hreplace] using hseveral
    have hone : count i.oldString data = 1 := by omega
    refine ⟨_, ?_, Nat.pos_of_ne_zero hzero, fun _ => hone⟩
    rw [replaceFirst_eq _ hone]
    exact replaced_replaceAll _ hold _

/-- What an edit replaces, when it reads its file whole. -/
theorem mcpEdit_some {mayWrite : GoString → Bool} {i : EditIn} {e : EditCall}
    (h : mcpEdit env blobs v w mayWrite i = .ok (some e))
    (hall : ∀ fi content, v.files (splitMCPPath i.path).2 = some fi →
      openFile blobs fi = some content → content.length ≤ maxReadBytes + 1) :
    e.base ≠ [] ∧ e.Replaces blobs := by
  rw [mcpEdit] at h
  split at h
  · cases h
  rename_i v' rest hsplit
  obtain ⟨rfl, rfl⟩ := split_ok hsplit
  by_cases hold : i.oldString = []
  · rw [if_pos hold] at h
    cases h
  rw [if_neg hold] at h
  split at h
  · cases h
  rename_i fi hfi
  split at h
  · cases h
  split at h
  · cases h
  split at h
  · cases h
  rename_i content hopen
  obtain ⟨hne, hblob⟩ := openFile_some hopen
  rw [List.take_of_length_le (hall fi content hfi hopen)] at h
  cases htext : editText i content with
  | error e =>
    rw [htext] at h
    cases h
  | ok body =>
    rw [htext] at h
    cases body with
    | none => cases h
    | some body =>
      cases h
      obtain ⟨n, hn⟩ := editText_some hold htext
      exact ⟨hne, content, n, hblob, hn⟩

/-- What a move copies, when it reads its file whole. -/
theorem mcpMove_some {i : MoveIn} {m : MoveCall} {body : GoString}
    (h : mcpMove env blobs v w i = .ok (some (m, body)))
    (hall : ∀ fi content, v.files (splitMCPPath i.from_).2 = some fi →
      openFile blobs fi = some content → content.length ≤ maxMoveBytes + 1) :
    m.from_ = (splitMCPPath m.spelling).2 ∧ m.touched = [] ∧ blobs m.read = some body := by
  rw [mcpMove] at h
  simp only at h
  split at h
  · cases h
  split at h
  · cases h
  · cases h
  split at h
  · cases h
  split at h
  · cases h
  split at h
  · cases h
  rename_i fi hfi
  split at h
  · cases h
  split at h
  · cases h
  split at h
  · cases h
  split at h
  · cases h
  split at h
  · cases h
  rename_i content hopen
  rw [List.take_of_length_le (hall fi content hfi hopen)] at h
  cases h
  exact ⟨rfl, rfl, (openFile_some hopen).2⟩

/-- A path that is no folder stands for itself. -/
theorem mcpDelete_ok {path : GoString} {targets : List GoString}
    (h : mcpDelete env v path = .ok targets) (hfile : hasSuffix path [slash] = true →
      v.hasPrefixIn ((splitMCPPath path).2 ++ [slash]) = false) :
    targets = [(splitMCPPath path).2] := by
  rw [mcpDelete] at h
  split at h
  · cases h
  split at h
  · cases h
  rename_i v' rest hsplit
  obtain ⟨rfl, rfl⟩ := split_ok hsplit
  by_cases hslash : hasSuffix path [slash] = true
  · have hnone := hfile hslash
    rw [ProjectView.hasPrefixIn, List.any_eq_false] at hnone
    have hnil : ((pathsOf v'.listed).filter fun p =>
        (v'.files p).isSome && hasPrefix p ((splitMCPPath path).2 ++ [slash])) = [] :=
      List.filter_eq_nil_iff.mpr hnone
    rw [if_pos hslash] at h
    simp only [hnil, ↓reduceIte] at h
    cases h
  · rw [if_neg hslash] at h
    split at h
    · cases h
    · cases h
      rfl

end

/-! ### What the hub has journaled -/

section

variable {env : AgentEnv} {listed : List Op} {seen : List SourcedOp} {now : Time}

/-- An op that is appended keeps what it is about, and comes after what the append has seen. -/
theorem append_some {op op' : Op} (h : env.append seen now op = some op') :
    op'.path = op.path ∧ op'.kind = op.kind ∧ op'.blob = op.blob ∧ op'.link = op.link ∧
      ((∀ so ∈ seen, so.op.lamport < maxInt64) → ∀ so ∈ seen, so.op.lamport < op'.lamport) := by
  obtain ⟨stamped, hstamp, hhead⟩ := Option.bind_eq_some_iff.mp h
  have hmem : op' ∈ stamped := List.mem_of_head? hhead
  have hmap := stamp_map (f := fun op => (op.path, op.kind, op.blob, op.link))
    (fun _ _ _ => rfl) hstamp
  have hop : (op'.path, op'.kind, op'.blob, op'.link) = (op.path, op.kind, op.blob, op.link) := by
    have := List.mem_map_of_mem (f := fun op => (op.path, op.kind, op.blob, op.link)) hmem
    rw [hmap] at this
    simpa using this
  simp only [Prod.mk.injEq] at hop
  exact ⟨hop.1, hop.2.1, hop.2.2.1, hop.2.2.2, fun hroom so hso =>
    lamport_lt_of_stamp hstamp hroom op' hmem so hso⟩

theorem cleanUploadPath_eq {p q : GoString} (h : cleanUploadPath p = some q) : q = p := by
  rw [cleanUploadPath] at h
  split_ifs at h
  exact (Option.some.inj h).symm

/-- An upload that is answered found its content there, or journals it where its base holds. -/
theorem handleUpload_some {p body base : GoString} {r : Option Op}
    (h : handleUpload env listed seen now p body base = some r) :
    (r = none ∧ (liveVersion listed p).map HubFileInfo.blob = some (env.hash body)) ∨
      ∃ op, r = some op ∧ op.path = p ∧ op.kind = .put ∧ op.link = [] ∧ op.blob = env.hash body ∧
        (base ≠ [] → CommitBase.holds ⟨p, base, env.hash body⟩ (seen.map (·.op)) = true) ∧
        ((∀ so ∈ seen, so.op.lamport < maxInt64) → ∀ so ∈ seen, so.op.lamport < op.lamport) := by
  rw [handleUpload] at h
  cases hclean : cleanUploadPath p with
  | none =>
    rw [hclean] at h
    cases h
  | some q =>
    obtain rfl := cleanUploadPath_eq hclean
    rw [hclean] at h
    simp only at h
    split_ifs at h with hhead hstale hbase
    · cases h
      exact .inl ⟨rfl, hhead⟩
    · refine .inr ?_
      obtain ⟨op, hop, rfl⟩ := Option.map_eq_some_iff.mp h
      obtain ⟨hpath, hkind, hblob, hlink, hlast⟩ := append_some hop
      refine ⟨op, rfl, hpath, hkind, hlink, hblob, fun hne => ?_, hlast⟩
      rw [commitIf, if_neg hne] at hbase
      exact hbase

theorem handleRemove_some {p : GoString} {op : Op}
    (h : handleRemove env listed seen now p = some op) : op.path = p := by
  rw [handleRemove] at h
  cases hclean : cleanUploadPath p with
  | none =>
    rw [hclean] at h
    cases h
  | some q =>
    obtain rfl := cleanUploadPath_eq hclean
    rw [hclean] at h
    simp only at h
    split_ifs at h
    exact (append_some h).1

/-- An op after all others of its path is what the path is listed with. -/
theorem liveVersion_append {all : List Op} {op : Op} (hkind : op.kind = .put) (hlink : op.link = [])
    (hblob : isBlobSHA op.blob = true)
    (hlast : ∀ o ∈ all, o.path = op.path → o.lamport < op.lamport) :
    ∃ fi, liveVersion (all ++ [op]) op.path = some fi ∧ fi.blob = op.blob := by
  have hcarried : op.carried = true := by simp [Op.carried, hblob]
  have hwins : lastOp ((all ++ [op]).filter Op.carried) op.path = some op := by
    rw [List.filter_append, List.filter_cons_of_pos hcarried, List.filter_nil, lastOp, sortOps_eq]
    refine LastWriter.last?_sort_append_winner ⟨by simp, rfl, fun o ho hpath => ?_⟩
    rcases List.mem_append.mp ho with ho | ho
    · exact (less_iff.mp (less_of_lamport (hlast o (List.mem_of_mem_filter ho) hpath))).le
    · rw [List.mem_singleton.mp ho]
  refine ⟨FileState.listed { blob := op.blob, size := op.size, mode := op.mode, link := op.link },
    ?_, by simp [FileState.listed, hlink]⟩
  rw [liveVersion_eq, hwins, Option.bind_some, Op.effect_put hkind, Option.map_some]

end

/-! ### What a careful step keeps -/

/-- What is known of a call on its way. -/
def AgentCall.Fine (blobs : GoString → Option GoString) : AgentCall → Prop
  | .editing e => e.base ≠ [] ∧ e.Replaces blobs
  | .copying m body =>
    m.from_ = (splitMCPPath m.spelling).2 ∧ m.touched = [] ∧ blobs m.read = some body
  | .deleting m => m.from_ = (splitMCPPath m.spelling).2 ∧ (∀ p ∈ m.touched, p = m.to_) ∧
      m.wrote = m.read ∧ (blobs m.read).isSome
  | .removing m targets => targets = [m.from_] ∧ (∀ p ∈ m.touched, p = m.to_) ∧
      m.wrote = m.read ∧ (blobs m.read).isSome

namespace AgentHub

variable {κ : Type} [DecidableEq κ] {env : AgentEnv} {s s' : AgentHub κ}

/-- What is known between careful steps. -/
structure Sound (env : AgentEnv) (s : AgentHub κ) : Prop where
  hashed : ∀ b c, s.blobs b = some c → env.hash c = b
  calls : ∀ k c, s.calls k = some c → c.Fine s.blobs
  edited : ∀ r ∈ s.edited, r.Right env s.blobs
  moved : ∀ m ∈ s.moved, m.Right s.blobs

omit [DecidableEq κ] in
theorem sound_empty : Sound env ({} : AgentHub κ) where
  hashed _ _ h := by cases h
  calls _ _ h := by cases h
  edited _ h := by cases h
  moved _ h := by cases h

section

variable {blobs blobs' : GoString → Option GoString}

theorem replaces_mono (h : ∀ b c, blobs b = some c → blobs' b = some c) {e : EditCall}
    (he : e.Replaces blobs) : e.Replaces blobs' := by
  obtain ⟨data, n, hdata, hrest⟩ := he
  exact ⟨data, n, h _ _ hdata, hrest⟩

theorem isSome_mono (h : ∀ b c, blobs b = some c → blobs' b = some c) {b : GoString}
    (hb : (blobs b).isSome) : (blobs' b).isSome := by
  obtain ⟨c, hc⟩ := Option.isSome_iff_exists.mp hb
  rw [h b c hc]
  rfl

theorem fine_mono (h : ∀ b c, blobs b = some c → blobs' b = some c) {c : AgentCall}
    (hc : c.Fine blobs) : c.Fine blobs' := by
  cases c with
  | editing e => exact ⟨hc.1, replaces_mono h hc.2⟩
  | copying m body => exact ⟨hc.1, hc.2.1, h _ _ hc.2.2⟩
  | deleting m => exact ⟨hc.1, hc.2.1, hc.2.2.1, isSome_mono h hc.2.2.2⟩
  | removing m targets => exact ⟨hc.1, hc.2.1, hc.2.2.1, isSome_mono h hc.2.2.2⟩

theorem report_mono (h : ∀ b c, blobs b = some c → blobs' b = some c) {r : EditReport}
    (hr : r.Right env blobs) : r.Right env blobs' := by
  obtain ⟨hreplaces, hjournaled⟩ := hr
  refine ⟨replaces_mono h hreplaces, ?_⟩
  cases hop : r.journaled with
  | none =>
    rw [hop] at hjournaled
    exact hjournaled
  | some op =>
    rw [hop] at hjournaled
    obtain ⟨hkind, hpath, hblob, hrest⟩ := hjournaled
    exact ⟨hkind, hpath, h _ _ hblob, hrest⟩

theorem moved_mono (h : ∀ b c, blobs b = some c → blobs' b = some c) {m : MoveCall}
    (hm : m.Right blobs) : m.Right blobs' := by
  obtain ⟨⟨source, destination, content, hgone, hsource, hdestination⟩, htouched⟩ := hm
  exact ⟨⟨source, destination, content, hgone, h _ _ hsource, h _ _ hdestination⟩, htouched⟩

end

omit [DecidableEq κ] in
/-- Contents that do not clash stay as they are. -/
theorem NoClash.kept {body : GoString} (h : s.NoClash env body) (b c : GoString)
    (hb : s.blobs b = some c) :
    Function.update s.blobs (env.hash body) (some body) b = some c := by
  by_cases hkey : b = env.hash body
  · subst hkey
    rw [Function.update_self, h c hb]
  · rw [Function.update_of_ne hkey, hb]

omit [DecidableEq κ] in
theorem hashed_update {blobs : GoString → Option GoString}
    (h : ∀ b c, blobs b = some c → env.hash c = b) (body b c : GoString)
    (hb : Function.update blobs (env.hash body) (some body) b = some c) : env.hash c = b := by
  by_cases hkey : b = env.hash body
  · subst hkey
    rw [Function.update_self] at hb
    rw [Option.some.inj hb]
  · rw [Function.update_of_ne hkey] at hb
    exact h b c hb

omit [DecidableEq κ] in
/-- Journals do not matter, and contents are added. -/
theorem Sound.upload (h : s.Sound env) {body : GoString} (hclash : s.NoClash env body)
    (journals : List SourcedOp) : Sound env { s with
      journals := journals
      blobs := Function.update s.blobs (env.hash body) (some body) } where
  hashed := hashed_update h.hashed body
  calls k c hc := fine_mono hclash.kept (h.calls k c hc)
  edited r hr := report_mono hclash.kept (h.edited r hr)
  moved m hm := moved_mono hclash.kept (h.moved m hm)

omit [DecidableEq κ] in
theorem Sound.journal (h : s.Sound env) (journals : List SourcedOp) :
    Sound env { s with journals := journals } where
  hashed := h.hashed
  calls := h.calls
  edited := h.edited
  moved := h.moved

/-- A call goes on when it is fine. -/
theorem Sound.set (h : s.Sound env) (k : κ) {c : Option AgentCall}
    (hc : ∀ d, c = some d → d.Fine s.blobs) : (s.set k c).Sound env where
  hashed := h.hashed
  calls j d hd := by
    change Function.update s.calls k c j = some d at hd
    by_cases hj : j = k
    · subst hj
      rw [Function.update_self] at hd
      exact hc d hd
    · rw [Function.update_of_ne hj] at hd
      exact h.calls j d hd
  edited := h.edited
  moved := h.moved

omit [DecidableEq κ] in
/-- What an upload has stored. -/
theorem Sound.stored (h : s.Sound env) {body : GoString} (hclash : s.NoClash env body)
    (op : Option Op) : (s.stored env body op).Sound env := by
  cases op with
  | none => exact h
  | some op => exact h.upload hclash _

omit [DecidableEq κ] in
theorem stored_mono {body : GoString} (hclash : s.NoClash env body) (op : Option Op)
    (b c : GoString) (hb : s.blobs b = some c) : (s.stored env body op).blobs b = some c := by
  cases op with
  | none => exact hb
  | some op => exact hclash.kept b c hb

omit [DecidableEq κ] in
/-- What an edit that is answered has done. -/
theorem edit_right {e : EditCall} {listed : List Op} {seen : List SourcedOp} {now : Time}
    {op : Option Op} (he : e.base ≠ [] ∧ e.Replaces s.blobs)
    (hcareful : s.CarefulPut env listed seen (.editing e))
    (h : handleUpload env listed seen now e.path e.body e.base = some op) :
    EditReport.Right env (s.stored env e.body op).blobs
      ⟨e, op, liveVersion s.ops e.path, liveVersion (s.stored env e.body op).ops e.path⟩ := by
  obtain ⟨hclash, hlive, hlisted, hseen, hroom⟩ := hcareful
  refine ⟨replaces_mono (stored_mono hclash op) he.2, ?_⟩
  rcases handleUpload_some h with ⟨rfl, hhead⟩ | ⟨op, rfl, hpath, hkind, hlink, hblob, hbase, hlast⟩
  · rw [hlisted] at hhead
    exact Option.map_eq_some_iff.mp hhead
  · -- The append has seen every op of the path, so its base is what is live.
    have hfilter : (seen.map (·.op)).filter (fun o => o.path = e.path) =
        s.ops.filter fun o => o.path = e.path := by
      rw [ops, List.filter_map, List.filter_map]
      exact congrArg (List.map (·.op)) hseen
    obtain ⟨fi, hfi⟩ := Option.isSome_iff_exists.mp hlive
    have hholds := hbase he.1
    let b : CommitBase := ⟨e.path, e.base, env.hash e.body⟩
    have hcongr : b.holds (seen.map (·.op)) = b.holds s.ops := holds_congr hfilter
    rw [hcongr, holds_iff] at hholds
    refine ⟨hkind, hpath, ?_, ⟨fi, hfi, hblob ▸ hholds fi hfi⟩, ?_⟩
    · rw [hblob]
      exact Function.update_self _ _ _
    · have hafter : (s.stored env e.body (some op)).ops = s.ops ++ [op] := by
        simp [AgentHub.stored, ops]
      simp only [hafter, ← hpath]
      refine liveVersion_append hkind hlink (hblob ▸ env.isBlobSHA_hash e.body) fun o ho hop => ?_
      have hmem : o ∈ s.ops.filter fun o => o.path = e.path := by
        simp [ho, hop, hpath]
      rw [← hfilter] at hmem
      obtain ⟨so, hso, rfl⟩ := List.mem_map.mp (List.mem_of_mem_filter hmem)
      exact hlast hroom so hso

/-- A put that is answered. -/
theorem Sound.putCall (h : s.Sound env) {k : κ} {c : AgentCall} {listed : List Op}
    {seen : List SourcedOp} {now : Time} (hc : c.Fine s.blobs)
    (hcareful : s.CarefulPut env listed seen c)
    (hstep : s.putCall env k listed seen now c = some s') : s'.Sound env := by
  cases c with
  | editing e =>
    rw [AgentHub.putCall] at hstep
    cases hput : handleUpload env listed seen now e.path e.body e.base with
    | none =>
      rw [hput] at hstep
      cases hstep
      exact h.set k nofun
    | some op =>
      rw [hput] at hstep
      cases hstep
      have hs := (h.stored hcareful.1 op).set (c := none) k nofun
      refine ⟨hs.hashed, hs.calls, fun r hr => ?_, hs.moved⟩
      rcases List.mem_cons.mp hr with rfl | hr
      · exact edit_right hc hcareful hput
      · exact report_mono (stored_mono hcareful.1 op) (h.edited r hr)
  | copying m body =>
    rw [AgentHub.putCall] at hstep
    cases hput : handleUpload env listed seen now m.to_ body [] with
    | none =>
      rw [hput] at hstep
      cases hstep
      exact h.set k nofun
    | some op =>
      rw [hput] at hstep
      cases hstep
      obtain ⟨hfrom, htouched, hread⟩ := hc
      refine (h.stored hcareful op).set k fun d hd => ?_
      cases hd
      refine ⟨hfrom, fun p hp => ?_, h.hashed _ _ hread,
        isSome_mono (stored_mono hcareful op) (by rw [hread]; rfl)⟩
      rcases handleUpload_some hput with ⟨rfl, -⟩ | ⟨op, rfl, hpath, -⟩
      · rw [htouched] at hp
        cases hp
      · rw [htouched] at hp
        exact (List.mem_singleton.mp hp).trans hpath
  | deleting m => cases hstep
  | removing m targets => cases hstep

/-- A deletion that is answered, of the source as it was read and the destination as it was put. -/
theorem Sound.removeCall (h : s.Sound env) {k : κ} {m : MoveCall} {t : GoString}
    {ts : List GoString} (listed : List Op) (seen : List SourcedOp) (now : Time)
    (hc : AgentCall.Fine s.blobs (.removing m (t :: ts)))
    (hcareful : s.Holds m.from_ m.read ∧ s.Holds m.to_ m.wrote) :
    (s.removeCall env k listed seen now m t ts).Sound env := by
  obtain ⟨htargets, htouched, hwrote, hread⟩ := hc
  obtain ⟨rfl, rfl⟩ := List.cons.inj htargets
  rw [AgentHub.removeCall]
  cases hremove : handleRemove env listed seen now m.from_ with
  | none => exact h.set k nofun
  | some op =>
    have hs := (h.journal (s.journals ++ [⟨op, env.device.id⟩])).set (c := none) k nofun
    refine ⟨hs.hashed, hs.calls, hs.edited, fun m' hm' => ?_⟩
    rcases List.mem_cons.mp hm' with rfl | hm'
    · obtain ⟨source, hsource, hsourceBlob⟩ := Option.map_eq_some_iff.mp hcareful.1
      obtain ⟨destination, hdestination, hdestBlob⟩ := Option.map_eq_some_iff.mp hcareful.2
      obtain ⟨content, hcontent⟩ := Option.isSome_iff_exists.mp hread
      refine ⟨⟨source, destination, content, ?_, ?_, ?_⟩, fun p hp => ?_⟩
      · simp only [↓reduceIte, hsource, hdestination]
      · rw [hsourceBlob]
        exact hcontent
      · rw [hdestBlob, hwrote]
        exact hcontent
      · rcases List.mem_cons.mp hp with rfl | hp
        · exact .inr (handleRemove_some hremove)
        · exact .inl (htouched p hp)
    · exact hs.moved m' hm'

/-- **What a careful step keeps.** -/
theorem Sound.step (h : s.Sound env) (hstep : CarefulNext env s s') : s'.Sound env := by
  obtain ⟨ev, hcareful, hstep⟩ := hstep
  cases ev with
  | journal so =>
    cases hstep
    exact h.journal _
  | upload body =>
    cases hstep
    exact h.upload hcareful _
  | edit k v w mayWrite i =>
    rw [AgentHub.step, Option.ite_none_left_eq_some] at hstep
    obtain ⟨-, hstep⟩ := hstep
    split at hstep
    · rename_i e he
      cases hstep
      refine h.set k fun d hd => ?_
      cases hd
      exact mcpEdit_some he fun fi content hfi hopen => hcareful fi hfi content hopen
    · cases hstep
      exact h
  | move k v w i =>
    rw [AgentHub.step, Option.ite_none_left_eq_some] at hstep
    obtain ⟨-, hstep⟩ := hstep
    split at hstep
    · rename_i m body hm
      cases hstep
      refine h.set k fun d hd => ?_
      cases hd
      exact mcpMove_some hm fun fi content hfi hopen => hcareful fi hfi content hopen
    · cases hstep
      exact h
  | put k listed seen now =>
    rw [AgentHub.step, Option.ite_none_right_eq_some] at hstep
    obtain ⟨-, hstep⟩ := hstep
    obtain ⟨c, hc, hstep⟩ := Option.bind_eq_some_iff.mp hstep
    exact h.putCall (h.calls k c hc) (hcareful c hc) hstep
  | list k v =>
    rw [AgentHub.step] at hstep
    split at hstep
    · rename_i m hm
      rw [Option.ite_none_left_eq_some] at hstep
      obtain ⟨-, hstep⟩ := hstep
      obtain ⟨hfrom, hrest⟩ := h.calls k _ hm
      split at hstep
      · rename_i targets htargets
        cases hstep
        refine h.set k fun d hd => ?_
        cases hd
        refine ⟨?_, hrest⟩
        rw [mcpDelete_ok htargets (hfrom ▸ hcareful _ hm), hfrom]
      · cases hstep
        exact h.set k nofun
    · cases hstep
  | remove k listed seen now =>
    rw [AgentHub.step] at hstep
    split at hstep
    · rename_i m t ts hm
      rw [Option.ite_none_right_eq_some] at hstep
      obtain ⟨-, hstep⟩ := hstep
      cases hstep
      exact h.removeCall listed seen now (h.calls k _ hm) (hcareful _ hm)
    · cases hstep
  | fail k =>
    cases hstep
    exact h.set k nofun

end AgentHub

open AgentHub

/-- **An edit or a move changes nothing but what it names**: in a run in which files are no longer
than what is read of them, an edit is put on a version that its append has seen, and the source of a
move still holds what was read when it is deleted, every edit that reports success has put the one
occurrence, or every one, in the place of the version it read, and every move has put at its
destination what its source held, and touched nothing else. -/
theorem agents_change_what_they_name {κ : Type} [DecidableEq κ] {env : AgentEnv} {s : AgentHub κ}
    (h : Relation.ReflTransGen (CarefulNext env) {} s) :
    (∀ r ∈ s.edited, r.Right env s.blobs) ∧ ∀ m ∈ s.moved, m.Right s.blobs :=
  have hs : s.Sound env := Runs.invariant h (fun _ _ hs => hs.step) sound_empty
  ⟨hs.edited, hs.moved⟩

namespace AgentHub

variable {κ : Type}

instance (env : AgentEnv) (s : AgentHub κ) (body : GoString) : Decidable (s.NoClash env body) :=
  inferInstanceAs (Decidable (∀ c ∈ s.blobs (env.hash body), c = body))

instance (s : AgentHub κ) (v : ProjectView) (path : GoString) (bound : ℕ) :
    Decidable (s.ReadsAll v path bound) :=
  inferInstanceAs (Decidable (∀ fi ∈ v.files (splitMCPPath path).2,
    ∀ content ∈ openFile s.blobs fi, content.length ≤ bound + 1))

instance (env : AgentEnv) (s : AgentHub κ) (listed : List Op) (seen : List SourcedOp) :
    (c : AgentCall) → Decidable (s.CarefulPut env listed seen c)
  | .editing _ => inferInstanceAs (Decidable (_ ∧ _ ∧ _ ∧ _ ∧ ∀ so ∈ seen, _))
  | .copying _ body => inferInstanceAs (Decidable (s.NoClash env body))
  | .deleting _ | .removing _ _ => .isTrue trivial

instance (v : ProjectView) : (c : AgentCall) → Decidable (CarefulList v c)
  | .deleting _ => inferInstanceAs (Decidable (_ → _))
  | .editing _ | .copying _ _ | .removing _ _ => .isTrue trivial

instance (s : AgentHub κ) : (c : AgentCall) → Decidable (s.CarefulRemove c)
  | .removing _ _ => inferInstanceAs (Decidable (_ = _ ∧ _ = _))
  | .editing _ | .copying _ _ | .deleting _ => .isTrue trivial

instance (env : AgentEnv) (s : AgentHub κ) : (ev : AgentEvent κ) → Decidable (s.Careful env ev)
  | .journal _ | .fail _ => .isTrue trivial
  | .upload body => inferInstanceAs (Decidable (s.NoClash env body))
  | .edit _ v _ _ i => inferInstanceAs (Decidable (s.ReadsAll v i.path maxReadBytes))
  | .move _ v _ i => inferInstanceAs (Decidable (s.ReadsAll v i.from_ maxMoveBytes))
  | .put k listed seen _ =>
    inferInstanceAs (Decidable (∀ c ∈ s.calls k, s.CarefulPut env listed seen c))
  | .list k v => inferInstanceAs (Decidable (∀ c ∈ s.calls k, CarefulList v c))
  | .remove k _ _ _ => inferInstanceAs (Decidable (∀ c ∈ s.calls k, s.CarefulRemove c))

end AgentHub

/-- A hub for which three texts have different hashes. -/
def threeTexts : AgentEnv where
  device := { id := ascii "hub" }
  project := ascii "p"
  resolveProject token := if token = ascii "p" then some token else none
  hash c := if c = ascii "one" then contentOf 0x61 else if c = ascii "two" then contentOf 0x62
    else contentOf 0x63
  isBlobSHA_hash c := by split_ifs <;> decide
  toLower := id
  sort := .insertion

/-- What a caller sees who may see everything. -/
def seesAll (ops : List Op) : ProjectView := { listed := ops, ops, canRead := fun _ => true }

/-- A file that somebody put. -/
def putFile (lamport : ℤ) (path blob : GoString) : SourcedOp :=
  ⟨putOf lamport path blob, ascii "member"⟩

/-- Steps from an empty project, careful ones or of any kind. -/
def carefulRun (evs : List (AgentEvent Unit)) : Option (AgentHub Unit) :=
  evs.foldlM (fun s ev => if s.Careful threeTexts ev then s.step threeTexts ev else none) {}

def anyRun (evs : List (AgentEvent Unit)) : Option (AgentHub Unit) :=
  evs.foldlM (AgentHub.step threeTexts) {}

/-- A file, and the version an edit of it journals. -/
def firstText : SourcedOp := putFile 1 (ascii "a") (contentOf 0x61)

def editedText : SourcedOp :=
  ⟨{ seq := 1, lamport := 2, device := ascii "hub", kind := .put, path := ascii "a",
     blob := contentOf 0x62, size := 3, mode := 0o644 }, ascii "hub"⟩

/-- A move of the file. -/
def aToB : MoveIn := ⟨ascii "/p/a", ascii "/p/b"⟩

/-- The file is edited and then moved. -/
def editThenMove : List (AgentEvent Unit) :=
  [.upload (ascii "one"), .journal firstText,
    .edit () (seesAll [firstText.op]) (seesAll [firstText.op]) (fun _ => true)
      { path := ascii "/p/a", oldString := ascii "one", newString := ascii "two" },
    .put () [firstText.op] [firstText] {},
    .move () (seesAll [firstText.op, editedText.op]) (seesAll [firstText.op, editedText.op]) aToB,
    .put () [firstText.op, editedText.op] [firstText, editedText] {},
    .list () (seesAll [firstText.op, editedText.op]),
    .remove () [firstText.op, editedText.op] [firstText, editedText] {}]

theorem editThenMove_possible : (carefulRun editThenMove).isSome = true := by decide

/-- An edit and a move that report success. -/
theorem edited_and_moved : ∃ s : AgentHub Unit, s.edited.length = 1 ∧ s.moved.length = 1 ∧
    (∀ r ∈ s.edited, r.Right threeTexts s.blobs) ∧ ∀ m ∈ s.moved, m.Right s.blobs := by
  have hrun : Relation.ReflTransGen (CarefulNext threeTexts) {}
      ((carefulRun editThenMove).get editThenMove_possible) :=
    Runs.of_events (fun _ ev _ hev => by
      rw [Option.ite_none_right_eq_some] at hev
      exact ⟨ev, hev⟩) (Runs.possible editThenMove_possible)
  exact ⟨_, by decide, by decide, agents_change_what_they_name hrun⟩

/-- A move of a file that somebody replaces before it is deleted. -/
def replacedThenDeleted : List (AgentEvent Unit) :=
  [.upload (ascii "one"), .journal firstText, .upload (ascii "two"),
    .move () (seesAll [firstText.op]) (seesAll [firstText.op]) aToB,
    .put () [firstText.op] [firstText] {}, .journal (putFile 2 (ascii "a") (contentOf 0x62)),
    .list () (seesAll [firstText.op]), .remove () [firstText.op] [firstText] {}]

theorem replacedThenDeleted_possible : (anyRun replacedThenDeleted).isSome = true := by decide

/-- A version that a move never read is deleted by it, and is not at its destination. -/
theorem unread_version_deleted : ¬ ∀ s : AgentHub Unit,
    Relation.ReflTransGen (Next threeTexts) {} s →
      (∀ r ∈ s.edited, r.Right threeTexts s.blobs) ∧ ∀ m ∈ s.moved, m.Right s.blobs := by
  intro h
  have hrun : Relation.ReflTransGen (Next threeTexts) {}
      ((anyRun replacedThenDeleted).get replacedThenDeleted_possible) :=
    Runs.of_events (fun _ ev _ hev => ⟨ev, hev⟩) (Runs.possible replacedThenDeleted_possible)
  set s := (anyRun replacedThenDeleted).get replacedThenDeleted_possible with hs
  have hmoved : s.moved.map (fun m => (m.gone.bind Gone.source).bind fun fi => s.blobs fi.blob) =
      [some (ascii "two")] := by rw [hs]; decide
  have hput : s.moved.map (fun m => (m.gone.bind Gone.destination).bind fun fi =>
      s.blobs fi.blob) = [some (ascii "one")] := by rw [hs]; decide
  obtain ⟨m, hm⟩ := List.exists_mem_of_ne_nil s.moved (by rintro heq; simp [heq] at hmoved)
  obtain ⟨⟨source, destination, content, hgone, hsource, hdestination⟩, -⟩ := (h s hrun).2 m hm
  have htwo := List.mem_map_of_mem
    (f := fun m : MoveCall => (m.gone.bind Gone.source).bind fun fi => s.blobs fi.blob) hm
  have hone := List.mem_map_of_mem
    (f := fun m : MoveCall => (m.gone.bind Gone.destination).bind fun fi => s.blobs fi.blob) hm
  rw [hmoved, List.mem_singleton] at htwo
  rw [hput, List.mem_singleton] at hone
  simp only [hgone, Option.bind_some, hsource, hdestination] at htwo hone
  exact absurd (htwo.symm.trans hone) (by decide)

end Beardrive
