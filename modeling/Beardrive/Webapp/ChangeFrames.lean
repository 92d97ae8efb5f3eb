import Beardrive.Journal.Wire
import Beardrive.Lib.JsonFields
import Beardrive.Webapp.Folders

/-!
# What a change frame tells its reader

A write is announced to everyone listening on its project with one frame, encoded once. What each
reader may see of it is cut on the way out: the frame is decoded, the paths the reader cannot read
are taken out, and the counts with them, which counted those too.

A decoded path is not always the one that was encoded. Journals carry a path that is not valid UTF-8
byte for byte beside its text; a frame carries the text alone, and the text of such a path is
another path's. The rules are asked about that one.

A frame stands here for the value its text is parsed to.

## Main definitions

* `ChangeEvent`, `ChangeEvent.marshal`, `unmarshalEvent` — a frame, and what is read back from it
* `Published` — the places that publish, and what each counts
* `PathFilter`, `frameFor` — what one reader is sent
* `ChangeEvent.Told`, `ChangeEvent.Faithful` — what a reader is to be told, and when it is

## Main results

* `unmarshalEvent_marshal` — every frame is read back with its paths made valid
* `told_iff` — when exactly a reader is told what it is to be told
-/

namespace Beardrive

/-! ### Frames -/

/-- What a frame is about. -/
inductive EventType where
  | change
  | comments
  | presence
  | scope
  | resync
  | other (text : GoString)
  deriving DecidableEq, Repr

/-- How it is spelled. -/
def EventType.text : EventType → GoString
  | change => ascii "change"
  | comments => ascii "comments"
  | presence => ascii "presence"
  | scope => ascii "scope"
  | resync => ascii "resync"
  | other text => text

/-- What a text says a frame is about. -/
def EventType.ofText (text : GoString) : EventType :=
  if text = ascii "change" then change
  else if text = ascii "comments" then comments
  else if text = ascii "presence" then presence
  else if text = ascii "scope" then scope
  else if text = ascii "resync" then resync
  else other text

/-- Somebody in the project, and the file they have open. -/
structure Person where
  name : GoString := []
  path : GoString := []
  deriving DecidableEq, Repr

/-- One frame. -/
structure ChangeEvent where
  type : EventType := .other []
  people : List Person := []
  paths : List GoString := []
  more : Bool := false
  puts : ℕ := 0
  deletes : ℕ := 0
  source : GoString := []
  device : GoString := []
  deriving DecidableEq, Repr

/-- The members of a person's object. -/
def Person.members (p : Person) : List (GoString × Json) :=
  [stringMember "name" p.name] ++ omitZero [] (stringMember "path") p.path

/-- A string in an array. -/
def stringItem (s : GoString) : Json := .str (quoteBody s)

def peopleMember (people : List Person) : GoString × Json :=
  (ascii "people", .arr (people.map fun p => .obj p.members))

def pathsMember (paths : List GoString) : GoString × Json :=
  (ascii "paths", .arr (paths.map stringItem))

def countMember (key : String) (n : ℕ) : GoString × Json := (ascii key, .num (decimal n))

/-- The members of a frame's object. -/
def ChangeEvent.members (ev : ChangeEvent) : List (GoString × Json) :=
  [stringMember "type" ev.type.text] ++
  omitZero [] peopleMember ev.people ++
  omitZero [] pathsMember ev.paths ++
  omitZero false (fun more => (ascii "more", .bool more)) ev.more ++
  omitZero 0 (countMember "puts") ev.puts ++
  omitZero 0 (countMember "deletes") ev.deletes ++
  omitZero [] (stringMember "source") ev.source ++
  omitZero [] (stringMember "device") ev.device

/-- `json.Marshal`. -/
def ChangeEvent.marshal (ev : ChangeEvent) : Json := .obj ev.members

/-- A `bool` field that held `old`. -/
def readBool (old : Bool) : Json → Option Bool
  | .null => some old
  | .bool b => some b
  | _ => none

/-- A count that was `old`. -/
def readCount (old : ℕ) : Json → Option ℕ
  | .null => some old
  | .num text => if text ≠ [] ∧ text.all digitByte then some (natOfDigits text) else none
  | _ => none

def Person.fields : FieldTable Person :=
  [(ascii "name", fun p v => (readString p.name v).map fun x => { p with name := x }),
    (ascii "path", fun p v => (readString p.path v).map fun x => { p with path := x })]

def ChangeEvent.fields : FieldTable ChangeEvent :=
  [(ascii "type",
      fun ev v => (readString ev.type.text v).map fun x => { ev with type := .ofText x }),
    (ascii "people",
      fun ev v => (readArray (Person.fields.read {}) v).map fun x => { ev with people := x }),
    (ascii "paths",
      fun ev v => (readArray (readString []) v).map fun x => { ev with paths := x }),
    (ascii "more", fun ev v => (readBool ev.more v).map fun x => { ev with more := x }),
    (ascii "puts", fun ev v => (readCount ev.puts v).map fun x => { ev with puts := x }),
    (ascii "deletes", fun ev v => (readCount ev.deletes v).map fun x => { ev with deletes := x }),
    (ascii "source", fun ev v => (readString ev.source v).map fun x => { ev with source := x }),
    (ascii "device", fun ev v => (readString ev.device v).map fun x => { ev with device := x })]

/-- `json.Unmarshal` into a `changeEvent`. -/
def unmarshalEvent (frame : Json) : Option ChangeEvent := ChangeEvent.fields.read {} frame

/-- The paths a frame names: those that changed, and those people have open. -/
def ChangeEvent.named (ev : ChangeEvent) : List GoString :=
  ev.paths ++ (ev.people.map Person.path).filter (· ≠ [])

/-! ### Who is sent what -/

/-- A reader's view of a project: `off` where nothing is hidden from it. -/
structure PathFilter where
  folders : List FolderRule := []
  email : GoString := []
  base : Level := .unset
  on : Bool := false

/-- Whether this account may see a path at all. -/
def PathFilter.canRead (vis : PathFilter) (path : GoString) : Bool :=
  !vis.on || atLeast (folderLevel vis.folders vis.email path vis.base) .read

def PathFilter.hides (vis : PathFilter) : Bool := vis.on

/-- A person on a file the reader cannot read. -/
def Person.concealed (vis : PathFilter) (p : Person) : Bool := p.path ≠ [] && !vis.canRead p.path

/-- A roster as one reader may see it, and whether anything of it was blanked. -/
def visiblePeople (people : List Person) (vis : PathFilter) : List Person × Bool :=
  if !vis.hides then (people, false)
  else if people.any (Person.concealed vis) then
    (people.map fun p => if p.concealed vis then { p with path := [] } else p, true)
  else (people, false)

/-- The frame one subscriber may see, if it may see one at all. -/
def frameFor (frame : Json) (vis : PathFilter) : Option Json :=
  if !vis.hides then some frame
  else match unmarshalEvent frame with
    | none => none
    | some ev =>
      match ev.type with
      | .change =>
        let kept := ev.paths.filter vis.canRead
        if kept.length = ev.paths.length ∧ ev.more = false then some frame
        else if kept.length = 0 ∧ ev.more = false then none
        else some { ev with paths := kept, puts := 0, deletes := 0 }.marshal
      | .comments => if ev.paths.all vis.canRead then some frame else none
      | .presence =>
        let (people, changed) := visiblePeople ev.people vis
        if !changed then some frame else some { ev with people }.marshal
      | _ => some frame

/-! ### What is published -/

/-- `eventPathLimit`. -/
def eventPathLimit : ℕ := 64

/-- The paths of some ops, each where it is first seen. -/
def firstPaths : List GoString → List Op → List GoString
  | _, [] => []
  | seen, op :: ops =>
    if op.path ∈ seen then firstPaths seen ops else op.path :: firstPaths (op.path :: seen) ops

/-- The ops of a push that the hub did not have. -/
def newOps (ops : List Op) (storedMax : ℤ) : List Op := ops.filter fun op => storedMax < op.seq

/-- `newOpPaths`. -/
def newOpPaths (ops : List Op) (storedMax : ℤ) : List GoString :=
  firstPaths [] (newOps ops storedMax)

/-- The ops of one kind. -/
def opsOf (kind : Kind) (ops : List Op) : List Op := ops.filter fun op => op.kind = kind

/-- `countOps`: the puts and the deletes. -/
def countOps (ops : List Op) (storedMax : ℤ) : ℕ × ℕ :=
  ((opsOf .put (newOps ops storedMax)).length, (opsOf .delete (newOps ops storedMax)).length)

/-- `undoTotals`: the puts, the deletes and the paths of a run that was undone. -/
def undoTotals (ops : List Op) : ℕ × ℕ × List GoString :=
  ((opsOf .put ops).length, (opsOf .delete ops).length, firstPaths [] ops)

/-- The frame of a change, if anything changed. -/
def changeEventFor (device source : GoString) (paths : List GoString) (puts deletes : ℕ) :
    Option ChangeEvent :=
  if puts + deletes = 0 then none
  else
    let ev : ChangeEvent := { type := .change, puts, deletes, source, device }
    if eventPathLimit < paths.length then
      some { ev with more := true, paths := paths.take eventPathLimit }
    else some { ev with paths }

/-- The places that publish. -/
inductive Published where
  /-- A device has pushed a journal, of which the hub had the ops up to `storedMax`. -/
  | sync (device : GoString) (ops : List Op) (storedMax : ℤ)
  /-- One file was put or deleted here: an upload, a restore, a removal. -/
  | browser (device path : GoString) (kind : Kind)
  /-- A run was undone. -/
  | undo (device : GoString) (ops : List Op)
  /-- Another process has written what the room of a file says. -/
  | collab (path : GoString)
  /-- The comments of a file have moved. -/
  | comments (path : GoString)
  /-- The roster has moved. -/
  | presence (people : List Person)
  /-- The rules of the project, or who is in it, have moved. -/
  | scope
  /-- A relay has had a frame that it would not carry. -/
  | resync

/-- The frame that is published, if any. -/
def Published.event : Published → Option ChangeEvent
  | sync device ops storedMax =>
    let (puts, deletes) := countOps ops storedMax
    changeEventFor device (ascii "sync") (newOpPaths ops storedMax) puts deletes
  | browser device path .put => changeEventFor device (ascii "browser") [path] 1 0
  | browser device path .delete => changeEventFor device (ascii "browser") [path] 0 1
  | undo device ops =>
    let (puts, deletes, paths) := undoTotals ops
    changeEventFor device (ascii "browser") paths puts deletes
  | collab path => some { type := .change, puts := 1, source := ascii "collab", paths := [path] }
  | comments path => some { type := .comments, paths := if path = [] then [] else [path] }
  | presence people => some { type := .presence, people }
  | scope => some { type := .scope }
  | resync => some { type := .resync }

/-- The paths of the changes of one kind that were made, one for each change. -/
def Published.changed (kind : Kind) : Published → List GoString
  | sync _ ops storedMax => (opsOf kind (newOps ops storedMax)).map Op.path
  | browser _ path kind' => if kind' = kind then [path] else []
  | undo _ ops => (opsOf kind ops).map Op.path
  | collab path => if kind = .put then [path] else []
  | _ => []

/-! ### What is read back -/

/-- A person as a reader of the frame has them. -/
def Person.wire (p : Person) : Person := { name := toValid p.name, path := toValid p.path }

/-- A frame as its reader has it. -/
def ChangeEvent.wire (ev : ChangeEvent) : ChangeEvent :=
  { ev with
    type := .ofText (toValid ev.type.text), people := ev.people.map Person.wire,
    paths := ev.paths.map toValid, source := toValid ev.source, device := toValid ev.device }

/-- Only the empty string is made empty. -/
theorem toValid_eq_nil_iff {s : GoString} : toValid s = [] ↔ s = [] := by
  constructor
  · intro hnil
    cases s with
    | nil => rfl
    | cons b s =>
      rw [toValid, runes_cons, List.flatMap_cons, List.append_eq_nil_iff] at hnil
      have hrune := hnil.1
      unfold encodeRune at hrune
      split_ifs at hrune
  · rintro rfl
    rfl

/-- A string comes back made valid. -/
theorem readString_stringItem (old s : GoString) :
    readString old (stringItem s) = some (toValid s) := unquote_quoteBody s

/-- A count comes back as it was. -/
theorem readCount_decimal (old n : ℕ) : readCount old (.num (decimal n)) = some n := by
  obtain ⟨d, rest, heq, -⟩ := decimal_cons n
  have hne : decimal n ≠ [] := by simp [heq]
  have hdigits : (decimal n).all digitByte = true :=
    List.all_eq_true.mpr fun _ hb => digitByte_of_mem_decimal hb
  rw [readCount, if_pos ⟨hne, hdigits⟩, natOfDigits_decimal]

/-- A person comes back with their path made valid. -/
theorem Person.read_members (p : Person) :
    Person.fields.read {} (.obj p.members) = some p.wire := by
  have hname : Person.fields.assign {} (stringMember "name" p.name)
      = some { name := toValid p.name } := by
    rw [stringMember, FieldTable.assign_of_lookup (k := ascii "name") rfl rfl]
    exact congrArg (Option.map _) (readString_stringItem _ _)
  have hpath : (omitZero [] (stringMember "path") p.path).foldlM Person.fields.assign
      { name := toValid p.name } = some p.wire :=
    FieldTable.foldlM_field (k := ascii "path") rfl rfl
      (congrArg (Option.map _) (readString_stringItem _ _)) fun h => by rw [Person.wire, h]; rfl
  rw [FieldTable.read, Person.members, List.foldlM_append, List.foldlM_cons, hname]
  exact hpath

section

variable (ev : ChangeEvent) {w : ChangeEvent}

theorem foldlM_people (hw : w.people = []) :
    (omitZero [] peopleMember ev.people).foldlM ChangeEvent.fields.assign w
      = some { w with people := ev.people.map Person.wire } :=
  FieldTable.foldlM_field (k := ascii "people") rfl rfl
    (congrArg (Option.map _) (readArray_map Person.read_members ev.people))
    fun h => by rw [h, List.map_nil, ← hw]

theorem foldlM_paths (hw : w.paths = []) :
    (omitZero [] pathsMember ev.paths).foldlM ChangeEvent.fields.assign w
      = some { w with paths := ev.paths.map toValid } :=
  FieldTable.foldlM_field (k := ascii "paths") rfl rfl
    (congrArg (Option.map _) (readArray_map (readString_stringItem []) ev.paths))
    fun h => by rw [h, List.map_nil, ← hw]

theorem foldlM_more (hw : w.more = false) :
    (omitZero false (fun more => (ascii "more", .bool more)) ev.more).foldlM
      ChangeEvent.fields.assign w = some { w with more := ev.more } :=
  FieldTable.foldlM_field (k := ascii "more") rfl rfl rfl fun h => by rw [h, ← hw]

/-- The counts. -/
theorem foldlM_count {k : String} {get : ChangeEvent → ℕ} {g : ChangeEvent → ℕ → ChangeEvent}
    (hkey : unquote (ascii k) = some (ascii k))
    (hfield : ChangeEvent.fields.lookup (ascii k)
      = some fun ev v => (readCount (get ev) v).map (g ev))
    (hset : ∀ w, g w (get w) = w) (hw : get w = 0) (n : ℕ) :
    (omitZero 0 (countMember k) n).foldlM ChangeEvent.fields.assign w = some (g w n) :=
  FieldTable.foldlM_field hkey hfield (congrArg (Option.map _) (readCount_decimal _ n))
    fun h => by rw [h, ← hw, hset]

/-- The strings. -/
theorem foldlM_string {k : String} {get : ChangeEvent → GoString}
    {g : ChangeEvent → GoString → ChangeEvent} (hkey : unquote (ascii k) = some (ascii k))
    (hfield : ChangeEvent.fields.lookup (ascii k)
      = some fun ev v => (readString (get ev) v).map (g ev))
    (hset : ∀ w, g w (get w) = w) (hw : get w = []) (s : GoString) :
    (omitZero [] (stringMember k) s).foldlM ChangeEvent.fields.assign w
      = some (g w (toValid s)) :=
  FieldTable.foldlM_field hkey hfield (congrArg (Option.map _) (readString_stringItem _ s))
    fun h => by rw [toValid_eq_nil_iff.mpr h, ← hw, hset]

/-- **Every frame is read back**, with its paths made valid. -/
theorem unmarshalEvent_marshal : unmarshalEvent ev.marshal = some ev.wire := by
  have htype : ChangeEvent.fields.assign {} (stringMember "type" ev.type.text)
      = some { type := .ofText (toValid ev.type.text) } := by
    rw [stringMember, FieldTable.assign_of_lookup (k := ascii "type") rfl rfl]
    exact congrArg (Option.map _) (readString_stringItem _ _)
  have hputs (w : ChangeEvent) (hw : w.puts = 0) (n : ℕ) :=
    foldlM_count (g := fun w x => { w with puts := x }) (k := "puts") rfl rfl (fun _ => rfl) hw n
  have hdeletes (w : ChangeEvent) (hw : w.deletes = 0) (n : ℕ) :=
    foldlM_count (g := fun w x => { w with deletes := x }) (k := "deletes") rfl rfl
      (fun _ => rfl) hw n
  have hsource (w : ChangeEvent) (hw : w.source = []) (s : GoString) :=
    foldlM_string (g := fun w x => { w with source := x }) (k := "source") rfl rfl
      (fun _ => rfl) hw s
  have hdevice (w : ChangeEvent) (hw : w.device = []) (s : GoString) :=
    foldlM_string (g := fun w x => { w with device := x }) (k := "device") rfl rfl
      (fun _ => rfl) hw s
  rw [unmarshalEvent, ChangeEvent.marshal, FieldTable.read, ChangeEvent.members]
  simp only [List.foldlM_append, List.foldlM_cons, List.foldlM_nil, htype, foldlM_people,
    foldlM_paths, foldlM_more, hputs, hdeletes, hsource, hdevice, Option.bind_eq_bind,
    Option.bind_some, Option.pure_def]
  rfl

end

/-! ### What a reader is told -/

/-- **A reader is told of what it may read, and of nothing else**: of a frame that is sent, no path
it shows is hidden, nor is any of the paths it is the text of, and what it counts are changes the
reader may read; and the frame of a change that is not sent has nothing for this reader. -/
structure Published.Told (p : Published) (ev : ChangeEvent) (vis : PathFilter) : Prop where
  shown : ∀ out said, frameFor ev.marshal vis = some out → unmarshalEvent out = some said →
    ∀ q ∈ said.named, vis.canRead q
  named : ∀ out said, frameFor ev.marshal vis = some out → unmarshalEvent out = some said →
    ∀ q ∈ ev.named, toValid q ∈ said.named → vis.canRead q
  puts : ∀ out said, frameFor ev.marshal vis = some out → unmarshalEvent out = some said →
    said.puts ≠ 0 → ∀ q ∈ p.changed .put, vis.canRead q
  deletes : ∀ out said, frameFor ev.marshal vis = some out → unmarshalEvent out = some said →
    said.deletes ≠ 0 → ∀ q ∈ p.changed .delete, vis.canRead q
  dropped : ev.type = .change → frameFor ev.marshal vis = none →
    ev.more = false ∧ ∀ q ∈ ev.paths, ¬ vis.canRead q

/-- The rules answer for the text of a path as they do for the path: a path whose text may be read
may be read, and a change that is nowhere to be read by its texts is nowhere to be read. -/
structure ChangeEvent.Faithful (ev : ChangeEvent) (vis : PathFilter) : Prop where
  named : ∀ q ∈ ev.named, vis.canRead (toValid q) → vis.canRead q
  paths : ev.type = .change → ev.more = false → (∀ q ∈ ev.paths, ¬ vis.canRead (toValid q)) →
    ∀ q ∈ ev.paths, ¬ vis.canRead q

/-- What the frames that are published have in common. -/
structure Published.Shape (p : Published) (ev : ChangeEvent) : Prop where
  wire : ev.wire.type = ev.type
  type : ev.type = .change ∨ ev.type = .comments ∨ ev.type = .presence ∨
    ev.type = .scope ∨ ev.type = .resync
  people : ev.type ≠ .presence → ev.people = []
  paths : ev.type ≠ .change → ev.type ≠ .comments → ev.paths = []
  comments : ev.type = .comments → ev.paths.length ≤ 1
  puts : ev.puts = (p.changed .put).length
  deletes : ev.deletes = (p.changed .delete).length
  counts : ev.type ≠ .change → ev.puts = 0 ∧ ev.deletes = 0
  changed : ev.more = false → ∀ kind, ∀ q ∈ p.changed kind, q ∈ ev.paths

theorem mem_firstPaths {q : GoString} {seen : List GoString} {ops : List Op} :
    q ∈ firstPaths seen ops ↔ q ∉ seen ∧ q ∈ ops.map Op.path := by
  induction ops generalizing seen with
  | nil => simp [firstPaths]
  | cons op ops ih =>
    rw [firstPaths, List.map_cons, List.mem_cons]
    split_ifs with hseen
    · rw [ih]
      constructor
      · exact fun ⟨hq, hmem⟩ => ⟨hq, .inr hmem⟩
      · rintro ⟨hq, rfl | hmem⟩
        · exact absurd hseen hq
        · exact ⟨hq, hmem⟩
    · rw [List.mem_cons, ih, List.mem_cons, not_or]
      constructor
      · rintro (rfl | ⟨⟨-, hq⟩, hmem⟩)
        · exact ⟨hseen, .inl rfl⟩
        · exact ⟨hq, .inr hmem⟩
      · rintro ⟨hq, rfl | hmem⟩
        · exact .inl rfl
        · by_cases heq : q = op.path
          · exact .inl heq
          · exact .inr ⟨⟨heq, hq⟩, hmem⟩

/-- The path of a change is one of those listed. -/
theorem mem_firstPaths_of_changed {q : GoString} {kind : Kind} {ops : List Op}
    (h : q ∈ (opsOf kind ops).map Op.path) : q ∈ firstPaths [] ops := by
  rw [mem_firstPaths]
  exact ⟨List.not_mem_nil, List.map_subset _ (List.filter_subset_self _) h⟩

/-- What `changeEventFor` makes of a change. -/
theorem changeEventFor_some {device source : GoString} {paths : List GoString} {puts deletes : ℕ}
    {ev : ChangeEvent} (h : changeEventFor device source paths puts deletes = some ev) :
    ev.type = .change ∧ ev.people = [] ∧ ev.puts = puts ∧ ev.deletes = deletes ∧
      (ev.more = false → ev.paths = paths) := by
  unfold changeEventFor at h
  split_ifs at h
  · cases h
    exact ⟨rfl, rfl, rfl, rfl, nofun⟩
  · cases h
    exact ⟨rfl, rfl, rfl, rfl, fun _ => rfl⟩

/-- The frame of a change, of whose paths none is left out. -/
theorem Published.Shape.of_change {p : Published} {device source : GoString}
    {paths : List GoString} {puts deletes : ℕ} {ev : ChangeEvent}
    (h : changeEventFor device source paths puts deletes = some ev)
    (hputs : puts = (p.changed .put).length) (hdeletes : deletes = (p.changed .delete).length)
    (hchanged : ∀ kind, ∀ q ∈ p.changed kind, q ∈ paths) : p.Shape ev := by
  obtain ⟨htype, hpeople, hp, hd, hpaths⟩ := changeEventFor_some h
  refine ⟨?_, .inl htype, fun _ => hpeople, fun hne => absurd htype hne, ?_, hp.trans hputs,
    hd.trans hdeletes, fun hne => absurd htype hne,
    fun hmore kind q hq => hpaths hmore ▸ hchanged kind q hq⟩
  · rw [ChangeEvent.wire, htype]
    rfl
  · intro hcomments
    rw [htype] at hcomments
    cases hcomments

/-- Everything that is published has this shape. -/
theorem Published.shape {p : Published} {ev : ChangeEvent} (h : p.event = some ev) :
    p.Shape ev := by
  cases p with
  | sync device ops storedMax =>
    refine .of_change h ?_ ?_ fun kind q hq => mem_firstPaths_of_changed hq
    · exact (List.length_map _).symm
    · exact (List.length_map _).symm
  | browser device path kind =>
    cases kind with
    | put => exact .of_change h rfl rfl fun kind q hq => by cases kind <;> simp_all [changed]
    | delete => exact .of_change h rfl rfl fun kind q hq => by cases kind <;> simp_all [changed]
  | undo device ops =>
    refine .of_change h ?_ ?_ fun kind q hq => mem_firstPaths_of_changed hq
    · exact (List.length_map _).symm
    · exact (List.length_map _).symm
  | collab path =>
    cases h
    refine ⟨rfl, .inl rfl, fun _ => rfl, fun hne => absurd rfl hne, nofun, rfl, rfl,
      fun hne => absurd rfl hne, ?_⟩
    intro _ kind q hq
    cases kind <;> simp_all [changed]
  | comments path =>
    cases h
    refine ⟨rfl, .inr (.inl rfl), fun _ => rfl, fun _ hne => absurd rfl hne, fun _ => ?_, rfl, rfl,
      fun _ => ⟨rfl, rfl⟩, fun _ _ => nofun⟩
    dsimp only
    split_ifs <;> simp
  | presence people =>
    cases h
    exact ⟨rfl, .inr (.inr (.inl rfl)), fun hne => absurd rfl hne, fun _ _ => rfl, nofun, rfl, rfl,
      fun _ => ⟨rfl, rfl⟩, fun _ _ => nofun⟩
  | scope =>
    cases h
    exact ⟨rfl, .inr (.inr (.inr (.inl rfl))), fun _ => rfl, fun _ _ => rfl, nofun, rfl, rfl,
      fun _ => ⟨rfl, rfl⟩, fun _ _ => nofun⟩
  | resync =>
    cases h
    exact ⟨rfl, .inr (.inr (.inr (.inr rfl))), fun _ => rfl, fun _ _ => rfl, nofun, rfl, rfl,
      fun _ => ⟨rfl, rfl⟩, fun _ _ => nofun⟩

/-! ### What is sent -/

theorem PathFilter.canRead_of_off {vis : PathFilter} (h : vis.hides = false) (q : GoString) :
    vis.canRead q = true := by
  rw [hides] at h
  rw [canRead, h]
  rfl

/-- A frame is read back as naming the texts of the paths it names. -/
theorem ChangeEvent.named_wire (ev : ChangeEvent) : ev.wire.named = ev.named.map toValid := by
  have hpeople (people : List Person) :
      ((people.map Person.wire).map Person.path).filter (· ≠ [])
        = ((people.map Person.path).filter (· ≠ [])).map toValid := by
    rw [List.map_map, List.filter_map, List.filter_map, List.map_map]
    refine congrArg _ ?_
    refine List.filter_congr fun p _ => ?_
    simp [Person.wire, toValid_eq_nil_iff]
  rw [named, named, List.map_append, wire]
  exact congrArg _ (hpeople ev.people)

/-- The paths that are kept are texts already. -/
theorem map_toValid_filter (paths : List GoString) (f : GoString → Bool) :
    ((paths.map toValid).filter f).map toValid = (paths.map toValid).filter f := by
  rw [List.filter_map, List.map_map]
  exact List.map_congr_left fun q _ => toValid_toValid q

namespace Published.Shape

variable {p : Published} {ev : ChangeEvent} {vis : PathFilter} (hs : p.Shape ev)

include hs

/-- What a reader is sent of a change. -/
theorem frameFor_change (htype : ev.type = .change) (hon : vis.hides = true) :
    frameFor ev.marshal vis =
      if (∀ q ∈ ev.paths, vis.canRead (toValid q)) ∧ ev.more = false then some ev.marshal
      else if (∀ q ∈ ev.paths, ¬ vis.canRead (toValid q)) ∧ ev.more = false then none
      else some { ev.wire with
        paths := (ev.paths.map toValid).filter vis.canRead, puts := 0, deletes := 0 }.marshal := by
  have hwire : ev.wire.type = .change := hs.wire.trans htype
  have hall : ((ev.paths.map toValid).filter vis.canRead).length = (ev.paths.map toValid).length ↔
      ∀ q ∈ ev.paths, vis.canRead (toValid q) := by
    rw [List.length_filter_eq_length_iff, List.forall_mem_map]
  have hnone : ((ev.paths.map toValid).filter vis.canRead).length = 0 ↔
      ∀ q ∈ ev.paths, ¬ vis.canRead (toValid q) := by
    rw [List.length_eq_zero_iff, List.filter_eq_nil_iff, List.forall_mem_map]
  unfold frameFor
  rw [if_neg (by rw [hon]; decide), unmarshalEvent_marshal]
  dsimp only
  rw [hwire]
  dsimp only
  simp only [ChangeEvent.wire, hall, hnone]

/-- What a reader is sent of comments. -/
theorem frameFor_comments (htype : ev.type = .comments) (hon : vis.hides = true) :
    frameFor ev.marshal vis =
      if ∀ q ∈ ev.paths, vis.canRead (toValid q) then some ev.marshal else none := by
  have hwire : ev.wire.type = .comments := hs.wire.trans htype
  unfold frameFor
  rw [if_neg (by rw [hon]; decide), unmarshalEvent_marshal]
  dsimp only
  rw [hwire]
  simp only [ChangeEvent.wire, List.all_map, List.all_eq_true, Function.comp]

/-- What a reader is sent of a roster. -/
theorem frameFor_presence (htype : ev.type = .presence) (hon : vis.hides = true) :
    frameFor ev.marshal vis =
      some (if ev.wire.people.any (Person.concealed vis) then
        { ev.wire with people := (visiblePeople ev.wire.people vis).1 }.marshal
        else ev.marshal) := by
  have hwire : ev.wire.type = .presence := hs.wire.trans htype
  have hoff : (!vis.hides) = false := by rw [hon]; rfl
  unfold frameFor
  rw [unmarshalEvent_marshal]
  dsimp only
  rw [hwire]
  dsimp only
  unfold visiblePeople
  rw [hoff, if_neg Bool.false_ne_true, if_neg Bool.false_ne_true]
  by_cases hany : ev.wire.people.any (Person.concealed vis) = true
  · simp only [if_pos hany]
    rfl
  · simp only [if_neg hany]
    rfl

/-- Every reader is sent a frame that names nothing. -/
theorem frameFor_rest (htype : ev.type = .scope ∨ ev.type = .resync) :
    frameFor ev.marshal vis = some ev.marshal := by
  unfold frameFor
  split_ifs
  · rfl
  · rw [unmarshalEvent_marshal]
    dsimp only
    rw [hs.wire]
    rcases htype with htype | htype <;> rw [htype]

end Published.Shape

/-- A person as one reader may see them. -/
def Person.seen (vis : PathFilter) (p : Person) : Person :=
  if p.concealed vis then { p with path := [] } else p

theorem visiblePeople_eq {vis : PathFilter} (hon : vis.hides = true) (people : List Person) :
    (visiblePeople people vis).1 = people.map (Person.seen vis) := by
  have hoff : (!vis.hides) = false := by rw [hon]; rfl
  rw [visiblePeople, hoff, if_neg Bool.false_ne_true]
  split_ifs with hany
  · rfl
  · rw [Bool.not_eq_true, List.any_eq_false] at hany
    conv_lhs => rw [← List.map_id people]
    exact List.map_congr_left fun p hp => (if_neg (hany p hp)).symm

/-- A person is seen on a file if the reader can read it. -/
theorem filter_seen (vis : PathFilter) (people : List Person) :
    (((people.map Person.wire).map (Person.seen vis)).map Person.path).filter (· ≠ [])
      = (((people.map Person.path).filter (· ≠ [])).map toValid).filter vis.canRead := by
  induction people with
  | nil => rfl
  | cons p people ih =>
    simp only [List.map_cons, List.filter_cons]
    rw [ih]
    by_cases hpath : p.path = []
    · have hseen : (p.wire.seen vis).path = [] := by
        unfold Person.seen
        split_ifs
        · rfl
        · exact toValid_eq_nil_iff.mpr hpath
      simp [hseen, hpath]
    · have hvalid : toValid p.path ≠ [] := mt toValid_eq_nil_iff.mp hpath
      have hseen : (p.wire.seen vis).path = if vis.canRead (toValid p.path) then toValid p.path
          else [] := by
        unfold Person.seen Person.concealed
        by_cases hread : vis.canRead (toValid p.path) = true <;>
          simp [Person.wire, hread, hvalid]
      by_cases hread : vis.canRead (toValid p.path) = true <;>
        simp [hseen, hpath, hread, hvalid]

/-- A frame that was sent is read as naming the texts the reader can read, and as counting changes
only where all texts were named and can be read. -/
def ChangeEvent.Says (ev : ChangeEvent) (vis : PathFilter) (out : Json) : Prop :=
  ∃ said, unmarshalEvent out = some said ∧
    said.named = (ev.named.map toValid).filter vis.canRead ∧
    (said.puts ≠ 0 ∨ said.deletes ≠ 0 → vis.hides = true →
      ev.more = false ∧ ∀ q ∈ ev.paths, vis.canRead (toValid q))

/-- A frame that is sent as it is. -/
theorem ChangeEvent.Says.whole {ev : ChangeEvent} {vis : PathFilter}
    (hall : ∀ q ∈ ev.named, vis.canRead (toValid q) = true)
    (hcounts : ev.puts ≠ 0 ∨ ev.deletes ≠ 0 → vis.hides = true →
      ev.more = false ∧ ∀ q ∈ ev.paths, vis.canRead (toValid q)) : ev.Says vis ev.marshal := by
  refine ⟨_, unmarshalEvent_marshal ev, ?_, hcounts⟩
  rw [ev.named_wire]
  exact (List.filter_eq_self.mpr (List.forall_mem_map.mpr hall)).symm

namespace Published.Shape

variable {p : Published} {ev : ChangeEvent} {vis : PathFilter} (hs : p.Shape ev)

include hs

theorem named_eq (h : ev.type ≠ .presence) : ev.named = ev.paths := by
  rw [ChangeEvent.named, hs.people h]
  exact List.append_nil _

theorem no_counts (h : ev.type ≠ .change) : ¬ (ev.puts ≠ 0 ∨ ev.deletes ≠ 0) := by
  obtain ⟨hputs, hdeletes⟩ := hs.counts h
  rintro (h | h)
  · exact h hputs
  · exact h hdeletes

/-- A change that is sent. -/
theorem said_change {out : Json} (htype : ev.type = .change) (hon : vis.hides = true)
    (hout : frameFor ev.marshal vis = some out) : ev.Says vis out := by
  have hnamed := hs.named_eq (by rw [htype]; decide)
  rw [hs.frameFor_change htype hon] at hout
  split_ifs at hout with hall
  · cases hout
    exact .whole (by rw [hnamed]; exact hall.1) fun _ _ => hall.symm
  · cases hout
    refine ⟨_, unmarshalEvent_marshal _, ?_, fun h => ?_⟩
    · have hpeople : ev.wire.people = [] := by
        rw [ChangeEvent.wire, hs.people (by rw [htype]; decide)]
        rfl
      rw [ChangeEvent.named_wire, hnamed, ChangeEvent.named, hpeople]
      exact (congrArg _ (List.append_nil _)).trans (map_toValid_filter _ _)
    · rcases h with h | h
      · exact absurd rfl h
      · exact absurd rfl h

/-- A roster that is sent, whether anything of it was blanked or not. -/
theorem said_presence {out : Json} (htype : ev.type = .presence) (hon : vis.hides = true)
    (hout : frameFor ev.marshal vis = some out) : ev.Says vis out := by
  have hne : ev.type ≠ .change := by rw [htype]; decide
  have hpaths : ev.paths = [] := hs.paths hne (by rw [htype]; decide)
  have hnamed : ev.named = (ev.people.map Person.path).filter (· ≠ []) := by
    rw [ChangeEvent.named, hpaths]
    rfl
  have hseen := filter_seen vis ev.people
  rw [hs.frameFor_presence htype hon] at hout
  split_ifs at hout with hany
  · cases hout
    refine ⟨_, unmarshalEvent_marshal _, ?_, fun h => absurd h (hs.no_counts hne)⟩
    have hwire : ev.wire.paths = [] := by
      rw [ChangeEvent.wire, hpaths]
      rfl
    rw [ChangeEvent.named_wire, visiblePeople_eq hon, ChangeEvent.named, hwire, hnamed]
    exact (congrArg (List.map toValid) hseen).trans (map_toValid_filter _ _)
  · cases hout
    refine ⟨_, unmarshalEvent_marshal ev, ?_, fun h => absurd h (hs.no_counts hne)⟩
    have hsame : ev.wire.people.map (Person.seen vis) = ev.wire.people := by
      rw [Bool.not_eq_true, List.any_eq_false] at hany
      conv_rhs => rw [← List.map_id ev.wire.people]
      exact List.map_congr_left fun p hp => if_neg (hany p hp)
    rw [hnamed, ← hseen, ChangeEvent.named, ChangeEvent.wire, hpaths]
    exact congrArg (fun people => (people.map Person.path).filter (· ≠ [])) hsame.symm

/-- **What a frame that is sent says**: it names the texts the reader can read, and counts only
where all of them are that it would have named. -/
theorem said {out : Json} (hout : frameFor ev.marshal vis = some out) : ev.Says vis out := by
  by_cases hon : vis.hides = true
  case neg =>
    have hoff := PathFilter.canRead_of_off (Bool.eq_false_iff.mpr hon)
    rw [frameFor, if_pos (by rw [Bool.eq_false_iff.mpr hon]; rfl)] at hout
    cases hout
    exact .whole (fun q _ => hoff _) fun _ h => absurd h hon
  rcases hs.type with htype | htype | htype | htype
  · exact hs.said_change htype hon hout
  · rw [hs.frameFor_comments htype hon] at hout
    split_ifs at hout with hall
    cases hout
    exact .whole (by rw [hs.named_eq (by rw [htype]; decide)]; exact hall)
      fun h => absurd h (hs.no_counts (by rw [htype]; decide))
  · exact hs.said_presence htype hon hout
  · rw [hs.frameFor_rest htype] at hout
    cases hout
    have hne : ev.type ≠ .change ∧ ev.type ≠ .comments ∧ ev.type ≠ .presence := by
      rcases htype with htype | htype <;> rw [htype] <;> decide
    have hnamed : ev.named = [] := by rw [hs.named_eq hne.2.2, hs.paths hne.1 hne.2.1]
    exact .whole (by rw [hnamed]; nofun) fun h => absurd h (hs.no_counts hne.1)

/-- The frame of a change is dropped where no text of its paths can be read, and none is left
out. -/
theorem dropped (htype : ev.type = .change) : frameFor ev.marshal vis = none ↔
    vis.hides = true ∧ ev.more = false ∧ ev.paths ≠ [] ∧
      ∀ q ∈ ev.paths, ¬ vis.canRead (toValid q) := by
  by_cases hon : vis.hides = true
  case neg =>
    rw [frameFor, if_pos (by rw [Bool.eq_false_iff.mpr hon]; rfl)]
    exact ⟨nofun, fun h => absurd h.1 hon⟩
  rw [hs.frameFor_change htype hon]
  split_ifs with hall hnone
  · refine ⟨nofun, fun ⟨_, _, hne, hread⟩ => ?_⟩
    obtain ⟨q, hq⟩ := List.exists_mem_of_ne_nil _ hne
    exact absurd (hall.1 q hq) (hread q hq)
  · refine ⟨fun _ => ⟨hon, hnone.2, fun hnil => hall ⟨?_, hnone.2⟩, hnone.1⟩, fun _ => rfl⟩
    rw [hnil]
    nofun
  · exact ⟨nofun, fun ⟨_, hmore, _, hread⟩ => absurd ⟨hread, hmore⟩ hnone⟩

/-- A frame is sent to whoever can read a text of a path it names. -/
theorem sent {q : GoString} (hq : q ∈ ev.named) (hread : vis.canRead (toValid q) = true) :
    ∃ out, frameFor ev.marshal vis = some out := by
  by_cases hon : vis.hides = true
  case neg => exact ⟨_, by rw [frameFor, if_pos (by rw [Bool.eq_false_iff.mpr hon]; rfl)]⟩
  rcases hs.type with htype | htype | htype | htype
  · have hpath : q ∈ ev.paths := hs.named_eq (by rw [htype]; decide) ▸ hq
    refine Option.ne_none_iff_exists'.mp fun hdrop => ?_
    exact ((hs.dropped htype).mp hdrop).2.2.2 q hpath hread
  · have hpath : q ∈ ev.paths := hs.named_eq (by rw [htype]; decide) ▸ hq
    have hone : ev.paths = [q] := by
      have hlen := hs.comments htype
      match hpaths : ev.paths with
      | [] => simp [hpaths] at hpath
      | [q'] => simp_all
      | _ :: _ :: _ => simp [hpaths] at hlen
    rw [hs.frameFor_comments htype hon, if_pos (by rw [hone]; simpa using hread)]
    exact ⟨_, rfl⟩
  · exact ⟨_, hs.frameFor_presence htype hon⟩
  · exact ⟨_, hs.frameFor_rest htype⟩

/-- **A reader is told what it is to be told exactly when the rules answer for the texts of the
paths as they do for the paths.** -/
theorem told_iff : p.Told ev vis ↔ ev.Faithful vis := by
  constructor
  · intro h
    refine ⟨fun q hq hread => ?_, fun htype hmore hnone => ?_⟩
    · obtain ⟨out, hout⟩ := hs.sent hq hread
      obtain ⟨said, hsaid, hnamed, -⟩ := hs.said hout
      refine h.named out said hout hsaid q hq ?_
      rw [hnamed]
      exact List.mem_filter.mpr ⟨List.mem_map_of_mem hq, hread⟩
    · intro q hq
      by_cases hon : vis.hides = true
      · have hdrop := (hs.dropped htype).mpr ⟨hon, hmore, List.ne_nil_of_mem hq, hnone⟩
        exact (h.dropped htype hdrop).2 q hq
      · exact absurd (PathFilter.canRead_of_off (Bool.eq_false_iff.mpr hon) _) (hnone q hq)
  · intro h
    have hcount {out : Json} {said : ChangeEvent} (hout : frameFor ev.marshal vis = some out)
        (hsaid : unmarshalEvent out = some said) (hne : said.puts ≠ 0 ∨ said.deletes ≠ 0)
        (kind : Kind) : ∀ q ∈ p.changed kind, vis.canRead q := by
      intro q hq
      by_cases hon : vis.hides = true
      · obtain ⟨said', hsaid', -, hcounts⟩ := hs.said hout
        obtain rfl := Option.some.inj (hsaid.symm.trans hsaid')
        obtain ⟨hmore, hall⟩ := hcounts hne hon
        have hmem := hs.changed hmore kind q hq
        exact h.named q (List.mem_append_left _ hmem) (hall q hmem)
      · exact PathFilter.canRead_of_off (Bool.eq_false_iff.mpr hon) q
    have hshown {out : Json} {said : ChangeEvent} (hout : frameFor ev.marshal vis = some out)
        (hsaid : unmarshalEvent out = some said) {q : GoString} (hq : q ∈ said.named) :
        vis.canRead q = true := by
      obtain ⟨said', hsaid', hnamed, -⟩ := hs.said hout
      obtain rfl := Option.some.inj (hsaid.symm.trans hsaid')
      rw [hnamed] at hq
      exact (List.mem_filter.mp hq).2
    refine ⟨fun out said hout hsaid q hq => hshown hout hsaid hq,
      fun out said hout hsaid q hq hmem => h.named q hq (hshown hout hsaid hmem),
      fun out said hout hsaid hne => hcount hout hsaid (.inl hne) .put,
      fun out said hout hsaid hne => hcount hout hsaid (.inr hne) .delete, fun htype hdrop => ?_⟩
    obtain ⟨-, hmore, -, hnone⟩ := (hs.dropped htype).mp hdrop
    exact ⟨hmore, h.paths htype hmore hnone⟩

end Published.Shape

end Beardrive
