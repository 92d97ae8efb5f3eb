import Beardrive.Journal.Op
import Beardrive.Lib.Base64
import Beardrive.Lib.JsonString

/-!
# One line of a journal

An op as `encoding/json` writes and reads it. A path that is not valid UTF-8 does not survive a
JSON string, so it is also carried byte for byte in `path_raw`; a reader trusts that field only
where it spells the path the line already names.

Reading is field by field: a member assigns to the field of its name, or to the one it folds
onto, an unknown member is passed over, `null` leaves a field as it was, and a value of the wrong
type refuses the line.

## Main definitions

* `PathRaw`, `PathRaw.assign`, `unmarshal` — what a line decodes to
* `PathRaw.op` — the op it stands for, if it stands for one
* `Op.members`, `Op.marshalJSON` — what is written for an op

## Main results

* `unmarshal_marshalJSON` — every line written is read, and keeps the kind of its op
* `unmarshal_append_marshalJSON` — and is not, behind anything but white space
-/

namespace Beardrive

/-- `pathRaw`: the wire form of an op. -/
structure PathRaw where
  seq : ℤ := 0
  lamport : ℤ := 0
  time : Time := {}
  device : GoString := []
  deviceName : GoString := []
  author : GoString := []
  user : GoString := []
  userName : GoString := []
  kind : GoString := []
  path : GoString := []
  blob : GoString := []
  size : ℤ := 0
  mode : UInt32 := 0
  note : GoString := []
  session : GoString := []
  mtime : Time := {}
  link : GoString := []
  pathRaw : GoString := []
  deriving DecidableEq, Repr

/-! ### Reading a value into a field -/

/-- `ParseInt (text, 10, 64)`, of a JSON number. -/
def parseInt64 (text : GoString) : Option ℤ :=
  let negative := text.head? = some 0x2D
  let digits := if negative then text.drop 1 else text
  if digits ≠ [] ∧ digits.all digitByte then
    let z : ℤ := if negative then -natOfDigits digits else natOfDigits digits
    if -2 ^ 63 ≤ z ∧ z < 2 ^ 63 then some z else none
  else none

/-- `ParseUint (text, 10, 32)`. -/
def parseUint32 (text : GoString) : Option UInt32 :=
  if text ≠ [] ∧ text.all digitByte ∧ natOfDigits text < 2 ^ 32 then
    some (UInt32.ofNat (natOfDigits text))
  else none

/-- An `int64` field that held `old`. -/
def readInt64 (old : ℤ) : Json → Option ℤ
  | .null => some old
  | .num text => parseInt64 text
  | _ => none

/-- A `uint32` field that held `old`. -/
def readUint32 (old : UInt32) : Json → Option UInt32
  | .null => some old
  | .num text => parseUint32 text
  | _ => none

/-- A `string` field that held `old`. -/
def readString (old : GoString) : Json → Option GoString
  | .null => some old
  | .str raw => unquote raw
  | _ => none

/-- A `time.Time` field that held `old`. The text is not unquoted. -/
def readTime (old : Time) : Json → Option Time
  | .null => some old
  | .str raw => parseRFC3339 raw
  | _ => none

/-- The names of the fields, and how a value is assigned to each. -/
def PathRaw.fields : List (GoString × (PathRaw → Json → Option PathRaw)) :=
  [(ascii "seq", fun w v => (readInt64 w.seq v).map fun x => { w with seq := x }),
    (ascii "lamport", fun w v => (readInt64 w.lamport v).map fun x => { w with lamport := x }),
    (ascii "time", fun w v => (readTime w.time v).map fun x => { w with time := x }),
    (ascii "device", fun w v => (readString w.device v).map fun x => { w with device := x }),
    (ascii "device_name",
      fun w v => (readString w.deviceName v).map fun x => { w with deviceName := x }),
    (ascii "author", fun w v => (readString w.author v).map fun x => { w with author := x }),
    (ascii "user", fun w v => (readString w.user v).map fun x => { w with user := x }),
    (ascii "user_name", fun w v => (readString w.userName v).map fun x => { w with userName := x }),
    (ascii "kind", fun w v => (readString w.kind v).map fun x => { w with kind := x }),
    (ascii "path", fun w v => (readString w.path v).map fun x => { w with path := x }),
    (ascii "blob", fun w v => (readString w.blob v).map fun x => { w with blob := x }),
    (ascii "size", fun w v => (readInt64 w.size v).map fun x => { w with size := x }),
    (ascii "mode", fun w v => (readUint32 w.mode v).map fun x => { w with mode := x }),
    (ascii "note", fun w v => (readString w.note v).map fun x => { w with note := x }),
    (ascii "session", fun w v => (readString w.session v).map fun x => { w with session := x }),
    (ascii "mtime", fun w v => (readTime w.mtime v).map fun x => { w with mtime := x }),
    (ascii "link", fun w v => (readString w.link v).map fun x => { w with link := x }),
    (ascii "path_raw", fun w v => (readString w.pathRaw v).map fun x => { w with pathRaw := x })]

/-- The field of a key: the one of exactly its name, or the first it folds onto. -/
def PathRaw.fieldFor (key : GoString) : Option (PathRaw → Json → Option PathRaw) :=
  (fields.lookup key).or ((fields.find? fun f => equalFold key f.1).map (·.2))

/-- Assign one member. -/
def PathRaw.assign (w : PathRaw) (member : GoString × Json) : Option PathRaw := do
  match fieldFor (← unquote member.1) with
  | some set => set w member.2
  | none => some w

/-- `json.Unmarshal` into a `pathRaw`. -/
def unmarshal (line : GoString) : Option PathRaw :=
  match parseJson line with
  | some .null => some {}
  | some (.obj members) => members.foldlM PathRaw.assign {}
  | _ => none

/-! ### The op of a line -/

/-- What `encoding/json` does to a string that is not valid UTF-8. -/
def lossy (s : GoString) : GoString :=
  if validUTF8 s then s
  else (decodeAll s).flatMap fun c =>
    if c.1 = runeError ∧ c.2.length = 1 then encodeRune runeError else c.2

/-- The kind of a text, if it is one. -/
def Kind.ofText (text : GoString) : Option Kind :=
  if text = Kind.put.text then some .put
  else if text = Kind.delete.text then some .delete
  else none

@[simp] theorem Kind.ofText_text (k : Kind) : Kind.ofText k.text = some k := by
  cases k <;> decide

/-- The path a line names: byte for byte where `path_raw` spells what `path` says. -/
def PathRaw.resolve (w : PathRaw) : GoString :=
  match base64Decode w.pathRaw with
  | some raw => if w.pathRaw ≠ [] ∧ lossy raw = w.path then raw else w.path
  | none => w.path

/-- The op a line stands for. A line of no kind is none. -/
def PathRaw.op (w : PathRaw) : Option Op :=
  (Kind.ofText w.kind).map fun kind =>
    { seq := w.seq, lamport := w.lamport, time := w.time, device := w.device,
      deviceName := w.deviceName, author := w.author, user := w.user, userName := w.userName,
      kind, path := w.resolve, blob := w.blob, size := w.size, mode := w.mode, note := w.note,
      session := w.session, mtime := w.mtime, link := w.link }

/-! ### Writing -/

/-- A string member. -/
def stringMember (key : String) (s : GoString) : GoString × Json := (ascii key, .str (quoteBody s))

/-- An integer member. -/
def intMember (key : String) (z : ℤ) : GoString × Json := (ascii key, .num (formatInt z))

/-- The permission bits. -/
def modeMember (mode : UInt32) : GoString × Json := intMember "mode" mode.toNat

/-- A member that is left out where its value is the zero of its type. -/
def omitZero {α : Type} [DecidableEq α] (zero : α) (member : α → GoString × Json) (x : α) :
    List (GoString × Json) := if x = zero then [] else [member x]

/-- A path that a JSON string loses is carried byte for byte as well. -/
def pathRawMember (p : GoString) : List (GoString × Json) :=
  if validUTF8 p then [] else [stringMember "path_raw" (base64Encode p)]

/-- The member of a time, left out where it is the zero time. -/
def mtimeMember (t : Time) : Option (List (GoString × Json)) :=
  if t.isZero then some []
  else t.formatRFC3339.map fun text => [(ascii "mtime", .str text)]

/-- The members of an op's object, given those of its times. -/
def Op.membersWith (op : Op) (time : GoString) (mtime : List (GoString × Json)) :
    List (GoString × Json) :=
  [intMember "seq" op.seq, intMember "lamport" op.lamport, (ascii "time", .str time),
    stringMember "device" op.device] ++
  omitZero [] (stringMember "device_name") op.deviceName ++
  omitZero [] (stringMember "author") op.author ++
  omitZero [] (stringMember "user") op.user ++
  omitZero [] (stringMember "user_name") op.userName ++
  [stringMember "kind" op.kind.text, stringMember "path" op.path] ++
  omitZero [] (stringMember "blob") op.blob ++
  omitZero 0 (intMember "size") op.size ++
  omitZero 0 modeMember op.mode ++
  omitZero [] (stringMember "note") op.note ++
  omitZero [] (stringMember "session") op.session ++
  mtime ++
  omitZero [] (stringMember "link") op.link ++
  pathRawMember op.path

/-- The members of an op's object: there are none where a time has no text. -/
def Op.members (op : Op) : Option (List (GoString × Json)) :=
  op.time.formatRFC3339.bind fun time => (mtimeMember op.mtime).map (op.membersWith time)

/-- `MarshalJSON`. -/
def Op.marshalJSON (op : Op) : Option GoString :=
  op.members.map fun members => objectText (members.map fun m => (m.1, m.2.scalarText))

/-! ### What is written is read -/

/-- The integers of an op fit the fields they are read into. -/
structure Op.Fits (op : Op) : Prop where
  seq : -2 ^ 63 ≤ op.seq ∧ op.seq < 2 ^ 63
  lamport : -2 ^ 63 ≤ op.lamport ∧ op.lamport < 2 ^ 63
  size : -2 ^ 63 ≤ op.size ∧ op.size < 2 ^ 63

/-- An op as a reader of its line has it, the path not yet resolved. -/
def Op.wire (op : Op) : PathRaw :=
  { seq := op.seq, lamport := op.lamport, time := op.time.toMinute, device := toValid op.device,
    deviceName := toValid op.deviceName, author := toValid op.author, user := toValid op.user,
    userName := toValid op.userName, kind := op.kind.text, path := toValid op.path,
    blob := toValid op.blob, size := op.size, mode := op.mode, note := toValid op.note,
    session := toValid op.session,
    mtime := if op.mtime.isZero then {} else op.mtime.toMinute
    link := toValid op.link
    pathRaw := if validUTF8 op.path then [] else toValid (base64Encode op.path) }

theorem parseInt64_formatInt {z : ℤ} (h : -2 ^ 63 ≤ z ∧ z < 2 ^ 63) :
    parseInt64 (formatInt z) = some z := by
  have hdigits (n : ℕ) : decimal n ≠ [] ∧ (decimal n).all digitByte = true := by
    obtain ⟨d, rest, heq, -⟩ := decimal_cons n
    exact ⟨by simp [heq], List.all_eq_true.mpr fun _ hb => digitByte_of_mem_decimal hb⟩
  unfold formatInt
  split
  case isTrue hneg =>
    have hz : -(natOfDigits (decimal z.natAbs) : ℤ) = z := by rw [natOfDigits_decimal]; omega
    simp only [parseInt64, List.head?_cons, if_true, List.drop_succ_cons, List.drop_zero,
      if_pos (hdigits _), hz, if_pos h]
  case isFalse hpos =>
    have hz : (natOfDigits (decimal z.natAbs) : ℤ) = z := by rw [natOfDigits_decimal]; omega
    have hsign : (decimal z.natAbs).head? ≠ some 0x2D := by
      obtain ⟨d, rest, heq, hd, -⟩ := decimal_cons z.natAbs
      rw [heq]
      rintro ⟨⟩
      exact absurd hd (by decide)
    simp only [parseInt64, if_neg hsign, if_pos (hdigits _), hz, if_pos h]

theorem parseUint32_formatInt (n : UInt32) : parseUint32 (formatInt n.toNat) = some n := by
  have hdecimal : formatInt n.toNat = decimal n.toNat := by simp [formatInt]
  obtain ⟨d, rest, heq, -⟩ := decimal_cons n.toNat
  have hall : (decimal n.toNat).all digitByte = true :=
    List.all_eq_true.mpr fun _ hb => digitByte_of_mem_decimal hb
  rw [hdecimal, parseUint32, if_pos ⟨by simp [heq], hall, by simpa using n.toNat_lt⟩,
    natOfDigits_decimal, UInt32.ofNat_toNat]

namespace PathRaw

variable (w : PathRaw)

/-- A member is assigned to the field its key names. -/
theorem assign_member {key : GoString} {set : PathRaw → Json → Option PathRaw}
    (h : fieldFor (toValid key) = some set) (v : Json) :
    w.assign (quoteBody key, v) = set w v := by
  simp only [assign, unquote_quoteBody, Option.bind_eq_bind, Option.bind_some, h]

/-- A string member goes to the field its key names, made valid. -/
theorem assign_string (key : GoString) (get : PathRaw → GoString)
    (set : PathRaw → GoString → PathRaw)
    (h : fieldFor (toValid key) = some fun w v => (readString (get w) v).map (set w))
    (s : GoString) : w.assign (quoteBody key, .str (quoteBody s)) = some (set w (toValid s)) := by
  rw [assign_member w h, readString, unquote_quoteBody]
  rfl

/-- A string member that is left out where it is empty. -/
theorem foldlM_omitZero (key : String) (get : PathRaw → GoString)
    (set : PathRaw → GoString → PathRaw)
    (h : fieldFor (toValid (ascii key)) = some fun w v => (readString (get w) v).map (set w))
    (hset : ∀ w, set w (get w) = w) {w : PathRaw} (hw : get w = []) (s : GoString) :
    ((omitZero [] (stringMember key) s).map fun m => (quoteBody m.1, m.2)).foldlM assign w
      = some (set w (toValid s)) := by
  unfold omitZero
  split
  case isTrue hs =>
    have hnil : toValid [] = get w := hw.symm
    rw [hs, hnil, hset]
    rfl
  case isFalse =>
    rw [List.map_singleton, List.foldlM_cons, stringMember, assign_string w _ get set h]
    rfl

end PathRaw

theorem Op.members_eq_some_iff {op : Op} {members : List (GoString × Json)} :
    op.members = some members ↔ ∃ time, op.time.formatRFC3339 = some time ∧
      ∃ mtime, mtimeMember op.mtime = some mtime ∧ op.membersWith time mtime = members := by
  simp [Op.members, Option.bind_eq_some_iff]

/-- Every member of an op is assigned to its field. -/
theorem foldlM_members {op : Op} (h : op.Fits) {members : List (GoString × Json)}
    (hm : op.members = some members) :
    (members.map fun m => (quoteBody m.1, m.2)).foldlM PathRaw.assign {} = some op.wire := by
  obtain ⟨time, htime, mtime, hmtime, rfl⟩ := Op.members_eq_some_iff.mp hm
  have hseq (w : PathRaw) : w.assign (quoteBody (ascii "seq"), .num (formatInt op.seq))
      = some { w with seq := op.seq } := by
    rw [w.assign_member rfl, readInt64, parseInt64_formatInt h.seq]
    rfl
  have hlamport (w : PathRaw) : w.assign (quoteBody (ascii "lamport"), .num (formatInt op.lamport))
      = some { w with lamport := op.lamport } := by
    rw [w.assign_member rfl, readInt64, parseInt64_formatInt h.lamport]
    rfl
  have htime' (w : PathRaw) : w.assign (quoteBody (ascii "time"), .str time)
      = some { w with time := op.time.toMinute } := by
    rw [w.assign_member rfl, readTime, parseRFC3339_formatRFC3339 htime]
    rfl
  have hdevice (w : PathRaw) := w.assign_string (ascii "device") PathRaw.device
    (fun w s => { w with device := s }) rfl op.device
  have hkind (w : PathRaw) := w.assign_string (ascii "kind") PathRaw.kind
    (fun w s => { w with kind := s }) rfl op.kind.text
  have hpath (w : PathRaw) := w.assign_string (ascii "path") PathRaw.path
    (fun w s => { w with path := s }) rfl op.path
  have hdeviceName {w : PathRaw} (hw : w.deviceName = []) := PathRaw.foldlM_omitZero
    "device_name" PathRaw.deviceName (fun w s => { w with deviceName := s }) rfl
    (fun _ => rfl) hw op.deviceName
  have hauthor {w : PathRaw} (hw : w.author = []) := PathRaw.foldlM_omitZero "author"
    PathRaw.author (fun w s => { w with author := s }) rfl (fun _ => rfl) hw op.author
  have huser {w : PathRaw} (hw : w.user = []) := PathRaw.foldlM_omitZero "user"
    PathRaw.user (fun w s => { w with user := s }) rfl (fun _ => rfl) hw op.user
  have huserName {w : PathRaw} (hw : w.userName = []) := PathRaw.foldlM_omitZero
    "user_name" PathRaw.userName (fun w s => { w with userName := s }) rfl
    (fun _ => rfl) hw op.userName
  have hblob {w : PathRaw} (hw : w.blob = []) := PathRaw.foldlM_omitZero "blob"
    PathRaw.blob (fun w s => { w with blob := s }) rfl (fun _ => rfl) hw op.blob
  have hnote {w : PathRaw} (hw : w.note = []) := PathRaw.foldlM_omitZero "note"
    PathRaw.note (fun w s => { w with note := s }) rfl (fun _ => rfl) hw op.note
  have hsession {w : PathRaw} (hw : w.session = []) := PathRaw.foldlM_omitZero "session"
    PathRaw.session (fun w s => { w with session := s }) rfl (fun _ => rfl) hw op.session
  have hlink {w : PathRaw} (hw : w.link = []) := PathRaw.foldlM_omitZero "link"
    PathRaw.link (fun w s => { w with link := s }) rfl (fun _ => rfl) hw op.link
  have hsize {w : PathRaw} (hw : w.size = 0) :
      ((omitZero 0 (intMember "size") op.size).map fun m => (quoteBody m.1, m.2)).foldlM
        PathRaw.assign w = some { w with size := op.size } := by
    unfold omitZero
    split
    case isTrue h0 => rw [h0, ← hw]; rfl
    case isFalse =>
      rw [List.map_singleton, List.foldlM_cons, intMember, w.assign_member rfl, readInt64,
        parseInt64_formatInt h.size]
      rfl
  have hmode {w : PathRaw} (hw : w.mode = 0) :
      ((omitZero 0 modeMember op.mode).map fun m => (quoteBody m.1, m.2)).foldlM
        PathRaw.assign w = some { w with mode := op.mode } := by
    unfold omitZero
    split
    case isTrue h0 => rw [h0, ← hw]; rfl
    case isFalse =>
      rw [List.map_singleton, List.foldlM_cons, modeMember, intMember, w.assign_member rfl, readUint32,
        parseUint32_formatInt]
      rfl
  have hmtime' {w : PathRaw} (hw : w.mtime = {}) :
      (mtime.map fun m => (quoteBody m.1, m.2)).foldlM PathRaw.assign w
        = some { w with mtime := if op.mtime.isZero then {} else op.mtime.toMinute } := by
    unfold mtimeMember at hmtime
    split at hmtime
    · rw [← Option.some.inj hmtime, if_pos ‹_›, ← hw]
      rfl
    · obtain ⟨text, htext, rfl⟩ := Option.map_eq_some_iff.mp hmtime
      rw [List.map_singleton, List.foldlM_cons, w.assign_member rfl, readTime,
        parseRFC3339_formatRFC3339 htext, if_neg ‹_›]
      rfl
  have hpathRaw {w : PathRaw} (hw : w.pathRaw = []) :
      ((pathRawMember op.path).map fun m => (quoteBody m.1, m.2)).foldlM PathRaw.assign w
        = some { w with pathRaw :=
            if validUTF8 op.path then [] else toValid (base64Encode op.path) } := by
    unfold pathRawMember
    split
    · rw [← hw]; rfl
    · rw [List.map_singleton, List.foldlM_cons, stringMember, w.assign_string _ PathRaw.pathRaw
        (fun w s => { w with pathRaw := s }) rfl]
      rfl
  have hkindText : toValid op.kind.text = op.kind.text := by
    cases op.kind <;> decide
  simp only [Op.membersWith, intMember, stringMember, List.map_append, List.map_cons,
    List.map_nil, List.foldlM_append, List.foldlM_cons, List.foldlM_nil, hseq, hlamport, htime',
    hdevice, hdeviceName, hauthor, huser, huserName, hkind, hpath, hblob, hsize, hmode, hnote,
    hsession, hmtime', hlink, hpathRaw, hkindText, Option.bind_eq_bind, Option.bind_some,
    Option.pure_def, Op.wire]

/-- What a member of an op holds. -/
theorem value_of_mem_members {op : Op} {members : List (GoString × Json)}
    (hm : op.members = some members) {m : GoString × Json} (h : m ∈ members) :
    (∃ z, m.2 = .num (formatInt z)) ∨ (∃ s, m.2 = .str (quoteBody s)) ∨
      ∃ (t : Time) (text : GoString), t.formatRFC3339 = some text ∧ m.2 = .str text := by
  obtain ⟨time, htime, mtime, hmtime, rfl⟩ := Op.members_eq_some_iff.mp hm
  have hopt {α : Type} [DecidableEq α] {zero x : α} {member : α → GoString × Json}
      (h : m ∈ omitZero zero member x) : m = member x := by
    unfold omitZero at h
    split at h
    · cases h
    · exact List.mem_singleton.mp h
  have hmtime' (h : m ∈ mtime) :
      ∃ (t : Time) (text : GoString), t.formatRFC3339 = some text ∧ m.2 = .str text := by
    unfold mtimeMember at hmtime
    split at hmtime
    · rw [← Option.some.inj hmtime] at h
      cases h
    · obtain ⟨text, htext, rfl⟩ := Option.map_eq_some_iff.mp hmtime
      exact ⟨_, text, htext, by rw [List.mem_singleton.mp h]⟩
  have hraw (h : m ∈ pathRawMember op.path) : ∃ s, m.2 = .str (quoteBody s) := by
    unfold pathRawMember at h
    split at h
    · cases h
    · exact ⟨_, by rw [List.mem_singleton.mp h]; rfl⟩
  simp only [Op.membersWith, List.append_assoc, List.cons_append, List.mem_append, List.mem_cons,
    List.nil_append] at h
  rcases h with rfl | rfl | rfl | rfl | h | h | h | h | rfl | rfl | h | h | h | h | h | h | h | h
  · exact .inl ⟨_, rfl⟩
  · exact .inl ⟨_, rfl⟩
  · exact .inr (.inr ⟨_, _, htime, rfl⟩)
  · exact .inr (.inl ⟨_, rfl⟩)
  · exact .inr (.inl ⟨_, by rw [hopt h]; rfl⟩)
  · exact .inr (.inl ⟨_, by rw [hopt h]; rfl⟩)
  · exact .inr (.inl ⟨_, by rw [hopt h]; rfl⟩)
  · exact .inr (.inl ⟨_, by rw [hopt h]; rfl⟩)
  · exact .inr (.inl ⟨_, rfl⟩)
  · exact .inr (.inl ⟨_, rfl⟩)
  · exact .inr (.inl ⟨_, by rw [hopt h]; rfl⟩)
  · exact .inl ⟨_, by rw [hopt h]; rfl⟩
  · exact .inl ⟨_, by rw [hopt h]; rfl⟩
  · exact .inr (.inl ⟨_, by rw [hopt h]; rfl⟩)
  · exact .inr (.inl ⟨_, by rw [hopt h]; rfl⟩)
  · exact .inr (.inr (hmtime' h))
  · exact .inr (.inl ⟨_, by rw [hopt h]; rfl⟩)
  · exact .inr (.inl (hraw h))

/-- A time is written without anything a string would escape. -/
theorem plain_of_mem_formatRFC3339 {t : Time} {text : GoString}
    (h : t.formatRFC3339 = some text) : ∀ b ∈ text, b ≠ 0x22 ∧ b ≠ 0x5C ∧ 0x20 ≤ b := by
  intro b hb
  have hbyte := timeByte_of_mem_formatRFC3339 h b hb
  rcases timeByte_cases hbyte with hdigit | rfl | rfl | rfl | rfl | rfl | rfl
  · rw [digitByte, Bool.and_eq_true, decide_eq_true_iff, decide_eq_true_iff] at hdigit
    grind
  all_goals decide

/-- The scanner reads the members of an op as they are written. -/
theorem denotesMembers_members {op : Op} {members : List (GoString × Json)}
    (hm : op.members = some members) :
    Machine.DenotesMembers (members.map fun m => (m.1, m.2.scalarText))
      (members.map fun m => (quoteBody m.1, m.2)) := by
  refine Machine.denotesMembers_map fun m h => ?_
  rcases value_of_mem_members hm h with ⟨z, hv⟩ | ⟨s, hv⟩ | ⟨t, text, htext, hv⟩
  · rw [hv]
    exact Machine.denotes_formatInt z
  · rw [hv]
    exact (Machine.inside_quoteBody s).denotes
  · rw [hv]
    exact (Machine.inside_of_forall (plain_of_mem_formatRFC3339 htext)).denotes

/-- The first member of an op is its sequence number. -/
theorem head?_members {op : Op} {members : List (GoString × Json)}
    (hm : op.members = some members) : members.head? = some (intMember "seq" op.seq) := by
  obtain ⟨time, -, mtime, -, rfl⟩ := Op.members_eq_some_iff.mp hm
  rfl

/-- **Every line that is written is read.** -/
theorem unmarshal_marshalJSON {op : Op} (h : op.Fits) {line : GoString}
    (hline : op.marshalJSON = some line) : unmarshal line = some op.wire := by
  obtain ⟨members, hm, rfl⟩ := Option.map_eq_some_iff.mp hline
  have hne : members.map (fun m => (m.1, m.2.scalarText)) ≠ [] := by
    intro hnil
    have := head?_members hm
    rw [List.map_eq_nil_iff.mp hnil] at this
    cases this
  have hparse : parseJson (objectText (members.map fun m => (m.1, m.2.scalarText)))
      = some (.obj (members.map fun m => (quoteBody m.1, m.2))) := by
    rw [parseJson, Machine.run_objectText (denotesMembers_members hm) hne [] (by decide)]
    rfl
  rw [unmarshal, hparse]
  exact foldlM_members h hm

/-- **Behind anything but white space, no line that is written is read.** -/
theorem unmarshal_append_marshalJSON {op : Op} {line front : GoString}
    (hline : op.marshalJSON = some line) (hfront : ∃ c ∈ front, Machine.space c = false) :
    unmarshal (front ++ line) = none := by
  obtain ⟨members, hm, rfl⟩ := Option.map_eq_some_iff.mp hline
  obtain ⟨tail, rfl⟩ : ∃ tail, members = intMember "seq" op.seq :: tail :=
    List.head?_eq_some_iff.mp (head?_members hm)
  have hnone := Machine.parseJson_append_object hfront (denotesMembers_members hm)
    (show _ = some (0x73 :: ascii "eq", _) from rfl) (by decide)
  rw [unmarshal, hnone]

/-- A line stands for an op of the kind it was written for. -/
theorem op_wire (op : Op) : ∃ o, op.wire.op = some o ∧ o.kind = op.kind := by
  have hkind : Kind.ofText op.wire.kind = some op.kind := Kind.ofText_text op.kind
  rw [PathRaw.op, hkind]
  exact ⟨_, rfl, rfl⟩

/-- A line is an object, and is one line. -/
theorem marshalJSON_cons {op : Op} {line : GoString} (hline : op.marshalJSON = some line) :
    (∃ mid, line = 0x7B :: (mid ++ [0x7D])) ∧ 0x0A ∉ line := by
  obtain ⟨members, hm, rfl⟩ := Option.map_eq_some_iff.mp hline
  have hvalue : ∀ text ∈ members.map (fun m => (m.1, m.2.scalarText)), ∀ b ∈ text.2, 0x20 ≤ b := by
    intro text htext b hb
    obtain ⟨m, h, rfl⟩ := List.mem_map.mp htext
    dsimp only at hb
    rcases value_of_mem_members hm h with ⟨z, hv⟩ | ⟨s, hv⟩ | ⟨t, time, htime, hv⟩
    · rw [hv] at hb
      exact Machine.le_of_mem_formatInt hb
    · rw [hv] at hb
      exact Machine.le_of_mem_quote hb
    · rw [hv] at hb
      simp only [Json.scalarText, List.cons_append, List.mem_cons, List.mem_append,
        List.not_mem_nil, or_false] at hb
      rcases hb with rfl | hb | rfl
      · decide
      · exact (plain_of_mem_formatRFC3339 htime b hb).2.2
      · decide
  obtain ⟨tail, rfl⟩ : ∃ tail, members = intMember "seq" op.seq :: tail :=
    List.head?_eq_some_iff.mp (head?_members hm)
  refine ⟨⟨_, rfl⟩, fun hlf => ?_⟩
  rcases List.mem_append.mp hlf with hlf | hlf
  · have hle := Machine.le_of_mem_members hvalue 0x7B (by decide) _ hlf
    exact absurd hle (by decide)
  · exact absurd (List.mem_singleton.mp hlf) (by decide)

/-! ### What is read fits -/

theorem parseInt64_range {text : GoString} {z : ℤ} (h : parseInt64 text = some z) :
    -2 ^ 63 ≤ z ∧ z < 2 ^ 63 := by
  simp only [parseInt64] at h
  split_ifs at h <;>
    · obtain rfl := Option.some.inj h
      assumption

theorem readInt64_range {old z : ℤ} {v : Json} (hold : -2 ^ 63 ≤ old ∧ old < 2 ^ 63)
    (h : readInt64 old v = some z) : -2 ^ 63 ≤ z ∧ z < 2 ^ 63 := by
  cases v with
  | null => exact Option.some.inj h ▸ hold
  | num text => exact parseInt64_range h
  | _ => cases h

namespace PathRaw

/-- The integers of what is read fit their fields. -/
structure Fits (w : PathRaw) : Prop where
  seq : -2 ^ 63 ≤ w.seq ∧ w.seq < 2 ^ 63
  lamport : -2 ^ 63 ≤ w.lamport ∧ w.lamport < 2 ^ 63
  size : -2 ^ 63 ≤ w.size ∧ w.size < 2 ^ 63

/-- A field is read into one that fits. -/
theorem Fits.set {w w' : PathRaw} (hw : w.Fits) {v : Json} :
    ∀ f ∈ fields, f.2 w v = some w' → w'.Fits := by
  obtain ⟨hseq, hlamport, hsize⟩ := hw
  simp only [fields, List.forall_mem_cons, Option.map_eq_some_iff, List.not_mem_nil,
    IsEmpty.forall_iff, implies_true, and_true]
  refine ⟨?_, ?_, ?_, ?_, ?_, ?_, ?_, ?_, ?_, ?_, ?_, ?_, ?_, ?_, ?_, ?_, ?_, ?_⟩
  · rintro ⟨x, hx, rfl⟩
    exact ⟨readInt64_range hseq hx, hlamport, hsize⟩
  · rintro ⟨x, hx, rfl⟩
    exact ⟨hseq, readInt64_range hlamport hx, hsize⟩
  pick_goal 10
  · rintro ⟨x, hx, rfl⟩
    exact ⟨hseq, hlamport, readInt64_range hsize hx⟩
  all_goals
    rintro ⟨x, -, rfl⟩
    exact ⟨hseq, hlamport, hsize⟩

end PathRaw

/-- **What every field keeps holds of what is read.** -/
theorem unmarshal_induction {P : PathRaw → Prop} (hzero : P {})
    (hset : ∀ f ∈ PathRaw.fields, ∀ (w w' : PathRaw) (v : Json), P w → f.2 w v = some w' → P w')
    {line : GoString} {w : PathRaw} (h : unmarshal line = some w) : P w := by
  have hassign : ∀ (w w' : PathRaw) (m : GoString × Json), P w → w.assign m = some w' → P w' := by
    intro w w' m hw h
    simp only [PathRaw.assign, Option.bind_eq_bind, Option.bind_eq_some_iff] at h
    obtain ⟨key, -, h⟩ := h
    split at h
    · rename_i set hfield
      rcases Option.or_eq_some_iff.mp hfield with hfield | ⟨-, hfield⟩
      · obtain ⟨front, back, hfields, -⟩ := List.lookup_eq_some_iff.mp hfield
        exact hset _ (hfields ▸ List.mem_append_right _ List.mem_cons_self) w w' _ hw h
      · obtain ⟨f, hf, rfl⟩ := Option.map_eq_some_iff.mp hfield
        exact hset f (List.mem_of_find?_eq_some hf) w w' _ hw h
    · exact Option.some.inj h ▸ hw
  have hfold (members : List (GoString × Json)) (w₀ : PathRaw) (h₀ : P w₀)
      (h : members.foldlM PathRaw.assign w₀ = some w) : P w := by
    induction members generalizing w₀ with
    | nil => exact Option.some.inj h ▸ h₀
    | cons m members ih =>
      rw [List.foldlM_cons, Option.bind_eq_bind, Option.bind_eq_some_iff] at h
      obtain ⟨w₁, hw₁, h⟩ := h
      exact ih w₁ (hassign _ _ _ h₀ hw₁) h
  rw [unmarshal] at h
  split at h
  · exact Option.some.inj h ▸ hzero
  · exact hfold _ _ hzero h
  · cases h

/-- What a line is read as fits. -/
theorem fits_of_unmarshal {line : GoString} {w : PathRaw} (h : unmarshal line = some w) :
    w.Fits :=
  unmarshal_induction (P := PathRaw.Fits) ⟨by decide, by decide, by decide⟩
    (fun f hf _ _ _ hw hset => hw.set f hf hset) h

/-- The device a line names is valid. -/
theorem validDevice_of_unmarshal {line : GoString} {w : PathRaw} (h : unmarshal line = some w) :
    validUTF8 w.device = true := by
  refine unmarshal_induction (P := fun w => validUTF8 w.device = true) rfl ?_ h
  simp only [PathRaw.fields, List.forall_mem_cons, Option.map_eq_some_iff, List.not_mem_nil,
    IsEmpty.forall_iff, implies_true, and_true]
  refine ⟨?_, ?_, ?_, ?_, ?_, ?_, ?_, ?_, ?_, ?_, ?_, ?_, ?_, ?_, ?_, ?_, ?_, ?_⟩
  pick_goal 4
  · rintro w _ v hw ⟨x, hx, rfl⟩
    cases v with
    | null => exact Option.some.inj hx ▸ hw
    | str raw => exact validUTF8_unquote hx
    | _ => cases hx
  all_goals
    rintro w _ v hw ⟨x, -, rfl⟩
    exact hw

end Beardrive
