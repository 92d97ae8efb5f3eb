import Beardrive.Journal.Wire
import Beardrive.Lib.JsonEnds

/-!
# Journal files

A journal is a file of lines that only ever grows. `parse` recovers line by line: a line that does
not decode is passed over, so a torn line costs nothing but itself. `append` writes its ops where
the file ends, and a file that ends in a torn line ends in the middle of one.

## Main definitions

* `parse`, `marshal`, `append` — reading a journal, and growing it
* `lastLine` — what a file holds behind its last line break

## Main results

* `parse_marshal` — what is written is read
* `parse_append_iff` — an append keeps every op exactly when the file did not end inside a line
-/

namespace Beardrive

/-- What one line of a journal gives. -/
def parseLine (raw : GoString) : Option Op :=
  if trimSpace raw = [] then none else (unmarshal (trimSpace raw)).bind PathRaw.op

/-- `Parse`: the ops of a journal. -/
def parse (data : GoString) : List Op := (data.splitOn 0x0A).filterMap parseLine

/-- `Marshal`: ops as lines. There are none where an op has no text. -/
def marshal : List Op → Option GoString
  | [] => some []
  | op :: ops => do
    let line ← op.marshalJSON
    return line ++ 0x0A :: (← marshal ops)

/-- `Append`, to a file that holds `old`. -/
def append (old : GoString) (ops : List Op) : Option GoString :=
  if ops = [] then some old else (marshal ops).map (old ++ ·)

/-- What a file holds behind its last line break. -/
def lastLine (data : GoString) : GoString := data.rtakeWhile (· != 0x0A)

/-- An op as a reader has it of its line alone. -/
def Op.decoded (op : Op) : Option Op := op.marshalJSON.bind parseLine

/-! ### Line by line -/

@[simp] theorem parse_nil : parse [] = [] := rfl

theorem parseLine_nil : parseLine [] = none := rfl

theorem parse_line_break (a b : GoString) : parse (a ++ 0x0A :: b) = parse a ++ parse b := by
  rw [parse, List.splitOn_append_cons_self, List.filterMap_append]
  rfl

theorem parse_of_notMem {line : GoString} (h : 0x0A ∉ line) :
    parse line = (parseLine line).toList := by
  rw [parse, List.splitOn_eq_singleton h]
  cases hp : parseLine line <;> simp [hp]

/-- What a journal holds in front of its last line. -/
def wholeLines (data : GoString) : List Op := parse (data.rdropWhile (· != 0x0A))

/-- A journal that goes on within its last line. -/
theorem parse_append_of_notMem (old : GoString) {t : GoString} (h : 0x0A ∉ t) :
    parse (old ++ t) = wholeLines old ++ (parseLine (lastLine old ++ t)).toList := by
  have hlast : 0x0A ∉ lastLine old ++ t := by
    rw [List.mem_append, not_or]
    exact ⟨fun hmem => by simpa using List.mem_rtakeWhile_imp hmem, h⟩
  have hsplit : old = old.rdropWhile (· != 0x0A) ++ lastLine old :=
    List.rdropWhile_append_rtakeWhile.symm
  by_cases hinit : old.rdropWhile (· != 0x0A) = []
  · rw [hinit, List.nil_append] at hsplit
    rw [wholeLines, hinit, parse_nil, List.nil_append, ← hsplit, parse_of_notMem (hsplit ▸ hlast)]
  · obtain ⟨init, hinit'⟩ : ∃ init, old.rdropWhile (· != 0x0A) = init ++ [0x0A] := by
      have hbreak := List.rdropWhile_last_not _ _ hinit
      simp only [bne_iff_ne, ne_eq, not_not] at hbreak
      exact ⟨_, hbreak ▸ (List.dropLast_append_getLast hinit).symm⟩
    have hwhole : wholeLines old = parse init := by
      rw [wholeLines, hinit', parse_line_break, parse_nil, List.append_nil]
    have hold : old ++ t = init ++ 0x0A :: (lastLine old ++ t) := by
      conv_lhs => rw [hsplit, hinit']
      simp
    rw [hold, parse_line_break, parse_of_notMem hlast, hwhole]

theorem parse_eq (old : GoString) :
    parse old = wholeLines old ++ (parseLine (lastLine old)).toList := by
  have := parse_append_of_notMem old (t := []) List.not_mem_nil
  rwa [List.append_nil, List.append_nil] at this

/-- What is read is read off a line. -/
theorem exists_unmarshal_of_mem_parse {data : GoString} {op : Op} (h : op ∈ parse data) :
    ∃ line w, unmarshal line = some w ∧ w.op = some op := by
  obtain ⟨raw, -, hraw⟩ := List.mem_filterMap.mp h
  rw [parseLine] at hraw
  split at hraw
  · cases hraw
  · obtain ⟨w, hw, hop⟩ := Option.bind_eq_some_iff.mp hraw
    exact ⟨_, w, hw, hop⟩

/-- The integers of what is read fit their fields. -/
theorem fits_of_mem_parse {data : GoString} {op : Op} (h : op ∈ parse data) : op.Fits := by
  obtain ⟨line, w, hw, hop⟩ := exists_unmarshal_of_mem_parse h
  obtain ⟨kind, -, rfl⟩ := Option.map_eq_some_iff.mp hop
  have hfits := fits_of_unmarshal hw
  exact ⟨hfits.seq, hfits.lamport, hfits.size⟩

/-- The device of what is read is valid. -/
theorem validDevice_of_mem_parse {data : GoString} {op : Op} (h : op ∈ parse data) :
    validUTF8 op.device = true := by
  obtain ⟨line, w, hw, hop⟩ := exists_unmarshal_of_mem_parse h
  obtain ⟨kind, -, rfl⟩ := Option.map_eq_some_iff.mp hop
  exact validDevice_of_unmarshal hw

/-- A text of no kind is no op. -/
theorem exists_obj_of_parseLine {line : GoString} {op : Op} (h : parseLine line = some op) :
    ∃ fields w, parseJson (trimSpace line) = some (.obj fields) ∧
      fields.foldlM PathRaw.assign {} = some w ∧ w.op = some op := by
  rw [parseLine] at h
  split at h
  · cases h
  · obtain ⟨w, hw, hop⟩ := Option.bind_eq_some_iff.mp h
    rw [unmarshal] at hw
    split at hw
    · obtain rfl := Option.some.inj hw
      cases hop
    · exact ⟨_, w, ‹_›, hw, hop⟩
    · cases hw

/-- **A line that is longer by what was torn off it, or by anything else, has no other op.** -/
theorem parseLine_longer {line t : GoString} {op op' : Op} (h : parseLine line = some op)
    (h' : parseLine (line ++ t) = some op') : op' = op := by
  obtain ⟨fields, w, hobj, hw, hop⟩ := exists_obj_of_parseLine h
  obtain ⟨fields', w', hobj', hw', hop'⟩ := exists_obj_of_parseLine h'
  obtain ⟨x, hx⟩ := trimSpace_append_of_obj hobj t
  rw [hx] at hobj'
  obtain rfl : fields' = fields := Json.obj.inj (Machine.parseJson_append_of_obj hobj hobj')
  obtain rfl : w' = w := Option.some.inj (hw'.symm.trans hw)
  exact Option.some.inj (hop'.symm.trans hop)

/-! ### Growing a journal -/

/-- A line on its own is trimmed of nothing. -/
theorem parseLine_append {op : Op} {line : GoString} (hline : op.marshalJSON = some line)
    (front : GoString) :
    parseLine (front ++ line) = (unmarshal (trimLeft front ++ line)).bind PathRaw.op := by
  obtain ⟨⟨mid, rfl⟩, -⟩ := marshalJSON_cons hline
  rw [parseLine, trimSpace_append (by decide) (by decide) (by decide) (by decide),
    if_neg (by simp)]

/-- An op decodes from the line it is written on to what the line stands for. -/
theorem decoded_eq_wire {op : Op} (h : op.Fits) {line : GoString}
    (hline : op.marshalJSON = some line) : op.decoded = op.wire.op := by
  have hself := parseLine_append hline []
  rw [List.nil_append, trimLeft_of_blank rfl, List.nil_append,
    unmarshal_marshalJSON h hline, Option.bind_some] at hself
  rw [Op.decoded, hline, Option.bind_some, hself]

/-- Every op decodes from the line it is written on. -/
theorem decoded_eq_some {op : Op} (h : op.Fits) {line : GoString}
    (hline : op.marshalJSON = some line) : ∃ o, op.decoded = some o ∧ o.kind = op.kind := by
  rw [decoded_eq_wire h hline]
  exact op_wire op

/-- Behind white space a line reads as it does alone. -/
theorem parseLine_append_of_blank {op : Op} {line : GoString} (hline : op.marshalJSON = some line)
    (front : GoString) (hfront : trimSpace front = []) :
    parseLine (front ++ line) = op.decoded := by
  have hself := parseLine_append hline []
  rw [List.nil_append, trimLeft_of_blank rfl, List.nil_append] at hself
  rw [parseLine_append hline, trimLeft_of_blank hfront, List.nil_append, Op.decoded, hline,
    Option.bind_some, hself]

/-- Behind anything else it is lost. -/
theorem parseLine_append_of_not_blank {op : Op} {line : GoString}
    (hline : op.marshalJSON = some line) {front : GoString} (hfront : trimSpace front ≠ []) :
    parseLine (front ++ line) = none := by
  obtain ⟨b, rest, htrim, hb⟩ := exists_of_trimSpace_ne_nil hfront
  have hvisible : Machine.space b = false := by
    have hne {c : UInt8} (hc : c < 0x80) (hspace : isSpace c.toNat = true) := hb c hc hspace
    simp [Machine.space, hne (c := 0x20) (by decide) (by decide),
      hne (c := 0x09) (by decide) (by decide), hne (c := 0x0D) (by decide) (by decide),
      hne (c := 0x0A) (by decide) (by decide)]
  rw [parseLine_append hline, htrim,
    unmarshal_append_marshalJSON hline ⟨b, List.mem_cons_self, hvisible⟩]
  rfl

/-- **What is written is read.** -/
theorem parse_marshal {ops : List Op} (h : ∀ op ∈ ops, op.Fits) {data : GoString}
    (hdata : marshal ops = some data) : (parse data).map some = ops.map Op.decoded := by
  induction ops generalizing data with
  | nil =>
    obtain rfl : [] = data := Option.some.inj hdata
    rfl
  | cons op ops ih =>
    simp only [marshal, Option.bind_eq_bind, Option.bind_eq_some_iff, Option.pure_def,
      Option.some.injEq] at hdata
    obtain ⟨line, hline, rest, hrest, rfl⟩ := hdata
    obtain ⟨o, ho, -⟩ := decoded_eq_some (h op List.mem_cons_self) hline
    have hself := parseLine_append_of_blank hline [] rfl
    rw [List.nil_append] at hself
    rw [parse_line_break, parse_of_notMem (marshalJSON_cons hline).2, hself, List.map_append,
      ih (fun op hop => h op (List.mem_cons_of_mem _ hop)) hrest, ho, List.map_cons, ho]
    rfl

/-- The first op of an append goes on where the last line ended. -/
theorem parse_append_cons {old new : GoString} {op : Op} {ops : List Op}
    (hnew : append old (op :: ops) = some new) :
    ∃ line rest, op.marshalJSON = some line ∧ marshal ops = some rest ∧
      parse new = wholeLines old ++ (parseLine (lastLine old ++ line)).toList ++ parse rest := by
  simp only [append, marshal, Option.bind_eq_bind, Option.map_eq_some_iff,
    Option.bind_eq_some_iff, Option.pure_def, Option.some.injEq, reduceCtorEq, if_false] at hnew
  obtain ⟨_, ⟨line, hline, rest, hrest, rfl⟩, rfl⟩ := hnew
  refine ⟨line, rest, hline, hrest, ?_⟩
  rw [← List.append_assoc, parse_line_break, parse_append_of_notMem old (marshalJSON_cons hline).2]

/-- What is read of a journal that has grown: a front of what was read before, and ops of the
append. -/
theorem exists_parse_append {old new : GoString} {ops : List Op} (h : ∀ op ∈ ops, op.Fits)
    (hnew : append old ops = some new) :
    ∃ front tail, parse new = front ++ tail ∧ front <+: parse old ∧
      ∀ o ∈ tail, ∃ op ∈ ops, op.decoded = some o := by
  cases ops with
  | nil =>
    obtain rfl : old = new := by simpa [append] using hnew
    exact ⟨parse old, [], (List.append_nil _).symm, List.prefix_rfl, by simp⟩
  | cons op ops =>
    obtain ⟨line, rest, hline, hrest, hgrown⟩ := parse_append_cons hnew
    refine ⟨wholeLines old, _, hgrown.trans (List.append_assoc _ _ _), ⟨_, (parse_eq old).symm⟩, ?_⟩
    intro o ho
    rcases List.mem_append.mp ho with ho | ho
    · refine ⟨op, List.mem_cons_self, ?_⟩
      by_cases hblank : trimSpace (lastLine old) = []
      · rw [parseLine_append_of_blank hline _ hblank] at ho
        exact Option.mem_toList.mp ho
      · rw [parseLine_append_of_not_blank hline hblank] at ho
        exact absurd ho List.not_mem_nil
    · have hmem : some o ∈ ops.map Op.decoded := by
        rw [← parse_marshal (fun op hop => h op (List.mem_cons_of_mem _ hop)) hrest]
        exact List.mem_map_of_mem ho
      obtain ⟨op', hop', hdecoded⟩ := List.mem_map.mp hmem
      exact ⟨op', List.mem_cons_of_mem _ hop', hdecoded⟩

/-- **An append loses no op exactly when the file did not end inside a line**: nothing but white
space stood behind the last line break. -/
theorem parse_append_iff {old new : GoString} {ops : List Op} (h : ∀ op ∈ ops, op.Fits)
    (hnew : append old ops = some new) :
    (parse new).map some = (parse old).map some ++ ops.map Op.decoded ↔
      ops = [] ∨ trimSpace (lastLine old) = [] := by
  cases ops with
  | nil =>
    obtain rfl : old = new := by simpa [append] using hnew
    simp
  | cons op ops =>
    obtain ⟨line, rest, hline, hrest, hgrown⟩ := parse_append_cons hnew
    obtain ⟨o, ho, -⟩ := decoded_eq_some (h op List.mem_cons_self) hline
    have htail := parse_marshal (fun op hop => h op (List.mem_cons_of_mem _ hop)) hrest
    rw [hgrown, parse_eq old]
    by_cases hblank : trimSpace (lastLine old) = []
    · have hlast : parseLine (lastLine old) = none := if_pos hblank
      rw [parseLine_append_of_blank hline _ hblank, ho, hlast]
      simp [htail, ho, hblank]
    · rw [parseLine_append_of_not_blank hline hblank]
      refine iff_of_false (fun heq => ?_) (by simp [hblank])
      -- the op the torn line swallowed leaves the journal one short
      have hlen := congrArg List.length heq
      have hlen' := congrArg List.length htail
      simp only [List.length_append, List.length_map, List.length_cons, Option.toList_none,
        List.length_nil] at hlen hlen'
      omega

/-- An op of a device's first sync. -/
def firstOp : Op := { seq := 1, lamport := 1, device := ascii "d", kind := .put, path := ascii "f" }

/-- Its line. -/
def firstLine : GoString :=
  ascii "\x7b\"seq\":1,\"lamport\":1,\"time\":\"0001-01-01T00:00:00Z\"," ++
    ascii "\"device\":\"d\",\"kind\":\"put\",\"path\":\"f\"\x7d\n"

/-- A journal that ends in a whole line takes another. -/
theorem parse_append_firstLine :
    (parse (firstLine ++ firstLine)).map some
        = (parse firstLine).map some ++ [firstOp].map Op.decoded ↔
      [firstOp] = [] ∨ trimSpace (lastLine firstLine) = [] := by
  refine parse_append_iff (fun op hop => ?_) (by decide +kernel)
  rw [List.mem_singleton.mp hop]
  exact ⟨by decide, by decide, by decide⟩

/-- The op behind a torn line is lost. -/
theorem parse_append_torn : ¬ ∀ (old new : GoString) (ops : List Op), (∀ op ∈ ops, op.Fits) →
    append old ops = some new →
      (parse new).map some = (parse old).map some ++ ops.map Op.decoded := by
  intro h
  have hfits : ∀ op ∈ [firstOp], op.Fits := by
    intro op hop
    rw [List.mem_singleton.mp hop]
    exact ⟨by decide, by decide, by decide⟩
  have hnew : append (firstLine.take 8) [firstOp] = some (firstLine.take 8 ++ firstLine) := by
    decide +kernel
  have hlost : (parse (firstLine.take 8 ++ firstLine)).length = 0 := by decide +kernel
  have hlen := congrArg List.length (h _ _ _ hfits hnew)
  simp only [List.length_map, hlost, List.length_append, List.length_singleton] at hlen
  omega

end Beardrive
