import Beardrive.Lib.LineFilter
import Beardrive.Syncer.Chunks
import Beardrive.Syncer.Pull

/-!
# The journal an account is shown

An account from which something is hidden is served every journal without the lines that name what
it may not read. The lines that are left are the stored bytes, so that a device may hold a copy of
a filtered journal and resume in it as in any other: what it is listed and served is the filtered
journal, and the filtered journal grows as the journal does.

## A line that is not finished

The filter judges a line before its line break is written. Where an op was readable on an
unfinished line and something else than white space is written behind it, the line stops being
one, and the filtered journal gets shorter: the copy of the device is then no front of it any
more. Nothing else makes a filtered journal change behind the device's back.

## Main definitions

* `ReadFilter`, `filterJournal` — an account's view, and a journal in it
* `pullFiltered` — one cycle of a device
* `KeepsLastLine`, `Follows` — a journal that grows, and a device that pulls now and then

## Main results

* `parse_filterJournal` — filtering bytes is filtering ops
* `filterJournal_prefix_iff` — when the filtered journal has grown
* `filtering_commutes` — both, and what a device ends with
-/

namespace Beardrive

/-- What an account may see, as a filter asks it. Off, it conceals nothing. -/
structure ReadFilter where
  hides : Bool
  canRead : GoString → Bool
  all_of_off : hides = false → ∀ path, canRead path = true

/-- Whether a line of a journal is shown: it has an op, on a path the account may read. -/
def ReadFilter.retains (f : ReadFilter) (line : GoString) : Bool :=
  trimSpace line ≠ [] &&
    match parse line with
    | [op] => f.canRead op.path
    | _ => false

/-- `filterJournal`. -/
def filterJournal (f : ReadFilter) (data : GoString) : GoString :=
  if !f.hides then data else keepLines 0x0A f.retains data

/-! ### One line -/

section

variable (f : ReadFilter) {line : GoString}

theorem trimSpace_line_break_eq_nil_iff : trimSpace (line ++ [0x0A]) = [] ↔ trimSpace line = [] := by
  rw [trimSpace_eq_nil_iff, trimSpace_eq_nil_iff, runes_append_ascii (by decide)]
  refine ⟨fun h r hr => h r (List.mem_append_left _ hr), fun h r hr => ?_⟩
  rcases List.mem_append.mp hr with hr | hr
  · exact h r hr
  · rw [List.mem_singleton.mp hr]
    rfl

/-- A line that is not finished is judged as it is finished. -/
theorem retains_of_parse {l : GoString} (hblank : trimSpace l = [] ↔ trimSpace line = [])
    (hparse : parse l = (parseLine line).toList) :
    f.retains l = (parseLine line).any fun op => f.canRead op.path := by
  rw [ReadFilter.retains, hparse]
  by_cases h : trimSpace line = []
  · rw [parseLine, if_pos h]
    simp
  · rw [decide_eq_true (mt hblank.mp h), Bool.true_and]
    cases parseLine line <;> rfl

theorem retains_of_notMem (h : 0x0A ∉ line) :
    f.retains line = (parseLine line).any fun op => f.canRead op.path :=
  retains_of_parse f Iff.rfl (parse_of_notMem h)

theorem retains_line_break (h : 0x0A ∉ line) :
    f.retains (line ++ [0x0A]) = (parseLine line).any fun op => f.canRead op.path := by
  refine retains_of_parse f trimSpace_line_break_eq_nil_iff ?_
  rw [parse_line_break, parse_nil, List.append_nil, parse_of_notMem h]

theorem parse_keptLine {l : GoString} (hretains : f.retains l =
      (parseLine line).any fun op => f.canRead op.path)
    (hparse : parse l = (parseLine line).toList) :
    parse (keptLine f.retains l) = (parse l).filter fun op => f.canRead op.path := by
  rw [keptLine, hretains, hparse]
  cases hline : parseLine line with
  | none => rfl
  | some op =>
    rw [Option.any_some, Option.toList_some, List.filter_singleton]
    cases f.canRead op.path with
    | false => rfl
    | true =>
      rw [if_pos rfl, hparse, hline]
      rfl

/-- The op of a retained line stays its op, whatever the line becomes. -/
theorem mem_parse_longer {t : GoString} {op : Op} (h : 0x0A ∉ line)
    (hop : parseLine line = some op) (hkept : f.retains (line ++ headLine 0x0A t) = true) :
    op ∈ parse (line ++ t) := by
  have hlonger {u : GoString} (hkept : ((parseLine (line ++ u)).any fun op =>
      f.canRead op.path) = true) : op ∈ (parseLine (line ++ u)).toList := by
    cases hop' : parseLine (line ++ u) with
    | none =>
      rw [hop'] at hkept
      cases hkept
    | some op' =>
      rw [parseLine_longer hop hop']
      exact List.mem_singleton_self op
  by_cases hmem : (0x0A : UInt8) ∈ t
  · obtain ⟨u, rest, rfl, hu⟩ := List.eq_append_cons_of_mem hmem
    have hline : 0x0A ∉ line ++ u := by
      rw [List.mem_append, not_or]
      exact ⟨h, hu⟩
    rw [headLine, splitAfter_line hu, List.headD_cons, ← List.append_assoc,
      retains_line_break f hline] at hkept
    rw [← List.append_assoc, parse_line_break, parse_of_notMem hline]
    exact List.mem_append_left _ (hlonger hkept)
  · have hline : 0x0A ∉ line ++ t := by
      rw [List.mem_append, not_or]
      exact ⟨h, hmem⟩
    rw [headLine, splitAfter_of_notMem hmem, List.headD_cons, retains_of_notMem f hline] at hkept
    rw [parse_of_notMem hline]
    exact hlonger hkept

end

/-! ### The whole journal -/

/-- **Filtering the bytes of a journal is filtering its ops.** -/
theorem parse_filterJournal (f : ReadFilter) (data : GoString) :
    parse (filterJournal f data) = (parse data).filter fun op => f.canRead op.path := by
  rw [filterJournal]
  split
  case isTrue hoff =>
    rw [Bool.not_eq_true'] at hoff
    exact (List.filter_eq_self.mpr fun op _ => f.all_of_off hoff op.path).symm
  case isFalse =>
    induction data using line_induction (c := (0x0A : UInt8)) with
    | last l h =>
      rw [keepLines_of_notMem h,
        parse_keptLine f (retains_of_notMem f h) (parse_of_notMem h)]
    | line l s h ih =>
      have hline : parse (l ++ [0x0A]) = (parseLine l).toList := by
        rw [parse_line_break, parse_nil, List.append_nil, parse_of_notMem h]
      have hkept := parse_keptLine f (retains_line_break f h) hline
      rw [keepLines_line h, parse_line_break, List.filter_append, parse_of_notMem h, ← hline,
        ← hkept, ← ih, keptLine]
      split
      · rw [List.append_assoc, List.singleton_append, parse_line_break, parse_line_break, parse_nil,
          List.append_nil]
      · rfl

/-- The lines an account is shown are lines of the journal, byte for byte. -/
theorem exists_sublist_filterJournal (f : ReadFilter) (data : GoString) :
    ∃ kept : List GoString, kept.Sublist (splitAfter 0x0A data) ∧ filterJournal f data = kept.flatten := by
  rw [filterJournal]
  split
  · exact ⟨_, List.Sublist.refl _, (flatten_splitAfter data).symm⟩
  · exact ⟨_, List.filter_sublist, rfl⟩

/-- What is appended leaves an op that could be read on the unfinished line readable there. -/
def KeepsLastLine (f : ReadFilter) (data t : GoString) : Prop :=
  f.retains (lastLine data) = true → f.retains (lastLine data ++ headLine 0x0A t) = true

/-- What is appended brings the bytes of the unfinished line again, as the next that is shown. -/
def RepeatsLastLine (f : ReadFilter) (data t : GoString) : Prop :=
  lastLine data <+: keepLines 0x0A f.retains (behindHead 0x0A t)

theorem notMem_lastLine (data : GoString) : 0x0A ∉ lastLine data := fun hmem => by
  simpa using List.mem_rtakeWhile_imp hmem

theorem closed_wholePart (data : GoString) : Closed 0x0A (wholePart data) := wholePart_cases data

/-- **When the filtered journal has grown with the journal.** -/
theorem filterJournal_prefix_iff (f : ReadFilter) (data t : GoString) :
    filterJournal f data <+: filterJournal f (data ++ t) ↔
      f.hides = false ∨ KeepsLastLine f data t ∨ RepeatsLastLine f data t := by
  cases hon : f.hides with
  | false => simp [filterJournal, hon]
  | true =>
    have hgrown := @keepLines_prefix_iff _ _ _ f.retains _ _ (closed_wholePart data)
      (notMem_lastLine data) t
    rw [wholePart_append_lastLine] at hgrown
    simp only [filterJournal, hon, Bool.not_true, Bool.false_eq_true, if_false, false_or,
      reduceCtorEq]
    rw [hgrown, KeepsLastLine, RepeatsLastLine]
    cases f.retains (lastLine data) with
    | false => exact iff_of_true (fun h => nomatch h) (.inl fun h => nomatch h)
    | true => exact ⟨fun h => (h rfl).imp_left fun hkept _ => hkept,
        fun h _ => h.imp_left fun hkept => hkept rfl⟩

/-- Behind finished lines, or behind a line that is not shown, it always has. -/
theorem keepsLastLine_of_not_retains {f : ReadFilter} {data : GoString}
    (h : f.retains (lastLine data) = false) (t : GoString) : KeepsLastLine f data t := by
  intro hretains
  rw [h] at hretains
  cases hretains

/-- An op that an account may read is not lost to it. -/
theorem mem_parse_filterJournal_append {f : ReadFilter} {data t : GoString}
    (hkeeps : KeepsLastLine f data t) {op : Op} (h : op ∈ parse (filterJournal f data)) :
    op ∈ parse (filterJournal f (data ++ t)) := by
  rw [parse_filterJournal, List.mem_filter] at h ⊢
  refine ⟨?_, h.2⟩
  have hop := h.1
  rw [parse_eq, List.mem_append] at hop
  rw [← wholePart_append_lastLine data, List.append_assoc, parse_wholePart_append, List.mem_append]
  refine hop.imp_right fun hlast => ?_
  have hlast := Option.mem_toList.mp hlast
  refine mem_parse_longer f (notMem_lastLine data) hlast (hkeeps ?_)
  rw [retains_of_notMem f (notMem_lastLine data), hlast]
  exact h.2

/-! ### A device that pulls -/

/-- `sizeGrowth`. -/
def sizeGrowth : ℤ := 2 ^ 20

/-- `sizeBound`: the listed size, and room for what is appended before the body is read. -/
def sizeBound (size : ℤ) : ℤ :=
  if size ≤ 0 ∨ 2 ^ 63 - 1 - sizeGrowth < size then sizeGrowth else size + sizeGrowth

/-- `pullBound`: the most that is read of a body of that size. -/
def pullBound (size : ℤ) : ℤ := min (sizeBound size) maxPullBytes

theorem pullBound_le (size : ℤ) : pullBound size ≤ maxPullBytes := Int.min_le_right _ _

/-- A body that is not too large is read whole. -/
theorem le_pullBound {size : ℤ} (h : size ≤ maxPullBytes) : size ≤ pullBound size := by
  refine le_min ?_ h
  simp only [sizeBound, sizeGrowth, maxPullBytes] at *
  split_ifs with hsize
  · omega
  · omega

/-- One cycle of a device that holds `copy`. A journal that nothing is left of is not listed to an
account from which something is hidden; any other is listed with the length of what is served. -/
def pullFiltered (f : ReadFilter) (room : Bool) (data : GoString) (copy : Option GoString) :
    Option GoString :=
  let body := filterJournal f data
  if f.hides && body = [] then copy
  else ((pullJournal room copy body.length (body.take (pullBound body.length).toNat)).map
    Pulled.copy).or copy

/-- A journal that grows without losing an op from its unfinished line, and a device that pulls it
now and then and starts with no copy. -/
inductive Follows (f : ReadFilter) : GoString → Option GoString → Prop where
  | start (data : GoString) : Follows f data none
  | grow {data : GoString} {copy : Option GoString} (t : GoString) (h : Follows f data copy)
      (hkeeps : KeepsLastLine f data t) : Follows f (data ++ t) copy
  | pull {data : GoString} {copy : Option GoString} (room : Bool) (h : Follows f data copy) :
      Follows f data (pullFiltered f room data copy)

/-- The filtered journal is no larger than what is pulled. -/
def Small (f : ReadFilter) (data : GoString) : Prop :=
  ((filterJournal f data).length : ℤ) ≤ maxPullBytes

/-- What a device holds all along: a front of the filtered journal, no longer than may be pulled,
and with no op that is not there as long as all of it may be. -/
structure Holds (f : ReadFilter) (data : GoString) (copy : Option GoString) : Prop where
  front : copy.getD [] <+: filterJournal f data
  bounded : ((copy.getD []).length : ℤ) ≤ maxPullBytes
  ops : Small f data → ∀ op ∈ parse (copy.getD []), op ∈ parse (filterJournal f data)

/-- A cycle leaves the copy as it is, or the body as far as it is read. -/
theorem pullFiltered_cases (f : ReadFilter) (room : Bool) (data : GoString)
    (copy : Option GoString) :
    pullFiltered f room data copy = copy ∨ pullFiltered f room data copy =
      some ((filterJournal f data).take (pullBound (filterJournal f data).length).toNat) := by
  rw [pullFiltered]
  split
  · exact .inl rfl
  · cases hpull : pullJournal room copy (filterJournal f data).length
        ((filterJournal f data).take (pullBound (filterJournal f data).length).toNat) with
    | none => exact .inl rfl
    | some r => exact .inr (congrArg some (pullJournal_eq_some hpull).1)

/-- A body that is not too large is read whole. -/
theorem take_pullBound {f : ReadFilter} {data : GoString} (h : Small f data) :
    (filterJournal f data).take (pullBound (filterJournal f data).length).toNat =
      filterJournal f data := by
  have hle := le_pullBound h
  exact List.take_of_length_le (by omega)

theorem Follows.holds {f : ReadFilter} {data : GoString} {copy : Option GoString}
    (h : Follows f data copy) : Holds f data copy := by
  induction h with
  | start data => exact ⟨List.nil_prefix, by decide, fun _ op hop => absurd hop List.not_mem_nil⟩
  | @grow data copy t h hkeeps ih =>
    have hgrown := (filterJournal_prefix_iff f data t).mpr (.inr (.inl hkeeps))
    refine ⟨ih.front.trans hgrown, ih.bounded, fun hsmall op hop => ?_⟩
    have hlen := hgrown.length_le
    have hbefore : Small f data := by
      unfold Small at hsmall ⊢
      omega
    exact mem_parse_filterJournal_append hkeeps (ih.ops hbefore op hop)
  | @pull data copy room h ih =>
    rcases pullFiltered_cases f room data copy with heq | heq
    · rwa [heq]
    · rw [heq]
      refine ⟨List.take_prefix _ _, ?_, fun hsmall op hop => ?_⟩
      · have hbound := pullBound_le (filterJournal f data).length
        have hmax : (0 : ℤ) ≤ maxPullBytes := by decide
        have hlen := List.length_take_le (pullBound (filterJournal f data).length).toNat
          (filterJournal f data)
        rw [Option.getD_some]
        omega
      · rwa [Option.getD_some, take_pullBound hsmall] at hop

/-- **A cycle that is not out of room leaves the device with the filtered journal.** -/
theorem Follows.getD_pullFiltered {f : ReadFilter} {data : GoString} {copy : Option GoString}
    (h : Follows f data copy) {room : Bool} (hroom : copy ≠ none ∨ room = true)
    (hsmall : Small f data) :
    (pullFiltered f room data copy).getD [] = filterJournal f data := by
  obtain ⟨hfront, -, hops⟩ := h.holds
  rw [pullFiltered]
  split
  case isTrue hnone =>
    simp only [Bool.and_eq_true, decide_eq_true_eq] at hnone
    rw [hnone.2] at hfront ⊢
    exact List.prefix_nil.mp hfront
  case isFalse =>
    rw [take_pullBound hsmall, pullJournal]
    split_ifs with hsize hfull hsame hredefined hrewritten
    · exact hfront.eq_of_length_le (by omega)
    · rw [hfull.2] at hroom
      exact absurd hfull.1 (hroom.resolve_right Bool.false_ne_true)
    · exact hsame
    · rw [redefinesApplied_of_subset (hops hsmall)] at hredefined
      cases hredefined
    · exact absurd ((List.rdropWhile_prefix _ _).trans hfront) hrewritten.2.1
    · rfl

theorem Follows.getD_pullFiltered_iff {f : ReadFilter} {data : GoString} {copy : Option GoString}
    (h : Follows f data copy) {room : Bool} (hroom : copy ≠ none ∨ room = true) :
    (pullFiltered f room data copy).getD [] = filterJournal f data ↔ Small f data := by
  refine ⟨fun heq => ?_, h.getD_pullFiltered hroom⟩
  have hbounded := (Follows.pull room h).holds.bounded
  rwa [heq] at hbounded

/-- **Filtering a journal commutes with reading it, and with growing it line by line.** -/
theorem filtering_commutes (f : ReadFilter) :
    (∀ data, parse (filterJournal f data) =
        (parse data).filter fun op => f.canRead op.path) ∧
      (∀ data, ∃ kept : List GoString, kept.Sublist (splitAfter 0x0A data) ∧
        filterJournal f data = kept.flatten) ∧
      (∀ data t, filterJournal f data <+: filterJournal f (data ++ t) ↔
        f.hides = false ∨ KeepsLastLine f data t ∨ RepeatsLastLine f data t) ∧
      (∀ data t, f.retains (lastLine data) = false → KeepsLastLine f data t) ∧
      ∀ data copy, Follows f data copy → ∀ room, copy ≠ none ∨ room = true →
        ((pullFiltered f room data copy).getD [] = filterJournal f data ↔ Small f data) :=
  ⟨parse_filterJournal f, exists_sublist_filterJournal f, filterJournal_prefix_iff f,
    fun _ t h => keepsLastLine_of_not_retains h t, fun _ _ h _ => h.getD_pullFiltered_iff⟩

/-- A member who may not read a folder. -/
def outsideFolder : ReadFilter where
  hides := true
  canRead path := !hasPrefix path (ascii "hidden/")
  all_of_off h := nomatch h

/-- A device follows a journal that gets a second line. -/
theorem filtering_commutes_two_lines :
    parse (filterJournal outsideFolder (firstLine ++ secondLine)) =
        (parse (firstLine ++ secondLine)).filter (fun op => outsideFolder.canRead op.path) ∧
      ((pullFiltered outsideFolder true (firstLine ++ secondLine)
          (pullFiltered outsideFolder true firstLine none)).getD [] =
        filterJournal outsideFolder (firstLine ++ secondLine) ↔
          Small outsideFolder (firstLine ++ secondLine)) := by
  refine ⟨(filtering_commutes outsideFolder).1 _, ?_⟩
  refine (filtering_commutes outsideFolder).2.2.2.2 _ _ ?_ true (.inr rfl)
  refine .grow secondLine (.pull true (.start firstLine)) ?_
  exact keepsLastLine_of_not_retains (by decide +kernel) _

/-- An op whose line break is missing is lost with the line that is written behind it. -/
theorem unfinished_line_is_lost : ¬ ∀ (f : ReadFilter) (data t : GoString), Closed 0x0A t →
    filterJournal f data <+: filterJournal f (data ++ t) ∧
      (pullFiltered f true (data ++ t) (pullFiltered f true data none)).getD [] =
        filterJournal f (data ++ t) := by
  intro h
  have hclosed : Closed 0x0A secondLine := by
    right
    exact ⟨secondLine.dropLast, by decide +kernel⟩
  have hshorter : ¬ filterJournal outsideFolder firstLine.dropLast <+:
      filterJournal outsideFolder (firstLine.dropLast ++ secondLine) := by
    decide +kernel
  exact hshorter (h outsideFolder _ _ hclosed).1

end Beardrive
