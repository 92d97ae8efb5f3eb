import Beardrive.Lib.GoTime
import Beardrive.Lib.Utf16
import Mathlib.Data.List.DropRight

/-!
# Conflict copies in the browser

The browser tells a conflict copy by its path alone: an expression, anchored at the end of the path,
finds the mark, the device and the second, and the date is built from its fields and asked for them
again, so that one that does not exist is refused. The browser writes such names too.

A path is here a list of code units. An instant is a number of milliseconds since 1970.

## The anchor

What the expression matches begins with a full stop and has no other. So a path is matched at its
last full stop or not at all, and what stands in front of it is of no concern.

## Main definitions

* `execConflict` — the expression
* `dateUTC`, `dateFields` — the instant of a date, and the date of an instant
* `parseConflict` — the copy behind a path
* `conflictName` — the path of a copy

## Main results

* `parseConflict_copy` — what is recognised
* `parseConflict_tag` — a tag that is too long is not
* `stamp_unixMilli`, `unitBytes_conflictName_iff` — the names the browser writes
* `dateFields_unixMilli` — an instant has the date it has in UTC
-/

namespace Beardrive

/-- The milliseconds of an instant since 1970. -/
def Time.unixMilli (t : Time) : ℤ := t.unixNano / 1000000

namespace Browser

/-! ### The expression -/

/-- `\d`. -/
def digitUnit (u : ℕ) : Bool := 0x30 ≤ u && u ≤ 0x39

/-- `[A-Za-z0-9_-]`. -/
def tagUnit (u : ℕ) : Bool :=
  (0x41 ≤ u && u ≤ 0x5A) || (0x61 ≤ u && u ≤ 0x7A) || digitUnit u || u == 0x5F || u == 0x2D

/-- The number of a run of digits. -/
def unitsNumber (us : List ℕ) : ℕ := us.foldl (fun v u => 10 * v + (u - 0x30)) 0

/-- `(\d{n})`, and what is behind it. -/
def readDigits (n : ℕ) (us : List ℕ) : Option (ℕ × List ℕ) :=
  if n ≤ us.length ∧ (us.take n).all digitUnit then some (unitsNumber (us.take n), us.drop n)
  else none

/-- A unit, and what is behind it. -/
def readUnit (c : ℕ) : List ℕ → Option (List ℕ)
  | u :: us => if u = c then some us else none
  | [] => none

/-- A date and a clock. Months count from one. -/
structure DateFields where
  year : ℤ
  month : ℕ
  day : ℕ
  hour : ℕ
  minute : ℕ
  second : ℕ
  deriving DecidableEq, Repr

/-- `(\d{4})(\d{2})(\d{2})T(\d{2})(\d{2})(\d{2})Z$`. -/
def readStamp (us : List ℕ) : Option DateFields := do
  let (year, us) ← readDigits 4 us
  let (month, us) ← readDigits 2 us
  let (day, us) ← readDigits 2 us
  let us ← readUnit 0x54 us
  let (hour, us) ← readDigits 2 us
  let (minute, us) ← readDigits 2 us
  let (second, us) ← readDigits 2 us
  let us ← readUnit 0x5A us
  if us = [] then some ⟨year, month, day, hour, minute, second⟩ else none

/-- `\.bdrive-conflict-`. -/
def conflictMark : List ℕ := (ascii ".bdrive-conflict-").map UInt8.toNat

/-- `RE`, matched at the start of a text. It reaches the end, and a stamp has sixteen units. -/
def conflictTail (us : List ℕ) : Option (List ℕ × DateFields) :=
  let rest := us.drop conflictMark.length
  let device := rest.take (rest.length - 17)
  if conflictMark <+: us ∧ device.length ≤ 32 ∧ device.all tagUnit then
    (readUnit 0x2D (rest.drop (rest.length - 17))).bind fun stamp =>
      (readStamp stamp).map (device, ·)
  else none

/-- `RE.exec`: the first match, with what is in front of it. -/
def execConflict : List ℕ → Option (List ℕ × List ℕ × DateFields)
  | [] => none
  | u :: us =>
    match conflictTail (u :: us) with
    | some m => some ([], m)
    | none => (execConflict us).map fun m => (u :: m.1, m.2)

/-! ### Dates -/

/-- The days from the first of January of the year 1 to that of 1970. -/
def epochDays : ℤ := 719162

/-- `Date.UTC`. A year of two digits is one of the last century, and months that do not exist are
counted on. -/
def dateUTC (f : DateFields) : ℤ :=
  let year := if 0 ≤ f.year ∧ f.year ≤ 99 then 1900 + f.year else f.year
  let month := (f.month : ℤ) - 1
  let y := year + month / 12
  (daysBeforeYear y + daysBeforeMonth ((month % 12).toNat + 1) y + (f.day - 1) - epochDays) *
    86400000 + f.hour * 3600000 + f.minute * 60000 + f.second * 1000

/-- The date of an instant, as the getters of a `Date` tell it. -/
def dateFields (ms : ℤ) : DateFields :=
  let date := civilFromDays (ms / 86400000 + epochDays)
  let clock := (ms / 1000 % 86400).toNat
  ⟨date.1, date.2.1, date.2.2, clock / 3600, clock / 60 % 60, clock % 60⟩

/-! ### Reading and writing a name -/

/-- `Conflict`. -/
structure Conflict where
  original : List ℕ
  device : List ℕ
  when : ℤ
  deriving DecidableEq, Repr

/-- `parseConflict`. -/
def parseConflict (path : List ℕ) : Option Conflict :=
  (execConflict path).bind fun (original, device, fields) =>
    let when := dateUTC fields
    if dateFields when = fields then some ⟨original, device, when⟩ else none

/-- `String(n)`. -/
def numberText (n : ℤ) : List ℕ :=
  (if n < 0 then [0x2D] else []) ++ (decimal n.natAbs).map UInt8.toNat

/-- `p2`. -/
def p2 (n : ℕ) : List ℕ := (padded 2 n).map UInt8.toNat

/-- The stamp of an instant. -/
def stamp (when : ℤ) : List ℕ :=
  let f := dateFields when
  numberText f.year ++ p2 f.month ++ p2 f.day ++ 0x54 :: p2 f.hour ++ p2 f.minute ++ p2 f.second ++
    [0x5A]

/-- `device.replace(/[^A-Za-z0-9_-]/g, "-")`. -/
def sanitize (device : List ℕ) : List ℕ := device.map fun u => if tagUnit u then u else 0x2D

/-- What is put behind the name of a file. -/
def conflictSuffix (device : List ℕ) (when : ℤ) : List ℕ :=
  conflictMark ++ (sanitize device).take 32 ++ 0x2D :: stamp when

/-- The directory of a path and its name. -/
def splitPath (path : List ℕ) : List ℕ × List ℕ :=
  (path.rdropWhile (· ≠ 0x2F), path.rtakeWhile (· ≠ 0x2F))

/-- `conflictName`. -/
def conflictName (path device : List ℕ) (when : ℤ) : List ℕ :=
  let suffix := conflictSuffix device when
  (splitPath path).1 ++ ((splitPath path).2.take (255 - suffix.length) ++ suffix)

/-- A copy of a file in a directory. -/
example : parseConflict (units (ascii "a/b.txt.bdrive-conflict-Mac-20260814T060945Z")) =
    some ⟨units (ascii "a/b.txt"), units (ascii "Mac"), 1786687785000⟩ := by
  decide

/-! ### What the expression matches -/

theorem readDigits_some {n v : ℕ} {us rest : List ℕ} (h : readDigits n us = some (v, rest)) :
    ∃ ds, us = ds ++ rest ∧ ∀ d ∈ ds, digitUnit d = true := by
  rw [readDigits] at h
  split_ifs at h with hds
  obtain ⟨-, rfl⟩ := Prod.mk.inj (Option.some.inj h)
  exact ⟨us.take n, (List.take_append_drop n us).symm, List.all_eq_true.mp hds.2⟩

theorem readUnit_some {c : ℕ} {us rest : List ℕ} (h : readUnit c us = some rest) :
    us = c :: rest := by
  cases us with
  | nil => cases h
  | cons u us =>
    rw [readUnit] at h
    split_ifs at h with hu
    rw [hu, Option.some.inj h]

/-- A stamp is digits and two letters. -/
theorem mem_of_readStamp {us : List ℕ} {f : DateFields} (h : readStamp us = some f) :
    ∀ u ∈ us, digitUnit u = true ∨ u = 0x54 ∨ u = 0x5A := by
  simp only [readStamp, Option.bind_eq_bind, Option.bind_eq_some_iff, Prod.exists] at h
  obtain ⟨_, us₁, h₁, _, us₂, h₂, _, us₃, h₃, us₄, h₄, _, us₅, h₅, _, us₆, h₆, _, us₇, h₇, us₈, h₈,
    hend⟩ := h
  obtain ⟨d₁, rfl, hd₁⟩ := readDigits_some h₁
  obtain ⟨d₂, rfl, hd₂⟩ := readDigits_some h₂
  obtain ⟨d₃, rfl, hd₃⟩ := readDigits_some h₃
  obtain rfl := readUnit_some h₄
  obtain ⟨d₅, rfl, hd₅⟩ := readDigits_some h₅
  obtain ⟨d₆, rfl, hd₆⟩ := readDigits_some h₆
  obtain ⟨d₇, rfl, hd₇⟩ := readDigits_some h₇
  obtain rfl := readUnit_some h₈
  split_ifs at hend with hnil
  subst hnil
  intro u hu
  simp only [List.mem_append, List.mem_cons, List.not_mem_nil, or_false] at hu
  rcases hu with hu | hu | hu | rfl | hu | hu | hu | rfl
  · exact .inl (hd₁ u hu)
  · exact .inl (hd₂ u hu)
  · exact .inl (hd₃ u hu)
  · exact .inr (.inl rfl)
  · exact .inl (hd₅ u hu)
  · exact .inl (hd₆ u hu)
  · exact .inl (hd₇ u hu)
  · exact .inr (.inr rfl)

theorem dot_notMem_of_readStamp {us : List ℕ} {f : DateFields} (h : readStamp us = some f) :
    0x2E ∉ us := fun hmem => absurd (mem_of_readStamp h _ hmem) (by decide)

theorem dot_notMem_of_tag {us : List ℕ} (h : us.all tagUnit = true) : 0x2E ∉ us :=
  fun hmem => absurd (List.all_eq_true.mp h _ hmem) (by decide)

/-- **What the expression matches begins with a full stop and has no other**, and no slash. -/
theorem dot_of_conflictTail {us : List ℕ} {m : List ℕ × DateFields}
    (h : conflictTail us = some m) : ∃ tail, us = 0x2E :: tail ∧ 0x2E ∉ tail ∧ 0x2F ∉ us := by
  rw [conflictTail] at h
  split_ifs at h with hmark
  obtain ⟨⟨rest, rfl⟩, -, htag⟩ := hmark
  rw [List.drop_left] at h htag
  obtain ⟨us', hunit, hstamp⟩ := Option.bind_eq_some_iff.mp h
  obtain ⟨f, hf, -⟩ := Option.map_eq_some_iff.mp hstamp
  have hsplit := List.take_append_drop (rest.length - 17) rest
  rw [readUnit_some hunit] at hsplit
  refine ⟨conflictMark.tail ++ rest, rfl, ?_, ?_⟩
  · rw [← hsplit, List.mem_append, List.mem_append, List.mem_cons]
    rintro (hmem | hmem | hmem | hmem)
    · exact absurd hmem (by decide)
    · exact dot_notMem_of_tag htag hmem
    · exact absurd hmem (by decide)
    · exact dot_notMem_of_readStamp hf hmem
  · rw [← hsplit, List.mem_append, List.mem_append, List.mem_cons]
    rintro (hmem | hmem | hmem | hmem)
    · exact absurd hmem (by decide)
    · exact absurd (List.all_eq_true.mp htag _ hmem) (by decide)
    · exact absurd hmem (by decide)
    · exact absurd (mem_of_readStamp hf _ hmem) (by decide)

theorem execConflict_eq_none {us : List ℕ} (h : 0x2E ∉ us) : execConflict us = none := by
  induction us with
  | nil => rfl
  | cons u us ih =>
    obtain ⟨hu, hus⟩ := not_or.mp (mt List.mem_cons.mpr h)
    cases htail : conflictTail (u :: us) with
    | none => rw [execConflict, htail, ih hus]; rfl
    | some m =>
      obtain ⟨tail, heq, -, -⟩ := dot_of_conflictTail htail
      exact absurd (List.cons.inj heq).1.symm hu

/-- **A path is matched at its last full stop.** -/
theorem execConflict_dot {tail : List ℕ} (h : 0x2E ∉ tail) (us : List ℕ) :
    execConflict (us ++ 0x2E :: tail) = (conflictTail (0x2E :: tail)).map (us, ·) := by
  induction us with
  | nil =>
    rw [List.nil_append, execConflict, execConflict_eq_none h]
    cases conflictTail (0x2E :: tail) with
    | none => rfl
    | some m => rfl
  | cons u us ih =>
    cases htail : conflictTail (u :: (us ++ 0x2E :: tail)) with
    | none =>
      rw [List.cons_append, execConflict, htail, ih, Option.map_map]
      rfl
    | some m =>
      obtain ⟨rest, heq, hrest, -⟩ := dot_of_conflictTail htail
      rw [← (List.cons.inj heq).2] at hrest
      exact absurd (List.mem_append_right us (List.mem_cons_self ..)) hrest

/-- A match is the end of its path, in the directory of what is in front of it. -/
theorem execConflict_split {us : List ℕ} {m : List ℕ × List ℕ × DateFields}
    (h : execConflict us = some m) : ∃ tail, us = m.1 ++ tail ∧ tail ≠ [] ∧ 0x2F ∉ tail := by
  induction us generalizing m with
  | nil => cases h
  | cons u us ih =>
    rw [execConflict] at h
    split at h
    · next m' htail =>
      obtain ⟨tail, heq, -, hslash⟩ := dot_of_conflictTail htail
      rw [← Option.some.inj h]
      exact ⟨u :: us, rfl, List.cons_ne_nil u us, hslash⟩
    · obtain ⟨m', hm', rfl⟩ := Option.map_eq_some_iff.mp h
      obtain ⟨tail, rfl, hne, hslash⟩ := ih hm'
      exact ⟨tail, rfl, hne, hslash⟩

/-- **A copy is in the directory of its original.** -/
theorem parseConflict_split {path : List ℕ} {c : Conflict} (h : parseConflict path = some c) :
    ∃ tail, path = c.original ++ tail ∧ tail ≠ [] ∧ 0x2F ∉ tail := by
  obtain ⟨m, hm, hc⟩ := Option.bind_eq_some_iff.mp h
  obtain ⟨tail, heq, htail⟩ := execConflict_split hm
  dsimp only at hc
  split_ifs at hc
  rw [← Option.some.inj hc]
  exact ⟨tail, heq, htail⟩

/-- A tag of at most thirty-two units and sixteen units of a stamp are matched. -/
theorem conflictTail_mark {tag us : List ℕ} (hus : us.length = 16) :
    conflictTail (conflictMark ++ (tag ++ 0x2D :: us)) =
      if tag.length ≤ 32 ∧ tag.all tagUnit then (readStamp us).map (tag, ·) else none := by
  have hlen : (tag ++ 0x2D :: us).length - 17 = tag.length := by
    rw [List.length_append, List.length_cons, hus]
    exact Nat.add_sub_cancel _ 17
  rw [conflictTail]
  rw [List.drop_left, hlen, List.take_left, List.drop_left]
  by_cases htag : tag.length ≤ 32 ∧ tag.all tagUnit
  · rw [if_pos htag, if_pos ⟨List.prefix_append .., htag⟩, readUnit, if_pos rfl]
    rfl
  · rw [if_neg htag, if_neg fun h => htag h.2]

/-! ### An instant and its date -/

theorem readDigits_padded {w n : ℕ} (hw : 0 < w) (h : n < 10 ^ w) (us : List ℕ) :
    readDigits w ((padded w n).map UInt8.toNat ++ us) = some (n, us) := by
  have hlen : ((padded w n).map UInt8.toNat).length = w := by
    rw [List.length_map, length_padded hw h]
  have htake : ((padded w n).map UInt8.toNat ++ us).take w = (padded w n).map UInt8.toNat := by
    rw [List.take_append_of_le_length hlen.ge, List.take_of_length_le hlen.le]
  have hdrop : ((padded w n).map UInt8.toNat ++ us).drop w = us := by
    rw [List.drop_append_of_le_length hlen.ge, List.drop_of_length_le hlen.le, List.nil_append]
  have hdigits : ((padded w n).map UInt8.toNat).all digitUnit = true := by
    rw [List.all_map, List.all_eq_true]
    intro b hb
    have hb := digitByte_iff.mp (digitByte_of_mem_padded hb)
    simpa [digitUnit] using hb
  have hnumber : unitsNumber ((padded w n).map UInt8.toNat) = n := by
    rw [unitsNumber, List.foldl_map]
    exact natOfDigits_padded w n
  have hle : w ≤ ((padded w n).map UInt8.toNat ++ us).length := by
    rw [List.length_append, hlen]
    exact Nat.le_add_right w _
  rw [readDigits, htake, hdrop, hnumber, if_pos ⟨hle, hdigits⟩]

/-- **An instant has the date it has in UTC.** -/
theorem dateFields_unixMilli (t : Time) : dateFields t.unixMilli =
    ⟨t.inUTC.year, t.inUTC.month, t.inUTC.day, t.inUTC.hour, t.inUTC.minute, t.inUTC.second⟩ := by
  have hnano : t.nano < 1000000000 := by
    have hv := t.valid
    simp only [validCivil, Bool.and_eq_true, decide_eq_true_eq] at hv
    exact hv.2
  have hms : t.unixMilli = (t.seconds - 62135596800) * 1000 + t.nano / 1000000 := by
    rw [Time.unixMilli, Time.unixNano, Time.ns]
    omega
  have hday : t.unixMilli / 86400000 + epochDays = t.seconds / 86400 := by
    rw [hms, epochDays]
    omega
  have hclock : t.unixMilli / 1000 % 86400 = t.seconds % 86400 := by
    rw [hms]
    omega
  rw [dateFields, hday, hclock]
  rfl

/-- The milliseconds of the second an instant is in. -/
def wholeSecond (t : Time) : ℤ := (t.seconds - 62135596800) * 1000

theorem dateFields_wholeSecond (t : Time) :
    dateFields (wholeSecond t) = dateFields t.unixMilli := by
  have hday : wholeSecond t / 86400000 + epochDays = t.seconds / 86400 := by
    rw [wholeSecond, epochDays]
    omega
  have hclock : wholeSecond t / 1000 % 86400 = t.seconds % 86400 := by
    rw [wholeSecond]
    omega
  rw [dateFields_unixMilli, dateFields, hday, hclock]
  rfl

/-- The second an instant is in is that of its date, unless the year has one or two digits. -/
theorem dateUTC_dateFields {t : Time} (h : 100 ≤ t.inUTC.year) :
    dateUTC (dateFields t.unixMilli) = wholeSecond t := by
  have hvalid := t.inUTC.valid
  simp only [validCivil, Bool.and_eq_true, decide_eq_true_eq] at hvalid
  have hyear : ¬ (0 ≤ t.inUTC.year ∧ t.inUTC.year ≤ 99) := by omega
  have hdiv : ((t.inUTC.month : ℤ) - 1) / 12 = 0 := by omega
  have hmod : (((t.inUTC.month : ℤ) - 1) % 12).toNat + 1 = t.inUTC.month := by omega
  have hseconds : t.inUTC.seconds = t.seconds := by
    have hns := t.ns_inUTC
    rw [Time.ns, Time.ns, show t.inUTC.nano = t.nano from rfl] at hns
    omega
  rw [dateFields_unixMilli, dateUTC, wholeSecond, ← hseconds, Time.seconds]
  simp only [if_neg hyear, hdiv, hmod, Int.add_zero]
  rw [show t.inUTC.offset = 0 from rfl, epochDays]
  omega

/-- An instant whose year, in UTC, has four digits. -/
def YearOfFour (t : Time) : Prop := 1000 ≤ t.inUTC.year ∧ t.inUTC.year ≤ 9999

instance (t : Time) : Decidable (YearOfFour t) := inferInstanceAs (Decidable (_ ∧ _))

/-- The fields of a stamp, without a sign. -/
theorem utcStamp_eq {t : Time} (h : YearOfFour t) : t.utcStamp.map UInt8.toNat =
    (padded 4 t.inUTC.year.natAbs).map UInt8.toNat ++ (p2 t.inUTC.month ++ (p2 t.inUTC.day ++
      0x54 :: (p2 t.inUTC.hour ++ (p2 t.inUTC.minute ++ (p2 t.inUTC.second ++ [0x5A]))))) := by
  have hsign : ¬ (civilFromDays (t.seconds / 86400)).1 < 0 := fun hneg =>
    absurd (hneg.trans_le (show 0 ≤ 1000 by decide)) (not_lt.mpr h.1)
  rw [Time.utcStamp]
  simp only [if_neg hsign, List.nil_append, List.map_append, List.map_cons, List.append_assoc,
    List.cons_append]
  rfl

/-- The fields of a stamp have their widths. -/
theorem utcStamp_fields_lt {t : Time} (h : YearOfFour t) : t.inUTC.year.natAbs < 10 ^ 4 ∧
    t.inUTC.month < 10 ^ 2 ∧ t.inUTC.day < 10 ^ 2 ∧ t.inUTC.hour < 10 ^ 2 ∧
      t.inUTC.minute < 10 ^ 2 ∧ t.inUTC.second < 10 ^ 2 := by
  have hvalid := t.inUTC.valid
  simp only [validCivil, Bool.and_eq_true, decide_eq_true_eq] at hvalid
  have hdays : daysIn t.inUTC.month t.inUTC.year ≤ 31 := by
    rw [daysIn]
    split_ifs
    · decide
    · decide
    · omega
  have hyear := h.2
  have hpos := h.1
  omega

theorem length_utcStamp {t : Time} (h : YearOfFour t) : t.utcStamp.length = 16 := by
  obtain ⟨hyear, hmonth, hday, hhour, hminute, hsecond⟩ := utcStamp_fields_lt h
  have hlen := congrArg List.length (utcStamp_eq h)
  simp only [p2, List.length_append, List.length_cons, List.length_map, List.length_nil] at hlen
  rw [hlen, length_padded (by decide) hyear, length_padded (by decide) hmonth,
    length_padded (by decide) hday, length_padded (by decide) hhour,
    length_padded (by decide) hminute, length_padded (by decide) hsecond]

/-- **A stamp is read back.** -/
theorem readStamp_utcStamp {t : Time} (h : YearOfFour t) :
    readStamp (t.utcStamp.map UInt8.toNat) = some (dateFields t.unixMilli) := by
  obtain ⟨hyear, hmonth, hday, hhour, hminute, hsecond⟩ := utcStamp_fields_lt h
  have habs : (t.inUTC.year.natAbs : ℤ) = t.inUTC.year :=
    Int.natAbs_of_nonneg ((show (0 : ℤ) ≤ 1000 by decide).trans h.1)
  have htwo {n : ℕ} (hn : n < 10 ^ 2) (us : List ℕ) : readDigits 2 (p2 n ++ us) = some (n, us) :=
    readDigits_padded (by decide) hn us
  have hunit (c : ℕ) (us : List ℕ) : readUnit c (c :: us) = some us := if_pos rfl
  rw [utcStamp_eq h, readStamp]
  simp only [readDigits_padded (show 0 < 4 by decide) hyear, htwo hmonth, htwo hday, htwo hhour,
    htwo hminute, htwo hsecond, hunit, Option.bind_eq_bind, Option.bind_some, habs,
    dateFields_unixMilli, if_true]

/-- **The browser writes the same stamp.** -/
theorem stamp_unixMilli {t : Time} (h : YearOfFour t) :
    stamp t.unixMilli = t.utcStamp.map UInt8.toNat := by
  have hlow : 10 ^ 3 ≤ t.inUTC.year.natAbs := by
    have := h.1
    omega
  have hlen := lt_length_decimal hlow
  have hpad : padded 4 t.inUTC.year.natAbs = decimal t.inUTC.year.natAbs := by
    rw [padded, Nat.sub_eq_zero_of_le hlen]
    rfl
  have hsign : ¬ t.inUTC.year < 0 := by
    have := h.1
    omega
  rw [utcStamp_eq h, stamp, dateFields_unixMilli, hpad]
  simp only [numberText, if_neg hsign, List.nil_append, List.append_assoc, List.cons_append]

/-! ### Recognition -/

/-- What the expression makes of a path that ends in the mark, a tag and a stamp. -/
theorem execConflict_mark {tag : List ℕ} (htag : 0x2E ∉ tag) {t : Time} (ht : YearOfFour t)
    (us : List ℕ) :
    execConflict (us ++ (conflictMark ++ (tag ++ 0x2D :: t.utcStamp.map UInt8.toNat))) =
      if tag.length ≤ 32 ∧ tag.all tagUnit then some (us, tag, dateFields t.unixMilli)
      else none := by
  have hread := readStamp_utcStamp ht
  have htail : 0x2E ∉ conflictMark.tail ++ (tag ++ 0x2D :: t.utcStamp.map UInt8.toNat) := by
    rw [List.mem_append, List.mem_append, List.mem_cons]
    rintro (hmem | hmem | hmem | hmem)
    · exact absurd hmem (by decide)
    · exact htag hmem
    · exact absurd hmem (by decide)
    · exact dot_notMem_of_readStamp hread hmem
  have hlen : (t.utcStamp.map UInt8.toNat).length = 16 := by
    rw [List.length_map, length_utcStamp ht]
  refine (execConflict_dot htail us).trans ?_
  change (conflictTail (conflictMark ++ (tag ++ 0x2D :: _))).map _ = _
  rw [conflictTail_mark hlen, hread]
  split_ifs
  · rfl
  · rfl

/-- **A copy is recognised** by its mark, a tag of at most thirty-two units and a stamp. -/
theorem parseConflict_copy {tag : List ℕ} (hlen : tag.length ≤ 32) (htag : tag.all tagUnit = true)
    {t : Time} (ht : YearOfFour t) (us : List ℕ) :
    parseConflict (us ++ (conflictMark ++ (tag ++ 0x2D :: t.utcStamp.map UInt8.toNat))) =
      some ⟨us, tag, wholeSecond t⟩ := by
  have hdate := dateUTC_dateFields ((show (100 : ℤ) ≤ 1000 by decide).trans ht.1)
  have hback : dateFields (wholeSecond t) = dateFields t.unixMilli := dateFields_wholeSecond t
  rw [parseConflict, execConflict_mark (dot_notMem_of_tag htag) ht, if_pos ⟨hlen, htag⟩,
    Option.bind_some]
  dsimp only
  rw [hdate, if_pos hback]

/-- **A tag that is too long hides a copy.** -/
theorem parseConflict_tag {tag : List ℕ} (hlen : 32 < tag.length) (htag : 0x2E ∉ tag)
    {t : Time} (ht : YearOfFour t) (us : List ℕ) :
    parseConflict (us ++ (conflictMark ++ (tag ++ 0x2D :: t.utcStamp.map UInt8.toNat))) = none := by
  rw [parseConflict, execConflict_mark htag ht, if_neg fun h => absurd h.1 (not_le.mpr hlen)]
  rfl

/-! ### The name the browser writes -/

theorem splitPath_append (us : List ℕ) :
    (splitPath us).1 ++ (splitPath us).2 = us ∧ 0x2F ∉ (splitPath us).2 := by
  refine ⟨List.rdropWhile_append_rtakeWhile, fun h => ?_⟩
  have hne := List.mem_rtakeWhile_imp h
  simp at hne

/-- A path is its directory and its name. -/
theorem splitPath_eq {dir name : List ℕ} (hdir : dir = [] ∨ ∃ d, dir = d ++ [0x2F])
    (hname : 0x2F ∉ name) : splitPath (dir ++ name) = (dir, name) := by
  have hall : ∀ u ∈ name.reverse, decide (u ≠ 0x2F) = true := fun u hu =>
    decide_eq_true fun h => hname (h ▸ List.mem_reverse.mp hu)
  rw [splitPath, List.rdropWhile, List.rtakeWhile, List.reverse_append,
    List.dropWhile_append_of_pos hall, List.takeWhile_append_of_pos hall]
  rcases hdir with rfl | ⟨d, rfl⟩
  · simp
  · simp

theorem splitPath_fst (us : List ℕ) :
    (splitPath us).1 = [] ∨ ∃ d, (splitPath us).1 = d ++ [0x2F] := by
  by_cases h : (splitPath us).1 = []
  · exact .inl h
  · have hlast := List.rdropWhile_last_not (fun u => decide (u ≠ 0x2F)) us h
    refine .inr ⟨(splitPath us).1.dropLast, ?_⟩
    have hslash : (splitPath us).1.getLast h = 0x2F := not_not.mp (mt decide_eq_true hlast)
    rw [← hslash, List.dropLast_append_getLast h]

theorem length_stamp {t : Time} (ht : YearOfFour t) : (stamp t.unixMilli).length = 16 := by
  rw [stamp_unixMilli ht, List.length_map, length_utcStamp ht]

theorem length_conflictSuffix {t : Time} (ht : YearOfFour t) (device : List ℕ) :
    (conflictSuffix device t.unixMilli).length = 34 + min 32 device.length := by
  simp only [conflictSuffix, List.length_append, List.length_cons, List.length_take,
    length_stamp ht]
  rw [show conflictMark.length = 17 from rfl, sanitize, List.length_map]
  omega

theorem all_tagUnit_sanitize (device : List ℕ) :
    ((sanitize device).take 32).all tagUnit = true := by
  rw [List.all_eq_true]
  intro u hu
  obtain ⟨v, -, rfl⟩ := List.mem_map.mp (List.mem_of_mem_take hu)
  split_ifs with h
  · exact h
  · rfl

/-- A suffix is ASCII, and none of a directory. -/
theorem suffix_units {t : Time} (ht : YearOfFour t) (device : List ℕ) :
    ∀ u ∈ conflictSuffix device t.unixMilli, u < 0x80 ∧ u ≠ 0x2F := by
  intro u hu
  simp only [conflictSuffix, stamp_unixMilli ht, List.mem_append, List.mem_cons] at hu
  rcases hu with (hu | hu) | rfl | hu
  · revert u
    decide
  · have htag := List.all_eq_true.mp (all_tagUnit_sanitize device) u hu
    simp only [tagUnit, digitUnit, Bool.or_eq_true, Bool.and_eq_true, decide_eq_true_eq,
      beq_iff_eq] at htag
    omega
  · decide
  · obtain ⟨b, hb, rfl⟩ := List.mem_map.mp hu
    rcases timeByte_cases (timeByte_of_mem_utcStamp b hb) with
      hdigit | rfl | rfl | rfl | rfl | rfl | rfl
    · simp only [digitByte, Bool.and_eq_true, decide_eq_true_eq, UInt8.le_iff_toNat_le] at hdigit
      have hlow : 0x30 ≤ b.toNat := hdigit.1
      have hhigh : b.toNat ≤ 0x39 := hdigit.2
      omega
    all_goals decide

/-- The browser's name, down to its parts. -/
theorem conflictName_eq {t : Time} (ht : YearOfFour t) (path device : List ℕ) :
    conflictName path device t.unixMilli =
      (splitPath path).1 ++
        (splitPath path).2.take (255 - (conflictSuffix device t.unixMilli).length) ++
        (conflictMark ++ ((sanitize device).take 32 ++ 0x2D :: t.utcStamp.map UInt8.toNat)) := by
  rw [conflictName, ← stamp_unixMilli ht, ← List.append_assoc, ← List.append_assoc conflictMark]
  rfl

theorem splitPath_conflictName {t : Time} (ht : YearOfFour t) (path device : List ℕ) :
    splitPath (conflictName path device t.unixMilli) = ((splitPath path).1,
      (splitPath path).2.take (255 - (conflictSuffix device t.unixMilli).length) ++
        conflictSuffix device t.unixMilli) := by
  refine splitPath_eq (splitPath_fst path) ?_
  rw [List.mem_append]
  rintro (h | h)
  · exact (splitPath_append path).2 (List.mem_of_mem_take h)
  · exact (suffix_units ht device _ h).2 rfl

/-- **Which of the browser's names are short enough.** -/
theorem unitBytes_conflictName_iff {t : Time} (ht : YearOfFour t) (path device : List ℕ) :
    unitBytes (splitPath (conflictName path device t.unixMilli)).2 ≤ 255 ↔
      unitBytes (splitPath path).2 ≤ 221 - min 32 device.length ∨
        ∀ u ∈ (splitPath path).2.take (221 - min 32 device.length), u < 0x80 := by
  have hlen := length_conflictSuffix ht device
  have hroom : 255 - (conflictSuffix device t.unixMilli).length = 221 - min 32 device.length := by
    omega
  have hsuffix : unitBytes (conflictSuffix device t.unixMilli) = 34 + min 32 device.length := by
    rw [← hlen, unitBytes_eq_length_iff]
    exact fun u hu => (suffix_units ht device u hu).1
  have happend : unitBytes ((splitPath path).2.take (221 - min 32 device.length) ++
      conflictSuffix device t.unixMilli) =
        unitBytes ((splitPath path).2.take (221 - min 32 device.length)) +
          unitBytes (conflictSuffix device t.unixMilli) :=
    unitBytes_append (c := 0x2E) rfl _ _
  rw [splitPath_conflictName ht, hroom, happend, hsuffix, ← unitBytes_take_le_iff]
  omega

end Browser

end Beardrive
