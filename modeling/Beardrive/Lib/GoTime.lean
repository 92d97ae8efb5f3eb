import Beardrive.Lib.Decimal
import Mathlib.Data.List.DropRight

/-!
# Times

A Go `time.Time` as its zone shows it: a date, a clock and the offset from UTC. The instant is
computed from these, and only the instant takes part in a comparison. Nothing here refers to any
particular program.

## The two grammars

A time is written in the strict grammar of RFC 3339, which has no seconds in its offsets, and is
refused where that grammar has no text for it. It is read in the lenient grammar of `time.Parse`:
a one-digit hour, a comma in front of the fraction and offsets up to `24:60` are taken as well.

## Main definitions

* `Time`, `Time.ns` — a time and its instant
* `Time.formatRFC3339`, `parseRFC3339` — writing and reading
* `Time.utcStamp`, `Time.utcNano` — the instant in UTC, in the compact form `20060102T150405Z` and
  in full

## Main results

* `parseRFC3339_formatRFC3339` — what was written is read back, to the minute of its offset
* `daysFromCivil_civilFromDays` — a date tells its day
* `ns_eq_of_utcNano` — two times that are written alike in UTC are the same instant
* `parseRFC3339_utcNano` — the text in UTC is read back where its year has four digits
-/

namespace Beardrive

/-! ### The calendar -/

/-- `isLeap`. -/
def leapYear (year : ℤ) : Bool := year % 4 == 0 && (year % 100 != 0 || year % 400 == 0)

/-- `daysIn`. -/
def daysIn (month : ℕ) (year : ℤ) : ℕ :=
  if month = 2 then if leapYear year then 29 else 28 else 30 + (month + month / 8) % 2

/-- A date and a clock that exist. -/
def validCivil (year : ℤ) (month day hour minute second nano : ℕ) : Bool :=
  1 ≤ month && month ≤ 12 && 1 ≤ day && day ≤ daysIn month year && hour < 24 && minute < 60 &&
    second < 60 && nano < 1000000000

theorem validCivil_zero : validCivil 1 1 1 0 0 0 0 = true := by decide

/-- A Go `time.Time`. The offset is in seconds east of UTC. -/
structure Time where
  year : ℤ := 1
  month : ℕ := 1
  day : ℕ := 1
  hour : ℕ := 0
  minute : ℕ := 0
  second : ℕ := 0
  nano : ℕ := 0
  offset : ℤ := 0
  valid : validCivil year month day hour minute second nano = true := by
    first | exact validCivil_zero | decide
  deriving DecidableEq, Repr

/-- The days from the first of January of the year 1 to the first of January of a year. -/
def daysBeforeYear (year : ℤ) : ℤ :=
  365 * (year - 1) + (year - 1) / 4 - (year - 1) / 100 + (year - 1) / 400

/-- The days from the first of January to the first of a month. -/
def daysBeforeMonth (month : ℕ) (year : ℤ) : ℕ :=
  ((List.range' 1 (month - 1)).map (daysIn · year)).sum

namespace Time

/-- Seconds since the zero time. -/
def seconds (t : Time) : ℤ :=
  (daysBeforeYear t.year + daysBeforeMonth t.month t.year + (t.day - 1)) * 86400 + t.hour * 3600 +
    t.minute * 60 + t.second - t.offset

/-- The instant: nanoseconds since the zero time. -/
def ns (t : Time) : ℤ := t.seconds * 1000000000 + t.nano

/-- `Time.IsZero`. -/
def isZero (t : Time) : Bool := t.ns == 0

/-- `Time.Equal`: the same instant, in whatever zone. -/
def equal (t u : Time) : Bool := t.ns == u.ns

/-- `Time.Before`. -/
def before (t u : Time) : Bool := t.ns < u.ns

/-- `Time.UnixNano`. -/
def unixNano (t : Time) : ℤ := t.ns - 62135596800 * 1000000000

/-! ### Writing -/

/-- The fraction of a second, without trailing zeros. -/
def fraction (nano : ℕ) : GoString :=
  match (padded 9 nano).rdropWhile (· == 0x30) with
  | [] => []
  | digits => 0x2E :: digits

/-- An offset, to the minute. -/
def zoneText (offset : ℤ) : GoString :=
  if offset = 0 then [0x5A]
  else
    let zone := offset.tdiv 60
    (if zone < 0 then 0x2D else 0x2B) :: padded 2 (zone.natAbs / 60) ++ 0x3A ::
      padded 2 (zone.natAbs % 60)

/-- What RFC 3339 can write: a year of four digits and an offset below a day. -/
def Representable (t : Time) : Prop :=
  0 ≤ t.year ∧ t.year ≤ 9999 ∧ (t.offset.tdiv 60).natAbs / 60 < 24

instance (t : Time) : Decidable t.Representable :=
  inferInstanceAs (Decidable (_ ∧ _ ∧ _))

/-- The date and the clock, to the second. -/
def dateTimeText (t : Time) : GoString :=
  padded 4 t.year.toNat ++ 0x2D :: padded 2 t.month ++ 0x2D :: padded 2 t.day ++
    0x54 :: padded 2 t.hour ++ 0x3A :: padded 2 t.minute ++ 0x3A :: padded 2 t.second

/-- `appendStrictRFC3339`. -/
def formatRFC3339 (t : Time) : Option GoString :=
  if t.Representable then some (t.dateTimeText ++ fraction t.nano ++ zoneText t.offset) else none

end Time

/-! ### Reading -/

/-- One byte that must be there. -/
def expect (c : UInt8) : GoString → Option GoString
  | b :: s => if b = c then some s else none
  | [] => none

/-- `getnum`: a number of two digits, or of one where the width is not fixed. -/
def getnum (fixed : Bool) : GoString → Option (ℕ × GoString)
  | a :: b :: s =>
    if !digitByte a then none
    else if digitByte b then some (natOfDigits [a, b], s)
    else if fixed then none
    else some (digitValue a, b :: s)
  | [a] => if digitByte a && !fixed then some (digitValue a, []) else none
  | [] => none

/-- A year of four digits. -/
def getYear (s : GoString) : Option (ℕ × GoString) :=
  if (s.take 4).length = 4 ∧ (s.take 4).all digitByte then some (natOfDigits (s.take 4), s.drop 4)
  else none

/-- `parseNanoseconds`: the digits behind the ninth are dropped. -/
def parseNanoseconds (digits : GoString) : ℕ :=
  natOfDigits (digits.take 9) * 10 ^ (9 - (digits.take 9).length)

/-- The fraction of a second, if there is one. -/
def getFraction : GoString → ℕ × GoString
  | c :: d :: s =>
    if (c = 0x2E ∨ c = 0x2C) ∧ digitByte d then
      (parseNanoseconds ((d :: s).takeWhile digitByte), (d :: s).dropWhile digitByte)
    else (0, c :: d :: s)
  | s => (0, s)

/-- The offset at the end of a text. -/
def getZone : GoString → Option ℤ
  | [0x5A] => some 0
  | [sign, h1, h2, colon, m1, m2] =>
    let hr := natOfDigits [h1, h2]
    let mm := natOfDigits [m1, m2]
    if colon = 0x3A ∧ [h1, h2, m1, m2].all digitByte ∧ hr ≤ 24 ∧ mm ≤ 60 then
      if sign = 0x2B then some ((hr * 60 + mm) * 60)
      else if sign = 0x2D then some (-((hr * 60 + mm) * 60))
      else none
    else none
  | _ => none

/-- `Parse (RFC3339, s)`. -/
def parseRFC3339 (s : GoString) : Option Time := do
  let (year, s) ← getYear s
  let (month, s) ← getnum true (← expect 0x2D s)
  let (day, s) ← getnum true (← expect 0x2D s)
  let (hour, s) ← getnum false (← expect 0x54 s)
  let (minute, s) ← getnum true (← expect 0x3A s)
  let (second, s) ← getnum true (← expect 0x3A s)
  let (nano, s) := getFraction s
  let offset ← getZone s
  if h : validCivil year month day hour minute second nano then
    some { year, month, day, hour, minute, second, nano, offset, valid := h }
  else none

/-! ### The round trip -/

/-- A number below a hundred is two digits. -/
theorem padded_two {n : ℕ} (h : n < 100) : ∃ a b, padded 2 n = [a, b] ∧ digitByte a = true ∧
    digitByte b = true ∧ natOfDigits [a, b] = n := by
  have hlen : (padded 2 n).length = 2 := length_padded (by decide) h
  obtain ⟨a, b, heq⟩ := List.length_eq_two.mp hlen
  have hdigit {c : UInt8} (hc : c ∈ [a, b]) : digitByte c = true :=
    digitByte_of_mem_padded (heq ▸ hc)
  exact ⟨a, b, heq, hdigit (by simp), hdigit (by simp), heq ▸ natOfDigits_padded 2 n⟩

theorem getnum_padded (fixed : Bool) {n : ℕ} (h : n < 100) (s : GoString) :
    getnum fixed (padded 2 n ++ s) = some (n, s) := by
  obtain ⟨a, b, heq, ha, hb, hn⟩ := padded_two h
  simp [heq, getnum, ha, hb, hn]

theorem getYear_padded {n : ℕ} (h : n < 10000) (s : GoString) :
    getYear (padded 4 n ++ s) = some (n, s) := by
  have hlen : (padded 4 n).length = 4 := length_padded (by decide) h
  have hdigits : (padded 4 n).all digitByte = true :=
    List.all_eq_true.mpr fun _ hb => digitByte_of_mem_padded hb
  rw [getYear, List.take_left' hlen, List.drop_left' hlen, if_pos ⟨hlen, hdigits⟩,
    natOfDigits_padded]

theorem getZone_zoneText {offset : ℤ} (h : (offset.tdiv 60).natAbs / 60 < 24) :
    getZone (Time.zoneText offset) = some (60 * offset.tdiv 60) := by
  unfold Time.zoneText
  split
  case isTrue h0 => rw [h0]; rfl
  case isFalse h0 =>
    obtain ⟨h1, h2, hh, hh1, hh2, hhr⟩ := padded_two (h.trans (by decide))
    obtain ⟨m1, m2, hm, hm1, hm2, hmm⟩ :=
      padded_two (n := (offset.tdiv 60).natAbs % 60) (by omega)
    have hhour : natOfDigits [h1, h2] ≤ 24 := by omega
    have hminute : natOfDigits [m1, m2] ≤ 60 := by omega
    have hsplit := Nat.div_add_mod' (offset.tdiv 60).natAbs 60
    dsimp only
    rw [hh, hm]
    by_cases hneg : offset.tdiv 60 < 0
    · simp [getZone, hneg, hh1, hh2, hm1, hm2, hhour, hminute]
      omega
    · simp [getZone, hneg, hh1, hh2, hm1, hm2, hhour, hminute]
      omega

/-- The zeros a fraction is written without are those a reader puts back. -/
private theorem natOfDigits_rdropWhile {k : ℕ} (s : GoString) (h : s.length ≤ k) :
    natOfDigits (s.rdropWhile (· == 0x30)) * 10 ^ (k - (s.rdropWhile (· == 0x30)).length)
      = natOfDigits s * 10 ^ (k - s.length) := by
  induction s using List.reverseRecOn with
  | nil => rfl
  | append_singleton s x ih =>
    rw [List.length_append, List.length_singleton] at h
    by_cases hx : x = 0x30
    · have hzero : natOfDigits (s ++ [x]) = natOfDigits s * 10 := by
        rw [natOfDigits, List.foldl_append, hx, Nat.mul_comm]
        rfl
      have hpow : 10 ^ (k - s.length) = 10 * 10 ^ (k - (s.length + 1)) := by
        rw [← Nat.pow_succ', show k - s.length = k - (s.length + 1) + 1 by omega]
      rw [List.rdropWhile_concat_pos _ _ _ (by simp [hx]), ih (by omega), hzero, hpow,
        List.length_append, List.length_singleton, Nat.mul_assoc]
    · rw [List.rdropWhile_concat_neg _ _ _ (by simp [hx])]

theorem parseNanoseconds_rdropWhile {nano : ℕ} (h : nano < 1000000000) :
    parseNanoseconds ((padded 9 nano).rdropWhile (· == 0x30)) = nano := by
  have hlen : (padded 9 nano).length = 9 := length_padded (by decide) h
  have hfront := List.rdropWhile_prefix (· == 0x30) (padded 9 nano)
  have htake := List.take_of_length_le (hfront.length_le.trans hlen.le)
  rw [parseNanoseconds, htake, natOfDigits_rdropWhile _ hlen.le, hlen, natOfDigits_padded]
  simp

/-- No offset continues a fraction. -/
theorem zoneText_cons (offset : ℤ) : ∃ c s, Time.zoneText offset = c :: s ∧
    digitByte c = false ∧ c ≠ 0x2E ∧ c ≠ 0x2C := by
  unfold Time.zoneText
  split
  · exact ⟨0x5A, [], rfl, by decide, by decide, by decide⟩
  · dsimp only
    split
    · exact ⟨0x2D, _, rfl, by decide, by decide, by decide⟩
    · exact ⟨0x2B, _, rfl, by decide, by decide, by decide⟩

theorem getFraction_fraction {nano : ℕ} (h : nano < 1000000000) (offset : ℤ) :
    getFraction (Time.fraction nano ++ Time.zoneText offset) = (nano, Time.zoneText offset) := by
  obtain ⟨c, s, hzone, hc, hdot, hcomma⟩ := zoneText_cons offset
  have hvalue := parseNanoseconds_rdropWhile h
  have hfront := List.rdropWhile_prefix (· == 0x30) (padded 9 nano)
  have hdigits : ∀ b ∈ (padded 9 nano).rdropWhile (· == 0x30), digitByte b = true :=
    fun b hb => digitByte_of_mem_padded (hfront.mem hb)
  unfold Time.fraction
  generalize (padded 9 nano).rdropWhile (· == 0x30) = digits at hvalue hdigits
  rw [hzone]
  cases digits with
  | nil =>
    rw [← hvalue]
    cases s <;> simp [getFraction, hdot, hcomma, parseNanoseconds, natOfDigits]
  | cons d digits =>
    have htake : ((d :: digits) ++ c :: s).takeWhile digitByte = d :: digits := by
      rw [List.takeWhile_append_of_pos hdigits, List.takeWhile_cons_of_neg (by simp [hc]),
        List.append_nil]
    have hdrop : ((d :: digits) ++ c :: s).dropWhile digitByte = c :: s := by
      rw [List.dropWhile_append_of_pos hdigits, List.dropWhile_cons_of_neg (by simp [hc])]
    rw [List.cons_append] at htake hdrop
    simp only [List.cons_append, getFraction, hdigits d List.mem_cons_self, true_or, and_self,
      if_true, htake, hdrop, hvalue]

/-- A time as a reader of its text has it: to the minute of its offset. -/
def Time.toMinute (t : Time) : Time := { t with offset := 60 * t.offset.tdiv 60 }

private theorem bind_of_eq_some {α β : Type} {x : Option α} {a : α} (h : x = some a)
    {f : α → Option β} : (x >>= f) = f a := by
  rw [h]
  rfl

/-- **What was written is read back, to the minute of its offset.** -/
theorem parseRFC3339_formatRFC3339 {t : Time} {s : GoString} (h : t.formatRFC3339 = some s) :
    parseRFC3339 s = some t.toMinute := by
  obtain ⟨hrep, rfl⟩ : t.Representable ∧ t.dateTimeText ++ Time.fraction t.nano ++
      Time.zoneText t.offset = s := by
    unfold Time.formatRFC3339 at h
    split at h
    · exact ⟨‹_›, Option.some.inj h⟩
    · cases h
  obtain ⟨hlow, hhigh, hzone⟩ := hrep
  have hyear : t.year.toNat < 10000 := by omega
  have hexpect (c : UInt8) (s : GoString) : expect c (c :: s) = some s := if_pos rfl
  have hvalid := t.valid
  simp only [validCivil, Bool.and_eq_true, decide_eq_true_eq] at hvalid
  obtain ⟨⟨⟨⟨⟨⟨⟨-, hmonth⟩, -⟩, hday⟩, hhour⟩, hminute⟩, hsecond⟩, hnano⟩ := hvalid
  have hday' : t.day < 100 := hday.trans_lt (by unfold daysIn; split_ifs <;> omega)
  have hmonth' := getnum_padded true (hmonth.trans_lt (by decide : 12 < 100))
  have hhour' := getnum_padded false (hhour.trans (by decide : 24 < 100))
  have hminute' := getnum_padded true (hminute.trans (by decide : 60 < 100))
  have hsecond' := getnum_padded true (hsecond.trans (by decide : 60 < 100))
  simp only [parseRFC3339, Time.dateTimeText, List.append_assoc, List.cons_append]
  rw [bind_of_eq_some (getYear_padded hyear _)]
  dsimp only
  rw [bind_of_eq_some (hexpect _ _), bind_of_eq_some (hmonth' _)]
  dsimp only
  rw [bind_of_eq_some (hexpect _ _), bind_of_eq_some (getnum_padded true hday' _)]
  dsimp only
  rw [bind_of_eq_some (hexpect _ _), bind_of_eq_some (hhour' _)]
  dsimp only
  rw [bind_of_eq_some (hexpect _ _), bind_of_eq_some (hminute' _)]
  dsimp only
  rw [bind_of_eq_some (hexpect _ _), bind_of_eq_some (hsecond' _)]
  dsimp only
  rw [getFraction_fraction hnano]
  dsimp only
  rw [bind_of_eq_some (getZone_zoneText hzone)]
  simp only [Int.toNat_of_nonneg hlow, t.valid, dif_pos]
  rfl

/-- The bytes a time is written with. -/
def timeByte (b : UInt8) : Bool := digitByte b || (ascii "-T:.Z+").contains b

theorem timeByte_cases {b : UInt8} (h : timeByte b = true) : digitByte b = true ∨
    b = 0x2D ∨ b = 0x54 ∨ b = 0x3A ∨ b = 0x2E ∨ b = 0x5A ∨ b = 0x2B := by
  rw [timeByte, ascii_ofList, Bool.or_eq_true, List.contains_iff_mem] at h
  simpa using h

theorem timeByte_of_mem_padded {w n : ℕ} : ∀ b ∈ padded w n, timeByte b = true := by
  intro b hb
  rw [timeByte, digitByte_of_mem_padded hb, Bool.true_or]

theorem timeByte_of_mem_fraction {nano : ℕ} : ∀ b ∈ Time.fraction nano, timeByte b = true := by
  unfold Time.fraction
  split
  · simp
  · have hfront := List.rdropWhile_prefix (· == 0x30) (padded 9 nano)
    intro b hb
    rcases List.mem_cons.mp hb with rfl | hb
    · decide
    · exact timeByte_of_mem_padded b (hfront.mem hb)

/-- A time is written in digits and a little punctuation. -/
theorem timeByte_of_mem_formatRFC3339 {t : Time} {s : GoString} (h : t.formatRFC3339 = some s) :
    ∀ b ∈ s, timeByte b = true := by
  have hzone : ∀ b ∈ Time.zoneText t.offset, timeByte b = true := by
    unfold Time.zoneText
    split
    · exact List.forall_mem_singleton.mpr (by decide)
    · intro b hb
      simp only [List.mem_cons, List.mem_append, List.cons_append] at hb
      rcases hb with rfl | hb | rfl | hb
      · split <;> decide
      · exact timeByte_of_mem_padded b hb
      · decide
      · exact timeByte_of_mem_padded b hb
  unfold Time.formatRFC3339 at h
  split at h
  · cases h
    intro b hb
    simp only [Time.dateTimeText, List.mem_append, List.mem_cons, List.append_assoc,
      List.cons_append] at hb
    rcases hb with hb | rfl | hb | rfl | hb | rfl | hb | rfl | hb | rfl | hb | hb | hb
    exacts [timeByte_of_mem_padded b hb, rfl, timeByte_of_mem_padded b hb, rfl,
      timeByte_of_mem_padded b hb, rfl, timeByte_of_mem_padded b hb, rfl,
      timeByte_of_mem_padded b hb, rfl, timeByte_of_mem_padded b hb,
      timeByte_of_mem_fraction b hb, hzone b hb]
  · cases h

/-! ### The compact form -/

/-- The date of a day, counted from the first of January of the year 1. -/
def civilFromDays (days : ℤ) : ℤ × ℕ × ℕ :=
  -- counted from the first of March of the year 0, in eras of 400 years
  let era := (days + 306) / 146097
  let doe := (days + 306) % 146097
  let yoe := (doe - doe / 1460 + doe / 36524 - doe / 146096) / 365
  let doy := doe - (365 * yoe + yoe / 4 - yoe / 100)
  let mp := (5 * doy + 2) / 153
  let month := if mp < 10 then mp + 3 else mp - 9
  (yoe + era * 400 + (if month ≤ 2 then 1 else 0), month.toNat,
    (doy - (153 * mp + 2) / 5 + 1).toNat)

/-- `t.UTC ().Format ("20060102T150405Z")`. -/
def Time.utcStamp (t : Time) : GoString :=
  let date := civilFromDays (t.seconds / 86400)
  let clock := (t.seconds % 86400).toNat
  (if date.1 < 0 then [0x2D] else []) ++ padded 4 date.1.natAbs ++ padded 2 date.2.1 ++
    padded 2 date.2.2 ++ 0x54 :: padded 2 (clock / 3600) ++ padded 2 (clock / 60 % 60) ++
    padded 2 (clock % 60) ++ [0x5A]

/-- A leap day, an hour east of Greenwich. -/
example : ((parseRFC3339 (ascii "2024-03-01T00:59:59.5+01:00")).map Time.utcStamp)
    = some (ascii "20240229T235959Z") := by decide

/-- `t.UTC ().Format (RFC3339Nano)`. -/
def Time.utcNano (t : Time) : GoString :=
  let date := civilFromDays (t.seconds / 86400)
  let clock := (t.seconds % 86400).toNat
  (if date.1 < 0 then [0x2D] else []) ++ padded 4 date.1.natAbs ++ 0x2D :: padded 2 date.2.1 ++
    0x2D :: padded 2 date.2.2 ++ 0x54 :: padded 2 (clock / 3600) ++
    0x3A :: padded 2 (clock / 60 % 60) ++ 0x3A :: padded 2 (clock % 60) ++ fraction t.nano ++ [0x5A]

/-- The same leap day, with its fraction. -/
example : ((parseRFC3339 (ascii "2024-03-01T00:59:59.5+01:00")).map Time.utcNano)
    = some (ascii "2024-02-29T23:59:59.5Z") := by decide

theorem timeByte_of_mem_utcStamp {t : Time} : ∀ b ∈ t.utcStamp, timeByte b = true := by
  intro b hb
  simp only [Time.utcStamp, List.mem_append, List.mem_cons, List.append_assoc, List.cons_append,
    List.not_mem_nil, or_false] at hb
  rcases hb with hb | hb | hb | hb | rfl | hb | hb | hb | rfl
  · split at hb
    · rw [List.mem_singleton.mp hb]
      decide
    · cases hb
  all_goals first | exact timeByte_of_mem_padded b hb | decide

theorem timeByte_of_mem_utcNano {t : Time} : ∀ b ∈ t.utcNano, timeByte b = true := by
  intro b hb
  simp only [Time.utcNano, List.mem_append, List.mem_cons, List.append_assoc, List.cons_append,
    List.not_mem_nil, or_false] at hb
  rcases hb with hb | hb | rfl | hb | rfl | hb | rfl | hb | rfl | hb | rfl | hb | hb | rfl
  · split at hb
    · rw [List.mem_singleton.mp hb]
      decide
    · cases hb
  exacts [timeByte_of_mem_padded b hb, rfl, timeByte_of_mem_padded b hb, rfl,
    timeByte_of_mem_padded b hb, rfl, timeByte_of_mem_padded b hb, rfl,
    timeByte_of_mem_padded b hb, rfl, timeByte_of_mem_padded b hb,
    timeByte_of_mem_fraction b hb, rfl]

/-! ### One date, one day -/

/-- Days of an era of 400 years, made years of 365 days each. -/
private def leveled (doe : ℤ) : ℤ := doe - doe / 1460 + doe / 36524 - doe / 146096

/-- The days before a year of an era. -/
private def eraDays (yoe : ℤ) : ℤ := 365 * yoe + yoe / 4 - yoe / 100

private theorem leveled_mono {a b : ℤ} (h : a ≤ b) : leveled a ≤ leveled b := by
  unfold leveled
  omega

private theorem leveled_eraDays {y : ℕ} (h : y < 400) :
    (y = 0 ∨ leveled (eraDays y - 1) < 365 * y) ∧
      (y = 399 ∨ 365 * ((y : ℤ) + 1) ≤ leveled (eraDays (y + 1))) := by
  have hall : (List.range 400).all (fun y : ℕ =>
      (y = 0 ∨ leveled (eraDays y - 1) < 365 * y) ∧
        (y = 399 ∨ 365 * ((y : ℤ) + 1) ≤ leveled (eraDays (y + 1)))) = true := by decide +kernel
  simpa using List.all_eq_true.mp hall y (List.mem_range.mpr h)

/-- A day of an era lies in its year. -/
private theorem eraDays_le {doe : ℤ} (h0 : 0 ≤ doe) (h : doe < 146097) :
    0 ≤ leveled doe / 365 ∧ leveled doe / 365 < 400 ∧ eraDays (leveled doe / 365) ≤ doe ∧
      doe ≤ eraDays (leveled doe / 365) + 365 := by
  obtain ⟨y, hy⟩ : ∃ y : ℕ, leveled doe / 365 = y :=
    Int.eq_ofNat_of_zero_le (by unfold leveled; omega)
  have hlt : y < 400 := by
    unfold leveled at hy
    omega
  have hlevel : 365 * (y : ℤ) ≤ leveled doe ∧ leveled doe < 365 * ((y : ℤ) + 1) := by omega
  obtain ⟨hfirst, hnext⟩ := leveled_eraDays hlt
  rw [hy]
  refine ⟨by omega, by omega, ?_, ?_⟩
  · rcases hfirst with rfl | hfirst
    · exact h0
    · by_contra hbefore
      have := leveled_mono (a := doe) (b := eraDays y - 1) (by omega)
      omega
  · rcases hnext with rfl | hnext
    · have : eraDays (399 : ℕ) = 145731 := by decide
      omega
    · by_contra hafter
      have hstep : eraDays ((y : ℤ) + 1) ≤ eraDays y + 366 := by
        unfold eraDays
        omega
      have := leveled_mono (a := eraDays ((y : ℤ) + 1)) (b := doe) (by omega)
      omega

/-- The day of a date. -/
def daysFromCivil (date : ℤ × ℕ × ℕ) : ℤ :=
  let y := date.1 - if date.2.1 ≤ 2 then 1 else 0
  let mp : ℤ := if date.2.1 ≤ 2 then date.2.1 + 9 else date.2.1 - 3
  y / 400 * 146097 + (365 * (y % 400) + y % 400 / 4 - y % 400 / 100) + (153 * mp + 2) / 5 +
    (date.2.2 - 1) - 306

/-- The date of a day of a year of an era. -/
private def civilOf (era yoe doy : ℤ) : ℤ × ℕ × ℕ :=
  let mp := (5 * doy + 2) / 153
  let month := if mp < 10 then mp + 3 else mp - 9
  (yoe + era * 400 + (if month ≤ 2 then 1 else 0), month.toNat,
    (doy - (153 * mp + 2) / 5 + 1).toNat)

private theorem daysFromCivil_civilOf {era yoe doy : ℤ} (hyoe : 0 ≤ yoe ∧ yoe < 400)
    (hdoy : 0 ≤ doy ∧ doy ≤ 365) :
    daysFromCivil (civilOf era yoe doy) =
      era * 146097 + (365 * yoe + yoe / 4 - yoe / 100) + doy - 306 := by
  have hmp : 0 ≤ (5 * doy + 2) / 153 ∧ (5 * doy + 2) / 153 ≤ 11 := by omega
  have hday : (153 * ((5 * doy + 2) / 153) + 2) / 5 ≤ doy := by omega
  have hyear : (yoe + era * 400) / 400 = era ∧ (yoe + era * 400) % 400 = yoe := by omega
  by_cases hm : (5 * doy + 2) / 153 < 10
  · have hmonth : ¬ (5 * doy + 2) / 153 + 3 ≤ 2 := by omega
    have hmonth' : ¬ ((5 * doy + 2) / 153 + 3).toNat ≤ 2 := by omega
    have hdate : civilOf era yoe doy = (yoe + era * 400, ((5 * doy + 2) / 153 + 3).toNat,
        (doy - (153 * ((5 * doy + 2) / 153) + 2) / 5 + 1).toNat) := by
      simp only [civilOf, if_pos hm, if_neg hmonth, Int.add_zero]
    rw [hdate]
    simp only [daysFromCivil, if_neg hmonth', Int.sub_zero, hyear]
    omega
  · have hmonth : (5 * doy + 2) / 153 - 9 ≤ 2 := by omega
    have hmonth' : ((5 * doy + 2) / 153 - 9).toNat ≤ 2 := by omega
    have hdate : civilOf era yoe doy = (yoe + era * 400 + 1, ((5 * doy + 2) / 153 - 9).toNat,
        (doy - (153 * ((5 * doy + 2) / 153) + 2) / 5 + 1).toNat) := by
      simp only [civilOf, if_neg hm, if_pos hmonth]
    rw [hdate]
    simp only [daysFromCivil, if_pos hmonth', Int.add_sub_cancel, hyear]
    omega

/-- **A date tells its day.** -/
theorem daysFromCivil_civilFromDays (days : ℤ) : daysFromCivil (civilFromDays days) = days := by
  obtain ⟨h0, h400, hle, hge⟩ := eraDays_le (Int.emod_nonneg (days + 306) (by decide))
    (Int.emod_lt_of_pos (days + 306) (by decide))
  have hsplit := Int.mul_ediv_add_emod (days + 306) 146097
  have hdoy : 0 ≤ (days + 306) % 146097 - eraDays (leveled ((days + 306) % 146097) / 365) ∧
      (days + 306) % 146097 - eraDays (leveled ((days + 306) % 146097) / 365) ≤ 365 := by omega
  refine (daysFromCivil_civilOf ⟨h0, h400⟩ hdoy).trans ?_
  simp only [eraDays]
  omega

/-! ### One text, one instant -/

/-- A field of digits ends at the first byte that is none. -/
private theorem padded_append_inj {w a b : ℕ} {c : UInt8} (hc : digitByte c = false)
    {s t : GoString} (h : padded w a ++ c :: s = padded w b ++ c :: t) : a = b ∧ s = t := by
  have hall (n : ℕ) : ∀ b ∈ padded w n, digitByte b = true := fun _ => digitByte_of_mem_padded
  have htake (n : ℕ) (r : GoString) :
      (padded w n ++ c :: r).takeWhile digitByte = padded w n := by
    rw [List.takeWhile_append_of_pos (hall n), List.takeWhile_cons_of_neg (by simp [hc]),
      List.append_nil]
  have hdrop (n : ℕ) (r : GoString) : (padded w n ++ c :: r).dropWhile digitByte = c :: r := by
    rw [List.dropWhile_append_of_pos (hall n), List.dropWhile_cons_of_neg (by simp [hc])]
  have hfield := htake a s
  have hrest := hdrop a s
  rw [h, htake] at hfield
  rw [h, hdrop] at hrest
  exact ⟨(padded_injective w hfield).symm, (List.cons.inj hrest).2.symm⟩

/-- A year ends at the next byte that is no digit. -/
private theorem signed_padded_inj {y y' : ℤ} {s t : GoString}
    (h : (if y < 0 then [0x2D] else []) ++ (padded 4 y.natAbs ++ 0x2D :: s) =
      (if y' < 0 then [0x2D] else []) ++ (padded 4 y'.natAbs ++ 0x2D :: t)) : y = y' ∧ s = t := by
  have hne (n : ℕ) (l r : GoString) : (0x2D :: l : GoString) ≠ padded 4 n ++ r := by
    intro heq
    have hdigit : ∀ b ∈ padded 4 n, digitByte b = true := fun _ hb => digitByte_of_mem_padded hb
    cases hp : padded 4 n with
    | nil =>
      have hlen := congrArg List.length hp
      obtain ⟨d, rest, hcons, -⟩ := decimal_cons n
      simp only [padded, hcons, List.length_append, List.length_cons, List.length_nil] at hlen
      omega
    | cons d rest =>
      rw [hp, List.cons_append] at heq
      rw [hp, ← (List.cons.inj heq).1] at hdigit
      exact absurd (hdigit _ List.mem_cons_self) (by decide)
  by_cases hy : y < 0 <;> by_cases hy' : y' < 0
  · rw [if_pos hy, if_pos hy'] at h
    obtain ⟨hyear, hrest⟩ := padded_append_inj (by decide) (List.cons.inj h).2
    exact ⟨by omega, hrest⟩
  · rw [if_pos hy, if_neg hy', List.nil_append] at h
    exact absurd h (hne _ _ _)
  · rw [if_neg hy, if_pos hy', List.nil_append] at h
    exact absurd h.symm (hne _ _ _)
  · rw [if_neg hy, if_neg hy', List.nil_append, List.nil_append] at h
    obtain ⟨hyear, hrest⟩ := padded_append_inj (by decide) h
    exact ⟨by omega, hrest⟩

/-- **Two times that are written alike in UTC are the same instant.** -/
theorem ns_eq_of_utcNano {t u : Time} (h : t.utcNano = u.utcNano) : t.ns = u.ns := by
  have hvalid (t : Time) : t.second < 60 ∧ t.nano < 1000000000 := by
    have hv := t.valid
    simp only [validCivil, Bool.and_eq_true, decide_eq_true_eq] at hv
    exact ⟨hv.1.2, hv.2⟩
  simp only [Time.utcNano, List.append_assoc, List.cons_append] at h
  obtain ⟨hyear, h⟩ := signed_padded_inj h
  obtain ⟨hmonth, h⟩ := padded_append_inj (by decide) h
  obtain ⟨hday, h⟩ := padded_append_inj (by decide) h
  obtain ⟨hhour, h⟩ := padded_append_inj (by decide) h
  obtain ⟨hminute, h⟩ := padded_append_inj (by decide) h
  have hlen (t : Time) : (padded 2 ((t.seconds % 86400).toNat % 60)).length = 2 :=
    length_padded (by decide) ((Nat.mod_lt _ (by decide)).trans (by decide))
  obtain ⟨hsecond, h⟩ := List.append_inj h ((hlen t).trans (hlen u).symm)
  have hnano : t.nano = u.nano := by
    have hread := getFraction_fraction (hvalid t).2 0
    have hread' := getFraction_fraction (hvalid u).2 0
    exact congrArg Prod.fst (hread.symm.trans ((congrArg getFraction h).trans hread'))
  have hdays : t.seconds / 86400 = u.seconds / 86400 := by
    have hdate : civilFromDays (t.seconds / 86400) = civilFromDays (u.seconds / 86400) :=
      Prod.ext hyear (Prod.ext hmonth hday)
    rw [← daysFromCivil_civilFromDays (t.seconds / 86400), hdate, daysFromCivil_civilFromDays]
  have hsecond' := padded_injective 2 hsecond
  unfold Time.ns
  omega

/-! ### In UTC -/

/-- The day of a date, through the years before it and the months before it. -/
theorem daysFromCivil_eq {y : ℤ} {m d : ℕ} (hm : 1 ≤ m ∧ m ≤ 12) :
    daysFromCivil (y, m, d) = daysBeforeYear y + daysBeforeMonth m y + ((d : ℤ) - 1) := by
  have hera (z : ℤ) : z / 400 * 146097 + (365 * (z % 400) + z % 400 / 4 - z % 400 / 100) =
      365 * z + z / 4 - z / 100 + z / 400 := by omega
  have hleap : (leapYear y = true ∧ y / 4 - (y - 1) / 4 - (y / 100 - (y - 1) / 100) +
        (y / 400 - (y - 1) / 400) = 1) ∨
      (leapYear y = false ∧ y / 4 - (y - 1) / 4 - (y / 100 - (y - 1) / 100) +
        (y / 400 - (y - 1) / 400) = 0) := by
    cases h : leapYear y with
    | true =>
      refine .inl ⟨rfl, ?_⟩
      simp only [leapYear, Bool.and_eq_true, Bool.or_eq_true, beq_iff_eq, bne_iff_ne] at h
      omega
    | false =>
      refine .inr ⟨rfl, ?_⟩
      simp only [leapYear, Bool.and_eq_false_iff, Bool.or_eq_false_iff, beq_eq_false_iff_ne,
        bne_eq_false_iff_eq, ne_eq] at h
      omega
  obtain ⟨hlo, hhi⟩ := hm
  simp only [daysFromCivil, daysBeforeYear, hera]
  have hcases : m = 1 ∨ m = 2 ∨ m = 3 ∨ m = 4 ∨ m = 5 ∨ m = 6 ∨ m = 7 ∨ m = 8 ∨ m = 9 ∨ m = 10 ∨
      m = 11 ∨ m = 12 := by omega
  rcases hleap with ⟨hleap, hyear⟩ | ⟨hleap, hyear⟩ <;>
    rcases hcases with rfl | rfl | rfl | rfl | rfl | rfl | rfl | rfl | rfl | rfl | rfl | rfl <;>
      simp [daysBeforeMonth, List.range', daysIn, hleap] <;> omega

/-- A year of an era has 366 days only before a leap day. -/
private theorem leapYear_of_last {doe : ℤ} (h0 : 0 ≤ doe) (h : doe < 146097) (era : ℤ)
    (hlast : doe = eraDays (leveled doe / 365) + 365) :
    leapYear (leveled doe / 365 + era * 400 + 1) = true := by
  obtain ⟨hlow, hhigh, -, -⟩ := eraDays_le h0 h
  obtain ⟨y, hy⟩ := Int.eq_ofNat_of_zero_le hlow
  have hlt : y < 400 := by omega
  have hlevel : leveled doe < 365 * ((y : ℤ) + 1) := by omega
  obtain ⟨-, hnext⟩ := leveled_eraDays hlt
  rw [hy] at hlast ⊢
  simp only [leapYear, Bool.and_eq_true, Bool.or_eq_true, beq_iff_eq, bne_iff_ne]
  rcases hnext with rfl | hnext
  · exact ⟨by omega, .inr (by omega)⟩
  · by_contra hleap
    -- otherwise the day would be the first one of the next year
    have hsame : doe = eraDays ((y : ℤ) + 1) := by
      rw [hlast]
      unfold eraDays
      omega
    rw [← hsame] at hnext
    omega

/-- **The date of a day exists.** -/
theorem validCivil_civilFromDays (days : ℤ) {clock nano : ℕ} (hclock : clock < 86400)
    (hnano : nano < 1000000000) :
    validCivil (civilFromDays days).1 (civilFromDays days).2.1 (civilFromDays days).2.2
      (clock / 3600) (clock / 60 % 60) (clock % 60) nano = true := by
  have h0 : 0 ≤ (days + 306) % 146097 := Int.emod_nonneg _ (by decide)
  have h1 : (days + 306) % 146097 < 146097 := Int.emod_lt_of_pos _ (by decide)
  obtain ⟨hlow, hhigh, hle, hge⟩ := eraDays_le h0 h1
  have hleap := leapYear_of_last h0 h1 ((days + 306) / 146097)
  have hcivil : civilFromDays days = civilOf ((days + 306) / 146097)
      (leveled ((days + 306) % 146097) / 365)
      ((days + 306) % 146097 - eraDays (leveled ((days + 306) % 146097) / 365)) := rfl
  rw [hcivil]
  generalize (days + 306) / 146097 = era at *
  generalize leveled ((days + 306) % 146097) / 365 = yoe at *
  generalize hdoy : (days + 306) % 146097 - eraDays yoe = doy at *
  have hdoy0 : 0 ≤ doy ∧ doy ≤ 365 := by omega
  have hlast : doy = 365 → leapYear (yoe + era * 400 + 1) = true := fun h => hleap (by omega)
  have hmp : 0 ≤ (5 * doy + 2) / 153 ∧ (5 * doy + 2) / 153 ≤ 11 := by omega
  obtain ⟨mp, hmp'⟩ := Int.eq_ofNat_of_zero_le hmp.1
  have hcases : mp = 0 ∨ mp = 1 ∨ mp = 2 ∨ mp = 3 ∨ mp = 4 ∨ mp = 5 ∨ mp = 6 ∨ mp = 7 ∨ mp = 8 ∨
      mp = 9 ∨ mp = 10 ∨ mp = 11 := by omega
  simp only [validCivil, Bool.and_eq_true, decide_eq_true_eq]
  have htime : clock / 3600 < 24 ∧ clock / 60 % 60 < 60 ∧ clock % 60 < 60 := by omega
  refine ⟨⟨⟨⟨?_, htime.1⟩, htime.2.1⟩, htime.2.2⟩, hnano⟩
  simp only [civilOf, hmp']
  rcases hcases with rfl | rfl | rfl | rfl | rfl | rfl | rfl | rfl | rfl | rfl | rfl | rfl
  case inr.inr.inr.inr.inr.inr.inr.inr.inr.inr.inr =>
    -- February
    cases hl : leapYear (yoe + era * 400 + 1) with
    | true =>
      simp [daysIn, hl]
      omega
    | false =>
      have hshort : doy ≠ 365 := fun h => by simp [hlast h] at hl
      simp [daysIn, hl]
      omega
  all_goals
    simp [daysIn]
    omega

namespace Time

theorem clock_lt (t : Time) : (t.seconds % 86400).toNat < 86400 := by omega

/-- `t.UTC ()`. -/
def inUTC (t : Time) : Time where
  year := (civilFromDays (t.seconds / 86400)).1
  month := (civilFromDays (t.seconds / 86400)).2.1
  day := (civilFromDays (t.seconds / 86400)).2.2
  hour := (t.seconds % 86400).toNat / 3600
  minute := (t.seconds % 86400).toNat / 60 % 60
  second := (t.seconds % 86400).toNat % 60
  nano := t.nano
  valid := by
    have hv := t.valid
    simp only [validCivil, Bool.and_eq_true, decide_eq_true_eq] at hv
    exact validCivil_civilFromDays _ t.clock_lt hv.2

/-- **In UTC it is the same instant.** -/
theorem ns_inUTC (t : Time) : t.inUTC.ns = t.ns := by
  have hdays := daysFromCivil_civilFromDays (t.seconds / 86400)
  have hvalid := t.inUTC.valid
  simp only [validCivil, Bool.and_eq_true, decide_eq_true_eq] at hvalid
  have hmonth : 1 ≤ t.inUTC.month ∧ t.inUTC.month ≤ 12 := ⟨by omega, by omega⟩
  have heq := @daysFromCivil_eq t.inUTC.year t.inUTC.month t.inUTC.day hmonth
  change daysFromCivil (civilFromDays (t.seconds / 86400)) = _ at heq
  rw [hdays] at heq
  have hsplit := Int.mul_ediv_add_emod t.seconds 86400
  have hsec : t.inUTC.seconds = t.seconds := by
    rw [seconds, ← heq]
    change t.seconds / 86400 * 86400 + ((t.seconds % 86400).toNat / 3600 : ℕ) * 3600 +
      ((t.seconds % 86400).toNat / 60 % 60 : ℕ) * 60 + ((t.seconds % 86400).toNat % 60 : ℕ) - 0 = _
    have hnonneg := Int.emod_nonneg t.seconds (show (86400 : ℤ) ≠ 0 by decide)
    omega
  rw [ns, ns, hsec]
  rfl

/-- An instant whose year, in UTC, has four digits. -/
def FourDigits (t : Time) : Prop := 0 ≤ t.inUTC.year ∧ t.inUTC.year ≤ 9999

instance (t : Time) : Decidable t.FourDigits :=
  @instDecidableAnd (0 ≤ t.inUTC.year) (t.inUTC.year ≤ 9999) (Int.decLe _ _) (Int.decLe _ _)

theorem formatRFC3339_inUTC {t : Time} (h : t.FourDigits) :
    t.inUTC.formatRFC3339 = some t.utcNano := by
  have hrep : t.inUTC.Representable := ⟨h.1, h.2, by change ((0 : ℤ).tdiv 60).natAbs / 60 < 24; decide⟩
  have hnonneg : 0 ≤ (civilFromDays (t.seconds / 86400)).1 := h.1
  have hyear : (civilFromDays (t.seconds / 86400)).1.natAbs =
      (civilFromDays (t.seconds / 86400)).1.toNat := by omega
  have hsign : ¬ (civilFromDays (t.seconds / 86400)).1 < 0 := by omega
  rw [formatRFC3339, if_pos hrep, utcNano]
  simp only [if_neg hsign, List.nil_append, hyear]
  rfl

end Time

/-- **The text of an instant in UTC is read back where its year has four digits**, and nowhere
else. -/
theorem parseRFC3339_utcNano {t : Time} (h : t.FourDigits) :
    ∃ u, parseRFC3339 t.utcNano = some u ∧ u.ns = t.ns := by
  refine ⟨_, parseRFC3339_formatRFC3339 (Time.formatRFC3339_inUTC h), ?_⟩
  rw [← t.ns_inUTC]
  rfl

/-- Behind the four digits of a year stands a hyphen. -/
theorem parseRFC3339_of_head {s : GoString} (h : (s.drop 4).head? ≠ some 0x2D) :
    parseRFC3339 s = none := by
  have hexpect : expect 0x2D (s.drop 4) = none := by
    cases hs : s.drop 4 with
    | nil => rfl
    | cons b rest =>
      rw [hs] at h
      exact if_neg fun hb => h (congrArg some hb)
  rw [parseRFC3339, getYear]
  split_ifs
  · show (expect 0x2D (s.drop 4)).bind _ = none
    rw [hexpect]
    rfl
  · rfl

theorem parseRFC3339_utcNano_eq_none {t : Time} (h : ¬ t.FourDigits) :
    parseRFC3339 t.utcNano = none := by
  have hyear : (civilFromDays (t.seconds / 86400)).1 < 0 ∨
      9999 < (civilFromDays (t.seconds / 86400)).1 := by
    by_contra hin
    exact h ⟨by change 0 ≤ (civilFromDays (t.seconds / 86400)).1; omega,
      by change (civilFromDays (t.seconds / 86400)).1 ≤ 9999; omega⟩
  rcases hyear with hneg | hbig
  · -- a sign is no digit
    have hnone : getYear t.utcNano = none := by
      rw [Time.utcNano]
      simp only [if_pos hneg, List.append_assoc, List.cons_append, List.nil_append]
      rw [getYear, if_neg]
      rintro ⟨-, hall⟩
      rw [List.take_succ_cons, List.all_cons, Bool.and_eq_true] at hall
      exact absurd hall.1 (by decide)
    rw [parseRFC3339, hnone]
    rfl
  · -- behind four digits there is another one
    have hlen := lt_length_decimal (k := 4) (n := (civilFromDays (t.seconds / 86400)).1.natAbs)
      (by omega)
    have hpadded : padded 4 (civilFromDays (t.seconds / 86400)).1.natAbs =
        decimal (civilFromDays (t.seconds / 86400)).1.natAbs := by
      rw [padded, Nat.sub_eq_zero_of_le hlen.le]
      rfl
    obtain ⟨rest, htext⟩ : ∃ rest, t.utcNano =
        decimal (civilFromDays (t.seconds / 86400)).1.natAbs ++ rest := by
      rw [Time.utcNano]
      simp only [if_neg (show ¬ (civilFromDays (t.seconds / 86400)).1 < 0 by omega), hpadded,
        List.append_assoc, List.cons_append, List.nil_append]
      exact ⟨_, rfl⟩
    have hdigit : ∀ b ∈ decimal (civilFromDays (t.seconds / 86400)).1.natAbs, digitByte b = true :=
      fun b hb => digitByte_of_mem_decimal hb
    generalize decimal (civilFromDays (t.seconds / 86400)).1.natAbs = digits at hlen hdigit htext
    refine parseRFC3339_of_head ?_
    rw [htext, List.drop_append_of_le_length hlen.le, List.head?_append]
    obtain ⟨e, digits', hdrop⟩ := List.exists_cons_of_length_pos
      (l := digits.drop 4) (by rw [List.length_drop]; omega)
    rw [hdrop]
    intro he
    obtain rfl : e = 0x2D := Option.some.inj he
    exact absurd (hdigit 0x2D (List.mem_of_mem_drop (hdrop ▸ List.mem_cons_self))) (by decide)

end Beardrive
