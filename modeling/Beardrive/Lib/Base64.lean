import Beardrive.Lib.Decimal
import Mathlib.Data.List.Basic

/-!
# Base 64

The standard alphabet with padding. Nothing here refers to any particular program.

## Main definitions

* `base64Encode`, `base64Decode` — the two directions

## Main results

* `base64Decode_base64Encode` — the round trip
-/

namespace Beardrive

/-- The letter of a number below 64. -/
def base64Char (d : ℕ) : UInt8 :=
  if d < 26 then UInt8.ofNat (0x41 + d)
  else if d < 52 then UInt8.ofNat (0x61 + (d - 26))
  else if d < 62 then digit (d - 52)
  else if d = 62 then 0x2B
  else 0x2F

/-- The number of a letter. -/
def base64Value (c : UInt8) : Option ℕ :=
  if 0x41 ≤ c ∧ c ≤ 0x5A then some (c.toNat - 0x41)
  else if 0x61 ≤ c ∧ c ≤ 0x7A then some (c.toNat - 0x61 + 26)
  else if digitByte c then some (digitValue c + 52)
  else if c = 0x2B then some 62
  else if c = 0x2F then some 63
  else none

/-- The padding. -/
def base64Pad : UInt8 := 0x3D

/-- `StdEncoding.EncodeToString`: three bytes are four letters. -/
def base64Encode : GoString → GoString
  | a :: b :: c :: s =>
    base64Char (a.toNat / 4) :: base64Char (a.toNat % 4 * 16 + b.toNat / 16) ::
      base64Char (b.toNat % 16 * 4 + c.toNat / 64) :: base64Char (c.toNat % 64) :: base64Encode s
  | [a, b] =>
    [base64Char (a.toNat / 4), base64Char (a.toNat % 4 * 16 + b.toNat / 16),
      base64Char (b.toNat % 16 * 4), base64Pad]
  | [a] => [base64Char (a.toNat / 4), base64Char (a.toNat % 4 * 16), base64Pad, base64Pad]
  | [] => []

/-- Four letters are three bytes. Only the last four may be padded. -/
def base64Quanta : GoString → Option GoString
  | [] => some []
  | a :: b :: c :: d :: s => do
    let a ← base64Value a
    let b ← base64Value b
    let x := UInt8.ofNat (a * 4 + b / 16)
    if c = base64Pad then if d = base64Pad ∧ s = [] then some [x] else none
    else
      let c ← base64Value c
      let y := UInt8.ofNat (b % 16 * 16 + c / 4)
      if d = base64Pad then if s = [] then some [x, y] else none
      else
        let d ← base64Value d
        return x :: y :: UInt8.ofNat (c % 4 * 64 + d) :: (← base64Quanta s)
  | _ => none

/-- `StdEncoding.DecodeString`: line breaks count for nothing. -/
def base64Decode (s : GoString) : Option GoString :=
  base64Quanta (s.filter fun c => c != 0x0D && c != 0x0A)

theorem base64Value_base64Char {d : ℕ} (h : d < 64) : base64Value (base64Char d) = some d := by
  have hall : ∀ d : Fin 64, base64Value (base64Char d) = some (d : ℕ) := by decide
  exact hall ⟨d, h⟩

theorem base64Char_ne {d : ℕ} (h : d < 64) :
    base64Char d ≠ base64Pad ∧ base64Char d ≠ 0x0D ∧ base64Char d ≠ 0x0A := by
  have hall : ∀ d : Fin 64,
      base64Char d ≠ base64Pad ∧ base64Char d ≠ 0x0D ∧ base64Char d ≠ 0x0A := by decide
  exact hall ⟨d, h⟩

theorem base64Quanta_base64Encode (s : GoString) : base64Quanta (base64Encode s) = some s := by
  induction s using base64Encode.induct with
  | case1 a b c s ih =>
    have ha := a.toNat_lt
    have hb := b.toNat_lt
    have hc := c.toNat_lt
    have h0 : a.toNat / 4 < 64 := by omega
    have h1 : a.toNat % 4 * 16 + b.toNat / 16 < 64 := by omega
    have h2 : b.toNat % 16 * 4 + c.toNat / 64 < 64 := by omega
    have h3 : c.toNat % 64 < 64 := by omega
    simp only [base64Encode, base64Quanta, base64Value_base64Char h0, base64Value_base64Char h1,
      base64Value_base64Char h2, base64Value_base64Char h3, (base64Char_ne h2).1,
      (base64Char_ne h3).1, if_false, ih, Option.bind_eq_bind, Option.bind_some]
    rw [ofNat_eq (a := a) (by omega), ofNat_eq (a := b) (by omega), ofNat_eq (a := c) (by omega)]
    rfl
  | case2 a b =>
    have ha := a.toNat_lt
    have hb := b.toNat_lt
    have h0 : a.toNat / 4 < 64 := by omega
    have h1 : a.toNat % 4 * 16 + b.toNat / 16 < 64 := by omega
    have h2 : b.toNat % 16 * 4 < 64 := by omega
    simp only [base64Encode, base64Quanta, base64Value_base64Char h0, base64Value_base64Char h1,
      base64Value_base64Char h2, (base64Char_ne h2).1, if_false, if_true, Option.bind_eq_bind,
      Option.bind_some]
    rw [ofNat_eq (a := a) (by omega), ofNat_eq (a := b) (by omega)]
  | case3 a =>
    have ha := a.toNat_lt
    have h0 : a.toNat / 4 < 64 := by omega
    have h1 : a.toNat % 4 * 16 < 64 := by omega
    simp only [base64Encode, base64Quanta, base64Value_base64Char h0, base64Value_base64Char h1,
      and_self, if_true, Option.bind_eq_bind, Option.bind_some]
    rw [ofNat_eq (a := a) (by omega)]
  | case4 => rfl

/-- What is encoded is digits and padding. -/
theorem mem_base64Encode (s : GoString) :
    ∀ c ∈ base64Encode s, (∃ d < 64, c = base64Char d) ∨ c = base64Pad := by
  induction s using base64Encode.induct with
  | case1 a b c s ih =>
    have ha := a.toNat_lt
    have hb := b.toNat_lt
    have hc := c.toNat_lt
    intro d hd
    simp only [base64Encode, List.mem_cons] at hd
    rcases hd with rfl | rfl | rfl | rfl | hd
    · exact .inl ⟨_, by omega, rfl⟩
    · exact .inl ⟨_, by omega, rfl⟩
    · exact .inl ⟨_, by omega, rfl⟩
    · exact .inl ⟨_, by omega, rfl⟩
    · exact ih d hd
  | case2 a b =>
    have ha := a.toNat_lt
    have hb := b.toNat_lt
    intro d hd
    simp only [base64Encode, List.mem_cons, List.not_mem_nil, or_false] at hd
    rcases hd with rfl | rfl | rfl | rfl
    · exact .inl ⟨_, by omega, rfl⟩
    · exact .inl ⟨_, by omega, rfl⟩
    · exact .inl ⟨_, by omega, rfl⟩
    · exact .inr rfl
  | case3 a =>
    have ha := a.toNat_lt
    intro d hd
    simp only [base64Encode, List.mem_cons, List.not_mem_nil, or_false] at hd
    rcases hd with rfl | rfl | rfl | rfl
    · exact .inl ⟨_, by omega, rfl⟩
    · exact .inl ⟨_, by omega, rfl⟩
    · exact .inr rfl
    · exact .inr rfl
  | case4 => simp [base64Encode]

/-- What is encoded is ASCII. -/
theorem lt_of_mem_base64Encode (s : GoString) : ∀ c ∈ base64Encode s, c < 0x80 := by
  have hall : ∀ d : Fin 64, base64Char d < 0x80 := by decide
  intro c hc
  rcases mem_base64Encode s c hc with ⟨d, hd, rfl⟩ | rfl
  · exact hall ⟨d, hd⟩
  · decide

/-- What is encoded has no line breaks. -/
theorem ne_of_mem_base64Encode (s : GoString) :
    ∀ c ∈ base64Encode s, c ≠ 0x0D ∧ c ≠ 0x0A := by
  intro c hc
  rcases mem_base64Encode s c hc with ⟨d, hd, rfl⟩ | rfl
  · exact (base64Char_ne hd).2
  · decide

/-- **Decoding undoes encoding.** -/
theorem base64Decode_base64Encode (s : GoString) : base64Decode (base64Encode s) = some s := by
  have hfilter : (base64Encode s).filter (fun c => c != 0x0D && c != 0x0A) = base64Encode s := by
    rw [List.filter_eq_self]
    intro c hc
    simp [ne_of_mem_base64Encode s c hc]
  rw [base64Decode, hfilter, base64Quanta_base64Encode]

end Beardrive
