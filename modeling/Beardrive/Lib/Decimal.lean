import Beardrive.Lib.GoString
import Mathlib

/-!
# Decimal numbers

Digits to numbers and back, in ASCII. Nothing here refers to any particular program.

## Main definitions

* `decimal`, `padded` — a number in decimal, and with leading zeros
* `natOfDigits` — the number a run of digits denotes

## Main results

* `natOfDigits_decimal` — the round trip
* `decimal_cons` — a decimal starts with a zero only if it is zero
-/

namespace Beardrive

/-- An ASCII digit. -/
def digitByte (b : UInt8) : Bool := 0x30 ≤ b && b ≤ 0x39

/-- The digit of a number below ten. -/
def digit (d : ℕ) : UInt8 := UInt8.ofNat (0x30 + d)

/-- The value of a digit. -/
def digitValue (b : UInt8) : ℕ := b.toNat - 0x30

/-- The digits of a number, `fuel` of them at most. -/
def decimalAux : ℕ → ℕ → GoString
  | 0, _ => []
  | fuel + 1, n => if n < 10 then [digit n] else decimalAux fuel (n / 10) ++ [digit (n % 10)]

/-- A number in decimal. -/
def decimal (n : ℕ) : GoString := decimalAux (n + 1) n

/-- A number in decimal, with leading zeros up to a width. -/
def padded (width n : ℕ) : GoString :=
  List.replicate (width - (decimal n).length) 0x30 ++ decimal n

/-- The number a run of digits denotes. -/
def natOfDigits (s : GoString) : ℕ := s.foldl (fun v b => 10 * v + digitValue b) 0

theorem toNat_digit {d : ℕ} (h : d < 10) : (digit d).toNat = 0x30 + d := by
  simp only [digit, UInt8.toNat_ofNat']
  omega

@[simp] theorem digitValue_digit {d : ℕ} (h : d < 10) : digitValue (digit d) = d := by
  rw [digitValue, toNat_digit h]; omega

theorem digitByte_iff {b : UInt8} : digitByte b = true ↔ 0x30 ≤ b.toNat ∧ b.toNat ≤ 0x39 := by
  simp [digitByte, UInt8.le_iff_toNat_le]

theorem digitByte_digit {d : ℕ} (h : d < 10) : digitByte (digit d) = true := by
  rw [digitByte_iff, toNat_digit h]; omega

theorem digitValue_lt {b : UInt8} (h : digitByte b = true) : digitValue b < 10 := by
  have := digitByte_iff.mp h
  rw [digitValue]; omega

private theorem decimalAux_eq_of_lt : ∀ {fuel fuel' n : ℕ}, n < fuel → n < fuel' →
    decimalAux fuel n = decimalAux fuel' n := by
  intro fuel
  induction fuel with
  | zero => intro fuel' n h; omega
  | succ fuel ih =>
    intro fuel' n h h'
    obtain ⟨fuel', rfl⟩ := Nat.exists_eq_succ_of_ne_zero (Nat.ne_of_gt (Nat.zero_lt_of_lt h'))
    by_cases hn : n < 10
    · simp [decimalAux, hn]
    · simp only [decimalAux, if_neg hn]
      rw [@ih fuel' _ (by omega) (by omega)]

theorem decimal_of_lt {n : ℕ} (h : n < 10) : decimal n = [digit n] := by
  simp [decimal, decimalAux, h]

/-- A number is its tens followed by its last digit. -/
theorem decimal_of_le {n : ℕ} (h : 10 ≤ n) : decimal n = decimal (n / 10) ++ [digit (n % 10)] := by
  rw [decimal, decimalAux, if_neg (by omega), decimal,
    @decimalAux_eq_of_lt n (n / 10 + 1) _ (by omega) (by omega)]

theorem digitByte_of_mem_decimal {n : ℕ} {b : UInt8} (h : b ∈ decimal n) : digitByte b = true := by
  induction n using Nat.strong_induction_on with
  | _ n ih =>
    rcases lt_or_ge n 10 with hn | hn
    · rw [decimal_of_lt hn, List.mem_singleton] at h
      exact h ▸ digitByte_digit hn
    · rw [decimal_of_le hn, List.mem_append, List.mem_singleton] at h
      rcases h with h | rfl
      · exact ih _ (by omega) h
      · exact digitByte_digit (by omega)

/-- **Reading a decimal gives the number back.** -/
@[simp] theorem natOfDigits_decimal (n : ℕ) : natOfDigits (decimal n) = n := by
  induction n using Nat.strong_induction_on with
  | _ n ih =>
    rcases lt_or_ge n 10 with hn | hn
    · rw [decimal_of_lt hn]
      simp [natOfDigits, hn]
    · have hrest := ih (n / 10) (by omega)
      rw [natOfDigits] at hrest
      rw [decimal_of_le hn, natOfDigits, List.foldl_append, hrest]
      have hlt : n % 10 < 10 := by omega
      simp only [List.foldl_cons, List.foldl_nil, digitValue_digit hlt]
      omega

theorem decimal_injective : Function.Injective decimal := fun a b h => by
  rw [← natOfDigits_decimal a, h, natOfDigits_decimal]

/-- A decimal has a first digit, which is zero only in zero. -/
theorem decimal_cons (n : ℕ) : ∃ d rest, decimal n = d :: rest ∧ digitByte d = true ∧
    (∀ b ∈ rest, digitByte b = true) ∧ (d = 0x30 → rest = []) := by
  induction n using Nat.strong_induction_on with
  | _ n ih =>
    rcases lt_or_ge n 10 with hn | hn
    · exact ⟨digit n, [], decimal_of_lt hn, digitByte_digit hn, by simp, fun _ => rfl⟩
    · obtain ⟨d, rest, heq, hd, hrest, hzero⟩ := ih (n / 10) (by omega)
      refine ⟨d, rest ++ [digit (n % 10)], ?_, hd, fun b hb => ?_, fun h => ?_⟩
      · rw [decimal_of_le hn, heq, List.cons_append]
      · rcases List.mem_append.mp hb with hb | hb
        · exact hrest b hb
        · rw [List.mem_singleton.mp hb]
          exact digitByte_digit (by omega)
      · -- only zero starts with a zero, and it has no tens
        have hten : n / 10 = 0 := by
          rw [← natOfDigits_decimal (n / 10), heq, hzero h, h]
          rfl
        omega

theorem digitByte_of_mem_padded {width n : ℕ} {b : UInt8} (h : b ∈ padded width n) :
    digitByte b = true := by
  rcases List.mem_append.mp h with h | h
  · rw [List.eq_of_mem_replicate h]; decide
  · exact digitByte_of_mem_decimal h

private theorem foldl_zeros (k v : ℕ) : (List.replicate k (0x30 : UInt8)).foldl
    (fun v b => 10 * v + digitValue b) v = 10 ^ k * v := by
  induction k generalizing v with
  | zero => simp
  | succ k ih =>
    rw [List.replicate_succ, List.foldl_cons, ih, digitValue, Nat.pow_succ]
    simp only [UInt8.reduceToNat, Nat.sub_self, Nat.add_zero]
    rw [Nat.mul_assoc]

@[simp] theorem natOfDigits_padded (width n : ℕ) : natOfDigits (padded width n) = n := by
  rw [natOfDigits, padded, List.foldl_append, foldl_zeros, Nat.mul_zero]
  exact natOfDigits_decimal n

theorem padded_injective (w : ℕ) : Function.Injective (padded w) := fun a b h => by
  rw [← natOfDigits_padded w a, h, natOfDigits_padded]

/-- A run of digits denotes less than its length allows. -/
theorem natOfDigits_lt {s : GoString} (h : ∀ b ∈ s, digitByte b = true) :
    natOfDigits s < 10 ^ s.length := by
  have hfold : ∀ (s : GoString) (v : ℕ), (∀ b ∈ s, digitByte b = true) →
      s.foldl (fun v b => 10 * v + digitValue b) v < 10 ^ s.length * (v + 1) := by
    intro s
    induction s with
    | nil => intro v _; simp
    | cons b s ih =>
      intro v hs
      have hb := digitValue_lt (hs b List.mem_cons_self)
      refine (ih _ fun c hc => hs c (List.mem_cons_of_mem _ hc)).trans_le ?_
      rw [List.length_cons, Nat.pow_succ, Nat.mul_assoc]
      have hle : 10 * v + digitValue b + 1 ≤ 10 * (v + 1) := by omega
      exact Nat.mul_le_mul_left _ hle
  simpa [natOfDigits] using hfold s 0 h

/-- The length of a decimal is a bound on its number. -/
theorem length_decimal_le {n k : ℕ} (hk : 0 < k) (h : n < 10 ^ k) : (decimal n).length ≤ k := by
  induction k generalizing n with
  | zero => omega
  | succ k ih =>
    rcases lt_or_ge n 10 with hn | hn
    · rw [decimal_of_lt hn]; simp
    · have hk' : 0 < k := by
        rcases Nat.eq_zero_or_pos k with rfl | hpos
        · omega
        · exact hpos
      have hlt : n / 10 < 10 ^ k := by
        rw [Nat.pow_succ] at h
        omega
      rw [decimal_of_le hn, List.length_append]
      exact Nat.succ_le_succ (ih hk' hlt)

theorem length_padded {width n : ℕ} (hw : 0 < width) (h : n < 10 ^ width) :
    (padded width n).length = width := by
  have := length_decimal_le hw h
  rw [padded, List.length_append, List.length_replicate]
  omega

/-- A number is longer than the powers of ten it reaches. -/
theorem lt_length_decimal {n k : ℕ} (h : 10 ^ k ≤ n) : k < (decimal n).length := by
  by_contra hle
  have hlt := natOfDigits_lt fun b hb => digitByte_of_mem_decimal (n := n) (b := b) hb
  rw [natOfDigits_decimal] at hlt
  have hpow : 10 ^ (decimal n).length ≤ 10 ^ k := Nat.pow_le_pow_right (by omega) (by omega)
  omega

end Beardrive
