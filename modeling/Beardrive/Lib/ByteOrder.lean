import Beardrive.Lib.GoString
import Mathlib.Data.Nat.Bitwise
import Mathlib.Data.Prod.Lex

/-!
# Codes that sort as what they stand for

A code writes values as bytes so that comparing the bytes compares the values, whatever is written
behind them. That is a statement about the code with a rest on either side: a code that only sorted
alone could not be followed by another one. With the rests in the statement, writing one code behind
another is a code for the lexicographic product, and keys of many fields need no argument of their
own. Nothing here refers to any particular key.

## Main definitions

* `Sorts` — a code for the values of a set
* `bigEndian`, `signed` — numbers of a fixed width, signed ones with the sign bit flipped
* `escaped` — strings, with NUL escaped and a terminator below every byte

## Main results

* `Sorts.prod` — codes one behind the other
* `sorts_bigEndian`, `sorts_signed`, `sorts_escaped`
* `Sorts.lt_iff` — the order of the bytes is that of the values
-/

namespace Beardrive

namespace ByteOrder

variable {α β : Type*} [LinearOrder α] [LinearOrder β]

/-- Comparing the codes of two values of a set, with anything behind them, compares the values
first and then what is behind. -/
def Sorts (values : Set α) (code : α → GoString) : Prop :=
  ∀ a ∈ values, ∀ b ∈ values, ∀ s t : GoString,
    code a ++ s < code b ++ t ↔ a < b ∨ a = b ∧ s < t

/-- **The order of the bytes is that of the values.** -/
theorem Sorts.lt_iff {values : Set α} {code : α → GoString} (h : Sorts values code) {a b : α}
    (ha : a ∈ values) (hb : b ∈ values) : code a < code b ↔ a < b := by
  have hrest := h a ha b hb [] []
  rw [List.append_nil, List.append_nil] at hrest
  rw [hrest]
  exact or_iff_left fun h => absurd h.2 (lt_irrefl _)

/-- **Codes one behind the other** sort as the lexicographic product. -/
theorem Sorts.prod {values : Set α} {values' : Set β} {code : α → GoString}
    {code' : β → GoString} (h : Sorts values code) (h' : Sorts values' code') :
    Sorts {p : α ×ₗ β | (ofLex p).1 ∈ values ∧ (ofLex p).2 ∈ values'}
      (fun p => code (ofLex p).1 ++ code' (ofLex p).2) := by
  intro p hp q hq s t
  rw [List.append_assoc, List.append_assoc, h _ hp.1 _ hq.1, h' _ hp.2 _ hq.2, Prod.Lex.lt_iff]
  have hext : p = q ↔ (ofLex p).1 = (ofLex q).1 ∧ (ofLex p).2 = (ofLex q).2 := by
    rw [← Prod.ext_iff, ofLex_inj]
  rw [hext, and_assoc, or_assoc, ← and_or_left]

/-! ### Numbers -/

/-- A number as so many bytes, the highest first. -/
def bigEndian : ℕ → ℕ → GoString
  | 0, _ => []
  | k + 1, n => UInt8.ofNat (n / 256 ^ k) :: bigEndian k (n % 256 ^ k)

theorem sorts_bigEndian (k : ℕ) : Sorts {n : ℕ | n < 256 ^ k} (bigEndian k) := by
  induction k with
  | zero =>
    intro a ha b hb s t
    obtain rfl : a = 0 := by simpa using ha
    obtain rfl : b = 0 := by simpa using hb
    simp [bigEndian]
  | succ k ih =>
    intro a ha b hb s t
    have hpos : 0 < 256 ^ k := Nat.pow_pos (by omega)
    have hdigit : ∀ n, n < 256 ^ (k + 1) → n / 256 ^ k < 256 := by
      intro n hn
      rw [Nat.div_lt_iff_lt_mul hpos, Nat.mul_comm, ← Nat.pow_succ]
      exact hn
    have hbyte : ∀ n, n < 256 ^ (k + 1) → (UInt8.ofNat (n / 256 ^ k)).toNat = n / 256 ^ k :=
      fun n hn => UInt8.toNat_ofNat_of_lt (hdigit n hn)
    have hsplit := fun n => Nat.div_add_mod n (256 ^ k)
    have ha' := hsplit a
    have hb' := hsplit b
    rw [bigEndian, bigEndian, List.cons_append, List.cons_append, List.cons_lt_cons_iff,
      ih _ (Nat.mod_lt _ hpos) _ (Nat.mod_lt _ hpos), UInt8.lt_iff_toNat_lt, ← UInt8.toNat_inj,
      hbyte a ha, hbyte b hb]
    have hlt : a < b ↔ a / 256 ^ k < b / 256 ^ k ∨
        a / 256 ^ k = b / 256 ^ k ∧ a % 256 ^ k < b % 256 ^ k := by
      constructor
      · intro h
        rcases (Nat.div_le_div_right h.le : a / 256 ^ k ≤ b / 256 ^ k).lt_or_eq with hq | hq
        · exact .inl hq
        · rw [← hq] at hb'
          exact .inr ⟨hq, by omega⟩
      · rintro (hq | ⟨hq, hr⟩)
        · exact lt_of_not_ge fun hle => absurd (Nat.div_le_div_right hle) (not_le.mpr hq)
        · rw [hq] at ha'
          omega
    have heq : a = b ↔ a / 256 ^ k = b / 256 ^ k ∧ a % 256 ^ k = b % 256 ^ k := by
      constructor
      · rintro rfl
        exact ⟨rfl, rfl⟩
      · rintro ⟨hq, hr⟩
        rw [← ha', ← hb', hq, hr]
    rw [hlt, heq, and_or_left, ← and_assoc, ← or_assoc]

/-- A signed number of 64 bits, with the sign bit flipped. -/
def signed (v : ℤ) : GoString := bigEndian 8 ((v % 2 ^ 64).toNat ^^^ 2 ^ 63)

/-- What a signed number of 64 bits can be. -/
def signedRange : Set ℤ := {v | -2 ^ 63 ≤ v ∧ v < 2 ^ 63}

/-- Flipping the sign bit moves the numbers up by half the range. -/
theorem flip_sign {v : ℤ} (h : v ∈ signedRange) :
    (((v % 2 ^ 64).toNat ^^^ 2 ^ 63 : ℕ) : ℤ) = v + 2 ^ 63 := by
  obtain ⟨hlo, hhi⟩ := h
  set n := (v % 2 ^ 64).toNat with hn
  have hdiv : (n ^^^ 2 ^ 63) / 2 ^ 63 = n / 2 ^ 63 ^^^ 1 := by
    rw [Nat.xor_div_two_pow]
    rfl
  have hmod : (n ^^^ 2 ^ 63) % 2 ^ 63 = n % 2 ^ 63 := by
    rw [Nat.xor_mod_two_pow]
    simp
  have hsum := Nat.div_add_mod (n ^^^ 2 ^ 63) (2 ^ 63)
  rw [hmod] at hsum
  -- the top bit is set for the negative numbers, and is flipped
  rcases lt_or_ge v 0 with hneg | hnonneg
  · have hq : n / 2 ^ 63 = 1 := by omega
    rw [hq, Nat.xor_self] at hdiv
    rw [hdiv] at hsum
    omega
  · have hq : n / 2 ^ 63 = 0 := by omega
    rw [hq, Nat.zero_xor] at hdiv
    rw [hdiv] at hsum
    omega

theorem sorts_signed : Sorts signedRange signed := by
  intro a ha b hb s t
  have hflipa := flip_sign ha
  have hflipb := flip_sign hb
  obtain ⟨hloa, hhia⟩ := ha
  obtain ⟨hlob, hhib⟩ := hb
  have hwidth : ∀ v, -2 ^ 63 ≤ v ∧ v < 2 ^ 63 →
      (((v % 2 ^ 64).toNat ^^^ 2 ^ 63 : ℕ) : ℤ) = v + 2 ^ 63 →
        (v % 2 ^ 64).toNat ^^^ 2 ^ 63 ∈ {n : ℕ | n < 256 ^ 8} := by
    intro v hv hflip
    change _ < 256 ^ 8
    omega
  rw [signed, signed, sorts_bigEndian 8 _ (hwidth a ⟨hloa, hhia⟩ hflipa) _
    (hwidth b ⟨hlob, hhib⟩ hflipb)]
  have hlt : (a % 2 ^ 64).toNat ^^^ 2 ^ 63 < (b % 2 ^ 64).toNat ^^^ 2 ^ 63 ↔ a < b := by omega
  have heq : (a % 2 ^ 64).toNat ^^^ 2 ^ 63 = (b % 2 ^ 64).toNat ^^^ 2 ^ 63 ↔ a = b := by omega
  rw [hlt, heq]

/-! ### Strings -/

/-- A string with NUL escaped, and a terminator that sorts below every byte. -/
def escaped : GoString → GoString
  | [] => [0, 0]
  | b :: s => (if b = 0 then [0, 0xff] else [b]) ++ escaped s

theorem escaped_zero (s : GoString) : escaped (0 :: s) = 0 :: 0xff :: escaped s := by
  rw [escaped, if_pos rfl]
  rfl

theorem escaped_ne {b : UInt8} (h : b ≠ 0) (s : GoString) : escaped (b :: s) = b :: escaped s := by
  rw [escaped, if_neg h]
  rfl

/-- A terminator is below everything that begins with a byte. -/
theorem terminated_lt (b : UInt8) (c s t : GoString) :
    escaped [] ++ s < escaped (b :: c) ++ t := by
  by_cases hb : b = 0
  · rw [hb, escaped_zero]
    change (0 : UInt8) :: 0 :: s < 0 :: 0xff :: (escaped c ++ t)
    simp only [List.cons_lt_cons_iff]
    exact .inr ⟨trivial, .inl (by decide)⟩
  · rw [escaped_ne hb]
    change (0 : UInt8) :: 0 :: s < b :: (escaped c ++ t)
    rw [List.cons_lt_cons_iff]
    refine .inl (lt_of_le_of_ne ?_ (Ne.symm hb))
    exact UInt8.le_iff_toNat_le.mpr (Nat.zero_le _)

theorem sorts_escaped : Sorts Set.univ escaped := by
  intro a _ b _ s t
  induction a generalizing b with
  | nil =>
    cases b with
    | nil =>
      change (0 : UInt8) :: 0 :: s < 0 :: 0 :: t ↔ _
      simp
    | cons c b => exact iff_of_true (terminated_lt c b s t) (.inl (List.nil_lt_cons c b))
  | cons c a ih =>
    cases b with
    | nil =>
      refine iff_of_false (lt_asymm (terminated_lt c a t s)) ?_
      rintro (h | ⟨h, -⟩)
      · exact absurd h (List.not_lt_nil _)
      · cases h
    | cons d b =>
      have hih := ih trivial b trivial
      have hvalues : c :: a < d :: b ∨ c :: a = d :: b ∧ s < t ↔
          c < d ∨ c = d ∧ (a < b ∨ a = b ∧ s < t) := by
        rw [List.cons_lt_cons_iff, List.cons.injEq]
        tauto
      rw [hvalues, ← hih]
      by_cases hc : c = 0
      · by_cases hd : d = 0
        · rw [hc, hd, escaped_zero, escaped_zero]
          simp only [List.cons_append, List.cons_lt_cons_iff, lt_irrefl, false_or, true_and]
        · have hlt : (0 : UInt8) < d :=
            lt_of_le_of_ne (UInt8.le_iff_toNat_le.mpr (Nat.zero_le _)) (Ne.symm hd)
          rw [hc, escaped_zero, escaped_ne hd]
          simp only [List.cons_append, List.cons_lt_cons_iff]
          exact iff_of_true (.inl hlt) (.inl hlt)
      · by_cases hd : d = 0
        · have hlt : (0 : UInt8) < c :=
            lt_of_le_of_ne (UInt8.le_iff_toNat_le.mpr (Nat.zero_le _)) (Ne.symm hc)
          rw [hd, escaped_zero, escaped_ne hc]
          simp only [List.cons_append, List.cons_lt_cons_iff]
          refine iff_of_false ?_ ?_
          · rintro (h | ⟨h, -⟩)
            · exact lt_asymm hlt h
            · exact hc h
          · rintro (h | ⟨h, -⟩)
            · exact lt_asymm hlt h
            · exact hc h
        · rw [escaped_ne hc, escaped_ne hd, List.cons_append, List.cons_append,
            List.cons_lt_cons_iff]

end ByteOrder

end Beardrive
