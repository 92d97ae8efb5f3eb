import Beardrive.Lib.Crdt
import Beardrive.Lib.JsonString

/-!
# UTF-16

A text as a browser holds it: code units, two of them for a rune beyond `U+FFFF`. Nothing here
refers to any particular program.

A text that is valid UTF-8 has at least as many bytes as code units, and as many only when it is
ASCII.

## Main definitions

* `utf16`, `units` — the code units of a rune and of a text
* `unitBytes` — how many bytes code units take as UTF-8

## Main results

* `units_append_ascii`, `units_of_ascii` — code units around ASCII bytes
* `unitBytes_units` — a text takes its own bytes
* `length_units_lt`, `unitBytes_eq_length_iff` — only ASCII has a code unit for every byte
* `unitBytes_take_le_iff` — which texts, cut to a number of units, take no more bytes than that
-/

namespace Beardrive

/-- The code units of a rune. -/
def utf16 (r : ℕ) : List ℕ :=
  if r < 0x10000 then [r]
  else [0xD800 + (r - 0x10000) / 0x400, 0xDC00 + (r - 0x10000) % 0x400]

/-- The code units of a text. -/
def units (s : GoString) : List ℕ := (runes s).flatMap utf16

/-- The first half of a pair. -/
def highUnit (u : ℕ) : Bool := 0xD800 ≤ u && u ≤ 0xDBFF

/-- The second half of a pair. -/
def lowUnit (u : ℕ) : Bool := 0xDC00 ≤ u && u ≤ 0xDFFF

/-- The bytes of a code unit that is no half of a pair. A half by itself is written `U+FFFD`. -/
def unitWidth (u : ℕ) : ℕ := if u < 0x80 then 1 else if u < 0x800 then 2 else 3

/-- The bytes that code units take as UTF-8. -/
def unitBytes : List ℕ → ℕ
  | [] => 0
  | u :: rest =>
    if highUnit u then
      match rest with
      | v :: rest => if lowUnit v then 4 + unitBytes rest else 3 + unitBytes (v :: rest)
      | [] => 3
    else unitWidth u + unitBytes rest

theorem length_units (s : GoString) : (units s).length = utf16Len (runes s) := by
  rw [units, utf16Len, List.length_flatMap]
  congr 1
  refine List.map_congr_left fun r _ => ?_
  rw [utf16]
  split_ifs
  · rfl
  · rfl

theorem units_cons_ascii {b : UInt8} (h : b < 0x80) (s : GoString) :
    units (b :: s) = b.toNat :: units s := by
  have hb : b.toNat < 0x10000 := by
    have := b.toNat_lt
    omega
  rw [units, runes_cons_ascii h, List.flatMap_cons, utf16, if_pos hb]
  rfl

theorem units_append_ascii {b : UInt8} (h : b < 0x80) (s t : GoString) :
    units (s ++ b :: t) = units s ++ b.toNat :: units t := by
  rw [← units_cons_ascii h, units, runes_append_ascii h, List.flatMap_append]
  rfl

theorem units_ascii_append {s : GoString} (h : ∀ b ∈ s, b < 0x80) (t : GoString) :
    units (s ++ t) = s.map UInt8.toNat ++ units t := by
  induction s with
  | nil => rfl
  | cons b s ih =>
    rw [List.cons_append, units_cons_ascii (h b (List.mem_cons_self ..)),
      ih fun c hc => h c (List.mem_cons_of_mem b hc)]
    rfl

theorem units_of_ascii {s : GoString} (h : ∀ b ∈ s, b < 0x80) : units s = s.map UInt8.toNat := by
  have hs := units_ascii_append h []
  rwa [List.append_nil, show units [] = [] from rfl, List.append_nil] at hs

/-! ### Runes -/

/-- A step of the decoder is a byte that is part of nothing, or an encoding. -/
theorem decodeAll_cases {s : GoString} {c : Rune × GoString} (h : c ∈ decodeAll s) :
    (c.1 = runeError ∧ c.2.length = 1) ∨ Encodes c.2 c.1 := by
  by_cases hbad : c.1 = runeError ∧ c.2.length = 1
  · exact .inl hbad
  · exact .inr ⟨decodeRune_of_mem_decodeAll h, decodeAll_ne_nil h, hbad⟩

theorem Encodes.encodeRune_eq {bytes : GoString} {r : Rune} (h : Encodes bytes r) :
    encodeRune r = bytes := encodeRune_of_decodeRune h.1 h.2.1 h.2.2

theorem not_small_of_outside {r : ℕ} (h : (0xD800 ≤ r ∧ r ≤ 0xDFFF) ∨ 0x10FFFF < r) :
    ¬ r < 0x80 ∧ ¬ r < 0x800 := by
  constructor
  · omega
  · omega

/-- What is decoded is a Unicode scalar value. -/
theorem scalar_of_mem_runes {s : GoString} {r : Rune} (h : r ∈ runes s) :
    ¬ ((0xD800 ≤ r ∧ r ≤ 0xDFFF) ∨ 0x10FFFF < r) := by
  obtain ⟨c, hc, rfl⟩ := List.mem_map.mp h
  rcases decodeAll_cases hc with ⟨hbad, -⟩ | henc
  · rw [hbad]
    decide
  · intro hout
    obtain ⟨hsmall, hmiddle⟩ := not_small_of_outside hout
    have heq := henc.encodeRune_eq
    rw [encodeRune, if_neg hsmall, if_neg hmiddle, if_pos hout] at heq
    have hread := henc.1
    rw [← heq] at hread
    have herr : runeError = c.1 := congrArg Prod.fst hread
    rw [← herr] at hout
    exact absurd hout (by decide)

/-- A text without a byte has no code unit of it. -/
theorem notMem_units {s : GoString} {b : UInt8} (hb : b < 0x80) (h : b ∉ s) :
    b.toNat ∉ units s := by
  have hlow : b.toNat < 0x80 := UInt8.lt_iff_toNat_lt.mp hb
  intro hmem
  obtain ⟨r, hr, hunit⟩ := List.mem_flatMap.mp hmem
  rw [utf16] at hunit
  split_ifs at hunit with hbmp
  · obtain ⟨c, hc, rfl⟩ := List.mem_map.mp hr
    have hrune : b.toNat = c.1 := List.mem_singleton.mp hunit
    rcases decodeAll_cases hc with ⟨hbad, -⟩ | henc
    · rw [hbad] at hrune
      rw [hrune] at hlow
      exact absurd hlow (by decide)
    · have heq := henc.encodeRune_eq
      rw [← hrune, encodeRune_toNat hb] at heq
      refine h ?_
      rw [← flatten_decodeAll s]
      refine List.mem_flatten_of_mem (List.mem_map.mpr ⟨c, hc, rfl⟩) ?_
      rw [← heq]
      exact List.mem_singleton_self b
  · rcases List.mem_cons.mp hunit with heq | hunit
    · omega
    · have heq := List.mem_singleton.mp hunit
      omega

/-! ### Lengths -/

/-- The code units of a rune take the bytes of its encoding. -/
theorem unitBytes_utf16 {r : ℕ} (hr : ¬ ((0xD800 ≤ r ∧ r ≤ 0xDFFF) ∨ 0x10FFFF < r))
    (rest : List ℕ) : unitBytes (utf16 r ++ rest) = (encodeRune r).length + unitBytes rest := by
  rw [utf16, encodeRune]
  by_cases hbmp : (r : ℕ) < 0x10000
  · have hhigh : ¬ highUnit r = true := by
      simp only [highUnit, Bool.and_eq_true, decide_eq_true_eq]
      omega
    rw [if_pos hbmp, List.singleton_append, unitBytes.eq_def]
    dsimp only
    rw [if_neg hhigh, unitWidth, if_neg hr]
    by_cases h1 : (r : ℕ) < 0x80
    · rw [if_pos h1, if_pos h1]
      rfl
    · rw [if_neg h1, if_neg h1]
      by_cases h2 : (r : ℕ) < 0x800
      · rw [if_pos h2, if_pos h2]
        rfl
      · rw [if_neg h2, if_neg h2, if_pos hbmp]
        rfl
  · have h1 : ¬ (r : ℕ) < 0x80 := by omega
    have h2 : ¬ (r : ℕ) < 0x800 := by omega
    have hhigh : highUnit (0xD800 + (r - 0x10000) / 0x400) = true := by
      simp only [highUnit, Bool.and_eq_true, decide_eq_true_eq]
      omega
    have hlow : lowUnit (0xDC00 + (r - 0x10000) % 0x400) = true := by
      simp only [lowUnit, Bool.and_eq_true, decide_eq_true_eq]
      omega
    rw [if_neg hbmp, List.cons_append, List.singleton_append, unitBytes.eq_def]
    dsimp only
    rw [if_pos hhigh, if_pos hlow, if_neg h1, if_neg h2, if_neg hr, if_neg hbmp]
    rfl

/-- **A text takes its own bytes.** -/
theorem unitBytes_units {s : GoString} (h : validUTF8 s = true) :
    unitBytes (units s) = s.length := by
  have hself := toValid_eq_self_iff.mpr h
  have hscalar : ∀ r ∈ runes s, _ := fun r hr => scalar_of_mem_runes hr
  nth_rewrite 2 [← hself]
  rw [units, toValid]
  generalize runes s = rs at hscalar
  induction rs with
  | nil => rfl
  | cons r rs ih =>
    rw [List.flatMap_cons, List.flatMap_cons, unitBytes_utf16 (hscalar r (List.mem_cons_self ..)),
      ih fun x hx => hscalar x (List.mem_cons_of_mem r hx), List.length_append]

theorem length_utf16_lt {r : ℕ} (h : ¬ r < 0x80) :
    (utf16 r).length < (encodeRune r).length := by
  have htwo : (utf16 r).length ≤ 2 := by
    rw [utf16]
    split_ifs
    · exact Nat.le_succ 1
    · exact le_rfl
  rw [encodeRune, if_neg h]
  by_cases h2 : r < 0x800
  · have hbmp : r < 0x10000 := by omega
    rw [if_pos h2, utf16, if_pos hbmp]
    exact Nat.lt_succ_self 1
  · rw [if_neg h2]
    refine lt_of_le_of_lt htwo ?_
    split_ifs
    · exact Nat.lt_succ_self 2
    · exact Nat.lt_succ_self 2
    · show 2 < 4
      decide

theorem length_utf16_le (r : ℕ) : (utf16 r).length ≤ (encodeRune r).length ∧
    ((utf16 r).length = (encodeRune r).length → r < 0x80) := by
  by_cases h : r < 0x80
  · have hbmp : r < 0x10000 := by omega
    rw [utf16, encodeRune, if_pos hbmp, if_pos h]
    exact ⟨le_rfl, fun _ => h⟩
  · have hlt := length_utf16_lt h
    exact ⟨hlt.le, fun heq => absurd heq hlt.ne⟩

/-- **Only ASCII has a code unit for every byte.** -/
theorem length_units_lt {s : GoString} (h : validUTF8 s = true) :
    (units s).length ≤ s.length ∧ ((units s).length = s.length → ∀ b ∈ s, b < 0x80) := by
  have hself := toValid_eq_self_iff.mpr h
  rw [toValid] at hself
  rw [units]
  generalize runes s = rs at hself
  rw [← hself]
  clear hself h
  induction rs with
  | nil => exact ⟨le_rfl, fun _ b hb => absurd hb List.not_mem_nil⟩
  | cons r rs ih =>
    obtain ⟨hle, hone⟩ := length_utf16_le r
    rw [List.flatMap_cons, List.flatMap_cons, List.length_append, List.length_append]
    refine ⟨Nat.add_le_add hle ih.1, fun heq b hb => ?_⟩
    have hr : (r : ℕ) < 0x80 := hone (by omega)
    rcases List.mem_append.mp hb with hb | hb
    · rw [encodeRune, if_pos hr] at hb
      have hbyte : (r : ℕ) < UInt8.size := lt_trans hr (by decide)
      rw [List.mem_singleton.mp hb, UInt8.lt_iff_toNat_lt, UInt8.toNat_ofNat_of_lt' hbyte]
      exact hr
    · exact ih.2 (by omega) b hb

/-! ### Cuts -/

theorem unitWidth_pos (u : ℕ) : 1 ≤ unitWidth u ∧ (unitWidth u = 1 ↔ u < 0x80) := by
  rw [unitWidth]
  split_ifs with h1 h2
  · exact ⟨le_rfl, iff_of_true rfl h1⟩
  · exact ⟨by decide, iff_of_false (by decide) h1⟩
  · exact ⟨by decide, iff_of_false (by decide) h1⟩

theorem not_ascii_of_highUnit {u : ℕ} (h : highUnit u = true) : ¬ u < 0x80 := by
  simp only [highUnit, Bool.and_eq_true, decide_eq_true_eq] at h
  omega

/-- A text has a byte for every code unit at least. -/
theorem length_le_unitBytes (us : List ℕ) : us.length ≤ unitBytes us := by
  fun_induction unitBytes us with
  | case1 => exact le_rfl
  | case2 u hu v rest hv ih =>
    rw [List.length_cons, List.length_cons]
    omega
  | case3 u hu v rest hv ih =>
    rw [List.length_cons]
    omega
  | case4 u hu => exact Nat.le_add_left 1 2
  | case5 u rest hu ih =>
    have := (unitWidth_pos u).1
    rw [List.length_cons]
    omega

/-- **Only ASCII has as many bytes as code units.** -/
theorem unitBytes_eq_length_iff (us : List ℕ) :
    unitBytes us = us.length ↔ ∀ u ∈ us, u < 0x80 := by
  fun_induction unitBytes us with
  | case1 => exact iff_of_true rfl nofun
  | case2 u hu v rest hv ih =>
    have hle := length_le_unitBytes rest
    refine iff_of_false ?_ fun h => not_ascii_of_highUnit hu (h u (List.mem_cons_self ..))
    rw [List.length_cons, List.length_cons]
    omega
  | case3 u hu v rest hv ih =>
    have hle := length_le_unitBytes (v :: rest)
    refine iff_of_false ?_ fun h => not_ascii_of_highUnit hu (h u (List.mem_cons_self ..))
    rw [List.length_cons]
    omega
  | case4 u hu =>
    refine iff_of_false ?_ fun h => not_ascii_of_highUnit hu (h u (List.mem_cons_self ..))
    rw [List.length_singleton]
    decide
  | case5 u rest hu ih =>
    obtain ⟨hpos, hone⟩ := unitWidth_pos u
    have hle := length_le_unitBytes rest
    rw [List.forall_mem_cons, ← ih, ← hone, List.length_cons]
    omega

/-- What begins with no second half is written behind a text. -/
theorem unitBytes_append {c : ℕ} (hc : lowUnit c = false) (us vs : List ℕ) :
    unitBytes (us ++ c :: vs) = unitBytes us + unitBytes (c :: vs) := by
  fun_induction unitBytes us with
  | case1 => exact (Nat.zero_add _).symm
  | case2 u hu v rest hv ih =>
    rw [List.cons_append, List.cons_append, unitBytes, if_pos hu, if_pos hv, ih, Nat.add_assoc]
  | case3 u hu v rest hv ih =>
    rw [List.cons_append, List.cons_append, unitBytes, if_pos hu, if_neg hv, ← List.cons_append, ih,
      Nat.add_assoc]
  | case4 u hu =>
    rw [List.cons_append, List.nil_append, unitBytes, if_pos hu, if_neg (by rw [hc]; decide)]
  | case5 u rest hu ih =>
    rw [List.cons_append, unitBytes.eq_def]
    dsimp only
    rw [if_neg hu, ih, Nat.add_assoc]

/-- **A text cut to a number of units takes no more bytes than that** exactly when all of it does,
or what is left is ASCII. -/
theorem unitBytes_take_le_iff (n : ℕ) (us : List ℕ) :
    unitBytes (us.take n) ≤ n ↔ unitBytes us ≤ n ∨ ∀ u ∈ us.take n, u < 0x80 := by
  have hle := length_le_unitBytes (us.take n)
  have hascii := unitBytes_eq_length_iff (us.take n)
  rw [List.length_take] at hle hascii
  rcases le_or_gt us.length n with hshort | hlong
  · rw [List.take_of_length_le hshort] at *
    refine ⟨.inl, ?_⟩
    rintro (h | h)
    · exact h
    · rw [hascii.mpr h]
      exact min_le_left ..
  · rw [min_eq_left hlong.le] at hle hascii
    have hall := length_le_unitBytes us
    constructor
    · intro h
      exact .inr (hascii.mp (le_antisymm h hle))
    · rintro (h | h)
      · omega
      · exact (hascii.mpr h).le

/-! ### ASCII fronts -/

theorem validUTF8_append_ascii {c : UInt8} (hc : c < 0x80) (s t : GoString) :
    validUTF8 (s ++ c :: t) = (validUTF8 s && validUTF8 t) := by
  have hone : (c.toNat == runeError) = false := by
    have hlow : c.toNat < 0x80 := UInt8.lt_iff_toNat_lt.mp hc
    rw [beq_eq_false_iff_ne]
    intro heq
    rw [heq] at hlow
    exact absurd hlow (by decide)
  rw [validUTF8, decodeAll_append_ascii hc, decodeAll_cons_ascii hc, List.all_append, List.all_cons,
    hone]
  rfl

/-- A byte beyond ASCII begins a rune beyond it. -/
theorem not_ascii_decodeRune {b : UInt8} (h : ¬ b < 0x80) (s : GoString) :
    ¬ ((decodeRune (b :: s)).1 : ℕ) < 0x80 := by
  intro hlow
  have hmem : ((decodeRune (b :: s)).1, (b :: s).take (decodeRune (b :: s)).2) ∈
      decodeAll (b :: s) := by
    rw [decodeAll_cons]
    exact List.mem_cons_self ..
  obtain ⟨w, hw⟩ := Nat.exists_eq_succ_of_ne_zero (decodeRune_width_pos b s).ne'
  rw [hw, List.take_succ_cons] at hmem
  rcases decodeAll_cases hmem with ⟨hbad, -⟩ | henc
  · rw [hbad] at hlow
    exact absurd hlow (by decide)
  · have heq := henc.encodeRune_eq
    rw [encodeRune, if_pos hlow] at heq
    have hsize : ((decodeRune (b :: s)).1 : ℕ) < UInt8.size := hlow.trans (by decide)
    refine h ?_
    rw [← (List.cons.inj heq).1, UInt8.lt_iff_toNat_lt, UInt8.toNat_ofNat_of_lt' hsize]
    exact hlow

/-- And a unit beyond it. -/
theorem exists_units_cons {b : UInt8} (h : ¬ b < 0x80) (s : GoString) :
    ∃ u us, units (b :: s) = u :: us ∧ ¬ u < 0x80 := by
  have hrune := not_ascii_decodeRune h s
  rw [units, runes, decodeAll_cons, List.map_cons, List.flatMap_cons, utf16]
  dsimp only
  split_ifs with hbmp
  · exact ⟨_, _, rfl, hrune⟩
  · refine ⟨_, _, rfl, ?_⟩
    omega

/-- **Units that are ASCII are bytes.** -/
theorem take_of_ascii_units {n : ℕ} {s : GoString} (h : ∀ u ∈ (units s).take n, u < 0x80) :
    (s.take n).map UInt8.toNat = (units s).take n := by
  induction n generalizing s with
  | zero => rfl
  | succ n ih =>
    cases s with
    | nil => rfl
    | cons b s =>
      by_cases hb : b < 0x80
      · rw [units_cons_ascii hb] at h ⊢
        rw [List.take_succ_cons, List.forall_mem_cons] at h
        rw [List.take_succ_cons, List.take_succ_cons, List.map_cons, ih h.2]
      · obtain ⟨u, us, heq, hu⟩ := exists_units_cons hb s
        rw [heq] at h
        exact absurd (h u (List.mem_cons_self ..)) hu

end Beardrive
