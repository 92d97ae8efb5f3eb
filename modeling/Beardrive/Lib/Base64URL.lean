import Beardrive.Lib.Base64

/-!
# Base 64 in addresses

The alphabet for addresses and file names, without padding. It is the standard alphabet but for two
letters. Nothing here refers to any particular program.

## Main definitions

* `rawURLEncode`, `rawURLDecode` — the two directions

## Main results

* `rawURLDecode_rawURLEncode` — the round trip
-/

namespace Beardrive

/-- The letter of a number below 64. -/
def urlChar (d : ℕ) : UInt8 :=
  if d = 62 then 0x2D else if d = 63 then 0x5F else base64Char d

/-- The number of a letter. -/
def urlValue (c : UInt8) : Option ℕ :=
  if c = 0x2D then some 62
  else if c = 0x5F then some 63
  else if c = 0x2B ∨ c = 0x2F then none
  else base64Value c

/-- `RawURLEncoding.EncodeToString`: three bytes are four letters, and fewer are fewer. -/
def rawURLEncode : GoString → GoString
  | a :: b :: c :: s =>
    urlChar (a.toNat / 4) :: urlChar (a.toNat % 4 * 16 + b.toNat / 16) ::
      urlChar (b.toNat % 16 * 4 + c.toNat / 64) :: urlChar (c.toNat % 64) :: rawURLEncode s
  | [a, b] =>
    [urlChar (a.toNat / 4), urlChar (a.toNat % 4 * 16 + b.toNat / 16),
      urlChar (b.toNat % 16 * 4)]
  | [a] => [urlChar (a.toNat / 4), urlChar (a.toNat % 4 * 16)]
  | [] => []

/-- Four letters are three bytes. At the end two are one, and three are two; one is none. -/
def urlQuanta : GoString → Option GoString
  | [] => some []
  | [_] => none
  | [a, b] => do
    let a ← urlValue a
    let b ← urlValue b
    return [UInt8.ofNat (a * 4 + b / 16)]
  | [a, b, c] => do
    let a ← urlValue a
    let b ← urlValue b
    let c ← urlValue c
    return [UInt8.ofNat (a * 4 + b / 16), UInt8.ofNat (b % 16 * 16 + c / 4)]
  | a :: b :: c :: d :: s => do
    let a ← urlValue a
    let b ← urlValue b
    let c ← urlValue c
    let d ← urlValue d
    return UInt8.ofNat (a * 4 + b / 16) :: UInt8.ofNat (b % 16 * 16 + c / 4) ::
      UInt8.ofNat (c % 4 * 64 + d) :: (← urlQuanta s)

/-- `RawURLEncoding.DecodeString`: line breaks count for nothing. -/
def rawURLDecode (s : GoString) : Option GoString :=
  urlQuanta (s.filter fun c => c != 0x0D && c != 0x0A)

theorem urlValue_urlChar {d : ℕ} (h : d < 64) : urlValue (urlChar d) = some d := by
  have hall : ∀ d : Fin 64, urlValue (urlChar d) = some (d : ℕ) := by decide
  exact hall ⟨d, h⟩

theorem urlChar_ne {d : ℕ} (h : d < 64) : urlChar d ≠ 0x0D ∧ urlChar d ≠ 0x0A := by
  have hall : ∀ d : Fin 64, urlChar d ≠ 0x0D ∧ urlChar d ≠ 0x0A := by decide
  exact hall ⟨d, h⟩

theorem urlQuanta_rawURLEncode (s : GoString) : urlQuanta (rawURLEncode s) = some s := by
  induction s using rawURLEncode.induct with
  | case1 a b c s ih =>
    have ha := a.toNat_lt
    have hb := b.toNat_lt
    have hc := c.toNat_lt
    have h0 : a.toNat / 4 < 64 := by omega
    have h1 : a.toNat % 4 * 16 + b.toNat / 16 < 64 := by omega
    have h2 : b.toNat % 16 * 4 + c.toNat / 64 < 64 := by omega
    have h3 : c.toNat % 64 < 64 := by omega
    simp only [rawURLEncode, urlQuanta, urlValue_urlChar h0, urlValue_urlChar h1,
      urlValue_urlChar h2, urlValue_urlChar h3, ih, Option.bind_eq_bind, Option.bind_some]
    rw [ofNat_eq (a := a) (by omega), ofNat_eq (a := b) (by omega), ofNat_eq (a := c) (by omega)]
    rfl
  | case2 a b =>
    have ha := a.toNat_lt
    have hb := b.toNat_lt
    have h0 : a.toNat / 4 < 64 := by omega
    have h1 : a.toNat % 4 * 16 + b.toNat / 16 < 64 := by omega
    have h2 : b.toNat % 16 * 4 < 64 := by omega
    simp only [rawURLEncode, urlQuanta, urlValue_urlChar h0, urlValue_urlChar h1,
      urlValue_urlChar h2, Option.bind_eq_bind, Option.bind_some]
    rw [ofNat_eq (a := a) (by omega), ofNat_eq (a := b) (by omega)]
    rfl
  | case3 a =>
    have ha := a.toNat_lt
    have h0 : a.toNat / 4 < 64 := by omega
    have h1 : a.toNat % 4 * 16 < 64 := by omega
    simp only [rawURLEncode, urlQuanta, urlValue_urlChar h0, urlValue_urlChar h1,
      Option.bind_eq_bind, Option.bind_some]
    rw [ofNat_eq (a := a) (by omega)]
    rfl
  | case4 => rfl

/-- What is encoded is letters. -/
theorem mem_rawURLEncode (s : GoString) : ∀ c ∈ rawURLEncode s, ∃ d < 64, c = urlChar d := by
  induction s using rawURLEncode.induct with
  | case1 a b c s ih =>
    have ha := a.toNat_lt
    have hb := b.toNat_lt
    have hc := c.toNat_lt
    intro d hd
    simp only [rawURLEncode, List.mem_cons] at hd
    rcases hd with rfl | rfl | rfl | rfl | hd
    · exact ⟨_, by omega, rfl⟩
    · exact ⟨_, by omega, rfl⟩
    · exact ⟨_, by omega, rfl⟩
    · exact ⟨_, by omega, rfl⟩
    · exact ih d hd
  | case2 a b =>
    have ha := a.toNat_lt
    have hb := b.toNat_lt
    intro d hd
    simp only [rawURLEncode, List.mem_cons, List.not_mem_nil, or_false] at hd
    rcases hd with rfl | rfl | rfl
    · exact ⟨_, by omega, rfl⟩
    · exact ⟨_, by omega, rfl⟩
    · exact ⟨_, by omega, rfl⟩
  | case3 a =>
    have ha := a.toNat_lt
    intro d hd
    simp only [rawURLEncode, List.mem_cons, List.not_mem_nil, or_false] at hd
    rcases hd with rfl | rfl
    · exact ⟨_, by omega, rfl⟩
    · exact ⟨_, by omega, rfl⟩
  | case4 => simp [rawURLEncode]

/-- **Decoding undoes encoding.** -/
theorem rawURLDecode_rawURLEncode (s : GoString) : rawURLDecode (rawURLEncode s) = some s := by
  have hfilter : (rawURLEncode s).filter (fun c => c != 0x0D && c != 0x0A) = rawURLEncode s := by
    rw [List.filter_eq_self]
    intro c hc
    obtain ⟨d, hd, rfl⟩ := mem_rawURLEncode s c hc
    simp [urlChar_ne hd]
  rw [rawURLDecode, hfilter, urlQuanta_rawURLEncode]

theorem rawURLEncode_ne_nil {s : GoString} (h : s ≠ []) : rawURLEncode s ≠ [] := by
  intro hnil
  have hs := urlQuanta_rawURLEncode s
  rw [hnil] at hs
  exact h (Option.some.inj hs).symm

end Beardrive
