import Beardrive.Lib.Json
import Mathlib.Algebra.Order.BigOperators.Group.List
import Mathlib.Algebra.Order.Group.Nat
import Mathlib.Data.Bool.AllAny

/-!
# Strings in JSON texts

What a decoder makes of the bytes between two quotes. Nothing here refers to any particular
program.

An encoder writes a byte that is not part of an encoding as `\ufffd`, and a decoder reads such a
byte as `U+FFFD`, so a string comes back with every one of them replaced: `toValid`.

## Main definitions

* `toValid` — a string with its undecodable bytes replaced
* `unquote` — the string between two quotes

## Main results

* `unquote_quoteBody` — what was written comes back, made valid
* `toValid_eq_self_iff` — a string is left as it is exactly when it is valid
* `toValid_toValid` — what was made valid is left as it is
* `validUTF8_unquote` — what a decoder reads is valid
-/

namespace Beardrive

/-- A string with every byte that is not part of an encoding replaced by `U+FFFD`. -/
def toValid (s : GoString) : GoString := (runes s).flatMap encodeRune

/-- The value of a hexadecimal digit. -/
def hexValue (c : UInt8) : ℕ :=
  if digitByte c then digitValue c else if 0x61 ≤ c then c.toNat - 0x57 else c.toNat - 0x37

/-- `getu4`: the code unit of an escape at the start of a string. -/
def getu4 : GoString → Option Rune
  | b :: u :: h1 :: h2 :: h3 :: h4 :: _ =>
    if b = 0x5C ∧ u = 0x75 ∧ [h1, h2, h3, h4].all Machine.hex then
      some (((hexValue h1 * 16 + hexValue h2) * 16 + hexValue h3) * 16 + hexValue h4)
    else none
  | _ => none

/-- `utf16.DecodeRune`, where the two halves make a code point. -/
def decodeSurrogates (r1 r2 : Rune) : Option Rune :=
  if 0xD800 ≤ r1 ∧ r1 < 0xDC00 ∧ 0xDC00 ≤ r2 ∧ r2 < 0xE000 then
    some ((r1 - 0xD800) * 1024 + (r2 - 0xDC00) + 0x10000)
  else none

/-- `utf16.IsSurrogate`. -/
def isSurrogate (r : Rune) : Bool := 0xD800 ≤ r && r < 0xE000

/-- The letter of a one-letter escape, and what it stands for. -/
def escapes : List (UInt8 × UInt8) :=
  [(0x22, 0x22), (0x5C, 0x5C), (0x2F, 0x2F), (0x27, 0x27), (0x62, 0x08), (0x66, 0x0C),
    (0x6E, 0x0A), (0x72, 0x0D), (0x74, 0x09)]

/-- One step of a decoding loop: what it writes and what it leaves to read. -/
def unquoteStep : GoString → Option (GoString × GoString)
  | [] => none
  | b :: s =>
    if b = 0x5C then
      match s with
      | [] => none
      | e :: rest =>
        match escapes.lookup e with
        | some c => some ([c], rest)
        | none => do
          let r ← getu4 (b :: s)
          let rest := (b :: s).drop 6
          if isSurrogate r then
            match (getu4 rest).bind (decodeSurrogates r) with
            | some r => some (encodeRune r, rest.drop 6)
            | none => some (encodeRune runeError, rest)
          else some (encodeRune r, rest)
    else if b = 0x22 ∨ b < 0x20 then none
    else some (encodeRune (decodeRune (b :: s)).1, (b :: s).drop (decodeRune (b :: s)).2)

/-- The decoding loop, `fuel` steps at most. -/
def unquoteAux : ℕ → GoString → Option GoString
  | 0, s => if s = [] then some [] else none
  | fuel + 1, s =>
    if s = [] then some []
    else do
      let (out, rest) ← unquoteStep s
      return out ++ (← unquoteAux fuel rest)

/-- `unquote`: the string between two quotes, if it is one. -/
def unquote (raw : GoString) : Option GoString := unquoteAux raw.length raw

/-! ### The round trip -/

theorem encodeRune_toNat {b : UInt8} (h : b < 0x80) : encodeRune b.toNat = [b] := by
  have hb : b.toNat < 0x80 := UInt8.lt_iff_toNat_lt.mp h
  rw [encodeRune, if_pos hb, UInt8.ofNat_toNat]

theorem hexValue_hexChar {d : ℕ} (h : d < 16) : hexValue (hexChar d) = d := by
  have hall : ∀ d : Fin 16, hexValue (hexChar d) = d := by decide
  exact hall ⟨d, h⟩

theorem getu4_cons {h1 h2 h3 h4 : UInt8} (h : [h1, h2, h3, h4].all Machine.hex = true)
    (rest : GoString) : getu4 (0x5C :: 0x75 :: h1 :: h2 :: h3 :: h4 :: rest)
      = some (((hexValue h1 * 16 + hexValue h2) * 16 + hexValue h3) * 16 + hexValue h4) :=
  if_pos ⟨rfl, rfl, h⟩

/-- Reading a unicode escape that is no surrogate. -/
theorem unquoteStep_unicode {h1 h2 h3 h4 : UInt8} {r : Rune}
    (h : [h1, h2, h3, h4].all Machine.hex = true)
    (hr : ((hexValue h1 * 16 + hexValue h2) * 16 + hexValue h3) * 16 + hexValue h4 = r)
    (hs : isSurrogate r = false) (rest : GoString) :
    unquoteStep (0x5C :: 0x75 :: h1 :: h2 :: h3 :: h4 :: rest) = some (encodeRune r, rest) := by
  have hlookup : escapes.lookup 0x75 = none := by decide
  simp only [unquoteStep, if_true, hlookup, getu4_cons h, hr, Option.bind_eq_bind,
    Option.bind_some, hs, Bool.false_eq_true, if_false]
  rfl

theorem unquoteStep_escape {e c : UInt8} (h : escapes.lookup e = some c) (rest : GoString) :
    unquoteStep (0x5C :: e :: rest) = some ([c], rest) := by
  simp only [unquoteStep, if_true, h]

theorem unquoteStep_quoteByte {b : UInt8} (h : b < 0x80) (rest : GoString) :
    unquoteStep (quoteByte b ++ rest) = some ([b], rest) := by
  unfold quoteByte
  split_ifs with h1 h2 h3 h4 h5 h6 h7
  · simp only [htmlSafe, Bool.and_eq_true, decide_eq_true_eq, Bool.not_eq_true'] at h1
    have hb (c : UInt8) (hc : (ascii "\"&<>\\").contains c = true) : b ≠ c := by
      rintro rfl
      rw [h1.2] at hc
      simp at hc
    rw [List.singleton_append, unquoteStep.eq_def]
    simp only [if_neg (hb 0x5C (by decide)), hb 0x22 (by decide), h1.1.1.not_gt, or_self, if_false,
      decodeRune_ascii h, encodeRune_toNat h]
    rfl
  · rcases h2 with rfl | rfl
    · exact unquoteStep_escape (by decide) rest
    · exact unquoteStep_escape (by decide) rest
  · exact h3 ▸ unquoteStep_escape (by decide) rest
  · exact h4 ▸ unquoteStep_escape (by decide) rest
  · exact h5 ▸ unquoteStep_escape (by decide) rest
  · exact h6 ▸ unquoteStep_escape (by decide) rest
  · exact h7 ▸ unquoteStep_escape (by decide) rest
  · have hb : b.toNat < 0x80 := UInt8.lt_iff_toNat_lt.mp h
    rw [← encodeRune_toNat h]
    show unquoteStep (0x5C :: 0x75 :: 0x30 :: 0x30 :: hexChar (b.toNat / 16) ::
      hexChar (b.toNat % 16) :: rest) = _
    refine unquoteStep_unicode ?_ ?_ ?_ rest
    · simp only [List.all_cons, List.all_nil, Bool.and_true, Bool.and_eq_true]
      exact ⟨by decide, by decide, Machine.hex_hexChar (by omega), Machine.hex_hexChar (by omega)⟩
    · have hzero : hexValue 0x30 = 0 := by decide
      rw [hexValue_hexChar (by omega), hexValue_hexChar (by omega), hzero]
      simpa using Nat.div_add_mod' b.toNat 16
    · have hlow : ¬ 0xD800 ≤ b.toNat := by omega
      simp only [isSurrogate, hlow, decide_false, Bool.false_and]

/-- A step of the encoder is undone by a step of the decoder. -/
theorem unquoteStep_quoteChunk {c : Rune × GoString} (h : decodeRune c.2 = (c.1, c.2.length))
    (hne : c.2 ≠ []) (rest : GoString) :
    unquoteStep (quoteChunk c ++ rest) = some (encodeRune c.1, rest) := by
  obtain ⟨r, bytes⟩ := c
  rcases bytes with _ | ⟨b, _ | ⟨b', bytes⟩⟩
  · exact absurd rfl hne
  · by_cases hb : b < 0x80
    · obtain rfl : b.toNat = r := by
        rw [decodeRune_ascii hb] at h
        exact (Prod.mk.inj h).1
      simp only [quoteChunk, if_pos hb, unquoteStep_quoteByte hb, encodeRune_toNat hb]
    · obtain rfl : runeError = r := by
        have herr : decodeRune [b] = (runeError, 1) := by
          simp only [decodeRune, if_neg hb]
          split_ifs <;> rfl
        rw [herr] at h
        exact (Prod.mk.inj h).1
      simp only [quoteChunk, if_neg hb]
      exact unquoteStep_unicode (by decide) (by decide) (by decide) rest
  · have hbytes := le_of_mem_of_decodeRune h (by simp)
    simp only [quoteChunk]
    split_ifs with h1 h2
    · exact h1 ▸ unquoteStep_unicode (by decide) (by decide) (by decide) rest
    · exact h2 ▸ unquoteStep_unicode (by decide) (by decide) (by decide) rest
    · have hb : 0x80 ≤ b := hbytes b (by simp)
      have hdecode : decodeRune (b :: b' :: bytes ++ rest) = (r, (b :: b' :: bytes).length) := by
        rcases decodeRune_take_cases (n := (b :: b' :: bytes).length) (by simp) b
          (b' :: bytes ++ rest) with heq | heq
        · rw [← List.cons_append, List.take_left] at heq
          exact heq.symm.trans h
        · rw [← List.cons_append, List.take_left, h] at heq
          simp at heq
      have hb' : b ≠ 0x5C ∧ ¬ (b = 0x22 ∨ b < 0x20) := by
        refine ⟨?_, not_or.mpr ⟨?_, fun hlt => ?_⟩⟩
        · rintro rfl
          exact absurd hb (by decide)
        · rintro rfl
          exact absurd hb (by decide)
        · exact absurd (hb.trans_lt hlt) (by decide)
      rw [List.cons_append, unquoteStep.eq_def]
      simp only [if_neg hb'.1, if_neg hb'.2]
      rw [← List.cons_append, hdecode, List.drop_left]

/-- **What was written between two quotes comes back, made valid.** -/
theorem unquote_quoteBody (s : GoString) : unquote (quoteBody s) = some (toValid s) := by
  have hloop : ∀ (l : List (Rune × GoString)) (fuel : ℕ),
      (∀ c ∈ l, decodeRune c.2 = (c.1, c.2.length) ∧ c.2 ≠ []) →
        (l.flatMap quoteChunk).length ≤ fuel →
          unquoteAux fuel (l.flatMap quoteChunk) = some (l.flatMap fun c => encodeRune c.1) := by
    intro l
    induction l with
    | nil => intro fuel _ _; cases fuel <;> rfl
    | cons c l ih =>
      intro fuel hl hfuel
      obtain ⟨hc, hne⟩ := hl c List.mem_cons_self
      have hstep := unquoteStep_quoteChunk hc hne (l.flatMap quoteChunk)
      rw [List.flatMap_cons] at hfuel ⊢
      have hpos : quoteChunk c ≠ [] := by
        intro hnil
        have := unquoteStep_quoteChunk hc hne []
        rw [hnil] at this
        simp [unquoteStep] at this
      have hlen := List.length_pos_iff.mpr hpos
      rw [List.length_append] at hfuel
      obtain ⟨fuel, rfl⟩ := Nat.exists_eq_add_of_le' (by omega : 1 ≤ fuel)
      rw [unquoteAux, if_neg (by simp [hpos]), hstep, List.flatMap_cons]
      simp only [Option.bind_eq_bind, Option.bind_some,
        ih fuel (fun d hd => hl d (List.mem_cons_of_mem _ hd)) (by omega)]
      rfl
  rw [unquote, quoteBody, hloop _ _ (fun c hc =>
    ⟨decodeRune_of_mem_decodeAll hc, decodeAll_ne_nil hc⟩) le_rfl, toValid, runes, List.flatMap_map]

/-! ### Valid strings -/

private theorem contByte_iff {lo hi b : UInt8} :
    contByte lo hi b = true ↔ lo.toNat ≤ b.toNat ∧ b.toNat ≤ hi.toNat := by
  simp [contByte, UInt8.le_iff_toNat_le]

private theorem second3_toNat (b : UInt8) :
    (b.toNat = 0xE0 → (second3 b).1.toNat = 0xA0) ∧ 0x80 ≤ (second3 b).1.toNat ∧
      (b.toNat = 0xED → (second3 b).2.toNat = 0x9F) ∧ (second3 b).2.toNat ≤ 0xBF := by
  unfold second3
  split_ifs with h1 h2
  · subst h1; decide
  · subst h2; decide
  · refine ⟨fun h => absurd (UInt8.toNat_inj.mp h) h1, by decide,
      fun h => absurd (UInt8.toNat_inj.mp h) h2, by decide⟩

private theorem second4_toNat (b : UInt8) :
    (b.toNat = 0xF0 → (second4 b).1.toNat = 0x90) ∧ 0x80 ≤ (second4 b).1.toNat ∧
      (b.toNat = 0xF4 → (second4 b).2.toNat = 0x8F) ∧ (second4 b).2.toNat ≤ 0xBF := by
  unfold second4
  split_ifs with h1 h2
  · subst h1; decide
  · subst h2; decide
  · refine ⟨fun h => absurd (UInt8.toNat_inj.mp h) h1, by decide,
      fun h => absurd (UInt8.toNat_inj.mp h) h2, by decide⟩

/-- **An encoding is the encoding of the rune it decodes to.** -/
theorem encodeRune_of_decodeRune {r : Rune} {bytes : GoString}
    (h : decodeRune bytes = (r, bytes.length)) (hne : bytes ≠ [])
    (hr : ¬ (r = runeError ∧ bytes.length = 1)) : encodeRune r = bytes := by
  obtain ⟨b0, s, rfl⟩ := List.exists_cons_of_ne_nil hne
  have herr : (runeError, 1) ≠ (r, (b0 :: s).length) := by
    intro heq
    obtain ⟨rfl, hlen⟩ := Prod.mk.inj heq
    exact hr ⟨rfl, hlen.symm⟩
  have hb0 := b0.toNat_lt
  rw [decodeRune.eq_def] at h
  dsimp only at h
  split_ifs at h with h1 h2 h3 h4
  · obtain ⟨rfl, hlen⟩ := Prod.mk.inj h
    obtain rfl : s = [] := by simpa using hlen.symm
    exact encodeRune_toNat h1
  · rcases s with _ | ⟨b1, s⟩
    · exact absurd h herr
    dsimp only at h
    split_ifs at h with hc
    · obtain ⟨rfl, hlen⟩ := Prod.mk.inj h
      obtain rfl : s = [] := by simpa using hlen.symm
      rw [contByte_iff] at hc
      obtain ⟨hlo, hhi⟩ := hc
      rw [UInt8.le_iff_toNat_le, UInt8.le_iff_toNat_le] at h2
      simp only [UInt8.reduceToNat] at h2 hlo hhi
      have hr1 : ¬ b0.toNat % 32 * 64 + b1.toNat % 64 < 0x80 := by omega
      have hr2 : b0.toNat % 32 * 64 + b1.toNat % 64 < 0x800 := by omega
      rw [encodeRune, if_neg hr1, if_pos hr2, ofNat_eq (a := b0) (by omega),
        ofNat_eq (a := b1) (by omega)]
    · exact absurd h herr
  · rcases s with _ | ⟨b1, _ | ⟨b2, s⟩⟩
    · exact absurd h herr
    · exact absurd h herr
    dsimp only at h
    split_ifs at h with hc
    · obtain ⟨rfl, hlen⟩ := Prod.mk.inj h
      obtain rfl : s = [] := by simpa using hlen.symm
      obtain ⟨hc1, hc2⟩ := hc
      rw [contByte_iff] at hc1 hc2
      obtain ⟨hE0, hlo, hED, hhi⟩ := second3_toNat b0
      rw [UInt8.le_iff_toNat_le, UInt8.le_iff_toNat_le] at h3
      simp only [UInt8.reduceToNat] at h3 hc2
      have hx : b0.toNat % 16 = b0.toNat - 0xE0 := by omega
      have hy : b1.toNat % 64 = b1.toNat - 0x80 := by omega
      have hz : b2.toNat % 64 = b2.toNat - 0x80 := by omega
      rw [hx, hy, hz]
      generalize hr : ((b0.toNat - 0xE0) * 64 + (b1.toNat - 0x80)) * 64 + (b2.toNat - 0x80) = r
      have h1 : ¬ r < 0x80 := by omega
      have h2 : ¬ r < 0x800 := by omega
      have h3 : ¬ ((0xD800 ≤ r ∧ r ≤ 0xDFFF) ∨ 0x10FFFF < r) := by omega
      have h4 : r < 0x10000 := by omega
      rw [encodeRune, if_neg h1, if_neg h2, if_neg h3, if_pos h4,
        ofNat_eq (show 0xE0 + r / 4096 = b0.toNat by omega),
        ofNat_eq (show 0x80 + r / 64 % 64 = b1.toNat by omega),
        ofNat_eq (show 0x80 + r % 64 = b2.toNat by omega)]
    · exact absurd h herr
  · rcases s with _ | ⟨b1, _ | ⟨b2, _ | ⟨b3, s⟩⟩⟩
    · exact absurd h herr
    · exact absurd h herr
    · exact absurd h herr
    dsimp only at h
    split_ifs at h with hc
    · obtain ⟨rfl, hlen⟩ := Prod.mk.inj h
      obtain rfl : s = [] := by simpa using hlen.symm
      obtain ⟨hc1, hc2, hc3⟩ := hc
      rw [contByte_iff] at hc1 hc2 hc3
      obtain ⟨hF0, hlo, hF4, hhi⟩ := second4_toNat b0
      rw [UInt8.le_iff_toNat_le, UInt8.le_iff_toNat_le] at h4
      simp only [UInt8.reduceToNat] at h4 hc2 hc3
      have hx : b0.toNat % 8 = b0.toNat - 0xF0 := by omega
      have hy : b1.toNat % 64 = b1.toNat - 0x80 := by omega
      have hz : b2.toNat % 64 = b2.toNat - 0x80 := by omega
      have hw : b3.toNat % 64 = b3.toNat - 0x80 := by omega
      rw [hx, hy, hz, hw]
      generalize hr : (((b0.toNat - 0xF0) * 64 + (b1.toNat - 0x80)) * 64 + (b2.toNat - 0x80)) * 64 +
        (b3.toNat - 0x80) = r
      have h1 : ¬ r < 0x80 := by omega
      have h2 : ¬ r < 0x800 := by omega
      have h3 : ¬ ((0xD800 ≤ r ∧ r ≤ 0xDFFF) ∨ 0x10FFFF < r) := by omega
      have h4 : ¬ r < 0x10000 := by omega
      rw [encodeRune, if_neg h1, if_neg h2, if_neg h3, if_neg h4,
        ofNat_eq (show 0xF0 + r / 262144 = b0.toNat by omega),
        ofNat_eq (show 0x80 + r / 4096 % 64 = b1.toNat by omega),
        ofNat_eq (show 0x80 + r / 64 % 64 = b2.toNat by omega),
        ofNat_eq (show 0x80 + r % 64 = b3.toNat by omega)]
    · exact absurd h herr
  · exact absurd h herr

/-- An ASCII rune is one byte. -/
theorem bytes_of_mem_decodeAll {s : GoString} {c : Rune × GoString} (h : c ∈ decodeAll s)
    (hc : c.1 < 0x80) : c.2 = [UInt8.ofNat c.1] := by
  have hdec := decodeRune_of_mem_decodeAll h
  have herr : c.1 ≠ runeError := fun heq => absurd hc (by rw [heq]; decide)
  have hne : c.2 ≠ [] := by
    intro hnil
    rw [hnil] at hdec
    exact herr (Prod.mk.inj hdec).1.symm
  rw [← encodeRune_of_decodeRune hdec hne fun h => herr h.1, encodeRune, if_pos hc]

/-- **A stretch of ASCII runes is a stretch of bytes**, at an end of the string if it is at that end
of its runes. -/
theorem exists_of_runes_eq {s : GoString} {a l b : List Rune} (h : runes s = a ++ l ++ b)
    (hl : ∀ r ∈ l, r < 0x80) :
    ∃ s₁ s₂, s = s₁ ++ l.map UInt8.ofNat ++ s₂ ∧ (a = [] → s₁ = []) ∧ (b = [] → s₂ = []) := by
  obtain ⟨ab, B, hdec, hab, hB⟩ := List.map_eq_append_iff.mp h
  obtain ⟨A, L, rfl, hA, hL⟩ := List.map_eq_append_iff.mp hab
  have hbytes : L.map Prod.snd = l.map fun r => [UInt8.ofNat r] := by
    rw [← hL, List.map_map]
    refine List.map_congr_left fun c hc => @bytes_of_mem_decodeAll s c ?_ (hl _ ?_)
    · rw [hdec]
      exact List.mem_append_left _ (List.mem_append_right _ hc)
    · rw [← hL]
      exact List.mem_map_of_mem hc
  have hflat : (l.map fun r => [UInt8.ofNat r]).flatten = l.map UInt8.ofNat := by
    rw [← List.flatMap_def, ← List.map_eq_flatMap]
  refine ⟨(A.map Prod.snd).flatten, (B.map Prod.snd).flatten, ?_, ?_, ?_⟩
  · rw [← flatten_decodeAll s, hdec, List.map_append, List.map_append, hbytes,
      List.flatten_append, List.flatten_append, hflat]
  · rintro rfl
    rw [List.map_eq_nil_iff.mp hA]
    rfl
  · rintro rfl
    rw [List.map_eq_nil_iff.mp hB]
    rfl

/-- An ASCII rune of a string is a byte of it. -/
theorem mem_of_mem_runes {s : GoString} {r : Rune} (h : r ∈ runes s) (hr : r < 0x80) :
    UInt8.ofNat r ∈ s := by
  obtain ⟨a, b, heq⟩ := List.append_of_mem h
  obtain ⟨s₁, s₂, hs, -⟩ := @exists_of_runes_eq s a [r] b (by rw [heq]; simp) (by simpa using hr)
  rw [hs]
  simp

/-- The replacements are all there is: what decodes is written back as it was. -/
theorem toValid_eq (s : GoString) : toValid s = (decodeAll s).flatMap fun c =>
    if c.1 = runeError ∧ c.2.length = 1 then encodeRune runeError else c.2 := by
  rw [toValid, runes, List.flatMap_map]
  refine List.flatMap_congr fun c hc => ?_
  split_ifs with h
  · rw [h.1]
  · exact encodeRune_of_decodeRune (decodeRune_of_mem_decodeAll hc) (decodeAll_ne_nil hc) h

/-- A string is left as it is exactly when it is valid. -/
theorem toValid_eq_self_iff {s : GoString} : toValid s = s ↔ validUTF8 s = true := by
  constructor
  · intro h
    rw [validUTF8, List.all_eq_true]
    by_contra hbad
    push Not at hbad
    obtain ⟨c, hc, hbad⟩ := hbad
    rw [Ne, Bool.not_eq_true', Bool.not_eq_false, Bool.and_eq_true, beq_iff_eq, beq_iff_eq] at hbad
    -- a replacement is longer than the byte it stands for
    have hlen : (s.length : ℕ) < (toValid s).length := by
      rw [toValid_eq, List.length_flatMap]
      conv_lhs => rw [← flatten_decodeAll s, List.length_flatten, List.map_map]
      refine List.sum_lt_sum _ _ (fun d _ => ?_) ⟨c, hc, ?_⟩
      · dsimp only [Function.comp]
        split_ifs with hd
        · rw [hd.2]; decide
        · exact le_rfl
      · dsimp only [Function.comp]
        rw [if_pos hbad, hbad.2]
        decide
    rw [h] at hlen
    exact hlen.false
  · intro h
    rw [toValid_eq]
    conv_rhs => rw [← flatten_decodeAll s, ← List.flatMap_def]
    refine List.flatMap_congr fun c hc => if_neg ?_
    have hgood := List.all_eq_true.mp h c hc
    rintro ⟨hr, hlen⟩
    simp [hr, hlen] at hgood

/-! ### Making valid twice -/

/-- The bytes of one encoding, and of nothing else. -/
def Encodes (bytes : GoString) (r : Rune) : Prop :=
  decodeRune bytes = (r, bytes.length) ∧ bytes ≠ [] ∧ ¬ (r = runeError ∧ bytes.length = 1)

/-- An encoding reads the same with anything behind it. -/
theorem Encodes.decodeRune_append {bytes : GoString} {r : Rune} (h : Encodes bytes r)
    (t : GoString) : decodeRune (bytes ++ t) = (r, bytes.length) := by
  obtain ⟨h, hne, hr⟩ := h
  obtain ⟨b0, s, rfl⟩ := List.exists_cons_of_ne_nil hne
  have herr : (runeError, 1) ≠ (r, (b0 :: s).length) := by
    intro heq
    obtain ⟨rfl, hlen⟩ := Prod.mk.inj heq
    exact hr ⟨rfl, hlen.symm⟩
  rw [← h]
  rcases s with _ | ⟨b1, _ | ⟨b2, _ | ⟨b3, s⟩⟩⟩ <;>
    simp only [decodeRune, List.cons_append, List.nil_append] at h ⊢ <;> split_ifs at h ⊢ <;>
    first
    | rfl
    | exact absurd h herr

/-- An encoding in front of a string changes nothing about what is valid. -/
theorem Encodes.validUTF8_append {bytes : GoString} {r : Rune} (h : Encodes bytes r)
    (t : GoString) : validUTF8 (bytes ++ t) = validUTF8 t := by
  have hread := h.decodeRune_append t
  obtain ⟨-, hne, hr⟩ := h
  obtain ⟨b, s, rfl⟩ := List.exists_cons_of_ne_nil hne
  have hgood : (!(r == runeError && (b :: s).length == 1)) = true := by
    rw [Bool.not_eq_true', Bool.and_eq_false_iff, beq_eq_false_iff_ne, beq_eq_false_iff_ne]
    exact not_and_or.mp hr
  rw [List.cons_append] at hread
  rw [validUTF8, List.cons_append, decodeAll_cons, hread, List.all_cons, ← List.cons_append,
    List.take_left, List.drop_left, hgood, Bool.true_and, validUTF8]

/-- What was made valid is valid. -/
theorem validUTF8_toValid (s : GoString) : validUTF8 (toValid s) = true := by
  have hchunk (c : Rune × GoString) (hc : c ∈ decodeAll s) : ∃ r, Encodes
      (if c.1 = runeError ∧ c.2.length = 1 then encodeRune runeError else c.2) r := by
    split_ifs with hbad
    · exact ⟨runeError, by unfold Encodes; decide⟩
    · exact ⟨c.1, decodeRune_of_mem_decodeAll hc, decodeAll_ne_nil hc, hbad⟩
  rw [toValid_eq]
  generalize decodeAll s = chunks at hchunk
  induction chunks with
  | nil => rfl
  | cons c chunks ih =>
    obtain ⟨⟨r, hfirst⟩, htail⟩ := List.forall_mem_cons.mp hchunk
    rw [List.flatMap_cons, hfirst.validUTF8_append]
    exact ih htail

/-- Making valid once is enough. -/
@[simp] theorem toValid_toValid (s : GoString) : toValid (toValid s) = toValid s :=
  toValid_eq_self_iff.mpr (validUTF8_toValid s)

/-! ### Decoded strings are valid -/

theorem encodes_of_width {bytes : GoString} (h : (decodeRune bytes).2 = bytes.length)
    (hlen : 2 ≤ bytes.length) : ∃ r, Encodes bytes r := by
  refine ⟨(decodeRune bytes).1, Prod.ext rfl h, ?_, ?_⟩
  · rintro rfl
    cases hlen
  · rintro ⟨-, hone⟩
    omega

/-- **Whatever is encoded decodes**: a number that is no rune is encoded as `U+FFFD`. -/
theorem encodes_encodeRune (r : ℕ) : ∃ r', Encodes (encodeRune r) r' := by
  have hbyte : ∀ {n : ℕ}, n < 256 → (UInt8.ofNat n).toNat = n := UInt8.toNat_ofNat_of_lt
  have henc : encodeRune r = if (r : ℕ) < 0x80 then [UInt8.ofNat r]
      else if (r : ℕ) < 0x800 then [UInt8.ofNat (0xC0 + r / 64), UInt8.ofNat (0x80 + r % 64)]
      else if ((0xD800 : ℕ) ≤ r ∧ r ≤ 0xDFFF) ∨ 0x10FFFF < r then [0xEF, 0xBF, 0xBD]
      else if (r : ℕ) < 0x10000 then
        [UInt8.ofNat (0xE0 + r / 4096), UInt8.ofNat (0x80 + r / 64 % 64),
          UInt8.ofNat (0x80 + r % 64)]
      else
        [UInt8.ofNat (0xF0 + r / 262144), UInt8.ofNat (0x80 + r / 4096 % 64),
          UInt8.ofNat (0x80 + r / 64 % 64), UInt8.ofNat (0x80 + r % 64)] := rfl
  rw [henc]
  split_ifs with h1 h2 h3 h4
  · refine ⟨r, ?_, by simp, fun hbad => ?_⟩
    · rw [decodeRune_ascii (UInt8.lt_iff_toNat_lt.mpr (by rw [hbyte (by omega)]; exact h1)),
        hbyte (by omega)]
      rfl
    · rw [hbad.1] at h1
      exact absurd h1 (by decide)
  · have hb0 := hbyte (show 0xC0 + r / 64 < 256 by omega)
    have hb1 := hbyte (show 0x80 + r % 64 < 256 by omega)
    refine encodes_of_width ?_ (by simp)
    rw [decodeRune, if_neg (by rw [UInt8.lt_iff_toNat_lt, hb0]; simp only [UInt8.reduceToNat]; omega), if_pos]
    · rw [if_pos]
      · rfl
      · rw [contByte_iff, hb1]
        exact ⟨Nat.le_add_right _ _, by simp only [UInt8.reduceToNat]; omega⟩
    · rw [UInt8.le_iff_toNat_le, UInt8.le_iff_toNat_le, hb0]
      simp only [UInt8.reduceToNat]
      omega
  · exact ⟨runeError, by unfold Encodes; decide⟩
  · have hb0 := hbyte (show 0xE0 + r / 4096 < 256 by omega)
    have hb1 := hbyte (show 0x80 + r / 64 % 64 < 256 by omega)
    have hb2 := hbyte (show 0x80 + r % 64 < 256 by omega)
    have hsecond : contByte (second3 (UInt8.ofNat (0xE0 + r / 4096))).1
        (second3 (UInt8.ofNat (0xE0 + r / 4096))).2 (UInt8.ofNat (0x80 + r / 64 % 64)) = true := by
      rw [contByte_iff, hb1]
      have heq (b : UInt8) : UInt8.ofNat (0xE0 + r / 4096) = b ↔ 0xE0 + r / 4096 = b.toNat := by
        rw [← UInt8.toNat_inj, hb0]
      simp only [second3, heq, UInt8.reduceToNat]
      split_ifs
      · simp only [UInt8.reduceToNat]
        omega
      · simp only [UInt8.reduceToNat]
        omega
      · simp only [UInt8.reduceToNat]
        omega
    refine encodes_of_width ?_ (by simp)
    rw [decodeRune, if_neg (by rw [UInt8.lt_iff_toNat_lt, hb0]; simp only [UInt8.reduceToNat]; omega), if_neg, if_pos]
    · dsimp only
      rw [if_pos]
      · rfl
      · refine ⟨hsecond, ?_⟩
        rw [contByte_iff, hb2]
        exact ⟨Nat.le_add_right _ _, by simp only [UInt8.reduceToNat]; omega⟩
    · rw [UInt8.le_iff_toNat_le, UInt8.le_iff_toNat_le, hb0]
      simp only [UInt8.reduceToNat]
      omega
    · rw [UInt8.le_iff_toNat_le, UInt8.le_iff_toNat_le, hb0]
      simp only [UInt8.reduceToNat]
      omega
  · have hb0 := hbyte (show 0xF0 + r / 262144 < 256 by omega)
    have hb1 := hbyte (show 0x80 + r / 4096 % 64 < 256 by omega)
    have hb2 := hbyte (show 0x80 + r / 64 % 64 < 256 by omega)
    have hb3 := hbyte (show 0x80 + r % 64 < 256 by omega)
    have hsecond : contByte (second4 (UInt8.ofNat (0xF0 + r / 262144))).1
        (second4 (UInt8.ofNat (0xF0 + r / 262144))).2
        (UInt8.ofNat (0x80 + r / 4096 % 64)) = true := by
      rw [contByte_iff, hb1]
      have heq (b : UInt8) : UInt8.ofNat (0xF0 + r / 262144) = b ↔ 0xF0 + r / 262144 = b.toNat := by
        rw [← UInt8.toNat_inj, hb0]
      simp only [second4, heq, UInt8.reduceToNat]
      split_ifs
      · simp only [UInt8.reduceToNat]
        omega
      · simp only [UInt8.reduceToNat]
        omega
      · simp only [UInt8.reduceToNat]
        omega
    refine encodes_of_width ?_ (by simp)
    rw [decodeRune, if_neg (by rw [UInt8.lt_iff_toNat_lt, hb0]; simp only [UInt8.reduceToNat]; omega), if_neg, if_neg, if_pos]
    · dsimp only
      rw [if_pos]
      · rfl
      · refine ⟨hsecond, ?_, ?_⟩
        · rw [contByte_iff, hb2]
          exact ⟨Nat.le_add_right _ _, by simp only [UInt8.reduceToNat]; omega⟩
        · rw [contByte_iff, hb3]
          exact ⟨Nat.le_add_right _ _, by simp only [UInt8.reduceToNat]; omega⟩
    · rw [UInt8.le_iff_toNat_le, UInt8.le_iff_toNat_le, hb0]
      simp only [UInt8.reduceToNat]
      omega
    · rw [UInt8.le_iff_toNat_le, UInt8.le_iff_toNat_le, hb0]
      simp only [UInt8.reduceToNat]
      omega
    · rw [UInt8.le_iff_toNat_le, UInt8.le_iff_toNat_le, hb0]
      simp only [UInt8.reduceToNat]
      omega

/-- A step of the decoding loop writes one encoding. -/
theorem unquoteStep_encodes {s out rest : GoString} (h : unquoteStep s = some (out, rest)) :
    ∃ r, Encodes out r := by
  cases s with
  | nil => cases h
  | cons b s =>
    rw [unquoteStep.eq_def] at h
    dsimp only at h
    split_ifs at h with hesc hbad
    · cases s with
      | nil => cases h
      | cons e s =>
        dsimp only at h
        cases hletter : escapes.lookup e with
        | some c =>
          rw [hletter] at h
          obtain ⟨rfl, -⟩ := Prod.mk.inj (Option.some.inj h)
          obtain ⟨front, back, heq, -⟩ := List.lookup_eq_some_iff.mp hletter
          have hmem : (e, c) ∈ escapes := heq ▸ List.mem_append_right _ List.mem_cons_self
          have hascii : ∀ p ∈ escapes, p.2 < 0x80 := List.all_iff_forall_prop.mp (by decide)
          have hc := hascii _ hmem
          rw [← encodeRune_toNat hc]
          exact encodes_encodeRune _
        | none =>
          rw [hletter] at h
          obtain ⟨r, -, h⟩ := Option.bind_eq_some_iff.mp h
          split_ifs at h
          · split at h
            · obtain ⟨rfl, -⟩ := Prod.mk.inj (Option.some.inj h)
              exact encodes_encodeRune _
            · obtain ⟨rfl, -⟩ := Prod.mk.inj (Option.some.inj h)
              exact encodes_encodeRune _
          · obtain ⟨rfl, -⟩ := Prod.mk.inj (Option.some.inj h)
            exact encodes_encodeRune _
    · obtain ⟨rfl, -⟩ := Prod.mk.inj (Option.some.inj h)
      exact encodes_encodeRune _

/-- **What a decoder reads is valid.** -/
theorem validUTF8_unquote {raw s : GoString} (h : unquote raw = some s) : validUTF8 s = true := by
  have hloop : ∀ (fuel : ℕ) (raw s : GoString), unquoteAux fuel raw = some s →
      validUTF8 s = true := by
    intro fuel
    induction fuel with
    | zero =>
      intro raw s h
      rw [unquoteAux] at h
      split_ifs at h
      rw [← Option.some.inj h]
      rfl
    | succ fuel ih =>
      intro raw s h
      rw [unquoteAux] at h
      split_ifs at h
      · rw [← Option.some.inj h]
        rfl
      · obtain ⟨⟨out, rest⟩, hstep, h⟩ := Option.bind_eq_some_iff.mp h
        obtain ⟨tail, htail, h⟩ := Option.bind_eq_some_iff.mp h
        obtain rfl := Option.some.inj h
        obtain ⟨r, hr⟩ := unquoteStep_encodes hstep
        rw [hr.validUTF8_append]
        exact ih _ _ htail
  exact hloop _ _ _ h

end Beardrive
