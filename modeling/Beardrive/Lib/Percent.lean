import Beardrive.Lib.JsonString

/-!
# Percent encoding and query strings

A text is put into an address byte by byte: a byte that is kept stands for itself, any other for
`%` and its two digits. A query string is a list of names with values, each encoded so, with a
space written `+`. Nothing here refers to any particular program.

What is kept is a parameter. All that reading back asks of it is that it does not keep `%`, and for
a query string that it keeps neither `+`, `&` nor `=`.

## Main definitions

* `percentEncode` — percent encoding
* `percentDecode`, `percentDecodeLax` — reading it, strictly or not
* `utf8Decode` — text from bytes, with replacement characters
* `formText`, `formPairs` — query strings

## Main results

* `percentDecode_percentEncode` — reading back
* `formPairs_formText` — a query string is read as the list it was made of
-/

namespace Beardrive

/-! ### Percent encoding -/

/-- A hexadecimal digit, in upper case. -/
def upperHex (d : ℕ) : UInt8 := if d < 10 then digit d else UInt8.ofNat (0x37 + d)

/-- One byte. -/
def percentByte (keep : UInt8 → Bool) (b : UInt8) : GoString :=
  if keep b then [b] else [0x25, upperHex (b.toNat / 16), upperHex (b.toNat % 16)]

/-- A text. -/
def percentEncode (keep : UInt8 → Bool) (s : GoString) : GoString := s.flatMap (percentByte keep)

/-- What two digits stand for. -/
def hexPair (a b : UInt8) : UInt8 := UInt8.ofNat (hexValue a * 16 + hexValue b)

/-- The bytes of an encoded text, in which every `%` has its two digits. -/
def percentDecode : GoString → Option GoString
  | [] => some []
  | c :: s =>
    if c = 0x25 then
      match s with
      | a :: b :: s =>
        if Machine.hex a && Machine.hex b then (percentDecode s).map (hexPair a b :: ·) else none
      | _ => none
    else (percentDecode s).map (c :: ·)

/-- The bytes of an encoded text, in which a `%` without its two digits stands for itself. -/
def percentDecodeLax : GoString → GoString
  | [] => []
  | c :: s =>
    if c = 0x25 then
      match s with
      | a :: b :: t =>
        if Machine.hex a && Machine.hex b then hexPair a b :: percentDecodeLax t
        else c :: percentDecodeLax (a :: b :: t)
      | t => c :: t
    else c :: percentDecodeLax s

theorem upperHex_spec {d : ℕ} (h : d < 16) :
    Machine.hex (upperHex d) = true ∧ hexValue (upperHex d) = d ∧
      (0x30 ≤ upperHex d ∧ upperHex d ≤ 0x39 ∨ 0x41 ≤ upperHex d ∧ upperHex d ≤ 0x46) := by
  have hall : ∀ d : Fin 16, Machine.hex (upperHex d) = true ∧ hexValue (upperHex d) = d ∧
      (0x30 ≤ upperHex d ∧ upperHex d ≤ 0x39 ∨ 0x41 ≤ upperHex d ∧ upperHex d ≤ 0x46) := by
    decide
  exact hall ⟨d, h⟩

theorem hexPair_upperHex (b : UInt8) :
    Machine.hex (upperHex (b.toNat / 16)) = true ∧ Machine.hex (upperHex (b.toNat % 16)) = true ∧
      hexPair (upperHex (b.toNat / 16)) (upperHex (b.toNat % 16)) = b := by
  have hb := b.toNat_lt
  have hhigh := upperHex_spec (d := b.toNat / 16) (by omega)
  have hlow := upperHex_spec (d := b.toNat % 16) (by omega)
  refine ⟨hhigh.1, hlow.1, ?_⟩
  rw [hexPair, hhigh.2.1, hlow.2.1, show b.toNat / 16 * 16 + b.toNat % 16 = b.toNat by omega,
    UInt8.ofNat_toNat]

section

variable {keep : UInt8 → Bool}

theorem percentByte_cases (b : UInt8) :
    keep b = true ∧ percentByte keep b = [b] ∨
      percentByte keep b = [0x25, upperHex (b.toNat / 16), upperHex (b.toNat % 16)] := by
  rw [percentByte]
  split_ifs with h
  · exact .inl ⟨h, rfl⟩
  · exact .inr rfl

/-- A byte of an encoded text is one that is kept, a `%` or a digit. -/
theorem mem_percentEncode {s : GoString} {c : UInt8} (h : c ∈ percentEncode keep s) :
    keep c = true ∨ c = 0x25 ∨ (0x30 ≤ c ∧ c ≤ 0x39 ∨ 0x41 ≤ c ∧ c ≤ 0x46) := by
  obtain ⟨b, -, hc⟩ := List.mem_flatMap.mp h
  have hb := b.toNat_lt
  rcases @percentByte_cases keep b with ⟨hkeep, heq⟩ | heq
  · rw [heq, List.mem_singleton] at hc
    rw [hc]
    exact .inl hkeep
  · rw [heq, List.mem_cons, List.mem_cons, List.mem_singleton] at hc
    rcases hc with rfl | rfl | rfl
    · exact .inr (.inl rfl)
    · exact .inr (.inr (upperHex_spec (by omega)).2.2)
    · exact .inr (.inr (upperHex_spec (by omega)).2.2)

theorem percentEncode_eq_self {s : GoString} (h : ∀ b ∈ s, keep b = true) :
    percentEncode keep s = s := by
  have hself : ∀ b ∈ s, percentByte keep b = [b] := fun b hb => if_pos (h b hb)
  rw [percentEncode, List.flatMap_congr hself]
  exact List.flatMap_singleton' s

theorem percentEncode_eq_nil_iff {s : GoString} : percentEncode keep s = [] ↔ s = [] := by
  cases s with
  | nil => exact iff_of_true rfl rfl
  | cons b s =>
    refine iff_of_false (fun h => ?_) nofun
    rw [percentEncode, List.flatMap_cons, List.append_eq_nil_iff] at h
    rcases @percentByte_cases keep b with ⟨-, heq⟩ | heq
    · rw [heq] at h
      exact absurd h.1 nofun
    · rw [heq] at h
      exact absurd h.1 nofun

/-- **Reading back.** -/
theorem percentDecode_percentEncode (hkeep : keep 0x25 = false) (s : GoString) :
    percentDecode (percentEncode keep s) = some s := by
  induction s with
  | nil => rfl
  | cons b s ih =>
    rw [percentEncode, List.flatMap_cons, ← percentEncode]
    rcases @percentByte_cases keep b with ⟨hb, heq⟩ | heq
    · have hne : b ≠ 0x25 := by
        rintro rfl
        rw [hkeep] at hb
        cases hb
      rw [heq, List.singleton_append, percentDecode.eq_def]
      dsimp only
      rw [if_neg hne, ih]
      rfl
    · obtain ⟨hhigh, hlow, hpair⟩ := hexPair_upperHex b
      rw [heq, List.cons_append, List.cons_append, List.singleton_append, percentDecode.eq_def]
      dsimp only
      rw [if_pos rfl, hhigh, hlow, ih, hpair]
      rfl

theorem percentDecodeLax_of_percentDecode {s t : GoString} (h : percentDecode s = some t) :
    percentDecodeLax s = t := by
  fun_induction percentDecode s generalizing t with
  | case1 => exact Option.some.inj h
  | case2 a b s hhex ih =>
    obtain ⟨t', ht, rfl⟩ := Option.map_eq_some_iff.mp h
    rw [percentDecodeLax.eq_def]
    dsimp only
    rw [if_pos rfl, if_pos hhex, ih ht]
  | case3 => cases h
  | case4 => cases h
  | case5 c s hc ih =>
    obtain ⟨t', ht, rfl⟩ := Option.map_eq_some_iff.mp h
    rw [percentDecodeLax.eq_def]
    dsimp only
    rw [if_neg hc, ih ht]

end

/-! ### Text from bytes -/

/-- How many bytes one replacement character stands for: as many as could still have begun an
encoding. -/
def badWidth : GoString → ℕ
  | b0 :: b1 :: rest =>
    if 0xE0 ≤ b0 ∧ b0 ≤ 0xEF ∧ contByte (second3 b0).1 (second3 b0).2 b1 then 2
    else if 0xF0 ≤ b0 ∧ b0 ≤ 0xF4 ∧ contByte (second4 b0).1 (second4 b0).2 b1 then
      match rest with
      | b2 :: _ => if contByte 0x80 0xBF b2 then 3 else 2
      | [] => 2
    else 1
  | _ => 1

/-- The text of some bytes, at most `fuel` characters of it. -/
def utf8DecodeAux : ℕ → GoString → GoString
  | 0, _ => []
  | _ + 1, [] => []
  | fuel + 1, b :: s =>
    let c := decodeRune (b :: s)
    if c = (runeError, 1) then
      encodeRune runeError ++ utf8DecodeAux fuel ((b :: s).drop (badWidth (b :: s)))
    else (b :: s).take c.2 ++ utf8DecodeAux fuel ((b :: s).drop c.2)

/-- The text of some bytes. What is not part of an encoding is replaced. -/
def utf8Decode (s : GoString) : GoString :=
  if validUTF8 s then s else utf8DecodeAux s.length s

theorem utf8Decode_of_valid {s : GoString} (h : validUTF8 s = true) : utf8Decode s = s := if_pos h

/-! ### Query strings -/

/-- A name or a value of a query string. -/
def formEncode (keep : UInt8 → Bool) (s : GoString) : GoString :=
  s.flatMap fun b => if b = 0x20 then [0x2B] else percentByte keep b

/-- Reading one. -/
def formDecode (s : GoString) : GoString :=
  utf8Decode (percentDecodeLax (s.map fun b => if b = 0x2B then 0x20 else b))

/-- A name with its value. -/
def formPair (keep : UInt8 → Bool) (pair : GoString × GoString) : GoString :=
  formEncode keep pair.1 ++ 0x3D :: formEncode keep pair.2

/-- A query string. -/
def formText (keep : UInt8 → Bool) (pairs : List (GoString × GoString)) : GoString :=
  [0x26].intercalate (pairs.map (formPair keep))

/-- What a query string says. -/
def formPairs (query : GoString) : List (GoString × GoString) :=
  ((query.splitOn 0x26).filter fun piece => piece ≠ []).map fun piece =>
    (formDecode (piece.takeWhile fun b => b ≠ 0x3D),
      formDecode ((piece.dropWhile fun b => b ≠ 0x3D).drop 1))

section

variable {keep : UInt8 → Bool}

/-- What a query string must not keep. -/
structure FormKeep (keep : UInt8 → Bool) : Prop where
  percent : keep 0x25 = false
  plus : keep 0x2B = false
  amp : keep 0x26 = false
  eq : keep 0x3D = false

theorem mem_formEncode {s : GoString} {c : UInt8} (h : c ∈ formEncode keep s) :
    c = 0x2B ∨ keep c = true ∨ c = 0x25 ∨ (0x30 ≤ c ∧ c ≤ 0x39 ∨ 0x41 ≤ c ∧ c ≤ 0x46) := by
  obtain ⟨b, hb, hc⟩ := List.mem_flatMap.mp h
  split_ifs at hc
  · exact .inl (List.mem_singleton.mp hc)
  · exact .inr (mem_percentEncode (List.mem_flatMap.mpr ⟨b, hb, hc⟩))

theorem FormKeep.formDecode_formEncode (hkeep : FormKeep keep) {s : GoString}
    (h : validUTF8 s = true) : formDecode (formEncode keep s) = s := by
  have hspace : (formEncode keep s).map (fun b => if b = 0x2B then 0x20 else b) =
      percentEncode (fun b => keep b || b = 0x20) s := by
    rw [formEncode, percentEncode, List.map_flatMap]
    refine List.flatMap_congr fun b _ => ?_
    by_cases hb : b = 0x20
    · subst hb
      rw [if_pos rfl, percentByte, if_pos (by simp)]
      rfl
    · have hsame : percentByte (fun b => keep b || b = 0x20) b = percentByte keep b := by
        simp [percentByte, hb]
      rw [if_neg hb, hsame]
      refine (List.map_congr_left fun c hc => if_neg ?_).trans (List.map_id _)
      rintro rfl
      have hmem : 0x2B ∈ percentEncode keep [b] := by simpa [percentEncode] using hc
      rcases mem_percentEncode hmem with h | h | ⟨h, -⟩ | ⟨h, -⟩
      · rw [hkeep.plus] at h
        cases h
      · cases h
      · exact absurd h (by decide)
      · exact absurd h (by decide)
  have hread := @percentDecode_percentEncode (fun b => keep b || b = 0x20)
    (by simp [hkeep.percent]) s
  rw [formDecode, hspace, percentDecodeLax_of_percentDecode hread, utf8Decode_of_valid h]

theorem FormKeep.notMem_formEncode (hkeep : FormKeep keep) (s : GoString) :
    0x3D ∉ formEncode keep s ∧ 0x26 ∉ formEncode keep s := by
  constructor
  · intro hc
    rcases mem_formEncode hc with h | h | h | ⟨-, h⟩ | ⟨h, -⟩
    · cases h
    · rw [hkeep.eq] at h
      cases h
    · cases h
    · exact absurd h (by decide)
    · exact absurd h (by decide)
  · intro hc
    rcases mem_formEncode hc with h | h | h | ⟨h, -⟩ | ⟨h, -⟩
    · cases h
    · rw [hkeep.amp] at h
      cases h
    · cases h
    · exact absurd h (by decide)
    · exact absurd h (by decide)

/-- **A query string is read as the list it was made of.** -/
theorem FormKeep.formPairs_formText (hkeep : FormKeep keep) {pairs : List (GoString × GoString)}
    (h : ∀ pair ∈ pairs, validUTF8 pair.1 = true ∧ validUTF8 pair.2 = true) :
    formPairs (formText keep pairs) = pairs := by
  cases pairs with
  | nil => rfl
  | cons pair pairs =>
    have hsplit : (formText keep (pair :: pairs)).splitOn 0x26 =
        (pair :: pairs).map (formPair keep) := by
      refine List.splitOn_intercalate 0x26 (fun piece hpiece => ?_) (by simp)
      obtain ⟨p, -, rfl⟩ := List.mem_map.mp hpiece
      intro hmem
      rcases List.mem_append.mp hmem with hmem | hmem
      · exact (hkeep.notMem_formEncode p.1).2 hmem
      · rcases List.mem_cons.mp hmem with heq | hmem
        · cases heq
        · exact (hkeep.notMem_formEncode p.2).2 hmem
    have hkept : ((pair :: pairs).map (formPair keep)).filter (fun piece => piece ≠ []) =
        (pair :: pairs).map (formPair keep) := by
      refine List.filter_eq_self.mpr fun piece hpiece => ?_
      obtain ⟨p, -, rfl⟩ := List.mem_map.mp hpiece
      simp [formPair]
    rw [formPairs, hsplit, hkept, List.map_map]
    refine (List.map_congr_left fun p hp => ?_).trans (List.map_id _)
    have hname : ∀ b ∈ formEncode keep p.1, (decide (b ≠ 0x3D)) = true := fun b hb => by
      refine decide_eq_true ?_
      rintro rfl
      exact (hkeep.notMem_formEncode p.1).1 hb
    rw [Function.comp_apply, formPair, List.takeWhile_append_of_pos hname,
      List.dropWhile_append_of_pos hname]
    obtain ⟨hvalid, hvalid'⟩ := h p hp
    have hfirst : formEncode keep p.1 ++ List.takeWhile (fun b => b ≠ 0x3D)
        (0x3D :: formEncode keep p.2) = formEncode keep p.1 := by simp
    have hsecond : (List.dropWhile (fun b => b ≠ 0x3D) (0x3D :: formEncode keep p.2)).drop 1 =
        formEncode keep p.2 := by simp
    rw [hfirst, hsecond, hkeep.formDecode_formEncode hvalid, hkeep.formDecode_formEncode hvalid']
    rfl

end

end Beardrive
