import Beardrive.Lib.SlashPath

/-!
# Paths and texts an op may carry

`safePath` is the rule for the path of an op, `safeText` the rule for every other string that is
rendered next to it. They share `safeRunes` and differ in two code points: a file name may hold
the zero width joiners that Persian and the Indic scripts require, a note may not.

## Main definitions

* `isCf` — the format characters, as the Unicode tables of the toolchain list them
* `safeRunes`, `safePath`, `safeText` — the rule and its two instances

## Main results

* `safePath_iff` — a safe path is one whose segments are plain and whose characters are safe
* `safeRunes_of_subset` — the rule is about the bytes and runes that occur, not where
-/

namespace Beardrive

/-- `unicode.Is (unicode.Cf, r)`. -/
def isCf (r : Rune) : Bool :=
  [(0xAD, 0xAD), (0x600, 0x605), (0x61C, 0x61C), (0x6DD, 0x6DD), (0x70F, 0x70F), (0x890, 0x891),
    (0x8E2, 0x8E2), (0x180E, 0x180E), (0x200B, 0x200F), (0x202A, 0x202E), (0x2060, 0x2064),
    (0x2066, 0x206F), (0xFEFF, 0xFEFF), (0xFFF9, 0xFFFB), (0x110BD, 0x110BD), (0x110CD, 0x110CD),
    (0x13430, 0x1343F), (0x1BCA0, 0x1BCA3), (0x1D173, 0x1D17A), (0xE0001, 0xE0001),
    (0xE0020, 0xE007F)].any fun range => range.1 ≤ r && r ≤ range.2

/-- A byte that is a control character wherever it stands. -/
def ctrlByte (b : UInt8) : Bool := b < 0x20 || b == 0x7F

/-- A rune that renders as nothing, or reorders what is around it. -/
def unsafeRune (allowJoiners : Bool) (r : Rune) : Bool :=
  if 0x80 ≤ r ∧ r ≤ 0x9F then true
  else if r = 0x200C ∨ r = 0x200D then !allowJoiners
  else if isCf r ∨ (0xE0000 ≤ r ∧ r ≤ 0xE01EF) then true
  else r = 0x2028 || r = 0x2029

/-- The character rule itself: `allowJoiners` carves out the zero width joiners for paths. -/
def safeRunes (s : GoString) (allowJoiners : Bool) : Bool :=
  s.all (fun b => !ctrlByte b) && (runes s).all fun r => !unsafeRune allowJoiners r

/-- Whether `p` is a path an op may name. -/
def safePath (p : GoString) : Bool :=
  if p = [] ∨ p = ascii "." ∨ p = ascii ".." ∨ hasPrefix p (ascii "../") ∨ isAbs p ∨ clean p ≠ p
  then false
  else safeRunes p true

/-- Whether `s` is free of the characters that make a rendered row lie about what it says. -/
def safeText (s : GoString) : Bool := safeRunes s false

theorem safeRunes_iff {s : GoString} {joiners : Bool} : safeRunes s joiners = true ↔
    (∀ b ∈ s, ctrlByte b = false) ∧ ∀ r ∈ runes s, unsafeRune joiners r = false := by
  simp [safeRunes]

/-- **A safe path is a sequence of plain segments in safe characters.** -/
theorem safePath_iff {p : GoString} :
    safePath p = true ↔ (∀ s ∈ segments p, Plain s) ∧ safeRunes p true = true := by
  rw [← clean_eq_self_iff, safePath]
  constructor
  · intro h
    split at h
    · simp at h
    · rename_i hn
      simp only [not_or, not_not, Bool.not_eq_true] at hn
      exact ⟨⟨hn.2.2.2.2.1, hn.2.2.2.2.2, hn.2.1, hn.2.2.1, hn.2.2.2.1⟩, h⟩
  · rintro ⟨⟨habs, hclean, hdot, hdots, hclimb⟩, hsafe⟩
    have hne : p ≠ [] := by
      rintro rfl
      exact absurd hclean (by decide)
    rw [if_neg, hsafe]
    simp [hne, hdot, hdots, hclimb, habs, hclean]

/-- A safe text is a safe path's text: the joiners are the only difference. -/
theorem safeRunes_of_safeText {s : GoString} (h : safeText s = true) (joiners : Bool) :
    safeRunes s joiners = true := by
  obtain ⟨hb, hr⟩ := safeRunes_iff.mp h
  refine safeRunes_iff.mpr ⟨hb, fun r hmem => ?_⟩
  have h := hr r hmem
  unfold unsafeRune at h ⊢
  split_ifs at h ⊢ <;> simp_all

/-- The rule is about the bytes and the runes that occur, not about where they do. -/
theorem safeRunes_of_subset {s t : GoString} {joiners : Bool} (h : safeRunes t joiners = true)
    (hbytes : ∀ b ∈ s, b ∈ t) (hrunes : ∀ r ∈ runes s, r ∈ runes t ∨ r = runeError) :
    safeRunes s joiners = true := by
  obtain ⟨hb, hr⟩ := safeRunes_iff.mp h
  refine safeRunes_iff.mpr ⟨fun b hb' => hb b (hbytes b hb'), fun r hr' => ?_⟩
  rcases hrunes r hr' with h | rfl
  · exact hr r h
  · cases joiners <;> decide

/-- Printable ASCII is safe. -/
theorem safeRunes_of_printable {s : GoString} (h : ∀ b ∈ s, 0x20 ≤ b ∧ b < 0x7F) (joiners : Bool) :
    safeRunes s joiners = true := by
  refine safeRunes_iff.mpr ⟨fun b hb => ?_, fun r hr => ?_⟩
  · obtain ⟨hlo, hhi⟩ := h b hb
    simp [ctrlByte, hlo.not_gt, hhi.ne]
  · rw [runes_of_ascii fun b hb => (h b hb).2.trans (by decide), List.mem_map] at hr
    obtain ⟨b, hb, rfl⟩ := hr
    have hall : ∀ n : Fin 127, unsafeRune joiners n = false := by cases joiners <;> decide
    exact hall ⟨b.toNat, UInt8.lt_iff_toNat_lt.mp (h b hb).2⟩

/-- Cutting a safe string short leaves it safe. -/
theorem safeRunes_take {s : GoString} {joiners : Bool} (h : safeRunes s joiners = true) (n : ℕ) :
    safeRunes (s.take n) joiners = true :=
  safeRunes_of_subset h (fun _ hb => List.mem_of_mem_take hb) fun _ => mem_runes_take n s

/-- Joining two strings at an ASCII byte that is no control character keeps them safe. -/
theorem safeRunes_append_ascii {s t : GoString} {c : UInt8} {joiners : Bool} (hc : c < 0x80) :
    safeRunes (s ++ c :: t) joiners = true ↔
      safeRunes s joiners = true ∧ safeRunes (c :: t) joiners = true := by
  simp only [safeRunes_iff, runes_append_ascii hc, List.mem_append]
  constructor
  · rintro ⟨hb, hr⟩
    exact ⟨⟨fun b h => hb b (.inl h), fun r h => hr r (.inl h)⟩,
      fun b h => hb b (.inr h), fun r h => hr r (.inr h)⟩
  · rintro ⟨⟨hb, hr⟩, hb', hr'⟩
    exact ⟨fun b h => h.elim (hb b) (hb' b), fun r h => h.elim (hr r) (hr' r)⟩

end Beardrive
