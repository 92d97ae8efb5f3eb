import Mathlib.Data.List.Lex
import Mathlib.Data.List.Infix
import Mathlib.Data.List.TakeWhile
import Mathlib.Order.Basic

/-!
# Strings as byte sequences

A Go string is a sequence of bytes, not of characters: it may hold anything, its comparison is
bytewise, and a `range` loop decodes it as UTF-8 while it goes, reading every byte that is not
part of an encoding as one `U+FFFD`. Nothing here refers to any particular program.

## Total decoding

`decodeRune` is total, as `utf8.DecodeRune` is: it answers the rune and its width, and an
undecodable byte is a rune of width one. Validity is therefore not a side condition of any
definition below but a property, `validUTF8`, of the strings that have it.

## Main definitions

* `GoString`, `ascii` — byte strings, and the literals of a source file
* `hasPrefix`, `hasSuffix`, `contains`, `trimSuffix` — the `strings` predicates
* `decodeRune`, `runes`, `validUTF8` — decoding as UTF-8

## Main results

* `runes_append_ascii` — decoding splits in front of every ASCII byte
* `mem_runes_take` — cutting a string short can only add `U+FFFD`
* `runes_take_take` — the first `m` runes are decided by the first `4 * m` bytes
-/

namespace Beardrive

instance instLinearOrderByte : LinearOrder UInt8 where
  le_refl := UInt8.le_refl
  le_trans _ _ _ := UInt8.le_trans
  le_antisymm _ _ := UInt8.le_antisymm
  le_total := UInt8.le_total
  toDecidableLE := inferInstance
  toDecidableLT := inferInstance
  lt_iff_le_not_ge a b := by
    rw [UInt8.le_iff_toNat_le, UInt8.le_iff_toNat_le, UInt8.lt_iff_toNat_lt]; omega

/-- A Go string: any sequence of bytes. -/
abbrev GoString := List UInt8

instance instLawfulBEqGoString : LawfulBEq GoString := inferInstance

/-- The bytes of a string literal whose characters are all ASCII. -/
def ascii (s : String) : GoString := s.toList.map fun c => UInt8.ofNat c.toNat

/-- The characters of a literal without its encoding, which is slow to evaluate. -/
theorem ascii_ofList (l : List Char) :
    ascii (String.ofList l) = l.map fun c => UInt8.ofNat c.toNat := by
  rw [ascii, String.toList_ofList]

/-! ### Prefixes, suffixes and infixes -/

/-- `strings.HasPrefix`. -/
def hasPrefix (s pre : GoString) : Bool := pre.isPrefixOf s

/-- `strings.HasSuffix`. -/
def hasSuffix (s suf : GoString) : Bool := suf.isSuffixOf s

/-- `strings.Contains`. -/
def contains (s sub : GoString) : Bool := decide (sub <:+: s)

/-- `strings.TrimSuffix`. -/
def trimSuffix (s suf : GoString) : GoString :=
  if hasSuffix s suf then s.take (s.length - suf.length) else s

/-- `strings.TrimPrefix`. -/
def trimPrefix (s pre : GoString) : GoString := if hasPrefix s pre then s.drop pre.length else s

@[simp] theorem hasPrefix_iff {s pre : GoString} : hasPrefix s pre = true ↔ pre <+: s :=
  List.isPrefixOf_iff_prefix

@[simp] theorem hasPrefix_eq_false_iff {s pre : GoString} :
    hasPrefix s pre = false ↔ ¬ pre <+: s := by
  rw [← hasPrefix_iff, Bool.not_eq_true]

@[simp] theorem hasSuffix_iff {s suf : GoString} : hasSuffix s suf = true ↔ suf <:+ s :=
  List.isSuffixOf_iff_suffix

@[simp] theorem contains_iff {s sub : GoString} : contains s sub = true ↔ sub <:+: s := by
  simp [contains]

theorem trimSuffix_append (s suf : GoString) : trimSuffix (s ++ suf) suf = s := by
  simp [trimSuffix]

/-! ### Decoding UTF-8 -/

/-- A Unicode code point, as Go's `rune`. -/
abbrev Rune := Nat

/-- `utf8.RuneError`, which stands for a byte that decodes to nothing. -/
def runeError : Rune := 0xFFFD

/-- A continuation byte between two bounds. -/
def contByte (lo hi b : UInt8) : Bool := lo ≤ b && b ≤ hi

/-- The range the second byte of a three byte encoding must be in, given its first. -/
def second3 (b0 : UInt8) : UInt8 × UInt8 :=
  if b0 = 0xE0 then (0xA0, 0xBF) else if b0 = 0xED then (0x80, 0x9F) else (0x80, 0xBF)

/-- The range the second byte of a four byte encoding must be in, given its first. -/
def second4 (b0 : UInt8) : UInt8 × UInt8 :=
  if b0 = 0xF0 then (0x90, 0xBF) else if b0 = 0xF4 then (0x80, 0x8F) else (0x80, 0xBF)

/-- `utf8.DecodeRuneInString`: the first rune and its width in bytes. -/
def decodeRune : GoString → Rune × Nat
  | [] => (runeError, 0)
  | b0 :: s =>
    if b0 < 0x80 then (b0.toNat, 1)
    else if 0xC2 ≤ b0 ∧ b0 ≤ 0xDF then
      match s with
      | b1 :: _ =>
        if contByte 0x80 0xBF b1 then (b0.toNat % 32 * 64 + b1.toNat % 64, 2) else (runeError, 1)
      | [] => (runeError, 1)
    else if 0xE0 ≤ b0 ∧ b0 ≤ 0xEF then
      match s with
      | b1 :: b2 :: _ =>
        if contByte (second3 b0).1 (second3 b0).2 b1 ∧ contByte 0x80 0xBF b2 then
          ((b0.toNat % 16 * 64 + b1.toNat % 64) * 64 + b2.toNat % 64, 3)
        else (runeError, 1)
      | _ => (runeError, 1)
    else if 0xF0 ≤ b0 ∧ b0 ≤ 0xF4 then
      match s with
      | b1 :: b2 :: b3 :: _ =>
        if contByte (second4 b0).1 (second4 b0).2 b1 ∧ contByte 0x80 0xBF b2 ∧
            contByte 0x80 0xBF b3 then
          (((b0.toNat % 8 * 64 + b1.toNat % 64) * 64 + b2.toNat % 64) * 64 + b3.toNat % 64, 4)
        else (runeError, 1)
      | _ => (runeError, 1)
    else (runeError, 1)

/-- The decoding steps over a string, at most `fuel` of them: each rune beside its own bytes. -/
def decodeAux : ℕ → GoString → List (Rune × GoString)
  | 0, _ => []
  | _ + 1, [] => []
  | fuel + 1, b :: s =>
    ((decodeRune (b :: s)).1, (b :: s).take (decodeRune (b :: s)).2)
      :: decodeAux fuel ((b :: s).drop (decodeRune (b :: s)).2)

/-- A string as a `range` loop reads it: each rune beside the bytes it stands for. -/
def decodeAll (s : GoString) : List (Rune × GoString) := decodeAux s.length s

/-- The runes a `range` loop over `s` visits. -/
def runes (s : GoString) : List Rune := (decodeAll s).map Prod.fst

/-- `utf8.ValidString`: no byte decodes to `U+FFFD` of width one. -/
def validUTF8 (s : GoString) : Bool :=
  (decodeAll s).all fun c => !(c.1 == runeError && c.2.length == 1)

/-- `unicode.IsSpace`. -/
def isSpace (r : Rune) : Bool :=
  (9 ≤ r && r ≤ 13) || r == 0x20 || r == 0x85 || r == 0xA0 || r == 0x1680 ||
    (0x2000 ≤ r && r ≤ 0x200A) || r == 0x2028 || r == 0x2029 || r == 0x202F || r == 0x205F ||
    r == 0x3000

/-- The ASCII letter a rune folds onto, or the rune itself. Two letters besides the ASCII ones fold
onto one. -/
def foldRune (r : Rune) : Rune :=
  if 0x41 ≤ r ∧ r ≤ 0x5A then r + 0x20
  else if r = 0x17F then 0x73
  else if r = 0x212A then 0x6B
  else r

/-- `strings.EqualFold (s, name)` for an ASCII `name`. -/
def equalFold (s name : GoString) : Bool := (runes s).map foldRune == (runes name).map foldRune

/-- `bytes.TrimSpace`: the white space runes at both ends are dropped. -/
def trimSpace (s : GoString) : GoString :=
  ((((decodeAll s).dropWhile fun c => isSpace c.1).reverse.dropWhile
    fun c => isSpace c.1).reverse.map Prod.snd).flatten

/-- What is left of a string without the white space it starts with. -/
def trimLeft (s : GoString) : GoString :=
  (((decodeAll s).dropWhile fun c => isSpace c.1).map Prod.snd).flatten

/-- What is left of a string without the white space it ends with. -/
def trimRight (s : GoString) : GoString :=
  (((decodeAll s).reverse.dropWhile fun c => isSpace c.1).reverse.map Prod.snd).flatten

/-- Whether the last rune of a string is white space. -/
def endsInSpace (s : GoString) : Bool := (decodeAll s).getLast?.any fun c => isSpace c.1

/-- What stands in front of the first separator. -/
theorem takeWhile_ne_append {c : UInt8} {s : GoString} (h : c ∉ s) (t : GoString) :
    (s ++ c :: t).takeWhile (· ≠ c) = s := by
  have hall : ∀ b ∈ s, decide (b ≠ c) = true := fun b hb =>
    decide_eq_true fun heq => h (heq ▸ hb)
  rw [List.takeWhile_append_of_pos hall, List.takeWhile_cons_of_neg (by simp), List.append_nil]

/-- What stands behind the first separator, and the separator. -/
theorem dropWhile_ne_append {c : UInt8} {s : GoString} (h : c ∉ s) (t : GoString) :
    (s ++ c :: t).dropWhile (· ≠ c) = c :: t := by
  have hall : ∀ b ∈ s, decide (b ≠ c) = true := fun b hb =>
    decide_eq_true fun heq => h (heq ▸ hb)
  rw [List.dropWhile_append_of_pos hall, List.dropWhile_cons_of_neg (by simp)]

/-- A text is parted one way at its first separator. -/
theorem append_cons_inj_of_notMem_left {c : UInt8} {s s' t t' : GoString} (hs : c ∉ s)
    (hs' : c ∉ s') (h : s ++ c :: t = s' ++ c :: t') : s = s' ∧ t = t' := by
  have htake := congrArg (List.takeWhile fun b => decide (b ≠ c)) h
  have hdrop := congrArg (List.dropWhile fun b => decide (b ≠ c)) h
  rw [takeWhile_ne_append hs, takeWhile_ne_append hs'] at htake
  rw [dropWhile_ne_append hs, dropWhile_ne_append hs'] at hdrop
  exact ⟨htake, (List.cons.inj hdrop).2⟩

/-- A text is parted one way at its last separator. -/
theorem append_cons_inj_of_notMem_right {s s' t t' : GoString} {c : UInt8} (ht : c ∉ t)
    (ht' : c ∉ t') (h : s ++ c :: t = s' ++ c :: t') : s = s' ∧ t = t' := by
  rcases List.append_eq_append_iff.mp h with ⟨m, hs, hm⟩ | ⟨m, hs, hm⟩
  · cases m with
    | nil => exact ⟨by simpa using hs.symm, (List.cons.inj hm).2⟩
    | cons b m =>
      have hmem : c ∈ t := by
        rw [(List.cons.inj hm).2]
        simp
      exact absurd hmem ht
  · cases m with
    | nil => exact ⟨by simpa using hs, (List.cons.inj hm).2.symm⟩
    | cons b m =>
      have hmem : c ∈ t' := by
        rw [(List.cons.inj hm).2]
        simp
      exact absurd hmem ht'

/-- There is one part more than separators. -/
theorem length_splitOn (c : UInt8) (s : GoString) : (s.splitOn c).length = s.count c + 1 := by
  induction s with
  | nil => rfl
  | cons b s ih =>
    rw [List.splitOn_cons_eq_if_modifyHead, List.count_cons]
    split
    · rw [List.length_cons, ih]
    · rw [List.length_modifyHead, ih, Nat.add_zero]

/-- What stands between two separators does not hold one. -/
theorem notMem_of_mem_splitOn {c : UInt8} {s seg : GoString} (h : seg ∈ s.splitOn c) : c ∉ seg := by
  induction hn : s.length using Nat.strong_induction_on generalizing s with
  | _ n ih =>
    by_cases hs : c ∈ s
    · obtain ⟨a, b, rfl⟩ := List.append_of_mem hs
      rw [List.splitOn_append_cons_self, List.mem_append] at h
      simp only [List.length_append, List.length_cons] at hn
      rcases h with h | h
      · exact ih _ (by omega) h rfl
      · exact ih _ (by omega) h rfl
    · rw [List.splitOn_eq_singleton hs, List.mem_singleton] at h
      exact h ▸ hs

/-! ### What one decoding step reads -/

theorem decodeRune_ascii {b : UInt8} (h : b < 0x80) (s : GoString) :
    decodeRune (b :: s) = (b.toNat, 1) := by
  simp [decodeRune, h]

theorem second3_bounds (b : UInt8) : 0x80 ≤ (second3 b).1 ∧ (second3 b).2 ≤ 0xBF := by
  rw [second3]
  split_ifs <;> decide

theorem second4_bounds (b : UInt8) : 0x80 ≤ (second4 b).1 ∧ (second4 b).2 ≤ 0xBF := by
  rw [second4]
  split_ifs <;> decide

/-- A continuation byte is one between any bounds. -/
theorem cont_of_contByte {p : UInt8 × UInt8} {c : UInt8} (hp : 0x80 ≤ p.1 ∧ p.2 ≤ 0xBF)
    (h : contByte p.1 p.2 c = true) : 0x80 ≤ c ∧ c ≤ 0xBF := by
  rw [contByte, Bool.and_eq_true, decide_eq_true_eq, decide_eq_true_eq] at h
  exact ⟨hp.1.trans h.1, h.2.trans hp.2⟩

/-- **What one step reads**: a byte it cannot read, an ASCII byte, or a byte with the continuation
bytes behind it, whatever follows them. -/
theorem decodeRune_cases (b : UInt8) (s : GoString) :
    (0x80 ≤ b ∧ decodeRune (b :: s) = (runeError, 1)) ∨
      (b < 0x80 ∧ decodeRune (b :: s) = (b.toNat, 1)) ∨
        ∃ r cs t, s = cs ++ t ∧ cs ≠ [] ∧ cs.length ≤ 3 ∧ (∀ c ∈ cs, 0x80 ≤ c ∧ c ≤ 0xBF) ∧
          ∀ t', decodeRune (b :: (cs ++ t')) = (r, cs.length + 1) := by
  have cont {c : UInt8} (h : contByte 0x80 0xBF c = true) : 0x80 ≤ c ∧ c ≤ 0xBF :=
    cont_of_contByte (p := (0x80, 0xBF)) ⟨le_rfl, le_rfl⟩ h
  by_cases h1 : b < 0x80
  · exact .inr (.inl ⟨h1, decodeRune_ascii h1 s⟩)
  by_cases h2 : 0xC2 ≤ b ∧ b ≤ 0xDF
  · rcases s with _ | ⟨b1, s⟩
    · exact .inl ⟨not_lt.mp h1, by simp only [decodeRune, if_neg h1, if_pos h2]⟩
    by_cases hc : contByte 0x80 0xBF b1 = true
    · refine .inr (.inr ⟨b.toNat % 32 * 64 + b1.toNat % 64, [b1], s, rfl, nofun, by simp, ?_,
        fun t' => ?_⟩)
      · exact List.forall_mem_singleton.mpr (cont hc)
      · simp only [decodeRune, List.cons_append, if_neg h1, if_pos h2, if_pos hc]
        rfl
    · exact .inl ⟨not_lt.mp h1, by simp only [decodeRune, if_neg h1, if_pos h2, if_neg hc]⟩
  by_cases h3 : 0xE0 ≤ b ∧ b ≤ 0xEF
  · rcases s with _ | ⟨b1, _ | ⟨b2, s⟩⟩
    · exact .inl ⟨not_lt.mp h1, by simp only [decodeRune, if_neg h1, if_neg h2, if_pos h3]⟩
    · exact .inl ⟨not_lt.mp h1, by simp only [decodeRune, if_neg h1, if_neg h2, if_pos h3]⟩
    by_cases hc : contByte (second3 b).1 (second3 b).2 b1 = true ∧ contByte 0x80 0xBF b2 = true
    · refine .inr (.inr ⟨(b.toNat % 16 * 64 + b1.toNat % 64) * 64 + b2.toNat % 64, [b1, b2], s, rfl,
        nofun, by simp, ?_, fun t' => ?_⟩)
      · exact List.forall_mem_cons.mpr ⟨cont_of_contByte (second3_bounds b) hc.1,
          List.forall_mem_singleton.mpr (cont hc.2)⟩
      · simp only [decodeRune, List.cons_append, if_neg h1, if_neg h2, if_pos h3, if_pos hc]
        rfl
    · exact .inl ⟨not_lt.mp h1, by
        simp only [decodeRune, if_neg h1, if_neg h2, if_pos h3, if_neg hc]⟩
  by_cases h4 : 0xF0 ≤ b ∧ b ≤ 0xF4
  · rcases s with _ | ⟨b1, _ | ⟨b2, _ | ⟨b3, s⟩⟩⟩
    · exact .inl ⟨not_lt.mp h1, by
        simp only [decodeRune, if_neg h1, if_neg h2, if_neg h3, if_pos h4]⟩
    · exact .inl ⟨not_lt.mp h1, by
        simp only [decodeRune, if_neg h1, if_neg h2, if_neg h3, if_pos h4]⟩
    · exact .inl ⟨not_lt.mp h1, by
        simp only [decodeRune, if_neg h1, if_neg h2, if_neg h3, if_pos h4]⟩
    by_cases hc : contByte (second4 b).1 (second4 b).2 b1 = true ∧ contByte 0x80 0xBF b2 = true ∧
        contByte 0x80 0xBF b3 = true
    · refine .inr (.inr ⟨((b.toNat % 8 * 64 + b1.toNat % 64) * 64 + b2.toNat % 64) * 64 +
        b3.toNat % 64, [b1, b2, b3], s, rfl, nofun, by simp, ?_, fun t' => ?_⟩)
      · exact List.forall_mem_cons.mpr ⟨cont_of_contByte (second4_bounds b) hc.1,
          List.forall_mem_cons.mpr ⟨cont hc.2.1, List.forall_mem_singleton.mpr (cont hc.2.2)⟩⟩
      · simp only [decodeRune, List.cons_append, if_neg h1, if_neg h2, if_neg h3, if_pos h4,
          if_pos hc]
        rfl
    · exact .inl ⟨not_lt.mp h1, by
        simp only [decodeRune, if_neg h1, if_neg h2, if_neg h3, if_pos h4, if_neg hc]⟩
  · exact .inl ⟨not_lt.mp h1, by
      simp only [decodeRune, if_neg h1, if_neg h2, if_neg h3, if_neg h4]⟩

/-- A byte that cannot be read is told from all that can. -/
theorem decodeRune_ne_error {b : UInt8} {s : GoString} (h : b < 0x80 ∨ ∃ r cs t,
    cs ≠ [] ∧ s = cs ++ t ∧ ∀ t', decodeRune (b :: (cs ++ t')) = (r, cs.length + 1)) :
    decodeRune (b :: s) ≠ (runeError, 1) := by
  intro herr
  rcases h with hb | ⟨r, cs, t, hcs, rfl, hread⟩
  · rw [decodeRune_ascii hb] at herr
    have hsmall : b.toNat < 0x80 := hb
    have hlarge : b.toNat = runeError := (Prod.mk.inj herr).1
    rw [runeError] at hlarge
    omega
  · rw [hread] at herr
    have hlength : cs.length + 1 = 1 := (Prod.mk.inj herr).2
    exact hcs (List.eq_nil_of_length_eq_zero (by omega))

theorem decodeRune_width_pos (b : UInt8) (s : GoString) : 0 < (decodeRune (b :: s)).2 := by
  rcases decodeRune_cases b s with ⟨-, h⟩ | ⟨-, h⟩ | ⟨r, cs, t, rfl, -, -, -, h⟩ <;> rw [h]
  · exact Nat.one_pos
  · exact Nat.one_pos
  · exact Nat.succ_pos _

theorem decodeRune_width_le (s : GoString) : (decodeRune s).2 ≤ s.length := by
  rcases s with _ | ⟨b, s⟩
  · exact le_rfl
  · rw [List.length_cons]
    rcases decodeRune_cases b s with ⟨-, h⟩ | ⟨-, h⟩ | ⟨r, cs, t, rfl, -, -, -, h⟩ <;> rw [h]
    · exact Nat.succ_pos _
    · exact Nat.succ_pos _
    · rw [List.length_append]
      exact Nat.succ_le_succ (Nat.le_add_right _ _)

/-- Cutting a string short leaves its first rune as it is, or makes it undecodable. -/
theorem decodeRune_take_cases {n : ℕ} (hn : 0 < n) (b : UInt8) (s : GoString) :
    decodeRune ((b :: s).take n) = decodeRune (b :: s) ∨
      decodeRune ((b :: s).take n) = (runeError, 1) := by
  obtain ⟨m, rfl⟩ := Nat.exists_eq_succ_of_ne_zero hn.ne'
  rw [List.take_succ_cons]
  rcases decodeRune_cases b (s.take m) with ⟨-, h⟩ | ⟨hb, h⟩ | ⟨r, cs, t, hs, -, -, -, h⟩
  · exact .inr h
  · exact .inl (h.trans (decodeRune_ascii hb s).symm)
  · have hwhole : s = cs ++ (t ++ s.drop m) := by
      rw [← List.append_assoc, ← hs, List.take_append_drop]
    rw [hs, h, hwhole, h]
    exact .inl rfl

/-- A step reads no further than its own rune. -/
theorem decodeRune_take_of_width {n : ℕ} {b : UInt8} {s : GoString}
    (h : (decodeRune (b :: s)).2 ≤ n) : decodeRune ((b :: s).take n) = decodeRune (b :: s) := by
  have hn := (decodeRune_width_pos b s).trans_le h
  rcases decodeRune_take_cases hn b s with heq | herr
  · exact heq
  obtain ⟨m, rfl⟩ := Nat.exists_eq_succ_of_ne_zero hn.ne'
  rw [List.take_succ_cons] at herr ⊢
  rcases decodeRune_cases b s with ⟨-, hs⟩ | ⟨hb, -⟩ | ⟨r, cs, t, rfl, hcs, -, -, hs⟩
  · rw [herr, hs]
  · exact absurd herr (decodeRune_ne_error (.inl hb))
  · rw [hs] at h
    have hle : cs.length ≤ m := Nat.le_of_succ_le_succ h
    refine absurd herr (decodeRune_ne_error (.inr ⟨r, cs, t.take (m - cs.length), hcs, ?_, hs⟩))
    rw [List.take_append, List.take_of_length_le hle]

/-- A step reads at most four bytes. -/
theorem decodeRune_width_le_four (s : GoString) : (decodeRune s).2 ≤ 4 := by
  rcases s with _ | ⟨b, s⟩
  · exact Nat.zero_le _
  · rcases decodeRune_cases b s with ⟨-, h⟩ | ⟨-, h⟩ | ⟨r, cs, t, rfl, -, hlength, -, h⟩ <;> rw [h]
    · exact Nat.le_of_ble_eq_true rfl
    · exact Nat.le_of_ble_eq_true rfl
    · exact Nat.succ_le_succ hlength

theorem decodeRune_take {n : ℕ} (h : 4 ≤ n) (s : GoString) :
    decodeRune (s.take n) = decodeRune s := by
  rcases s with _ | ⟨b, s⟩
  · rw [List.take_nil]
  · exact decodeRune_take_of_width ((decodeRune_width_le_four _).trans h)

/-- Behind the first byte of an encoding stand continuation bytes only. -/
theorem cont_of_decodeRune {b : UInt8} {s : GoString} (h : decodeRune (b :: s) ≠ (runeError, 1)) :
    ∀ c ∈ s.take ((decodeRune (b :: s)).2 - 1), 0x80 ≤ c ∧ c ≤ 0xBF := by
  rcases decodeRune_cases b s with ⟨-, hs⟩ | ⟨-, hs⟩ | ⟨r, cs, t, rfl, -, -, hcont, hs⟩
  · exact absurd hs h
  · rw [hs]
    intro c hc
    cases hc
  · rw [hs, Nat.add_sub_cancel, List.take_left]
    exact hcont

/-- An ASCII byte is never in the middle of an encoding, so what stands in front of it decodes
as it does on its own. -/
theorem decodeRune_append_ascii {c : UInt8} (hc : c < 0x80) (b : UInt8) (s t : GoString) :
    decodeRune (b :: s ++ c :: t) = decodeRune (b :: s) := by
  rcases decodeRune_cases b (s ++ c :: t) with ⟨hb, h⟩ | ⟨hb, h⟩ | ⟨r, cs, t', hs, -, -, hcont, h⟩
  · rcases decodeRune_cases b s with ⟨-, h'⟩ | ⟨hb', -⟩ | ⟨r, cs, t', rfl, hcs, -, -, h'⟩
    · exact h.trans h'.symm
    · exact absurd hb' (not_lt.mpr hb)
    · rw [List.append_assoc] at h
      exact absurd h (decodeRune_ne_error (.inr ⟨r, cs, _, hcs, rfl, h'⟩))
  · exact h.trans (decodeRune_ascii hb s).symm
  · have hle : cs.length ≤ s.length := by
      by_contra hlt
      have hin : c ∈ cs := by
        obtain ⟨u, hu⟩ := List.prefix_of_prefix_length_le ⟨c :: t, rfl⟩ ⟨t', hs.symm⟩
          (Nat.le_of_lt (not_le.mp hlt))
        rw [← hu, List.append_assoc, List.append_cancel_left_eq] at hs
        rcases u with _ | ⟨d, u⟩
        · rw [List.append_nil] at hu
          exact absurd (le_of_eq (congrArg List.length hu.symm)) hlt
        · obtain ⟨rfl, -⟩ := List.cons.inj hs
          rw [← hu]
          exact List.mem_append_right _ List.mem_cons_self
      exact absurd hc (not_lt.mpr (hcont c hin).1)
    obtain ⟨u, rfl⟩ := List.prefix_of_prefix_length_le ⟨t', hs.symm⟩ ⟨c :: t, rfl⟩ hle
    show decodeRune (b :: (cs ++ u ++ c :: t)) = _
    rw [h, List.append_assoc, h]

/-! ### The runes of a string -/

@[simp] theorem decodeAll_nil : decodeAll [] = [] := rfl

@[simp] theorem runes_nil : runes [] = [] := rfl

private theorem decodeAux_eq_of_le : ∀ {n m : ℕ} {s : GoString}, s.length ≤ n → s.length ≤ m →
    decodeAux n s = decodeAux m s := by
  intro n
  induction n with
  | zero =>
    intro m s hn _
    obtain rfl := List.length_eq_zero_iff.mp (Nat.le_zero.mp hn)
    cases m <;> rfl
  | succ n ih =>
    intro m s hn hm
    cases s with
    | nil => cases m <;> rfl
    | cons b s =>
      cases m with
      | zero => simp at hm
      | succ m =>
        have hw := decodeRune_width_pos b s
        have hlen : ((b :: s).drop (decodeRune (b :: s)).2).length ≤ s.length := by
          simp only [List.length_drop, List.length_cons]; omega
        simp only [List.length_cons] at hn hm
        exact congrArg _ (ih (by omega) (by omega))

/-- The unfolding of a `range` loop, without the fuel. -/
theorem decodeAll_cons (b : UInt8) (s : GoString) :
    decodeAll (b :: s) = ((decodeRune (b :: s)).1, (b :: s).take (decodeRune (b :: s)).2)
      :: decodeAll ((b :: s).drop (decodeRune (b :: s)).2) := by
  have hw := decodeRune_width_pos b s
  refine congrArg _ (decodeAux_eq_of_le ?_ le_rfl)
  simp only [List.length_drop, List.length_cons]; omega

theorem runes_cons (b : UInt8) (s : GoString) :
    runes (b :: s) = (decodeRune (b :: s)).1 :: runes ((b :: s).drop (decodeRune (b :: s)).2) := by
  rw [runes, decodeAll_cons, List.map_cons]; rfl

theorem decodeAll_cons_ascii {b : UInt8} (h : b < 0x80) (s : GoString) :
    decodeAll (b :: s) = (b.toNat, [b]) :: decodeAll s := by
  rw [decodeAll_cons, decodeRune_ascii h]
  rfl

theorem runes_cons_ascii {b : UInt8} (h : b < 0x80) (s : GoString) :
    runes (b :: s) = b.toNat :: runes s := by
  rw [runes, decodeAll_cons_ascii h, List.map_cons]; rfl

theorem validUTF8_of_ascii {s : GoString} (h : ∀ b ∈ s, b < 0x80) : validUTF8 s = true := by
  induction s with
  | nil => rfl
  | cons b s ih =>
    have hb := h b List.mem_cons_self
    rw [validUTF8, decodeAll_cons_ascii hb, List.all_cons, Bool.and_eq_true]
    refine ⟨?_, ih fun c hc => h c (List.mem_cons_of_mem _ hc)⟩
    have hlt : b.toNat < 0x80 := UInt8.lt_iff_toNat_lt.mp hb
    have hne : b.toNat ≠ runeError := by
      unfold runeError
      omega
    simp [hne]

/-- The runes of a string of ASCII bytes are its bytes. -/
theorem runes_of_ascii {s : GoString} (h : ∀ b ∈ s, b < 0x80) : runes s = s.map UInt8.toNat := by
  induction s with
  | nil => rfl
  | cons b s ih =>
    rw [runes_cons_ascii (h b List.mem_cons_self), ih fun c hc => h c (List.mem_cons_of_mem _ hc)]
    rfl

/-- The bytes of the runes are the bytes of the string. -/
theorem flatten_decodeAll (s : GoString) : ((decodeAll s).map Prod.snd).flatten = s := by
  induction hn : s.length using Nat.strong_induction_on generalizing s with
  | _ n ih =>
    cases s with
    | nil => rfl
    | cons b s =>
      have hw := decodeRune_width_pos b s
      rw [decodeAll_cons, List.map_cons, List.flatten_cons,
        ih _ (by simp only [List.length_cons, List.length_drop] at *; omega) _ rfl,
        List.take_append_drop]

/-- **Decoding splits in front of an ASCII byte.** -/
theorem decodeAll_append_ascii {c : UInt8} (hc : c < 0x80) (s t : GoString) :
    decodeAll (s ++ c :: t) = decodeAll s ++ decodeAll (c :: t) := by
  induction hn : s.length using Nat.strong_induction_on generalizing s with
  | _ n ih =>
    cases s with
    | nil => rfl
    | cons b s =>
      have hw := decodeRune_width_pos b s
      have hle := decodeRune_width_le (b :: s)
      have htake : (b :: s ++ c :: t).take (decodeRune (b :: s)).2
          = (b :: s).take (decodeRune (b :: s)).2 := List.take_append_of_le_length hle
      have hdrop : (b :: s ++ c :: t).drop (decodeRune (b :: s)).2
          = (b :: s).drop (decodeRune (b :: s)).2 ++ c :: t := List.drop_append_of_le_length hle
      rw [List.cons_append, decodeAll_cons, ← List.cons_append, decodeRune_append_ascii hc, htake,
        hdrop, ih _ (by simp only [List.length_cons, List.length_drop] at *; omega) _ rfl,
        decodeAll_cons b s]
      rfl

theorem runes_append_ascii {c : UInt8} (hc : c < 0x80) (s t : GoString) :
    runes (s ++ c :: t) = runes s ++ runes (c :: t) := by
  simp only [runes, decodeAll_append_ascii hc, List.map_append]

/-- A continuation byte starts no encoding. -/
theorem decodeRune_cont {c : UInt8} (hlo : 0x80 ≤ c) (hhi : c ≤ 0xBF) (s : GoString) :
    decodeRune (c :: s) = (runeError, 1) := by
  have no (lo : UInt8) (hlo : 0xBF < lo) : ¬ lo ≤ c := (hhi.trans_lt hlo).not_ge
  simp [decodeRune, hlo.not_gt, no 0xC2 (by decide), no 0xE0 (by decide), no 0xF0 (by decide)]

theorem runes_of_cont {s : GoString} (h : ∀ c ∈ s, 0x80 ≤ c ∧ c ≤ 0xBF) :
    ∀ r ∈ runes s, r = runeError := by
  induction s with
  | nil => simp
  | cons c s ih =>
    obtain ⟨hlo, hhi⟩ := h c List.mem_cons_self
    rw [runes_cons, decodeRune_cont hlo hhi]
    rintro r (_ | ⟨_, hr⟩)
    · rfl
    · exact ih (fun d hd => h d (List.mem_cons_of_mem _ hd)) r hr

/-- A string cut short reads as it did, up to the cut, and then as undecodable bytes. -/
theorem runes_take (n : ℕ) (s : GoString) :
    ∃ k, ∃ errs : List Rune, runes (s.take n) = (runes s).take k ++ errs ∧
      ∀ r ∈ errs, r = runeError := by
  induction hl : s.length using Nat.strong_induction_on generalizing s n with
  | _ l ih =>
    rcases s with _ | ⟨b, s⟩
    · exact ⟨0, [], by simp, by simp⟩
    rcases n with _ | n
    · exact ⟨0, [], by simp, by simp⟩
    have hdrop (k : ℕ) : ((b :: s).take (n + 1)).drop k = ((b :: s).drop k).take (n + 1 - k) :=
      List.drop_take ..
    have hw := decodeRune_width_pos b s
    rw [List.take_succ_cons, runes_cons, ← List.take_succ_cons, hdrop]
    by_cases he : decodeRune ((b :: s).take (n + 1)) = decodeRune (b :: s)
    · obtain ⟨k, errs, hk, herrs⟩ := ih _ (by
        simp only [List.length_cons, List.length_drop] at *; omega)
          (n + 1 - (decodeRune (b :: s)).2) ((b :: s).drop (decodeRune (b :: s)).2) rfl
      refine ⟨k + 1, errs, ?_, herrs⟩
      rw [he, hk, runes_cons, List.take_succ_cons, List.cons_append]
    · have herr := (decodeRune_take_cases n.succ_pos b s).resolve_left he
      have hne : decodeRune (b :: s) ≠ (runeError, 1) := fun h' => he (herr.trans h'.symm)
      refine ⟨0, _, (List.nil_append _).symm, ?_⟩
      rw [herr]
      intro r hr
      rcases List.mem_cons.mp hr with hr | hr
      · exact hr
      · refine runes_of_cont (fun c hc => cont_of_decodeRune hne c ?_) r hr
        have hlt : n + 1 < (decodeRune (b :: s)).2 := by
          by_contra hge
          exact he (decodeRune_take_of_width (not_lt.mp hge))
        simp only [List.drop_succ_cons, List.drop_zero, Nat.add_sub_cancel] at hc
        exact (List.take_subset_take_left _ (by omega)) hc

/-- Every rune of a string cut short is one of its own, or `U+FFFD`. -/
theorem mem_runes_take {r : Rune} (n : ℕ) (s : GoString) (h : r ∈ runes (s.take n)) :
    r ∈ runes s ∨ r = runeError := by
  obtain ⟨k, errs, heq, herrs⟩ := runes_take n s
  rw [heq] at h
  exact (List.mem_append.mp h).imp List.mem_of_mem_take (herrs r)

/-- The first `m` runes of a string are decided by its first `4 * m` bytes. -/
theorem runes_take_take {m n : ℕ} (h : 4 * m ≤ n) (s : GoString) :
    (runes (s.take n)).take m = (runes s).take m := by
  induction m generalizing n s with
  | zero => simp
  | succ m ih =>
    rcases s with _ | ⟨b, s⟩
    · simp
    obtain ⟨k, rfl⟩ : ∃ k, n = k + 1 := ⟨n - 1, by omega⟩
    have hdrop (j : ℕ) : ((b :: s).take (k + 1)).drop j = ((b :: s).drop j).take (k + 1 - j) :=
      List.drop_take ..
    have h4 := decodeRune_width_le_four (b :: s)
    rw [List.take_succ_cons, runes_cons, ← List.take_succ_cons, decodeRune_take (by omega), hdrop,
      runes_cons b s, List.take_succ_cons, List.take_succ_cons, ih (by omega)]

theorem ofNat_eq {n : ℕ} {a : UInt8} (h : n = a.toNat) : UInt8.ofNat n = a := by
  rw [h, UInt8.ofNat_toNat]

/-- `utf8.EncodeRune`; a code point that has no encoding is written as `U+FFFD`. -/
def encodeRune (r : Rune) : GoString :=
  if r < 0x80 then [UInt8.ofNat r]
  else if r < 0x800 then [UInt8.ofNat (0xC0 + r / 64), UInt8.ofNat (0x80 + r % 64)]
  else if (0xD800 ≤ r ∧ r ≤ 0xDFFF) ∨ 0x10FFFF < r then [0xEF, 0xBF, 0xBD]
  else if r < 0x10000 then
    [UInt8.ofNat (0xE0 + r / 4096), UInt8.ofNat (0x80 + r / 64 % 64), UInt8.ofNat (0x80 + r % 64)]
  else
    [UInt8.ofNat (0xF0 + r / 262144), UInt8.ofNat (0x80 + r / 4096 % 64),
      UInt8.ofNat (0x80 + r / 64 % 64), UInt8.ofNat (0x80 + r % 64)]

/-- The steps of a decoding loop stand on their own. -/
theorem decodeRune_of_mem_decodeAll {s : GoString} {c : Rune × GoString} (h : c ∈ decodeAll s) :
    decodeRune c.2 = (c.1, c.2.length) := by
  induction hn : s.length using Nat.strong_induction_on generalizing s with
  | _ n ih =>
    cases s with
    | nil => simp at h
    | cons b s =>
      have hw := decodeRune_width_pos b s
      have hle := decodeRune_width_le (b :: s)
      rw [decodeAll_cons] at h
      rcases List.mem_cons.mp h with rfl | h
      · rw [decodeRune_take_of_width le_rfl, List.length_take, Nat.min_eq_left hle]
      · exact ih _ (by simp only [List.length_cons, List.length_drop] at *; omega) h rfl

/-- A rune of more than one byte is spelled in bytes outside ASCII. -/
theorem le_of_mem_of_decodeRune {r : Rune} {bytes : GoString}
    (h : decodeRune bytes = (r, bytes.length)) (hne : 1 < bytes.length) :
    ∀ c ∈ bytes, 0x80 ≤ c := by
  obtain ⟨b, s, rfl⟩ : ∃ b s, bytes = b :: s := List.exists_cons_of_length_pos (by omega)
  have hb : (0x80 : UInt8) ≤ b := by
    by_contra hlt
    rw [decodeRune_ascii (not_le.mp hlt)] at h
    have := (Prod.mk.inj h).2
    omega
  have hcont := cont_of_decodeRune (b := b) (s := s) (by
    rw [h]
    intro heq
    have := (Prod.mk.inj heq).2
    omega)
  rw [h] at hcont
  simp only [List.length_cons, Nat.add_sub_cancel, List.take_length] at hcont
  exact List.forall_mem_cons.mpr ⟨hb, fun c hc => (hcont c hc).1⟩

/-! ### White space -/

theorem decodeAll_ne_nil {s : GoString} {c : Rune × GoString} (h : c ∈ decodeAll s) :
    c.2 ≠ [] := by
  induction hn : s.length using Nat.strong_induction_on generalizing s with
  | _ n ih =>
    cases s with
    | nil => simp at h
    | cons b s =>
      have hw := decodeRune_width_pos b s
      rw [decodeAll_cons] at h
      rcases List.mem_cons.mp h with rfl | h
      · simp [hw.ne']
      · exact ih _ (by simp only [List.length_cons, List.length_drop] at *; omega) h rfl

private theorem dropWhile_reverse_dropWhile_eq_nil {α : Type*} {p : α → Bool} {l : List α} :
    ((l.dropWhile p).reverse.dropWhile p).reverse = [] ↔ ∀ a ∈ l, p a = true := by
  rw [List.reverse_eq_nil_iff, List.dropWhile_eq_nil_iff]
  constructor
  · intro h
    rw [← List.dropWhile_eq_nil_iff]
    cases hd : l.dropWhile p with
    | nil => rfl
    | cons a t =>
      have ha := List.head_dropWhile_not p (l := l) (by simp [hd])
      simp only [hd, List.head_cons] at ha
      exact absurd (h a (by simp [hd])) (by simp [ha])
  · intro h a ha
    exact h a ((List.dropWhile_subset p) (List.mem_reverse.mp ha))

/-- A string is blank exactly when every rune of it is white space. -/
theorem trimSpace_eq_nil_iff (s : GoString) :
    trimSpace s = [] ↔ ∀ r ∈ runes s, isSpace r = true := by
  have hflat {l : List (Rune × GoString)} (hl : ∀ c ∈ l, c ∈ decodeAll s) :
      (l.map Prod.snd).flatten = [] ↔ l = [] := by
    constructor
    · intro h
      cases l with
      | nil => rfl
      | cons c l =>
        exact absurd (List.flatten_eq_nil_iff.mp h c.2 (by simp))
          (decodeAll_ne_nil (hl c List.mem_cons_self))
    · rintro rfl; rfl
  rw [trimSpace, hflat, dropWhile_reverse_dropWhile_eq_nil]
  · simp [runes]
  · intro c hc
    rw [List.mem_reverse] at hc
    exact List.dropWhile_subset _ (List.mem_reverse.mp (List.dropWhile_subset _ hc))

/-- What is trimmed off a string that has visible ASCII at both ends is around it. -/
theorem trimSpace_between {c d : UInt8} (hc : c < 0x80) (hc' : isSpace c.toNat = false)
    (hd : d < 0x80) (hd' : isSpace d.toNat = false) (front mid s : GoString) :
    trimSpace (front ++ c :: (mid ++ d :: s)) =
      trimLeft front ++ c :: (mid ++ d :: trimRight s) := by
  have hfront : (decodeAll (front ++ c :: (mid ++ d :: s))).dropWhile (fun e => isSpace e.1)
      = (decodeAll front).dropWhile (fun e => isSpace e.1) ++
        ((c.toNat, [c]) :: decodeAll mid ++ (d.toNat, [d]) :: decodeAll s) := by
    rw [decodeAll_append_ascii hc, decodeAll_cons_ascii hc, decodeAll_append_ascii hd,
      decodeAll_cons_ascii hd, List.dropWhile_append,
      List.dropWhile_cons_of_neg (by simp [hc'])]
    split
    case isTrue hnil =>
      rw [List.isEmpty_iff.mp hnil]
      rfl
    case isFalse => rfl
  have hback (l : List (Rune × GoString)) :
      ((l ++ (d.toNat, [d]) :: decodeAll s).reverse.dropWhile fun e => isSpace e.1) =
        ((decodeAll s).reverse.dropWhile fun e => isSpace e.1) ++ (d.toNat, [d]) :: l.reverse := by
    rw [List.reverse_append, List.reverse_cons, List.append_assoc, List.singleton_append,
      List.dropWhile_append]
    split
    case isTrue hnil =>
      rw [List.isEmpty_iff.mp hnil, List.dropWhile_cons_of_neg (by simp [hd']), List.nil_append]
    case isFalse => rfl
  rw [trimSpace, hfront, ← List.append_assoc, hback]
  simp [trimLeft, trimRight, flatten_decodeAll]

/-- What is trimmed off a string that goes on and ends in visible ASCII is in front. -/
theorem trimSpace_append {c d : UInt8} (hc : c < 0x80) (hc' : isSpace c.toNat = false)
    (hd : d < 0x80) (hd' : isSpace d.toNat = false) (front mid : GoString) :
    trimSpace (front ++ c :: (mid ++ [d])) = trimLeft front ++ c :: (mid ++ [d]) :=
  trimSpace_between hc hc' hd hd' front mid []

/-- Behind visible ASCII, a string is trimmed at its end. -/
theorem trimSpace_behind {c d : UInt8} (hc : c < 0x80) (hc' : isSpace c.toNat = false)
    (hd : d < 0x80) (hd' : isSpace d.toNat = false) (mid s : GoString) :
    trimSpace (c :: mid ++ d :: s) = c :: mid ++ d :: trimRight s :=
  trimSpace_between hc hc' hd hd' [] mid s

/-- The runes of a string around what is left when it is trimmed, which has no white space at
either end. -/
theorem exists_decodeAll_trimSpace (s : GoString) : ∃ front l back,
    decodeAll s = front ++ l ++ back ∧ trimSpace s = (l.map Prod.snd).flatten ∧
      (∀ e ∈ l.head?, isSpace e.1 = false) ∧ ∀ e ∈ l.getLast?, isSpace e.1 = false := by
  have hdrop (l : List (Rune × GoString)) :
      ∀ e ∈ (l.dropWhile fun e => isSpace e.1).head?, isSpace e.1 = false := by
    intro e he
    have hnot := List.head?_dropWhile_not (fun e : Rune × GoString => isSpace e.1) l
    rw [Option.mem_def.mp he] at hnot
    exact hnot
  obtain ⟨front, hfront⟩ := List.dropWhile_suffix (l := decodeAll s) fun e => isSpace e.1
  obtain ⟨back, hback⟩ := List.dropWhile_suffix
    (l := ((decodeAll s).dropWhile fun e => isSpace e.1).reverse) fun e => isSpace e.1
  have hmid := congrArg List.reverse hback
  rw [List.reverse_append, List.reverse_reverse] at hmid
  refine ⟨front, _, back.reverse, ?_, rfl, ?_, ?_⟩
  · rw [List.append_assoc, hmid, hfront]
  · intro e he
    refine hdrop (decodeAll s) e ?_
    rw [← hmid, List.head?_append, Option.mem_def.mp he]
    rfl
  · intro e he
    rw [List.getLast?_reverse] at he
    exact hdrop _ e he

/-- The bytes a trimmed string starts and ends with are no white space. -/
theorem trimSpace_ends (s : GoString) :
    (∀ c ∈ (trimSpace s).head?, c < 0x80 → isSpace c.toNat = false) ∧
      ∀ d ∈ (trimSpace s).getLast?, d < 0x80 → isSpace d.toNat = false := by
  obtain ⟨front, l, back, hl, htrim, hhead, hlast⟩ := exists_decodeAll_trimSpace s
  have hmem : ∀ e ∈ l, e ∈ decodeAll s := by
    intro e he
    rw [hl]
    exact List.mem_append_left _ (List.mem_append_right _ he)
  rw [htrim]
  constructor
  · intro c hc hlt
    cases l with
    | nil => cases hc
    | cons e l =>
      have he := hmem e List.mem_cons_self
      obtain ⟨b, rest, hb⟩ := List.exists_cons_of_ne_nil (decodeAll_ne_nil he)
      obtain rfl : b = c := by simpa [hb] using hc
      have hdecode := decodeRune_of_mem_decodeAll he
      rw [hb, decodeRune_ascii hlt] at hdecode
      rw [(Prod.mk.inj hdecode).1]
      exact hhead e rfl
  · intro d hd hlt
    cases l using List.reverseRecOn with
    | nil => cases hd
    | append_singleton l e =>
      have he := hmem e (by simp)
      obtain ⟨init, b, hb⟩ := (List.eq_nil_or_concat e.2).resolve_left (decodeAll_ne_nil he)
      obtain rfl : b = d := by simpa [hb] using hd
      have hdecode := decodeRune_of_mem_decodeAll he
      cases init with
      | nil =>
        rw [hb, List.concat_eq_append, List.nil_append, decodeRune_ascii hlt] at hdecode
        rw [(Prod.mk.inj hdecode).1]
        exact hlast e (by simp)
      | cons a init =>
        have hlong : 1 < e.2.length := by simp [hb]
        have hmemb : b ∈ e.2 := by simp [hb]
        exact absurd hlt (not_lt.mpr (le_of_mem_of_decodeRune hdecode hlong b hmemb))

theorem trimSpace_infix (s : GoString) : trimSpace s <:+: s := by
  obtain ⟨front, l, back, hl, htrim, -⟩ := exists_decodeAll_trimSpace s
  refine ⟨(front.map Prod.snd).flatten, (back.map Prod.snd).flatten, ?_⟩
  conv_rhs => rw [← flatten_decodeAll s, hl]
  rw [htrim]
  simp

/-- Behind a string that is left with visible ASCII at both ends, only the end is trimmed. -/
theorem trimSpace_append_of_ends {s mid : GoString} {c d : UInt8} (hc : c < 0x80) (hd : d < 0x80)
    (h : trimSpace s = c :: (mid ++ [d])) (t : GoString) :
    ∃ x, trimSpace (s ++ t) = trimSpace s ++ x := by
  obtain ⟨front, back, hs⟩ := trimSpace_infix s
  obtain ⟨hhead, hlast⟩ := trimSpace_ends s
  rw [h] at hs hhead hlast ⊢
  have hc' := hhead c rfl hc
  have hd' := hlast d (by rw [← List.cons_append]; exact List.getLast?_concat) hd
  have hassoc (x : GoString) : front ++ c :: (mid ++ [d]) ++ x = front ++ c :: (mid ++ d :: x) := by
    simp
  have hself := h
  rw [← hs, hassoc, trimSpace_between hc hc' hd hd'] at hself
  have hfront : trimLeft front = [] := by
    have hlen := congrArg List.length hself
    simp only [List.length_append, List.length_cons, List.length_nil] at hlen
    rw [← List.length_eq_zero_iff]
    omega
  refine ⟨trimRight (back ++ t), ?_⟩
  rw [← hs, List.append_assoc, hassoc, trimSpace_between hc hc' hd hd', hfront]
  simp

/-- What ends in white space gets shorter, and nothing else does. -/
theorem trimRight_cases (s : GoString) :
    if endsInSpace s then (trimRight s).length < s.length else trimRight s = s := by
  have hbytes := flatten_decodeAll s
  rw [trimRight, endsInSpace]
  cases hs : decodeAll s using List.reverseRecOn with
  | nil =>
    rw [hs] at hbytes
    exact hbytes
  | append_singleton init c =>
    rw [hs, List.map_append, List.flatten_append] at hbytes
    have hc : c.2 ≠ [] := decodeAll_ne_nil (s := s) (by rw [hs]; simp)
    rw [List.getLast?_concat, Option.any_some, List.reverse_append, List.reverse_singleton,
      List.singleton_append]
    cases hspace : isSpace c.1 with
    | true =>
      rw [if_pos rfl, List.dropWhile_cons_of_pos (by simpa using hspace)]
      have hle : ((init.reverse.dropWhile fun c => isSpace c.1).reverse.map Prod.snd).flatten.length
          ≤ (init.map Prod.snd).flatten.length := by
        obtain ⟨front, hfront⟩ := List.dropWhile_suffix (l := init.reverse) fun c => isSpace c.1
        have hinit := congrArg List.reverse hfront
        rw [List.reverse_append, List.reverse_reverse] at hinit
        have hlen := congrArg (fun l => (l.map Prod.snd).flatten.length) hinit
        simp only [List.map_append, List.flatten_append, List.length_append] at hlen
        omega
      rw [← hbytes, List.length_append]
      have hpos : 0 < ([c].map Prod.snd).flatten.length := by
        simpa using List.length_pos_iff.mpr hc
      omega
    | false =>
      rw [if_neg Bool.false_ne_true, List.dropWhile_cons_of_neg (by simp [hspace]),
        List.reverse_cons, List.reverse_reverse, List.map_append, List.flatten_append]
      exact hbytes

/-- A string that is not blank is left with a rune that is not white space in front. -/
theorem exists_of_trimSpace_ne_nil {s : GoString} (h : trimSpace s ≠ []) :
    ∃ b rest, trimLeft s = b :: rest ∧ ∀ c < 0x80, isSpace c.toNat = true → b ≠ c := by
  rw [Ne, trimSpace_eq_nil_iff] at h
  push Not at h
  obtain ⟨r, hr, hspace⟩ := h
  obtain ⟨e, he, rfl⟩ := List.mem_map.mp hr
  have hne : (decodeAll s).dropWhile (fun c => isSpace c.1) ≠ [] := fun hnil =>
    hspace (List.dropWhile_eq_nil_iff.mp hnil e he)
  obtain ⟨e, l, hl⟩ := List.exists_cons_of_ne_nil hne
  have he : e ∈ decodeAll s := List.dropWhile_subset _ (hl ▸ List.mem_cons_self)
  have hvisible : isSpace e.1 = false := by
    have := List.head_dropWhile_not (fun c : Rune × GoString => isSpace c.1) hne
    simpa only [hl, List.head_cons] using this
  obtain ⟨b, rest, hb⟩ := List.exists_cons_of_ne_nil (decodeAll_ne_nil he)
  refine ⟨b, rest ++ (l.map Prod.snd).flatten, by simp [trimLeft, hl, hb], ?_⟩
  rintro c hc hcs rfl
  have hdecode := decodeRune_of_mem_decodeAll he
  rw [hb, decodeRune_ascii hc] at hdecode
  rw [← (Prod.mk.inj hdecode).1, hcs] at hvisible
  cases hvisible

theorem trimLeft_of_blank {s : GoString} (h : trimSpace s = []) : trimLeft s = [] := by
  rw [trimSpace_eq_nil_iff] at h
  have hnil : (decodeAll s).dropWhile (fun c => isSpace c.1) = [] :=
    List.dropWhile_eq_nil_iff.mpr fun c hc => h c.1 (List.mem_map_of_mem hc)
  rw [trimLeft, hnil]
  rfl

end Beardrive
