import Beardrive.Lib.GoString
import Mathlib

/-!
# Shared documents

A document of which everybody holds a copy, and copies of which merge. What is asked of it is what
any such document offers: a state knows another one when it has all its items, a merge knows both,
and an edit knows what it edited. Offsets into the text count UTF-16 code units. Nothing here
refers to any particular document, nor to how its text is kept.

A text is turned into another by one edit, which keeps what the two begin and end with. It says
what it should, whatever the two texts.

## Main definitions

* `SharedDoc` — documents
* `splice` — the one edit
* `Spells`, `Learnt` — what a state says, and what it has said on its way

## Main results

* `chars_splice` — the edit arrives at the text
* `learnt_splice` — what is spliced in is learnt
-/

namespace Beardrive

/-- The UTF-16 code units that runes take. -/
def utf16Len (rs : List Rune) : ℕ := (rs.map fun r => if r < 0x10000 then 1 else 2).sum

/-- Documents: an empty one, the text of each, merging the state of another into one, and replacing
a stretch of its text. -/
class SharedDoc (D : Type*) extends Preorder D where
  new : D
  chars : D → List Rune
  applyUpdate : D → D → D
  edit : D → ℕ → ℕ → List Rune → D
  le_applyUpdate_left : ∀ d u, d ≤ applyUpdate d u
  le_applyUpdate_right : ∀ d u, u ≤ applyUpdate d u
  le_edit : ∀ d start del ins, d ≤ edit d start del ins
  chars_edit : ∀ d pre mid post ins, chars d = pre ++ mid ++ post →
    chars (edit d (utf16Len pre) (utf16Len mid) ins) = pre ++ ins ++ post

/-- How many entries two lists begin with in common. -/
def commonPrefix {α : Type*} [DecidableEq α] : List α → List α → ℕ
  | a :: l, b :: l' => if a = b then commonPrefix l l' + 1 else 0
  | _, _ => 0

theorem take_commonPrefix {α : Type*} [DecidableEq α] (l l' : List α) :
    l.take (commonPrefix l l') = l'.take (commonPrefix l l') := by
  induction l generalizing l' with
  | nil => simp [commonPrefix]
  | cons a l ih =>
    cases l' with
    | nil => simp [commonPrefix]
    | cons b l' =>
      by_cases hab : a = b
      · subst hab
        simp [commonPrefix, ih l']
      · simp [commonPrefix, hab]

/-- What two lists end with in common. -/
theorem drop_commonPrefix_reverse {α : Type*} [DecidableEq α] (l l' : List α) :
    l.drop (l.length - commonPrefix l.reverse l'.reverse) =
      l'.drop (l'.length - commonPrefix l.reverse l'.reverse) := by
  have h := congrArg List.reverse (take_commonPrefix l.reverse l'.reverse)
  rwa [List.take_reverse, List.take_reverse, List.reverse_reverse, List.reverse_reverse] at h

variable {D : Type*} [SharedDoc D]

namespace SharedDoc

/-- The text of a document, as a string. -/
def text (d : D) : GoString := (chars d).flatMap encodeRune

/-- One edit that leaves the document with a text: what it and its text begin and end with in
common is kept, the rest replaced. -/
def splice (d : D) (b : List Rune) : D :=
  let a := chars d
  let p := commonPrefix a b
  let n := commonPrefix (a.drop p).reverse (b.drop p).reverse
  let start := utf16Len (a.take p)
  let del := utf16Len ((a.drop p).take ((a.drop p).length - n))
  let ins := (b.drop p).take ((b.drop p).length - n)
  if del = 0 ∧ ins = [] then d else edit d start del ins

theorem le_splice (d : D) (b : List Rune) : d ≤ splice d b := by
  unfold splice
  dsimp only
  split
  · exact le_rfl
  · exact le_edit _ _ _ _

theorem eq_nil_of_utf16Len {rs : List Rune} (h : utf16Len rs = 0) : rs = [] := by
  cases rs with
  | nil => rfl
  | cons r rs =>
    simp only [utf16Len, List.map_cons, List.sum_cons] at h
    split at h <;> omega

/-- **The edit arrives at the text.** -/
theorem chars_splice (d : D) (b : List Rune) : chars (splice d b) = b := by
  let a := chars d
  let p := commonPrefix a b
  let n := commonPrefix (a.drop p).reverse (b.drop p).reverse
  have hsplit : a = a.take p ++ (a.drop p).take ((a.drop p).length - n) ++
      (a.drop p).drop ((a.drop p).length - n) := by
    rw [List.append_assoc, List.take_append_drop, List.take_append_drop]
  have hb : a.take p ++ (b.drop p).take ((b.drop p).length - n) ++
      (a.drop p).drop ((a.drop p).length - n) = b := by
    rw [take_commonPrefix, drop_commonPrefix_reverse, List.append_assoc, List.take_append_drop,
      List.take_append_drop]
  unfold splice
  dsimp only
  split
  · rename_i hsame
    rw [hsame.2, List.append_nil] at hb
    rw [eq_nil_of_utf16Len hsame.1, List.append_nil] at hsplit
    exact hsplit.trans hb
  · exact (chars_edit d _ _ _ _ hsplit).trans hb

/-- A state spells a string: its text is that string, or has the code points of it. -/
def Spells (d : D) (s : GoString) : Prop := text d = s ∨ chars d = runes s

/-- A document has learnt a string: it has all of a state that spells it. -/
def Learnt (d : D) (s : GoString) : Prop := ∃ x, x ≤ d ∧ Spells x s

theorem Spells.learnt {d : D} {s : GoString} (h : Spells d s) : Learnt d s := ⟨d, le_rfl, h⟩

theorem Learnt.mono {d d' : D} {s : GoString} (h : Learnt d s) (hd : d ≤ d') : Learnt d' s := by
  obtain ⟨x, hx, hs⟩ := h
  exact ⟨x, hx.trans hd, hs⟩

/-- **What is spliced in is learnt.** -/
theorem learnt_splice (d : D) (s : GoString) : Learnt (splice d (runes s)) s :=
  Spells.learnt (.inr (chars_splice d (runes s)))

end SharedDoc

end Beardrive
