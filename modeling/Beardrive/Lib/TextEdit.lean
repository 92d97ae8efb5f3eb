import Beardrive.Lib.Crdt

/-!
# The one replacement between two texts

A text is turned into another by one replacement: what the two begin with in common is kept, and
what they end with of what that leaves. Nothing here refers to any particular program.

The replacement tells whether one text is the other with something put into it: then it replaces
nothing.

## Main definitions

* `TextEdit`, `textEdit` — the replacement
* `Within` — a text is another one with one stretch taken out
* `slice` — a stretch of a text

## Main results

* `apply_textEdit` — the replacement arrives at the text
* `adds_iff` — it only adds exactly when the text was within the other
* `TextEdit.slice_apply_front`, `TextEdit.slice_apply_back` — the stretches apart from it stay
-/

namespace Beardrive

/-- The entries from `start` up to `stop` are replaced. -/
structure TextEdit (α : Type*) where
  start : ℕ
  stop : ℕ
  insert : List α
  deriving DecidableEq

section

variable {α : Type*} [DecidableEq α]

/-- The smallest replacement that turns `prev` into `next`. -/
def textEdit (prev next : List α) : Option (TextEdit α) :=
  if prev = next then none
  else
    let max := min prev.length next.length
    let p := commonPrefix prev next
    let s := min (commonPrefix prev.reverse next.reverse) (max - p)
    some ⟨p, prev.length - s, (next.take (next.length - s)).drop p⟩

/-- The text behind a replacement. -/
def TextEdit.apply (e : TextEdit α) (text : List α) : List α :=
  text.take e.start ++ e.insert ++ text.drop e.stop

/-- Whether a text becomes the other one by adding to it. -/
def adds (prev next : List α) : Bool :=
  match textEdit prev next with
  | none => true
  | some e => e.start = e.stop

/-- A text is the other one with one stretch taken out. -/
def Within (prev next : List α) : Prop := ∃ a m b, prev = a ++ b ∧ next = a ++ m ++ b

theorem commonPrefix_le (l l' : List α) : commonPrefix l l' ≤ min l.length l'.length := by
  induction l generalizing l' with
  | nil => simp [commonPrefix]
  | cons a l ih =>
    cases l' with
    | nil => simp [commonPrefix]
    | cons b l' =>
      have := ih l'
      rw [commonPrefix]
      simp only [List.length_cons]
      split_ifs <;> omega

/-- What two lists begin with in common is no less than what they were made to. -/
theorem le_commonPrefix_append (a l l' : List α) :
    a.length ≤ commonPrefix (a ++ l) (a ++ l') := by
  induction a with
  | nil => exact Nat.zero_le _
  | cons x a ih =>
    rw [List.cons_append, List.cons_append, commonPrefix, if_pos rfl]
    exact Nat.succ_le_succ ih

/-- Two lists that end with the same `n` entries end with the same fewer entries. -/
theorem drop_eq_of_le_common {l l' : List α} {n : ℕ} (h : n ≤ commonPrefix l.reverse l'.reverse) :
    l.drop (l.length - n) = l'.drop (l'.length - n) := by
  have hrev := congrArg (List.take n) (take_commonPrefix l.reverse l'.reverse)
  rw [List.take_take, List.take_take, Nat.min_eq_left h] at hrev
  have hdrop := congrArg List.reverse hrev
  rwa [List.take_reverse, List.take_reverse, List.reverse_reverse, List.reverse_reverse] at hdrop

/-- **The replacement arrives at the text.** -/
theorem apply_textEdit {prev next : List α} {e : TextEdit α} (h : textEdit prev next = some e) :
    e.apply prev = next := by
  rw [textEdit, Option.ite_none_left_eq_some] at h
  obtain ⟨-, h⟩ := h
  cases h
  have hprefix := commonPrefix_le prev next
  generalize hp : commonPrefix prev next = p at hprefix ⊢
  generalize hs : min (commonPrefix prev.reverse next.reverse)
    (min prev.length next.length - p) = s
  have hbound : s ≤ min prev.length next.length - p := hs ▸ Nat.min_le_right _ _
  have hdrop : prev.drop (prev.length - s) = next.drop (next.length - s) :=
    drop_eq_of_le_common (hs ▸ Nat.min_le_left _ _)
  have htake : prev.take p = next.take p := hp ▸ take_commonPrefix prev next
  have hfront : (next.take (next.length - s)).take p = next.take p := by
    rw [List.take_take, Nat.min_eq_left (by omega)]
  show prev.take p ++ (next.take (next.length - s)).drop p ++ prev.drop (prev.length - s) = next
  rw [hdrop, htake, ← hfront, List.take_append_drop, List.take_append_drop]

/-- **A text becomes the other one by adding to it exactly when it was within it.** -/
theorem adds_iff {prev next : List α} : adds prev next = true ↔ Within prev next := by
  constructor
  · intro h
    rw [adds] at h
    split at h
    case h_1 hnone =>
      have heq : prev = next := by
        by_contra hne
        rw [textEdit, if_neg hne] at hnone
        cases hnone
      exact ⟨prev, [], [], by simp, by simp [heq]⟩
    case h_2 e he =>
      have hsame : e.start = e.stop := of_decide_eq_true h
      have harrives := apply_textEdit he
      rw [TextEdit.apply, ← hsame] at harrives
      exact ⟨prev.take e.start, e.insert, prev.drop e.start, (List.take_append_drop _ _).symm,
        harrives.symm⟩
  · rintro ⟨a, m, b, rfl, rfl⟩
    rw [adds]
    split
    · rfl
    case h_2 e he =>
      rw [textEdit, Option.ite_none_left_eq_some] at he
      obtain ⟨-, he⟩ := he
      have hfront : a.length ≤ commonPrefix (a ++ b) (a ++ (m ++ b)) :=
        le_commonPrefix_append a b (m ++ b)
      have hback : b.length ≤ commonPrefix (a ++ b).reverse (a ++ m ++ b).reverse := by
        rw [List.reverse_append, List.reverse_append, ← List.length_reverse]
        exact le_commonPrefix_append _ _ _
      have hprefix := commonPrefix_le (a ++ b) (a ++ m ++ b)
      cases he
      rw [← List.append_assoc] at hfront
      simp only [List.length_append] at hprefix ⊢
      refine decide_eq_true ?_
      omega

instance (prev next : List α) : Decidable (Within prev next) := decidable_of_iff _ adds_iff

end

/-! ### Stretches -/

section

variable {α : Type*} {e : TextEdit α} {text : List α}

/-- The entries from `i` up to `j`. -/
def slice (text : List α) (i j : ℕ) : List α := (text.drop i).take (j - i)

theorem slice_eq (text : List α) (i j : ℕ) : slice text i j = (text.take j).drop i :=
  (List.drop_take ..).symm

/-- In front of what is replaced nothing changes. -/
theorem TextEdit.take_apply (h : e.start ≤ text.length) :
    (e.apply text).take e.start = text.take e.start := by
  have hlen : (text.take e.start).length = e.start := List.length_take_of_le h
  rw [TextEdit.apply, List.append_assoc, List.take_append_of_le_length hlen.ge,
    List.take_of_length_le hlen.le]

/-- Behind what is replaced nothing changes. -/
theorem TextEdit.drop_apply (h : e.start ≤ text.length) :
    (e.apply text).drop (e.start + e.insert.length) = text.drop e.stop := by
  have hlen : (text.take e.start ++ e.insert).length = e.start + e.insert.length := by
    rw [List.length_append, List.length_take_of_le h]
  rw [TextEdit.apply, ← hlen, List.drop_left]

/-- A stretch in front stays where it is. -/
theorem TextEdit.slice_apply_front (h : e.start ≤ text.length) {j : ℕ} (hj : j ≤ e.start) (i : ℕ) :
    slice (e.apply text) i j = slice text i j := by
  have htake (l : List α) : l.take j = (l.take e.start).take j := by
    rw [List.take_take, min_eq_left hj]
  rw [slice_eq, slice_eq, htake, TextEdit.take_apply h, ← htake]

/-- A stretch behind moves by what the text has grown. -/
theorem TextEdit.slice_apply_back (h : e.start ≤ text.length) (hle : e.start ≤ e.stop) {i j : ℕ}
    (hi : e.stop ≤ i) (hij : i ≤ j) :
    slice (e.apply text) (i + e.insert.length - (e.stop - e.start))
        (j + e.insert.length - (e.stop - e.start)) = slice text i j := by
  have hdrop : (e.apply text).drop (i + e.insert.length - (e.stop - e.start)) = text.drop i := by
    rw [show i + e.insert.length - (e.stop - e.start) =
        e.start + e.insert.length + (i - e.stop) by omega, ← List.drop_drop,
      TextEdit.drop_apply h, List.drop_drop, Nat.add_sub_cancel' hi]
  rw [slice, slice, hdrop]
  congr 1
  omega

end

end Beardrive
