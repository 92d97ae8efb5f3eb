import Beardrive.Lib.MergeLines
import Beardrive.Syncer.Merge

/-!
# Merged texts

A merge splits three texts into lines, drops the newline each ends in, and closes the merged lines
with one if either side had one. Two things get in the way of an exact merge.

A side without a final newline takes one over from the other side, also from one that changed
nothing, and a text that is one blank line is joined to the empty text. And where one side only
inserts, and a change of the other side begins behind what was inserted, the merge keeps the order
in which the sides were given: of the two orders, one loses nothing and the other keeps the lines
that were replaced.

## Main definitions

* `Written` — whether lines can be read back from the text they are joined to

## Main results

* `mergeText_unchanged_iff` — merging with an unchanged side returns the other side, exactly when
* `mergeText_exact_iff` — a merge is symmetric, and the base with both changes made, exactly when
-/

namespace Beardrive

/-! ### Lines and their text -/

theorem trailingNewline_iff {a : GoString} :
    trailingNewline a = true ↔ ∃ init, a = init ++ [0x0A] := by
  rw [trailingNewline, beq_iff_eq, List.getLast?_eq_some_iff]

theorem splitLines_closed (init : GoString) :
    splitLines (init ++ [0x0A]) = init.splitOn 0x0A := by
  have hsplit : (init ++ [0x0A]).splitOn 0x0A = init.splitOn 0x0A ++ [[]] :=
    List.splitOn_append_cons_self ..
  rw [splitLines, if_neg (by simp), hsplit, List.getLast?_concat, if_pos rfl, List.dropLast_concat]

/-- The last line of a text that no newline closes is not blank. -/
theorem splitLines_unclosed {a : GoString} (ha : a ≠ []) (h : trailingNewline a = false) :
    splitLines a = a.splitOn 0x0A := by
  rw [splitLines, if_neg ha]
  refine if_neg fun hlast => ?_
  by_cases hmem : (0x0A : UInt8) ∈ a
  · obtain ⟨rev, l, hrev, hl⟩ := List.eq_append_cons_of_mem (List.mem_reverse.mpr hmem)
    have hrest : (0x0A : UInt8) ∉ rev.reverse := fun h => hl (List.mem_reverse.mp h)
    have heq : a = l.reverse ++ 0x0A :: rev.reverse := by
      rw [← List.reverse_reverse a, hrev]
      simp
    rw [heq, List.splitOn_append_cons_self, List.splitOn_eq_singleton hrest, List.getLast?_concat,
      Option.some.injEq] at hlast
    rw [heq, hlast, trailingNewline, List.getLast?_concat] at h
    cases h
  · rw [List.splitOn_eq_singleton hmem] at hlast
    exact ha (Option.some.inj hlast)

/-- A text is joined again from its lines, closed as it was, unless it is one blank line. -/
theorem joinLines_splitLines_iff {a : GoString} {trailing : Bool}
    (h : trailingNewline a = true → trailing = true) :
    joinLines (splitLines a) trailing = a ↔
      a ≠ [0x0A] ∧ (a = [] ∨ trailing = trailingNewline a) := by
  by_cases ha : a = []
  · subst ha
    simp [splitLines, joinLines, List.intercalate]
  cases hend : trailingNewline a with
  | true =>
    obtain ⟨init, rfl⟩ := trailingNewline_iff.mp hend
    rw [splitLines_closed, joinLines, List.intercalate_splitOn, h hend]
    by_cases hinit : init = [] <;> simp [hinit]
  | false =>
    have hne : a ≠ [0x0A] := by
      rintro rfl
      cases hend
    rw [splitLines_unclosed ha hend, joinLines, List.intercalate_splitOn]
    cases trailing <;> simp [ha, hne]

/-- Whether lines can be read back from the text they are joined to: they are not one blank line,
and a newline closes the last of them if that is blank. -/
def Written (lines : List GoString) (trailing : Bool) : Prop :=
  lines ≠ [[]] ∧ (trailing = true ∨ lines.getLast? ≠ some [])

theorem splitLines_joinLines_iff {lines : List GoString} (hlines : ∀ l ∈ lines, 0x0A ∉ l)
    (trailing : Bool) : splitLines (joinLines lines trailing) = lines ↔ Written lines trailing := by
  by_cases hne : lines = []
  · subst hne
    simp [splitLines, joinLines, List.intercalate, Written]
  have hsplit := List.splitOn_intercalate 0x0A hlines hne
  by_cases hblank : [0x0A].intercalate lines = []
  · rw [hblank] at hsplit
    rw [← hsplit]
    simp [splitLines, joinLines, Written]
  have hone : lines ≠ [[]] := by
    rintro rfl
    exact hblank rfl
  cases trailing with
  | true =>
    have hclosed : joinLines lines true = [0x0A].intercalate lines ++ [0x0A] :=
      if_pos (by simpa using hblank)
    rw [hclosed, splitLines_closed, hsplit]
    exact ⟨fun _ => ⟨hone, .inl rfl⟩, fun _ => rfl⟩
  | false =>
    have hopen : joinLines lines false = [0x0A].intercalate lines := rfl
    rw [hopen, splitLines, if_neg hblank, hsplit]
    split
    case isTrue hlast =>
      refine ⟨fun h => absurd (congrArg List.length h) ?_, fun h => absurd hlast ?_⟩
      · have := List.length_pos_iff.mpr hne
        rw [List.length_dropLast]
        omega
      · exact h.2.resolve_left Bool.false_ne_true
    case isFalse hlast => exact ⟨fun _ => ⟨hone, .inr hlast⟩, fun _ => rfl⟩

/-- Different lines are joined to different texts, unless there are none. -/
theorem joinLines_injective {x y : List GoString} (hx : ∀ l ∈ x, 0x0A ∉ l)
    (hy : ∀ l ∈ y, 0x0A ∉ l) (hxne : x ≠ []) (hyne : y ≠ []) {trailing : Bool}
    (h : joinLines x trailing = joinLines y trailing) : x = y := by
  have hjoin : [0x0A].intercalate x = [0x0A].intercalate y := by
    rw [joinLines, joinLines] at h
    split_ifs at h <;> simp_all
  rw [← List.splitOn_intercalate 0x0A hx hxne, hjoin, List.splitOn_intercalate 0x0A hy hyne]

/-! ### Merges -/

/-- The lines of a merge hold no line break. -/
theorem newline_notMem_of_mem_mergeLines {base a b : GoString} {out : List GoString}
    (h : mergeLines (splitLines base) (splitLines a) (splitLines b) = some out) :
    ∀ l ∈ out, 0x0A ∉ l := by
  intro l hl
  rcases mem_of_mem_mergeLines h hl with hl | hl | hl <;> exact newline_notMem_of_mem_splitLines hl

/-- **Merging with an unchanged side returns the other side** exactly where that is not one blank
line and does not lack a final newline which the base has. -/
theorem mergeText_unchanged_iff (base a : GoString) :
    mergeText base a base = some a ∧ mergeText base base a = some a ↔
      a ≠ [0x0A] ∧ (a = [] ∨ (trailingNewline base = true → trailingNewline a = true)) := by
  obtain ⟨hl, hr⟩ := mergeLines_unchanged (splitLines base) (splitLines a)
  rw [mergeText, mergeText, hl, hr, Option.map_some, Option.map_some, Option.some.injEq,
    Option.some.injEq, Bool.or_comm (trailingNewline base), and_self,
    joinLines_splitLines_iff (by simp_all)]
  cases trailingNewline a <;> simp

/-- A side that only removed the final newline gets it back. -/
theorem removed_newline_returns : ¬ ∀ base a : GoString,
    mergeText base a base = some a ∧ mergeText base base a = some a := by
  intro h
  have hback := (h (ascii "a\n") (ascii "a")).1
  revert hback
  decide

/-- **A merge is the same in both orders, and the base with both changes made**, exactly where the
sides overlap, or neither of them inserts where the other's change begins and the merged lines can
be read back from their text. -/
theorem mergeText_exact_iff (base a b : GoString) :
    (mergeText base a b = mergeText base b a ∧
        ∀ out, mergeText base a b = some out →
          splitLines out = mergedLines (splitLines base) (splitLines a) (splitLines b)) ↔
      overlaps (changedRegions (splitLines base) (splitLines a))
          (changedRegions (splitLines base) (splitLines b)) = true ∨
        insertsAhead (changedRegions (splitLines base) (splitLines a))
            (changedRegions (splitLines base) (splitLines b)) = false ∧
          Written (mergedLines (splitLines base) (splitLines a) (splitLines b))
            (trailingNewline a || trailingNewline b) := by
  cases hover : overlaps (changedRegions (splitLines base) (splitLines a))
      (changedRegions (splitLines base) (splitLines b)) with
  | true =>
    have hab : mergeLines (splitLines base) (splitLines a) (splitLines b) = none := if_pos hover
    have hba : mergeLines (splitLines base) (splitLines b) (splitLines a) = none :=
      if_pos (overlaps_comm _ _ ▸ hover)
    simp [mergeText, hab, hba]
  | false =>
    rw [or_iff_right Bool.false_ne_true, mergeText, mergeText, Bool.or_comm (trailingNewline b)]
    cases hahead : insertsAhead (changedRegions (splitLines base) (splitLines a))
        (changedRegions (splitLines base) (splitLines b)) with
    | true =>
      -- both orders merge, and their results differ in length
      obtain ⟨ab, ba, hab, hba, hlen, hab0, hba0⟩ := mergeLines_of_insertsAhead hahead
      rw [hab, hba]
      refine iff_of_false (fun h => hlen ?_) (fun h => Bool.noConfusion h.1)
      exact congrArg List.length (joinLines_injective (newline_notMem_of_mem_mergeLines hab)
        (newline_notMem_of_mem_mergeLines hba) hab0 hba0 (Option.some.inj h.1))
    | false =>
      obtain ⟨hab, hba⟩ := mergeLines_eq hover hahead
      rw [hab, hba, Option.map_some,
        ← splitLines_joinLines_iff (newline_notMem_of_mem_mergeLines hab)]
      simp

/-- A change behind an insertion, given first, keeps the line that it replaced. -/
theorem replaced_line_reappears : ¬ ∀ base a b : GoString,
    mergeText base a b = mergeText base b a ∧ ∀ out, mergeText base a b = some out →
      splitLines out = mergedLines (splitLines base) (splitLines a) (splitLines b) := by
  intro h
  have hsame := (h (ascii "1\n2\n") (ascii "X\n1\n2\n") (ascii "Y\n2\n")).1
  revert hsame
  decide

end Beardrive
