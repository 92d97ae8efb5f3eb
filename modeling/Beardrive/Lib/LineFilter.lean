import Mathlib.Data.List.Infix

/-!
# A text filtered line by line

A text is cut behind every separator, so that each line keeps its own, and a filter keeps some of
the lines as they are. Nothing here refers to any particular program.

## Growing the text

What a text holds behind its last separator is a line that is not finished. A filter has to judge
it all the same, and judges it again when the text has grown: `keepLines_prefix_iff` says when the
filtered text has grown with the text. It has unless a line was kept unfinished and is dropped
finished, and behind finished lines it always has (`keepLines_append`).

## Main definitions

* `splitAfter` — the lines of a text, each with its separator
* `keepLines` — a text, filtered
* `headLine`, `behindHead` — the first line of a text, and the rest
* `Closed` — a text of finished lines

## Main results

* `line_induction` — along the lines of a text
* `keepLines_append`, `keepLines_prefix_iff` — a filtered text and what it grows to
-/

namespace Beardrive

section

variable {α : Type*} [DecidableEq α] (c : α)

/-- `bytes.SplitAfter`, for one separator. What stands behind the last of them is a line too. -/
def splitAfter : List α → List (List α)
  | [] => [[]]
  | b :: s => if b = c then [b] :: splitAfter s else (splitAfter s).modifyHead (b :: ·)

/-- The lines of a text that are to be kept, one after the other. -/
def keepLines (keep : List α → Bool) (s : List α) : List α :=
  ((splitAfter c s).filter keep).flatten

/-- The first line of a text, with its separator. -/
def headLine (s : List α) : List α := (splitAfter c s).headD []

/-- What stands behind the first line. -/
def behindHead (s : List α) : List α := (splitAfter c s).tail.flatten

/-- A text of finished lines. -/
def Closed (s : List α) : Prop := s = [] ∨ ∃ init, s = init ++ [c]

variable {c}

/-! ### The lines of a text -/

theorem splitAfter_of_notMem {l : List α} (h : c ∉ l) : splitAfter c l = [l] := by
  induction l with
  | nil => rfl
  | cons b l ih =>
    rw [List.mem_cons, not_or] at h
    rw [splitAfter, if_neg (Ne.symm h.1), ih h.2]
    rfl

theorem splitAfter_line {l : List α} (h : c ∉ l) (s : List α) :
    splitAfter c (l ++ c :: s) = (l ++ [c]) :: splitAfter c s := by
  induction l with
  | nil => rw [List.nil_append, splitAfter, if_pos rfl, List.nil_append]
  | cons b l ih =>
    rw [List.mem_cons, not_or] at h
    rw [List.cons_append, splitAfter, if_neg (Ne.symm h.1), ih h.2]
    rfl

/-- Line by line, to the one that is not finished. -/
@[elab_as_elim]
theorem line_induction {P : List α → Prop} (last : ∀ l, c ∉ l → P l)
    (line : ∀ l s, c ∉ l → P s → P (l ++ c :: s)) (s : List α) : P s := by
  induction hn : s.length using Nat.strongRecOn generalizing s with
  | _ n ih =>
    by_cases hmem : c ∈ s
    · obtain ⟨l, rest, rfl, hl⟩ := List.eq_append_cons_of_mem hmem
      refine line l rest hl (ih _ ?_ rest rfl)
      rw [← hn, List.length_append, List.length_cons]
      omega
    · exact last s hmem

@[simp] theorem flatten_splitAfter (s : List α) : (splitAfter c s).flatten = s := by
  induction s using line_induction (c := c) with
  | last l h => rw [splitAfter_of_notMem h, List.flatten_singleton]
  | line l s h ih => rw [splitAfter_line h, List.flatten_cons, ih, List.append_assoc]; rfl

theorem headLine_append_behindHead (s : List α) : headLine c s ++ behindHead c s = s := by
  have hsplit : splitAfter c s = headLine c s :: (splitAfter c s).tail := by
    by_cases hmem : c ∈ s
    · obtain ⟨l, rest, rfl, hl⟩ := List.eq_append_cons_of_mem hmem
      rw [headLine, splitAfter_line hl]
      rfl
    · rw [headLine, splitAfter_of_notMem hmem]
      rfl
  rw [behindHead, ← List.flatten_cons, ← hsplit, flatten_splitAfter]

/-! ### What is kept -/

variable {keep : List α → Bool}

/-- A line, if it is kept. -/
def keptLine (keep : List α → Bool) (l : List α) : List α := if keep l then l else []

omit [DecidableEq α] in
theorem flatten_filter_cons (l : List α) (ls : List (List α)) :
    ((l :: ls).filter keep).flatten = keptLine keep l ++ (ls.filter keep).flatten := by
  rw [keptLine, List.filter_cons]
  split <;> rfl

theorem keepLines_of_notMem {l : List α} (h : c ∉ l) : keepLines c keep l = keptLine keep l := by
  rw [keepLines, splitAfter_of_notMem h, flatten_filter_cons]
  exact List.append_nil _

theorem keepLines_line {l : List α} (h : c ∉ l) (s : List α) :
    keepLines c keep (l ++ c :: s) = keptLine keep (l ++ [c]) ++ keepLines c keep s := by
  rw [keepLines, splitAfter_line h, flatten_filter_cons, keepLines]

@[simp] theorem keepLines_nil : keepLines c keep [] = [] := by
  rw [keepLines_of_notMem List.not_mem_nil, keptLine, ite_self]

/-- **Behind finished lines a text is filtered on its own.** -/
theorem keepLines_append {w : List α} (hw : Closed c w) (t : List α) :
    keepLines c keep (w ++ t) = keepLines c keep w ++ keepLines c keep t := by
  rcases hw with rfl | ⟨init, rfl⟩
  · rw [keepLines_nil, List.nil_append, List.nil_append]
  · rw [List.append_assoc, List.singleton_append]
    induction init using line_induction (c := c) with
    | last l h => rw [keepLines_line h, keepLines_line h, keepLines_nil, List.append_nil]
    | line l s h ih =>
      rw [List.append_assoc, List.append_assoc, List.cons_append, List.cons_append,
        keepLines_line h, keepLines_line h, ih, List.append_assoc]

/-- A line that goes on is judged where it ends. -/
theorem keepLines_unfinished {l : List α} (h : c ∉ l) (t : List α) :
    keepLines c keep (l ++ t) =
      keptLine keep (l ++ headLine c t) ++ keepLines c keep (behindHead c t) := by
  by_cases hmem : c ∈ t
  · obtain ⟨u, rest, rfl, hu⟩ := List.eq_append_cons_of_mem hmem
    have hline : c ∉ l ++ u := by
      rw [List.mem_append, not_or]
      exact ⟨h, hu⟩
    rw [headLine, behindHead, splitAfter_line hu, ← List.append_assoc, keepLines_line hline,
      List.headD_cons, List.tail_cons, flatten_splitAfter, List.append_assoc l u [c]]
  · have hline : c ∉ l ++ t := by
      rw [List.mem_append, not_or]
      exact ⟨h, hmem⟩
    rw [headLine, behindHead, splitAfter_of_notMem hmem, keepLines_of_notMem hline,
      List.headD_cons, List.tail_cons, List.flatten_nil, keepLines_nil, List.append_nil]

/-- **A filtered text grows with the text, unless it held an unfinished line that is dropped
finished** and not written again right behind it. -/
theorem keepLines_prefix_iff {w l : List α} (hw : Closed c w) (hl : c ∉ l) (t : List α) :
    keepLines c keep (w ++ l) <+: keepLines c keep (w ++ l ++ t) ↔
      (keep l = true → keep (l ++ headLine c t) = true ∨
        l <+: keepLines c keep (behindHead c t)) := by
  rw [List.append_assoc, keepLines_append hw, keepLines_append hw, List.prefix_append_right_inj,
    keepLines_of_notMem hl, keepLines_unfinished hl]
  cases hkeep : keep l with
  | false =>
    rw [keptLine, hkeep]
    exact iff_of_true List.nil_prefix fun h => nomatch h
  | true =>
    rw [show keptLine keep l = l from if_pos hkeep, keptLine]
    cases keep (l ++ headLine c t) with
    | true =>
      rw [if_pos rfl, List.append_assoc]
      exact iff_of_true (List.prefix_append _ _) fun _ => .inl rfl
    | false => simp

end

end Beardrive
