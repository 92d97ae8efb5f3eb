import Beardrive.Lib.LineReader

/-!
# Walking a file line by line

`eachLine` reads a file through a buffer and calls back with every line, its number, and whether it
was cut. A line longer than the bound keeps its front; the rest of it is read past.

However the buffer chunks the file, the walk is a walk over the lines of its text.

## Main definitions

* `eachLine` — the walk, as the loops run it
* `walkLines` — the walk over a list of lines

## Main results

* `eachLine_eq` — they agree
-/

namespace Beardrive

/-- A line as far as it was read: the text that is kept, and whether some was not. -/
structure CutLine where
  text : GoString := []
  truncated : Bool := false
  deriving DecidableEq, Repr

/-- A chunk more of the line. -/
def CutLine.add (max : ℕ) (sb : CutLine) (chunk : GoString) : CutLine :=
  let room := max - sb.text.length
  if 0 < room then
    if room < chunk.length then { text := sb.text ++ chunk.take room, truncated := true }
    else { sb with text := sb.text ++ chunk }
  else if chunk ≠ [] then { sb with truncated := true }
  else sb

/-- The inner loop: one line, and what is left behind it; nothing is left where the line ran into
the end of the file. -/
def gatherLine (size max : ℕ) (sb : CutLine) (s : GoString) : CutLine × Option GoString :=
  match _h : readLine size s with
  | none => (sb, none)
  | some chunk =>
    if chunk.isPrefix then gatherLine size max (sb.add max chunk.line) chunk.rest
    else (sb.add max chunk.line, some chunk.rest)
termination_by s.length
decreasing_by exact readLine_lt _h

/-- What the inner loop reads gets shorter. -/
theorem gatherLine_lt {size max : ℕ} {sb line : CutLine} {s rest : GoString}
    (h : gatherLine size max sb s = (line, some rest)) : rest.length < s.length := by
  induction hn : s.length using Nat.strong_induction_on generalizing s sb with
  | _ n ih =>
    rw [gatherLine] at h
    split at h
    case h_1 => cases h
    case h_2 chunk hread =>
      have hlt := readLine_lt hread
      split at h
      case isTrue => exact (ih _ (by omega) h rfl).trans (by omega)
      case isFalse =>
        obtain rfl := Option.some.inj (Prod.mk.inj h).2
        omega

section

variable {σ : Type*} (fn : σ → ℕ → GoString → Bool → σ × Bool)

/-- `eachLine`, from line `n` on. The callback says whether to go on. -/
def eachLine (size max n : ℕ) (st : σ) (s : GoString) : σ :=
  match _h : gatherLine size max {} s with
  | (line, none) => if line.text ≠ [] then (fn st n line.text line.truncated).1 else st
  | (line, some rest) =>
    match fn st n line.text line.truncated with
    | (st, true) => eachLine size max (n + 1) st rest
    | (st, false) => st
termination_by s.length
decreasing_by exact gatherLine_lt _h

/-- A line, cut at a bound. -/
def cutLine (max : ℕ) (line : GoString) : CutLine := ⟨line.take max, max < line.length⟩

/-- A walk over the lines of a text. -/
def walkLines (max : ℕ) : ℕ → σ → List GoString → σ
  | _, st, [] => st
  | n, st, line :: lines =>
    match fn st n (cutLine max line).text (cutLine max line).truncated with
    | (st, true) => walkLines max (n + 1) st lines
    | (st, false) => st

end

/-! ### Chunks of a line -/

@[simp] theorem cutLine_nil (max : ℕ) : cutLine max [] = {} := by
  simp [cutLine]

/-- **Chunk by chunk or at once**, a line is cut at the same place. -/
theorem add_cutLine (max : ℕ) (front chunk : GoString) :
    (cutLine max front).add max chunk = cutLine max (front ++ chunk) := by
  have hlen : (front.take max).length = min max front.length := List.length_take
  rw [CutLine.add]
  simp only [cutLine, hlen, List.take_append, List.length_append]
  by_cases hroom : front.length < max
  · rw [min_eq_right hroom.le, if_pos (by omega)]
    split
    case isTrue hcut =>
      rw [CutLine.mk.injEq]
      exact ⟨rfl, (decide_eq_true (by omega)).symm⟩
    case isFalse hfits =>
      rw [CutLine.mk.injEq, List.take_of_length_le (i := max - front.length) (by omega)]
      exact ⟨rfl, decide_eq_decide.mpr (by omega)⟩
  · rw [min_eq_left (by omega), Nat.sub_self, if_neg (Nat.lt_irrefl 0),
      Nat.sub_eq_zero_of_le (by omega), List.take_zero, List.append_nil]
    split
    case isTrue hne =>
      have hpos := List.length_pos_iff.mpr hne
      rw [CutLine.mk.injEq]
      exact ⟨rfl, (decide_eq_true (by omega)).symm⟩
    case isFalse hnil =>
      rw [not_not.mp hnil, List.length_nil, Nat.add_zero]

/-- The inner loop reads the line in front. -/
theorem gatherLine_line (size max : ℕ) {front line rest s : GoString} (hline : lineFeed ∉ line)
    (hs : s = line ++ lineFeed :: rest) :
    gatherLine size max (cutLine max front) s =
      (cutLine max (front ++ dropCR line), some rest) := by
  induction hn : s.length using Nat.strong_induction_on generalizing s front line with
  | _ n ih =>
    have hne : s ≠ [] := by
      rw [hs]
      exact List.append_ne_nil_of_right_ne_nil _ (List.cons_ne_nil _ _)
    have hmem : lineFeed ∈ s := by
      rw [hs]
      exact List.mem_append_right _ List.mem_cons_self
    rw [gatherLine]
    split
    case h_1 hread =>
      rcases readLine_cases size hne with ⟨_, _, -, -, h⟩ | ⟨-, h⟩ | ⟨_, _, -, h⟩ <;>
        rw [hread] at h <;> cases h
    case h_2 chunk hread =>
      rcases readLine_cases size hne with ⟨line', rest', heq, hline', h⟩ | ⟨hno, -⟩ |
        ⟨c, rest', hgoes, h⟩
      · -- the whole line is in the buffer
        have hsame := hs.symm.trans heq
        have htake := congrArg (List.takeWhile fun b => decide (b ≠ lineFeed)) hsame
        have hdrop := congrArg (List.dropWhile fun b => decide (b ≠ lineFeed)) hsame
        rw [takeWhile_ne_append hline, takeWhile_ne_append hline'] at htake
        rw [dropWhile_ne_append hline, dropWhile_ne_append hline', List.cons.injEq] at hdrop
        rw [hread] at h
        obtain rfl := Option.some.inj h
        rw [htake, hdrop.2, ← add_cutLine]
        rfl
      · exact absurd hmem hno
      · -- the buffer holds the front of it
        obtain ⟨line', rfl⟩ : ∃ line', line = c ++ line' := by
          have hsame := hgoes.eq.symm.trans hs
          rcases List.append_eq_append_iff.mp hsame with ⟨t, ht, -⟩ | ⟨t, ht, hrest⟩
          · exact ⟨t, ht⟩
          · cases t with
            | nil => exact ⟨[], by rw [ht, List.append_nil, List.append_nil]⟩
            | cons b t =>
              rw [List.cons_append, List.cons.injEq] at hrest
              refine absurd ?_ hgoes.no_lineFeed
              rw [ht, hrest.1]
              exact List.mem_append_right _ List.mem_cons_self
        rw [List.append_assoc] at hs
        have hrest : rest' = line' ++ lineFeed :: rest :=
          List.append_cancel_left (hgoes.eq.symm.trans hs)
        have hpos := List.length_pos_iff.mpr hgoes.nonempty
        rw [hread] at h
        obtain rfl := Option.some.inj h
        have hlen := congrArg List.length hgoes.eq
        rw [List.length_append] at hlen
        rw [hgoes.eq, hrest, ← List.append_assoc] at hgoes
        rw [dropCR_append hgoes, ← List.append_assoc, ← ih rest'.length (by omega)
          (fun hin => hline (List.mem_append_right _ hin)) hrest rfl, ← add_cutLine]
        rfl

/-- The inner loop reads all of what no line feed ends. -/
theorem gatherLine_open (size max : ℕ) {front s : GoString} (hs : lineFeed ∉ s) :
    gatherLine size max (cutLine max front) s = (cutLine max (front ++ s), none) ∨
      gatherLine size max (cutLine max front) s = (cutLine max (front ++ s), some []) := by
  induction hn : s.length using Nat.strong_induction_on generalizing s front with
  | _ n ih =>
    rw [gatherLine]
    split
    case h_1 hread =>
      refine .inl ?_
      by_cases hne : s = []
      · rw [hne, List.append_nil]
      · rcases readLine_cases size hne with ⟨_, _, -, -, h⟩ | ⟨-, h⟩ | ⟨_, _, -, h⟩ <;>
          rw [hread] at h <;> cases h
    case h_2 chunk hread =>
      have hne : s ≠ [] := by
        rintro rfl
        cases hread
      rcases readLine_cases size hne with ⟨line, rest, heq, -, -⟩ | ⟨-, h⟩ | ⟨c, rest, hgoes, h⟩
      · refine absurd ?_ hs
        rw [heq]
        exact List.mem_append_right _ List.mem_cons_self
      · rw [hread] at h
        obtain rfl := Option.some.inj h
        rw [← add_cutLine]
        exact .inr rfl
      · have hpos := List.length_pos_iff.mpr hgoes.nonempty
        have hlen := congrArg List.length hgoes.eq
        rw [List.length_append] at hlen
        rw [hread] at h
        obtain rfl := Option.some.inj h
        have hrest : lineFeed ∉ rest := fun hin => hs (by
          rw [hgoes.eq]
          exact List.mem_append_right _ hin)
        rw [if_pos rfl, add_cutLine, hgoes.eq, ← List.append_assoc]
        exact ih rest.length (by omega) hrest rfl

/-! ### The walk -/

/-- **However a file is chunked, the walk is a walk over its lines.** -/
theorem eachLine_eq {σ : Type*} (fn : σ → ℕ → GoString → Bool → σ × Bool) (size : ℕ) {max : ℕ}
    (hmax : 0 < max) (n : ℕ) (st : σ) (s : GoString) :
    eachLine fn size max n st s = walkLines fn max n st (textLines s) := by
  induction hn : s.length using Nat.strong_induction_on generalizing n st s with
  | _ k ih =>
    have hnil (n : ℕ) (st : σ) : eachLine fn size max n st [] = st := by
      rw [eachLine, gatherLine]
      rfl
    by_cases hmem : lineFeed ∈ s
    · obtain ⟨line, rest, heq, hline⟩ := List.eq_append_cons_of_mem hmem
      have hgather := @gatherLine_line size max [] line rest s hline heq
      rw [cutLine_nil, List.nil_append] at hgather
      have hlt := gatherLine_lt hgather
      rw [eachLine, heq, textLines_line hline, walkLines, ← heq]
      split
      case h_1 line' h =>
        rw [hgather] at h
        cases h
      case h_2 line' rest' h =>
        rw [hgather, Prod.mk.injEq, Option.some.injEq] at h
        obtain ⟨rfl, rfl⟩ := h
        split
        · exact ih _ (by omega) _ _ _ rfl
        · rfl
    · by_cases hne : s = []
      · rw [hne, hnil]
        rfl
      · have htext : (cutLine max s).text ≠ [] := by
          rw [cutLine, ne_eq, ← List.length_eq_zero_iff, List.length_take]
          have hpos := List.length_pos_iff.mpr hne
          omega
        have hgather := @gatherLine_open size max [] s hmem
        rw [cutLine_nil, List.nil_append] at hgather
        rw [eachLine, textLines_open hmem hne, walkLines]
        split
        case h_1 line h =>
          have hline : cutLine max s = line := by
            rcases hgather with hgather | hgather <;> rw [hgather, Prod.mk.injEq] at h
            · exact h.1
            · cases h.2
          rw [hline] at htext ⊢
          rw [if_pos htext]
          split
          case h_1 st' heq => rw [heq, walkLines]
          case h_2 st' heq => rw [heq]
        case h_2 line rest h =>
          have hboth : cutLine max s = line ∧ [] = rest := by
            rcases hgather with hgather | hgather <;> rw [hgather, Prod.mk.injEq] at h
            · cases h.2
            · exact ⟨h.1, Option.some.inj h.2⟩
          obtain ⟨rfl, rfl⟩ := hboth
          split
          · rw [hnil]
            rfl
          · rfl

end Beardrive
