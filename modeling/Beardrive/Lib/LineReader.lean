import Beardrive.Lib.GoString

/-!
# Reading lines through a buffer

A buffered reader hands out a text line by line. A line that does not fit into the buffer comes in
several chunks, and a chunk is never cut between a carriage return and a line feed. What the
chunks of a line come to does not depend on the size of the buffer. Nothing here refers to any
particular program.

## Main definitions

* `readLine` — one chunk, and what is left
* `textLines` — the lines of a text

## Main results

* `readLine_cases` — what a chunk is
* `textLines_line`, `textLines_open` — the lines of a text, from the front
-/

namespace Beardrive

/-- `\n`. -/
def lineFeed : UInt8 := 0x0A

/-- `\r`. -/
def carriageReturn : UInt8 := 0x0D

/-- A line without the carriage return in front of its end. -/
def dropCR (line : GoString) : GoString :=
  if line.getLast? = some carriageReturn then line.dropLast else line

/-- The lines of a text: what a line feed ends, and what is left behind the last one. -/
def textLines (s : GoString) : List GoString :=
  (s.splitOn lineFeed).dropLast.map dropCR ++
    (s.splitOn lineFeed).getLast?.toList.filter (· ≠ [])

/-! ### Chunks -/

/-- The size of the buffer: 16 bytes at least. -/
def bufSize (size : ℕ) : ℕ := max size 16

/-- What one read answers: bytes of a line, whether the line goes on, and what is left to read. -/
structure Chunk where
  line : GoString
  isPrefix : Bool
  rest : GoString

/-- `bufio.Reader.ReadLine`; nothing is left at the end. -/
def readLine (size : ℕ) (s : GoString) : Option Chunk :=
  let front := s.take (bufSize size)
  if s = [] then none
  else if lineFeed ∈ front then
    some ⟨dropCR (s.takeWhile (· ≠ lineFeed)), false, (s.dropWhile (· ≠ lineFeed)).tail⟩
  else if s.length < bufSize size then some ⟨s, false, []⟩
  -- a carriage return at the end of the buffer is put back: a line feed may follow
  else if front.getLast? = some carriageReturn then
    some ⟨front.dropLast, true, s.drop (bufSize size - 1)⟩
  else some ⟨front, true, s.drop (bufSize size)⟩

/-- A chunk that the line goes on behind: it holds no line feed, and the end of a line is not cut
in two. -/
structure Goes (s c rest : GoString) : Prop where
  eq : s = c ++ rest
  nonempty : c ≠ []
  no_lineFeed : lineFeed ∉ c
  whole : c.getLast? = some carriageReturn → ∀ t, rest ≠ lineFeed :: t

/-- **What a chunk is**: a whole line, all that is left, or the front of a line. -/
theorem readLine_cases (size : ℕ) {s : GoString} (hs : s ≠ []) :
    (∃ line rest, s = line ++ lineFeed :: rest ∧ lineFeed ∉ line ∧
        readLine size s = some ⟨dropCR line, false, rest⟩) ∨
      (lineFeed ∉ s ∧ readLine size s = some ⟨s, false, []⟩) ∨
        ∃ c rest, Goes s c rest ∧ readLine size s = some ⟨c, true, rest⟩ := by
  have hsize : 16 ≤ bufSize size := le_max_right _ _
  rw [readLine]
  simp only [if_neg hs]
  split
  case isTrue hmem =>
    obtain ⟨line, rest, heq, hline⟩ := List.eq_append_cons_of_mem (List.mem_of_mem_take hmem)
    refine .inl ⟨line, rest, heq, hline, ?_⟩
    rw [heq, takeWhile_ne_append hline, dropWhile_ne_append hline]
    rfl
  case isFalse hfront =>
    split
    case isTrue hlen =>
      rw [List.take_of_length_le hlen.le] at hfront
      exact .inr (.inl ⟨hfront, rfl⟩)
    case isFalse hlen =>
      have htake : (s.take (bufSize size)).length = bufSize size := by
        rw [List.length_take]
        omega
      split
      case isTrue hcr =>
        refine .inr (.inr ⟨_, _, ⟨?_, ?_, fun h => hfront (List.mem_of_mem_dropLast h), ?_⟩, rfl⟩)
        · rw [List.dropLast_eq_take, htake, List.take_take, min_eq_left (Nat.sub_le _ _),
            List.take_append_drop]
        · rw [ne_eq, ← List.length_eq_zero_iff, List.length_dropLast, htake]
          omega
        · rintro - t heq
          -- what is left starts with the carriage return
          have hhead : (s.drop (bufSize size - 1)).head? = some carriageReturn := by
            rw [List.head?_drop, ← hcr, List.getLast?_eq_getElem?, htake, List.getElem?_take,
              if_pos (by omega)]
          rw [heq, List.head?_cons] at hhead
          exact absurd (Option.some.inj hhead) (by decide)
      case isFalse hcr =>
        refine .inr (.inr ⟨_, _, ⟨(List.take_append_drop _ _).symm, ?_, hfront, ?_⟩, rfl⟩)
        · rw [ne_eq, ← List.length_eq_zero_iff, htake]
          omega
        · exact fun h => absurd h hcr

@[simp] theorem readLine_nil (size : ℕ) : readLine size [] = none := rfl

theorem readLine_lt {size : ℕ} {s : GoString} {chunk : Chunk}
    (h : readLine size s = some chunk) : chunk.rest.length < s.length := by
  have hs : s ≠ [] := by
    rintro rfl
    cases h
  rcases readLine_cases size hs with ⟨line, rest, heq, -, hread⟩ | ⟨-, hread⟩ |
    ⟨c, rest, hgoes, hread⟩
  · rw [hread] at h
    obtain rfl := Option.some.inj h
    rw [heq, List.length_append, List.length_cons]
    show rest.length < line.length + (rest.length + 1)
    omega
  · rw [hread] at h
    obtain rfl := Option.some.inj h
    exact List.length_pos_iff.mpr hs
  · rw [hread] at h
    obtain rfl := Option.some.inj h
    have hpos := List.length_pos_iff.mpr hgoes.nonempty
    rw [hgoes.eq, List.length_append]
    show rest.length < c.length + rest.length
    omega

/-! ### Lines -/

@[simp] theorem textLines_nil : textLines [] = [] := rfl

/-- The line in front. -/
theorem textLines_line {line : GoString} (h : lineFeed ∉ line) (rest : GoString) :
    textLines (line ++ lineFeed :: rest) = dropCR line :: textLines rest := by
  have hne := List.splitOn_ne_nil lineFeed rest
  rw [textLines, List.splitOn_append_cons_self, List.splitOn_eq_singleton h,
    List.singleton_append, List.dropLast_cons_of_ne_nil hne, List.getLast?_cons_of_ne_nil hne,
    List.map_cons]
  rfl

/-- What no line feed ends is the last line. -/
theorem textLines_open {s : GoString} (h : lineFeed ∉ s) (hs : s ≠ []) : textLines s = [s] := by
  rw [textLines, List.splitOn_eq_singleton h]
  simp [hs]

/-- A chunk goes to the line that follows it. -/
theorem dropCR_append {c line rest : GoString} (h : Goes (c ++ line ++ lineFeed :: rest) c
    (line ++ lineFeed :: rest)) : dropCR (c ++ line) = c ++ dropCR line := by
  cases line using List.reverseRecOn with
  | nil =>
    rw [List.append_nil, dropCR, if_neg fun hcr => h.whole hcr rest rfl]
    exact (List.append_nil c).symm
  | append_singleton init b =>
    rw [dropCR, dropCR, ← List.append_assoc, List.getLast?_concat, List.getLast?_concat,
      List.dropLast_concat, List.dropLast_concat]
    split <;> simp

end Beardrive
