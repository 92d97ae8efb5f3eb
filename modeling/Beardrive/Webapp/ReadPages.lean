import Beardrive.Webapp.ScanBlob

/-!
# Paging through a file

A read of a text file answers a window of its lines: as many as the caller asked for, or as fit
into a bounded number of bytes, and then the offset to read on from. A line beyond the bound for
one line is cut, and the answer says so. The walk counts every line of the file.

## The sum of an offset and a limit

The number of the last line asked for is an offset plus a limit, in 64 bits. The first page starts
at line one, and no limit is too large for it. A page behind it is asked for with the same limit,
and then the sum may wrap around: no line is that small, the page is empty, and the offset that it
names is the one it was asked for.

## Main definitions

* `readText` — the read of a text file
* `PagesThrough` — following the offsets shows every line once
* `resumes` — the lines at which pages begin that only their bytes bound

## Main results

* `readText_page` — what a page is
* `pages_through_iff` — following the offsets works exactly when they fit with the limit
-/

namespace Beardrive

/-! ### Reading -/

/-- How much of a file is paged through. -/
def maxReadScan : ℕ := 64 <<< 20

/-- How much of one line is shown. -/
def maxLineShown : ℕ := 4 <<< 10

/-- How many lines are shown when the caller does not say. -/
def defaultReadLines : ℤ := 2000

/-- What stands behind a line that was cut. -/
def truncatedMark : GoString := ellipsis ++ ascii " [line truncated]"

/-- What a read holds between two lines. -/
structure PageScan where
  window : List GoString := []
  total : ℕ := 0
  scanned : ℕ := 0
  capped : Bool := false
  windowBytes : ℕ := 0
  cutLines : List ℕ := []

/-- The callback of the walk: lines are counted, and those from `start` to `last` are shown while
there is room. -/
def PageScan.line (start : ℕ) (last : ℤ) (s : PageScan) (n : ℕ) (line : GoString) (cut : Bool) :
    PageScan × Bool :=
  let s := { s with total := n, scanned := s.scanned + line.length + 1 }
  if maxReadScan < s.scanned then ({ s with capped := true }, false)
  else if start ≤ n ∧ n ≤ last ∧ s.windowBytes < maxReadBytes then
    let s := if cut then { s with cutLines := s.cutLines ++ [n] } else s
    let line := if cut then line ++ truncatedMark else line
    ({ s with windowBytes := s.windowBytes + line.length + 1, window := s.window ++ [line] }, true)
  else (s, true)

/-- The offset to read on from, how many lines are left, and, if the bytes bounded the page, how
many they were. -/
structure ReadMore where
  bytes : Option ℕ
  left : ℕ
  offset : ℕ
  deriving DecidableEq

/-- How many of the lines shown were cut, and the first of them. -/
def cutReport : List ℕ → Option (ℕ × ℕ)
  | [] => none
  | n :: cut => some (cut.length + 1, n)

/-- What a read answers. -/
inductive ReadAnswer where
  | binary
  /-- The file is too large to page through. -/
  | tooLarge
  | empty
  | pastEnd (total start : ℕ)
  | page (total : ℕ) (lines : List (ℕ × GoString)) (cut : Option (ℕ × ℕ)) (more : Option ReadMore)
  deriving DecidableEq

/-- What is answered at the end of the walk. -/
def PageScan.answer (s : PageScan) (start : ℕ) : ReadAnswer :=
  if s.capped then .tooLarge
  else if s.total = 0 then .empty
  else if s.total < start then .pastEnd s.total start
  else
    let shown := start + s.window.length - 1
    .page s.total ((s.window.zipIdx start).map fun e => (e.2, e.1)) (cutReport s.cutLines)
      (if shown < s.total then
        some ⟨if maxReadBytes ≤ s.windowBytes then some s.windowBytes else none,
          s.total - shown, shown + 1⟩
      else none)

/-- How many lines are asked for. -/
def readLimit (limit : ℤ) : ℤ := if limit ≤ 0 then defaultReadLines else limit

/-- The number of the last line asked for. The sum wraps around. -/
def lastAsked (start : ℕ) (limit : ℤ) : ℤ := (start + readLimit limit - 1).bmod (2 ^ 64)

/-- `mcpRead`, from the content of the file on. -/
def readText (text : GoString) (offset limit : ℤ) : ReadAnswer :=
  if isBinary text then .binary
  else
    let start := if offset < 1 then 1 else offset.toNat
    (eachLine (PageScan.line start (lastAsked start limit)) (64 <<< 10) maxLineShown 1 {}
      text).answer start

/-- The lines that an answer shows, with their numbers. -/
def ReadAnswer.lines : ReadAnswer → List (ℕ × GoString)
  | .page _ lines _ _ => lines
  | _ => []

/-- What an answer says about cut lines. -/
def ReadAnswer.cut : ReadAnswer → Option (ℕ × ℕ)
  | .page _ _ cut _ => cut
  | _ => none

/-- The offset that an answer names. -/
def ReadAnswer.next : ReadAnswer → Option ℕ
  | .page _ _ _ more => more.map (·.offset)
  | _ => none

/-! ### Following the offsets -/

/-- The answers to the reads that follow the offsets named, until none is. -/
inductive PageRun (text : GoString) (limit : ℤ) : ℕ → List (ℕ × ReadAnswer) → Prop where
  | done {offset : ℕ} (h : (readText text offset limit).next = none) :
      PageRun text limit offset [(offset, readText text offset limit)]
  | more {offset next : ℕ} {rest : List (ℕ × ReadAnswer)}
      (h : (readText text offset limit).next = some next) (hrest : PageRun text limit next rest) :
      PageRun text limit offset ((offset, readText text offset limit) :: rest)

/-- A line as it is shown. -/
def shownLine (line : GoString) : GoString :=
  if maxLineShown < line.length then line.take maxLineShown ++ truncatedMark else line

/-- Whether a line of a text is longer than what is shown of one. -/
def longAt (text : GoString) (n : ℕ) : Bool :=
  (textLines text)[n - 1]?.any fun line => maxLineShown < line.length

/-- **What paging is for**: following the offsets from line one ends; it shows every line once, in
order and under its number; every answer tells which of its lines were cut; and every answer that
names an offset shows a line and names a later one. -/
def PagesThrough (text : GoString) (limit : ℤ) : Prop :=
  ∃ answers, PageRun text limit 1 answers ∧
    answers.flatMap (fun a => a.2.lines) =
      ((textLines text).zipIdx 1).map (fun e => (e.2, shownLine e.1)) ∧
    ∀ a ∈ answers, a.2.cut = cutReport ((a.2.lines.map Prod.fst).filter (longAt text)) ∧
      ∀ next, a.2.next = some next → a.2.lines ≠ [] ∧ a.1 < next

/-- The size of a line in a page. -/
def lineBytes (line : GoString) : ℕ := (shownLine line).length + 1

/-- How many lines a page takes, when it holds some bytes and has room for some lines. -/
def pageTake : ℕ → ℕ → List ℕ → ℕ
  | _, 0, _ => 0
  | _, _, [] => 0
  | bytes, room + 1, size :: sizes =>
    if bytes < maxReadBytes then pageTake (bytes + size) room sizes + 1 else 0

/-- The lines at which a page begins, from line `n` on, in the middle of a page. -/
def pageStarts : ℕ → ℕ → List ℕ → List ℕ
  | _, _, [] => []
  | n, bytes, size :: sizes =>
    if bytes < maxReadBytes then pageStarts (n + 1) (bytes + size) sizes
    else n :: pageStarts (n + 1) size sizes

/-- The lines at which a page behind the first begins, if only its bytes bound it. -/
def resumes (text : GoString) : List ℕ := pageStarts 1 0 ((textLines text).map lineBytes)

/-- How much of a file the bound for paging counts. -/
def scanBytes (text : GoString) : ℕ :=
  ((textLines text).map fun line => (line.take maxLineShown).length + 1).sum

/-! ### Pages of sizes -/

theorem pageTake_le (bytes room : ℕ) (sizes : List ℕ) :
    pageTake bytes room sizes ≤ room ∧ pageTake bytes room sizes ≤ sizes.length := by
  induction sizes generalizing bytes room with
  | nil => cases room <;> exact ⟨Nat.zero_le _, Nat.zero_le _⟩
  | cons size sizes ih =>
    cases room with
    | zero => exact ⟨Nat.zero_le _, Nat.zero_le _⟩
    | succ room =>
      rw [pageTake, List.length_cons]
      split
      · have hle := ih (bytes + size) room
        omega
      · omega

/-- A page shows a line if there is one. -/
theorem pageTake_pos {room : ℕ} (hroom : 0 < room) {sizes : List ℕ} (hne : sizes ≠ []) :
    0 < pageTake 0 room sizes := by
  obtain ⟨size, sizes, rfl⟩ := List.exists_cons_of_ne_nil hne
  obtain ⟨room, rfl⟩ := Nat.exists_eq_succ_of_ne_zero hroom.ne'
  rw [pageTake, if_pos (by decide)]
  exact Nat.succ_pos _

/-- Room for more lines than there are bounds nothing. -/
theorem pageTake_room {room : ℕ} (bytes : ℕ) {sizes : List ℕ} (h : sizes.length ≤ room) :
    pageTake bytes room sizes = pageTake bytes sizes.length sizes := by
  induction sizes generalizing bytes room with
  | nil => cases room <;> rfl
  | cons size sizes ih =>
    rw [List.length_cons] at h
    obtain ⟨room, rfl⟩ := Nat.exists_eq_succ_of_ne_zero (show room ≠ 0 by omega)
    rw [List.length_cons, pageTake, pageTake, ih (bytes + size) (by omega)]

/-- No page has room for nothing. -/
@[simp] theorem pageTake_zero (bytes : ℕ) (sizes : List ℕ) : pageTake bytes 0 sizes = 0 := by
  cases sizes <;> rfl

/-- A page that is full stays full. -/
theorem pageTake_full {bytes : ℕ} (h : ¬ bytes < maxReadBytes) (room : ℕ) (sizes : List ℕ) :
    pageTake bytes room sizes = 0 := by
  cases room with
  | zero => exact pageTake_zero bytes sizes
  | succ room =>
    cases sizes with
    | nil => rfl
    | cons size sizes => rw [pageTake, if_neg h]

/-- **The pages that only their bytes bound** begin where the page before them ends. -/
theorem pageStarts_eq (n bytes : ℕ) (sizes : List ℕ) :
    pageStarts n bytes sizes =
      let k := pageTake bytes sizes.length sizes
      if k < sizes.length then (n + k) :: pageStarts (n + k) 0 (sizes.drop k) else [] := by
  induction sizes generalizing n bytes with
  | nil => rfl
  | cons size sizes ih =>
    rw [pageStarts, List.length_cons, pageTake]
    dsimp only
    by_cases hroom : bytes < maxReadBytes
    · rw [if_pos hroom, if_pos hroom, ih, List.drop_succ_cons]
      simp only [Nat.add_lt_add_iff_right, Nat.add_assoc, Nat.add_comm 1]
    · rw [if_neg hroom, if_neg hroom, if_pos (Nat.succ_pos _), List.drop_zero]
      have hsize : pageStarts n 0 (size :: sizes) = pageStarts (n + 1) size sizes := by
        rw [pageStarts, if_pos (by decide), Nat.zero_add]
      exact congrArg (n :: ·) hsize.symm

theorem le_of_mem_pageStarts {n bytes r : ℕ} {sizes : List ℕ} (h : r ∈ pageStarts n bytes sizes) :
    r < n + sizes.length := by
  induction sizes generalizing n bytes with
  | nil => cases h
  | cons size sizes ih =>
    rw [pageStarts] at h
    rw [List.length_cons]
    split at h
    · have hlt := ih h
      omega
    · rcases List.mem_cons.mp h with rfl | h
      · omega
      · have hlt := ih h
        omega

/-! ### What a read shows -/

theorem PageScan.line_eq {start : ℕ} {last : ℤ} {s : PageScan} {line : GoString}
    (h : s.scanned + (line.take maxLineShown).length + 1 ≤ maxReadScan) (n : ℕ) :
    s.line start last n (cutLine maxLineShown line).text (cutLine maxLineShown line).truncated =
      (if start ≤ n ∧ n ≤ last ∧ s.windowBytes < maxReadBytes then
        { s with
          total := n, scanned := s.scanned + (line.take maxLineShown).length + 1
          cutLines := s.cutLines ++ if maxLineShown < line.length then [n] else []
          windowBytes := s.windowBytes + lineBytes line, window := s.window ++ [shownLine line] }
      else { s with total := n, scanned := s.scanned + (line.take maxLineShown).length + 1 },
      true) := by
  rw [PageScan.line]
  refine (if_neg (Nat.not_lt.mpr h)).trans ?_
  by_cases hshow : start ≤ n ∧ (n : ℤ) ≤ last ∧ s.windowBytes < maxReadBytes
  · rw [if_pos hshow, if_pos hshow]
    by_cases hlong : maxLineShown < line.length
    · simp only [cutLine, lineBytes, shownLine, hlong, decide_true, if_true, Nat.add_assoc]
    · simp only [cutLine, lineBytes, shownLine, hlong, decide_false, Bool.false_eq_true, if_false,
        List.append_nil, Nat.add_assoc, List.take_of_length_le (Nat.not_lt.mp hlong)]
  · rw [if_neg hshow, if_neg hshow]
    rfl

/-- **What the walk comes to**, from line `n` on: every line is counted, and the page takes what it
has room for. -/
theorem PageScan.walk (start : ℕ) (last : ℤ) (lines : List GoString) (n : ℕ) (s : PageScan)
    (hcap : s.capped = false) (hscan : s.scanned +
      (lines.map fun line => (line.take maxLineShown).length + 1).sum ≤ maxReadScan) :
    let t := walkLines (PageScan.line start last) maxLineShown n s lines
    let ls := lines.drop (start - n)
    let k := pageTake s.windowBytes (last + 1 - max n start).toNat (ls.map lineBytes)
    t.capped = false ∧ (t.total = if lines = [] then s.total else n + lines.length - 1) ∧
      t.window = s.window ++ (ls.take k).map shownLine ∧
      t.cutLines = s.cutLines ++ (((ls.take k).zipIdx (max n start)).filter fun e =>
        maxLineShown < e.1.length).map Prod.snd := by
  induction lines generalizing n s with
  | nil => simp [walkLines, hcap]
  | cons line lines ih =>
    rw [List.map_cons, List.sum_cons] at hscan
    have hfits : s.scanned + (line.take maxLineShown).length + 1 ≤ maxReadScan := by omega
    have htotal : (if lines = [] then n else n + 1 + lines.length - 1) =
        n + (lines.length + 1) - 1 := by
      split
      case isTrue h => rw [h, List.length_nil]; omega
      case isFalse => omega
    dsimp only
    rw [walkLines, PageScan.line_eq hfits, if_neg (List.cons_ne_nil _ _), List.length_cons,
      ← htotal]
    dsimp only
    by_cases hstart : start ≤ n
    · have hdrop : start - n = 0 := by omega
      have hdrop' : start - (n + 1) = 0 := by omega
      have hmax : max n start = n := by omega
      have hmax' : max (n + 1) start = n + 1 := by omega
      rw [hdrop, List.drop_zero, hmax, List.map_cons]
      by_cases htake : n ≤ last ∧ s.windowBytes < maxReadBytes
      · rw [if_pos ⟨hstart, htake⟩]
        obtain ⟨h1, h2, h3, h4⟩ := ih (n + 1) { s with
          total := n, scanned := s.scanned + (line.take maxLineShown).length + 1
          cutLines := s.cutLines ++ if maxLineShown < line.length then [n] else []
          windowBytes := s.windowBytes + lineBytes line, window := s.window ++ [shownLine line] }
          hcap (by dsimp only; omega)
        have hroom : (last + 1 - (n : ℤ)).toNat = (last + 1 - ((n + 1 : ℕ) : ℤ)).toNat + 1 := by
          omega
        rw [hdrop', List.drop_zero, hmax'] at h3 h4
        rw [hroom, pageTake, if_pos htake.2, List.take_succ_cons, List.map_cons, List.zipIdx_cons,
          List.filter_cons]
        refine ⟨h1, h2, by rw [h3, List.append_assoc]; rfl, ?_⟩
        rw [h4, List.append_assoc]
        congr 1
        by_cases hlong : maxLineShown < line.length
        · simp [hlong]
        · simp [hlong]
      · rw [if_neg fun h => htake h.2]
        obtain ⟨h1, h2, h3, h4⟩ := ih (n + 1) { s with
          total := n, scanned := s.scanned + (line.take maxLineShown).length + 1 }
          hcap (by dsimp only; omega)
        -- past the last line, or past the bytes, it stays that way
        have hnone : pageTake s.windowBytes (last + 1 - (n : ℤ)).toNat
            (lineBytes line :: lines.map lineBytes) = 0 := by
          rcases not_and_or.mp htake with hlast | hbytes
          · rw [show (last + 1 - (n : ℤ)).toNat = 0 by omega, pageTake_zero]
          · exact pageTake_full hbytes _ _
        have hnone' : pageTake s.windowBytes (last + 1 - ((n + 1 : ℕ) : ℤ)).toNat
            (lines.map lineBytes) = 0 := by
          rcases not_and_or.mp htake with hlast | hbytes
          · rw [show (last + 1 - ((n + 1 : ℕ) : ℤ)).toNat = 0 by omega, pageTake_zero]
          · exact pageTake_full hbytes _ _
        rw [hdrop', List.drop_zero, hmax', hnone'] at h3 h4
        rw [hnone]
        exact ⟨h1, h2, h3, h4⟩
    · rw [if_neg fun h => hstart h.1]
      obtain ⟨h1, h2, h3, h4⟩ := ih (n + 1) { s with
        total := n, scanned := s.scanned + (line.take maxLineShown).length + 1 }
        hcap (by dsimp only; omega)
      have hdrop : start - n = start - (n + 1) + 1 := by omega
      have hmax : max n start = start := by omega
      have hmax' : max (n + 1) start = start := by omega
      rw [hmax'] at h3 h4
      rw [hdrop, List.drop_succ_cons, hmax]
      exact ⟨h1, h2, h3, h4⟩

section

variable {text : GoString} {limit : ℤ}

/-- The room that a page has for lines. -/
def pageRoom (a : ℕ) (limit : ℤ) : ℕ := (lastAsked a limit + 1 - a).toNat

/-- The lines from one on. -/
def linesFrom (text : GoString) (a : ℕ) : List GoString := (textLines text).drop (a - 1)

/-- How many lines a page shows. -/
def pageLength (text : GoString) (a : ℕ) (limit : ℤ) : ℕ :=
  pageTake 0 (pageRoom a limit) ((linesFrom text a).map lineBytes)

theorem pageLength_le (text : GoString) (a : ℕ) (limit : ℤ) :
    pageLength text a limit ≤ (linesFrom text a).length := by
  have hle := (pageTake_le 0 (pageRoom a limit) ((linesFrom text a).map lineBytes)).2
  rwa [List.length_map] at hle

/-- The lines that a page shows, with their numbers. -/
def pageRows (text : GoString) (a : ℕ) (limit : ℤ) : List (GoString × ℕ) :=
  ((linesFrom text a).take (pageLength text a limit)).zipIdx a

/-- **What a page is**: the lines from the offset on that it takes, which of them are cut, and
where the page behind it begins. -/
theorem readText_page (hbinary : isBinary text = false) (hscan : scanBytes text ≤ maxReadScan)
    {a : ℕ} (ha : 1 ≤ a) (hle : a ≤ (textLines text).length) : ∃ bytes left,
    readText text a limit = .page (textLines text).length
      ((pageRows text a limit).map fun e => (e.2, shownLine e.1))
      (cutReport (((pageRows text a limit).filter fun e =>
        maxLineShown < e.1.length).map Prod.snd))
      (if a + pageLength text a limit ≤ (textLines text).length then
        some ⟨bytes, left, a + pageLength text a limit⟩ else none) := by
  have hstart : (if (a : ℤ) < 1 then 1 else (a : ℤ).toNat) = a := by
    rw [if_neg (by omega), Int.toNat_natCast]
  have hne : textLines text ≠ [] := by
    rw [ne_eq, ← List.length_eq_zero_iff]
    omega
  have hlen : (((linesFrom text a).take (pageLength text a limit)).map shownLine).length =
      pageLength text a limit := by
    rw [List.length_map, List.length_take, min_eq_left (pageLength_le text a limit)]
  have hwalk := PageScan.walk a (lastAsked a limit) (textLines text) 1 {} rfl
    (by rw [Nat.zero_add]; exact hscan)
  rw [if_neg hne, show max 1 a = a by omega] at hwalk
  obtain ⟨hcap, htotal, hwindow, hcut⟩ := hwalk
  replace hwindow : _ = ((linesFrom text a).take (pageLength text a limit)).map shownLine := hwindow
  replace hcut : _ = ((pageRows text a limit).filter fun e =>
    maxLineShown < e.1.length).map Prod.snd := hcut
  rw [readText, hbinary, if_neg Bool.false_ne_true, hstart]
  dsimp only
  rw [eachLine_eq _ _ (by decide), PageScan.answer, hcap, if_neg Bool.false_ne_true,
    if_neg (by omega), if_neg (by omega)]
  dsimp only
  rw [hwindow, hcut, hlen, htotal, List.zipIdx_map, List.map_map]
  by_cases hmore : a + pageLength text a limit ≤ (textLines text).length
  · rw [if_pos (by omega), show 1 + (textLines text).length - 1 = (textLines text).length by omega,
      show a + pageLength text a limit - 1 + 1 = a + pageLength text a limit by omega]
    simp only [if_pos hmore]
    exact ⟨_, _, rfl⟩
  · rw [if_neg (by omega), show 1 + (textLines text).length - 1 = (textLines text).length by omega]
    refine ⟨none, 0, ?_⟩
    rw [if_neg hmore]
    rfl

/-- Which lines of a page are cut, from their numbers. -/
theorem pageRows_long {a : ℕ} (ha : 1 ≤ a) :
    ((pageRows text a limit).filter fun e => maxLineShown < e.1.length).map Prod.snd =
      (((pageRows text a limit).map fun e => (e.2, shownLine e.1)).map Prod.fst).filter
        (longAt text) := by
  rw [List.map_map, List.filter_map]
  congr 1
  refine List.filter_congr fun e he => ?_
  obtain ⟨hle, hget⟩ := List.mk_mem_zipIdx_iff_le_and_getElem?_sub.mp he
  have hline : (textLines text)[e.2 - 1]? = some e.1 := by
    rw [List.getElem?_take] at hget
    split at hget
    · rw [linesFrom, List.getElem?_drop] at hget
      rwa [show e.2 - 1 = a - 1 + (e.2 - a) by omega]
    · cases hget
  show _ = longAt text e.2
  rw [longAt, hline]
  rfl

/-- Whether the sum of an offset and the limit fits. -/
def Fits (limit : ℤ) (a : ℕ) : Prop := (a : ℤ) + readLimit limit ≤ 2 ^ 63

theorem one_le_readLimit (limit : ℤ) : 1 ≤ readLimit limit := by
  rw [readLimit, defaultReadLines]
  split <;> omega

/-- Where the sum fits, the room of a page is the limit. -/
theorem pageRoom_of_fits {a : ℕ} (h : Fits limit a) :
    pageRoom a limit = (readLimit limit).toNat := by
  have hone := one_le_readLimit limit
  rw [Fits] at h
  rw [pageRoom, lastAsked, Int.bmod_eq_of_le (by omega) (by omega)]
  omega

/-- **Where the sum wraps around, a page has no room.** -/
theorem pageRoom_of_not_fits {a : ℕ} (h : ¬ Fits limit a) (hle : a ≤ maxReadScan)
    (hlimit : limit < 2 ^ 63) : pageRoom a limit = 0 := by
  have hscan : maxReadScan = 67108864 := rfl
  have hread : readLimit limit < 2 ^ 63 := by
    rw [readLimit, defaultReadLines]
    split <;> omega
  have hwrap : ((a : ℤ) + readLimit limit - 1).bmod (2 ^ 64) =
      (a : ℤ) + readLimit limit - 1 - 2 ^ 64 := by
    rw [Fits] at h
    rw [← Int.sub_bmod_right, Int.bmod_eq_of_le (by omega) (by omega)]
    rfl
  rw [pageRoom, lastAsked, hwrap]
  omega

theorem length_le_scanBytes (text : GoString) : (textLines text).length ≤ scanBytes text := by
  rw [scanBytes]
  induction textLines text with
  | nil => exact Nat.zero_le _
  | cons line lines ih =>
    rw [List.map_cons, List.sum_cons, List.length_cons]
    omega

/-! ### Following the offsets -/

/-- **One page**, asked for at a line of the file: what it shows and names. -/
structure PageAt (text : GoString) (limit : ℤ) (a : ℕ) : Prop where
  lines : (readText text a limit).lines =
    (pageRows text a limit).map fun e => (e.2, shownLine e.1)
  cut : (readText text a limit).cut =
    cutReport (((readText text a limit).lines.map Prod.fst).filter (longAt text))
  next : (readText text a limit).next =
    if a + pageLength text a limit ≤ (textLines text).length then
      some (a + pageLength text a limit) else none

theorem pageAt (hbinary : isBinary text = false) (hscan : scanBytes text ≤ maxReadScan) {a : ℕ}
    (ha : 1 ≤ a) (hle : a ≤ (textLines text).length) : PageAt text limit a := by
  obtain ⟨bytes, left, hpage⟩ := @readText_page text limit hbinary hscan a ha hle
  have hlines : (readText text a limit).lines =
      (pageRows text a limit).map fun e => (e.2, shownLine e.1) := by
    rw [hpage]
    rfl
  refine ⟨hlines, ?_, ?_⟩
  · rw [hlines, ← pageRows_long ha, hpage]
    rfl
  · rw [hpage]
    by_cases hmore : a + pageLength text a limit ≤ (textLines text).length
    · rw [if_pos hmore, if_pos hmore]
      rfl
    · rw [if_neg hmore, if_neg hmore]
      rfl

/-- The offsets of pages that only their bytes bound, from one on. -/
def resumesFrom (text : GoString) (a : ℕ) : List ℕ :=
  pageStarts a 0 ((linesFrom text a).map lineBytes)

theorem linesFrom_ne_nil {a : ℕ} (ha : 1 ≤ a) (hle : a ≤ (textLines text).length) :
    linesFrom text a ≠ [] := by
  rw [linesFrom, ne_eq, ← List.length_eq_zero_iff, List.length_drop]
  omega

/-- Where the limit does not bound a page, the page behind it begins where its bytes end it. -/
theorem resumesFrom_eq {a : ℕ} (ha : 1 ≤ a) (hle : a ≤ (textLines text).length)
    (hroom : (linesFrom text a).length ≤ pageRoom a limit) :
    resumesFrom text a = if a + pageLength text a limit ≤ (textLines text).length then
      (a + pageLength text a limit) :: resumesFrom text (a + pageLength text a limit) else [] := by
  have hlen : (linesFrom text a).length = (textLines text).length - (a - 1) := List.length_drop
  have htake : pageTake 0 ((linesFrom text a).map lineBytes).length
      ((linesFrom text a).map lineBytes) = pageLength text a limit := by
    rw [pageLength, @pageTake_room (pageRoom a limit) 0 _ (by rwa [List.length_map])]
  rw [resumesFrom, pageStarts_eq]
  dsimp only
  rw [htake, List.length_map, hlen, resumesFrom, linesFrom, linesFrom, ← List.map_drop,
    List.drop_drop, show a + pageLength text a limit - 1 = a - 1 + pageLength text a limit by omega]
  by_cases hmore : a + pageLength text a limit ≤ (textLines text).length
  · rw [if_pos (by omega), if_pos hmore]
  · rw [if_neg (by omega), if_neg hmore]

/-- Where the sum fits for every line, it fits for every page; where it does not, no limit bounds
a page. -/
theorem fits_or_room (hscan : scanBytes text ≤ maxReadScan) :
    (∀ a ≤ (textLines text).length, Fits limit a) ∨
      ∀ a, 1 ≤ a → a ≤ (textLines text).length → Fits limit a →
        (linesFrom text a).length ≤ pageRoom a limit := by
  have hbound : maxReadScan = 67108864 := rfl
  have hlines := length_le_scanBytes text
  by_cases hall : Fits limit (textLines text).length
  · refine .inl fun a ha => ?_
    rw [Fits] at hall ⊢
    omega
  · refine .inr fun a ha hle hfits => ?_
    rw [pageRoom_of_fits hfits, linesFrom, List.length_drop]
    rw [Fits] at hall
    omega

/-- **Where the sums fit, the pages go through to the end.** -/
theorem exists_pageRun (hbinary : isBinary text = false) (hscan : scanBytes text ≤ maxReadScan)
    {a : ℕ} (ha : 1 ≤ a) (hle : a ≤ (textLines text).length)
    (hfits : Fits limit a) (hresumes : ∀ r ∈ resumesFrom text a, Fits limit r) :
    ∃ answers, PageRun text limit a answers ∧
      answers.flatMap (fun ans => ans.2.lines) =
        ((linesFrom text a).zipIdx a).map (fun e => (e.2, shownLine e.1)) ∧
      ∀ ans ∈ answers, ans.2.cut = cutReport ((ans.2.lines.map Prod.fst).filter (longAt text)) ∧
        ∀ next, ans.2.next = some next → ans.2.lines ≠ [] ∧ ans.1 < next := by
  induction hm : (textLines text).length - a using Nat.strong_induction_on generalizing a with
  | _ m ih =>
    have hpage : PageAt text limit a := pageAt hbinary hscan ha hle
    have hlen : (linesFrom text a).length = (textLines text).length - (a - 1) := List.length_drop
    have hscan' := length_le_scanBytes text
    have hroom : 0 < pageRoom a limit := by
      have hone := one_le_readLimit limit
      rw [pageRoom_of_fits hfits]
      omega
    have hpos : 0 < pageLength text a limit :=
      pageTake_pos hroom fun h => linesFrom_ne_nil ha hle (List.map_eq_nil_iff.mp h)
    have hshown : (readText text a limit).lines ≠ [] := by
      have hle' := pageLength_le text a limit
      rw [hpage.lines, ne_eq, List.map_eq_nil_iff, pageRows, ← List.length_eq_zero_iff,
        List.length_zipIdx, List.length_take]
      omega
    by_cases hmore : a + pageLength text a limit ≤ (textLines text).length
    · have hnext := hpage.next
      rw [if_pos hmore] at hnext
      have hrest : Fits limit (a + pageLength text a limit) ∧
          ∀ r ∈ resumesFrom text (a + pageLength text a limit), Fits limit r := by
        rcases fits_or_room hscan with hall | hwide
        · refine ⟨hall _ hmore, fun r hr => hall r ?_⟩
          have hlt := le_of_mem_pageStarts hr
          rw [List.length_map, linesFrom, List.length_drop] at hlt
          omega
        · rw [resumesFrom_eq ha hle (hwide a ha hle hfits), if_pos hmore] at hresumes
          exact ⟨hresumes _ List.mem_cons_self, fun r hr => hresumes r (List.mem_cons_of_mem _ hr)⟩
      obtain ⟨answers, hrun, hlines, hall⟩ :=
        ih _ (by omega) (by omega) hmore hrest.1 hrest.2 rfl
      refine ⟨_, .more hnext hrun, ?_, fun ans hans => ?_⟩
      · have hsplit : (pageRows text a limit) ++
            (linesFrom text (a + pageLength text a limit)).zipIdx (a + pageLength text a limit) =
              (linesFrom text a).zipIdx a := by
          have htake : ((linesFrom text a).take (pageLength text a limit)).length =
              pageLength text a limit := by
            rw [List.length_take, min_eq_left (pageLength_le text a limit)]
          have hdrop : linesFrom text (a + pageLength text a limit) =
              (linesFrom text a).drop (pageLength text a limit) := by
            rw [linesFrom, linesFrom, List.drop_drop, show a + pageLength text a limit - 1 =
              a - 1 + pageLength text a limit by omega]
          have happend := @List.zipIdx_append _ ((linesFrom text a).take (pageLength text a limit))
            ((linesFrom text a).drop (pageLength text a limit)) a
          rw [List.take_append_drop, htake] at happend
          rw [pageRows, hdrop, happend]
        rw [List.flatMap_cons, hlines, hpage.lines, ← List.map_append, hsplit]
      · rcases List.mem_cons.mp hans with rfl | hans
        · refine ⟨hpage.cut, fun next h => ⟨hshown, ?_⟩⟩
          rw [hnext] at h
          obtain rfl := Option.some.inj h
          show a < a + pageLength text a limit
          omega
        · exact hall ans hans
    · have hnext := hpage.next
      rw [if_neg hmore] at hnext
      refine ⟨_, .done hnext, ?_, fun ans hans => ?_⟩
      · have htake : (linesFrom text a).take (pageLength text a limit) = linesFrom text a :=
          List.take_of_length_le (by omega)
        rw [List.flatMap_singleton, hpage.lines, pageRows, htake]
      · rw [List.mem_singleton.mp hans]
        refine ⟨hpage.cut, fun next h => ?_⟩
        rw [hnext] at h
        cases h

/-- **Where a sum wraps around, the page names itself**, and following it has no end. -/
theorem PageRun.fits (hbinary : isBinary text = false) (hscan : scanBytes text ≤ maxReadScan)
    (hlimit : limit < 2 ^ 63) {a : ℕ} {answers : List (ℕ × ReadAnswer)}
    (h : PageRun text limit a answers) (ha : 1 ≤ a) (hle : a ≤ (textLines text).length) :
    Fits limit a := by
  by_contra hnot
  have hnext : (readText text a limit).next = some a := by
    have hpage : PageAt text limit a := pageAt hbinary hscan ha hle
    have hscan' := length_le_scanBytes text
    have hzero : pageLength text a limit = 0 := by
      rw [pageLength, pageRoom_of_not_fits hnot (by omega) hlimit, pageTake_zero]
    rw [hpage.next, hzero, Nat.add_zero, if_pos hle]
  induction h with
  | done hdone =>
    rw [hnext] at hdone
    cases hdone
  | more hmore _ ih =>
    rw [hnext] at hmore
    obtain rfl := Option.some.inj hmore
    exact ih ha hle hnot hnext

/-- A run of pages has gone through all that only their bytes bound. -/
theorem PageRun.resumes_fit (hbinary : isBinary text = false)
    (hscan : scanBytes text ≤ maxReadScan) (hlimit : limit < 2 ^ 63) {a : ℕ}
    {answers : List (ℕ × ReadAnswer)} (h : PageRun text limit a answers) (ha : 1 ≤ a)
    (hle : a ≤ (textLines text).length) : ∀ r ∈ resumesFrom text a, Fits limit r := by
  rcases fits_or_room hscan with hall | hwide
  · intro r hr
    have hlt := le_of_mem_pageStarts hr
    rw [List.length_map, linesFrom, List.length_drop] at hlt
    exact hall r (by omega)
  · induction h with
    | @done a hdone =>
      have hpage : PageAt text limit a := pageAt hbinary hscan ha hle
      have hfits := (PageRun.done hdone).fits hbinary hscan hlimit ha hle
      rw [resumesFrom_eq ha hle (hwide a ha hle hfits)]
      rw [hpage.next] at hdone
      split at hdone
      · cases hdone
      case isFalse hmore =>
        rw [if_neg hmore]
        exact nofun
    | @more a next rest hmore hrest ih =>
      have hpage : PageAt text limit a := pageAt hbinary hscan ha hle
      have hfits := (PageRun.more hmore hrest).fits hbinary hscan hlimit ha hle
      rw [resumesFrom_eq ha hle (hwide a ha hle hfits)]
      rw [hpage.next] at hmore
      split at hmore
      case isTrue hle' =>
        obtain rfl := Option.some.inj hmore
        rw [if_pos hle']
        intro r hr
        rcases List.mem_cons.mp hr with rfl | hr
        · exact hrest.fits hbinary hscan hlimit (by omega) hle'
        · exact ih (by omega) hle' r hr
      case isFalse => cases hmore

/-- **Following the offsets reaches every line once** exactly when the offsets fit with the
limit. -/
theorem pages_through_iff (hbinary : isBinary text = false) (hscan : scanBytes text ≤ maxReadScan)
    (hlimit : limit < 2 ^ 63) : PagesThrough text limit ↔
      (0 < limit → ∀ r ∈ resumes text, (r : ℤ) + limit ≤ 2 ^ 63) := by
  have hbound : maxReadScan = 67108864 := rfl
  have hscan' := length_le_scanBytes text
  have hresumes : resumes text = resumesFrom text 1 := rfl
  have hfits : (0 < limit → ∀ r ∈ resumes text, (r : ℤ) + limit ≤ 2 ^ 63) ↔
      ∀ r ∈ resumesFrom text 1, Fits limit r := by
    rw [hresumes]
    by_cases hpos : 0 < limit
    · rw [forall_prop_of_true hpos]
      simp only [Fits, readLimit, if_neg (not_le.mpr hpos)]
    · refine iff_of_true (fun h => absurd h hpos) fun r hr => ?_
      have hlt := le_of_mem_pageStarts hr
      rw [List.length_map, linesFrom, List.length_drop] at hlt
      rw [Fits, readLimit, if_pos (by omega), defaultReadLines]
      omega
  rw [hfits]
  by_cases hempty : textLines text = []
  · refine iff_of_true ?_ ?_
    · have hanswer : readText text (1 : ℕ) limit = .empty := by
        rw [readText, hbinary, if_neg Bool.false_ne_true]
        dsimp only
        rw [eachLine_eq _ _ (by decide), hempty]
        rfl
      have hnone : (readText text (1 : ℕ) limit).next = none := by
        rw [hanswer]
        rfl
      refine ⟨_, .done hnone, ?_, fun ans hans => ?_⟩
      · rw [List.flatMap_singleton, hanswer, hempty]
        rfl
      · rw [List.mem_singleton.mp hans, hanswer]
        exact ⟨rfl, nofun⟩
    · rw [resumesFrom, linesFrom, hempty, List.drop_nil]
      exact nofun
  · have hle : 1 ≤ (textLines text).length := List.length_pos_iff.mpr hempty
    constructor
    · rintro ⟨answers, hrun, -, -⟩
      exact hrun.resumes_fit hbinary hscan hlimit le_rfl hle
    · intro hall
      refine exists_pageRun hbinary hscan le_rfl hle ?_ hall
      rw [Fits, readLimit, defaultReadLines]
      split
      · decide
      · push_cast
        omega

end

theorem pages_through_two_lines : PagesThrough (ascii "a\nb\n") 1 :=
  (pages_through_iff (by decide) (by decide) (by decide)).mpr fun _ => by decide

/-- A file of many lines that are just short enough to be shown. -/
def longFile : GoString := (List.replicate 300 (List.replicate 4096 0x61 ++ [lineFeed])).flatten

theorem textLines_replicate {line : GoString} (hline : lineFeed ∉ line) (n : ℕ) :
    textLines (List.replicate n (line ++ [lineFeed])).flatten =
      List.replicate n (dropCR line) := by
  induction n with
  | zero => rfl
  | succ n ih =>
    rw [List.replicate_succ, List.flatten_cons, List.append_assoc, List.singleton_append,
      textLines_line hline, ih, List.replicate_succ]

theorem textLines_longFile :
    textLines longFile = List.replicate 300 (List.replicate 4096 0x61) := by
  have hline : lineFeed ∉ List.replicate 4096 (0x61 : UInt8) := fun h => by
    cases List.eq_of_mem_replicate h
  rw [longFile, textLines_replicate hline, dropCR, List.getLast?_replicate, if_neg (by decide)]

/-- A limit that is near the largest asks for the second page again and again. -/
theorem wrapped_limit_repeats : ¬ ∀ (text : GoString) (limit : ℤ), isBinary text = false →
    scanBytes text ≤ maxReadScan → limit < 2 ^ 63 → PagesThrough text limit := by
  intro h
  have hbinary : isBinary longFile = false := by
    rw [isBinary, ← Bool.not_eq_true, List.contains_iff_mem]
    intro hmem
    obtain ⟨row, hrow, hzero⟩ := List.mem_flatten.mp (List.mem_of_mem_take hmem)
    rw [List.eq_of_mem_replicate hrow] at hzero
    rcases List.mem_append.mp hzero with hzero | hzero
    · cases List.eq_of_mem_replicate hzero
    · cases List.mem_singleton.mp hzero
  have hscan : scanBytes longFile ≤ maxReadScan := by
    rw [scanBytes, textLines_longFile, List.map_replicate, List.sum_replicate, List.length_take,
      List.length_replicate]
    decide
  have hsize : lineBytes (List.replicate 4096 0x61) = 4097 := by
    rw [lineBytes, shownLine, List.length_replicate, if_neg (by decide), List.length_replicate]
  obtain ⟨answers, hrun, -⟩ := h longFile (2 ^ 63 - 1) hbinary hscan (by decide)
  have hmem : 257 ∈ resumesFrom longFile 1 := by
    rw [resumesFrom, linesFrom, textLines_longFile, Nat.sub_self, List.drop_zero,
      List.map_replicate, hsize]
    decide +kernel
  have hfits := hrun.resumes_fit hbinary hscan (by decide) le_rfl
    (by rw [textLines_longFile, List.length_replicate]; decide) 257 hmem
  revert hfits
  rw [Fits, readLimit, if_neg (by decide)]
  decide

end Beardrive
