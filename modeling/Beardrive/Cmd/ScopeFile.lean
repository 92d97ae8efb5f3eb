import Beardrive.Syncer.Escape

/-!
# The scope block of the ignore file

`bdrive init --only` and `bdrive scope` narrow a mount to some of its folders by a managed block
at the top of `.bdriveignore`: a start marker, the rule `/*`, one re-inclusion for each folder and
an end marker. The file syncs, so every line of it, the markers included, can be anyone's.

## The two markers

The block is the first start marker with the first end marker after it; a file with two such
blocks is refused. An end marker that opens nothing is an ordinary line, and so is a start marker
nothing closes. A start marker that a later block closes in its place is not told apart from the
block's own: the lines between the two are taken for the block's, rules of the team among them.

## Two notions of blank

The writer drops the blank lines at the top by `strings.TrimSpace`, which knows the white space of
Unicode. The dialect trims ASCII only, so a line of other white space is a rule.

## Main definitions

* `cleanScopeDirs`, `scopeLines`, `scopeBlock`, `readScopeDirs`, `writeScopeDirs` — the file
* `ScopeKept` — what an edit of the scope is for
* `ScopeSafe` — when it does it

## Main results

* `readScopeDirs_writeScopeDirs` — what was written is read back
* `keepsTheRest_iff` — when an edit changes the managed block and nothing else
* `scope_means_scope` — an edit does what it is for exactly when it is safe
-/

namespace Beardrive

/-- `scopeStart`. -/
def scopeStart : GoString :=
  ascii "# bdrive scope " ++ [0xE2, 0x80, 0x94] ++
    ascii " only these folders sync (managed by bdrive; change with `bdrive scope add/rm`)"

/-- `scopeEnd`. -/
def scopeEnd : GoString := ascii "# end bdrive scope"

/-- Why a scope edit is refused. -/
inductive ScopeError where
  /-- The file holds two bdrive scope blocks. -/
  | twoBlocks
  /-- Empty folder name in the scope list. -/
  | emptyName
  /-- Not a subfolder of this project. -/
  | outside (dir : GoString)
  /-- The folder name contains a control character. -/
  | control (dir : GoString)
  deriving DecidableEq, Repr

/-! ### The names -/

/-- Whether a string carries a character that must never end up in a rule line. -/
def hasControlRune (s : GoString) : Bool := (runes s).any fun r => decide (r < 0x20) || r == 0x7F

/-- One name of a scope list, normalized and judged. -/
def cleanScopeDir (dir : GoString) : Except ScopeError GoString :=
  let dir := trimSlashes (trimSpace dir)
  if dir = [] then .error .emptyName
  else
    let dir := clean dir
    if dir = ascii "." ∨ dir = ascii ".." ∨ hasPrefix dir (ascii "../") then .error (.outside dir)
    else if hasControlRune dir then .error (.control dir)
    else .ok dir

/-- The loop of `cleanScopeDirs`: `out` holds the names so far, each once. -/
def cleanScopeDirsFrom (out : List GoString) : List GoString → Except ScopeError (List GoString)
  | [] => .ok out
  | dir :: dirs =>
    match cleanScopeDir dir with
    | .error e => .error e
    | .ok dir => cleanScopeDirsFrom (if dir ∈ out then out else out ++ [dir]) dirs

/-- Normalize and validate the folder names a scope names. -/
def cleanScopeDirs (dirs : List GoString) : Except ScopeError (List GoString) :=
  cleanScopeDirsFrom [] dirs

/-! ### The block -/

/-- The managed block for folders that are already cleaned. -/
def scopeLines (dirs : List GoString) : List GoString :=
  [scopeStart, ascii "/*"] ++ dirs.map folderRule ++ [scopeEnd]

/-- The loop of `scopeBlock` from line `i` on: the start marker that is open, and the block found
so far. -/
def scopeBlockFrom (i : ℕ) (opened : Option ℕ) (found : Option (ℕ × ℕ)) :
    List GoString → Except ScopeError (Option (ℕ × ℕ))
  | [] => .ok found
  | line :: lines =>
    if trimSpace line = scopeStart then
      scopeBlockFrom (i + 1) (some (opened.getD i)) found lines
    else if trimSpace line = scopeEnd then
      match opened with
      | none => scopeBlockFrom (i + 1) none found lines
      | some start =>
        if found.isSome then .error .twoBlocks
        else scopeBlockFrom (i + 1) none (some (start, i)) lines
    else scopeBlockFrom (i + 1) opened found lines

/-- Locate the managed block: the first complete pair of markers, by the index of each. -/
def scopeBlock (lines : List GoString) : Except ScopeError (Option (ℕ × ℕ)) :=
  scopeBlockFrom 0 none none lines

/-- The folder a line of the block names. -/
def scopedDir (line : GoString) : Option GoString :=
  let t := trimSpace line
  if hasPrefix t (ascii "!") then some (unescapeIgnore (trimSlashes t.tail)) else none

/-- The folders named by the managed block of a file, and whether there is one. -/
def readScopeDirs (text : Option GoString) : Except ScopeError (List GoString × Bool) :=
  match text with
  | none => .ok ([], false)
  | some text =>
    match scopeBlock (splitLF text) with
    | .error e => .error e
    | .ok none => .ok ([], false)
    | .ok (some (start, stop)) =>
      .ok ((((splitLF text).take stop).drop (start + 1)).filterMap scopedDir, true)

/-- The lines of a file, if there is one. -/
def ignoreLines (text : Option GoString) : List GoString := (text.map splitLF).getD []

/-- The lines outside the managed block. -/
def keptLines (lines : List GoString) : Option (ℕ × ℕ) → List GoString
  | none => lines
  | some (start, stop) => lines.take start ++ lines.drop (stop + 1)

/-- `strings.Join (lines, "\n")`. -/
def joinLF (lines : List GoString) : GoString := [0x0A].intercalate lines

/-- Insert or replace the managed block; no folders removes it. -/
def writeScopeDirs (text : Option GoString) (dirs : List GoString) : Except ScopeError GoString :=
  match scopeBlock (ignoreLines text) with
  | .error e => .error e
  | .ok found =>
    let kept := (keptLines (ignoreLines text) found).dropWhile fun line => trimSpace line = []
    let out := if dirs = [] then kept else scopeLines dirs ++ [] :: kept
    let body := joinLF out
    .ok (if hasSuffix body [0x0A] then body else body ++ [0x0A])

/-! ### Cleaned names -/

/-- What a rule needs of the name of a folder. -/
structure CleanDir (dir : GoString) : Prop where
  ne_nil : dir ≠ []
  not_prefix : ¬ [slash] <+: dir
  not_suffix : ¬ [slash] <:+ dir
  no_lineFeed : (0x0A : UInt8) ∉ dir

theorem lineFeed_not_mem_of_hasControlRune {s : GoString} (h : hasControlRune s = false) :
    (0x0A : UInt8) ∉ s := by
  intro hmem
  obtain ⟨a, b, rfl⟩ := List.append_of_mem hmem
  rw [hasControlRune, runes_append_ascii (by decide), runes_cons_ascii (by decide)] at h
  simp at h

theorem isAbs_trimSlashes (s : GoString) : isAbs (trimSlashes s) = false := by
  rw [isAbs, hasPrefix_eq_false_iff]
  intro h
  have hpre : trimSlashes s <+: s.dropWhile fun b => b == slash :=
    List.rdropWhile_prefix _ _
  obtain ⟨rest, hrest⟩ := h.trans hpre
  have hne : s.dropWhile (fun b => b == slash) ≠ [] := by simp [← hrest]
  have hhead := List.head_dropWhile_not (fun b => b == slash) hne
  simp [← hrest] at hhead

/-- A normal form that is none of the refused ones neither starts nor ends with a slash. -/
theorem clean_slashes {p : GoString} (habs : isAbs p = false) :
    clean p ≠ [] ∧ ¬ [slash] <+: clean p ∧ ¬ [slash] <:+ clean p := by
  set segs := ((segments p).foldl (cleanStep false) []).reverse with hsegs
  have hclean : clean p = if joinSlash segs = [] then ascii "." else joinSlash segs := by
    simp [clean, habs, hsegs]
  have hslash : ∀ s ∈ segs, slash ∉ s := fun s hs =>
    slash_not_mem_foldl (fun t ht => not_mem_of_mem_segments ht) (by simp) s
      (List.mem_reverse.mp hs)
  have hnil : ∀ s ∈ segs, s ≠ [] := by
    intro s hs
    obtain ⟨plain, dots, hout, hplain, hdots⟩ :=
      cleanStack_foldl (segments p) [] ⟨[], [], rfl, by simp, by simp⟩
    rw [hsegs, hout, List.mem_reverse, List.mem_append] at hs
    rcases hs with hs | hs
    · exact (hplain s hs).1
    · rw [hdots s hs]
      decide
  rw [hclean]
  split
  · exact ⟨by decide, by decide, by decide⟩
  rename_i hne
  have hne' : segs ≠ [] := fun h => hne (by rw [h]; rfl)
  have hround : segments (joinSlash segs) = segs := segments_joinSlash hslash hne'
  refine ⟨hne, ?_, ?_⟩
  · rintro ⟨rest, hrest⟩
    have hfirst : segments (joinSlash segs) = [] :: segments rest := by
      rw [← hrest]
      exact head_segments [] rest (by simp)
    rw [hround] at hfirst
    exact hnil [] (by rw [hfirst]; exact List.mem_cons_self) rfl
  · rintro ⟨init, hinit⟩
    have hlast : segments (joinSlash segs) = segments init ++ [[]] := by
      rw [← hinit, ← List.append_nil (init ++ [slash]), List.append_assoc, List.singleton_append,
        segments_append]
      rfl
    rw [hround] at hlast
    exact hnil [] (by rw [hlast]; simp) rfl

theorem cleanDir_of_cleanScopeDir {name dir : GoString} (h : cleanScopeDir name = .ok dir) :
    CleanDir dir := by
  unfold cleanScopeDir at h
  dsimp only at h
  split_ifs at h with hempty hout hctrl
  cases h
  obtain ⟨hne, hpre, hsuf⟩ := clean_slashes (isAbs_trimSlashes (trimSpace name))
  exact ⟨hne, hpre, hsuf, lineFeed_not_mem_of_hasControlRune (by simpa using hctrl)⟩

theorem cleanDir_of_cleanScopeDirsFrom {names out dirs : List GoString}
    (hout : ∀ dir ∈ out, CleanDir dir) (h : cleanScopeDirsFrom out names = .ok dirs) :
    ∀ dir ∈ dirs, CleanDir dir := by
  induction names generalizing out with
  | nil =>
    cases h
    exact hout
  | cons name names ih =>
    rw [cleanScopeDirsFrom] at h
    cases hdir : cleanScopeDir name with
    | error e => simp [hdir] at h
    | ok dir =>
      simp only [hdir] at h
      refine ih ?_ h
      intro d hd
      split_ifs at hd with hmem
      · exact hout d hd
      · rcases List.mem_append.mp hd with hd | hd
        · exact hout d hd
        · exact List.mem_singleton.mp hd ▸ cleanDir_of_cleanScopeDir hdir

/-- Every name `cleanScopeDirs` accepts can be written as a rule. -/
theorem cleanDir_of_mem {names dirs : List GoString} (h : cleanScopeDirs names = .ok dirs) :
    ∀ dir ∈ dirs, CleanDir dir :=
  cleanDir_of_cleanScopeDirsFrom (by simp) h

/-! ### Markers -/

/-- A line that reads as the start marker. -/
def IsStart (line : GoString) : Prop := trimSpace line = scopeStart

/-- A line that reads as the end marker. -/
def IsEnd (line : GoString) : Prop := trimSpace line = scopeEnd

instance (line : GoString) : Decidable (IsStart line) := by unfold IsStart; infer_instance

instance (line : GoString) : Decidable (IsEnd line) := by unfold IsEnd; infer_instance

theorem isStart_scopeStart : IsStart scopeStart := by decide

theorem isEnd_scopeEnd : IsEnd scopeEnd := by decide

theorem not_marker_nil : ¬ IsStart [] ∧ ¬ IsEnd [] := ⟨by decide, by decide⟩

theorem IsStart.not_isEnd {line : GoString} (h : IsStart line) : ¬ IsEnd line := by
  intro h'
  rw [IsStart] at h
  rw [IsEnd, h] at h'
  exact absurd h' (by decide)

theorem IsStart.trimSpace_ne_nil {line : GoString} (h : IsStart line) : trimSpace line ≠ [] := by
  rw [h]
  decide

theorem IsEnd.trimSpace_ne_nil {line : GoString} (h : IsEnd line) : trimSpace line ≠ [] := by
  rw [h]
  decide

/-- Lines that hold no complete pair of markers. -/
def Unpaired (lines : List GoString) : Prop :=
  ∃ front back, lines = front ++ back ∧ (∀ line ∈ front, ¬ IsStart line) ∧
    ∀ line ∈ back, ¬ IsEnd line

theorem forall_not_or_first (p : GoString → Prop) [DecidablePred p] (lines : List GoString) :
    (∀ line ∈ lines, ¬ p line) ∨
      ∃ pre first post, lines = pre ++ first :: post ∧ (∀ line ∈ pre, ¬ p line) ∧ p first := by
  induction lines with
  | nil => exact .inl (by simp)
  | cons line lines ih =>
    by_cases h : p line
    · exact .inr ⟨[], line, lines, rfl, by simp, h⟩
    rcases ih with hall | ⟨pre, first, post, rfl, hpre, hfirst⟩
    · exact .inl (List.forall_mem_cons.mpr ⟨h, hall⟩)
    · exact .inr ⟨line :: pre, first, post, rfl, List.forall_mem_cons.mpr ⟨h, hpre⟩, hfirst⟩

/-- Every list of lines is unpaired or holds a first complete pair. -/
theorem unpaired_or_pair (lines : List GoString) :
    Unpaired lines ∨ ∃ pre first mid last post, lines = pre ++ first :: (mid ++ last :: post) ∧
      (∀ line ∈ pre, ¬ IsStart line) ∧ IsStart first ∧ (∀ line ∈ mid, ¬ IsEnd line) ∧
      IsEnd last := by
  rcases forall_not_or_first IsStart lines with hall | ⟨pre, first, rest, rfl, hpre, hfirst⟩
  · exact .inl ⟨lines, [], by simp, hall, by simp⟩
  rcases forall_not_or_first IsEnd rest with hall | ⟨mid, last, post, rfl, hmid, hlast⟩
  · exact .inl ⟨pre, first :: rest, rfl, hpre, List.forall_mem_cons.mpr ⟨hfirst.not_isEnd, hall⟩⟩
  · exact .inr ⟨pre, first, mid, last, post, rfl, hpre, hfirst, hmid, hlast⟩

/-! ### The scan -/

section

variable {i : ℕ} {opened : Option ℕ} {found : Option (ℕ × ℕ)}

theorem scopeBlockFrom_start {line : GoString} (h : IsStart line) (lines : List GoString) :
    scopeBlockFrom i opened found (line :: lines) =
      scopeBlockFrom (i + 1) (some (opened.getD i)) found lines := by
  rw [scopeBlockFrom.eq_def]
  exact if_pos h

theorem scopeBlockFrom_end {line : GoString} (h : IsEnd line) (lines : List GoString) :
    scopeBlockFrom i opened found (line :: lines) =
      match opened with
      | none => scopeBlockFrom (i + 1) none found lines
      | some start =>
        if found.isSome then .error .twoBlocks
        else scopeBlockFrom (i + 1) none (some (start, i)) lines := by
  rw [scopeBlockFrom.eq_def]
  exact (if_neg fun h' => IsStart.not_isEnd h' h).trans (if_pos h)

theorem scopeBlockFrom_other {line : GoString} (hs : ¬ IsStart line) (he : ¬ IsEnd line)
    (lines : List GoString) : scopeBlockFrom i opened found (line :: lines) =
      scopeBlockFrom (i + 1) opened found lines := by
  rw [scopeBlockFrom.eq_def]
  exact (if_neg hs).trans (if_neg he)

/-- Nothing opens before the first start marker. -/
theorem scopeBlockFrom_append {front : List GoString} (h : ∀ line ∈ front, ¬ IsStart line)
    (lines : List GoString) : scopeBlockFrom i none found (front ++ lines) =
      scopeBlockFrom (i + front.length) none found lines := by
  induction front generalizing i with
  | nil => rfl
  | cons line front ih =>
    obtain ⟨hline, hfront⟩ := List.forall_mem_cons.mp h
    rw [List.cons_append, List.length_cons, Nat.add_comm front.length, ← Nat.add_assoc]
    by_cases he : IsEnd line
    · rw [scopeBlockFrom_end he]
      exact ih hfront
    · rw [scopeBlockFrom_other hline he]
      exact ih hfront

/-- Nothing closes before the first end marker, and the first start marker stays the open one. -/
theorem scopeBlockFrom_opened {mid : List GoString} (h : ∀ line ∈ mid, ¬ IsEnd line) (start : ℕ)
    (lines : List GoString) : scopeBlockFrom i (some start) found (mid ++ lines) =
      scopeBlockFrom (i + mid.length) (some start) found lines := by
  induction mid generalizing i with
  | nil => rfl
  | cons line mid ih =>
    obtain ⟨hline, hmid⟩ := List.forall_mem_cons.mp h
    rw [List.cons_append, List.length_cons, Nat.add_comm mid.length, ← Nat.add_assoc]
    by_cases hs : IsStart line
    · rw [scopeBlockFrom_start hs]
      exact ih hmid
    · rw [scopeBlockFrom_other hs hline]
      exact ih hmid

theorem scopeBlockFrom_unclosed {back : List GoString} (h : ∀ line ∈ back, ¬ IsEnd line) :
    scopeBlockFrom i opened found back = .ok found := by
  induction back generalizing i opened with
  | nil => rfl
  | cons line back ih =>
    obtain ⟨hline, hback⟩ := List.forall_mem_cons.mp h
    by_cases hs : IsStart line
    · rw [scopeBlockFrom_start hs]
      exact ih hback
    · rw [scopeBlockFrom_other hs hline]
      exact ih hback

theorem scopeBlockFrom_unpaired {lines : List GoString} (h : Unpaired lines) :
    scopeBlockFrom i none found lines = .ok found := by
  obtain ⟨front, back, rfl, hfront, hback⟩ := h
  rw [scopeBlockFrom_append hfront, scopeBlockFrom_unclosed hback]

/-- The scan of lines that hold a complete pair, up to the end of the first one. -/
theorem scopeBlockFrom_pair {pre mid post : List GoString} {first last : GoString}
    (hpre : ∀ line ∈ pre, ¬ IsStart line) (hfirst : IsStart first)
    (hmid : ∀ line ∈ mid, ¬ IsEnd line) (hlast : IsEnd last) :
    scopeBlockFrom i none found (pre ++ first :: (mid ++ last :: post)) =
      if found.isSome then .error .twoBlocks
      else scopeBlockFrom (i + pre.length + 1 + mid.length + 1) none
        (some (i + pre.length, i + pre.length + 1 + mid.length)) post := by
  rw [scopeBlockFrom_append hpre, scopeBlockFrom_start hfirst, Option.getD_none,
    scopeBlockFrom_opened hmid, scopeBlockFrom_end hlast]

end

/-- What the scan of a file comes to. -/
inductive Located (lines : List GoString) : Option (ℕ × ℕ) → Prop
  | nowhere (h : Unpaired lines) : Located lines none
  | block (pre mid post : List GoString) (first last : GoString)
      (lines_eq : lines = pre ++ first :: (mid ++ last :: post))
      (no_start : ∀ line ∈ pre, ¬ IsStart line) (starts : IsStart first)
      (no_end : ∀ line ∈ mid, ¬ IsEnd line) (ends : IsEnd last) (rest : Unpaired post) :
      Located lines (some (pre.length, pre.length + 1 + mid.length))

theorem located_of_scopeBlock {lines : List GoString} {found : Option (ℕ × ℕ)}
    (h : scopeBlock lines = .ok found) : Located lines found := by
  rcases unpaired_or_pair lines with hun | ⟨pre, first, mid, last, post, rfl, hpre, hfirst, hmid, hlast⟩
  · rw [scopeBlock, scopeBlockFrom_unpaired hun] at h
    cases h
    exact .nowhere hun
  rw [scopeBlock, scopeBlockFrom_pair hpre hfirst hmid hlast, if_neg (by simp)] at h
  rcases unpaired_or_pair post with
    hun | ⟨pre', first', mid', last', post', rfl, hpre', hfirst', hmid', hlast'⟩
  · rw [scopeBlockFrom_unpaired hun, Nat.zero_add] at h
    cases h
    exact .block pre mid post first last rfl hpre hfirst hmid hlast hun
  · rw [scopeBlockFrom_pair hpre' hfirst' hmid' hlast', Option.isSome_some, if_pos rfl] at h
    cases h

theorem keptLines_block (pre mid post : List GoString) (first last : GoString) :
    keptLines (pre ++ first :: (mid ++ last :: post))
      (some (pre.length, pre.length + 1 + mid.length)) = pre ++ post := by
  have hdrop : (pre ++ first :: (mid ++ last :: post)).drop (pre.length + 1 + mid.length + 1) =
      post := by
    have hsplit : pre ++ first :: (mid ++ last :: post) = (pre ++ first :: (mid ++ [last])) ++ post := by
      simp
    rw [hsplit, List.drop_left' (by simp; omega)]
  rw [keptLines, hdrop, List.take_left]

/-! ### Unpaired lines -/

theorem Unpaired.cons {lines : List GoString} (h : Unpaired lines) {line : GoString}
    (hline : ¬ IsStart line) : Unpaired (line :: lines) := by
  obtain ⟨front, back, rfl, hfront, hback⟩ := h
  exact ⟨line :: front, back, rfl, List.forall_mem_cons.mpr ⟨hline, hfront⟩, hback⟩

theorem Unpaired.append {pre lines : List GoString} (h : Unpaired lines)
    (hpre : ∀ line ∈ pre, ¬ IsStart line) : Unpaired (pre ++ lines) := by
  obtain ⟨front, back, rfl, hfront, hback⟩ := h
  exact ⟨pre ++ front, back, by simp, List.forall_mem_append.mpr ⟨hpre, hfront⟩, hback⟩

theorem Unpaired.append_right {lines post : List GoString} (h : Unpaired lines)
    (hpost : ∀ line ∈ post, ¬ IsEnd line) : Unpaired (lines ++ post) := by
  obtain ⟨front, back, rfl, hfront, hback⟩ := h
  exact ⟨front, back ++ post, by simp, hfront, List.forall_mem_append.mpr ⟨hback, hpost⟩⟩

theorem Unpaired.tail {line : GoString} {lines : List GoString} (h : Unpaired (line :: lines)) :
    Unpaired lines := by
  obtain ⟨front, back, heq, hfront, hback⟩ := h
  cases front with
  | nil =>
    subst heq
    exact ⟨[], lines, rfl, by simp, fun l hl => hback l (List.mem_cons_of_mem _ hl)⟩
  | cons l front =>
    cases heq
    exact ⟨front, back, rfl, fun l hl => hfront l (List.mem_cons_of_mem _ hl), hback⟩

theorem Unpaired.dropWhile {lines : List GoString} (h : Unpaired lines) (p : GoString → Bool) :
    Unpaired (lines.dropWhile p) := by
  induction lines with
  | nil => exact h
  | cons line lines ih =>
    rw [List.dropWhile_cons]
    split
    · exact ih h.tail
    · exact h

/-- In unpaired lines no end marker follows a start marker. -/
theorem Unpaired.not_pair {a mid post : List GoString} {first last : GoString}
    (h : Unpaired (a ++ first :: (mid ++ last :: post))) (hfirst : IsStart first) :
    ¬ IsEnd last := by
  induction a with
  | nil =>
    obtain ⟨front, back, heq, hfront, hback⟩ := h
    cases front with
    | nil =>
      refine hback last ?_
      rw [← show first :: (mid ++ last :: post) = back from heq]
      simp
    | cons l front =>
      obtain ⟨rfl, -⟩ := List.cons.inj heq
      exact absurd hfirst (hfront first List.mem_cons_self)
  | cons l a ih => exact ih h.tail

theorem Located.unpaired_kept {lines : List GoString} {found : Option (ℕ × ℕ)}
    (h : Located lines found) : Unpaired (keptLines lines found) := by
  cases h with
  | nowhere h => exact h
  | block pre mid post first last heq hpre hfirst hmid hlast hpost =>
    rw [heq, keptLines_block]
    exact hpost.append hpre

/-! ### What is written -/

/-- The lines a scope writes: none when it names no folder. -/
def managedLines (dirs : List GoString) : List GoString := if dirs = [] then [] else scopeLines dirs

theorem lineFeed_not_mem_scopeLines {dirs : List GoString} (h : ∀ dir ∈ dirs, CleanDir dir) :
    ∀ line ∈ scopeLines dirs, (0x0A : UInt8) ∉ line := by
  intro line hline
  rcases List.mem_append.mp hline with hline | hline
  · rcases List.mem_append.mp hline with hline | hline
    · rcases List.mem_pair.mp hline with rfl | rfl
      · decide
      · decide
    · obtain ⟨dir, hdir, rfl⟩ := List.mem_map.mp hline
      intro hmem
      rcases List.mem_append.mp hmem with hmem | hmem
      · rcases List.mem_append.mp hmem with hmem | hmem
        · exact absurd hmem (by decide)
        · rcases mem_escapeIgnore hmem with heq | hmem
          · exact absurd heq (by decide)
          · exact (h dir hdir).no_lineFeed hmem
      · exact absurd hmem (by decide)
  · rw [List.mem_singleton.mp hline]
    decide

theorem splitLF_joinLF {lines : List GoString} (h : ∀ line ∈ lines, (0x0A : UInt8) ∉ line)
    (hne : lines ≠ []) : splitLF (joinLF lines) = lines :=
  List.splitOn_intercalate 0x0A h hne

/-- A text that is joined and closed holds the lines that were joined, and blank ones. -/
theorem splitLF_closed {lines : List GoString} (h : ∀ line ∈ lines, (0x0A : UInt8) ∉ line) :
    ∃ pad, splitLF (if hasSuffix (joinLF lines) [0x0A] then joinLF lines
      else joinLF lines ++ [0x0A]) = lines ++ pad ∧ ∀ line ∈ pad, line = [] := by
  by_cases hne : lines = []
  · subst hne
    exact ⟨[[], []], by decide, by simp⟩
  split
  · exact ⟨[], by rw [splitLF_joinLF h hne, List.append_nil], by simp⟩
  · refine ⟨[[]], ?_, by simp⟩
    have hsplit : splitLF (joinLF lines ++ [0x0A]) = splitLF (joinLF lines) ++ splitLF [] :=
      List.splitOn_append_cons_self ..
    rw [hsplit, splitLF_joinLF h hne]
    rfl

/-- The file a scope edit leaves, line by line. -/
theorem splitLF_writeScopeDirs {text : Option GoString} {dirs : List GoString} {new : GoString}
    (hdirs : ∀ dir ∈ dirs, CleanDir dir) (h : writeScopeDirs text dirs = .ok new) :
    ∃ found sep pad, scopeBlock (ignoreLines text) = .ok found ∧
      splitLF new = managedLines dirs ++ (sep ++
        ((keptLines (ignoreLines text) found).dropWhile fun line => trimSpace line = []) ++ pad) ∧
      (∀ line ∈ sep, line = []) ∧ ∀ line ∈ pad, line = [] := by
  unfold writeScopeDirs at h
  cases hfound : scopeBlock (ignoreLines text) with
  | error e => simp [hfound] at h
  | ok found =>
    simp only [hfound, Except.ok.injEq] at h
    set kept := (keptLines (ignoreLines text) found).dropWhile fun line => trimSpace line = []
      with hkept
    have hlines : ∀ line ∈ ignoreLines text, (0x0A : UInt8) ∉ line := by
      intro line hline
      cases text with
      | none => exact absurd hline (by simp [ignoreLines])
      | some text => exact notMem_of_mem_splitOn hline
    have hkeptLines : ∀ line ∈ kept, (0x0A : UInt8) ∉ line := by
      intro line hline
      have hmem := List.dropWhile_subset _ hline
      refine hlines line ?_
      cases found with
      | none => exact hmem
      | some range =>
        rcases List.mem_append.mp hmem with hmem | hmem
        · exact List.take_subset _ _ hmem
        · exact List.drop_subset _ _ hmem
    by_cases hnil : dirs = []
    · rw [if_pos hnil] at h
      obtain ⟨pad, hpad, hblank⟩ := splitLF_closed hkeptLines
      refine ⟨found, [], pad, rfl, ?_, by simp, hblank⟩
      rw [← h, hpad, managedLines, if_pos hnil]
      rfl
    · rw [if_neg hnil] at h
      obtain ⟨pad, hpad, hblank⟩ := @splitLF_closed (scopeLines dirs ++ [] :: kept) <| by
        rw [List.forall_mem_append, List.forall_mem_cons]
        exact ⟨lineFeed_not_mem_scopeLines hdirs, by simp, hkeptLines⟩
      refine ⟨found, [[]], pad, rfl, ?_, by simp, hblank⟩
      rw [← h, hpad, managedLines, if_neg hnil, ← hkept]
      simp

/-! ### What is read back -/

theorem trimSpace_folderRule (dir : GoString) : trimSpace (folderRule dir) = folderRule dir :=
  trimSpace_append (by decide) (by decide) (by decide) (by decide) [] (slash :: escapeIgnore dir)

theorem scopedDir_folderRule {dir : GoString} (h : CleanDir dir) :
    scopedDir (folderRule dir) = some dir := by
  have htrim : trimSlashes (slash :: (escapeIgnore dir ++ [slash])) = escapeIgnore dir := by
    obtain ⟨c, rest, hrest, hc⟩ := exists_escapeIgnore_eq_cons h.ne_nil h.not_prefix
    obtain ⟨d, init, hinit, hd⟩ := exists_escapeIgnore_eq_concat h.ne_nil h.not_suffix
    have hdrop : (escapeIgnore dir ++ [slash]).dropWhile (fun b => b == slash) =
        escapeIgnore dir ++ [slash] := by
      rw [hrest, List.cons_append, List.dropWhile_cons_of_neg (by simpa using hc)]
    rw [trimSlashes, List.dropWhile_cons_of_pos (by simp), hdrop,
      List.rdropWhile_concat_pos _ _ _ (by simp), hinit,
      List.rdropWhile_concat_neg _ _ _ (by simpa using hd)]
  have hbang : hasPrefix (folderRule dir) (ascii "!") = true := by
    rw [hasPrefix_iff]
    exact ⟨_, rfl⟩
  rw [scopedDir, trimSpace_folderRule]
  simp only [hbang, if_true]
  rw [show (folderRule dir).tail = slash :: (escapeIgnore dir ++ [slash]) from rfl, htrim,
    unescapeIgnore_escapeIgnore]

theorem not_marker_folderRule (dir : GoString) :
    ¬ IsStart (folderRule dir) ∧ ¬ IsEnd (folderRule dir) := by
  rw [IsStart, IsEnd, trimSpace_folderRule]
  have hhead : (folderRule dir).head? = some 0x21 := rfl
  constructor <;> intro h <;> rw [h] at hhead <;> revert hhead <;> decide

/-- **What was written is read back.** -/
theorem readScopeDirs_writeScopeDirs {text : Option GoString} {dirs : List GoString}
    {new : GoString} (hdirs : ∀ dir ∈ dirs, CleanDir dir)
    (h : writeScopeDirs text dirs = .ok new) :
    readScopeDirs (some new) = .ok (dirs, decide (dirs ≠ [])) := by
  obtain ⟨found, sep, pad, hfound, hlines, hsep, hpad⟩ := splitLF_writeScopeDirs hdirs h
  have hrest : Unpaired (sep ++ ((keptLines (ignoreLines text) found).dropWhile
      fun line => trimSpace line = []) ++ pad) := by
    have hkept := (located_of_scopeBlock hfound).unpaired_kept
    refine ((hkept.dropWhile _).append fun line hline => ?_).append_right fun line hline => ?_
    · exact hsep line hline ▸ not_marker_nil.1
    · exact hpad line hline ▸ not_marker_nil.2
  rw [readScopeDirs, hlines]
  by_cases hnil : dirs = []
  · have hblock := @scopeBlockFrom_unpaired 0 none _ hrest
    rw [managedLines, if_pos hnil, List.nil_append, scopeBlock, hblock]
    simp [hnil]
  set rest := sep ++ ((keptLines (ignoreLines text) found).dropWhile
      fun line => trimSpace line = []) ++ pad
  have hmid : ∀ line ∈ ascii "/*" :: dirs.map folderRule, ¬ IsEnd line := by
    rw [List.forall_mem_cons, List.forall_mem_map]
    exact ⟨by decide, fun dir _ => (not_marker_folderRule dir).2⟩
  have hform : managedLines dirs ++ rest =
      [] ++ scopeStart :: ((ascii "/*" :: dirs.map folderRule) ++ scopeEnd :: rest) := by
    simp [managedLines, hnil, scopeLines]
  have hblock : scopeBlock (managedLines dirs ++ rest) = .ok (some (0, dirs.length + 2)) := by
    rw [hform, scopeBlock,
      scopeBlockFrom_pair (by simp) isStart_scopeStart hmid isEnd_scopeEnd, if_neg (by simp),
      scopeBlockFrom_unpaired hrest]
    have hlength : 0 + ([] : List GoString).length + 1 +
        (ascii "/*" :: dirs.map folderRule).length = dirs.length + 2 := by
      simp
      omega
    rw [hlength]
    rfl
  have hslice : ((managedLines dirs ++ rest).take (dirs.length + 2)).drop (0 + 1) =
      ascii "/*" :: dirs.map folderRule := by
    have htake : (managedLines dirs ++ rest).take (dirs.length + 2) =
        scopeStart :: ascii "/*" :: dirs.map folderRule := by
      have hassoc : managedLines dirs ++ rest =
          (scopeStart :: ascii "/*" :: dirs.map folderRule) ++ scopeEnd :: rest := by
        rw [hform]
        rfl
      rw [hassoc, List.take_left' (by simp)]
    rw [htake]
    rfl
  have hread : (dirs.map folderRule).filterMap scopedDir = dirs := by
    rw [List.filterMap_map]
    conv_rhs => rw [← List.filterMap_some (l := dirs)]
    exact List.filterMap_congr fun dir hdir => scopedDir_folderRule (hdirs dir hdir)
  simp only [hblock, hslice]
  rw [List.filterMap_cons_none (by decide), hread, decide_eq_true hnil]

/-! ### Nothing else changes -/

/-- The lines the dialect does not read as blank. -/
def nonBlank (lines : List GoString) : List GoString :=
  lines.filter fun line => decide (trimRuleSpace line ≠ [])

/-- One managed block: a start marker, an end marker, and lines between them that contain no
other start marker. -/
def ManagedBlock (block : List GoString) : Prop :=
  ∃ first mid last, block = first :: (mid ++ [last]) ∧ IsStart first ∧ IsEnd last ∧
    ∀ line ∈ mid, ¬ IsStart line

/-- An edit takes the lines of at most one managed block, keeps every other line that is not
blank, in order, and with it every rule. -/
def KeepsTheRest (lines dirs : List GoString) (new : GoString) : Prop :=
  ∃ pre block post, lines = pre ++ block ++ post ∧ (block = [] ∨ ManagedBlock block) ∧
    nonBlank (splitLF new) = managedLines dirs ++ nonBlank (pre ++ post) ∧
    compileRules new = (managedLines dirs).filterMap compile ++ (pre ++ post).filterMap compile

theorem trimRuleRight_ne_nil (rev : GoString) {b : UInt8} (h : ruleSpace b = false) :
    trimRuleRight (rev ++ [b]) ≠ [] := by
  induction rev with
  | nil => simp [trimRuleRight, h]
  | cons c rev ih =>
    rw [List.cons_append, trimRuleRight]
    split
    · exact ih
    · simp

/-- What the dialect reads as blank is blank. -/
theorem trimSpace_of_trimRuleSpace {line : GoString} (h : trimRuleSpace line = []) :
    trimSpace line = [] := by
  have hspace : ∀ b ∈ line, ruleSpace b = true := by
    cases hdrop : line.dropWhile ruleSpace with
    | nil => exact List.dropWhile_eq_nil_iff.mp hdrop
    | cons b rest =>
      have hb := List.head_dropWhile_not ruleSpace (l := line) (by simp [hdrop])
      simp only [hdrop, List.head_cons] at hb
      rw [trimRuleSpace, hdrop, List.reverse_cons, List.reverse_eq_nil_iff] at h
      exact absurd h (trimRuleRight_ne_nil _ hb)
  have hbyte : ∀ b : UInt8, ruleSpace b = true → b < 0x80 ∧ isSpace b.toNat = true := by
    have hall : ∀ n : Fin 256, ruleSpace (UInt8.ofNat n.val) = true →
        UInt8.ofNat n.val < 0x80 ∧ isSpace (UInt8.ofNat n.val).toNat = true := by
      decide +kernel
    intro b
    have hb := hall ⟨b.toNat, b.toNat_lt⟩
    rwa [UInt8.ofNat_toNat] at hb
  rw [trimSpace_eq_nil_iff, runes_of_ascii fun b hb => (hbyte b (hspace b hb)).1]
  intro r hr
  obtain ⟨b, hb, rfl⟩ := List.mem_map.mp hr
  exact (hbyte b (hspace b hb)).2

theorem nonBlank_append (a b : List GoString) : nonBlank (a ++ b) = nonBlank a ++ nonBlank b :=
  List.filter_append ..

theorem nonBlank_of_blank {lines : List GoString} (h : ∀ line ∈ lines, trimRuleSpace line = []) :
    nonBlank lines = [] := by
  rw [nonBlank, List.filter_eq_nil_iff]
  intro line hline
  simp [h line hline]

theorem nonBlank_managedLines (dirs : List GoString) :
    nonBlank (managedLines dirs) = managedLines dirs := by
  rw [nonBlank, List.filter_eq_self]
  intro line hline
  refine decide_eq_true fun hblank => ?_
  have htrim := trimSpace_of_trimRuleSpace hblank
  unfold managedLines at hline
  split_ifs at hline with hnil
  · exact absurd hline (by simp)
  rcases List.mem_append.mp hline with hline | hline
  · rcases List.mem_append.mp hline with hline | hline
    · rcases List.mem_pair.mp hline with rfl | rfl
      · exact isStart_scopeStart.trimSpace_ne_nil htrim
      · exact absurd htrim (by decide)
    · obtain ⟨dir, -, rfl⟩ := List.mem_map.mp hline
      rw [trimSpace_folderRule] at htrim
      cases htrim
  · rw [List.mem_singleton.mp hline] at htrim
    exact isEnd_scopeEnd.trimSpace_ne_nil htrim

theorem compile_of_blank {line : GoString} (h : trimRuleSpace line = []) : compile line = none := by
  simp [compile, h]

/-- Blank lines are no rules. -/
theorem filterMap_compile_nonBlank (lines : List GoString) :
    (nonBlank lines).filterMap compile = lines.filterMap compile := by
  rw [nonBlank, List.filterMap_filter]
  refine List.filterMap_congr fun line _ => ?_
  by_cases h : trimRuleSpace line = []
  · simp [h, compile_of_blank h]
  · simp [h]

/-- Markers are not blank, so the lines that are not blank hold as many. -/
theorem countP_nonBlank (p : GoString → Prop) [DecidablePred p]
    (hp : ∀ line, p line → trimSpace line ≠ []) (lines : List GoString) :
    (nonBlank lines).countP (p ·) = lines.countP (p ·) := by
  rw [nonBlank, List.countP_filter]
  refine List.countP_congr fun line _ => ?_
  simp only [Bool.and_eq_true, decide_eq_true_eq, ne_eq, and_iff_left_iff_imp]
  exact fun h hblank => hp line h (trimSpace_of_trimRuleSpace hblank)

theorem countP_dropBlank (p : GoString → Prop) [DecidablePred p]
    (hp : ∀ line, p line → trimSpace line ≠ []) (lines : List GoString) :
    (lines.dropWhile fun line => trimSpace line = []).countP (p ·) = lines.countP (p ·) := by
  have hnone : (lines.takeWhile fun line => trimSpace line = []).countP (p ·) = 0 := by
    rw [List.countP_eq_zero]
    intro line hline
    have hblank := List.mem_takeWhile_imp hline
    simp only [decide_eq_true_eq] at hblank ⊢
    exact fun h => hp line h hblank
  have hsplit := @List.takeWhile_append_dropWhile _ (fun line => decide (trimSpace line = [])) lines
  have hall := congrArg (List.countP (p ·)) hsplit
  rw [List.countP_append, hnone, Nat.zero_add] at hall
  exact hall

/-- Where a list is cut at the first element of a kind is determined. -/
theorem append_cons_unique (p : GoString → Prop) {a b a' b' : List GoString} {x x' : GoString}
    (h : a ++ x :: b = a' ++ x' :: b') (ha : ∀ line ∈ a, ¬ p line) (hx : p x)
    (ha' : ∀ line ∈ a', ¬ p line) (hx' : p x') : a = a' ∧ x = x' ∧ b = b' := by
  induction a generalizing a' with
  | nil =>
    cases a' with
    | nil => simpa using h
    | cons y a' =>
      obtain ⟨rfl, -⟩ := List.cons.inj h
      exact absurd hx (ha' x List.mem_cons_self)
  | cons y a ih =>
    cases a' with
    | nil =>
      obtain ⟨rfl, -⟩ := List.cons.inj h
      exact absurd hx' (ha y List.mem_cons_self)
    | cons y' a' =>
      obtain ⟨rfl, htail⟩ := List.cons.inj h
      obtain ⟨rfl, hx, hb⟩ := ih htail (fun l hl => ha l (List.mem_cons_of_mem _ hl))
        fun l hl => ha' l (List.mem_cons_of_mem _ hl)
      exact ⟨rfl, hx, hb⟩

/-- Where only the first of the start markers is closed, every closed start marker is that one. -/
theorem pair_unique {pre mid post a b : List GoString} {first last f : GoString}
    (hpre : ∀ line ∈ pre, ¬ IsStart line) (hmid : ∀ line ∈ mid, ¬ IsStart line)
    (hfirst : IsStart first) (hlast : IsEnd last) (hpost : Unpaired post)
    (h : pre ++ first :: (mid ++ last :: post) = a ++ f :: b) (hf : IsStart f)
    (hb : ∃ line ∈ b, IsEnd line) : pre = a ∧ first = f ∧ mid ++ last :: post = b := by
  rcases List.append_eq_append_iff.mp h with ⟨c, rfl, hc⟩ | ⟨c, rfl, hc⟩
  · cases c with
    | nil =>
      obtain ⟨rfl, rfl⟩ := List.cons.inj hc
      exact ⟨by simp, rfl, rfl⟩
    | cons y c =>
      obtain ⟨rfl, hrest⟩ := List.cons.inj hc
      -- `f` comes after the start of the block, so it lies in the rest of the file
      exfalso
      rcases List.append_eq_append_iff.mp hrest with ⟨d, rfl, hd⟩ | ⟨d, rfl, hd⟩
      · cases d with
        | nil =>
          obtain ⟨rfl, -⟩ := List.cons.inj hd
          exact hf.not_isEnd hlast
        | cons z d =>
          obtain ⟨-, rfl⟩ := List.cons.inj hd
          obtain ⟨line, hline, hend⟩ := hb
          obtain ⟨s, t, rfl⟩ := List.append_of_mem hline
          exact hpost.not_pair hf hend
      · cases d with
        | nil =>
          obtain ⟨rfl, -⟩ := List.cons.inj hd
          exact hf.not_isEnd hlast
        | cons z d =>
          obtain ⟨rfl, -⟩ := List.cons.inj hd
          exact hmid f (by simp) hf
  · cases c with
    | nil =>
      obtain ⟨rfl, rfl⟩ := List.cons.inj hc
      exact ⟨by simp, rfl, rfl⟩
    | cons y c =>
      obtain ⟨rfl, -⟩ := List.cons.inj hc
      exact absurd hf (hpre f (by simp))

/-- No start marker is followed by a second one before the end marker that closes it. -/
def OneStart (lines : List GoString) : Prop :=
  ∀ first mid last, first :: (mid ++ [last]) <:+: lines → IsStart first → IsEnd last →
    (∀ line ∈ mid, ¬ IsEnd line) → ∀ line ∈ mid, ¬ IsStart line

/-- The blank lines an edit drops at the top are blank to the dialect as well. -/
def DropsBlank (lines : List GoString) : Prop :=
  ∀ found, scopeBlock lines = .ok found →
    ∀ line ∈ (keptLines lines found).takeWhile fun line => trimSpace line = [],
      trimRuleSpace line = []

theorem Unpaired.oneStart {lines : List GoString} (h : Unpaired lines) : OneStart lines := by
  rintro first mid last ⟨a, b, rfl⟩ hfirst hlast - -
  rw [List.append_assoc, List.cons_append, List.append_assoc, List.singleton_append] at h
  exact absurd hlast (h.not_pair hfirst)

theorem nonBlank_split (lines : List GoString) :
    nonBlank (lines.takeWhile fun line => trimSpace line = []) ++
      nonBlank (lines.dropWhile fun line => trimSpace line = []) = nonBlank lines := by
  rw [← nonBlank_append, List.takeWhile_append_dropWhile]

theorem nonBlank_dropBlank {lines : List GoString}
    (h : ∀ line ∈ lines.takeWhile fun line => trimSpace line = [], trimRuleSpace line = []) :
    nonBlank (lines.dropWhile fun line => trimSpace line = []) = nonBlank lines := by
  have hall := nonBlank_split lines
  rwa [nonBlank_of_blank h] at hall

theorem dropsBlank_of_nonBlank {lines : List GoString}
    (h : nonBlank (lines.dropWhile fun line => trimSpace line = []) = nonBlank lines) :
    ∀ line ∈ lines.takeWhile fun line => trimSpace line = [], trimRuleSpace line = [] := by
  have hall := nonBlank_split lines
  rw [h] at hall
  have hnil : nonBlank (lines.takeWhile fun line => trimSpace line = []) = [] := by simpa using hall
  intro line hline
  rw [nonBlank, List.filter_eq_nil_iff] at hnil
  simpa using hnil line hline

theorem countP_none {p : GoString → Prop} [DecidablePred p] {lines : List GoString} :
    lines.countP (p ·) = 0 ↔ ∀ line ∈ lines, ¬ p line := by
  simp [List.countP_eq_zero]

/-- **An edit keeps the rest of the file exactly when the block has one start marker and no rule
of white space stands at the top.** -/
theorem keepsTheRest_iff {text : Option GoString} {dirs : List GoString} {new : GoString}
    (hdirs : ∀ dir ∈ dirs, CleanDir dir) (h : writeScopeDirs text dirs = .ok new) :
    KeepsTheRest (ignoreLines text) dirs new ↔
      OneStart (ignoreLines text) ∧ DropsBlank (ignoreLines text) := by
  obtain ⟨found, sep, pad, hfound, hlines, hsep, hpad⟩ := splitLF_writeScopeDirs hdirs h
  set lines := ignoreLines text
  set kept := (keptLines lines found).dropWhile fun line => trimSpace line = [] with hkept
  have hnew : nonBlank (splitLF new) = managedLines dirs ++ nonBlank kept := by
    have hsep' : nonBlank sep = [] := nonBlank_of_blank fun line hl => by rw [hsep line hl]; rfl
    have hpad' : nonBlank pad = [] := nonBlank_of_blank fun line hl => by rw [hpad line hl]; rfl
    rw [hlines, nonBlank_append, nonBlank_append, nonBlank_append, nonBlank_managedLines, hsep',
      hpad', List.nil_append, List.append_nil]
  have hrules {rest : List GoString} (hrest : nonBlank kept = nonBlank rest) :
      compileRules new = (managedLines dirs).filterMap compile ++ rest.filterMap compile := by
    rw [compileRules, ← filterMap_compile_nonBlank, hnew, List.filterMap_append, hrest,
      filterMap_compile_nonBlank]
  constructor
  · rintro ⟨pre', block', post', heq, hblock', hwritten, -⟩
    rw [hnew, List.append_cancel_left_eq] at hwritten
    -- markers are not blank, so the edit takes as many of them as the block holds
    have hcount (p : GoString → Prop) [DecidablePred p]
        (hp : ∀ line, p line → trimSpace line ≠ []) :
        (keptLines lines found).countP (p ·) = (pre' ++ post').countP (p ·) := by
      rw [← countP_dropBlank p hp, ← countP_nonBlank p hp, ← hkept, hwritten,
        countP_nonBlank p hp]
    have hdrops (hsame : keptLines lines found = pre' ++ post') : DropsBlank lines := by
      intro found' hfound'
      rw [hfound, Except.ok.injEq] at hfound'
      subst hfound'
      refine dropsBlank_of_nonBlank ?_
      rw [← hkept, hwritten, hsame]
    cases located_of_scopeBlock hfound with
    | nowhere hun =>
      refine ⟨hun.oneStart, hdrops ?_⟩
      rcases hblock' with rfl | ⟨first, mid, last, rfl, hfirst, hlast, -⟩
      · simpa [keptLines] using heq
      · rw [heq, List.append_assoc, List.cons_append, List.append_assoc] at hun
        exact absurd hlast (hun.not_pair hfirst)
    | block pre mid post first last hpair hpre hfirst hmid hlast hpost =>
      have htaken (p : GoString → Prop) [DecidablePred p]
          (hp : ∀ line, p line → trimSpace line ≠ []) :
          block'.countP (p ·) = (first :: (mid ++ [last])).countP (p ·) := by
        have htotal := congrArg (List.countP (p ·)) (hpair.symm.trans heq)
        have hrest := hcount p hp
        rw [hpair, keptLines_block] at hrest
        simp only [List.countP_append, List.countP_cons, List.countP_nil] at htotal hrest ⊢
        omega
      have hstarts := htaken IsStart fun line hline => hline.trimSpace_ne_nil
      have hends := htaken IsEnd fun line hline => hline.trimSpace_ne_nil
      rcases hblock' with rfl | ⟨first', mid', last', rfl, hfirst', hlast', hmid'⟩
      · simp [hfirst] at hstarts
      have hnone : mid'.countP (IsStart ·) = 0 := countP_none.mpr hmid'
      have hnone' : mid.countP (IsEnd ·) = 0 := countP_none.mpr hmid
      have hstartOnly {line : GoString} (hline : IsEnd line) : ¬ IsStart line := fun hs =>
        hs.not_isEnd hline
      simp only [List.countP_cons, List.countP_append, List.countP_nil, hfirst, hfirst',
        hstartOnly hlast, hstartOnly hlast', hnone, decide_true, decide_false, if_true,
        Bool.false_eq_true, if_false] at hstarts
      simp only [List.countP_cons, List.countP_append, List.countP_nil, hfirst.not_isEnd,
        hfirst'.not_isEnd, hlast, hlast', hnone', decide_true, decide_false, if_true,
        Bool.false_eq_true, if_false] at hends
      have hmidStart : ∀ line ∈ mid, ¬ IsStart line := countP_none.mp (by omega)
      have hmidEnd : ∀ line ∈ mid', ¬ IsEnd line := countP_none.mp (by omega)
      constructor
      · rintro f m l ⟨a, b, hab⟩ hf hl hm
        obtain ⟨rfl, rfl, hrest⟩ := @pair_unique pre mid post a (m ++ l :: b) first last f hpre
          hmidStart hfirst hlast hpost (by rw [← hpair, ← hab]; simp) hf ⟨l, by simp, hl⟩
        obtain ⟨rfl, -, -⟩ := append_cons_unique IsEnd hrest hmid hlast hm hl
        exact hmidStart
      · obtain ⟨rfl, rfl, hrest⟩ := @pair_unique pre mid post pre' (mid' ++ last' :: post') first
          last first' hpre hmidStart hfirst hlast hpost (by rw [← hpair, heq]; simp) hfirst'
          ⟨last', by simp, hlast'⟩
        obtain ⟨rfl, rfl, rfl⟩ := append_cons_unique IsEnd hrest hmid hlast hmidEnd hlast'
        exact hdrops (by rw [hpair, keptLines_block])
  · rintro ⟨hone, hdrops⟩
    have hsame : nonBlank kept = nonBlank (keptLines lines found) :=
      nonBlank_dropBlank (hdrops found hfound)
    cases located_of_scopeBlock hfound with
    | nowhere hun =>
      refine ⟨lines, [], [], by simp, .inl rfl, ?_, ?_⟩
      · rw [hnew, hsame]
        simp [keptLines]
      · rw [hrules hsame]
        simp [keptLines]
    | block pre mid post first last hpair hpre hfirst hmid hlast hpost =>
      rw [hpair, keptLines_block] at hsame
      refine ⟨pre, first :: (mid ++ [last]), post, by rw [hpair]; simp, .inr ?_, ?_, hrules hsame⟩
      · refine ⟨first, mid, last, rfl, hfirst, hlast, hone first mid last ?_ hfirst hlast hmid⟩
        exact ⟨pre, post, by rw [hpair]; simp⟩
      · rw [hnew, hsame]

/-! ### What syncs -/

/-- Whether a path lies under a folder. -/
def UnderDir (dir q : GoString) : Prop := dir ++ [slash] <+: q

instance (dir q : GoString) : Decidable (UnderDir dir q) := by unfold UnderDir; infer_instance

/-- Whether the filter loaded from an ignore file lets a path sync. -/
def syncs (text q : GoString) : Bool := !(loadFilter (some text) [] fun _ => false).skip q

/-- The lines of a file outside the managed block hold no rule. -/
def NoOtherRules (text : Option GoString) : Prop :=
  ∀ found, scopeBlock (ignoreLines text) = .ok found →
    ∀ line ∈ keptLines (ignoreLines text) found, compile line = none

/-- A path with a line feed behind its first slash, which the rule `/*` does not match. -/
def LineFeedBelow (q : GoString) : Prop := (0x0A : Rune) ∈ (runes q).dropWhile (· != slashRune)

instance (q : GoString) : Decidable (LineFeedBelow q) := by unfold LineFeedBelow; infer_instance

/-- The pattern of the rule `/*`. -/
def starPattern : Pattern := { elems := [.star], anchored := true }

theorem compile_star : compile (ascii "/*") = some starPattern := by decide

theorem spanThen_matchTail (s : List Rune) :
    spanThen (· != slashRune) (matchTail false) s = true ↔
      (0x0A : Rune) ∉ s.dropWhile (· != slashRune) := by
  induction s with
  | nil => simp [spanThen, matchTail]
  | cons r s ih =>
    by_cases hr : r = slashRune
    · subst hr
      have hall : s.all notNewline = true ↔ (0x0A : Rune) ∉ s := by
        rw [List.all_eq_true]
        exact ⟨fun h hmem => by simpa [notNewline] using h _ hmem,
          fun h r hr => by
            rw [notNewline, bne_iff_ne]
            rintro rfl
            exact h hr⟩
      have hfeed : (0x0A : Rune) ≠ slashRune := by decide
      simp [spanThen, matchTail, hall, hfeed]
    · simp [spanThen, matchTail, hr, ih]

theorem starPattern_matches (q : GoString) : starPattern.matches q = true ↔ ¬ LineFeedBelow q := by
  have hrun : starPattern.matches q = spanThen (· != slashRune) (matchTail false) (runes q) := by
    simp [Pattern.matches, starPattern, Pattern.regexMatch, matchElems]
  rw [hrun, spanThen_matchTail, LineFeedBelow]

/-- The rules a scope writes: everything is excluded, and the folders whose names compile are let
back in. -/
theorem filterMap_compile_managedLines {dirs : List GoString} (h : ∀ dir ∈ dirs, CleanDir dir)
    (hne : dirs ≠ []) : (managedLines dirs).filterMap compile =
      starPattern :: (dirs.filter (validUTF8 ·)).map folderPattern := by
  have hrules : (dirs.map folderRule).filterMap compile =
      (dirs.filter (validUTF8 ·)).map folderPattern := by
    rw [List.filterMap_map, ← List.filterMap_eq_map, List.filterMap_filter]
    refine List.filterMap_congr fun dir hdir => ?_
    obtain ⟨hnil, hpre, hsuf, -⟩ := h dir hdir
    rw [Function.comp_apply, compile_folderRule hnil hpre hsuf]
    rfl
  have hstart : compile scopeStart = none := by decide
  have hend : compile scopeEnd = none := by decide
  rw [managedLines, if_neg hne, scopeLines, List.filterMap_append, List.filterMap_append, hrules,
    List.filterMap_cons_none hstart, List.filterMap_cons_some compile_star,
    List.filterMap_cons_none hend]
  simp

/-- Under the rules of a scope a path is excluded by `/*`, or by nothing. -/
theorem ignoredBy_scope {dirs : List GoString} (h : ∀ dir ∈ dirs, dir ≠ []) (q : GoString) :
    ignoredBy (starPattern :: dirs.map folderPattern) q = true ↔
      (∀ dir ∈ dirs, ¬ UnderDir dir q) ∧ ¬ LineFeedBelow q := by
  have hfind : (dirs.map folderPattern).reverse.find? (·.matches q) = none ↔
      ∀ dir ∈ dirs, ¬ UnderDir dir q := by
    rw [List.find?_eq_none]
    simp only [List.mem_reverse, List.forall_mem_map]
    refine forall₂_congr fun dir hdir => ?_
    rw [folderPattern_matches (h dir hdir), hasPrefix_iff, UnderDir]
  unfold ignoredBy
  rw [List.reverse_cons, List.find?_append]
  cases hp : (dirs.map folderPattern).reverse.find? (·.matches q) with
  | none =>
    rw [hp] at hfind
    rw [← starPattern_matches, and_iff_right (hfind.mp rfl), Option.none_or]
    cases hstar : starPattern.matches q
    · rw [List.find?_cons_of_neg (by simp [hstar])]
      rfl
    · have hfound : [starPattern].find? (·.matches q) = some starPattern := by simp [hstar]
      rw [hfound]
      simp [starPattern]
  | some p =>
    have hnegate : p.negate = true := by
      obtain ⟨dir, -, rfl⟩ := List.mem_map.mp (List.mem_reverse.mp (List.mem_of_find?_eq_some hp))
      rfl
    rw [hp] at hfind
    have hunder : ¬ ∀ dir ∈ dirs, ¬ UnderDir dir q := fun h => absurd (hfind.mpr h) (by simp)
    simp only [Option.some_or, hnegate, Bool.not_true, Bool.false_eq_true, hunder, false_and]

/-- What the filter loaded after an edit lets through, when no other rule is in force. -/
theorem syncs_writeScopeDirs {text : Option GoString} {dirs : List GoString} {new q : GoString}
    (hdirs : ∀ dir ∈ dirs, CleanDir dir) (h : writeScopeDirs text dirs = .ok new)
    (hrules : NoOtherRules text) (hq : q ≠ ignoreFile) :
    syncs new q = true ↔
      dirs = [] ∨ (∃ dir ∈ dirs, validUTF8 dir = true ∧ UnderDir dir q) ∨ LineFeedBelow q := by
  obtain ⟨found, sep, pad, hfound, hlines, hsep, hpad⟩ := splitLF_writeScopeDirs hdirs h
  have hnone {lines : List GoString} (hl : ∀ line ∈ lines, compile line = none) :
      lines.filterMap compile = [] := List.filterMap_eq_nil_iff.mpr hl
  have hcompile : compileRules new = (managedLines dirs).filterMap compile := by
    rw [compileRules, hlines, List.filterMap_append]
    refine (congrArg (_ ++ ·) (hnone fun line hl => ?_)).trans (List.append_nil _)
    rcases List.mem_append.mp hl with hl | hl
    · rcases List.mem_append.mp hl with hl | hl
      · exact hsep line hl ▸ rfl
      · exact hrules found hfound line (List.dropWhile_subset _ hl)
    · exact hpad line hl ▸ rfl
  have hskip : syncs new q = !ignoredBy (compileRules new) q := by
    simp [syncs, Filter.skip, hq, loadFilter, Filter.underNestedMount, Filter.ignoredFile]
  rw [hskip, hcompile]
  by_cases hnil : dirs = []
  · simp [hnil, managedLines, ignoredBy]
  rw [filterMap_compile_managedLines hdirs hnil, Bool.not_eq_true', ← Bool.not_eq_true,
    ignoredBy_scope fun dir hdir => (hdirs dir (List.mem_of_mem_filter hdir)).ne_nil]
  simp only [hnil, false_or, List.mem_filter, not_and_or, not_not]
  push Not
  simp only [and_assoc]

/-! ### Scope means scope -/

/-- What an edit of the scope is for, at one path. -/
structure ScopeKept (text : Option GoString) (dirs : List GoString) (new q : GoString) : Prop where
  /-- With no other rules in force, what syncs is what lies under a named folder. -/
  syncs_iff : NoOtherRules text → (syncs new q = true ↔ ∃ dir ∈ dirs, UnderDir dir q)
  /-- What was written is read back. -/
  reads : readScopeDirs (some new) = .ok (dirs, decide (dirs ≠ []))
  /-- Nothing but one managed block was taken. -/
  keeps : KeepsTheRest (ignoreLines text) dirs new

/-- When an edit of the scope does what it is for. -/
structure ScopeSafe (text : Option GoString) (dirs : List GoString) (q : GoString) : Prop where
  /-- Some folder is named, and the path lies under one whose name is UTF-8; or it is a path with
  a line feed behind its first slash exactly when it lies under a folder. -/
  narrows : NoOtherRules text → dirs ≠ [] ∧
    ((∃ dir ∈ dirs, validUTF8 dir = true ∧ UnderDir dir q) ∨
      (LineFeedBelow q ↔ ∃ dir ∈ dirs, UnderDir dir q))
  oneStart : OneStart (ignoreLines text)
  dropsBlank : DropsBlank (ignoreLines text)

/-- **An edit of the scope does what it is for exactly when it is safe**: it names a folder, and by
UTF-8 where the path lies; no line feed hides the path from `/*`; the file has no second start
marker inside the block, and no rule of white space on top. -/
theorem scope_means_scope {text : Option GoString} {names dirs : List GoString} {new q : GoString}
    (hclean : cleanScopeDirs names = .ok dirs) (hwrite : writeScopeDirs text dirs = .ok new)
    (hq : q ≠ ignoreFile) : ScopeKept text dirs new q ↔ ScopeSafe text dirs q := by
  have hdirs := cleanDir_of_mem hclean
  have hkeeps := keepsTheRest_iff hdirs hwrite
  constructor
  · rintro ⟨hsyncs, -, hrest⟩
    obtain ⟨hone, hdrops⟩ := hkeeps.mp hrest
    refine ⟨fun hrules => ?_, hone, hdrops⟩
    have hiff := hsyncs hrules
    rw [syncs_writeScopeDirs hdirs hwrite hrules hq] at hiff
    have hne : dirs ≠ [] := by
      rintro rfl
      simp at hiff
    refine ⟨hne, ?_⟩
    by_cases hvalid : ∃ dir ∈ dirs, validUTF8 dir = true ∧ UnderDir dir q
    · exact .inl hvalid
    · simpa [hne, hvalid] using hiff
  · rintro ⟨hscoped, hone, hdrops⟩
    refine ⟨fun hrules => ?_, readScopeDirs_writeScopeDirs hdirs hwrite, hkeeps.mpr ⟨hone, hdrops⟩⟩
    obtain ⟨hne, hcase⟩ := hscoped hrules
    rw [syncs_writeScopeDirs hdirs hwrite hrules hq]
    rcases hcase with hvalid | hiff
    · obtain ⟨dir, hdir, hutf, hunder⟩ := hvalid
      exact iff_of_true (.inr (.inl ⟨dir, hdir, hutf, hunder⟩)) ⟨dir, hdir, hunder⟩
    · by_cases hvalid : ∃ dir ∈ dirs, validUTF8 dir = true ∧ UnderDir dir q
      · obtain ⟨dir, hdir, hutf, hunder⟩ := hvalid
        exact iff_of_true (.inr (.inl ⟨dir, hdir, hutf, hunder⟩)) ⟨dir, hdir, hunder⟩
      · simpa [hne, hvalid] using hiff

theorem wiki_scope_kept : ScopeKept none [ascii "wiki"]
    (joinLF (scopeLines [ascii "wiki"] ++ [[]])) (ascii "wiki/a.md") := by
  have hsafe : ScopeSafe none [ascii "wiki"] (ascii "wiki/a.md") := by
    refine ⟨fun _ => ⟨by decide, .inl ⟨ascii "wiki", by simp, by decide, by decide⟩⟩, ?_, ?_⟩
    · exact Unpaired.oneStart ⟨[], [], rfl, by simp, by simp⟩
    · intro found hfound
      cases hfound
      simp [keptLines, ignoreLines]
  exact (scope_means_scope (show cleanScopeDirs [ascii " ./wiki/ "] = .ok [ascii "wiki"] by
    decide +kernel) (by decide +kernel) (by decide)).mpr hsafe

/-- A start marker that nobody closed, a rule under it, and the managed block. -/
def orphanText : GoString :=
  joinLF [scopeStart, ascii "secret/", scopeStart, ascii "/*", ascii "!/docs/", scopeEnd, []]

/-- The next edit takes the rule for a line of the block. -/
theorem orphan_start_swallows_rule :
    ¬ ∀ (text : Option GoString) (names dirs : List GoString) (new q : GoString),
      cleanScopeDirs names = .ok dirs → writeScopeDirs text dirs = .ok new → q ≠ ignoreFile →
      ScopeKept text dirs new q := by
  intro h
  have hwrite : writeScopeDirs (some orphanText) [ascii "docs"] =
      .ok (joinLF (scopeLines [ascii "docs"] ++ [[]])) := by decide +kernel
  have hclean : cleanScopeDirs [ascii "docs"] = .ok [ascii "docs"] := by decide +kernel
  have hkept := (h _ _ _ _ (ascii "docs/secret/key") hclean hwrite (by decide)).keeps
  have hone := ((keepsTheRest_iff (cleanDir_of_mem hclean) hwrite).mp hkept).1
  have hmid : ∀ line ∈ [ascii "secret/", scopeStart, ascii "/*", ascii "!/docs/"], ¬ IsEnd line :=
    by decide +kernel
  refine hone scopeStart [ascii "secret/", scopeStart, ascii "/*", ascii "!/docs/"] scopeEnd ?_
    isStart_scopeStart isEnd_scopeEnd hmid scopeStart (by simp) isStart_scopeStart
  have hlines : ignoreLines (some orphanText) =
      [scopeStart, ascii "secret/", scopeStart, ascii "/*", ascii "!/docs/", scopeEnd, []] := by
    decide +kernel
  rw [hlines]
  exact ⟨[], [[]], rfl⟩

end Beardrive
