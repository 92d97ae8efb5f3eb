import Beardrive.Webapp.AgentWrites
import Beardrive.Webapp.EachLine

/-!
# Searching a file

`scanBlob` walks a file line by line and calls back with each line that matches and with the lines
around it. It keeps the last few lines that did not match, for the match that may follow, and
counts down the lines that still belong to the match behind. A mark at the last line it called
back with keeps two windows that meet from showing a line twice.

## One description of every state

The lines read so far end in a run of lines that do not match. The buffer is the end of that run,
the countdown what its length leaves, and the mark stands where the countdown ended or has got to.
The calls made are those that the lines read so far deserve: a match that follows can only add
calls behind the mark.

## Main definitions

* `scanBlob` — the search
* `callsOf` — the calls that the lines of a file deserve
* `SearchInv` — the description of a state

## Main results

* `SearchInv.step` — what a line does
* `scanBlob_calls` — a search makes exactly the calls that the lines deserve
-/

namespace Beardrive

/-! ### The search -/

/-- What a compiled pattern tells of a line: whether it matches, and where. -/
structure LinePattern where
  matchString : GoString → Bool
  findStringIndex : GoString → Option ℕ

/-- How much of one line is searched. -/
def maxGrepLine : ℕ := 1 <<< 20

/-- `…`, in UTF-8. -/
def ellipsis : GoString := [0xE2, 0x80, 0xA6]

/-- `clipAroundMatch`: a long line as it is shown, around its match if it has one. -/
def clipAroundMatch (humanSize : ℕ → GoString) (re : LinePattern) (text : GoString)
    (isMatch : Bool) : GoString :=
  if text.length ≤ 400 then text
  else
    let start := if isMatch then ((re.findStringIndex text).map (· - 400 / 3)).getD 0 else 0
    let stop := min (start + 400) text.length
    let out := (text.take stop).drop start
    let out :=
      if 0 < start then ellipsis ++ ascii "[+" ++ humanSize start ++ ascii "] " ++ out else out
    if stop < text.length then
      out ++ 0x20 :: ellipsis ++ ascii "[+" ++ humanSize (text.length - stop) ++ ascii "]"
    else out

/-- What a search holds between two lines. -/
structure BlobScan (σ : Type*) where
  out : σ
  found : Bool := false
  cutLines : ℕ := 0
  before : List GoString := []
  /-- The number of the first line of the buffer. -/
  beforeAt : ℕ := 0
  after : ℤ := 0
  lastEmitted : ℕ := 0

section

variable {σ : Type*} (onMatch : σ → ℕ → GoString → Bool → σ × Bool)
  (clip : GoString → Bool → GoString)

/-- `emit`: call back with a line, unless that was done. The answer is whether to go on. -/
def BlobScan.emit (s : BlobScan σ) (n : ℕ) (text : GoString) (isMatch : Bool) :
    BlobScan σ × Bool :=
  if n ≤ s.lastEmitted then (s, true)
  else
    let (out, go) := onMatch s.out n (clip text isMatch) isMatch
    ({ s with out, lastEmitted := n }, go)

/-- The loop over the buffer. -/
def BlobScan.emitBefore : BlobScan σ → ℕ → List GoString → BlobScan σ × Bool
  | s, _, [] => (s, true)
  | s, n, b :: rest =>
    match s.emit onMatch clip n b false with
    | (s, true) => emitBefore s (n + 1) rest
    | (s, false) => (s, false)

/-- A line that does not match goes to the end of the buffer. -/
def BlobScan.buffer (ctx : ℤ) (s : BlobScan σ) (n : ℕ) (line : GoString) : BlobScan σ :=
  if 0 < ctx then
    let beforeAt := if s.before = [] then n else s.beforeAt
    let before := s.before ++ [line]
    if ctx < before.length then { s with before := before.tail, beforeAt := beforeAt + 1 }
    else { s with before, beforeAt }
  else s

/-- The callback of the walk. -/
def BlobScan.line (re : LinePattern) (ctx : ℤ) (s : BlobScan σ) (n : ℕ) (line : GoString)
    (cut : Bool) : BlobScan σ × Bool :=
  let s := if cut then { s with cutLines := s.cutLines + 1 } else s
  if !re.matchString line then
    if 0 < s.after then
      match { s with after := s.after - 1 }.emit onMatch clip n line false with
      | (s, true) => (s.buffer ctx n line, true)
      | (s, false) => (s, false)
    else (s.buffer ctx n line, true)
  else
    match { s with found := true }.emitBefore onMatch clip s.beforeAt s.before with
    | (s, true) =>
      { s with before := [], beforeAt := 0, after := ctx }.emit onMatch clip n line true
    | (s, false) => (s, false)

/-- `scanBlob`: what the callbacks came to, whether anything matched, whether the file is binary,
and how many lines were cut. -/
def scanBlob (humanSize : ℕ → GoString) (re : LinePattern) (ctx : ℤ) (st : σ) (text : GoString) :
    σ × Bool × Bool × ℕ :=
  if isBinary text then (st, false, true, 0)
  else
    let s := eachLine (BlobScan.line onMatch (clipAroundMatch humanSize re) re ctx) (64 <<< 10)
      maxGrepLine 1 { out := st } text
    (s.out, s.found, false, s.cutLines)

end

/-! ### The calls that lines deserve -/

/-- A call back. -/
structure LineCall where
  line : ℕ
  text : GoString
  isMatch : Bool
  deriving DecidableEq

/-- Lines with their numbers. -/
def numbered (lines : List CutLine) : List (CutLine × ℕ) := lines.zipIdx 1

/-- Whether some line that matches is within the context of a line. -/
def Near (re : LinePattern) (c : ℕ) (lines : List CutLine) (n : ℕ) : Prop :=
  ∃ e ∈ numbered lines, re.matchString e.1.text = true ∧ n ≤ e.2 + c ∧ e.2 ≤ n + c

instance (re : LinePattern) (c : ℕ) (lines : List CutLine) (n : ℕ) :
    Decidable (Near re c lines n) := by
  unfold Near
  infer_instance

/-- The call that one line deserves. -/
def callOf (clip : GoString → Bool → GoString) (re : LinePattern) (c : ℕ) (lines : List CutLine)
    (e : CutLine × ℕ) : Option LineCall :=
  if re.matchString e.1.text then some ⟨e.2, clip e.1.text true, true⟩
  else if Near re c lines e.2 then some ⟨e.2, clip e.1.text false, false⟩
  else none

/-- The calls that the lines of a file deserve. -/
def callsOf (clip : GoString → Bool → GoString) (re : LinePattern) (c : ℕ)
    (lines : List CutLine) : List LineCall := (numbered lines).filterMap (callOf clip re c lines)

/-- What a call does to a state. -/
def LineCall.run {σ : Type*} (onMatch : σ → ℕ → GoString → Bool → σ × Bool) (st : σ)
    (call : LineCall) : σ := (onMatch st call.line call.text call.isMatch).1

/-! ### Numbers -/

theorem mem_numbered {lines : List CutLine} {e : CutLine × ℕ} :
    e ∈ numbered lines ↔ 1 ≤ e.2 ∧ lines[e.2 - 1]? = some e.1 :=
  List.mk_mem_zipIdx_iff_le_and_getElem?_sub

theorem le_of_mem_numbered {lines : List CutLine} {e : CutLine × ℕ} (h : e ∈ numbered lines) :
    1 ≤ e.2 ∧ e.2 ≤ lines.length := by
  obtain ⟨hpos, hget⟩ := mem_numbered.mp h
  have hlt := (List.getElem?_eq_some_iff.mp hget).1
  omega

theorem numbered_append (front back : List CutLine) :
    numbered (front ++ back) = numbered front ++ back.zipIdx (front.length + 1) := by
  rw [numbered, List.zipIdx_append, Nat.add_comm]
  rfl

/-- Of numbers in order, those up to a mark come first. -/
theorem filter_zipIdx_le_or {α : Type*} (lines : List α) (a K : ℕ) (q : ℕ → Bool) :
    (lines.zipIdx a).filter (fun e => e.2 ≤ K || q e.2) =
      (lines.zipIdx a).filter (fun e => e.2 ≤ K) ++
        (lines.zipIdx a).filter fun e => q e.2 && K < e.2 := by
  induction lines generalizing a with
  | nil => rfl
  | cons line lines ih =>
    rw [List.zipIdx_cons, List.filter_cons, List.filter_cons, List.filter_cons, ih (a + 1)]
    by_cases hK : a ≤ K
    · have hback : ¬ K < a := by omega
      simp [hK, hback]
    · -- behind the mark, nothing is in front of it
      have hnone : (lines.zipIdx (a + 1)).filter (fun e => e.2 ≤ K) = [] := by
        refine List.filter_eq_nil_iff.mpr fun e he => ?_
        have hle := List.le_snd_of_mem_zipIdx he
        simp only [decide_eq_true_eq]
        omega
      have hback : K < a := by omega
      rw [hnone]
      cases q a <;> simp [hK, hback]

theorem filter_zipIdx_ge {α : Type*} (lines : List α) (a d : ℕ) :
    (lines.zipIdx a).filter (fun e => a + d ≤ e.2) = (lines.drop d).zipIdx (a + d) := by
  induction lines generalizing a d with
  | nil => rw [List.drop_nil]; rfl
  | cons line lines ih =>
    rw [List.zipIdx_cons, List.filter_cons]
    cases d with
    | zero =>
      have hall : (lines.zipIdx (a + 1)).filter (fun e => a + 0 ≤ e.2) = lines.zipIdx (a + 1) := by
        refine List.filter_eq_self.mpr fun e he => decide_eq_true ?_
        have hle := List.le_snd_of_mem_zipIdx he
        omega
      rw [hall]
      simp
    | succ d =>
      have hnot : ¬ a + (d + 1) ≤ a := by omega
      have hnext := ih (a + 1) d
      rw [show a + 1 + d = a + (d + 1) by omega] at hnext
      simp only [hnot, decide_false, Bool.false_eq_true, if_false, hnext, List.drop_succ_cons]

/-! ### What is near -/

variable {re : LinePattern} {c : ℕ} {clip : GoString → Bool → GoString}

/-- Whether a line does not match. -/
def Quiet (re : LinePattern) (line : CutLine) : Prop := re.matchString line.text = false

/-- Whether lines end in one that matches. -/
def EndsInMatch (re : LinePattern) (lines : List CutLine) : Prop :=
  ∃ init line, lines = init ++ [line] ∧ re.matchString line.text = true

theorem EndsInMatch.near {lines : List CutLine} (h : EndsInMatch re lines) {n : ℕ}
    (hback : n ≤ lines.length + c) (hfront : lines.length ≤ n + c) : Near re c lines n := by
  obtain ⟨init, line, rfl, hline⟩ := h
  refine ⟨(line, init.length + 1), mem_numbered.mpr ⟨by omega, ?_⟩, hline, ?_, ?_⟩
  · simp
  · simpa using hback
  · simpa using hfront

theorem near_append_quiet {front back : List CutLine} (h : ∀ line ∈ back, Quiet re line) (n : ℕ) :
    Near re c (front ++ back) n ↔ Near re c front n := by
  rw [Near, Near, numbered_append]
  constructor
  · rintro ⟨e, he, hmatch, hnear⟩
    rcases List.mem_append.mp he with he | he
    · exact ⟨e, he, hmatch, hnear⟩
    · have hquiet : re.matchString e.1.text = false := h e.1 (List.fst_mem_of_mem_zipIdx he)
      rw [hquiet] at hmatch
      cases hmatch
  · rintro ⟨e, he, hnear⟩
    exact ⟨e, List.mem_append_left _ he, hnear⟩

theorem near_append_match {lines : List CutLine} {line : CutLine}
    (h : re.matchString line.text = true) (n : ℕ) : Near re c (lines ++ [line]) n ↔
      Near re c lines n ∨ (n ≤ lines.length + 1 + c ∧ lines.length + 1 ≤ n + c) := by
  rw [Near, Near, numbered_append]
  constructor
  · rintro ⟨e, he, hmatch, hnear⟩
    rcases List.mem_append.mp he with he | he
    · exact .inl ⟨e, he, hmatch, hnear⟩
    · rw [List.zipIdx_singleton, List.mem_singleton] at he
      rw [he] at hnear
      exact .inr hnear
  · rintro (⟨e, he, hnear⟩ | hnear)
    · exact ⟨e, List.mem_append_left _ he, hnear⟩
    · exact ⟨(line, lines.length + 1), List.mem_append_right _ (List.mem_singleton_self _), h,
        hnear⟩

/-- Nothing, or lines that end in one that matches. -/
def Settled (re : LinePattern) (lines : List CutLine) : Prop :=
  lines = [] ∨ EndsInMatch re lines

/-- The last line that is called back with, when lines that do not match follow a match. -/
def mark (c : ℕ) (front back : List CutLine) : ℕ :=
  if front = [] then 0 else front.length + min back.length c

theorem Settled.near_iff {front back : List CutLine} (h : Settled re front) {n : ℕ}
    (hlo : front.length < n) (hhi : n ≤ front.length + back.length) :
    Near re c front n ↔ n ≤ mark c front back := by
  rcases h with rfl | hmatch
  · refine iff_of_false ?_ (by rw [mark, if_pos rfl]; omega)
    rintro ⟨e, he, -⟩
    cases he
  · have hne : front ≠ [] := by
      obtain ⟨init, line, rfl, -⟩ := hmatch
      simp
    rw [mark, if_neg hne]
    constructor
    · rintro ⟨e, he, -, hnear, -⟩
      have hle := le_of_mem_numbered he
      omega
    · intro hle
      exact hmatch.near (by omega) (by omega)

/-- A match behind brings nothing new in front of the match before it. -/
theorem Settled.near_front {front back : List CutLine} {line : CutLine} (h : Settled re front)
    (hquiet : ∀ line ∈ back, Quiet re line) (hline : re.matchString line.text = true) {n : ℕ}
    (hn : 1 ≤ n ∧ n ≤ front.length) :
    Near re c (front ++ back ++ [line]) n ↔ Near re c front n := by
  rw [near_append_match hline, near_append_quiet hquiet]
  refine or_iff_left_of_imp fun ⟨hback, hfront⟩ => ?_
  rw [List.length_append] at hback hfront
  rcases h with rfl | hmatch
  · rw [List.length_nil] at hn
    omega
  · exact hmatch.near (by omega) (by omega)

/-! ### What a line adds to the calls -/

/-- The call for a line that does not match. -/
def contextCall (clip : GoString → Bool → GoString) (e : CutLine × ℕ) : LineCall :=
  ⟨e.2, clip e.1.text false, false⟩

theorem filterMap_callOf_quiet {lines : List CutLine} {rows : List (CutLine × ℕ)}
    (h : ∀ e ∈ rows, Quiet re e.1) : rows.filterMap (callOf clip re c lines) =
      (rows.filter fun e => Near re c lines e.2).map (contextCall clip) := by
  induction rows with
  | nil => rfl
  | cons e rows ih =>
    have hquiet : re.matchString e.1.text = false := h e List.mem_cons_self
    rw [List.filterMap_cons, List.filter_cons, ih fun e he => h e (List.mem_cons_of_mem _ he),
      callOf, hquiet, if_neg Bool.false_ne_true]
    by_cases hnear : Near re c lines e.2
    · simp only [hnear, decide_true, if_true, List.map_cons]
      rfl
    · simp only [hnear, decide_false, Bool.false_eq_true, if_false]

theorem quiet_zipIdx {back : List CutLine} (h : ∀ line ∈ back, Quiet re line) (a : ℕ) :
    ∀ e ∈ back.zipIdx a, Quiet re e.1 :=
  fun e he => h e.1 (List.fst_mem_of_mem_zipIdx he)

/-- The calls up to a run of lines that do not match. -/
theorem callsOf_quiet {front back : List CutLine} (hfront : Settled re front)
    (hback : ∀ line ∈ back, Quiet re line) : callsOf clip re c (front ++ back) =
      callsOf clip re c front ++ ((back.zipIdx (front.length + 1)).filter
        fun e => e.2 ≤ mark c front back).map (contextCall clip) := by
  rw [callsOf, numbered_append, List.filterMap_append]
  congr 1
  · refine List.filterMap_congr fun e _ => ?_
    rw [callOf, callOf]
    simp only [near_append_quiet hback]
  · rw [filterMap_callOf_quiet (quiet_zipIdx hback _)]
    congr 1
    refine List.filter_congr fun e he => decide_eq_decide.mpr ?_
    have hlo := List.le_snd_of_mem_zipIdx he
    have hhi := List.snd_lt_add_of_mem_zipIdx he
    rw [near_append_quiet hback]
    exact hfront.near_iff (by omega) (by omega)

/-- **What a match adds**: the lines of the run within its context that were not called back with,
and itself. -/
theorem callsOf_match {front back : List CutLine} {line : CutLine} (hfront : Settled re front)
    (hback : ∀ line ∈ back, Quiet re line) (hline : re.matchString line.text = true) :
    callsOf clip re c (front ++ back ++ [line]) = callsOf clip re c (front ++ back) ++
      ((back.zipIdx (front.length + 1)).filter fun e =>
        decide (front.length + back.length + 1 ≤ e.2 + c) && decide (mark c front back < e.2)).map
          (contextCall clip) ++
        [⟨front.length + back.length + 1, clip line.text true, true⟩] := by
  have hlast : [(line, (front ++ back).length + 1)].filterMap
      (callOf clip re c (front ++ back ++ [line])) =
        [⟨front.length + back.length + 1, clip line.text true, true⟩] := by
    rw [List.filterMap_cons, callOf, if_pos hline, List.length_append]
    rfl
  have hfirst : (numbered front).filterMap (callOf clip re c (front ++ back ++ [line])) =
      callsOf clip re c front := by
    refine List.filterMap_congr fun e he => ?_
    rw [callOf, callOf]
    simp only [hfront.near_front hback hline (le_of_mem_numbered he)]
  have hrun : (back.zipIdx (front.length + 1)).filterMap
      (callOf clip re c (front ++ back ++ [line])) =
        ((back.zipIdx (front.length + 1)).filter fun e => decide (e.2 ≤ mark c front back) ||
          decide (front.length + back.length + 1 ≤ e.2 + c)).map (contextCall clip) := by
    rw [filterMap_callOf_quiet (quiet_zipIdx hback _)]
    congr 1
    refine List.filter_congr fun e he => ?_
    have hlo := List.le_snd_of_mem_zipIdx he
    have hhi := List.snd_lt_add_of_mem_zipIdx he
    rw [← Bool.decide_or, decide_eq_decide, near_append_match hline, near_append_quiet hback,
      @Settled.near_iff re c front back hfront e.2 (by omega) (by omega), List.length_append]
    exact or_congr_right (and_iff_right (by omega))
  rw [callsOf, numbered_append, numbered_append, List.filterMap_append, List.filterMap_append,
    List.zipIdx_singleton, hlast, hfirst, hrun,
    filter_zipIdx_le_or back (front.length + 1) (mark c front back) fun n =>
      decide (front.length + back.length + 1 ≤ n + c), List.map_append, callsOf_quiet hfront hback,
    List.append_assoc, List.append_assoc, List.append_assoc, List.append_assoc]

/-- **What a line that does not match adds**: itself, if a match behind it is near. -/
theorem callsOf_more {front back : List CutLine} {line : CutLine} (hfront : Settled re front)
    (hback : ∀ line ∈ back, Quiet re line) (hline : Quiet re line) :
    callsOf clip re c (front ++ (back ++ [line])) = callsOf clip re c (front ++ back) ++
      if front ≠ [] ∧ back.length < c then
        [contextCall clip (line, front.length + back.length + 1)] else [] := by
  have hmore : ∀ line' ∈ back ++ [line], Quiet re line' := by
    intro line' hmem
    rcases List.mem_append.mp hmem with hmem | hmem
    · exact hback line' hmem
    · rw [List.mem_singleton.mp hmem]
      exact hline
  have hold : (back.zipIdx (front.length + 1)).filter
      (fun e => e.2 ≤ mark c front (back ++ [line])) =
        (back.zipIdx (front.length + 1)).filter fun e => e.2 ≤ mark c front back := by
    refine List.filter_congr fun e he => decide_eq_decide.mpr ?_
    have hlo := List.le_snd_of_mem_zipIdx he
    have hhi := List.snd_lt_add_of_mem_zipIdx he
    rw [mark, mark, List.length_append, List.length_singleton]
    split <;> omega
  rw [callsOf_quiet hfront hmore, callsOf_quiet hfront hback, List.zipIdx_append,
    List.filter_append, List.map_append, hold, List.append_assoc, List.zipIdx_singleton,
    Nat.add_right_comm]
  congr 2
  have hmark : front.length + back.length + 1 ≤ mark c front (back ++ [line]) ↔
      front ≠ [] ∧ back.length < c := by
    rw [mark, List.length_append, List.length_singleton]
    by_cases hne : front = []
    · simp [hne]
    · rw [if_neg hne, and_iff_right hne]
      omega
  by_cases hnear : front ≠ [] ∧ back.length < c
  · rw [if_pos hnear, List.filter_cons_of_pos (by simpa using hmark.mpr hnear)]
    rfl
  · rw [if_neg hnear, List.filter_cons_of_neg (by simpa using fun h => hnear (hmark.mp h))]
    rfl

/-! ### The state of a search -/

section

variable {σ : Type*} {onMatch : σ → ℕ → GoString → Bool → σ × Bool} {ctx : ℤ} {st : σ}

/-- **What a search holds** when the lines it has read are `front`, which ends in the last match,
and `back`. -/
structure SearchInv (onMatch : σ → ℕ → GoString → Bool → σ × Bool)
    (clip : GoString → Bool → GoString) (re : LinePattern) (ctx : ℤ) (st : σ)
    (front back : List CutLine) (s : BlobScan σ) : Prop where
  settled : Settled re front
  quiet : ∀ line ∈ back, Quiet re line
  out : s.out = (callsOf clip re ctx.toNat (front ++ back)).foldl (LineCall.run onMatch) st
  found : s.found = true ↔ front ≠ []
  cutLines : s.cutLines = (front ++ back).countP (·.truncated)
  before : s.before = (back.drop (back.length - ctx.toNat)).map (·.text)
  beforeAt : s.before ≠ [] → s.beforeAt = front.length + (back.length - ctx.toNat) + 1
  after : s.after.toNat = if front = [] then 0 else ctx.toNat - back.length
  lastEmitted : s.lastEmitted = mark ctx.toNat front back

theorem searchInv_start : SearchInv onMatch clip re ctx st [] [] { out := st } where
  settled := .inl rfl
  quiet := nofun
  out := rfl
  found := by simp
  cutLines := rfl
  before := by rw [List.drop_nil]; rfl
  beforeAt h := absurd rfl h
  after := rfl
  lastEmitted := rfl

theorem mark_le (c : ℕ) (front back : List CutLine) :
    mark c front back ≤ front.length + back.length := by
  rw [mark]
  split <;> omega

/-! #### The buffer -/

/-- Only the buffer changes. -/
theorem BlobScan.buffer_eq (s : BlobScan σ) (n : ℕ) (text : GoString) :
    s.buffer ctx n text = { s with before := (s.buffer ctx n text).before,
                                   beforeAt := (s.buffer ctx n text).beforeAt } := by
  rw [BlobScan.buffer]
  dsimp only
  by_cases hctx : 0 < ctx
  · rw [if_pos hctx]
    generalize (if s.before = [] then n else s.beforeAt) = beforeAt
    split <;> rfl
  · rw [if_neg hctx]

/-- **The buffer stays the end of the run**, and its first number stays right. -/
theorem BlobScan.buffer_spec {s : BlobScan σ} {back : List CutLine} {a : ℕ}
    (hbefore : s.before = (back.drop (back.length - ctx.toNat)).map (·.text))
    (hat : s.before ≠ [] → s.beforeAt = a + (back.length - ctx.toNat) + 1) (line : CutLine) :
    (s.buffer ctx (a + back.length + 1) line.text).before =
        ((back ++ [line]).drop ((back ++ [line]).length - ctx.toNat)).map (·.text) ∧
      ((s.buffer ctx (a + back.length + 1) line.text).before ≠ [] →
        (s.buffer ctx (a + back.length + 1) line.text).beforeAt =
          a + ((back ++ [line]).length - ctx.toNat) + 1) := by
  have hlen : s.before.length = back.length - (back.length - ctx.toNat) := by
    rw [hbefore, List.length_map, List.length_drop]
  have hnil : s.before = [] ↔ back.length - (back.length - ctx.toNat) = 0 := by
    rw [← hlen, List.length_eq_zero_iff]
  rw [List.length_append, List.length_singleton, BlobScan.buffer]
  by_cases hctx : 0 < ctx
  · rw [if_pos hctx]
    dsimp only
    have hdrop : s.before ++ [line.text] =
        ((back ++ [line]).drop (back.length - ctx.toNat)).map (·.text) := by
      rw [List.drop_append_of_le_length (Nat.sub_le _ _), List.map_append, ← hbefore]
      rfl
    split
    case isTrue hfull =>
      -- the run is longer than the context: its oldest line goes
      rw [List.length_append, List.length_singleton] at hfull
      have hne : s.before ≠ [] := fun h => by
        rw [hnil] at h
        omega
      refine ⟨?_, fun _ => ?_⟩
      · rw [hdrop, ← List.map_tail, List.tail_drop,
          show back.length - ctx.toNat + 1 = back.length + 1 - ctx.toNat by omega]
      · rw [if_neg hne, hat hne]
        show a + (back.length - ctx.toNat) + 1 + 1 = a + (back.length + 1 - ctx.toNat) + 1
        omega
    case isFalse hfits =>
      rw [List.length_append, List.length_singleton] at hfits
      refine ⟨?_, fun _ => ?_⟩
      · rw [hdrop, show back.length - ctx.toNat = back.length + 1 - ctx.toNat by omega]
      · by_cases hempty : s.before = []
        · rw [if_pos hempty]
          rw [hnil] at hempty
          show a + back.length + 1 = a + (back.length + 1 - ctx.toNat) + 1
          omega
        · rw [if_neg hempty, hat hempty]
          show a + (back.length - ctx.toNat) + 1 = a + (back.length + 1 - ctx.toNat) + 1
          omega
  · have hzero : ctx.toNat = 0 := by omega
    have hempty : s.before = [] := hnil.mpr (by omega)
    rw [if_neg hctx, hempty, hzero, Nat.sub_zero, List.drop_of_length_le (by simp)]
    exact ⟨rfl, fun h => absurd rfl h⟩

/-! #### Lines -/

variable (hgo : ∀ st n text isMatch, (onMatch st n text isMatch).2 = true)

include hgo

/-- A callback that never stops is called unless the line was called back with. -/
theorem BlobScan.emit_eq (s : BlobScan σ) (n : ℕ) (text : GoString) (isMatch : Bool) :
    s.emit onMatch clip n text isMatch =
      (if n ≤ s.lastEmitted then s
      else { s with out := LineCall.run onMatch s.out ⟨n, clip text isMatch, isMatch⟩,
                    lastEmitted := n }, true) := by
  rw [BlobScan.emit]
  split
  · rfl
  · exact Prod.ext rfl (hgo _ _ _ _)

/-- The calls of the loop over the buffer. -/
theorem BlobScan.emitBefore_eq (s : BlobScan σ) (n : ℕ) (lines : List GoString) :
    s.emitBefore onMatch clip n lines =
      ({ s with
          out := (((lines.zipIdx n).filter fun e => s.lastEmitted < e.2).map fun e =>
            (⟨e.2, clip e.1 false, false⟩ : LineCall)).foldl (LineCall.run onMatch) s.out
          lastEmitted := max s.lastEmitted (if lines = [] then 0 else n + lines.length - 1) },
        true) := by
  induction lines generalizing s n with
  | nil =>
    rw [BlobScan.emitBefore, if_pos rfl, Nat.max_zero]
    rfl
  | cons line lines ih =>
    rw [BlobScan.emitBefore, BlobScan.emit_eq hgo, List.zipIdx_cons, List.filter_cons]
    have hlast : max n (if lines = [] then 0 else n + 1 + lines.length - 1) =
        n + (line :: lines).length - 1 := by
      rw [List.length_cons]
      split
      case isTrue h => rw [h, List.length_nil]; omega
      case isFalse h => omega
    by_cases hn : n ≤ s.lastEmitted
    · have hnot : ¬ s.lastEmitted < n := by omega
      simp only [if_pos hn, hnot, decide_false, Bool.false_eq_true, if_false, ih,
        List.cons_ne_nil, ← hlast]
      congr 2
      omega
    · have hlt : s.lastEmitted < n := by omega
      have hall : (lines.zipIdx (n + 1)).filter (fun e => n < e.2) =
          (lines.zipIdx (n + 1)).filter fun e => s.lastEmitted < e.2 := by
        refine List.filter_congr fun e he => decide_eq_decide.mpr ?_
        have hle := List.le_snd_of_mem_zipIdx he
        omega
      simp only [if_neg hn, hlt, decide_true, if_true, ih, List.map_cons, List.foldl_cons,
        List.cons_ne_nil, if_false, hall, hlast]
      congr 2
      have hlen : n ≤ n + (line :: lines).length - 1 := by
        rw [List.length_cons]
        omega
      omega

/-- **A line that does not match** joins the run. -/
theorem SearchInv.quietLine {front back : List CutLine} {s : BlobScan σ}
    (h : SearchInv onMatch clip re ctx st front back s) {line : CutLine} (hline : Quiet re line) :
    ∃ s', s.line onMatch clip re ctx (front.length + back.length + 1) line.text line.truncated =
      (s', true) ∧ SearchInv onMatch clip re ctx st front (back ++ [line]) s' := by
  have hquiet : re.matchString line.text = false := hline
  have hmark := mark_le ctx.toNat front back
  have hnear : 0 < s.after ↔ front ≠ [] ∧ back.length < ctx.toNat := by
    have hafter := h.after
    by_cases hne : front = []
    · rw [if_pos hne] at hafter
      refine iff_of_false (by omega) fun h => h.1 hne
    · rw [if_neg hne] at hafter
      rw [and_iff_right hne]
      omega
  have hcount : (if line.truncated then { s with cutLines := s.cutLines + 1 } else s) =
      { s with cutLines := (front ++ (back ++ [line])).countP (·.truncated) } := by
    rw [← List.append_assoc, List.countP_append, ← h.cutLines, List.countP_singleton]
    split <;> rfl
  have hmore : ∀ line' ∈ back ++ [line], Quiet re line' := by
    intro line' hmem
    rcases List.mem_append.mp hmem with hmem | hmem
    · exact h.quiet line' hmem
    · rw [List.mem_singleton.mp hmem]
      exact hline
  have hout := @callsOf_more re ctx.toNat clip front back line h.settled h.quiet hline
  rw [BlobScan.line, hquiet]
  simp only [hcount, Bool.not_false, if_true]
  by_cases hafter : 0 < s.after
  · have hn : ¬ front.length + back.length + 1 ≤ s.lastEmitted := by
      rw [h.lastEmitted]
      omega
    rw [if_pos hafter, BlobScan.emit_eq hgo]
    simp only [if_neg hn]
    refine ⟨_, rfl, ?_⟩
    rw [if_pos (hnear.mp hafter)] at hout
    obtain ⟨hne, hlt⟩ := hnear.mp hafter
    obtain ⟨hbuffer, hat⟩ := @BlobScan.buffer_spec σ ctx
      { s with cutLines := (front ++ (back ++ [line])).countP (·.truncated)
               after := s.after - 1
               out := LineCall.run onMatch s.out
                ⟨front.length + back.length + 1, clip line.text false, false⟩
               lastEmitted := front.length + back.length + 1 } back front.length h.before h.beforeAt
      line
    rw [BlobScan.buffer_eq]
    refine ⟨h.settled, hmore, ?_, h.found, rfl, hbuffer, hat, ?_, ?_⟩
    · rw [hout, List.foldl_append, ← h.out]
      rfl
    · have hold := h.after
      rw [if_neg hne] at hold ⊢
      rw [List.length_append, List.length_singleton]
      show (s.after - 1).toNat = ctx.toNat - (back.length + 1)
      omega
    · rw [mark, if_neg hne, List.length_append, List.length_singleton]
      show front.length + back.length + 1 = front.length + min (back.length + 1) ctx.toNat
      omega
  · rw [if_neg hafter]
    refine ⟨_, rfl, ?_⟩
    rw [if_neg fun hn => hafter (hnear.mpr hn)] at hout
    obtain ⟨hbuffer, hat⟩ := @BlobScan.buffer_spec σ ctx
      { s with cutLines := (front ++ (back ++ [line])).countP (·.truncated) } back front.length
      h.before h.beforeAt line
    rw [BlobScan.buffer_eq]
    refine ⟨h.settled, hmore, ?_, h.found, rfl, hbuffer, hat, ?_, ?_⟩
    · rw [hout, List.append_nil]
      exact h.out
    · have hold := h.after
      show s.after.toNat = _
      rw [hold, List.length_append, List.length_singleton]
      split
      · rfl
      case isFalse hne =>
        rw [if_neg hne] at hold
        omega
    · show s.lastEmitted = _
      rw [h.lastEmitted, mark, mark, List.length_append, List.length_singleton]
      split
      · rfl
      case isFalse hne =>
        have hge : ¬ back.length < ctx.toNat := fun hlt => hafter (hnear.mpr ⟨hne, hlt⟩)
        omega

/-- **A line that matches** ends the run. -/
theorem SearchInv.matchLine {front back : List CutLine} {s : BlobScan σ}
    (h : SearchInv onMatch clip re ctx st front back s) {line : CutLine}
    (hline : re.matchString line.text = true) :
    ∃ s', s.line onMatch clip re ctx (front.length + back.length + 1) line.text line.truncated =
      (s', true) ∧ SearchInv onMatch clip re ctx st (front ++ back ++ [line]) [] s' := by
  have hcount : (if line.truncated then { s with cutLines := s.cutLines + 1 } else s) =
      { s with cutLines := (front ++ back ++ [line]).countP (·.truncated) } := by
    rw [List.countP_append, ← h.cutLines, List.countP_singleton]
    split <;> rfl
  have hmark := mark_le ctx.toNat front back
  have hlen : s.before.length = back.length - (back.length - ctx.toNat) := by
    rw [h.before, List.length_map, List.length_drop]
  -- the calls from the buffer are those of the run that are near and new
  have hcalls : ((s.before.zipIdx s.beforeAt).filter fun e => s.lastEmitted < e.2).map
      (fun e => (⟨e.2, clip e.1 false, false⟩ : LineCall)) =
        ((back.zipIdx (front.length + 1)).filter fun e =>
          decide (front.length + back.length + 1 ≤ e.2 + ctx.toNat) &&
            decide (mark ctx.toNat front back < e.2)).map (contextCall clip) := by
    have hdrop : (back.zipIdx (front.length + 1)).filter (fun e =>
        decide (front.length + back.length + 1 ≤ e.2 + ctx.toNat) &&
          decide (mark ctx.toNat front back < e.2)) =
        ((back.drop (back.length - ctx.toNat)).zipIdx
          (front.length + 1 + (back.length - ctx.toNat))).filter fun e =>
            mark ctx.toNat front back < e.2 := by
      rw [← filter_zipIdx_ge, List.filter_filter]
      refine List.filter_congr fun e he => ?_
      have hlo := List.le_snd_of_mem_zipIdx he
      rw [Bool.and_comm]
      congr 1
      exact decide_eq_decide.mpr (by omega)
    rw [hdrop, h.lastEmitted]
    by_cases hempty : s.before = []
    · have hnone : back.drop (back.length - ctx.toNat) = [] := by
        rw [h.before, List.map_eq_nil_iff] at hempty
        exact hempty
      rw [hempty, hnone]
      rfl
    · rw [h.beforeAt hempty, h.before, List.zipIdx_map, List.filter_map, List.map_map,
        Nat.add_right_comm front.length]
      rfl
  have hout := @callsOf_match re ctx.toNat clip front back line h.settled h.quiet hline
  have hlast : (if s.before = [] then 0 else s.beforeAt + s.before.length - 1) ≤
      front.length + back.length := by
    split
    case isTrue => omega
    case isFalse hne =>
      rw [h.beforeAt hne, hlen]
      omega
  have hn : ¬ front.length + back.length + 1 ≤
      max s.lastEmitted (if s.before = [] then 0 else s.beforeAt + s.before.length - 1) := by
    rw [h.lastEmitted]
    omega
  rw [BlobScan.line, hline]
  simp only [hcount, Bool.not_true, Bool.false_eq_true, if_false, BlobScan.emitBefore_eq hgo,
    BlobScan.emit_eq hgo, if_neg hn, hcalls]
  refine ⟨_, rfl, ?_⟩
  have hne : front ++ back ++ [line] ≠ [] := by simp
  refine ⟨.inr ⟨_, _, rfl, hline⟩, nofun, ?_, iff_of_true rfl hne, ?_, ?_, fun h => absurd rfl h,
    ?_, ?_⟩
  · rw [List.append_nil, hout, List.foldl_append, List.foldl_append, ← h.out]
    rfl
  · rw [List.append_nil]
  · rw [List.drop_nil]
    rfl
  · rw [if_neg hne]
    rfl
  · show front.length + back.length + 1 = mark ctx.toNat (front ++ back ++ [line]) []
    rw [mark, if_neg hne, List.length_nil, Nat.zero_min, List.length_append, List.length_append]
    rfl

/-- **The walk** keeps the description, whatever the lines are. -/
theorem SearchInv.walk {front back : List CutLine} {s : BlobScan σ}
    (h : SearchInv onMatch clip re ctx st front back s) (max : ℕ) (lines : List GoString) :
    ∃ front' back', front' ++ back' = front ++ back ++ lines.map (cutLine max) ∧
      SearchInv onMatch clip re ctx st front' back' (walkLines (BlobScan.line onMatch clip re ctx) max
        (front.length + back.length + 1) s lines) := by
  induction lines generalizing front back s with
  | nil => exact ⟨front, back, by simp, h⟩
  | cons line lines ih =>
    rw [walkLines]
    cases hmatch : re.matchString (cutLine max line).text with
    | false =>
      obtain ⟨s', hs', hinv⟩ := h.quietLine hgo hmatch
      obtain ⟨front', back', heq, hwalk⟩ := ih hinv
      rw [hs']
      refine ⟨front', back', by rw [heq]; simp, ?_⟩
      rwa [List.length_append, ← Nat.add_assoc] at hwalk
    | true =>
      obtain ⟨s', hs', hinv⟩ := h.matchLine hgo hmatch
      obtain ⟨front', back', heq, hwalk⟩ := ih hinv
      rw [hs']
      refine ⟨front', back', by rw [heq]; simp, ?_⟩
      rwa [List.length_append, List.length_append] at hwalk

end

/-! ### What a search shows -/

/-- Whether a line of a text matches. -/
def MatchesAt (re : LinePattern) (text : GoString) (n : ℕ) : Prop :=
  1 ≤ n ∧ ∃ line, (textLines text)[n - 1]? = some line ∧
    re.matchString (line.take maxGrepLine) = true

/-- **What a search shows**: every line that matches, as a match; every other line within the
context of one; each once, in order, under its number and with its text; and whether any line was
cut. -/
structure ShowsMatches (clip : GoString → Bool → GoString) (re : LinePattern) (ctx : ℤ)
    (text : GoString) (calls : List LineCall) (found : Bool) (cut : ℕ) : Prop where
  increasing : (calls.map (·.line)).Pairwise (· < ·)
  matches_ : ∀ n, (∃ call ∈ calls, call.line = n ∧ call.isMatch = true) ↔ MatchesAt re text n
  context : ∀ n, (∃ call ∈ calls, call.line = n ∧ call.isMatch = false) ↔
    (1 ≤ n ∧ n ≤ (textLines text).length) ∧ ¬ MatchesAt re text n ∧
      ∃ m, MatchesAt re text m ∧ (n : ℤ) - m ≤ ctx ∧ (m : ℤ) - n ≤ ctx
  shown : ∀ call ∈ calls, ∃ line, (textLines text)[call.line - 1]? = some line ∧
    call.text = clip (line.take maxGrepLine) call.isMatch
  found : found = true ↔ ∃ n, MatchesAt re text n
  cut : 0 < cut ↔ ∃ line ∈ textLines text, maxGrepLine < line.length

/-- The lines of a text as they are searched. -/
def searched (text : GoString) : List CutLine := (textLines text).map (cutLine maxGrepLine)

theorem mem_numbered_searched {text : GoString} {e : CutLine × ℕ} :
    e ∈ numbered (searched text) ↔ 1 ≤ e.2 ∧
      ∃ line, (textLines text)[e.2 - 1]? = some line ∧ e.1 = cutLine maxGrepLine line := by
  rw [mem_numbered, searched, List.getElem?_map, Option.map_eq_some_iff]
  exact and_congr_right fun _ => exists_congr fun _ => and_congr_right fun _ => eq_comm

theorem matchesAt_iff {text : GoString} {n : ℕ} : MatchesAt re text n ↔
    ∃ e ∈ numbered (searched text), e.2 = n ∧ re.matchString e.1.text = true := by
  constructor
  · rintro ⟨hn, line, hline, hmatch⟩
    exact ⟨(cutLine maxGrepLine line, n), mem_numbered_searched.mpr ⟨hn, line, hline, rfl⟩, rfl,
      hmatch⟩
  · rintro ⟨e, he, rfl, hmatch⟩
    obtain ⟨hn, line, hline, heq⟩ := mem_numbered_searched.mp he
    rw [heq] at hmatch
    exact ⟨hn, line, hline, hmatch⟩

/-- A number stands for one line. -/
theorem numbered_inj {lines : List CutLine} {e e' : CutLine × ℕ} (h : e ∈ numbered lines)
    (h' : e' ∈ numbered lines) (heq : e.2 = e'.2) : e = e' := by
  have hget := (mem_numbered.mp h).2
  rw [heq, (mem_numbered.mp h').2] at hget
  exact Prod.ext (Option.some.inj hget).symm heq

/-- **The calls that lines deserve show what a search is for.** -/
theorem showsMatches_callsOf (clip : GoString → Bool → GoString) (re : LinePattern) (ctx : ℤ)
    (text : GoString) {found : Bool} (hfound : found = true ↔ ∃ n, MatchesAt re text n) :
    ShowsMatches clip re ctx text (callsOf clip re ctx.toNat (searched text)) found
      ((searched text).countP (·.truncated)) := by
  have hmem {call : LineCall} : call ∈ callsOf clip re ctx.toNat (searched text) ↔
      ∃ e ∈ numbered (searched text), callOf clip re ctx.toNat (searched text) e = some call :=
    List.mem_filterMap
  have hnear {n : ℕ} (hn : ¬ MatchesAt re text n) : Near re ctx.toNat (searched text) n ↔
      ∃ m, MatchesAt re text m ∧ (n : ℤ) - m ≤ ctx ∧ (m : ℤ) - n ≤ ctx := by
    constructor
    · rintro ⟨e, he, hmatch, hback, hfront⟩
      have hat : MatchesAt re text e.2 := matchesAt_iff.mpr ⟨e, he, rfl, hmatch⟩
      have hne : n ≠ e.2 := fun heq => hn (heq ▸ hat)
      exact ⟨e.2, hat, by omega, by omega⟩
    · rintro ⟨m, hm, hback, hfront⟩
      obtain ⟨e, he, rfl, hmatch⟩ := matchesAt_iff.mp hm
      exact ⟨e, he, hmatch, by omega, by omega⟩
  refine ⟨?_, fun n => ?_, fun n => ?_, fun call hcall => ?_, hfound, ?_⟩
  · rw [List.pairwise_map, callsOf, List.pairwise_filterMap]
    have hsorted : (numbered (searched text)).Pairwise fun e e' => e.2 < e'.2 := by
      rw [numbered, ← List.pairwise_map (f := Prod.snd), List.zipIdx_map_snd]
      exact List.pairwise_lt_range'
    refine hsorted.imp fun {e e'} hlt call hcall call' hcall' => ?_
    have hline {e : CutLine × ℕ} {call : LineCall}
        (h : callOf clip re ctx.toNat (searched text) e = some call) : call.line = e.2 := by
      rw [callOf] at h
      split_ifs at h <;> exact (congrArg LineCall.line (Option.some.inj h)).symm
    rw [hline hcall, hline hcall']
    exact hlt
  · rw [matchesAt_iff]
    constructor
    · rintro ⟨call, hcall, rfl, hflag⟩
      obtain ⟨e, he, heq⟩ := hmem.mp hcall
      rw [callOf] at heq
      split_ifs at heq with hmatch hn
      · obtain rfl := Option.some.inj heq
        exact ⟨e, he, rfl, hmatch⟩
      · obtain rfl := Option.some.inj heq
        cases hflag
    · rintro ⟨e, he, rfl, hmatch⟩
      exact ⟨_, hmem.mpr ⟨e, he, by rw [callOf, if_pos hmatch]⟩, rfl, rfl⟩
  · constructor
    · rintro ⟨call, hcall, rfl, hflag⟩
      obtain ⟨e, he, heq⟩ := hmem.mp hcall
      rw [callOf] at heq
      split_ifs at heq with hmatch hn
      · obtain rfl := Option.some.inj heq
        cases hflag
      · obtain rfl := Option.some.inj heq
        have hnot : ¬ MatchesAt re text e.2 := by
          intro hat
          obtain ⟨e', he', heq, hmatch'⟩ := matchesAt_iff.mp hat
          rw [numbered_inj he' he heq] at hmatch'
          exact hmatch hmatch'
        have hle := le_of_mem_numbered he
        rw [searched, List.length_map] at hle
        exact ⟨hle, hnot, (hnear hnot).mp hn⟩
    · rintro ⟨⟨hlo, hhi⟩, hnot, hex⟩
      obtain ⟨line, hline⟩ : ∃ line, (textLines text)[n - 1]? = some line :=
        ⟨_, List.getElem?_eq_getElem (by omega)⟩
      have he : (cutLine maxGrepLine line, n) ∈ numbered (searched text) :=
        mem_numbered_searched.mpr ⟨hlo, line, hline, rfl⟩
      have hquiet : ¬ re.matchString (cutLine maxGrepLine line).text = true :=
        fun hmatch => hnot (matchesAt_iff.mpr ⟨_, he, rfl, hmatch⟩)
      exact ⟨_, hmem.mpr ⟨_, he, by rw [callOf, if_neg hquiet, if_pos ((hnear hnot).mpr hex)]⟩,
        rfl, rfl⟩
  · obtain ⟨e, he, heq⟩ := hmem.mp hcall
    obtain ⟨-, line, hline, hcut⟩ := mem_numbered_searched.mp he
    rw [callOf, hcut] at heq
    split_ifs at heq <;>
    · obtain rfl := Option.some.inj heq
      exact ⟨line, hline, rfl⟩
  · rw [List.countP_pos_iff]
    simp [searched, cutLine]

/-- Something matched when a match stands in front of the run. -/
theorem SearchInv.front_ne_nil_iff {σ : Type*} {onMatch : σ → ℕ → GoString → Bool → σ × Bool}
    {ctx : ℤ} {st : σ} {front back : List CutLine} {s : BlobScan σ} {text : GoString}
    (h : SearchInv onMatch clip re ctx st front back s) (hlines : front ++ back = searched text) :
    front ≠ [] ↔ ∃ n, MatchesAt re text n := by
  simp only [matchesAt_iff, ← hlines, numbered_append]
  constructor
  · intro hne
    obtain ⟨init, line, rfl, hmatch⟩ := h.settled.resolve_left hne
    refine ⟨_, (line, init.length + 1), List.mem_append_left _ (mem_numbered.mpr ?_), rfl, hmatch⟩
    simp
  · rintro ⟨n, e, he, -, hmatch⟩ rfl
    have hquiet : re.matchString e.1.text = false := quiet_zipIdx h.quiet _ e he
    rw [hquiet] at hmatch
    cases hmatch

/-- **A search shows exactly the matching lines and their surroundings.** -/
theorem scanBlob_shows {σ : Type*} {onMatch : σ → ℕ → GoString → Bool → σ × Bool}
    (hgo : ∀ st n text isMatch, (onMatch st n text isMatch).2 = true)
    (humanSize : ℕ → GoString) (re : LinePattern) (ctx : ℤ) (st : σ) {text : GoString}
    (htext : isBinary text = false) : ∃ calls found cut,
      scanBlob onMatch humanSize re ctx st text =
        (calls.foldl (LineCall.run onMatch) st, found, false, cut) ∧
      ShowsMatches (clipAroundMatch humanSize re) re ctx text calls found cut := by
  have hstart : SearchInv onMatch (clipAroundMatch humanSize re) re ctx st [] [] { out := st } :=
    searchInv_start
  obtain ⟨front, back, hsplit, hinv⟩ := hstart.walk hgo maxGrepLine (textLines text)
  have hlines : front ++ back = searched text := hsplit
  refine ⟨callsOf (clipAroundMatch humanSize re) re ctx.toNat (searched text), _,
    (searched text).countP (·.truncated), ?_, showsMatches_callsOf _ _ _ _
      (hinv.found.trans (hinv.front_ne_nil_iff hlines))⟩
  rw [scanBlob, htext, if_neg Bool.false_ne_true, eachLine_eq _ _ (by decide), ← hlines,
    ← hinv.out, ← hinv.cutLines]
  rfl

/-- A line with two around it, found in a text of four. -/
theorem scanBlob_shows_middle : ∃ calls found cut,
    scanBlob (fun (calls : List LineCall) n text isMatch => (calls ++ [⟨n, text, isMatch⟩], true))
      (fun _ => []) ⟨fun line => line == ascii "b", fun _ => some 0⟩ 1 []
        (ascii "a\nb\r\nc\nd") =
      (calls.foldl (LineCall.run fun calls n text isMatch =>
        (calls ++ [⟨n, text, isMatch⟩], true)) [], found, false, cut) ∧
    ShowsMatches (clipAroundMatch (fun _ => []) ⟨fun line => line == ascii "b", fun _ => some 0⟩)
      ⟨fun line => line == ascii "b", fun _ => some 0⟩ 1 (ascii "a\nb\r\nc\nd") calls found cut :=
  scanBlob_shows (fun _ _ _ _ => rfl) _ _ _ _ (by decide)

end Beardrive
