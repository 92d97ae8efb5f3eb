import Beardrive.Lib.GapMatch
import Beardrive.Lib.SlashPath

/-!
# The file pattern of a data query

A query names its files by a pattern: a path whose segments may be literal, may hold `*` and `?`,
may be a capture in braces, or may be `**`, which stands for any number of segments and may occur
once. What a pattern says is told by its text alone (`Says`); what the validator makes of it is the
list of its segments, the place of the `**`, and the literal segments it begins with.

## Main definitions

* `chars`, `globMatches` — characters, and `*` and `?` among them
* `Says` — what a pattern says
* `DataPattern`, `parsePattern` — what the validator makes of it
* `classify` — the kind of a segment

## Main results

* `segmentSays_iff` — what a segment says, by its kind
* `parsePattern_spec` — the segments are those of the text, and the prefix is what it begins with
-/

namespace Beardrive

/-! ### What a pattern says -/

/-- The characters of a text. A byte that is part of none is one by itself. -/
def chars (s : GoString) : List GoString := (decodeAll s).map Prod.snd

/-- A character, or any. -/
def charOK (want : Option GoString) (c : GoString) : Prop := ∀ w ∈ want, w = c

instance (want : Option GoString) (c : GoString) : Decidable (charOK want c) :=
  inferInstanceAs (Decidable (∀ w ∈ want, w = c))

/-- A character of a segment with wildcards: a gap, any character, or itself. -/
def globTest (c : GoString) : Option (Option GoString) :=
  if c = ascii "*" then none else if c = ascii "?" then some none else some (some c)

/-- A segment matches one with wildcards. -/
def globMatches (g seg : GoString) : Prop := gapMatch charOK ((chars g).map globTest) (chars seg)

instance (g seg : GoString) : Decidable (globMatches g seg) :=
  inferInstanceAs (Decidable (gapMatch charOK _ _))

/-- The first byte of a capture's name. -/
def captureStart (b : UInt8) : Bool := (0x61 ≤ b && b ≤ 0x7A) || b = 0x5F

/-- The bytes behind it. -/
def captureByte (b : UInt8) : Bool := captureStart b || (0x30 ≤ b && b ≤ 0x39)

/-- `captureRe`: the name in the braces. -/
def captureName (seg : GoString) : Option GoString :=
  match seg with
  | 0x7B :: b :: rest =>
    if captureStart b && rest.getLast? = some 0x7D && rest.dropLast.all captureByte then
      some (b :: rest.dropLast)
    else none
  | _ => none

/-- A segment of a path is one a segment of the pattern says: a capture says any. -/
def segmentSays (seg s : GoString) : Prop := (captureName seg).isSome ∨ globMatches seg s

instance (seg s : GoString) : Decidable (segmentSays seg s) :=
  inferInstanceAs (Decidable (_ ∨ globMatches _ _))

/-- A segment of the pattern's text: `**` is a gap. -/
def segmentGap (seg : GoString) : Option GoString := if seg = ascii "**" then none else some seg

/-- The pattern says the path, segment by segment. -/
def Says (pattern path : GoString) : Prop :=
  gapMatch segmentSays ((segments pattern).map segmentGap) (segments path)

instance (pattern path : GoString) : Decidable (Says pattern path) :=
  inferInstanceAs (Decidable (gapMatch segmentSays _ _))

/-! ### What the validator makes of it -/

/-- `patSeg`. -/
inductive PatSeg
  | lit (text : GoString)
  | glob (text : GoString)
  | capture (name : GoString)
  | star
  deriving DecidableEq, Repr

/-- `dataPattern`. -/
structure DataPattern where
  segs : List PatSeg := []
  star : Option ℕ := none
  pre : GoString := []
  deriving DecidableEq

/-- Why a pattern is refused. -/
inductive PatternError
  | shape
  | emptySegment
  | twoStars
  | badCapture (name : GoString)
  | partCapture (seg : GoString)
  | dots (seg : GoString)
  deriving DecidableEq

/-- `systemField`. -/
def systemField (name : GoString) : Bool :=
  [ascii "path", ascii "sha", ascii "changed", ascii "changed_by", ascii "url", ascii "item",
    ascii "doc"].contains name

/-- `strings.ContainsAny`, of braces. -/
def hasBrace (seg : GoString) : Bool := seg.any fun b => b = 0x7B || b = 0x7D

/-- `strings.ContainsAny`, of wildcards. -/
def hasWild (seg : GoString) : Bool := seg.any fun b => b = 0x2A || b = 0x3F

/-- The loop of `parsePattern`: the pattern so far, the names it has captured, and whether all its
segments were literal. -/
structure ParseState where
  pat : DataPattern := {}
  seen : List GoString := []
  literal : Bool := true

/-- One segment of the text. -/
def ParseState.step (st : ParseState) (seg : GoString) : Except PatternError ParseState :=
  if seg = [] then .error .emptySegment
  else if seg = ascii "**" then
    if st.pat.star.isSome then .error .twoStars
    else .ok { st with
      pat := { st.pat with star := some st.pat.segs.length, segs := st.pat.segs ++ [.star] }
      literal := false }
  else match captureName seg with
    | some name =>
      if st.seen.contains name || systemField name then .error (.badCapture name)
      else .ok
        { pat := { st.pat with segs := st.pat.segs ++ [.capture name] }
          seen := name :: st.seen
          literal := false }
    | none =>
      if hasBrace seg then .error (.partCapture seg)
      else if hasWild seg then
        .ok { st with
          pat := { st.pat with segs := st.pat.segs ++ [.glob seg] }
          literal := false }
      else if seg = ascii "." ∨ seg = ascii ".." then .error (.dots seg)
      else .ok { st with
        pat := { st.pat with
          segs := st.pat.segs ++ [.lit seg]
          pre := if st.literal then st.pat.pre ++ seg ++ [slash] else st.pat.pre } }

/-- `parsePattern`. -/
def parsePattern (s : GoString) : Except PatternError DataPattern :=
  if s = [] ∨ hasPrefix s [slash] ∨ hasSuffix s [slash] then .error .shape
  else ((segments s).foldlM ParseState.step {}).map ParseState.pat

/-! ### Segments -/

/-- What a segment of the text is. -/
def classify (seg : GoString) : PatSeg :=
  if seg = ascii "**" then .star
  else match captureName seg with
    | some name => .capture name
    | none => if hasWild seg then .glob seg else .lit seg

/-- A literal one. -/
def isLiteral (seg : GoString) : Bool := classify seg = .lit seg

theorem chars_flatten (s : GoString) : (chars s).flatten = s := flatten_decodeAll s

theorem chars_injective : Function.Injective chars := fun s t h => by
  rw [← chars_flatten s, h, chars_flatten]

/-- A segment without wildcards matches itself alone. -/
theorem globMatches_of_plain {seg : GoString} (h : ∀ b ∈ seg, b ≠ 0x2A ∧ b ≠ 0x3F) (a : GoString) :
    globMatches seg a ↔ a = seg := by
  have htest : (chars seg).map globTest = ((chars seg).map some).map some := by
    rw [List.map_map]
    refine List.map_congr_left fun c hc => ?_
    have hbyte : ∀ b ∈ c, b ≠ 0x2A ∧ b ≠ 0x3F := fun b hb => h b <| by
      rw [← chars_flatten seg]
      exact List.mem_flatten_of_mem hc hb
    rw [globTest, if_neg, if_neg]
    · rfl
    · rintro rfl
      exact (hbyte 0x3F (by decide)).2 rfl
    · rintro rfl
      exact (hbyte 0x2A (by decide)).1 rfl
  have hself : List.Forall₂ charOK ((chars seg).map some) (chars a) ↔ chars seg = chars a := by
    rw [List.forall₂_map_left_iff, ← List.forall₂_eq_eq_eq]
    have hchar : (fun c => charOK (some c)) = (Eq : GoString → GoString → Prop) := by
      funext c d
      exact propext ⟨fun h => h c rfl, fun h w hw => Option.some.inj hw ▸ h⟩
    rw [hchar]
  rw [globMatches, htest, gapMatch_map_some, hself, chars_injective.eq_iff, eq_comm]

theorem classify_star : classify (ascii "**") = .star := if_pos rfl

theorem classify_capture {seg name : GoString} (hstar : seg ≠ ascii "**")
    (hname : captureName seg = some name) : classify seg = .capture name := by
  rw [classify, if_neg hstar, hname]

theorem classify_plain {seg : GoString} (hstar : seg ≠ ascii "**")
    (hname : captureName seg = none) :
    classify seg = if hasWild seg then .glob seg else .lit seg := by
  rw [classify, if_neg hstar, hname]

/-- **What a segment says, by its kind.** -/
theorem segmentSays_iff (seg a : GoString) : match classify seg with
    | .lit text => text = seg ∧ (segmentSays seg a ↔ a = seg)
    | .glob text => text = seg ∧ (segmentSays seg a ↔ globMatches seg a)
    | .capture _ => segmentSays seg a
    | .star => seg = ascii "**" := by
  by_cases hstar : seg = ascii "**"
  · rw [hstar, classify_star]
  · cases hname : captureName seg with
    | some name =>
      rw [classify_capture hstar hname]
      exact .inl (by rw [hname]; rfl)
    | none =>
      have hseg : segmentSays seg a ↔ globMatches seg a := by
        rw [segmentSays, hname]
        exact or_iff_right (by simp)
      rw [classify_plain hstar hname]
      by_cases hwild : hasWild seg = true
      · rw [if_pos hwild]
        exact ⟨rfl, hseg⟩
      · rw [if_neg hwild]
        refine ⟨rfl, hseg.trans (globMatches_of_plain (fun b hb => ?_) a)⟩
        rw [hasWild, List.any_eq_true] at hwild
        constructor
        · rintro rfl
          exact hwild ⟨_, hb, rfl⟩
        · rintro rfl
          exact hwild ⟨_, hb, rfl⟩

theorem classify_eq_star_iff {seg : GoString} : classify seg = .star ↔ seg = ascii "**" := by
  refine ⟨fun h => ?_, fun h => h ▸ classify_star⟩
  by_contra hstar
  cases hname : captureName seg with
  | some name =>
    rw [classify_capture hstar hname] at h
    cases h
  | none =>
    rw [classify_plain hstar hname] at h
    split_ifs at h

/-! ### The loop -/

/-- What the loop knows behind the segments it has read. -/
structure ParseState.Reads (done : List GoString) (st : ParseState) : Prop where
  segs : st.pat.segs = done.map classify
  star : ∀ k, st.pat.star = some k ↔ st.pat.segs[k]? = some .star
  literal : st.literal = done.all isLiteral
  pre : st.pat.pre = (done.takeWhile isLiteral).flatMap (· ++ [slash])
  ne_nil : ∀ seg ∈ done, seg ≠ []

theorem takeWhile_concat (l : List GoString) (seg : GoString) :
    (l ++ [seg]).takeWhile isLiteral =
      if l.all isLiteral && isLiteral seg then l ++ [seg] else l.takeWhile isLiteral := by
  induction l with
  | nil =>
    cases h : isLiteral seg <;> simp [h]
  | cons x l ih =>
    cases h : isLiteral x
    · simp [h]
    · rw [List.cons_append, List.takeWhile_cons, h, ih, List.all_cons, h, Bool.true_and,
        List.takeWhile_cons, h, if_pos rfl, if_pos rfl]
      split_ifs
      · rfl
      · rfl

/-- One segment is read: the four things that can come of it. -/
theorem ParseState.step_cases {st st' : ParseState} {seg : GoString} (h : st.step seg = .ok st') :
    seg ≠ [] ∧ st'.pat.segs = st.pat.segs ++ [classify seg] ∧
      (classify seg = .star ∧ st.pat.star = none ∧ st'.pat.star = some st.pat.segs.length ∨
        classify seg ≠ .star ∧ st'.pat.star = st.pat.star) ∧
      (isLiteral seg = true ∧ st'.literal = st.literal ∧
          st'.pat.pre = (if st.literal then st.pat.pre ++ seg ++ [slash] else st.pat.pre) ∨
        isLiteral seg = false ∧ st'.literal = false ∧ st'.pat.pre = st.pat.pre) := by
  rw [step] at h
  by_cases hnil : seg = []
  · rw [if_pos hnil] at h
    cases h
  rw [if_neg hnil] at h
  refine ⟨hnil, ?_⟩
  by_cases hstar : seg = ascii "**"
  · have hclass : classify seg = .star := classify_eq_star_iff.mpr hstar
    have hliteral : isLiteral seg = false := by
      rw [isLiteral, hclass]
      rfl
    rw [if_pos hstar] at h
    split_ifs at h with htwice
    cases h
    exact ⟨by rw [hclass], .inl ⟨hclass, Option.not_isSome_iff_eq_none.mp htwice, rfl⟩,
      .inr ⟨hliteral, rfl, rfl⟩⟩
  rw [if_neg hstar] at h
  have hne : classify seg ≠ .star := fun h => hstar (classify_eq_star_iff.mp h)
  cases hname : captureName seg with
  | some name =>
    have hclass := classify_capture hstar hname
    have hliteral : isLiteral seg = false := by
      rw [isLiteral, hclass]
      rfl
    rw [hname] at h
    dsimp only at h
    split_ifs at h with hused
    cases h
    exact ⟨by rw [hclass], .inr ⟨hne, rfl⟩, .inr ⟨hliteral, rfl, rfl⟩⟩
  | none =>
    have hclass := classify_plain hstar hname
    rw [hname] at h
    dsimp only at h
    by_cases hbrace : hasBrace seg = true
    · rw [if_pos hbrace] at h
      cases h
    rw [if_neg hbrace] at h
    by_cases hwild : hasWild seg = true
    · rw [if_pos hwild] at h hclass
      have hliteral : isLiteral seg = false := by
        rw [isLiteral, hclass]
        rfl
      cases h
      exact ⟨by rw [hclass], .inr ⟨hne, rfl⟩, .inr ⟨hliteral, rfl, rfl⟩⟩
    · rw [if_neg hwild] at h hclass
      have hliteral : isLiteral seg = true := decide_eq_true hclass
      by_cases hdots : seg = ascii "." ∨ seg = ascii ".."
      · rw [if_pos hdots] at h
        cases h
      · rw [if_neg hdots] at h
        cases h
        exact ⟨by rw [hclass], .inr ⟨hne, rfl⟩, .inl ⟨hliteral, rfl, rfl⟩⟩

theorem ParseState.Reads.step {done : List GoString} {st st' : ParseState} {seg : GoString}
    (h : st.Reads done) (hstep : st.step seg = .ok st') : st'.Reads (done ++ [seg]) := by
  obtain ⟨hnil, hsegs, hstar, hliteral⟩ := ParseState.step_cases hstep
  refine ⟨?_, fun k => ?_, ?_, ?_, ?_⟩
  · rw [hsegs, h.segs, List.map_append, List.map_singleton]
  · rw [hsegs, List.getElem?_append]
    rcases hstar with ⟨hclass, hnone, hsome⟩ | ⟨hclass, hsame⟩
    · rw [hsome, hclass]
      have hbefore := (h.star k).not.mp (by rw [hnone]; nofun)
      split_ifs with hk
      · exact iff_of_false (fun h => by cases h; omega) hbefore
      · rw [Option.some.injEq]
        constructor
        · rintro rfl
          rw [Nat.sub_self]
          rfl
        · intro hget
          have hlt := (List.getElem?_eq_some_iff.mp hget).1
          simp only [List.length_singleton] at hlt
          omega
    · rw [hsame, h.star]
      split_ifs with hk
      · rfl
      · rw [List.getElem?_eq_none (by omega)]
        refine iff_of_false nofun fun hget => ?_
        obtain ⟨hlt, heq⟩ := List.getElem?_eq_some_iff.mp hget
        exact hclass (by simpa using heq)
  · rw [List.all_append, List.all_cons, List.all_nil, Bool.and_true, ← h.literal]
    rcases hliteral with ⟨hlit, hsame, -⟩ | ⟨hlit, hoff, -⟩
    · rw [hlit, hsame, Bool.and_true]
    · rw [hlit, hoff, Bool.and_false]
  · rw [takeWhile_concat, ← h.literal]
    rcases hliteral with ⟨hlit, -, hpre⟩ | ⟨hlit, -, hpre⟩
    · rw [hpre, hlit, Bool.and_true]
      split_ifs with hall
      · have htake : done.takeWhile isLiteral = done := by
          rw [h.literal] at hall
          exact List.takeWhile_eq_self_iff.mpr (List.all_eq_true.mp hall)
        rw [h.pre, htake, List.flatMap_append, List.flatMap_singleton, List.append_assoc]
      · exact h.pre
    · rw [hpre, hlit, Bool.and_false, if_neg Bool.false_ne_true]
      exact h.pre
  · intro x hx
    rcases List.mem_append.mp hx with hx | hx
    · exact h.ne_nil x hx
    · exact List.mem_singleton.mp hx ▸ hnil

theorem ParseState.Reads.run {segs done : List GoString} {st st' : ParseState}
    (h : st.Reads done) (hrun : segs.foldlM ParseState.step st = .ok st') :
    st'.Reads (done ++ segs) := by
  induction segs generalizing done st with
  | nil =>
    cases hrun
    rwa [List.append_nil]
  | cons seg segs ih =>
    rw [List.foldlM_cons] at hrun
    cases hstep : st.step seg with
    | error e =>
      rw [hstep] at hrun
      cases hrun
    | ok mid =>
      rw [hstep] at hrun
      have hrest := ih (h.step hstep) hrun
      rwa [List.append_assoc, List.singleton_append] at hrest

/-- **What an accepted pattern is**: its segments are those of the text, the star is the one segment
that is one, and the prefix is made of the literal segments in front. -/
structure DataPattern.ParsedFrom (s : GoString) (p : DataPattern) : Prop where
  segs : p.segs = (segments s).map classify
  star : ∀ k, p.star = some k ↔ p.segs[k]? = some .star
  pre : p.pre = ((segments s).takeWhile isLiteral).flatMap (· ++ [slash])
  ne_nil : ∀ seg ∈ segments s, seg ≠ []

theorem parsePattern_spec {s : GoString} {p : DataPattern} (h : parsePattern s = .ok p) :
    p.ParsedFrom s := by
  rw [parsePattern] at h
  split_ifs at h with hshape
  cases hrun : (segments s).foldlM ParseState.step {} with
  | error e =>
    rw [hrun] at h
    cases h
  | ok st =>
    rw [hrun] at h
    cases h
    have hstart : ParseState.Reads [] {} :=
      ⟨rfl, fun k => iff_of_false nofun (by simp), rfl, rfl, nofun⟩
    have hend := hstart.run hrun
    rw [List.nil_append] at hend
    exact ⟨hend.segs, hend.star, hend.pre, hend.ne_nil⟩

end Beardrive
