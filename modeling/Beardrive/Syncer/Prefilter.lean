import Beardrive.Syncer.Prune

/-!
# The shortcuts of the matcher

A rule without a wildcard is compared with a path as bytes, and the expression of any other rule is
run only on a path that holds the longest literal of the rule. Both are derived beside the
expression, in the loop that writes it: the literal from the run of bytes since the last wildcard,
its place from the bytes read so far. The place is that of the end; the beginning is the end less
the length of the run without its escapes, and so at most too far to the right.

What the comparisons rest on is that a valid path can be cut wherever its runes can be cut, into
the bytes that encode the parts.

## Main definitions

* `Build.Tracks` — what the loop keeps of the longest literal

## Main results

* `lit_spelled` — where the literal of a rule stands in its expression
* `matches_eq_regexMatch` — the shortcuts decide what the expression decides
-/

namespace Beardrive

/-! ### Cutting a path at its runes -/

/-- The bytes of a sequence of runes. -/
def encodeRunes (s : List Rune) : GoString := s.flatMap encodeRune

theorem encodeRunes_runes {s : GoString} (h : validUTF8 s = true) : encodeRunes (runes s) = s :=
  toValid_eq_self_iff.mpr h

theorem encodeRunes_append (s t : List Rune) :
    encodeRunes (s ++ t) = encodeRunes s ++ encodeRunes t :=
  List.flatMap_append

theorem encodeRunes_slash (s : List Rune) :
    encodeRunes (slashRune :: s) = slash :: encodeRunes s := by
  rw [encodeRunes, List.flatMap_cons]
  rfl

/-! ### The longest literal -/

/-- Nothing, or something that ends in a wildcard. -/
def ClosedRun (front : List Token) : Prop := front = [] ∨ ∃ f e, front = f ++ [Token.wild e]

/-- Nothing, or something that starts with a wildcard. -/
def OpenRun (back : List Token) : Prop := back = [] ∨ ∃ e b, back = Token.wild e :: b

/-- Where the longest literal stands in the source of an expression: the wildcards beside it
delimit it, nothing is in front of one that starts at the front, and no more is behind it than was
read since its end. -/
structure Build.Placed (s : Build) (i : ℤ) (front back : List Token) : Prop where
  source : s.source = front ++ s.lit.map Token.byte ++ back
  closed : ClosedRun front
  start : (front.length : ℤ) ≤ s.litStart
  stop : (back.length : ℤ) ≤ i - s.litEnd

/-- What holds in front of every byte of a body, `i` of which are read: the run since the last
wildcard is where the source ends, and a literal that was kept is in front of a wildcard. -/
structure Build.Tracks (s : Build) (i : ℤ) : Prop where
  read : (s.source.length : ℤ) ≤ i
  current : ∃ front, s.source = front ++ s.literal.map Token.byte ∧ ClosedRun front
  kept : s.lit = [] ∧ s.litStart = -1 ∨ ∃ front e back, s.Placed i front (Token.wild e :: back)

theorem Build.Tracks.mono {s : Build} {i j : ℤ} (h : s.Tracks i) (hij : i ≤ j) : s.Tracks j := by
  refine ⟨h.read.trans hij, h.current, h.kept.imp_right ?_⟩
  rintro ⟨front, e, back, hsource, hclosed, hstart, hstop⟩
  exact ⟨front, e, back, hsource, hclosed, hstart, by omega⟩

theorem Build.Tracks.byte {s : Build} {i : ℤ} (h : s.Tracks i) (b : UInt8) :
    (s.byte b).Tracks (i + 1) := by
  obtain ⟨front, hsource, hclosed⟩ := h.current
  refine ⟨?_, ⟨front, ?_, hclosed⟩, h.kept.imp_right ?_⟩
  · have := h.read
    show ((s.source ++ [Token.byte b]).length : ℤ) ≤ i + 1
    rw [List.length_append, List.length_singleton]
    omega
  · show s.source ++ [Token.byte b] = front ++ (s.literal ++ [b]).map Token.byte
    rw [hsource, List.map_append, List.append_assoc]
    rfl
  · rintro ⟨front, e, back, hsource, hclosed, hstart, hstop⟩
    refine ⟨front, e, back ++ [Token.byte b], ?_, hclosed, hstart, ?_⟩
    · show s.source ++ [Token.byte b] =
        front ++ s.lit.map Token.byte ++ Token.wild e :: (back ++ [Token.byte b])
      rw [hsource, List.append_assoc]
      rfl
    · show (((Token.wild e :: (back ++ [Token.byte b])).length : ℕ) : ℤ) ≤ i + 1 - s.litEnd
      simp only [List.length_cons, List.length_append, List.length_nil] at hstop ⊢
      omega

/-- The end of a run: the literal that is kept is delimited on both sides. -/
theorem Build.Tracks.flush {s : Build} {i : ℤ} (h : s.Tracks i) :
    (s.flush i).lit = [] ∧ (s.flush i).litStart = -1 ∨
      ∃ front back, (s.flush i).Placed i front back ∧ OpenRun back := by
  have hkept : s.lit = [] ∧ s.litStart = -1 ∨
      ∃ front back, s.Placed i front back ∧ OpenRun back := by
    refine h.kept.imp_right ?_
    rintro ⟨front, e, back, hplaced⟩
    exact ⟨front, Token.wild e :: back, hplaced, .inr ⟨e, back, rfl⟩⟩
  obtain ⟨front, hsource, hclosed⟩ := h.current
  rw [Build.flush]
  dsimp only
  split_ifs with hnil hlonger
  · exact hkept
  · refine .inr ⟨front, [], ⟨?_, hclosed, ?_, ?_⟩, .inl rfl⟩
    · rw [List.append_nil]
      exact hsource
    · have hread := h.read
      rw [hsource, List.length_append, List.length_map] at hread
      show (front.length : ℤ) ≤ i - s.literal.length
      push_cast at hread
      omega
    · show ((0 : ℕ) : ℤ) ≤ i - i
      omega
  · refine hkept.imp_right ?_
    rintro ⟨front, back, hplaced, hopen⟩
    exact ⟨front, back, ⟨hplaced.source, hplaced.closed, hplaced.start, hplaced.stop⟩, hopen⟩

theorem Build.flush_source (s : Build) (i : ℤ) : (s.flush i).source = s.source := by
  rw [Build.flush]
  dsimp only
  split_ifs <;> rfl

theorem Build.flush_literal (s : Build) (i : ℤ) : (s.flush i).literal = [] := by
  rw [Build.flush]
  dsimp only
  split_ifs with hnil
  · exact hnil
  · rfl
  · rfl

theorem Build.Tracks.wild {s : Build} {i : ℤ} (h : s.Tracks i) (e : Elem) :
    (s.wild i e).Tracks (i + 1) := by
  refine ⟨?_, ⟨s.source ++ [Token.wild e], ?_, .inr ⟨_, e, rfl⟩⟩, ?_⟩
  · have := h.read
    show (((s.flush i).source ++ [Token.wild e]).length : ℤ) ≤ i + 1
    rw [Build.flush_source, List.length_append, List.length_singleton]
    omega
  · show (s.flush i).source ++ [Token.wild e] =
      s.source ++ [Token.wild e] ++ (s.flush i).literal.map Token.byte
    rw [Build.flush_source, Build.flush_literal, List.map_nil, List.append_nil]
  · refine h.flush.imp_right ?_
    rintro ⟨front, back, ⟨hsource, hclosed, hstart, hstop⟩, hopen⟩
    have hsource' : (s.wild i e).source =
        front ++ (s.wild i e).lit.map Token.byte ++ (back ++ [Token.wild e]) := by
      show (s.flush i).source ++ [Token.wild e] = front ++ (s.flush i).lit.map Token.byte ++ _
      rw [hsource, List.append_assoc]
    have hstop' : ((back ++ [Token.wild e]).length : ℤ) ≤ i + 1 - (s.wild i e).litEnd := by
      show _ ≤ i + 1 - (s.flush i).litEnd
      rw [List.length_append, List.length_singleton]
      omega
    rcases hopen with rfl | ⟨e', back, rfl⟩
    · exact ⟨front, e, [], hsource', hclosed, hstart, hstop'⟩
    · rw [List.cons_append] at hsource' hstop'
      exact ⟨front, e', back ++ [Token.wild e], hsource', hclosed, hstart, hstop'⟩

theorem Build.Tracks.buildBody {i : ℤ} {body : GoString} {s : Build} (h : s.Tracks i) :
    (buildBody i body s).Tracks (i + body.length) := by
  fun_induction Beardrive.buildBody i body s with
  | case1 => exact h.mono (by simp)
  | case2 => exact (h.byte _).mono (by simp)
  | case3 i b s hb c body ih =>
    refine (ih ((h.byte c).mono (by omega))).mono ?_
    simp only [List.length_cons]
    omega
  | case4 => exact (h.wild _).mono (by simp)
  | case5 i b s hb hstar c body hdeep ih =>
    refine (ih ((h.wild _).mono (by omega))).mono ?_
    simp only [List.length_cons]
    omega
  | case6 i b s hb hstar c body hdeep ih =>
    refine (ih (h.wild _)).mono ?_
    simp only [List.length_cons]
    omega
  | case7 i b body s hb hstar hone ih =>
    refine (ih (h.wild _)).mono ?_
    simp only [List.length_cons]
    omega
  | case8 i b body s hb hstar hone ih =>
    refine (ih (h.byte _)).mono ?_
    simp only [List.length_cons]
    omega

/-! ### The literal in the expression -/

theorem elemsOf_bytes_append (bytes : GoString) (source : List Token) (run : GoString) :
    elemsOf (bytes.map Token.byte ++ source) run = elemsOf source (run ++ bytes) := by
  induction bytes generalizing run with
  | nil => simp
  | cons b bytes ih => simp [elemsOf, ih]

/-- A wildcard cuts an expression. -/
theorem elemsOf_wild_append {front source : List Token} {e : Elem} {run : GoString}
    {elems : List Elem} (h : elemsOf (front ++ Token.wild e :: source) run = some elems) :
    ∃ before behind, elems = before ++ behind ∧ elemsOf source [] = some behind := by
  induction front generalizing run elems with
  | nil =>
    simp only [List.nil_append, elemsOf, Option.bind_eq_bind, Option.bind_eq_some_iff] at h
    obtain ⟨rest, hrest, h⟩ := h
    split at h
    · exact ⟨(runes run).map Elem.lit ++ [e], rest, by rw [← Option.some.inj h]; simp, hrest⟩
    · cases h
  | cons t front ih =>
    cases t with
    | byte b => exact ih h
    | wild e' =>
      simp only [List.cons_append, elemsOf, Option.bind_eq_bind, Option.bind_eq_some_iff] at h
      obtain ⟨rest, hrest, h⟩ := h
      obtain ⟨before, behind, rfl, hbehind⟩ := ih hrest
      split at h
      · exact ⟨(runes run).map Elem.lit ++ e' :: before, behind, by rw [← Option.some.inj h]; simp,
          hbehind⟩
      · cases h

/-- A run that wildcards delimit stands in the expression as its runes. -/
theorem elemsOf_run {front back : List Token} {lit : GoString} {elems : List Elem}
    (hfront : ClosedRun front) (hback : OpenRun back)
    (h : elemsOf (front ++ lit.map Token.byte ++ back) [] = some elems) :
    validUTF8 lit = true ∧ ∃ before behind,
      elems = before ++ (runes lit).map Elem.lit ++ behind ∧
        (front = [] → before = []) ∧ (back = [] → behind = []) := by
  have hrun {elems : List Elem} (h : elemsOf (lit.map Token.byte ++ back) [] = some elems) :
      validUTF8 lit = true ∧ ∃ behind, elems = (runes lit).map Elem.lit ++ behind ∧
        (back = [] → behind = []) := by
    rw [elemsOf_bytes_append, List.nil_append] at h
    rcases hback with rfl | ⟨e, b, rfl⟩
    · rw [elemsOf] at h
      split at h
      · rename_i hvalid
        exact ⟨hvalid, [], by rw [List.append_nil, ← Option.some.inj h], fun _ => rfl⟩
      · cases h
    · simp only [elemsOf, Option.bind_eq_bind, Option.bind_eq_some_iff] at h
      obtain ⟨rest, -, h⟩ := h
      split at h
      · rename_i hvalid
        exact ⟨hvalid, e :: rest, (Option.some.inj h).symm, fun h => absurd h (by simp)⟩
      · cases h
  rcases hfront with rfl | ⟨f, e, rfl⟩
  · rw [List.nil_append] at h
    obtain ⟨hvalid, behind, rfl, hbehind⟩ := hrun h
    exact ⟨hvalid, [], behind, rfl, fun _ => rfl, hbehind⟩
  · rw [List.append_assoc, List.append_assoc, List.singleton_append] at h
    obtain ⟨before, rest, rfl, hrest⟩ := elemsOf_wild_append h
    obtain ⟨hvalid, behind, rfl, hbehind⟩ := hrun hrest
    exact ⟨hvalid, before, behind, by rw [List.append_assoc], fun h => absurd h (by simp), hbehind⟩

theorem spells_map_lit {s u : List Rune} : Spells (s.map Elem.lit) u ↔ u = s := by
  induction s generalizing u with
  | nil => exact Iff.rfl
  | cons r s ih =>
    constructor
    · rintro ⟨a, b, rfl, rfl, hb⟩
      rw [ih.mp hb]
      rfl
    · rintro rfl
      exact ⟨[r], s, rfl, rfl, ih.mpr rfl⟩

/-! ### What a compiled rule compares -/

/-- **Where the literal of a rule stands in its expression.** A rule that compares it behind a
slash or at the front has nothing in front of it, and one that adds a slash has nothing behind. -/
structure Pattern.LitSpelled (p : Pattern) (lit : GoString) : Prop where
  valid : validUTF8 lit = true
  spelled : ∃ before behind, p.elems = before ++ (runes lit).map Elem.lit ++ behind ∧
    (p.slashLit ≠ [] → before = [] ∧ p.anchored = false ∧ p.slashLit = slash :: p.lit) ∧
      (p.lit = lit ∨ p.lit = lit ++ [slash] ∧ p.dirOnly = true ∧ behind = [])

theorem lit_spelled_of_compileBody {negate anchored dirOnly : Bool} {body : GoString} {p : Pattern}
    (h : compileBody negate anchored dirOnly body = some p) (hlit : p.lit ≠ []) :
    ∃ lit, p.LitSpelled lit := by
  obtain ⟨elems, helems, rfl⟩ := Option.map_eq_some_iff.mp h
  have hstart : ({} : Build).Tracks 0 := ⟨le_rfl, ⟨[], rfl, .inl rfl⟩, .inl ⟨rfl, rfl⟩⟩
  have htracks := @Build.Tracks.buildBody 0 body _ hstart
  rw [zero_add] at htracks
  have hplaced := htracks.flush
  generalize (buildBody 0 body {}).flush body.length = s at *
  generalize hslit : (if dirOnly && s.lit != [] && s.litEnd == body.length then s.lit ++ [slash]
    else s.lit) = lit at *
  rcases hplaced with ⟨hnil, hnone⟩ | ⟨front, back, hplaced, hopen⟩
  · refine absurd ?_ hlit
    have : lit = [] := by
      rw [← hslit, hnil]
      simp
    split <;> exact this
  · rw [hplaced.source] at helems
    obtain ⟨hvalid, before, behind, rfl, hbefore, hbehind⟩ :=
      elemsOf_run hplaced.closed hopen helems
    refine ⟨s.lit, hvalid, before, behind, ?_, ?_, ?_⟩
    · split <;> rfl
    · intro hne
      have hne' : (if !(anchored || hasBareSlash body) && s.litStart == 0 && lit != [] then
          slash :: lit else []) ≠ [] := by
        split at hne <;> exact hne
      split at hne'
      case isFalse => exact absurd rfl hne'
      case isTrue hcond =>
        obtain ⟨⟨hanch, hzero⟩, -⟩ :
            ((anchored || hasBareSlash body) = false ∧ s.litStart = 0) ∧ lit ≠ [] := by
          simpa using hcond
        refine ⟨hbefore (List.length_eq_zero_iff.mp ?_), ?_, ?_⟩
        · have := hplaced.start
          omega
        · split <;> exact hanch
        · rw [if_pos hcond]
          split <;> rfl
    · have hcases : lit = s.lit ∨ lit = s.lit ++ [slash] ∧ dirOnly = true ∧ behind = [] := by
        rw [← hslit]
        split
        case isFalse => exact .inl rfl
        case isTrue hcond =>
          simp only [Bool.and_eq_true, beq_iff_eq] at hcond
          obtain ⟨⟨hdir, -⟩, hend⟩ := hcond
          refine .inr ⟨rfl, hdir, hbehind (List.length_eq_zero_iff.mp ?_)⟩
          have := hplaced.stop
          omega
      split <;> exact hcases

/-- A rule without a wildcard names a valid path. -/
theorem validUTF8_exactSeg {negate anchored dirOnly : Bool} {body : GoString} {p : Pattern}
    (h : compileBody negate anchored dirOnly body = some p) (hne : p.exactSeg ≠ []) :
    validUTF8 p.exactSeg = true := by
  obtain ⟨elems, helems, rfl⟩ := Option.map_eq_some_iff.mp h
  have hbytes : ((buildBody 0 body {}).flush body.length).Bytes :=
    (Build.Bytes.buildBody fun _ => rfl).flush _
  by_cases hw : ((buildBody 0 body {}).flush body.length).wildcard = true
  · rw [if_pos hw] at hne
    exact absurd rfl hne
  · rw [if_neg hw]
    rw [hbytes (Bool.not_eq_true _ ▸ hw), elemsOf_bytes, List.nil_append] at helems
    split at helems
    · assumption
    · cases helems

/-- What the shortcuts of a compiled rule rest on. -/
structure Pattern.Short (p : Pattern) : Prop extends p.Fine where
  valid : p.exactSeg ≠ [] → validUTF8 p.exactSeg = true
  lit : p.lit ≠ [] → ∃ lit, p.LitSpelled lit

theorem short_of_compile {line : GoString} {p : Pattern} (h : compile line = some p) :
    p.Short := by
  have hfine := fine_of_compile h
  rw [compile] at h
  dsimp only at h
  split_ifs at h
  · exact { hfine with valid := validUTF8_exactSeg h, lit := lit_spelled_of_compileBody h }
  · exact { hfine with valid := validUTF8_exactSeg h, lit := lit_spelled_of_compileBody h }

/-! ### The shortcuts -/

section Shortcuts

variable {p : Pattern} {rel : GoString}

/-- Where a valid path matches, its bytes are cut as its runes are. -/
theorem exists_cut (hvalid : validUTF8 rel = true) (h : p.regexMatch rel = true) :
    ∃ pre u v, rel = encodeRunes pre ++ encodeRunes u ++ encodeRunes v ∧
      (encodeRunes pre = [] ∨ p.anchored = false ∧ [slash] <:+ encodeRunes pre) ∧
        Spells p.elems u ∧ matchTail p.dirOnly v = true ∧ p.StartsAt pre := by
  obtain ⟨pre, u, v, hrel, hpre, hu, hv⟩ := regexMatch_iff.mp h
  refine ⟨pre, u, v, ?_, ?_, hu, hv, hpre⟩
  · conv_lhs => rw [← encodeRunes_runes hvalid, hrel]
    rw [encodeRunes_append, encodeRunes_append, List.append_assoc]
  · rcases hpre with rfl | ⟨hanch, a, rfl⟩
    · exact .inl rfl
    · refine .inr ⟨hanch, encodeRunes a, ?_⟩
      rw [encodeRunes_append, encodeRunes_slash]
      rfl

/-- The bytes of a tail: nothing, or what goes on below a directory. -/
theorem encodeRunes_tail {dirOnly : Bool} {v : List Rune} (h : matchTail dirOnly v = true) :
    dirOnly = false ∧ v = [] ∨ ∃ w, encodeRunes v = slash :: w := by
  cases v with
  | nil => exact .inl ⟨by simpa [matchTail] using h, rfl⟩
  | cons r v =>
    rw [matchTail, Bool.and_eq_true, beq_iff_eq] at h
    rw [h.1, encodeRunes_slash]
    exact .inr ⟨_, rfl⟩

/-- **A match holds the literal** where the rule compares it. -/
theorem lit_of_regexMatch (hp : p.Short) (hlit : p.lit ≠ []) (hvalid : validUTF8 rel = true)
    (h : p.regexMatch rel = true) :
    p.lit <:+: rel ∧ (p.slashLit ≠ [] → p.lit <+: rel ∨ p.slashLit <:+: rel) := by
  obtain ⟨lit, hlitvalid, before, behind, helems, hslash, hcases⟩ := hp.lit hlit
  obtain ⟨pre, u, v, hrel, hpre, hu, hv, -⟩ := exists_cut hvalid h
  rw [helems, spells_append, ] at hu
  obtain ⟨ab, c, rfl, hab, hc⟩ := hu
  obtain ⟨a, b, rfl, ha, hb⟩ := spells_append.mp hab
  rw [spells_map_lit.mp hb, encodeRunes_append, encodeRunes_append,
    encodeRunes_runes hlitvalid] at hrel
  -- the literal and the slash behind it, if the rule adds one, are where the elements end
  have hbehind : ∃ rest, lit ++ (encodeRunes c ++ encodeRunes v) = p.lit ++ rest := by
    rcases hcases with heq | ⟨heq, hdir, rfl⟩
    · exact ⟨_, by rw [heq]⟩
    · rcases encodeRunes_tail hv with ⟨hdir', -⟩ | ⟨w, hw⟩
      · rw [hdir] at hdir'
        cases hdir'
      · refine ⟨w, ?_⟩
        rw [heq, show c = [] from hc, hw]
        simp [encodeRunes]
  obtain ⟨rest, hrest⟩ := hbehind
  have hrel' : rel = encodeRunes pre ++ encodeRunes a ++ (p.lit ++ rest) := by
    rw [hrel, ← hrest]
    simp only [List.append_assoc]
  constructor
  · rw [hrel', ← List.append_assoc]
    exact ⟨_, _, rfl⟩
  · intro hne
    obtain ⟨rfl, -, hslashLit⟩ := hslash hne
    obtain rfl : a = [] := ha
    rw [hrel', hslashLit]
    rcases hpre with hnil | ⟨-, x, hx⟩
    · refine .inl ⟨rest, ?_⟩
      rw [hnil]
      rfl
    · refine .inr ⟨x, rest, ?_⟩
      rw [← hx]
      simp [encodeRunes]

/-- A rule without a wildcard spells the path it names. -/
theorem spells_exact (hp : p.Fine) (hne : p.exactSeg ≠ []) {u : List Rune} :
    Spells p.elems u ↔ u = runes p.exactSeg := by
  rw [hp.elems hne, spells_map_lit]

/-- Where the named path stands in a path, on its own or with something below it. -/
theorem regexMatch_exact_iff (hp : p.Short) (hne : p.exactSeg ≠ []) (hvalid : validUTF8 rel = true)
    (hline : 0x0A ∉ rel) :
    p.regexMatch rel = true ↔ ∃ pre post, rel = pre ++ p.exactSeg ++ post ∧
      (pre = [] ∨ p.anchored = false ∧ [slash] <:+ pre) ∧
        (p.dirOnly = false ∧ post = [] ∨ [slash] <+: post) := by
  constructor
  · intro h
    obtain ⟨pre, u, v, hrel, hpre, hu, hv, -⟩ := exists_cut hvalid h
    rw [(spells_exact hp.toFine hne).mp hu, encodeRunes_runes (hp.valid hne)] at hrel
    refine ⟨_, _, hrel, hpre, ?_⟩
    rcases encodeRunes_tail hv with ⟨hdir, rfl⟩ | ⟨w, hw⟩
    · exact .inl ⟨hdir, rfl⟩
    · exact .inr ⟨w, hw.symm⟩
  · rintro ⟨pre, post, rfl, hpre, hpost⟩
    have htail : runes (p.exactSeg ++ post) = runes p.exactSeg ++ runes post ∧
        matchTail p.dirOnly (runes post) = true := by
      rcases hpost with ⟨hdir, rfl⟩ | ⟨t, rfl⟩
      · simp [matchTail, hdir]
      · rw [List.singleton_append, runes_append_ascii slash_ascii, runes_slash]
        refine ⟨rfl, ?_⟩
        rw [matchTail, Bool.and_eq_true, List.all_eq_true]
        refine ⟨by simp, fun r hr => notNewline_iff.mpr ?_⟩
        rintro rfl
        refine hline (List.mem_append_right _ (List.mem_append_right _ ?_))
        exact mem_of_mem_runes hr (by decide)
    rw [List.append_assoc]
    rcases hpre with rfl | ⟨hanch, x, rfl⟩
    · exact regexMatch_iff.mpr ⟨[], _, _, by rw [List.nil_append, List.nil_append, htail.1], .inl rfl,
        (spells_exact hp.toFine hne).mpr rfl, htail.2⟩
    · refine regexMatch_iff.mpr ⟨runes x ++ [slashRune], _, _, ?_, .inr ⟨hanch, _, rfl⟩,
        (spells_exact hp.toFine hne).mpr rfl, htail.2⟩
      rw [List.append_assoc, List.singleton_append, runes_append_ascii slash_ascii, runes_slash,
        htail.1, List.append_assoc, List.singleton_append]

/-- The comparisons of a rule without a wildcard, as cuts of the path. -/
theorem matches_exact_iff (hp : p.Fine) (hne : p.exactSeg ≠ []) :
    p.matches rel = true ↔ ∃ pre post, rel = pre ++ p.exactSeg ++ post ∧
      (pre = [] ∨ p.anchored = false ∧ [slash] <:+ pre) ∧
        (p.dirOnly = false ∧ post = [] ∨ [slash] <+: post) := by
  have hprefix : p.segPrefix <+: rel ↔
      ∃ post, rel = p.exactSeg ++ post ∧ [slash] <+: post := by
    rw [hp.segPrefix hne]
    constructor
    · rintro ⟨t, rfl⟩
      exact ⟨slash :: t, by simp, t, rfl⟩
    · rintro ⟨_, rfl, t, rfl⟩
      exact ⟨t, by simp⟩
  have hsuffix (ha : p.anchored = false) : p.segSuffix <:+ rel ↔
      ∃ pre, rel = pre ++ p.exactSeg ∧ [slash] <:+ pre := by
    rw [hp.segSuffix hne ha]
    constructor
    · rintro ⟨t, rfl⟩
      exact ⟨t ++ [slash], by simp, t, rfl⟩
    · rintro ⟨_, rfl, t, rfl⟩
      exact ⟨t, by simp⟩
  have hinfix (ha : p.anchored = false) : p.segInfix <:+: rel ↔
      ∃ pre post, rel = pre ++ p.exactSeg ++ post ∧ [slash] <:+ pre ∧ [slash] <+: post := by
    rw [hp.segInfix hne ha]
    constructor
    · rintro ⟨t, t', rfl⟩
      exact ⟨t ++ [slash], slash :: t', by simp, ⟨t, rfl⟩, t', rfl⟩
    · rintro ⟨_, _, rfl, ⟨t, rfl⟩, t', rfl⟩
      exact ⟨t, t', by simp⟩
  rw [Pattern.matches, if_pos hne]
  cases hanch : p.anchored with
  | true =>
    simp only [if_true, Bool.true_eq_false, false_and, or_false]
    cases hdir : p.dirOnly with
    | true =>
      simp only [if_true, hasPrefix_iff, hprefix, Bool.true_eq_false, false_and, false_or]
      constructor
      · rintro ⟨post, rfl, hpost⟩
        exact ⟨[], post, rfl, rfl, hpost⟩
      · rintro ⟨_, post, rfl, rfl, hpost⟩
        exact ⟨post, rfl, hpost⟩
    | false =>
      simp only [Bool.false_eq_true, if_false, Bool.or_eq_true, beq_iff_eq, hasPrefix_iff, hprefix,
        true_and]
      constructor
      · rintro (rfl | ⟨post, rfl, hpost⟩)
        · exact ⟨[], [], by simp, rfl, .inl rfl⟩
        · exact ⟨[], post, rfl, rfl, .inr hpost⟩
      · rintro ⟨_, post, rfl, rfl, rfl | hpost⟩
        · exact .inl (by simp)
        · exact .inr ⟨post, rfl, hpost⟩
  | false =>
    simp only [Bool.false_eq_true, if_false, true_and]
    cases hdir : p.dirOnly with
    | true =>
      simp only [if_true, Bool.or_eq_true, hasPrefix_iff, hprefix, contains_iff, hinfix hanch,
        Bool.true_eq_false, false_and, false_or]
      constructor
      · rintro (⟨post, rfl, hpost⟩ | ⟨pre, post, rfl, hpre, hpost⟩)
        · exact ⟨[], post, rfl, .inl rfl, hpost⟩
        · exact ⟨pre, post, rfl, .inr hpre, hpost⟩
      · rintro ⟨pre, post, rfl, rfl | hpre, hpost⟩
        · exact .inl ⟨post, rfl, hpost⟩
        · exact .inr ⟨pre, post, rfl, hpre, hpost⟩
    | false =>
      simp only [Bool.false_eq_true, if_false, Bool.or_eq_true, beq_iff_eq, hasPrefix_iff, hprefix,
        hasSuffix_iff, hsuffix hanch, contains_iff, hinfix hanch, true_and]
      constructor
      · rintro (((rfl | ⟨post, rfl, hpost⟩) | ⟨pre, rfl, hpre⟩) | ⟨pre, post, rfl, hpre, hpost⟩)
        · exact ⟨[], [], by simp, .inl rfl, .inl rfl⟩
        · exact ⟨[], post, rfl, .inl rfl, .inr hpost⟩
        · exact ⟨pre, [], by simp, .inr hpre, .inl rfl⟩
        · exact ⟨pre, post, rfl, .inr hpre, .inr hpost⟩
      · rintro ⟨pre, post, rfl, rfl | hpre, rfl | hpost⟩
        · exact .inl (.inl (.inl (by simp)))
        · exact .inl (.inl (.inr ⟨post, rfl, hpost⟩))
        · exact .inl (.inr ⟨pre, by simp, hpre⟩)
        · exact .inr ⟨pre, post, rfl, hpre, hpost⟩

end Shortcuts

/-- **The shortcuts decide what the expression decides**, for every rule that compiles and every
valid path without a line feed. -/
theorem matches_eq_regexMatch {line : GoString} {p : Pattern} (h : compile line = some p)
    {rel : GoString} (hvalid : validUTF8 rel = true) (hline : 0x0A ∉ rel) :
    p.matches rel = p.regexMatch rel := by
  have hp := short_of_compile h
  by_cases hne : p.exactSeg = []
  swap
  · rw [Bool.eq_iff_iff, matches_exact_iff hp.toFine hne, regexMatch_exact_iff hp hne hvalid hline]
  rw [Pattern.matches, if_neg (not_not.mpr hne)]
  by_cases hlit : p.lit = []
  · rw [if_neg (not_not.mpr hlit)]
  rw [if_pos hlit]
  -- the comparison in front of the expression fails only where the expression does
  cases hmatch : p.regexMatch rel with
  | false => simp
  | true =>
    obtain ⟨hin, hslash⟩ := lit_of_regexMatch hp hlit hvalid hmatch
    by_cases hslit : p.slashLit = []
    · rw [if_neg (not_not.mpr hslit), contains_iff.mpr hin]
      rfl
    · rw [if_pos hslit]
      rcases hslash hslit with h | h
      · rw [hasPrefix_iff.mpr h]
        rfl
      · rw [contains_iff.mpr h, Bool.not_true, Bool.and_false]
        rfl

theorem matches_eq_regexMatch_starTmp : ∃ p, compile (ascii "*.tmp") = some p ∧
    p.matches (ascii "notes/a.tmp") = p.regexMatch (ascii "notes/a.tmp") := by
  have h : (compile (ascii "*.tmp")).isSome = true := by decide +kernel
  exact ⟨_, (Option.some_get h).symm, matches_eq_regexMatch (Option.some_get h).symm
    (by decide +kernel) (by decide +kernel)⟩

end Beardrive
