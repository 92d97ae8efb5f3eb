import Beardrive.Lib.GoString
import Mathlib.Data.List.DropRight
import Mathlib.Data.List.Induction

/-!
# Slash-separated paths

A path is read through its segments, the strings between the slashes. Nothing here refers to any
particular program: `clean`, `base` and `splitDir` are those of the `path` package.

## Main definitions

* `segments` — `strings.Split (p, "/")`
* `clean` — the lexical normal form, one segment at a time over a stack
* `Plain` — segments that name something below the directory they are in

## Main results

* `clean_eq_self_iff` — the relative paths that are their own normal form and do not climb are
  exactly those with plain segments
-/

namespace Beardrive

/-- The path separator. -/
def slash : UInt8 := 0x2F

/-- `strings.Split (p, "/")`. -/
def segments (p : GoString) : List GoString := p.splitOn slash

/-- `strings.Join (segs, "/")`. -/
def joinSlash (segs : List GoString) : GoString := [slash].intercalate segs

/-- `path.IsAbs`. -/
def isAbs (p : GoString) : Bool := hasPrefix p [slash]

/-- `strings.Trim (p, "/")`. -/
def trimSlashes (p : GoString) : GoString :=
  (p.dropWhile fun b => b == slash).rdropWhile fun b => b == slash

/-- One segment against the output so far, its last segment first. -/
def cleanStep (rooted : Bool) (out : List GoString) (seg : GoString) : List GoString :=
  if seg = [] ∨ seg = ascii "." then out
  else if seg = ascii ".." then
    match out with
    | [] => if rooted then [] else [seg]
    | top :: rest => if top = ascii ".." then seg :: out else rest
  else seg :: out

/-- `path.Clean`: the shortest path equivalent to `p` by purely lexical processing. -/
def clean (p : GoString) : GoString :=
  let out := joinSlash ((segments p).foldl (cleanStep (isAbs p)) []).reverse
  if isAbs p then slash :: out else if out = [] then ascii "." else out

/-- `path.Split`: everything up to and including the last slash, and the rest. -/
def splitDir (p : GoString) : GoString × GoString :=
  let file := (p.reverse.takeWhile (· ≠ slash)).reverse
  (p.take (p.length - file.length), file)

/-- `path.Base`: the last segment, trailing slashes apart. -/
def base (p : GoString) : GoString :=
  if p = [] then ascii "."
  else
    let trimmed := (p.reverse.dropWhile (· = slash)).reverse
    if trimmed = [] then [slash] else (splitDir trimmed).2

/-- A segment that names something below the directory it is in. -/
def Plain (seg : GoString) : Prop := seg ≠ [] ∧ seg ≠ ascii "." ∧ seg ≠ ascii ".."

instance (seg : GoString) : Decidable (Plain seg) := by unfold Plain; infer_instance

/-- Whether a path is another or lies below it. -/
def below (u rel : GoString) : Bool := rel == u || hasPrefix rel (u ++ [slash])

/-! ### Segments -/

@[simp] theorem segments_nil : segments [] = [[]] := rfl

theorem segments_ne_nil (p : GoString) : segments p ≠ [] := List.splitOn_ne_nil slash p

@[simp] theorem joinSlash_segments (p : GoString) : joinSlash (segments p) = p :=
  List.intercalate_splitOn slash

theorem segments_joinSlash {segs : List GoString} (h : ∀ s ∈ segs, slash ∉ s) (hne : segs ≠ []) :
    segments (joinSlash segs) = segs :=
  List.splitOn_intercalate slash h hne

theorem segments_append (p q : GoString) :
    segments (p ++ slash :: q) = segments p ++ segments q :=
  List.splitOn_append_cons_self p q

theorem segments_of_not_mem {p : GoString} (h : slash ∉ p) : segments p = [p] :=
  List.splitOn_eq_singleton h

theorem not_mem_of_mem_segments {p seg : GoString} (h : seg ∈ segments p) : slash ∉ seg :=
  notMem_of_mem_splitOn h

/-- The first segment ends where the first slash stands. -/
theorem head_segments (p q : GoString) (h : slash ∉ p) :
    segments (p ++ slash :: q) = p :: segments q := by
  rw [segments_append, segments_of_not_mem h, List.singleton_append]

theorem joinSlash_cons (seg : GoString) {segs : List GoString} (h : segs ≠ []) :
    joinSlash (seg :: segs) = seg ++ slash :: joinSlash segs := by
  cases segs with
  | nil => exact absurd rfl h
  | cons seg' segs => simp [joinSlash, List.intercalate]

theorem joinSlash_append {init last : List GoString} (hinit : init ≠ []) (hlast : last ≠ []) :
    joinSlash (init ++ last) = joinSlash init ++ slash :: joinSlash last := by
  induction init with
  | nil => exact absurd rfl hinit
  | cons seg init ih =>
    by_cases hne : init = []
    · subst hne
      have hone : joinSlash [seg] = seg := List.append_nil seg
      rw [hone]
      exact joinSlash_cons seg hlast
    · rw [List.cons_append, joinSlash_cons _ (by simp [hlast]), ih hne, joinSlash_cons _ hne,
        List.append_assoc, List.cons_append]

/-- A path of plain names neither starts nor ends with a slash. -/
theorem joinSlash_tight {names : List GoString} (hne : names ≠ [])
    (h : ∀ name ∈ names, Plain name ∧ slash ∉ name) :
    joinSlash names ≠ [] ∧ ¬ [slash] <+: joinSlash names ∧ ¬ [slash] <:+ joinSlash names := by
  have hsegs : segments (joinSlash names) = names := segments_joinSlash (fun n hn => (h n hn).2) hne
  have hempty : [] ∉ segments (joinSlash names) := by
    rw [hsegs]
    exact fun hmem => (h [] hmem).1.1 rfl
  refine ⟨fun heq => hempty ?_, ?_, ?_⟩
  · rw [heq, segments_nil]
    exact List.mem_singleton_self _
  · rintro ⟨rest, heq⟩
    rw [← heq, List.singleton_append, ← List.nil_append (slash :: rest), segments_append,
      segments_nil] at hempty
    exact hempty (List.mem_append_left _ (List.mem_singleton_self _))
  · rintro ⟨init, heq⟩
    rw [← heq, segments_append, segments_nil] at hempty
    exact hempty (List.mem_append_right _ (List.mem_singleton_self _))

/-- A path lies below another when its segments go on from the other's. -/
theorem below_iff {u rel : GoString} : below u rel = true ↔ segments u <+: segments rel := by
  rw [below, Bool.or_eq_true, beq_iff_eq, hasPrefix_iff]
  constructor
  · rintro (rfl | ⟨t, rfl⟩)
    · exact List.prefix_rfl
    · rw [List.append_assoc, List.singleton_append, segments_append]
      exact List.prefix_append _ _
  · rintro ⟨last, hlast⟩
    rw [← joinSlash_segments rel, ← hlast]
    by_cases hnil : last = []
    · rw [hnil, List.append_nil, joinSlash_segments]
      exact .inl rfl
    · rw [joinSlash_append (segments_ne_nil u) hnil, joinSlash_segments]
      exact .inr ⟨joinSlash last, by simp⟩

theorem below_trans {u v rel : GoString} (h : below u v = true) (h' : below v rel = true) :
    below u rel = true :=
  below_iff.mpr ((below_iff.mp h).trans (below_iff.mp h'))

theorem below_joinSlash_append {init : List GoString} (hinit : init ≠ []) (last : List GoString) :
    below (joinSlash init) (joinSlash (init ++ last)) = true := by
  rw [below, Bool.or_eq_true, beq_iff_eq, hasPrefix_iff]
  by_cases hlast : last = []
  · rw [hlast, List.append_nil]
    exact .inl rfl
  · rw [joinSlash_append hinit hlast]
    exact .inr ⟨joinSlash last, by simp⟩

/-- A path is the directory it is in and a name without slashes. -/
theorem splitDir_append (p : GoString) :
    (splitDir p).1 ++ (splitDir p).2 = p ∧ slash ∉ (splitDir p).2 := by
  have hsuffix : (splitDir p).2 <:+ p := by
    rw [splitDir, ← List.reverse_prefix, List.reverse_reverse]
    exact List.takeWhile_prefix _
  constructor
  · obtain ⟨dir, hdir⟩ := hsuffix
    have hlen : p.length - (splitDir p).2.length = dir.length := by
      have := congrArg List.length hdir
      rw [List.length_append] at this
      omega
    have hfst : (splitDir p).1 = dir := by
      have htake : (splitDir p).1 = p.take (p.length - (splitDir p).2.length) := rfl
      rw [htake, hlen]
      nth_rewrite 1 [← hdir]
      exact List.take_left
    rw [hfst, hdir]
  · intro h
    have h := List.mem_takeWhile_imp (List.mem_reverse.mp h)
    simp at h

/-- The directory a path is in ends in a slash, if there is one. -/
theorem splitDir_fst (p : GoString) :
    (splitDir p).1 = [] ∨ ∃ d, (splitDir p).1 = d ++ [slash] := by
  obtain ⟨hp, -⟩ := splitDir_append p
  rcases List.eq_nil_or_concat (splitDir p).1 with h | ⟨d, c, h⟩
  · exact .inl h
  rw [List.concat_eq_append] at h
  refine .inr ⟨d, ?_⟩
  by_cases hc : c = slash
  · rw [h, hc]
  · -- the name would go on to the left
    exfalso
    have hrev : p.reverse = (splitDir p).2.reverse ++ c :: d.reverse := by
      rw [← congrArg List.reverse hp, h]
      simp
    have hname : (splitDir p).2.reverse = p.reverse.takeWhile (· ≠ slash) := List.reverse_reverse _
    have hlen := congrArg List.length hname
    have hall : ∀ b ∈ (splitDir p).2.reverse, decide (b ≠ slash) = true := fun b hb =>
      decide_eq_true fun h => (splitDir_append p).2 (h ▸ List.mem_reverse.mp hb)
    rw [hrev, List.takeWhile_append_of_pos hall, List.takeWhile_cons_of_pos (by simpa using hc),
      List.length_append, List.length_cons] at hlen
    omega

/-- A name in the directory of a path. -/
theorem splitDir_of_name (p : GoString) {name : GoString} (h : slash ∉ name) :
    splitDir ((splitDir p).1 ++ name) = ((splitDir p).1, name) := by
  have hname : (((splitDir p).1 ++ name).reverse.takeWhile (· ≠ slash)).reverse = name := by
    have hall : ∀ b ∈ name.reverse, decide (b ≠ slash) = true := fun b hb =>
      decide_eq_true fun h' => h (h' ▸ List.mem_reverse.mp hb)
    rw [List.reverse_append, List.takeWhile_append_of_pos hall]
    rcases splitDir_fst p with hd | ⟨d, hd⟩ <;> rw [hd] <;> simp
  refine Prod.ext ?_ hname
  have htake : (splitDir ((splitDir p).1 ++ name)).1
      = ((splitDir p).1 ++ name).take (((splitDir p).1 ++ name).length -
          (((splitDir p).1 ++ name).reverse.takeWhile (· ≠ slash)).reverse.length) := rfl
  rw [htake, hname, List.length_append, Nat.add_sub_cancel, List.take_left]

/-- Names in one directory differ in the last segment of their paths. -/
theorem exists_segments_splitDir (p : GoString) : ∃ init, ∀ name, slash ∉ name →
    segments ((splitDir p).1 ++ name) = init ++ [name] := by
  rcases splitDir_fst p with hd | ⟨d, hd⟩
  · exact ⟨[], fun name h => by rw [hd, List.nil_append, segments_of_not_mem h, List.nil_append]⟩
  · refine ⟨segments d, fun name h => ?_⟩
    rw [hd, List.append_assoc, List.singleton_append, segments_append, segments_of_not_mem h]

theorem base_of_name (p : GoString) {name : GoString} (h : slash ∉ name) (hne : name ≠ []) :
    base ((splitDir p).1 ++ name) = name := by
  obtain ⟨init, c, rfl⟩ : ∃ init c, name = init ++ [c] :=
    ⟨_, _, (List.dropLast_append_getLast hne).symm⟩
  have hc : c ≠ slash := by
    rintro rfl
    exact h (by simp)
  have htrim : (((splitDir p).1 ++ (init ++ [c])).reverse.dropWhile (· = slash)).reverse
      = (splitDir p).1 ++ (init ++ [c]) := by
    rw [List.reverse_append, List.reverse_append, List.reverse_singleton, List.singleton_append,
      List.cons_append, List.dropWhile_cons_of_neg (by simpa using hc)]
    simp
  rw [base, if_neg (by simp), htrim, if_neg (by simp), splitDir_of_name p h]

/-- A folder covers every name in a directory, or none. -/
theorem folder_prefix_iff (p folder : GoString) {name : GoString} (h : slash ∉ name) :
    folder ++ [slash] <+: (splitDir p).1 ++ name ↔ folder ++ [slash] <+: (splitDir p).1 := by
  refine ⟨fun hpre => ?_, fun hpre => hpre.trans (List.prefix_append _ _)⟩
  rcases List.prefix_or_prefix_of_prefix hpre (List.prefix_append _ _) with hdir | ⟨rest, hrest⟩
  · exact hdir
  rcases List.eq_nil_or_concat rest with rfl | ⟨init, c, rfl⟩
  · rw [List.append_nil] at hrest
    rw [hrest]
  · -- the folder would end inside the name
    rw [List.concat_eq_append] at hrest
    rw [← hrest, List.prefix_append_right_inj] at hpre
    rw [← List.append_assoc] at hrest
    obtain ⟨-, hc⟩ := List.append_inj' hrest rfl
    exact absurd (hpre.subset (by rw [hc]; simp)) h

/-! ### Normal forms -/

theorem Plain.cleanStep {seg : GoString} (h : Plain seg) (rooted : Bool) (out : List GoString) :
    cleanStep rooted out seg = seg :: out := by
  simp [Beardrive.cleanStep, h.1, h.2.1, h.2.2]

theorem cleanStep_dots (rooted : Bool) (out : List GoString) :
    cleanStep rooted out (ascii "..") =
      match out with
      | [] => if rooted then [] else [ascii ".."]
      | top :: rest => if top = ascii ".." then ascii ".." :: out else rest := by
  rw [cleanStep.eq_def, if_neg (by decide), if_pos rfl]

theorem foldl_cleanStep_of_plain {segs : List GoString} (h : ∀ s ∈ segs, Plain s) (rooted : Bool)
    (out : List GoString) : segs.foldl (cleanStep rooted) out = segs.reverse ++ out := by
  induction segs generalizing out with
  | nil => rfl
  | cons s segs ih =>
    rw [List.foldl_cons, (h s List.mem_cons_self).cleanStep,
      ih fun t ht => h t (List.mem_cons_of_mem _ ht)]
    simp

/-- What the stack of a relative path holds: segments that are plain, above the `..` that no
segment was there to cancel. -/
def CleanStack (out : List GoString) : Prop :=
  ∃ plain dots, out = plain ++ dots ∧ (∀ s ∈ plain, Plain s) ∧ ∀ s ∈ dots, s = ascii ".."

theorem CleanStack.step {out : List GoString} (h : CleanStack out) (seg : GoString) :
    CleanStack (cleanStep false out seg) := by
  obtain ⟨plain, dots, rfl, hp, hd⟩ := h
  by_cases h0 : seg = [] ∨ seg = ascii "."
  · exact ⟨plain, dots, by simp [cleanStep, h0], hp, hd⟩
  by_cases h2 : seg = ascii ".."
  · rw [h2, cleanStep_dots]
    cases plain with
    | nil =>
      refine ⟨[], ascii ".." :: dots, ?_, by simp, by simpa using hd⟩
      cases dots with
      | nil => rfl
      | cons d dots => simp [hd d List.mem_cons_self]
    | cons t plain =>
      have ht := hp t List.mem_cons_self
      exact ⟨plain, dots, by simp [ht.2.2], fun s hs => hp s (List.mem_cons_of_mem _ hs), hd⟩
  · have hseg : Plain seg := ⟨fun h => h0 (.inl h), fun h => h0 (.inr h), h2⟩
    refine ⟨seg :: plain, dots, hseg.cleanStep false _, ?_, hd⟩
    rintro s (_ | ⟨_, hs⟩)
    · exact hseg
    · exact hp s hs

theorem cleanStack_foldl (segs : List GoString) (out : List GoString) (h : CleanStack out) :
    CleanStack (segs.foldl (cleanStep false) out) := by
  induction segs generalizing out with
  | nil => exact h
  | cons s segs ih => exact ih _ (h.step s)

theorem slash_not_mem_of_cleanStep {rooted : Bool} {out : List GoString} {seg : GoString}
    (h : ∀ s ∈ out, slash ∉ s) (hseg : slash ∉ seg) :
    ∀ s ∈ cleanStep rooted out seg, slash ∉ s := by
  intro s hs
  have hcases : s ∈ out ∨ s = seg := by
    unfold cleanStep at hs
    split at hs
    · exact .inl hs
    · split at hs
      · cases out with
        | nil => cases rooted <;> simp_all
        | cons t out => by_cases ht : t = ascii ".." <;> simp_all
      · simpa [or_comm] using hs
  rcases hcases with hs | rfl
  · exact h s hs
  · exact hseg

theorem slash_not_mem_foldl {rooted : Bool} {segs out : List GoString}
    (hsegs : ∀ s ∈ segs, slash ∉ s) (h : ∀ s ∈ out, slash ∉ s) :
    ∀ s ∈ segs.foldl (cleanStep rooted) out, slash ∉ s := by
  induction segs generalizing out with
  | nil => exact h
  | cons t segs ih =>
    exact ih (fun s hs => hsegs s (List.mem_cons_of_mem _ hs))
      (slash_not_mem_of_cleanStep h (hsegs t List.mem_cons_self))

/-- **The relative paths that are their own normal form and do not climb are those whose segments
are plain.** -/
theorem clean_eq_self_iff {p : GoString} :
    (isAbs p = false ∧ clean p = p ∧ p ≠ ascii "." ∧ p ≠ ascii ".." ∧
      hasPrefix p (ascii "../") = false) ↔ ∀ s ∈ segments p, Plain s := by
  constructor
  · rintro ⟨habs, hclean, hdot, hdots, hclimb⟩
    simp only [clean, habs, Bool.false_eq_true, if_false] at hclean
    split at hclean
    · exact absurd hclean.symm hdot
    · rename_i hne
      obtain ⟨plain, dots, hout, hplain, hdotdot⟩ :=
        cleanStack_foldl (segments p) [] ⟨[], [], rfl, by simp, by simp⟩
      rw [hout] at hclean hne
      have hsegs : segments p = (plain ++ dots).reverse := by
        rw [← hclean]
        refine segments_joinSlash (fun s hs => ?_) fun h => hne (by rw [h]; rfl)
        rw [List.mem_reverse, ← hout] at hs
        exact slash_not_mem_foldl (fun s hs => not_mem_of_mem_segments hs) (by simp) s hs
      cases hd : dots.reverse with
      | nil =>
        rw [hsegs, List.reverse_append, hd]
        intro s hs
        exact hplain s (by simpa using hs)
      | cons d rest =>
        -- a leading `..` would make the path climb
        obtain rfl : d = ascii ".." := hdotdot d (by rw [← List.mem_reverse, hd]; simp)
        rw [List.reverse_append, hd] at hclean
        cases htail : rest ++ plain.reverse with
        | nil =>
          rw [List.cons_append, htail] at hclean
          exact absurd hclean.symm hdots
        | cons e rest' =>
          rw [List.cons_append, htail] at hclean
          have : hasPrefix p (ascii "../") = true := by
            rw [← hclean, hasPrefix_iff]
            exact ⟨joinSlash (e :: rest'), by simp [joinSlash, List.intercalate, slash, ascii]⟩
          simp [this] at hclimb
  · intro h
    have hfirst : ∀ t, segments (slash :: t) = [] :: segments t := fun t =>
      head_segments [] t (by simp)
    have habs : isAbs p = false := by
      rw [← Bool.not_eq_true, isAbs, hasPrefix_iff]
      rintro ⟨t, rfl⟩
      exact (h [] (by rw [List.singleton_append, hfirst]; simp)).1 rfl
    have hne : p ≠ [] := by
      rintro rfl
      exact (h [] (by simp)).1 rfl
    refine ⟨habs, ?_, ?_, ?_, ?_⟩
    · simp only [clean, habs, Bool.false_eq_true, if_false, foldl_cleanStep_of_plain h,
        List.append_nil, List.reverse_reverse, joinSlash_segments, if_neg hne]
    · rintro rfl
      exact (h (ascii ".") (by decide)).2.1 rfl
    · rintro rfl
      exact (h (ascii "..") (by decide)).2.2 rfl
    · rw [← Bool.not_eq_true, hasPrefix_iff]
      rintro ⟨t, rfl⟩
      have : segments (ascii "../" ++ t) = ascii ".." :: segments t :=
        head_segments (ascii "..") t (by decide)
      exact (h (ascii "..") (by rw [this]; simp)).2.2 rfl

end Beardrive
