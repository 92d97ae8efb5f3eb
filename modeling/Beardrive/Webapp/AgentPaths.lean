import Beardrive.Webapp.FileHistory

/-!
# The paths an agent tool prints

A tool shows a file as a virtual path: a label for its project, and its path there. The label is
the project's name where that is a label, and its id otherwise. A call that takes a path splits it
again and resolves the label among the projects of the grant.

## Two comparisons

The printer asks whether a name is unique once both are in lower case. The resolver asks which
names are equal under case folding. Folding goes further: two names that fold onto one may still
differ in lower case, and then each is printed by name and neither resolves.

And the splitter trims white space at both ends. The slash in front keeps the label; nothing keeps
the end of the file's path.

The Unicode tables are a parameter, and nothing here depends on what they say.

## Main definitions

* `CaseTables` — lower case and case folding
* `resolveProject`, `projectLabels`, `labelPath` — the two directions
* `Addresses`, `Addressable` — what a printed path is for, and when it does it

## Main results

* `addresses_iff` — a printed path names its file exactly when it is addressable
-/

namespace Beardrive

/-! ### Projects -/

/-- What `unicode` knows of case: the lower case of a rune, and the rune that stands for all that
fold onto one another. -/
structure CaseTables where
  lower : Rune → Rune
  fold : Rune → Rune

namespace CaseTables

variable (T : CaseTables)

/-- `strings.ToLower`. -/
def toLower (s : GoString) : GoString := ((runes s).map T.lower).flatMap encodeRune

/-- `strings.EqualFold`. -/
def equalFold (s t : GoString) : Bool := (runes s).map T.fold == (runes t).map T.fold

theorem equalFold_self (s : GoString) : T.equalFold s s = true := beq_self_eq_true _

end CaseTables

/-- A project of a grant. `projectIDRe` knows no id that is empty or holds a slash. -/
structure ConnectedProject where
  id : GoString
  name : GoString
  plain : id ≠ [] ∧ slash ∉ id := by decide
  deriving DecidableEq

/-- The projects that the account of a grant may read, by id. -/
structure ReadableProjects where
  row : GoString → Option ConnectedProject
  row_id : ∀ {id p}, row id = some p → p.id = id

/-- `grantProjects`: the projects of a grant that its account may still read. -/
def grantProjects (readable : ReadableProjects) (granted : List GoString) :
    List ConnectedProject :=
  (granted.filterMap readable.row).insertionSort fun p q => p.id ≤ q.id

/-! ### Resolving -/

/-- Why a token names no project. -/
inductive ResolveError where
  | noSuchProject
  /-- The name is that of several projects. -/
  | ambiguous (ids : List GoString)
  deriving DecidableEq

/-- `resolveProject`: the id of a project, from its id or its name. -/
def resolveProject (T : CaseTables) (projects : List ConnectedProject) (token : GoString) :
    Except ResolveError GoString :=
  if token = [] then .ok []
  else match projects.find? (·.id = token) with
    | some p => .ok p.id
    | none =>
      match projects.filter fun p => T.equalFold p.name token with
      | [p] => .ok p.id
      | [] => .error .noSuchProject
      | hits => .error (.ambiguous (hits.map (·.id)))

/-- What `splitGranted` takes a token for: the project it resolves to, if the grant covers it. -/
def grantedProject (T : CaseTables) (projects : List ConnectedProject) (granted : List GoString)
    (token : GoString) : Option GoString :=
  match resolveProject T projects token with
  | .ok id => if id ∈ granted then some id else none
  | .error _ => none

/-! ### Printing -/

/-- Whether the name of a project is used as its label. -/
def usable (T : CaseTables) (projects : List ConnectedProject) (p : ConnectedProject) : Bool :=
  p.name ≠ [] && (projects.countP fun q => T.toLower q.name = T.toLower p.name) == 1 &&
    !p.name.contains slash && !(projects.map (·.id)).contains p.name

/-- The label of a project: its name if that can be used, its id otherwise. -/
def projectLabel (T : CaseTables) (projects : List ConnectedProject) (p : ConnectedProject) :
    GoString := if usable T projects p then p.name else p.id

/-- `projectLabels`: the labels, by id. -/
def projectLabels (T : CaseTables) (projects : List ConnectedProject) :
    GoString → Option GoString :=
  projects.foldl (fun out p => Function.update out p.id (some (projectLabel T projects p)))
    fun _ => none

/-- `joinMCPPath`. -/
def joinMCPPath (project rest : GoString) : GoString :=
  if rest = [] then slash :: project else slash :: project ++ slash :: rest

/-- `labelPath`: a path the way the caller should quote it back. -/
def labelPath (labels : GoString → Option GoString) (project rest : GoString) : GoString :=
  match labels project with
  | some label => joinMCPPath (if label ≠ [] then label else project) rest
  | none => joinMCPPath project rest

/-! ### What a printed path is for -/

/-- **What a printed path is for**: split again, and its label resolved, it is the file that it was
printed for; and so it is for the calls that go through the grant. -/
structure Addresses (T : CaseTables) (readable : ReadableProjects) (granted : List GoString)
    (p : ConnectedProject) (rest : GoString) : Prop where
  path : (splitMCPPath (labelPath (projectLabels T (grantProjects readable granted)) p.id rest)).2 =
    rest
  project : resolveProject T (grantProjects readable granted)
    (splitMCPPath (labelPath (projectLabels T (grantProjects readable granted)) p.id rest)).1 =
      .ok p.id
  call : splitGranted (grantedProject T (grantProjects readable granted) granted)
    (labelPath (projectLabels T (grantProjects readable granted)) p.id rest) = .ok (p.id, rest)

/-- **When a printed path does what it is for.** The path does not end in white space, and if the
project's name is used, then no other project's name folds onto it. -/
structure Addressable (T : CaseTables) (projects : List ConnectedProject) (p : ConnectedProject)
    (rest : GoString) : Prop where
  path : endsInSpace rest = false
  name : usable T projects p = true → ∀ q ∈ projects, T.equalFold q.name p.name = true → q = p

/-! ### The label -/

variable {T : CaseTables} {projects : List ConnectedProject} {p : ConnectedProject}

theorem usable_iff : usable T projects p = true ↔ p.name ≠ [] ∧
    (projects.countP fun q => T.toLower q.name = T.toLower p.name) = 1 ∧ slash ∉ p.name ∧
      ∀ q ∈ projects, q.id ≠ p.name := by
  simp [usable, and_assoc]

/-- A label is a segment of a path. -/
theorem projectLabel_plain (T : CaseTables) (projects : List ConnectedProject)
    (p : ConnectedProject) :
    projectLabel T projects p ≠ [] ∧ slash ∉ projectLabel T projects p := by
  rw [projectLabel]
  split
  case isTrue h => exact ⟨(usable_iff.mp h).1, (usable_iff.mp h).2.2.1⟩
  case isFalse => exact p.plain

/-- The labels hold the label of each project. -/
theorem projectLabels_eq (hunique : ∀ q ∈ projects, q.id = p.id → q = p) (hp : p ∈ projects) :
    projectLabels T projects p.id = some (projectLabel T projects p) := by
  have hfold (listed : List ConnectedProject) (hsub : ∀ q ∈ listed, q ∈ projects)
      (hmem : p ∈ listed) : listed.foldl (fun (out : GoString → Option GoString) q =>
        Function.update out q.id (some (projectLabel T projects q))) (fun _ => none) p.id =
          some (projectLabel T projects p) := by
    induction listed using List.reverseRecOn with
    | nil => cases hmem
    | append_singleton init q ih =>
      rw [List.foldl_append, List.foldl_cons, List.foldl_nil]
      by_cases hid : q.id = p.id
      · rw [hunique q (hsub q (by simp)) hid, Function.update_self]
      · rw [Function.update_of_ne fun h => hid h.symm]
        refine ih (fun r hr => hsub r (List.mem_append_left _ hr)) ?_
        rcases List.mem_append.mp hmem with hmem | hmem
        · exact hmem
        · exact absurd (congrArg ConnectedProject.id (List.mem_singleton.mp hmem)).symm hid
  exact hfold projects (fun _ hq => hq) hp

/-- **The label of a project resolves to it** exactly when the name that is used is the only one
that folds onto it. -/
theorem resolveProject_projectLabel (hp : p ∈ projects) :
    resolveProject T projects (projectLabel T projects p) = .ok p.id ↔
      (usable T projects p = true → ∀ q ∈ projects, T.equalFold q.name p.name = true → q = p) := by
  rw [resolveProject, if_neg (projectLabel_plain T projects p).1, projectLabel]
  cases husable : usable T projects p with
  | false =>
    rw [if_neg Bool.false_ne_true]
    refine iff_of_true ?_ nofun
    cases hfind : projects.find? fun q => q.id = p.id with
    | none => exact absurd (decide_eq_true rfl) (List.find?_eq_none.mp hfind p hp)
    | some q =>
      have hq : q.id = p.id := by simpa using List.find?_some hfind
      exact congrArg Except.ok hq
  | true =>
    obtain ⟨-, hcount, -, hids⟩ := usable_iff.mp husable
    have hfind : projects.find? (fun q => q.id = p.name) = none :=
      List.find?_eq_none.mpr fun q hq => by simpa using hids q hq
    have hself : p ∈ projects.filter fun q => T.equalFold q.name p.name :=
      List.mem_filter.mpr ⟨hp, T.equalFold_self _⟩
    rw [if_pos rfl, hfind]
    constructor
    · intro hone _ q hq hfold
      have hmem : q ∈ projects.filter fun q => T.equalFold q.name p.name :=
        List.mem_filter.mpr ⟨hq, hfold⟩
      match hhits : projects.filter fun q => T.equalFold q.name p.name with
      | [] =>
        rw [hhits] at hself
        cases hself
      | [r] =>
        rw [hhits, List.mem_singleton] at hself hmem
        rw [hself, hmem]
      | r :: r' :: hits =>
        rw [hhits] at hone
        cases hone
    · intro honly
      replace honly := honly rfl
      -- whoever folds onto the name is the project itself, which is listed once
      have hlen : (projects.filter fun q => T.equalFold q.name p.name).length ≤ 1 := by
        rw [← List.countP_eq_length_filter, ← hcount]
        refine List.countP_mono_left fun q hq hfold => ?_
        rw [honly q hq hfold]
        exact decide_eq_true rfl
      match hhits : projects.filter fun q => T.equalFold q.name p.name with
      | [] =>
        rw [hhits] at hself
        cases hself
      | [r] =>
        rw [hhits, List.mem_singleton] at hself
        rw [hhits, hself]
      | r :: r' :: hits =>
        rw [hhits] at hlen
        simp at hlen

/-! ### The path -/

theorem trimSlashes_length_le (s : GoString) : (trimSlashes s).length ≤ s.length :=
  (List.rdropWhile_prefix _ _).length_le.trans (List.dropWhile_suffix _).length_le

theorem trimSlashes_of_tight {s : GoString} (hpre : ¬ [slash] <+: s) (hsuf : ¬ [slash] <:+ s) :
    trimSlashes s = s := by
  have hfront : s.dropWhile (fun b => b == slash) = s := by
    cases s with
    | nil => rfl
    | cons b s =>
      refine List.dropWhile_cons_of_neg fun hb => hpre ⟨s, ?_⟩
      rw [List.singleton_append, beq_iff_eq.mp hb]
  rw [trimSlashes, hfront, List.rdropWhile_eq_self_iff]
  intro hne hb
  refine hsuf ⟨s.dropLast, ?_⟩
  rw [← beq_iff_eq.mp hb, List.dropLast_concat_getLast]

theorem labelPath_eq {labels : GoString → Option GoString} {project label rest : GoString}
    (h : labels project = some label) (hne : label ≠ []) :
    labelPath labels project rest = joinMCPPath label rest := by
  rw [labelPath, h]
  exact congrArg (joinMCPPath · rest) (if_pos hne)

/-- A printed path splits into the label and what the trimmers leave of the rest. -/
theorem splitMCPPath_joinMCPPath {label rest : GoString} (hlabel : slash ∉ label)
    (hrest : rest ≠ []) :
    splitMCPPath (joinMCPPath label rest) = (label, trimSlashes (trimRight rest)) := by
  have hlead : hasPrefix (slash :: (label ++ slash :: trimRight rest)) [slash] = true :=
    hasPrefix_iff.mpr ⟨_, rfl⟩
  have hmem : slash ∈ label ++ slash :: trimRight rest :=
    List.mem_append_right _ List.mem_cons_self
  rw [joinMCPPath, if_neg hrest, splitMCPPath,
    trimSpace_behind (by decide) (by decide) (by decide) (by decide), List.cons_append]
  simp only [hlead, if_true, List.tail_cons, takeWhile_ne_append hlabel,
    dropWhile_ne_append hlabel, hmem]

/-- A safe path survives the trimmers exactly when it does not end in white space. -/
theorem trimSlashes_trimRight {rest : GoString} (h : safePath rest = true) :
    trimSlashes (trimRight rest) = rest ↔ endsInSpace rest = false := by
  have hcases := trimRight_cases rest
  cases hspace : endsInSpace rest with
  | true =>
    rw [hspace, if_pos rfl] at hcases
    refine iff_of_false (fun heq => ?_) (by decide)
    have hlen := trimSlashes_length_le (trimRight rest)
    rw [heq] at hlen
    omega
  | false =>
    rw [hspace, if_neg Bool.false_ne_true] at hcases
    obtain ⟨-, hpre, hsuf⟩ := joinSlash_tight (segments_ne_nil rest) fun seg hseg =>
      ⟨(safePath_iff.mp h).1 seg hseg, not_mem_of_mem_segments hseg⟩
    rw [joinSlash_segments] at hpre hsuf
    rw [hcases]
    exact iff_of_true (trimSlashes_of_tight hpre hsuf) rfl

/-! ### Printed paths -/

theorem mem_grantProjects {readable : ReadableProjects} {granted : List GoString} :
    p ∈ grantProjects readable granted ↔ p.id ∈ granted ∧ readable.row p.id = some p := by
  rw [grantProjects, List.mem_insertionSort, List.mem_filterMap]
  constructor
  · rintro ⟨id, hid, hrow⟩
    rw [readable.row_id hrow]
    exact ⟨hid, hrow⟩
  · rintro ⟨hid, hrow⟩
    exact ⟨p.id, hid, hrow⟩

/-- **A printed path names the file it was printed for exactly when it is addressable.** -/
theorem addresses_iff (T : CaseTables) {readable : ReadableProjects} {granted : List GoString}
    (hp : p ∈ grantProjects readable granted) {rest : GoString} (hrest : safePath rest = true) :
    Addresses T readable granted p rest ↔
      Addressable T (grantProjects readable granted) p rest := by
  have hgranted := (mem_grantProjects.mp hp).1
  have hne : rest ≠ [] := by
    rintro rfl
    cases hrest
  have hlabels : projectLabels T (grantProjects readable granted) p.id =
      some (projectLabel T (grantProjects readable granted) p) := by
    refine projectLabels_eq (fun q hq hid => ?_) hp
    have hrow := (mem_grantProjects.mp hq).2
    rw [hid, (mem_grantProjects.mp hp).2] at hrow
    exact (Option.some.inj hrow).symm
  obtain ⟨hlabel, hslash⟩ := projectLabel_plain T (grantProjects readable granted) p
  have hsplit : splitMCPPath (labelPath (projectLabels T (grantProjects readable granted)) p.id
      rest) = (projectLabel T (grantProjects readable granted) p,
        trimSlashes (trimRight rest)) := by
    rw [labelPath_eq hlabels hlabel, splitMCPPath_joinMCPPath hslash hne]
  constructor
  · intro h
    have hpath := h.path
    have hproject := h.project
    rw [hsplit] at hpath hproject
    exact ⟨(trimSlashes_trimRight hrest).mp hpath, (resolveProject_projectLabel hp).mp hproject⟩
  · intro h
    have hpath := (trimSlashes_trimRight hrest).mpr h.path
    have hproject := (resolveProject_projectLabel hp).mpr h.name
    rw [hpath] at hsplit
    refine ⟨by rw [hsplit], by rw [hsplit]; exact hproject, ?_⟩
    rw [splitGranted, hsplit]
    simp only [hlabel, hne, or_self, if_false, grantedProject, hproject, if_pos hgranted]

/-- Case among the ASCII letters, and the two letters besides that fold onto one. -/
def asciiCase : CaseTables where
  lower r := if 0x41 ≤ r ∧ r ≤ 0x5A then r + 0x20 else r
  fold := foldRune

/-- A project, and one whose name is the first one's id. -/
def wikiProject : ConnectedProject where
  id := ascii "p-00000001"
  name := ascii "Wiki"

@[inherit_doc wikiProject]
def shadowProject : ConnectedProject where
  id := ascii "p-00000002"
  name := ascii "p-00000001"

/-- An account that may read these two. -/
def twoProjects : ReadableProjects where
  row id := [wikiProject, shadowProject].find? (·.id = id)
  row_id h := by simpa using List.find?_some h

theorem addresses_spaced : Addresses asciiCase twoProjects [ascii "p-00000002", ascii "p-00000001"]
    shadowProject (ascii " docs/a b") :=
  (addresses_iff asciiCase (by decide) (by decide)).mpr ⟨by decide, by decide⟩

/-- A file name that ends in a space is lost on the way back. -/
theorem printed_space_is_trimmed : ¬ ∀ (T : CaseTables) (readable : ReadableProjects)
    (granted : List GoString) (p : ConnectedProject) (rest : GoString),
    p ∈ grantProjects readable granted → safePath rest = true →
      Addresses T readable granted p rest := by
  intro h
  have hpath := (h asciiCase twoProjects [ascii "p-00000001"] wikiProject (ascii "a ") (by decide)
    (by decide)).path
  revert hpath
  decide

end Beardrive
