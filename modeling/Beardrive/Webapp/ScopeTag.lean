import Beardrive.Webapp.Givers
import Beardrive.Webapp.JournalFilter
import Mathlib.Data.Bool.AllAny

/-!
# The tag of a view

What an account may see in a project is summed up in a tag: a hash of its level on the project and
of its level at every prefix a rule stands at. What one account was shown is kept under its tag,
and shown to every other that has it.

The rule that governs a path governs its own prefix, so that the levels at the prefixes decide the
level at every path, whoever asks and by whichever rules. That is all a tag has to say, and it says
it in full as long as the text under the hash can be read back: no prefix holds a tab or a line
break.

## Main definitions

* `Viewer`, `Viewer.levelAt` — who asks, and its level at a path
* `Viewer.scopeTag`, `Viewer.visibility` — the tag, and the filter it is put under
* `FilterCache`, `filteredJournal` — the filtered journals a process keeps

## Main results

* `visibility_eq_of_tag` — one tag, one filter
* `tag_decides_view` — and what is kept under it is right for all who have it
-/

namespace Beardrive

/-- The text of a level. -/
def Level.text : Level → GoString
  | .unset => []
  | .none => ascii "none"
  | .read => ascii "read"
  | .write => ascii "write"
  | .admin => ascii "admin"

/-- An account that looks at a project, with the level it was resolved to there. -/
structure Viewer where
  org : Org
  project : Project
  email : GoString
  base : Level

/-- The project as the caller may use it: an app's folder grants are rules only in its own view. -/
def Viewer.view (c : Viewer) : View :=
  if isAppPrincipal c.email then honoredGrants c.org c.project c.email
  else { perms := c.project.perms, folders := c.project.folders.map FolderRule.view }

/-- `folderLevel`, for the caller. -/
def Viewer.levelAt (c : Viewer) (path : GoString) : Level :=
  c.view.folderLevel c.email path c.base

/-! ### The tag -/

/-- One line under the hash. -/
def scopeLine (line : GoString × Level) : GoString := line.1 ++ 0x09 :: (line.2.text ++ [0x0A])

/-- The text under the hash. -/
def scopeText (base : Level) (lines : List (GoString × Level)) : GoString :=
  base.text ++ 0x0A :: lines.flatMap scopeLine

/-- The prefixes, sorted, each with the caller's level there. -/
def Viewer.scopeLines (c : Viewer) : List (GoString × Level) :=
  (c.view.folders.map (·.pre)).mergeSort.map fun pre => (pre, c.levelAt pre)

/-- `scopeTag`; `hash` gives the front half of the digest, in hexadecimal digits. -/
def Viewer.scopeTag (hash : GoString → GoString) (c : Viewer) : GoString :=
  if c.view.folders = [] then [] else hash (scopeText c.base c.scopeLines)

/-! ### The filter -/

/-- A filter and the tag of the view it shows. -/
structure TaggedFilter extends ReadFilter where
  tag : GoString

/-- The filter that conceals nothing. -/
def TaggedFilter.off : TaggedFilter where
  hides := false
  canRead _ := true
  all_of_off _ _ := rfl
  tag := []

/-- `visibilityAt`. -/
def Viewer.visibilityAt (hash : GoString → GoString) (c : Viewer) : TaggedFilter :=
  if c.view.folders = [] then .off
  else if c.base = .admin then .off
  else if c.view.folders.any fun rule => !atLeast (c.levelAt rule.pre) .read then
    { hides := true
      canRead := fun path => atLeast (c.levelAt path) .read
      all_of_off := nofun
      tag := c.scopeTag hash }
  else .off

/-- `visibilityFor`. -/
def Viewer.visibility (hash : GoString → GoString) (c : Viewer) : TaggedFilter :=
  if c.project.folders = [] ∧ c.project.appFolders = [] then .off else c.visibilityAt hash

/-! ### What is kept -/

/-- An object of the store, as a listing has it; a request for it knows the key alone. -/
structure StoredObject where
  key : GoString
  size : ℤ := 0
  modified : ℤ := 0

/-- A filtered journal, and the object it was made of. -/
structure FilteredJournal where
  size : ℤ
  mod : ℤ
  data : GoString

/-- The filtered journals that are kept, and how many bytes were. -/
structure FilterCache where
  entries : GoString → Option FilteredJournal := fun _ => none
  bytes : ℤ := 0

/-- `maxFilteredJournalBytes`. -/
def maxFilteredJournalBytes : ℤ := 32 * 2 ^ 20

/-- `filterKey`. -/
def filterKey (key tag : GoString) : GoString := tag ++ 0 :: key

/-- `cachedFilter`. -/
def FilterCache.cachedFilter (r : FilterCache) (o : StoredObject) (tag : GoString) :
    Option GoString :=
  match r.entries (filterKey o.key tag) with
  | none => none
  | some c =>
    if o.size ≠ 0 ∧ (c.size ≠ o.size ∨ c.mod ≠ o.modified) then none else some c.data

/-- `putFilter`. Where there would be too much, everything is dropped first. -/
def FilterCache.putFilter (r : FilterCache) (o : StoredObject) (tag data : GoString) :
    FilterCache :=
  let r := if maxFilteredJournalBytes < r.bytes + data.length then {} else r
  { entries := Function.update r.entries (filterKey o.key tag)
      (some ⟨o.size, o.modified, data⟩)
    bytes := r.bytes + data.length }

/-- `filteredJournal`, of an object whose bytes are `raw`. -/
def filteredJournal (r : FilterCache) (o : StoredObject) (f : TaggedFilter) (raw : GoString) :
    GoString × FilterCache :=
  match r.cachedFilter o f.tag with
  | some data => (data, r)
  | none =>
    let data := filterJournal f.toReadFilter raw
    (data, r.putFilter o f.tag data)

/-- The cache after any requests, by any callers in any states of their projects. `Stored` says
which bytes an object has had. -/
inductive Filled (hash : GoString → GoString) (Stored : GoString → GoString → Prop) :
    FilterCache → Prop where
  | empty : Filled hash Stored {}
  | serve {r : FilterCache} (c : Viewer) (o : StoredObject) (raw : GoString)
      (h : Filled hash Stored r) (hstored : Stored o.key raw) :
      Filled hash Stored (filteredJournal r o (c.visibility hash) raw).2

/-! ### The level at a path -/

/-- An account that is no app is resolved by the rules of the project. -/
theorem levelAt_of_account {c : Viewer} (h : isAppPrincipal c.email = false) (path : GoString) :
    c.levelAt path = folderLevel c.project.folders c.email path c.base := by
  have hrule : longestPrefix ViewRule.pre (c.project.folders.map FolderRule.view) path =
      (longestPrefix FolderRule.pre c.project.folders path).map FolderRule.view :=
    longestPrefix_map fun _ => rfl
  rw [Viewer.levelAt, Viewer.view, h, if_neg Bool.false_ne_true, View.folderLevel, folderLevel,
    hrule, ruleFor_eq_longestPrefix]
  cases longestPrefix FolderRule.pre c.project.folders path <;> rfl

/-- The prefixes that decide for the caller. -/
def Viewer.prefixes (c : Viewer) : Set GoString := standsAt ViewRule.pre c.view.folders

/-- The rule that governs a path governs its own prefix. -/
theorem levelAt_of_longest {c : Viewer} {x P : GoString} (h : Longest c.prefixes x P) :
    c.levelAt x = c.levelAt P := by
  rw [Viewer.levelAt, Viewer.levelAt, View.folderLevel, View.folderLevel,
    longestPrefix_of_longest h, longestPrefix_of_longest (Longest.self h.1)]

theorem levelAt_of_uncovered {c : Viewer} {x : GoString} (h : ∀ P ∈ c.prefixes, ¬ P <+: x) :
    c.levelAt x = if c.base = .none ∨ c.base = .unset then .none else c.base := by
  rw [Viewer.levelAt, View.folderLevel, longestPrefix_eq_none_iff.mpr h]

/-- Two callers with one level on the project and the same levels at the same prefixes. -/
structure SameScope (a b : Viewer) : Prop where
  base : a.base = b.base
  prefixes : a.prefixes = b.prefixes
  levels : ∀ P ∈ a.prefixes, a.levelAt P = b.levelAt P

/-- **They have the same level at every path.** -/
theorem SameScope.levelAt {a b : Viewer} (h : SameScope a b) (x : GoString) :
    a.levelAt x = b.levelAt x := by
  cases hlong : longestPrefix ViewRule.pre a.view.folders x with
  | none =>
    have hnone := longestPrefix_eq_none_iff.mp hlong
    have hnone' : ∀ P ∈ b.prefixes, ¬ P <+: x := h.prefixes ▸ hnone
    rw [levelAt_of_uncovered hnone, levelAt_of_uncovered hnone', h.base]
  | some rule =>
    have hlongest : Longest a.prefixes x rule.pre := longest_of_longestPrefix hlong
    have hlongest' : Longest b.prefixes x rule.pre := h.prefixes ▸ hlongest
    rw [levelAt_of_longest hlongest, levelAt_of_longest hlongest', h.levels _ hlongest.1]

/-- **The tag of a caller is the tag of its scope**, and so is its filter. -/
theorem SameScope.visibilityAt {a b : Viewer} (h : SameScope a b) (hash : GoString → GoString)
    (htag : a.scopeTag hash = b.scopeTag hash) : a.visibilityAt hash = b.visibilityAt hash := by
  have hnil : a.view.folders = [] ↔ b.view.folders = [] := by
    have hmem (c : Viewer) : c.view.folders = [] ↔ c.prefixes = ∅ := by
      rw [Set.eq_empty_iff_forall_notMem, List.eq_nil_iff_forall_not_mem]
      constructor
      · rintro hno P ⟨rule, hrule, -⟩
        exact hno rule hrule
      · exact fun hno rule hrule => hno rule.pre ⟨rule, hrule, rfl⟩
    rw [hmem, hmem, h.prefixes]
  have hhidden : (a.view.folders.any fun rule => !atLeast (a.levelAt rule.pre) .read) =
      b.view.folders.any fun rule => !atLeast (b.levelAt rule.pre) .read := by
    have hany (c : Viewer) : (c.view.folders.any fun rule => !atLeast (c.levelAt rule.pre) .read) =
        true ↔ ∃ P ∈ c.prefixes, atLeast (c.levelAt P) .read = false := by
      rw [List.any_eq_true]
      constructor
      · rintro ⟨rule, hrule, hlevel⟩
        exact ⟨rule.pre, ⟨rule, hrule, rfl⟩, by simpa using hlevel⟩
      · rintro ⟨_, ⟨rule, hrule, rfl⟩, hlevel⟩
        exact ⟨rule, hrule, by simpa using hlevel⟩
    rw [Bool.eq_iff_iff, hany, hany, ← h.prefixes]
    simp only [h.levelAt]
  have hcanRead : (fun path => atLeast (a.levelAt path) .read) =
      fun path => atLeast (b.levelAt path) .read := by
    funext path
    rw [h.levelAt]
  simp only [Viewer.visibilityAt, hnil, h.base, hhidden, hcanRead, htag]

/-! ### The text under the hash -/

theorem Level.text_injective : Function.Injective Level.text := by
  intro a b h
  revert h
  cases a <;> cases b <;> decide

theorem Level.le_of_mem_text {l : Level} : ∀ c ∈ l.text, 0x20 ≤ c :=
  List.all_iff_forall_prop.mp (by cases l <;> decide)

/-- A prefix is a folder's, or the empty one of an app's view. -/
theorem Viewer.prefix_cases {c : Viewer} {P : GoString} (h : P ∈ c.prefixes) :
    P = [] ∨ ∃ folder, P = folder ++ [slash] ∧ safePath folder = true := by
  have hjoined {rule : ViewRule} (hrule : rule ∈ joinedRules c.project c.email) :
      ∃ folder, rule.pre = folder ++ [slash] ∧ safePath folder = true := by
    obtain ⟨r, hr⟩ := mem_standsAt_iff.mp
      (⟨rule, hrule, rfl⟩ : rule.pre ∈ standsAt ViewRule.pre (joinedRules c.project c.email))
    rw [find?_joinedRules] at hr
    rcases mem_prefixes_iff.mpr ⟨r, hr⟩ with hrule | hgrant
    · obtain ⟨rule', hrule'⟩ := Option.ne_none_iff_exists'.mp hrule
      rw [← ruleAt_pre hrule']
      exact rule'.safe
    · obtain ⟨g, hg⟩ := Option.ne_none_iff_exists'.mp hgrant
      rw [← (appFolderAt_spec hg).2.2]
      exact g.normalized.elim fun _ => normPrefix_spec
  have hsettled {rule : ViewRule} (hrule : rule ∈ settledRules c.org c.project c.email) :
      ∃ folder, rule.pre = folder ++ [slash] ∧ safePath folder = true := by
    obtain ⟨r, hr, rfl⟩ := List.mem_map.mp hrule
    rw [settle_pre]
    exact hjoined hr
  obtain ⟨rule, hrule, rfl⟩ := h
  rw [Viewer.view] at hrule
  split at hrule
  · rw [honoredGrants] at hrule
    split at hrule
    · rcases List.mem_append.mp hrule with hrule | hrule
      · exact .inr (hsettled hrule)
      · exact .inl (by rw [List.mem_singleton.mp hrule])
    · exact .inr (hsettled hrule)
  · obtain ⟨r, -, rfl⟩ := List.mem_map.mp hrule
    exact .inr r.safe

/-- A prefix holds no control character. -/
theorem Viewer.le_of_mem_prefixes {c : Viewer} {P : GoString} (h : P ∈ c.prefixes) :
    ∀ b ∈ P, 0x20 ≤ b := by
  rcases c.prefix_cases h with rfl | ⟨folder, rfl, hsafe⟩
  · exact fun b hb => absurd hb List.not_mem_nil
  · have hctrl := (safeRunes_iff.mp (safePath_iff.mp hsafe).2).1
    intro b hb
    rcases List.mem_append.mp hb with hb | hb
    · by_contra hlt
      have := hctrl b hb
      simp [ctrlByte, not_le.mp hlt] at this
    · rw [List.mem_singleton.mp hb]
      decide

theorem notMem_of_le {b : UInt8} {s : GoString} (h : ∀ c ∈ s, 0x20 ≤ c) (hb : b < 0x20) :
    b ∉ s := fun hmem => absurd (h b hmem) (not_le.mpr hb)

/-- **The text under a hash can be read back.** -/
theorem scopeText_injective {base base' : Level} {lines lines' : List (GoString × Level)}
    (hclean : ∀ line ∈ lines, ∀ b ∈ line.1, 0x20 ≤ b)
    (hclean' : ∀ line ∈ lines', ∀ b ∈ line.1, 0x20 ≤ b)
    (h : scopeText base lines = scopeText base' lines') : base = base' ∧ lines = lines' := by
  have hplain (l : Level) {b : UInt8} (hb : b < 0x20) : b ∉ l.text :=
    notMem_of_le Level.le_of_mem_text hb
  obtain ⟨hbase, hrest⟩ := append_cons_inj_of_notMem_left (hplain base (by decide))
    (hplain base' (by decide)) h
  refine ⟨Level.text_injective hbase, ?_⟩
  clear h hbase
  induction lines generalizing lines' with
  | nil =>
    cases lines' with
    | nil => rfl
    | cons line' lines' => simp [scopeLine] at hrest
  | cons line lines ih =>
    cases lines' with
    | nil => simp [scopeLine] at hrest
    | cons line' lines' =>
      simp only [List.flatMap_cons, scopeLine, List.append_assoc, List.cons_append,
        List.nil_append] at hrest
      obtain ⟨hpre, hrest⟩ := append_cons_inj_of_notMem_left
        (notMem_of_le (hclean line List.mem_cons_self) (by decide))
        (notMem_of_le (hclean' line' List.mem_cons_self) (by decide)) hrest
      obtain ⟨hlevel, hrest⟩ := append_cons_inj_of_notMem_left (hplain line.2 (by decide))
        (hplain line'.2 (by decide)) hrest
      rw [Prod.ext hpre (Level.text_injective hlevel),
        ih (fun l hl => hclean l (List.mem_cons_of_mem _ hl))
          (fun l hl => hclean' l (List.mem_cons_of_mem _ hl)) hrest]

theorem Viewer.le_of_mem_scopeLines {c : Viewer} :
    ∀ line ∈ c.scopeLines, ∀ b ∈ line.1, 0x20 ≤ b := by
  intro line hline
  obtain ⟨pre, hpre, rfl⟩ := List.mem_map.mp hline
  obtain ⟨rule, hrule, rfl⟩ := List.mem_map.mp (List.mem_mergeSort.mp hpre)
  exact c.le_of_mem_prefixes ⟨rule, hrule, rfl⟩

/-- The lines of a caller are its scope. -/
theorem sameScope_of_lines {a b : Viewer} (hbase : a.base = b.base)
    (hlines : a.scopeLines = b.scopeLines) : SameScope a b := by
  have hmem (c : Viewer) {P : GoString} {l : Level} :
      (P, l) ∈ c.scopeLines ↔ P ∈ c.prefixes ∧ c.levelAt P = l := by
    simp only [Viewer.scopeLines, List.mem_map, List.mem_mergeSort, Prod.mk.injEq]
    constructor
    · rintro ⟨_, ⟨rule, hrule, rfl⟩, rfl, rfl⟩
      exact ⟨⟨rule, hrule, rfl⟩, rfl⟩
    · rintro ⟨⟨rule, hrule, rfl⟩, rfl⟩
      exact ⟨rule.pre, ⟨rule, hrule, rfl⟩, rfl, rfl⟩
  refine ⟨hbase, ?_, fun P hP => ?_⟩
  · ext P
    constructor
    · intro hP
      exact ((hmem b).mp (hlines ▸ (hmem a).mpr ⟨hP, rfl⟩)).1
    · intro hP
      exact ((hmem a).mp (hlines ▸ (hmem b).mpr ⟨hP, rfl⟩)).1
  · exact (((hmem b).mp (hlines ▸ (hmem a).mpr ⟨hP, rfl⟩)).2).symm

/-! ### One tag, one view -/

/-- What a hash is taken to be: no two texts have one digest, a digest is not empty, and holds no
zero byte that was not in the text. -/
structure Digest (hash : GoString → GoString) : Prop where
  injective : Function.Injective hash
  ne_nil : ∀ text, hash text ≠ []
  zero_notMem : ∀ text, 0 ∉ text → 0 ∉ hash text

section

variable {hash : GoString → GoString} (hd : Digest hash)
include hd

/-- Callers of one tag have one scope, unless neither project has rules. -/
theorem sameScope_of_tag {a b : Viewer} (h : a.scopeTag hash = b.scopeTag hash) :
    a.view.folders = [] ∧ b.view.folders = [] ∨ SameScope a b := by
  rw [Viewer.scopeTag, Viewer.scopeTag] at h
  split at h
  case isTrue ha =>
    split at h
    case isTrue hb => exact .inl ⟨ha, hb⟩
    case isFalse => exact absurd h.symm (hd.ne_nil _)
  case isFalse =>
    split at h
    case isTrue => exact absurd h (hd.ne_nil _)
    case isFalse =>
      obtain ⟨hbase, hlines⟩ := scopeText_injective a.le_of_mem_scopeLines
        b.le_of_mem_scopeLines (hd.injective h)
      exact .inr (sameScope_of_lines hbase hlines)

theorem visibilityAt_eq_of_tag {a b : Viewer} (h : a.scopeTag hash = b.scopeTag hash) :
    a.visibilityAt hash = b.visibilityAt hash := by
  rcases sameScope_of_tag hd h with ⟨ha, hb⟩ | hscope
  · rw [Viewer.visibilityAt, if_pos ha, Viewer.visibilityAt, if_pos hb]
  · exact hscope.visibilityAt hash h

end

/-- Nothing is hidden in a project that has neither rules nor grants on folders. -/
theorem visibility_eq_visibilityAt (hash : GoString → GoString) (c : Viewer) :
    c.visibility hash = c.visibilityAt hash := by
  rw [Viewer.visibility]
  split
  case isTrue h =>
    have hjoined : joinedRules c.project c.email = [] := by
      rw [joinedRules, h.1, h.2]
      rfl
    have hfolders : c.view.folders = [] := by
      rw [Viewer.view]
      split
      · simp [honoredGrants, settledRules, reaches, hjoined]
      · rw [h.1]
        rfl
    rw [Viewer.visibilityAt, if_pos hfolders]
  case isFalse => rfl

/-- A filter that is off has no tag, and one that is on has the caller's. -/
theorem visibility_cases (hash : GoString → GoString) (c : Viewer) :
    c.visibility hash = .off ∨
      (c.visibility hash).tag = c.scopeTag hash ∧ c.view.folders ≠ [] := by
  rw [visibility_eq_visibilityAt, Viewer.visibilityAt]
  split_ifs with hnil
  · exact .inl rfl
  · exact .inl rfl
  · exact .inr ⟨rfl, hnil⟩
  · exact .inl rfl

section

variable {hash : GoString → GoString} (hd : Digest hash)
include hd

/-- **One tag, one filter.** -/
theorem visibility_eq_of_tag {a b : Viewer} (h : a.scopeTag hash = b.scopeTag hash) :
    a.visibility hash = b.visibility hash := by
  rw [visibility_eq_visibilityAt, visibility_eq_visibilityAt, visibilityAt_eq_of_tag hd h]

theorem tag_ne_nil {c : Viewer} (h : c.view.folders ≠ []) : c.scopeTag hash ≠ [] := by
  rw [Viewer.scopeTag, if_neg h]
  exact hd.ne_nil _

/-- The tag of a filter tells it, whether it is on or off. -/
theorem visibility_eq_of_filter_tag {a b : Viewer}
    (h : (a.visibility hash).tag = (b.visibility hash).tag) :
    a.visibility hash = b.visibility hash := by
  rcases visibility_cases hash a with ha | ⟨ha, hrules⟩
  · rcases visibility_cases hash b with hb | ⟨hb, hrules'⟩
    · rw [ha, hb]
    · rw [ha, hb] at h
      exact absurd h.symm (tag_ne_nil hd hrules')
  · rcases visibility_cases hash b with hb | ⟨hb, hrules'⟩
    · rw [ha, hb] at h
      exact absurd h (tag_ne_nil hd hrules)
    · rw [ha, hb] at h
      exact visibility_eq_of_tag hd h

/-- A tag holds no zero byte. -/
theorem zero_notMem_tag (c : Viewer) : 0 ∉ (c.visibility hash).tag := by
  rcases visibility_cases hash c with hc | ⟨hc, hrules⟩
  · rw [hc]
    exact List.not_mem_nil
  · rw [hc, Viewer.scopeTag, if_neg hrules]
    refine hd.zero_notMem _ fun hmem => ?_
    have hplain (l : Level) : 0 ∉ l.text := notMem_of_le Level.le_of_mem_text (by decide)
    simp only [scopeText, List.mem_append, List.mem_cons, List.mem_flatMap, scopeLine] at hmem
    rcases hmem with hmem | hmem | ⟨line, hline, hmem | hmem | hmem | hmem⟩
    · exact hplain _ hmem
    · exact absurd hmem (by decide)
    · exact notMem_of_le (c.le_of_mem_scopeLines line hline) (by decide) hmem
    · exact absurd hmem (by decide)
    · exact hplain _ hmem
    · exact absurd hmem (by decide)

end

/-! ### What is kept under a tag -/

/-- Every entry is a filtered journal, for all who have its tag. -/
theorem Filled.entry {hash : GoString → GoString} {Stored : GoString → GoString → Prop} {r : FilterCache}
    (h : Filled hash Stored r) {k : GoString} {e : FilteredJournal} (he : r.entries k = some e) :
    ∃ (c : Viewer) (key raw : GoString), k = filterKey key (c.visibility hash).tag ∧
      Stored key raw ∧ e.data = filterJournal (c.visibility hash).toReadFilter raw := by
  induction h with
  | empty => cases he
  | @serve r c o raw h hstored ih =>
    rw [filteredJournal] at he
    split at he
    · exact ih he
    · simp only [FilterCache.putFilter, Function.update_apply] at he
      split at he
      · rename_i hk
        obtain rfl := Option.some.inj he
        exact ⟨c, o.key, raw, hk, hstored, rfl⟩
      · split at he
        · cases he
        · exact ih he

section

variable {hash : GoString → GoString} (hd : Digest hash)
include hd

/-- **What a caller is served is filtered for it**, whoever it was filtered for. -/
theorem Filled.served {Stored : GoString → GoString → Prop} {r : FilterCache}
    (h : Filled hash Stored r) (c : Viewer) (o : StoredObject) {raw : GoString}
    (hstored : Stored o.key raw) :
    ∃ raw', Stored o.key raw' ∧ (filteredJournal r o (c.visibility hash) raw).1 =
      filterJournal (c.visibility hash).toReadFilter raw' := by
  rw [filteredJournal]
  split
  case h_1 data hdata =>
    rw [FilterCache.cachedFilter] at hdata
    split at hdata
    · cases hdata
    · rename_i e he
      split at hdata
      · cases hdata
      · obtain rfl := Option.some.inj hdata
        obtain ⟨a, key, raw', hk, hstored', hdata'⟩ := h.entry he
        obtain ⟨htag, rfl⟩ := append_cons_inj_of_notMem_left (zero_notMem_tag hd c)
          (zero_notMem_tag hd a) hk
        rw [visibility_eq_of_filter_tag hd htag]
        exact ⟨raw', hstored', hdata'⟩
  case h_2 => exact ⟨raw, hstored, rfl⟩

end

/-- **Two callers of one tag see the same paths**, and are right to be served what was kept for
each other. -/
theorem tag_decides_view {hash : GoString → GoString} (hd : Digest hash) :
    (∀ a b : Viewer, a.scopeTag hash = b.scopeTag hash →
        ∀ path, (a.visibility hash).canRead path = (b.visibility hash).canRead path) ∧
      (∀ a b : Viewer, (a.visibility hash).tag = (b.visibility hash).tag →
        (∀ path, (a.visibility hash).canRead path = (b.visibility hash).canRead path) ∧
          ∀ data, filterJournal (a.visibility hash).toReadFilter data =
            filterJournal (b.visibility hash).toReadFilter data) ∧
      (∀ a b : Viewer, a.email = b.email →
        (∃ path, (a.visibility hash).canRead path ≠ (b.visibility hash).canRead path) →
          a.scopeTag hash ≠ b.scopeTag hash ∧
            (a.visibility hash).tag ≠ (b.visibility hash).tag) ∧
      ∀ (Stored : GoString → GoString → Prop) (r : FilterCache), Filled hash Stored r →
        ∀ (c : Viewer) (o : StoredObject) (raw : GoString), Stored o.key raw →
          ∃ raw', Stored o.key raw' ∧ (filteredJournal r o (c.visibility hash) raw).1 =
            filterJournal (c.visibility hash).toReadFilter raw' := by
  refine ⟨fun a b h path => ?_, fun a b h => ?_, fun a b _ hpath => ?_, fun Stored r h c o raw =>
    h.served hd c o⟩
  · rw [visibility_eq_of_tag hd h]
  · rw [visibility_eq_of_filter_tag hd h]
    exact ⟨fun _ => rfl, fun _ => rfl⟩
  · obtain ⟨path, hne⟩ := hpath
    constructor
    · intro h
      exact hne (by rw [visibility_eq_of_tag hd h])
    · intro h
      exact hne (by rw [visibility_eq_of_filter_tag hd h])

/-- A folder of a project is nobody's but an administrator's. -/
def secretProject : Project where
  folders := [{ pre := ascii "secret/", default := .none,
                normalized := ⟨ascii "secret", by decide⟩ }]
  perms_set := by simp
  rules_set := by simp
  rules_nodup := by simp
  grants_nodup := by simp

/-- A member of it. -/
def secretViewer (email : GoString) : Viewer := ⟨bossOrg, secretProject, email, .write⟩

/-- The front half of one digest, and other texts as they are, behind a letter that is no digit. -/
def oneDigest (text : GoString) : GoString :=
  if text = ascii "write\nsecret/\tnone\n" then ascii "2e485a05e3b17ce763dd0f495a539873"
  else 0x67 :: text

theorem digest_oneDigest : Digest oneDigest where
  injective a b h := by
    have hother (text : GoString) :
        ascii "2e485a05e3b17ce763dd0f495a539873" ≠ 0x67 :: text := fun heq =>
      absurd (List.cons.inj heq).1 (by decide)
    unfold oneDigest at h
    split_ifs at h with ha hb hb
    · rw [ha, hb]
    · exact absurd h (hother b)
    · exact absurd h.symm (hother a)
    · exact (List.cons.inj h).2
  ne_nil text := by
    unfold oneDigest
    split_ifs
    · decide
    · exact List.cons_ne_nil _ _
  zero_notMem text h := by
    unfold oneDigest
    split_ifs
    · decide
    · rw [List.mem_cons, not_or]
      exact ⟨by decide, h⟩

/-- Two members have one tag there. -/
theorem tag_decides_view_two_members :
    ((secretViewer (ascii "a@b.c")).visibility oneDigest).canRead (ascii "secret/f") =
      ((secretViewer (ascii "b@b.c")).visibility oneDigest).canRead (ascii "secret/f") :=
  (tag_decides_view digest_oneDigest).1 _ _ (by decide +kernel) _

end Beardrive
