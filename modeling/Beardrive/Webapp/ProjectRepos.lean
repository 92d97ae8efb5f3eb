import Beardrive.Lib.Rows
import Beardrive.Webapp.ProjectDB

/-!
# The two stores of projects

A hub keeps its projects in a file or in a database. The file holds whole records, and a write
changes the record as it stands on disk. The database holds five tables: the projects, their grants,
their folder rules, the grants of those and the grants of apps. Nothing ties a child row to a row of
`projects`: a load leaves out the children whose parent is absent, and finds them again when the
parent is back.

## Where the two differ

The file backend refuses to write into a project that is not there, and the database takes the row.
`Put` of a record is written as it is by the file backend. The database has one row for each prefix,
each app on a prefix and each account, so it refuses a record with two rules of one prefix and
forgets the giver of a grant that is not there.

## Main definitions

* `ProjectWrite` — the writes of a `ProjectRepo`
* `ProjectTable.write` — what `fileProjectRepo` makes of them
* `SqlProjects`, `SqlProjects.write`, `SqlProjects.load` — `sqlProjectRepo`
* `SqlProjects.Reflects` — the tables hold the rows of the records and no others

## Main results

* `SqlProjects.Reflects.write` — a write of something that is there keeps the two the same
* `SqlProjects.Reflects.load` — then both load the same
-/

namespace Beardrive

open Rows

/-! ### What both do -/

/-- `storable`. -/
def storable (v : GoString) : Bool := !v.contains 0 && validUTF8 v

/-- `storableMap`. -/
def storableMap (m : GrantMap) : Bool := m.entries.all fun row => storable row.1 && storable row.2

/-- `checkProject`. -/
def checkProject (id : GoString) (p : ProjectRecord) : Bool :=
  [id, p.name, p.org, p.description, p.icon, p.creator, p.template, p.default].all storable &&
    storableMap p.perms &&
    p.folders.all fun f => storable f.pre && storable f.default && storableMap f.perms

/-- The writes of a `ProjectRepo`. -/
inductive ProjectWrite where
  | put (id : GoString) (p : ProjectRecord)
  | putMeta (id : GoString) (p : ProjectRecord)
  | putData (id : GoString) (on : Bool)
  | putPerm (id email level giver : GoString)
  | putFolder (id : GoString) (rule : FolderRecord)
  | dropFolderPerm (id pre email : GoString)
  | deleteFolder (id pre : GoString)
  | putAppFolder (id : GoString) (g : AppFolderRecord)
  | dropAppFolder (id pre app : GoString)
  | delete (id : GoString)

/-! ### The file -/

/-- A time as it is read back from the file, where it can be written. -/
def jsonTime (t : Time) : Option Time := t.formatRFC3339.bind parseRFC3339

namespace ProjectTable

/-- The write of a project that has to be there. -/
def ifStored (t : ProjectTable) (id : GoString) (t' : ProjectTable) : Option ProjectTable :=
  if (t.lookup id).isSome then some t' else none

/-- The writes of `fileProjectRepo`. -/
def write (t : ProjectTable) : ProjectWrite → Option ProjectTable
  | .put id p =>
    if checkProject id p then
      (jsonTime p.created).map fun created => t.insert id { p with created := created }
    else none
  | .putMeta id p =>
    if checkProject id p then
      (jsonTime p.created).map fun created => t.putMeta id { p with created := created }
    else none
  | .putData id on => t.ifStored id (t.putData id on)
  | .putPerm id email level giver =>
    if [id, email, level, giver].all storable then
      t.ifStored id (t.putPerm id email level giver)
    else none
  | .putFolder id rule =>
    if [id, rule.pre].all storable then t.ifStored id (t.putFolder id rule) else none
  | .dropFolderPerm id pre email => some (t.dropFolderPerm id pre email)
  | .deleteFolder id pre => t.ifStored id (t.deleteFolder id pre)
  | .putAppFolder id g =>
    if [id, g.pre, g.app, g.level, g.giver].all storable then t.ifStored id (t.putAppFolder id g)
    else none
  | .dropAppFolder id pre app => t.ifStored id (t.dropAppFolder id pre app)
  | .delete id => some (t.erase id)

end ProjectTable

/-! ### The tables -/

/-- `tenc`. -/
def tenc (t : Time) : GoString := if t.isZero then [] else t.utcNano

/-- `tdec`. -/
def tdec (s : GoString) : Time := if s = [] then {} else (parseRFC3339 s).getD {}

/-- A row of a table of grants, without its key. -/
structure GrantRow where
  level : GoString
  giver : GoString
  deriving DecidableEq, Repr

/-- A row of `projects`, without its id. -/
structure ProjectRow where
  name : GoString
  org : GoString
  created : GoString
  description : GoString
  icon : GoString
  creator : GoString
  default : GoString
  template : GoString
  data : Bool
  deriving DecidableEq, Repr

/-- The tables: `projects`, `project_perms` by project and account, `project_folders` by project and
prefix, `project_folder_perms` by rule and account, and `project_app_folders`. -/
structure SqlProjects where
  projects : AList fun _ : GoString => ProjectRow := ∅
  perms : AList fun _ : GoString × GoString => GrantRow := ∅
  folders : AList fun _ : GoString × GoString => GoString := ∅
  folderPerms : AList fun _ : (GoString × GoString) × GoString => GrantRow := ∅
  appFolders : AList fun _ : GoString × (GoString × GoString) => GrantRow := ∅

/-- The row of a record. -/
def ProjectRow.of (p : ProjectRecord) : ProjectRow :=
  ⟨p.name, p.org, tenc p.created, p.description, p.icon, p.creator, p.default, p.template, p.data⟩

/-- The row of one grant. -/
def grantRow (perms grantedBy : GrantMap) (e : GoString) : Option GrantRow :=
  (perms.lookup e).map fun level => ⟨level, (grantedBy.lookup e).getD []⟩

/-- The rows of the grants of a record or of a rule, below the key of their parent. -/
def grantRows {α : Type} (parent : α) (perms grantedBy : GrantMap) :
    List ((α × GoString) × GrantRow) :=
  perms.entries.map fun row => ((parent, row.1), ⟨row.2, (grantedBy.lookup row.1).getD []⟩)

namespace SqlProjects

/-- The writes of `sqlProjectRepo`. -/
def write (s : SqlProjects) : ProjectWrite → Option SqlProjects
  | .put id p =>
    if checkProject id p then do
      let perms ← insertRows (keep (·.1 ≠ id) s.perms) (grantRows id p.perms p.grantedBy)
      let folders ← insertRows (keep (·.1 ≠ id) s.folders)
        (p.folders.map fun f => ((id, f.pre), f.default))
      let folderPerms ← insertRows (keep (·.1.1 ≠ id) s.folderPerms)
        (p.folders.flatMap fun f => grantRows (id, f.pre) f.perms f.grantedBy)
      let appFolders ← insertRows (keep (·.1 ≠ id) s.appFolders)
        (p.appFolders.map fun g => ((id, (g.pre, g.app)), ⟨g.level, g.giver⟩))
      some { projects := s.projects.insert id (.of p), perms, folders, folderPerms, appFolders }
    else none
  | .putMeta id p =>
    if checkProject id p then
      let data := ((s.projects.lookup id).map (·.data)).getD false
      some { s with projects := s.projects.insert id (.of { p with data }) }
    else none
  | .putData id on =>
    match s.projects.lookup id with
    | none => some s
    | some row => some { s with projects := s.projects.insert id { row with data := on } }
  | .putPerm id email level giver =>
    if [id, email, level, giver].all storable then
      some { s with perms :=
        if level = [] then s.perms.erase (id, email)
        else s.perms.insert (id, email) ⟨level, giver⟩ }
    else none
  | .putFolder id rule =>
    if [id, rule.pre].all storable && storableMap rule.perms then do
      let folderPerms ← insertRows (keep (·.1 ≠ (id, rule.pre)) s.folderPerms)
        (grantRows (id, rule.pre) rule.perms rule.grantedBy)
      some { s with folders := s.folders.insert (id, rule.pre) rule.default, folderPerms }
    else none
  | .dropFolderPerm id pre email =>
    some { s with folderPerms := s.folderPerms.erase ((id, pre), email) }
  | .deleteFolder id pre =>
    some { s with
      folderPerms := keep (·.1 ≠ (id, pre)) s.folderPerms
      folders := s.folders.erase (id, pre) }
  | .putAppFolder id g =>
    if [id, g.pre, g.app, g.level, g.giver].all storable then
      some { s with appFolders := s.appFolders.insert (id, (g.pre, g.app)) ⟨g.level, g.giver⟩ }
    else none
  | .dropAppFolder id pre app =>
    some { s with appFolders := s.appFolders.erase (id, (pre, app)) }
  | .delete id =>
    some {
      projects := s.projects.erase id
      perms := keep (·.1 ≠ id) s.perms
      folders := keep (·.1 ≠ id) s.folders
      folderPerms := keep (·.1.1 ≠ id) s.folderPerms
      appFolders := keep (·.1 ≠ id) s.appFolders }

/-- The levels of the grants below a parent. -/
def levels {α : Type} [DecidableEq α] (t : AList fun _ : α × GoString => GrantRow) (parent : α) :
    GrantMap :=
  pick (fun _ row => some row.level) (children t parent)

/-- The givers of the grants below a parent: an empty one is forgotten. -/
def givers {α : Type} [DecidableEq α] (t : AList fun _ : α × GoString => GrantRow) (parent : α) :
    GrantMap :=
  pick (fun _ row => if row.giver = [] then none else some row.giver) (children t parent)

/-- A project as it is put together from its row and the rows below it. -/
def record (s : SqlProjects) (id : GoString) (row : ProjectRow) : ProjectRecord where
  name := row.name
  org := row.org
  created := tdec row.created
  description := row.description
  icon := row.icon
  creator := row.creator
  template := row.template
  default := row.default
  perms := levels s.perms id
  grantedBy := givers s.perms id
  folders := (children s.folders id).entries.map fun rule =>
    { pre := rule.1
      default := rule.2
      perms := levels s.folderPerms (id, rule.1)
      grantedBy := givers s.folderPerms (id, rule.1) }
  appFolders := (children s.appFolders id).entries.map fun grant =>
    ⟨grant.1.1, grant.1.2, grant.2.level, grant.2.giver⟩
  data := row.data

/-- `Load`. -/
def load (s : SqlProjects) : ProjectTable := pick (fun id row => some (s.record id row)) s.projects

end SqlProjects

/-! ### Rules and grants of a record -/

/-- A time that both stores read back from its text. -/
def TimeFine (t : Time) : Prop := jsonTime t = some t ∧ tdec (tenc t) = t

instance (t : Time) : Decidable (TimeFine t) := inferInstanceAs (Decidable (_ ∧ _))

namespace ProjectRecord

/-- The rule at a prefix. -/
def rule (p : ProjectRecord) (pre : GoString) : Option FolderRecord :=
  p.folders.find? (·.pre = pre)

/-- The grant of an app on a prefix. -/
def appGrant (p : ProjectRecord) (pre app : GoString) : Option AppFolderRecord :=
  p.appFolders.find? (·.at pre app)

/-- Every giver is named, of a grant that is there. -/
def GiversFine (perms grantedBy : GrantMap) : Prop :=
  ∀ e g, grantedBy.lookup e = some g → g ≠ [] ∧ (perms.lookup e).isSome

/-- A record that has one row for each of its parts: its time is read back from its text, its keys
are distinct, and its givers are fine. -/
structure Fine (p : ProjectRecord) : Prop extends p.Keyed where
  created : TimeFine p.created
  givers : GiversFine p.perms p.grantedBy
  ruleGivers : ∀ f ∈ p.folders, GiversFine f.perms f.grantedBy

end ProjectRecord

namespace ProjectTable

theorem setRule_cons (f rule : FolderRecord) (l : List FolderRecord) :
    setRule (f :: l) rule = if f.pre = rule.pre then rule :: l else f :: setRule l rule := by
  rw [setRule, List.findIdx?_cons]
  split_ifs with h₁ h₂ h₂
  · rfl
  · exact absurd (of_decide_eq_true h₁) h₂
  · exact absurd (decide_eq_true h₂) h₁
  · rw [setRule]
    cases List.findIdx? _ l <;> rfl

/-- A rule that is set is found at its prefix, and the others where they were. -/
theorem find_setRule (l : List FolderRecord) (rule : FolderRecord) (pre : GoString) :
    (setRule l rule).find? (·.pre = pre) =
      if rule.pre = pre then some rule else l.find? (·.pre = pre) := by
  induction l with
  | nil =>
    change [rule].find? _ = _
    by_cases h : rule.pre = pre <;> simp [h]
  | cons f l ih =>
    rw [setRule_cons]
    by_cases hf : f.pre = rule.pre
    · rw [if_pos hf]
      by_cases h : rule.pre = pre
      · simp [h]
      · simp [h, hf]
    · rw [if_neg hf, List.find?_cons, List.find?_cons, ih]
      by_cases h : rule.pre = pre
      · rw [if_pos h]
        simp [← h, hf]
      · rw [if_neg h, if_neg h]

theorem mem_setRule {l : List FolderRecord} {rule f : FolderRecord} (h : f ∈ setRule l rule) :
    f = rule ∨ f ∈ l := by
  induction l with
  | nil => exact .inl (List.mem_singleton.mp h)
  | cons f' l ih =>
    rw [setRule_cons] at h
    split_ifs at h
    · exact (List.mem_cons.mp h).imp_right (List.mem_cons_of_mem _)
    · rcases List.mem_cons.mp h with rfl | h
      · exact .inr List.mem_cons_self
      · exact (ih h).imp_right (List.mem_cons_of_mem _)

/-- The rules without those at a prefix. -/
theorem find_dropRule (l : List FolderRecord) (pre pre' : GoString) :
    (l.filter (·.pre ≠ pre)).find? (·.pre = pre') =
      if pre = pre' then none else l.find? (·.pre = pre') := by
  induction l with
  | nil => simp
  | cons f l ih =>
    by_cases hf : f.pre = pre
    · rw [List.filter_cons_of_neg (by simpa using hf), ih]
      by_cases h : pre = pre'
      · rw [if_pos h, if_pos h]
      · rw [if_neg h, if_neg h, List.find?_cons_of_neg (by simpa [hf] using h)]
    · rw [List.filter_cons_of_pos (by simpa using hf), List.find?_cons, ih]
      by_cases h : pre = pre'
      · subst h
        simp [hf]
      · rw [if_neg h, if_neg h, List.find?_cons]

/-- A grant is dropped from the rule at a prefix. -/
theorem find_dropGrant (l : List FolderRecord) (pre email pre' : GoString) :
    (l.map fun f => if f.pre = pre then f.dropGrant email else f).find? (·.pre = pre') =
      (l.find? (·.pre = pre')).map fun f => if pre = pre' then f.dropGrant email else f := by
  have hpre : ∀ f : FolderRecord, (if f.pre = pre then f.dropGrant email else f).pre = f.pre := by
    intro f
    split_ifs <;> rfl
  rw [List.find?_map]
  simp only [Function.comp_def, hpre]
  cases h : l.find? (·.pre = pre') with
  | none => rfl
  | some f =>
    have hf : f.pre = pre' := by simpa using List.find?_some h
    simp [hf, eq_comm]

/-- A grant of an app is written, or dropped. -/
theorem find_dropApp (l : List AppFolderRecord) (pre app pre' app' : GoString) :
    (l.filter (!·.at pre app)).find? (·.at pre' app') =
      if (pre, app) = (pre', app') then none else l.find? (·.at pre' app') := by
  induction l with
  | nil => simp
  | cons g l ih =>
    by_cases hg : (g.pre, g.app) = (pre, app)
    · rw [List.filter_cons_of_neg (by simpa using AppFolderRecord.at_iff.mpr hg), ih]
      by_cases h : (pre, app) = (pre', app')
      · rw [if_pos h, if_pos h]
      · rw [if_neg h, if_neg h, List.find?_cons_of_neg]
        rwa [AppFolderRecord.at_iff, hg]
    · have hat : ¬ g.at pre app = true := fun hat => hg (AppFolderRecord.at_iff.mp hat)
      rw [List.filter_cons_of_pos (by simpa using hat), List.find?_cons, ih]
      by_cases h : (pre, app) = (pre', app')
      · have hne : ¬ g.at pre' app' = true := by rwa [AppFolderRecord.at_iff, ← h]
        simp [h, hne]
      · rw [if_neg h, if_neg h, List.find?_cons]

theorem find_putApp (l : List AppFolderRecord) (g : AppFolderRecord) (pre app : GoString) :
    (l.filter (!·.at g.pre g.app) ++ [g]).find? (·.at pre app) =
      if (g.pre, g.app) = (pre, app) then some g else l.find? (·.at pre app) := by
  rw [List.find?_append, find_dropApp]
  by_cases h : (g.pre, g.app) = (pre, app)
  · have hat : g.at pre app = true := AppFolderRecord.at_iff.mpr h
    simp [h, hat]
  · have hat : ¬ g.at pre app = true := fun hat => h (AppFolderRecord.at_iff.mp hat)
    simp [h, hat]

end ProjectTable

/-! ### Rows of grants -/

section

variable {α : Type} [DecidableEq α]

omit [DecidableEq α] in
theorem keys_grantRows (parent : α) (perms grantedBy : GrantMap) :
    (grantRows parent perms grantedBy).map (·.1) = perms.keys.map fun e => (parent, e) := by
  rw [grantRows, AList.keys, List.keys, List.map_map, List.map_map]
  rfl

/-- The grants of a record or of a rule become the rows below it. -/
theorem insertRows_grantRows (parent : α) (perms grantedBy : GrantMap)
    {t : AList fun _ : α × GoString => GrantRow} (hnone : ∀ e, t.lookup (parent, e) = none) :
    ∃ t', insertRows t (grantRows parent perms grantedBy) = some t' ∧
      (∀ e, t'.lookup (parent, e) = grantRow perms grantedBy e) ∧
      ∀ parent' e, parent' ≠ parent → t'.lookup (parent', e) = t.lookup (parent', e) := by
  have hdistinct : ((grantRows parent perms grantedBy).map (·.1)).Nodup := by
    rw [keys_grantRows]
    exact perms.keys_nodup.map fun _ _ h => (Prod.mk.inj h).2
  obtain ⟨t', ht', hrows, hrest⟩ := insertRows_eq_some (t := t) hdistinct fun row hrow => by
    obtain ⟨entry, -, rfl⟩ := List.mem_map.mp hrow
    exact hnone entry.1
  refine ⟨t', ht', fun e => ?_, fun parent' e hparent => hrest _ fun hmem => ?_⟩
  · cases hlevel : perms.lookup e with
    | some level =>
      rw [grantRow, hlevel]
      exact hrows _ (List.mem_map_of_mem (AList.mem_lookup_iff.mp hlevel))
    | none =>
      rw [grantRow, hlevel, hrest _ fun hmem => ?_, hnone]
      · rfl
      · rw [keys_grantRows] at hmem
        obtain ⟨e', he', heq⟩ := List.mem_map.mp hmem
        obtain rfl := (Prod.mk.inj heq).2
        exact AList.lookup_eq_none.mp hlevel (AList.mem_keys.mpr he')
  · rw [keys_grantRows] at hmem
    obtain ⟨e', -, heq⟩ := List.mem_map.mp hmem
    exact hparent (Prod.mk.inj heq).1.symm

/-- The grants of the rules of a record become the rows below the rules. -/
theorem insertRows_rules (id : GoString) {l : List FolderRecord} (hnodup : (l.map (·.pre)).Nodup)
    {t : AList fun _ : (GoString × GoString) × GoString => GrantRow}
    (hnone : ∀ f ∈ l, ∀ e, t.lookup ((id, f.pre), e) = none) :
    ∃ t', insertRows t (l.flatMap fun f => grantRows (id, f.pre) f.perms f.grantedBy) = some t' ∧
      (∀ f ∈ l, ∀ e, t'.lookup ((id, f.pre), e) = grantRow f.perms f.grantedBy e) ∧
      ∀ parent e, (∀ f ∈ l, parent ≠ (id, f.pre)) →
        t'.lookup (parent, e) = t.lookup (parent, e) := by
  induction l generalizing t with
  | nil => exact ⟨t, rfl, by simp, fun _ _ _ => rfl⟩
  | cons f l ih =>
    rw [List.map_cons, List.nodup_cons] at hnodup
    have hother : ∀ f' ∈ l, (id, f'.pre) ≠ (id, f.pre) := fun f' hf' heq =>
      hnodup.1 ((Prod.mk.inj heq).2 ▸ List.mem_map_of_mem hf')
    obtain ⟨t₁, ht₁, hself₁, hrest₁⟩ :=
      insertRows_grantRows (id, f.pre) f.perms f.grantedBy (hnone f List.mem_cons_self)
    obtain ⟨t', ht', hrules, hrest⟩ := ih hnodup.2 (t := t₁) fun f' hf' e => by
      rw [hrest₁ _ _ (hother f' hf')]
      exact hnone f' (List.mem_cons_of_mem _ hf') e
    refine ⟨t', ?_, ?_, ?_⟩
    · rw [List.flatMap_cons, insertRows_append, ht₁]
      exact ht'
    · intro f' hf' e
      rcases List.mem_cons.mp hf' with rfl | hf'
      · rw [hrest _ _ fun f'' hf'' => (hother f'' hf'').symm, hself₁]
      · exact hrules f' hf' e
    · intro parent e hparent
      rw [hrest _ _ fun f' hf' => hparent f' (List.mem_cons_of_mem _ hf'),
        hrest₁ _ _ (hparent f List.mem_cons_self)]

end

/-! ### The tables reflect the records -/

namespace ProjectRecord

theorem rule_eq_some_iff {p : ProjectRecord} (h : (p.folders.map (·.pre)).Nodup) {pre : GoString}
    {f : FolderRecord} : p.rule pre = some f ↔ f ∈ p.folders ∧ f.pre = pre := by
  constructor
  · intro hf
    exact ⟨List.mem_of_find?_eq_some hf, by simpa using List.find?_some hf⟩
  · rintro ⟨hf, rfl⟩
    obtain ⟨f', hf'⟩ : ∃ f', p.rule f.pre = some f' :=
      Option.isSome_iff_exists.mp (List.find?_isSome.mpr ⟨f, hf, by simp⟩)
    have hpre : f'.pre = f.pre := by simpa using List.find?_some hf'
    rw [hf', List.inj_on_of_nodup_map h (List.mem_of_find?_eq_some hf') hf hpre]

theorem appGrant_eq_some_iff {p : ProjectRecord}
    (h : (p.appFolders.map fun g => (g.pre, g.app)).Nodup) {pre app : GoString}
    {g : AppFolderRecord} :
    p.appGrant pre app = some g ↔ g ∈ p.appFolders ∧ (g.pre, g.app) = (pre, app) := by
  constructor
  · intro hg
    have hat : g.at pre app = true := by simpa using List.find?_some hg
    exact ⟨List.mem_of_find?_eq_some hg, AppFolderRecord.at_iff.mp hat⟩
  · rintro ⟨hg, hat⟩
    obtain ⟨g', hg'⟩ : ∃ g', p.appGrant pre app = some g' :=
      Option.isSome_iff_exists.mp
        (List.find?_isSome.mpr ⟨g, hg, AppFolderRecord.at_iff.mpr hat⟩)
    have hat' : g'.at pre app = true := by simpa using List.find?_some hg'
    rw [hg', List.inj_on_of_nodup_map h (List.mem_of_find?_eq_some hg') hg
      ((AppFolderRecord.at_iff.mp hat').trans hat.symm)]

end ProjectRecord

namespace SqlProjects

/-- The tables hold for an id the rows of a record, or none. -/
structure Shows (s : SqlProjects) (id : GoString) (o : Option ProjectRecord) : Prop where
  row : s.projects.lookup id = o.map .of
  perm : ∀ e, s.perms.lookup (id, e) = o.bind fun p => grantRow p.perms p.grantedBy e
  folder : ∀ pre, s.folders.lookup (id, pre) = o.bind fun p => (p.rule pre).map (·.default)
  folderPerm : ∀ pre e, s.folderPerms.lookup ((id, pre), e) =
    o.bind fun p => (p.rule pre).bind fun f => grantRow f.perms f.grantedBy e
  appFolder : ∀ pre app, s.appFolders.lookup (id, (pre, app)) =
    o.bind fun p => (p.appGrant pre app).map fun g => ⟨g.level, g.giver⟩

/-- The rows of an id are the same. -/
structure SameRows (s s' : SqlProjects) (id : GoString) : Prop where
  row : s'.projects.lookup id = s.projects.lookup id
  perm : ∀ e, s'.perms.lookup (id, e) = s.perms.lookup (id, e)
  folder : ∀ pre, s'.folders.lookup (id, pre) = s.folders.lookup (id, pre)
  folderPerm : ∀ pre e, s'.folderPerms.lookup ((id, pre), e) = s.folderPerms.lookup ((id, pre), e)
  appFolder : ∀ pre app, s'.appFolders.lookup (id, (pre, app)) =
    s.appFolders.lookup (id, (pre, app))

/-- The tables hold the rows of the records of the file, and no others. -/
structure Reflects (t : ProjectTable) (s : SqlProjects) : Prop where
  fine : ∀ id p, t.lookup id = some p → p.Fine
  shows : ∀ id, s.Shows id (t.lookup id)

theorem Shows.of_sameRows {s s' : SqlProjects} {id : GoString} {o : Option ProjectRecord}
    (h : s.Shows id o) (hsame : s.SameRows s' id) : s'.Shows id o where
  row := hsame.row.trans h.row
  perm e := (hsame.perm e).trans (h.perm e)
  folder pre := (hsame.folder pre).trans (h.folder pre)
  folderPerm pre e := (hsame.folderPerm pre e).trans (h.folderPerm pre e)
  appFolder pre app := (hsame.appFolder pre app).trans (h.appFolder pre app)

/-- A write that is about one id. -/
theorem Reflects.change {t t' : ProjectTable} {s s' : SqlProjects} (h : Reflects t s) (id : GoString)
    (hother : ∀ j, j ≠ id → t'.lookup j = t.lookup j) (hsame : ∀ j, j ≠ id → s.SameRows s' j)
    (hfine : ∀ p, t'.lookup id = some p → p.Fine) (hshows : s'.Shows id (t'.lookup id)) :
    Reflects t' s' where
  fine j p hp := by
    by_cases hj : j = id
    · exact hfine p (hj ▸ hp)
    · exact h.fine j p (by rwa [← hother j hj])
  shows j := by
    by_cases hj : j = id
    · exact hj ▸ hshows
    · rw [hother j hj]
      exact (h.shows j).of_sameRows (hsame j hj)

/-! ### Writes -/

theorem Reflects.delete {t : ProjectTable} {s : SqlProjects} (h : Reflects t s) (id : GoString) :
    Option.Rel Reflects (t.write (.delete id)) (s.write (.delete id)) := by
  refine .some (h.change id (fun j hj => AList.lookup_erase_ne hj) (fun j hj => ?_) ?_ ?_)
  · refine ⟨AList.lookup_erase_ne hj, fun e => lookup_keep_ne hj _ e,
      fun pre => lookup_keep_ne hj _ pre, fun pre e => ?_, fun pre app => lookup_keep_ne hj _ _⟩
    change (keep (·.1.1 ≠ id) s.folderPerms).lookup _ = _
    rw [lookup_keep]
    simp [hj]
  · intro p hp
    rw [AList.lookup_erase] at hp
    cases hp
  · rw [AList.lookup_erase]
    refine ⟨AList.lookup_erase _ _, fun e => lookup_keep_self _ e, fun pre => lookup_keep_self _ pre,
      fun pre e => ?_, fun pre app => lookup_keep_self _ _⟩
    change (keep (·.1.1 ≠ id) s.folderPerms).lookup _ = _
    rw [lookup_keep]
    simp

/-- A write of a project that is there: the record is changed, and rows of its id. -/
theorem Reflects.edit {t : ProjectTable} {s s' : SqlProjects} (h : Reflects t s) {id : GoString}
    {f : ProjectRecord → ProjectRecord} {p : ProjectRecord} (hp : t.lookup id = some p)
    (hsame : ∀ j, j ≠ id → s.SameRows s' j) (hfine : (f p).Fine) (hshows : s'.Shows id (some (f p))) :
    Reflects (t.edit id f) s' := by
  have hedit : t.edit id f = t.insert id (f p) := by rw [ProjectTable.edit, hp]
  rw [hedit]
  refine h.change id (fun j hj => AList.lookup_insert_ne hj) hsame (fun q hq => ?_) ?_
  · rw [AList.lookup_insert] at hq
    cases hq
    exact hfine
  · rw [AList.lookup_insert]
    exact hshows

theorem ifStored_eq {t t' : ProjectTable} {id : GoString} {p : ProjectRecord}
    (hp : t.lookup id = some p) : t.ifStored id t' = some t' := by
  rw [ProjectTable.ifStored, hp]
  rfl

theorem Reflects.putData {t : ProjectTable} {s : SqlProjects} (h : Reflects t s) {id : GoString}
    {p : ProjectRecord} (hp : t.lookup id = some p) (on : Bool) :
    Option.Rel Reflects (t.write (.putData id on)) (s.write (.putData id on)) := by
  have hshows := h.shows id
  have hfine := h.fine id p hp
  rw [hp] at hshows
  have hrow : s.projects.lookup id = some (.of p) := hshows.row
  rw [write, hrow, ProjectTable.write, ifStored_eq hp]
  refine .some (h.edit hp (fun j hj => ?_) ?_ ?_)
  · exact ⟨AList.lookup_insert_ne hj, fun _ => rfl, fun _ => rfl, fun _ _ => rfl, fun _ _ => rfl⟩
  · exact ⟨⟨hfine.rules, hfine.grants⟩, hfine.created, hfine.givers, hfine.ruleGivers⟩
  · exact ⟨AList.lookup_insert _, hshows.perm, hshows.folder, hshows.folderPerm, hshows.appFolder⟩

theorem lookup_setGranter (m : GrantMap) (email giver e : GoString) :
    (setGranter m email giver).lookup e =
      if e = email then (if giver = [] then none else some giver) else m.lookup e := by
  rw [setGranter]
  by_cases he : e = email
  · subst he
    by_cases hg : giver = []
    · rw [if_pos hg, if_pos rfl, if_pos hg, AList.lookup_erase]
    · rw [if_neg hg, if_pos rfl, if_neg hg, AList.lookup_insert]
  · rw [if_neg he]
    split_ifs
    · exact AList.lookup_erase_ne he
    · exact AList.lookup_insert_ne he

/-- The levels after a grant is written, or dropped. -/
theorem lookup_setLevel (m : GrantMap) (email level e : GoString) :
    (if level = [] then m.erase email else m.insert email level).lookup e =
      if e = email then (if level = [] then none else some level) else m.lookup e := by
  by_cases he : e = email
  · subst he
    by_cases hl : level = []
    · rw [if_pos hl, if_pos rfl, if_pos hl, AList.lookup_erase]
    · rw [if_neg hl, if_pos rfl, if_neg hl, AList.lookup_insert]
  · rw [if_neg he]
    split_ifs
    · exact AList.lookup_erase_ne he
    · exact AList.lookup_insert_ne he

/-- The row of a grant after one is written, or dropped. -/
theorem grantRow_putPerm (perms grantedBy : GrantMap) (email level giver e : GoString) :
    grantRow (if level = [] then perms.erase email else perms.insert email level)
        (setGranter grantedBy email (if level = [] then [] else giver)) e =
      if e = email then (if level = [] then none else some ⟨level, giver⟩)
      else grantRow perms grantedBy e := by
  rw [grantRow, lookup_setLevel, lookup_setGranter]
  by_cases he : e = email
  · rw [if_pos he, if_pos he, if_pos he]
    by_cases hl : level = []
    · rw [if_pos hl, if_pos hl, if_pos hl]
      rfl
    · rw [if_neg hl, if_neg hl, if_neg hl]
      by_cases hg : giver = []
      · rw [if_pos hg, hg]
        rfl
      · rw [if_neg hg]
        rfl
  · rw [if_neg he, if_neg he, if_neg he]
    rfl

theorem giversFine_putPerm {perms grantedBy : GrantMap} (h : ProjectRecord.GiversFine perms grantedBy)
    (email level giver : GoString) :
    ProjectRecord.GiversFine (if level = [] then perms.erase email else perms.insert email level)
      (setGranter grantedBy email (if level = [] then [] else giver)) := by
  intro e g hg
  rw [lookup_setGranter] at hg
  rw [lookup_setLevel]
  by_cases he : e = email
  · rw [if_pos he] at hg ⊢
    by_cases hl : level = []
    · rw [if_pos hl, if_pos rfl] at hg
      cases hg
    · rw [if_neg hl] at hg ⊢
      split_ifs at hg with hgiver
      cases hg
      exact ⟨hgiver, rfl⟩
  · rw [if_neg he] at hg ⊢
    exact h e g hg

theorem Reflects.putPerm {t : ProjectTable} {s : SqlProjects} (h : Reflects t s) {id : GoString}
    {p : ProjectRecord} (hp : t.lookup id = some p) (email level giver : GoString) :
    Option.Rel Reflects (t.write (.putPerm id email level giver))
      (s.write (.putPerm id email level giver)) := by
  have hshows := h.shows id
  have hfine := h.fine id p hp
  rw [hp] at hshows
  rw [write, ProjectTable.write]
  split_ifs with hcheck hlevel
  · rw [ifStored_eq hp]
    refine .some (h.edit hp (fun j hj => ?_) ?_ ?_)
    · exact ⟨rfl, fun e => lookup_erase_other hj _ _ _, fun _ => rfl, fun _ _ => rfl, fun _ _ => rfl⟩
    · exact ⟨⟨hfine.rules, hfine.grants⟩, hfine.created,
        giversFine_putPerm hfine.givers email level giver, hfine.ruleGivers⟩
    · refine ⟨hshows.row, fun e => ?_, hshows.folder, hshows.folderPerm, hshows.appFolder⟩
      refine Eq.trans ?_ (grantRow_putPerm p.perms p.grantedBy email level giver e).symm
      by_cases he : e = email
      · rw [he, if_pos rfl, if_pos hlevel]
        exact AList.lookup_erase _ _
      · rw [if_neg he]
        exact (AList.lookup_erase_ne fun heq => he (Prod.mk.inj heq).2).trans (hshows.perm e)
  · rw [ifStored_eq hp]
    refine .some (h.edit hp (fun j hj => ?_) ?_ ?_)
    · exact ⟨rfl, fun e => lookup_insert_other hj _ _ _ _, fun _ => rfl, fun _ _ => rfl,
        fun _ _ => rfl⟩
    · exact ⟨⟨hfine.rules, hfine.grants⟩, hfine.created,
        giversFine_putPerm hfine.givers email level giver, hfine.ruleGivers⟩
    · refine ⟨hshows.row, fun e => ?_, hshows.folder, hshows.folderPerm, hshows.appFolder⟩
      refine Eq.trans ?_ (grantRow_putPerm p.perms p.grantedBy email level giver e).symm
      by_cases he : e = email
      · rw [he, if_pos rfl, if_neg hlevel]
        exact AList.lookup_insert _
      · rw [if_neg he]
        exact (AList.lookup_insert_ne fun heq => he (Prod.mk.inj heq).2).trans (hshows.perm e)
  · exact .none

/-- A write of rules or of their grants. -/
theorem Reflects.editRules {t : ProjectTable} {s s' : SqlProjects} (h : Reflects t s) {id : GoString}
    {p : ProjectRecord} (hp : t.lookup id = some p) {l : List FolderRecord}
    (hnodup : (l.map (·.pre)).Nodup)
    (hgivers : ∀ f ∈ l, ProjectRecord.GiversFine f.perms f.grantedBy)
    (hprojects : s'.projects = s.projects) (hperms : s'.perms = s.perms)
    (happFolders : s'.appFolders = s.appFolders)
    (hfolders : ∀ j, j ≠ id → ∀ pre, s'.folders.lookup (j, pre) = s.folders.lookup (j, pre))
    (hfolderPerms : ∀ j, j ≠ id → ∀ pre e,
      s'.folderPerms.lookup ((j, pre), e) = s.folderPerms.lookup ((j, pre), e))
    (hrule : ∀ pre, s'.folders.lookup (id, pre) = (l.find? (·.pre = pre)).map (·.default))
    (hgrant : ∀ pre e, s'.folderPerms.lookup ((id, pre), e) =
      (l.find? (·.pre = pre)).bind fun f => grantRow f.perms f.grantedBy e) :
    Reflects (t.edit id fun p => { p with folders := l }) s' := by
  have hshows := h.shows id
  have hfine := h.fine id p hp
  rw [hp] at hshows
  refine h.edit hp (fun j hj => ?_) ?_ ?_
  · exact ⟨by rw [hprojects], fun e => by rw [hperms], hfolders j hj, hfolderPerms j hj,
      fun pre app => by rw [happFolders]⟩
  · exact ⟨⟨hnodup, hfine.grants⟩, hfine.created, hfine.givers, hgivers⟩
  · exact ⟨by rw [hprojects]; exact hshows.row, fun e => by rw [hperms]; exact hshows.perm e, hrule,
      hgrant, fun pre app => by rw [happFolders]; exact hshows.appFolder pre app⟩

theorem edit_eq {t : ProjectTable} {id : GoString} {p : ProjectRecord} (hp : t.lookup id = some p)
    (f : List FolderRecord → List FolderRecord) :
    t.edit id (fun p => { p with folders := f p.folders }) =
      t.edit id fun q => { q with folders := f p.folders } := by
  rw [ProjectTable.edit, ProjectTable.edit, hp]

theorem Reflects.deleteFolder {t : ProjectTable} {s : SqlProjects} (h : Reflects t s)
    {id : GoString} {p : ProjectRecord} (hp : t.lookup id = some p) (pre : GoString) :
    Option.Rel Reflects (t.write (.deleteFolder id pre)) (s.write (.deleteFolder id pre)) := by
  have hshows := h.shows id
  have hfine := h.fine id p hp
  rw [hp] at hshows
  rw [write, ProjectTable.write, ifStored_eq hp, ProjectTable.deleteFolder,
    edit_eq hp fun l => l.filter (·.pre ≠ pre)]
  refine .some ?_
  refine h.editRules hp (l := p.folders.filter (·.pre ≠ pre)) ?_ ?_ rfl rfl rfl ?_ ?_ ?_ ?_
  · exact (hfine.rules).sublist (List.Sublist.map _ List.filter_sublist)
  · exact fun f hf => hfine.ruleGivers f (List.mem_filter.mp hf).1
  · exact fun j hj pre' => lookup_erase_other hj _ _ _
  · intro j hj pre' e
    change (keep (·.1 ≠ (id, pre)) s.folderPerms).lookup _ = _
    rw [lookup_keep]
    simp [hj]
  · intro pre'
    rw [ProjectTable.find_dropRule]
    by_cases hpre : pre = pre'
    · rw [if_pos hpre, ← hpre]
      exact AList.lookup_erase _ _
    · rw [if_neg hpre]
      exact (AList.lookup_erase_ne fun heq => hpre (Prod.mk.inj heq).2.symm).trans
        (hshows.folder pre')
  · intro pre' e
    rw [ProjectTable.find_dropRule]
    change (keep (·.1 ≠ (id, pre)) s.folderPerms).lookup _ = _
    rw [lookup_keep]
    by_cases hpre : pre = pre'
    · simp [hpre]
    · rw [if_neg hpre, if_pos (by simpa using fun heq => hpre heq.symm)]
      exact hshows.folderPerm pre' e

theorem grantRow_dropGrant (perms grantedBy : GrantMap) (email e : GoString) :
    grantRow (perms.erase email) (grantedBy.erase email) e =
      if e = email then none else grantRow perms grantedBy e := by
  rw [grantRow]
  by_cases he : e = email
  · rw [if_pos he, he, AList.lookup_erase email perms]
    rfl
  · rw [if_neg he, AList.lookup_erase_ne he, AList.lookup_erase_ne he]
    rfl

theorem Reflects.dropFolderPerm {t : ProjectTable} {s : SqlProjects} (h : Reflects t s)
    (id pre email : GoString) :
    Option.Rel Reflects (t.write (.dropFolderPerm id pre email))
      (s.write (.dropFolderPerm id pre email)) := by
  have hshows := h.shows id
  rw [write, ProjectTable.write, ProjectTable.dropFolderPerm]
  cases hp : t.lookup id with
  | none =>
    rw [hp] at hshows
    have hedit : ∀ f, t.edit id f = t := fun f => by rw [ProjectTable.edit, hp]
    rw [hedit]
    refine .some (h.change id (fun _ _ => rfl) (fun j hj => ?_) (h.fine id) ?_)
    · exact ⟨rfl, fun _ => rfl, fun _ => rfl,
        fun pre' e => AList.lookup_erase_ne fun heq => hj (congrArg (·.1.1) heq), fun _ _ => rfl⟩
    · rw [hp]
      refine ⟨hshows.row, hshows.perm, hshows.folder, fun pre' e => ?_, hshows.appFolder⟩
      by_cases hkey : ((id, pre'), e) = ((id, pre), email)
      · rw [hkey]
        exact AList.lookup_erase _ _
      · exact (AList.lookup_erase_ne hkey).trans (hshows.folderPerm pre' e)
  | some p =>
    have hfine := h.fine id p hp
    rw [hp] at hshows
    rw [edit_eq hp fun l => l.map fun f => if f.pre = pre then f.dropGrant email else f]
    refine .some ?_
    refine h.editRules hp (l := p.folders.map fun f =>
      if f.pre = pre then f.dropGrant email else f) ?_ ?_ ?_ ?_ ?_ ?_ ?_ ?_ ?_
    · have hmap : ((p.folders.map fun f => if f.pre = pre then f.dropGrant email else f).map
          (·.pre)) = p.folders.map (·.pre) := by
        rw [List.map_map]
        refine List.map_congr_left fun f _ => ?_
        simp only [Function.comp_apply]
        split_ifs <;> rfl
      rw [hmap]
      exact hfine.rules
    · intro f hf
      obtain ⟨f', hf', rfl⟩ := List.mem_map.mp hf
      split_ifs
      · intro e g hg
        by_cases he : e = email
        · rw [he] at hg
          cases (AList.lookup_erase _ _).symm.trans hg
        · have hold : f'.grantedBy.lookup e = some g := (AList.lookup_erase_ne he).symm.trans hg
          obtain ⟨hg', hperm⟩ := hfine.ruleGivers f' hf' e g hold
          exact ⟨hg', (AList.lookup_erase_ne he).symm ▸ hperm⟩
      · exact hfine.ruleGivers f' hf'
    · rfl
    · rfl
    · rfl
    · exact fun _ _ _ => rfl
    · exact fun j hj pre' e => AList.lookup_erase_ne fun heq => hj (congrArg (·.1.1) heq)
    · intro pre'
      rw [ProjectTable.find_dropGrant, Option.map_map]
      refine (hshows.folder pre').trans ?_
      rw [Option.bind_some, ProjectRecord.rule]
      congr 1
      funext f
      simp only [Function.comp_apply]
      split_ifs <;> rfl
    · intro pre' e
      rw [ProjectTable.find_dropGrant, Option.bind_map]
      by_cases hpre : pre = pre'
      · subst hpre
        by_cases he : e = email
        · rw [he]
          refine (AList.lookup_erase _ _).trans ?_
          cases p.folders.find? (·.pre = pre) with
          | none => rfl
          | some f => simp [FolderRecord.dropGrant, grantRow_dropGrant]
        · refine (AList.lookup_erase_ne fun heq => he (Prod.mk.inj heq).2).trans ?_
          rw [hshows.folderPerm, Option.bind_some, ProjectRecord.rule]
          cases p.folders.find? (·.pre = pre) with
          | none => rfl
          | some f => simp [FolderRecord.dropGrant, grantRow_dropGrant, he]
      · refine (AList.lookup_erase_ne fun heq => hpre (congrArg (·.1.2) heq).symm).trans ?_
        rw [hshows.folderPerm, Option.bind_some, ProjectRecord.rule]
        cases p.folders.find? (·.pre = pre') with
        | none => rfl
        | some f => simp [hpre]

/-- The rule a write carries has distinct storable accounts with named givers. -/
def RuleFine (rule : FolderRecord) : Prop :=
  storableMap rule.perms = true ∧ ProjectRecord.GiversFine rule.perms rule.grantedBy

theorem Reflects.putFolder {t : ProjectTable} {s : SqlProjects} (h : Reflects t s)
    {id : GoString} {p : ProjectRecord} (hp : t.lookup id = some p) {rule : FolderRecord}
    (hrule : RuleFine rule) :
    Option.Rel Reflects (t.write (.putFolder id rule)) (s.write (.putFolder id rule)) := by
  have hshows := h.shows id
  have hfine := h.fine id p hp
  rw [hp] at hshows
  rw [write, ProjectTable.write]
  by_cases hcheck : [id, rule.pre].all storable = true
  · obtain ⟨perms, hperms, hself, hrest⟩ := insertRows_grantRows (id, rule.pre) rule.perms
      rule.grantedBy (lookup_keep_self s.folderPerms)
    rw [if_pos hcheck, if_pos (by rw [hcheck, hrule.1]; rfl), ifStored_eq hp, hperms,
      ProjectTable.putFolder, edit_eq hp (ProjectTable.setRule · rule)]
    refine .some ?_
    refine h.editRules hp (l := ProjectTable.setRule p.folders rule) ?_ ?_ ?_ ?_ ?_ ?_ ?_ ?_ ?_
    · exact ProjectTable.nodup_setRule hfine.rules
    · intro f hf
      rcases ProjectTable.mem_setRule hf with rfl | hf
      · exact hrule.2
      · exact hfine.ruleGivers f hf
    · rfl
    · rfl
    · rfl
    · exact fun j hj pre => lookup_insert_other hj _ _ _ _
    · intro j hj pre e
      have hkey : (j, pre) ≠ (id, rule.pre) := fun heq => hj (Prod.mk.inj heq).1
      exact (hrest (j, pre) e hkey).trans (lookup_keep_ne hkey _ e)
    · intro pre
      rw [ProjectTable.find_setRule]
      by_cases hpre : rule.pre = pre
      · rw [if_pos hpre, ← hpre]
        exact AList.lookup_insert _
      · rw [if_neg hpre]
        exact (AList.lookup_insert_ne fun heq => hpre (Prod.mk.inj heq).2.symm).trans
          (hshows.folder pre)
    · intro pre e
      rw [ProjectTable.find_setRule]
      by_cases hpre : rule.pre = pre
      · rw [if_pos hpre, ← hpre]
        exact hself e
      · have hkey : (id, pre) ≠ (id, rule.pre) := fun heq => hpre (Prod.mk.inj heq).2.symm
        rw [if_neg hpre]
        exact ((hrest (id, pre) e hkey).trans (lookup_keep_ne hkey _ e)).trans
          (hshows.folderPerm pre e)
  · rw [if_neg hcheck, if_neg (by rw [Bool.and_eq_true]; exact fun h => hcheck h.1)]
    exact .none

/-- A write of grants of apps. -/
theorem Reflects.editApps {t : ProjectTable} {s : SqlProjects} (h : Reflects t s) {id : GoString}
    {p : ProjectRecord} (hp : t.lookup id = some p)
    {apps : AList fun _ : GoString × (GoString × GoString) => GrantRow} {l : List AppFolderRecord}
    (hnodup : (l.map fun g => (g.pre, g.app)).Nodup)
    (hother : ∀ j, j ≠ id → ∀ key, apps.lookup (j, key) = s.appFolders.lookup (j, key))
    (hself : ∀ pre app, apps.lookup (id, (pre, app)) =
      (l.find? (·.at pre app)).map fun g => ⟨g.level, g.giver⟩) :
    Reflects (t.edit id fun p => { p with appFolders := l }) { s with appFolders := apps } := by
  have hshows := h.shows id
  have hfine := h.fine id p hp
  rw [hp] at hshows
  refine h.edit hp (fun j hj => ?_) ?_ ?_
  · exact ⟨rfl, fun _ => rfl, fun _ => rfl, fun _ _ => rfl, fun pre app => hother j hj _⟩
  · exact ⟨⟨hfine.rules, hnodup⟩, hfine.created, hfine.givers, hfine.ruleGivers⟩
  · exact ⟨hshows.row, hshows.perm, hshows.folder, hshows.folderPerm, hself⟩

theorem editApps_eq {t : ProjectTable} {id : GoString} {p : ProjectRecord}
    (hp : t.lookup id = some p) (f : List AppFolderRecord → List AppFolderRecord) :
    t.edit id (fun p => { p with appFolders := f p.appFolders }) =
      t.edit id fun q => { q with appFolders := f p.appFolders } := by
  rw [ProjectTable.edit, ProjectTable.edit, hp]

theorem nodup_dropApp {l : List AppFolderRecord} (h : (l.map fun g => (g.pre, g.app)).Nodup)
    (pre app : GoString) :
    ((l.filter (!·.at pre app)).map fun g => (g.pre, g.app)).Nodup :=
  h.sublist (List.Sublist.map _ List.filter_sublist)

theorem Reflects.dropAppFolder {t : ProjectTable} {s : SqlProjects} (h : Reflects t s)
    {id : GoString} {p : ProjectRecord} (hp : t.lookup id = some p) (pre app : GoString) :
    Option.Rel Reflects (t.write (.dropAppFolder id pre app))
      (s.write (.dropAppFolder id pre app)) := by
  have hshows := h.shows id
  rw [hp] at hshows
  rw [write, ProjectTable.write, ifStored_eq hp, ProjectTable.dropAppFolder,
    editApps_eq hp fun l => l.filter (!·.at pre app)]
  refine .some (h.editApps hp (nodup_dropApp (h.fine id p hp).grants pre app) ?_ fun pre' app' => ?_)
  · exact fun j hj key => lookup_erase_other hj _ _ _
  · rw [ProjectTable.find_dropApp]
    by_cases hkey : (pre, app) = (pre', app')
    · rw [if_pos hkey, ← hkey]
      exact AList.lookup_erase _ _
    · rw [if_neg hkey]
      exact (AList.lookup_erase_ne fun heq => hkey (Prod.mk.inj heq).2.symm).trans
        (hshows.appFolder pre' app')

theorem Reflects.putAppFolder {t : ProjectTable} {s : SqlProjects} (h : Reflects t s)
    {id : GoString} {p : ProjectRecord} (hp : t.lookup id = some p) (g : AppFolderRecord) :
    Option.Rel Reflects (t.write (.putAppFolder id g)) (s.write (.putAppFolder id g)) := by
  have hshows := h.shows id
  rw [hp] at hshows
  rw [write, ProjectTable.write]
  split_ifs
  · rw [ifStored_eq hp, ProjectTable.putAppFolder,
      editApps_eq hp fun l => l.filter (!·.at g.pre g.app) ++ [g]]
    refine .some (h.editApps hp ?_ ?_ fun pre app => ?_)
    · rw [List.map_append, List.nodup_append]
      refine ⟨nodup_dropApp (h.fine id p hp).grants _ _, List.nodup_singleton _, ?_⟩
      intro key hkey key' hkey'
      obtain ⟨g', hg', rfl⟩ := List.mem_map.mp hkey
      have hkept := (List.mem_filter.mp hg').2
      rw [List.mem_singleton.mp hkey']
      intro heq
      rw [AppFolderRecord.at_iff.mpr heq] at hkept
      cases hkept
    · exact fun j hj key => lookup_insert_other hj _ _ _ _
    · rw [ProjectTable.find_putApp]
      by_cases hkey : (g.pre, g.app) = (pre, app)
      · rw [if_pos hkey, ← hkey]
        exact AList.lookup_insert _
      · rw [if_neg hkey]
        exact (AList.lookup_insert_ne fun heq => hkey (Prod.mk.inj heq).2.symm).trans
          (hshows.appFolder pre app)
  · exact .none

/-- The rows of rules, and of grants of apps, under distinct keys. -/
theorem insertRows_folders (id : GoString) {p : ProjectRecord} (h : (p.folders.map (·.pre)).Nodup)
    (t : AList fun _ : GoString × GoString => GoString) :
    ∃ t', insertRows (keep (·.1 ≠ id) t)
        (p.folders.map fun f => ((id, f.pre), f.default)) = some t' ∧
      (∀ pre, t'.lookup (id, pre) = (p.rule pre).map (·.default)) ∧
      ∀ j, j ≠ id → ∀ pre, t'.lookup (j, pre) = t.lookup (j, pre) := by
  have hkeys : (p.folders.map fun f => ((id, f.pre), f.default)).map (·.1) =
      (p.folders.map (·.pre)).map fun pre => (id, pre) := by
    rw [List.map_map, List.map_map]
    rfl
  obtain ⟨t', ht', hrows, hrest⟩ := @insertRows_eq_some _ _ _
    (p.folders.map fun f => ((id, f.pre), f.default)) (keep (·.1 ≠ id) t)
    (hkeys ▸ h.map fun _ _ heq => (Prod.mk.inj heq).2) fun row hrow => by
      obtain ⟨f, -, rfl⟩ := List.mem_map.mp hrow
      exact lookup_keep_self _ _
  refine ⟨t', ht', fun pre => ?_, fun j hj pre => ?_⟩
  · cases hrule : p.rule pre with
    | some f =>
      obtain ⟨hf, rfl⟩ := (ProjectRecord.rule_eq_some_iff h).mp hrule
      exact hrows _ (List.mem_map_of_mem hf)
    | none =>
      refine (hrest _ fun hmem => ?_).trans (lookup_keep_self _ _)
      rw [hkeys, List.map_map] at hmem
      obtain ⟨f, hf, heq⟩ := List.mem_map.mp hmem
      have hsome := (ProjectRecord.rule_eq_some_iff h).mpr ⟨hf, (Prod.mk.inj heq).2⟩
      rw [hrule] at hsome
      cases hsome
  · refine (hrest _ fun hmem => ?_).trans (lookup_keep_ne hj _ _)
    rw [hkeys] at hmem
    obtain ⟨_, -, heq⟩ := List.mem_map.mp hmem
    exact hj (Prod.mk.inj heq).1.symm

theorem insertRows_appFolders (id : GoString) {p : ProjectRecord}
    (h : (p.appFolders.map fun g => (g.pre, g.app)).Nodup)
    (t : AList fun _ : GoString × (GoString × GoString) => GrantRow) :
    ∃ t', insertRows (keep (·.1 ≠ id) t)
        (p.appFolders.map fun g => ((id, (g.pre, g.app)), ⟨g.level, g.giver⟩)) = some t' ∧
      (∀ pre app, t'.lookup (id, (pre, app)) =
        (p.appGrant pre app).map fun g => ⟨g.level, g.giver⟩) ∧
      ∀ j, j ≠ id → ∀ key, t'.lookup (j, key) = t.lookup (j, key) := by
  have hkeys : (p.appFolders.map fun g => ((id, (g.pre, g.app)), GrantRow.mk g.level g.giver)).map
      (·.1) = (p.appFolders.map fun g => (g.pre, g.app)).map fun key => (id, key) := by
    rw [List.map_map, List.map_map]
    rfl
  obtain ⟨t', ht', hrows, hrest⟩ := @insertRows_eq_some _ _ _
    (p.appFolders.map fun g => ((id, (g.pre, g.app)), GrantRow.mk g.level g.giver))
    (keep (·.1 ≠ id) t)
    (hkeys ▸ h.map fun _ _ heq => (Prod.mk.inj heq).2) fun row hrow => by
      obtain ⟨g, -, rfl⟩ := List.mem_map.mp hrow
      exact lookup_keep_self _ _
  refine ⟨t', ht', fun pre app => ?_, fun j hj key => ?_⟩
  · cases hgrant : p.appGrant pre app with
    | some g =>
      obtain ⟨hg, heq⟩ := (ProjectRecord.appGrant_eq_some_iff h).mp hgrant
      rw [← heq]
      exact hrows _ (List.mem_map_of_mem hg)
    | none =>
      refine (hrest _ fun hmem => ?_).trans (lookup_keep_self _ _)
      rw [hkeys, List.map_map] at hmem
      obtain ⟨g, hg, heq⟩ := List.mem_map.mp hmem
      have hsome := (ProjectRecord.appGrant_eq_some_iff h).mpr ⟨hg, (Prod.mk.inj heq).2⟩
      rw [hgrant] at hsome
      cases hsome
  · refine (hrest _ fun hmem => ?_).trans (lookup_keep_ne hj _ _)
    rw [hkeys] at hmem
    obtain ⟨_, -, heq⟩ := List.mem_map.mp hmem
    exact hj (Prod.mk.inj heq).1.symm

theorem Reflects.put {t : ProjectTable} {s : SqlProjects} (h : Reflects t s) (id : GoString)
    {p : ProjectRecord} (hfine : p.Fine) :
    Option.Rel Reflects (t.write (.put id p)) (s.write (.put id p)) := by
  rw [write, ProjectTable.write]
  split_ifs
  · obtain ⟨perms, hperms, hpermSelf, hpermRest⟩ := insertRows_grantRows id p.perms p.grantedBy
      (lookup_keep_self s.perms)
    obtain ⟨folders, hfolders, hfolderSelf, hfolderRest⟩ :=
      insertRows_folders id hfine.rules s.folders
    have hkept : ∀ j pre e, (keep (·.1.1 ≠ id) s.folderPerms).lookup ((j, pre), e) =
        if j = id then none else s.folderPerms.lookup ((j, pre), e) := by
      intro j pre e
      rw [lookup_keep]
      by_cases hj : j = id <;> simp [hj]
    obtain ⟨folderPerms, hfolderPerms, hruleSelf, hruleRest⟩ := insertRows_rules id hfine.rules
      (t := keep (·.1.1 ≠ id) s.folderPerms) fun f _ e => by rw [hkept, if_pos rfl]
    obtain ⟨appFolders, happFolders, happSelf, happRest⟩ :=
      insertRows_appFolders id hfine.grants s.appFolders
    rw [hperms, hfolders, hfolderPerms, happFolders, hfine.created.1]
    refine .some ?_
    refine h.change id (fun j hj => AList.lookup_insert_ne hj) (fun j hj => ?_) ?_ ?_
    · refine ⟨AList.lookup_insert_ne hj, fun e => ?_, hfolderRest j hj, fun pre e => ?_,
        fun pre app => happRest j hj _⟩
      · exact (hpermRest j e hj).trans (lookup_keep_ne hj _ e)
      · refine (hruleRest (j, pre) e fun f _ heq => hj (Prod.mk.inj heq).1).trans ?_
        rw [hkept, if_neg hj]
    · intro q hq
      rw [AList.lookup_insert] at hq
      cases hq
      exact hfine
    · rw [AList.lookup_insert]
      refine ⟨AList.lookup_insert _, hpermSelf, hfolderSelf, fun pre e => ?_, happSelf⟩
      rw [Option.bind_some]
      cases hrule : p.rule pre with
      | some f =>
        obtain ⟨hf, rfl⟩ := (ProjectRecord.rule_eq_some_iff hfine.rules).mp hrule
        exact hruleSelf f hf e
      | none =>
        refine (hruleRest (id, pre) e fun f hf heq => ?_).trans (by rw [hkept, if_pos rfl]; rfl)
        have hsome := (ProjectRecord.rule_eq_some_iff hfine.rules).mpr
          ⟨hf, (Prod.mk.inj heq).2.symm⟩
        rw [hrule] at hsome
        cases hsome
  · exact .none

theorem Reflects.putMeta {t : ProjectTable} {s : SqlProjects} (h : Reflects t s) (id : GoString)
    {p : ProjectRecord} (hcreated : TimeFine p.created) :
    Option.Rel Reflects (t.write (.putMeta id p)) (s.write (.putMeta id p)) := by
  have hshows := h.shows id
  rw [write, ProjectTable.write]
  split_ifs
  · rw [hcreated.1]
    change Option.Rel Reflects (some (t.putMeta id p)) _
    refine .some ?_
    refine h.change id (fun j hj => AList.lookup_insert_ne hj) (fun j hj => ?_) ?_ ?_
    · exact ⟨AList.lookup_insert_ne hj, fun _ => rfl, fun _ => rfl, fun _ _ => rfl, fun _ _ => rfl⟩
    · intro q hq
      rw [ProjectTable.putMeta, AList.lookup_insert] at hq
      cases hq
      cases hp : t.lookup id with
      | none =>
        refine ⟨⟨List.nodup_nil, List.nodup_nil⟩, hcreated, fun e g hg => ?_, fun f hf => ?_⟩
        · cases hg
        · cases hf
      | some disk =>
        have hfine := h.fine id disk hp
        exact ⟨⟨hfine.rules, hfine.grants⟩, hcreated, hfine.givers, hfine.ruleGivers⟩
    · rw [ProjectTable.putMeta, AList.lookup_insert]
      cases hp : t.lookup id with
      | none =>
        rw [hp] at hshows
        refine ⟨?_, hshows.perm, hshows.folder, hshows.folderPerm, hshows.appFolder⟩
        have hrow : s.projects.lookup id = none := hshows.row
        rw [hrow]
        exact AList.lookup_insert _
      | some disk =>
        rw [hp] at hshows
        refine ⟨?_, hshows.perm, hshows.folder, hshows.folderPerm, hshows.appFolder⟩
        have hrow : s.projects.lookup id = some (.of disk) := hshows.row
        rw [hrow]
        exact AList.lookup_insert _
  · exact .none

/-! ### A write -/

/-- What a write of a record or a rule carries has one row for each of its parts, and a write into
a project finds it. -/
def Careful (t : ProjectTable) : ProjectWrite → Prop
  | .put _ p => p.Fine
  | .putMeta _ p => TimeFine p.created
  | .putFolder id rule => (t.lookup id).isSome ∧ RuleFine rule
  | .putData id _ | .putPerm id _ _ _ | .deleteFolder id _ | .putAppFolder id _
  | .dropAppFolder id _ _ => (t.lookup id).isSome
  | .dropFolderPerm _ _ _ | .delete _ => True

/-- **A careful write succeeds in both stores or in neither, and keeps them the same.** -/
theorem Reflects.write {t : ProjectTable} {s : SqlProjects} (h : Reflects t s) {w : ProjectWrite}
    (careful : Careful t w) : Option.Rel Reflects (t.write w) (s.write w) := by
  have hstored : ∀ {id}, (t.lookup id).isSome → ∃ p, t.lookup id = some p :=
    Option.isSome_iff_exists.mp
  cases w with
  | put id p => exact h.put id careful
  | putMeta id p => exact h.putMeta id careful
  | putData id on => exact h.putData (hstored careful).choose_spec on
  | putPerm id email level giver =>
    exact h.putPerm (hstored careful).choose_spec email level giver
  | putFolder id rule => exact h.putFolder (hstored careful.1).choose_spec careful.2
  | dropFolderPerm id pre email => exact h.dropFolderPerm id pre email
  | deleteFolder id pre => exact h.deleteFolder (hstored careful).choose_spec pre
  | putAppFolder id g => exact h.putAppFolder (hstored careful).choose_spec g
  | dropAppFolder id pre app => exact h.dropAppFolder (hstored careful).choose_spec pre app
  | delete id => exact h.delete id

/-! ### What is loaded -/

end SqlProjects

/-- Two rules with the same grants. -/
structure FolderRecord.SameRule (f g : FolderRecord) : Prop where
  pre : f.pre = g.pre
  default : f.default = g.default
  perms : ∀ e, f.perms.lookup e = g.perms.lookup e
  grantedBy : ∀ e, f.grantedBy.lookup e = g.grantedBy.lookup e

/-- Two records that are equal up to the order of their rows. -/
structure ProjectRecord.SameUpToOrder (p q : ProjectRecord) : Prop where
  keyed : p.Keyed ∧ q.Keyed
  fields : { p with perms := ∅, grantedBy := ∅, folders := [], appFolders := [] } =
    { q with perms := ∅, grantedBy := ∅, folders := [], appFolders := [] }
  perms : ∀ e, p.perms.lookup e = q.perms.lookup e
  grantedBy : ∀ e, p.grantedBy.lookup e = q.grantedBy.lookup e
  rules : ∀ pre, Option.Rel FolderRecord.SameRule (p.rule pre) (q.rule pre)
  apps : ∀ pre app, p.appGrant pre app = q.appGrant pre app

/-- Two loads that are equal up to the order of their rows. -/
def ProjectTable.SameLoad (t u : ProjectTable) : Prop :=
  ∀ id, Option.Rel ProjectRecord.SameUpToOrder (t.lookup id) (u.lookup id)

namespace SqlProjects

section

variable {α : Type} [DecidableEq α]

/-- The levels and the givers come back from their rows. -/
theorem lookup_levels {t : AList fun _ : α × GoString => GrantRow} {parent : α}
    {perms grantedBy : GrantMap} (h : ∀ e, t.lookup (parent, e) = grantRow perms grantedBy e)
    (e : GoString) : (levels t parent).lookup e = perms.lookup e := by
  rw [levels, lookup_pick, lookup_children, h, grantRow]
  cases perms.lookup e <;> rfl

theorem lookup_givers {t : AList fun _ : α × GoString => GrantRow} {parent : α}
    {perms grantedBy : GrantMap} (h : ∀ e, t.lookup (parent, e) = grantRow perms grantedBy e)
    (hfine : ProjectRecord.GiversFine perms grantedBy) (e : GoString) :
    (givers t parent).lookup e = grantedBy.lookup e := by
  rw [givers, lookup_pick, lookup_children, h, grantRow]
  cases hg : grantedBy.lookup e with
  | none => cases perms.lookup e <;> rfl
  | some g =>
    obtain ⟨hne, hperm⟩ := hfine e g hg
    obtain ⟨level, hlevel⟩ := Option.isSome_iff_exists.mp hperm
    rw [hlevel]
    exact if_neg hne

end

variable (s : SqlProjects) (id : GoString) (row : ProjectRow)

theorem keyed_record : (s.record id row).Keyed where
  rules := by
    rw [record, List.map_map]
    exact (children s.folders id).nodupKeys
  grants := by
    rw [record, List.map_map]
    exact (children s.appFolders id).nodupKeys

/-- The rule at a prefix is made of the row under it. -/
theorem rule_record (pre : GoString) :
    (s.record id row).rule pre = (s.folders.lookup (id, pre)).map fun level =>
      { pre, default := level
        perms := levels s.folderPerms (id, pre)
        grantedBy := givers s.folderPerms (id, pre) } := by
  refine Option.ext fun f => ?_
  rw [ProjectRecord.rule_eq_some_iff (s.keyed_record id row).rules, Option.map_eq_some_iff,
    ← lookup_children]
  change f ∈ List.map _ _ ∧ _ ↔ _
  rw [List.mem_map]
  constructor
  · rintro ⟨⟨rule, hrule, rfl⟩, rfl⟩
    exact ⟨rule.2, AList.mem_lookup_iff.mpr hrule, rfl⟩
  · rintro ⟨level, hlevel, rfl⟩
    exact ⟨⟨⟨pre, level⟩, AList.mem_lookup_iff.mp hlevel, rfl⟩, rfl⟩

/-- The grant of an app is made of the row under it. -/
theorem appGrant_record (pre app : GoString) :
    (s.record id row).appGrant pre app = (s.appFolders.lookup (id, (pre, app))).map fun grant =>
      ⟨pre, app, grant.level, grant.giver⟩ := by
  refine Option.ext fun g => ?_
  rw [ProjectRecord.appGrant_eq_some_iff (s.keyed_record id row).grants, Option.map_eq_some_iff,
    ← lookup_children]
  change g ∈ List.map _ _ ∧ _ ↔ _
  rw [List.mem_map]
  constructor
  · rintro ⟨⟨grant, hgrant, rfl⟩, hkey⟩
    cases hkey
    exact ⟨grant.2, AList.mem_lookup_iff.mpr hgrant, rfl⟩
  · rintro ⟨grant, hgrant, rfl⟩
    exact ⟨⟨⟨(pre, app), grant⟩, AList.mem_lookup_iff.mp hgrant, rfl⟩, rfl⟩

variable {s id}

/-- The record that the rows of a record are loaded as. -/
theorem Shows.sameUpToOrder {p : ProjectRecord} (h : s.Shows id (some p)) (hfine : p.Fine) :
    p.SameUpToOrder (s.record id (.of p)) where
  keyed := ⟨⟨hfine.rules, hfine.grants⟩, s.keyed_record id _⟩
  fields := by simp [record, ProjectRow.of, hfine.created.2]
  perms e := (lookup_levels h.perm e).symm
  grantedBy e := (lookup_givers h.perm hfine.givers e).symm
  rules pre := by
    rw [rule_record, h.folder, Option.bind_some, Option.map_map]
    cases hrule : p.rule pre with
    | none => exact .none
    | some f =>
      obtain ⟨hf, rfl⟩ := (ProjectRecord.rule_eq_some_iff hfine.rules).mp hrule
      have hrows : ∀ e, s.folderPerms.lookup ((id, f.pre), e) = grantRow f.perms f.grantedBy e := by
        intro e
        rw [h.folderPerm, Option.bind_some, hrule, Option.bind_some]
      exact .some ⟨rfl, rfl, fun e => (lookup_levels hrows e).symm,
        fun e => (lookup_givers hrows (hfine.ruleGivers f hf) e).symm⟩
  apps pre app := by
    rw [appGrant_record, h.appFolder, Option.bind_some, Option.map_map]
    cases hgrant : p.appGrant pre app with
    | none => rfl
    | some g =>
      obtain ⟨-, hkey⟩ := (ProjectRecord.appGrant_eq_some_iff hfine.grants).mp hgrant
      cases hkey
      rfl

/-- **Both stores load the same.** -/
theorem Reflects.load {t : ProjectTable} (h : Reflects t s) : t.SameLoad s.load := by
  intro id
  rw [SqlProjects.load, lookup_pick]
  have hshows := h.shows id
  rw [hshows.row]
  cases hp : t.lookup id with
  | none => exact .none
  | some p =>
    rw [hp] at hshows
    exact .some (hshows.sameUpToOrder (h.fine id p hp))

end SqlProjects

end Beardrive
