import Beardrive.Webapp.ProjectRepos

/-!
# A store of projects

What the registry relies on is the same for both backends. A write changes the rows of one project
and of no other, a name and an org are changed by writes of metadata and by deletions alone, and a
deletion leaves no row of any kind: nothing that a later write could bring back. An id without a row
is blank.

A row written into a project that is not there is a row all the same, so the SQL backend may hold
rows of an id it does not list.

## Main definitions

* `ProjectRepo` — a store, and what holds of its writes
* `fileRepo`, `sqlRepo` — the two there are

## Main results

* `ProjectTable.write_cases` — what a write makes of the file
* `SqlProjects.sameRows_write`, `SqlProjects.row_write` — what a write leaves, and makes, of rows
-/

namespace Beardrive

open Rows

/-! ### The stores -/

/-- The name and the org of a project. -/
def ProjectTable.named (t : ProjectTable) (id : GoString) : Option (GoString × GoString) :=
  (t.lookup id).map fun p => (p.name, p.org)

namespace ProjectWrite

/-- The project a write is about. -/
def id : ProjectWrite → GoString
  | .put id _ | .putMeta id _ | .putData id _ | .putPerm id _ _ _ | .putFolder id _
  | .dropFolderPerm id _ _ | .deleteFolder id _ | .putAppFolder id _ | .dropAppFolder id _ _
  | .delete id => id

/-- What a write makes of the name and the org of its project. -/
def named : ProjectWrite → Option (GoString × GoString) → Option (GoString × GoString)
  | .put _ p, _ | .putMeta _ p, _ => some (p.name, p.org)
  | .delete _, _ => none
  | _, o => o

end ProjectWrite

/-- A store of projects. An id is blank when no row of any kind names it. -/
structure ProjectRepo (σ : Type) where
  empty : σ
  load : σ → ProjectTable
  write : σ → ProjectWrite → Option σ
  Blank : σ → GoString → Prop
  blank_empty : ∀ id, Blank empty id
  lookup_of_blank : ∀ {s id}, Blank s id → (load s).lookup id = none
  named_write : ∀ {s w s'}, write s w = some s' → ∀ id, (load s').named id =
    if id = w.id then w.named ((load s).named id) else (load s).named id
  blank_write : ∀ {s w s' id}, write s w = some s' → id ≠ w.id → Blank s id → Blank s' id
  blank_delete : ∀ {s id}, ∃ s', write s (.delete id) = some s' ∧ Blank s' id

namespace ProjectTable

theorem named_insert (t : ProjectTable) (id j : GoString) (p : ProjectRecord) :
    named (t.insert id p) j = if j = id then some (p.name, p.org) else t.named j := by
  rw [named]
  by_cases hj : j = id
  · rw [if_pos hj, hj, AList.lookup_insert]
    rfl
  · rw [if_neg hj, AList.lookup_insert_ne hj]
    rfl

theorem named_edit {t : ProjectTable} {f : ProjectRecord → ProjectRecord}
    (hf : ∀ p, (f p).name = p.name ∧ (f p).org = p.org) (id j : GoString) :
    (t.edit id f).named j = t.named j := by
  rw [edit]
  cases hp : t.lookup id with
  | none => rfl
  | some p =>
    rw [named_insert]
    by_cases hj : j = id
    · rw [if_pos hj, hj, named, hp, (hf p).1, (hf p).2]
      rfl
    · rw [if_neg hj]

theorem lookup_edit_ne {t : ProjectTable} {f : ProjectRecord → ProjectRecord} {id j : GoString}
    (hj : j ≠ id) : (t.edit id f).lookup j = t.lookup j := by
  rw [edit]
  cases t.lookup id with
  | none => rfl
  | some p => exact AList.lookup_insert_ne hj

theorem ifStored_eq_some {t t' u : ProjectTable} {id : GoString} (h : t.ifStored id u = some t') :
    t' = u := by
  rw [ifStored, Option.ite_none_right_eq_some] at h
  exact (Option.some.inj h.2).symm

/-- A write puts a record, takes one away, or changes one without its name and org. -/
theorem write_cases {t t' : ProjectTable} {w : ProjectWrite} (h : t.write w = some t') :
    (∃ p, t' = t.insert w.id p ∧ ∀ o, w.named o = some (p.name, p.org)) ∨
      (t' = t.erase w.id ∧ ∀ o, w.named o = none) ∨
      ∃ f, t' = t.edit w.id f ∧ (∀ p, (f p).name = p.name ∧ (f p).org = p.org) ∧
        ∀ o, w.named o = o := by
  cases w with
  | put id p | putMeta id p =>
    rw [write, Option.ite_none_right_eq_some] at h
    obtain ⟨created, -, rfl⟩ := Option.map_eq_some_iff.mp h.2
    exact .inl ⟨_, rfl, fun _ => rfl⟩
  | putPerm id email level giver | putFolder id rule | putAppFolder id g =>
    rw [write, Option.ite_none_right_eq_some] at h
    exact .inr (.inr ⟨_, ifStored_eq_some h.2, fun _ => ⟨rfl, rfl⟩, fun _ => rfl⟩)
  | putData id on | deleteFolder id pre | dropAppFolder id pre app =>
    exact .inr (.inr ⟨_, ifStored_eq_some h, fun _ => ⟨rfl, rfl⟩, fun _ => rfl⟩)
  | dropFolderPerm id pre email =>
    cases h
    exact .inr (.inr ⟨_, rfl, fun _ => ⟨rfl, rfl⟩, fun _ => rfl⟩)
  | delete id =>
    cases h
    exact .inr (.inl ⟨rfl, fun _ => rfl⟩)

/-- The record of another project stays. -/
theorem lookup_write {t t' : ProjectTable} {w : ProjectWrite} (h : t.write w = some t')
    {j : GoString} (hj : j ≠ w.id) : t'.lookup j = t.lookup j := by
  rcases write_cases h with ⟨p, rfl, -⟩ | ⟨rfl, -⟩ | ⟨f, rfl, -, -⟩
  · exact AList.lookup_insert_ne hj
  · exact AList.lookup_erase_ne hj
  · exact lookup_edit_ne hj

/-- The name and the org of the project a write is about. -/
theorem named_write {t t' : ProjectTable} {w : ProjectWrite} (h : t.write w = some t') :
    t'.named w.id = w.named (t.named w.id) := by
  rcases write_cases h with ⟨p, rfl, hw⟩ | ⟨rfl, hw⟩ | ⟨f, rfl, hf, hw⟩
  · rw [named_insert, if_pos rfl, hw]
  · rw [named, AList.lookup_erase, hw]
    rfl
  · rw [named_edit hf, hw]

end ProjectTable

/-- The file backend. -/
def fileRepo : ProjectRepo ProjectTable where
  empty := ∅
  load := id
  write := ProjectTable.write
  Blank t id := t.lookup id = none
  blank_empty _ := rfl
  lookup_of_blank h := h
  named_write {t w t'} h j := by
    by_cases hj : j = w.id
    · rw [if_pos hj, hj]
      exact ProjectTable.named_write h
    · rw [if_neg hj]
      exact congrArg (Option.map _) (ProjectTable.lookup_write h hj)
  blank_write h hid hblank := (ProjectTable.lookup_write h hid).trans hblank
  blank_delete := ⟨_, rfl, AList.lookup_erase _ _⟩

namespace SqlProjects

theorem named_load (s : SqlProjects) (id : GoString) :
    s.load.named id = (s.projects.lookup id).map fun row => (row.name, row.org) := by
  rw [ProjectTable.named, load, lookup_pick]
  cases s.projects.lookup id <;> rfl

theorem map_lookup_insert (t : AList fun _ : GoString => ProjectRow) (id : GoString)
    (row : ProjectRow) : ((t.insert id row).lookup id).map (fun row => (row.name, row.org)) =
      some (row.name, row.org) := by
  rw [AList.lookup_insert]
  rfl

/-- The row of a project after a write, and the rows of the others. -/
theorem row_write {s s' : SqlProjects} {w : ProjectWrite} (h : s.write w = some s') :
    (s'.projects.lookup w.id).map (fun row => (row.name, row.org)) =
      w.named ((s.projects.lookup w.id).map fun row => (row.name, row.org)) := by
  cases w with
  | put id p =>
    rw [write, Option.ite_none_right_eq_some] at h
    obtain ⟨perms, -, h⟩ := Option.bind_eq_some_iff.mp h.2
    obtain ⟨folders, -, h⟩ := Option.bind_eq_some_iff.mp h
    obtain ⟨folderPerms, -, h⟩ := Option.bind_eq_some_iff.mp h
    obtain ⟨appFolders, -, h⟩ := Option.bind_eq_some_iff.mp h
    cases h
    exact map_lookup_insert _ _ _
  | putMeta id p =>
    rw [write, Option.ite_none_right_eq_some] at h
    cases h.2
    exact map_lookup_insert _ _ _
  | putData id on =>
    rw [write] at h
    split at h
    · cases h
      rfl
    · rename_i row hrow
      cases h
      refine (map_lookup_insert _ _ _).trans ?_
      change _ = (s.projects.lookup id).map fun row => (row.name, row.org)
      rw [hrow]
      rfl
  | putFolder id rule =>
    rw [write, Option.ite_none_right_eq_some] at h
    obtain ⟨folderPerms, -, h⟩ := Option.bind_eq_some_iff.mp h.2
    cases h
    rfl
  | putPerm id email level giver | putAppFolder id g =>
    rw [write, Option.ite_none_right_eq_some] at h
    cases h.2
    rfl
  | dropFolderPerm id pre email | deleteFolder id pre | dropAppFolder id pre app =>
    cases h
    rfl
  | delete id =>
    cases h
    change ((s.projects.erase id).lookup id).map _ = none
    rw [AList.lookup_erase]
    rfl

theorem sameRows_write {s s' : SqlProjects} {w : ProjectWrite} (h : s.write w = some s')
    {j : GoString} (hj : j ≠ w.id) : s.SameRows s' j := by
  have hrow : ∀ {α β : Type} {rows : List ((GoString × α) × β)} {i : GoString},
      j ≠ i → (∀ row ∈ rows, row.1.1 = i) → ∀ a, (j, a) ∉ rows.map (·.1) := by
    intro α β rows i hj hrows a hmem
    obtain ⟨row, hrow, heq⟩ := List.mem_map.mp hmem
    exact hj ((congrArg Prod.fst heq).symm.trans (hrows row hrow))
  cases w with
  | put id p =>
    rw [write, Option.ite_none_right_eq_some] at h
    obtain ⟨perms, hperms, h⟩ := Option.bind_eq_some_iff.mp h.2
    obtain ⟨folders, hfolders, h⟩ := Option.bind_eq_some_iff.mp h
    obtain ⟨folderPerms, hfolderPerms, h⟩ := Option.bind_eq_some_iff.mp h
    obtain ⟨appFolders, happFolders, h⟩ := Option.bind_eq_some_iff.mp h
    cases h
    refine ⟨AList.lookup_insert_ne hj, fun e => ?_, fun pre => ?_, fun pre e => ?_,
      fun pre app => ?_⟩
    · refine (lookup_of_insertRows hperms (hrow (i := id) hj ?_ e)).trans (lookup_keep_ne hj _ _)
      intro row hmem
      obtain ⟨entry, -, rfl⟩ := List.mem_map.mp hmem
      rfl
    · refine (lookup_of_insertRows hfolders (hrow (i := id) hj ?_ pre)).trans (lookup_keep_ne hj _ _)
      intro row hmem
      obtain ⟨f, -, rfl⟩ := List.mem_map.mp hmem
      rfl
    · refine (lookup_of_insertRows hfolderPerms fun hmem => ?_).trans ?_
      · obtain ⟨row, hrow, heq⟩ := List.mem_map.mp hmem
        obtain ⟨f, -, hf⟩ := List.mem_flatMap.mp hrow
        obtain ⟨entry, -, rfl⟩ := List.mem_map.mp hf
        exact hj (congrArg (·.1.1) heq).symm
      · rw [lookup_keep]
        simp [show j ≠ id from hj]
    · refine (lookup_of_insertRows happFolders (hrow (i := id) hj ?_ _)).trans
        (lookup_keep_ne hj _ _)
      intro row hmem
      obtain ⟨g, -, rfl⟩ := List.mem_map.mp hmem
      rfl
  | putMeta id p =>
    rw [write, Option.ite_none_right_eq_some] at h
    cases h.2
    exact ⟨AList.lookup_insert_ne hj, fun _ => rfl, fun _ => rfl, fun _ _ => rfl, fun _ _ => rfl⟩
  | putData id on =>
    rw [write] at h
    split at h
    · cases h
      exact ⟨rfl, fun _ => rfl, fun _ => rfl, fun _ _ => rfl, fun _ _ => rfl⟩
    · cases h
      exact ⟨AList.lookup_insert_ne hj, fun _ => rfl, fun _ => rfl, fun _ _ => rfl, fun _ _ => rfl⟩
  | putPerm id email level giver =>
    rw [write, Option.ite_none_right_eq_some] at h
    cases h.2
    refine ⟨rfl, fun e => ?_, fun _ => rfl, fun _ _ => rfl, fun _ _ => rfl⟩
    by_cases hlevel : level = []
    · simp only [if_pos hlevel]
      exact lookup_erase_other hj _ _ _
    · simp only [if_neg hlevel]
      exact lookup_insert_other hj _ _ _ _
  | putFolder id rule =>
    rw [write, Option.ite_none_right_eq_some] at h
    obtain ⟨folderPerms, hfolderPerms, h⟩ := Option.bind_eq_some_iff.mp h.2
    cases h
    refine ⟨rfl, fun _ => rfl, fun pre => lookup_insert_other hj _ _ _ _, fun pre e => ?_,
      fun _ _ => rfl⟩
    have hkey : (j, pre) ≠ (id, rule.pre) := fun heq => hj (Prod.mk.inj heq).1
    refine (lookup_of_insertRows hfolderPerms fun hmem => ?_).trans (lookup_keep_ne hkey _ _)
    obtain ⟨row, hrow, heq⟩ := List.mem_map.mp hmem
    obtain ⟨entry, -, rfl⟩ := List.mem_map.mp hrow
    exact hj (congrArg (·.1.1) heq).symm
  | dropFolderPerm id pre email =>
    cases h
    exact ⟨rfl, fun _ => rfl, fun _ => rfl,
      fun pre' e => AList.lookup_erase_ne fun heq => hj (congrArg (·.1.1) heq), fun _ _ => rfl⟩
  | deleteFolder id pre =>
    cases h
    refine ⟨rfl, fun _ => rfl, fun pre' => lookup_erase_other hj _ _ _, fun pre' e => ?_,
      fun _ _ => rfl⟩
    exact lookup_keep_ne (fun heq => hj (Prod.mk.inj heq).1) _ _
  | putAppFolder id g =>
    rw [write, Option.ite_none_right_eq_some] at h
    cases h.2
    exact ⟨rfl, fun _ => rfl, fun _ => rfl, fun _ _ => rfl,
      fun pre app => lookup_insert_other hj _ _ _ _⟩
  | dropAppFolder id pre app =>
    cases h
    exact ⟨rfl, fun _ => rfl, fun _ => rfl, fun _ _ => rfl,
      fun pre' app' => lookup_erase_other hj _ _ _⟩
  | delete id =>
    cases h
    refine ⟨AList.lookup_erase_ne hj, fun e => lookup_keep_ne hj _ _,
      fun pre => lookup_keep_ne hj _ _, fun pre e => ?_, fun pre app => lookup_keep_ne hj _ _⟩
    change (keep (·.1.1 ≠ id) s.folderPerms).lookup _ = _
    rw [lookup_keep]
    simp [show j ≠ id from hj]

/-- A deletion leaves no row of any kind. -/
theorem shows_delete (s : SqlProjects) (id : GoString) :
    ∃ s', s.write (.delete id) = some s' ∧ s'.Shows id none := by
  refine ⟨_, rfl, AList.lookup_erase _ _, fun e => lookup_keep_self _ e,
    fun pre => lookup_keep_self _ pre, fun pre e => ?_, fun pre app => lookup_keep_self _ _⟩
  change (keep (·.1.1 ≠ id) s.folderPerms).lookup _ = _
  rw [lookup_keep]
  simp

end SqlProjects

/-- The SQL backend. -/
def sqlRepo : ProjectRepo SqlProjects where
  empty := {}
  load := SqlProjects.load
  write := SqlProjects.write
  Blank s id := s.Shows id none
  blank_empty _ := ⟨rfl, fun _ => rfl, fun _ => rfl, fun _ _ => rfl, fun _ _ => rfl⟩
  lookup_of_blank {s id} h := by
    rw [SqlProjects.load, lookup_pick, h.row]
    rfl
  named_write {s w s'} h j := by
    rw [SqlProjects.named_load, SqlProjects.named_load]
    by_cases hj : j = w.id
    · rw [if_pos hj, hj]
      exact SqlProjects.row_write h
    · rw [if_neg hj, (SqlProjects.sameRows_write h hj).row]
  blank_write h hid hblank := hblank.of_sameRows (SqlProjects.sameRows_write h hid)
  blank_delete := SqlProjects.shows_delete _ _

end Beardrive
