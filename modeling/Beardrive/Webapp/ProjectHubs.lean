import Beardrive.Lib.Runs
import Beardrive.Webapp.ProjectStores
import Mathlib.Logic.Function.Basic

/-!
# Several processes over one store of projects

Every process answers from its own copy of the projects. A call takes the process's lock, makes the
copy anew when the store has moved, decides on it and writes once. The write does not look at what
the decision looked at: metadata is an upsert by id, and a grant or a rule is a row of its own. So
what is decided on a copy that is the store no more is written all the same.

## What the decision has seen

A careful call writes into the store it has read: no other write has landed since. Then a name that
is new in the copy is new in the store, and a project that is in the copy is in the store. `SetOrg`
does not look for the name in the org it moves a project to, so a careful one has to.

## Main definitions

* `ProjectHubs.plan` — what a call decides
* `ProjectHubs.step` — a process is opened, lists, decides, and its write lands
* `ProjectHubs.Careful` — the store has not moved between a decision and its write

## Main results

* `ProjectHubs.Sound.step` — what a careful step keeps
* `project_identity` — after careful steps a name of an org is one project's, and what was deleted
  is gone
-/

namespace Beardrive

/-! ### Calls -/

/-- The calls that make, name, move and delete projects, and that give access to them. A new id is
drawn at random. -/
inductive HubCall where
  | getOrCreate (name org fresh : GoString) (now : Time)
  | update (id : GoString) (name description icon : Option GoString)
  | setCreator (id email : GoString)
  | setOrg (id org : GoString)
  | setPermBy (id email level giver : GoString)
  | setFolder (id : GoString) (rule : FolderRecord)
  | delete (id : GoString)

/-- What a call decides: to fail, to answer with a project that is there, or to write. Then `next`
is the copy until the write is answered, and `prev` is the copy after a refusal. -/
inductive Plan where
  | refused
  | found (name org id : GoString)
  | write (next prev : ProjectTable) (w : ProjectWrite)

namespace HubCall

/-- The project a call renames, moves or deletes. -/
def retires : HubCall → Option GoString
  | .update id (some _) _ _ | .setOrg id _ | .delete id => some id
  | _ => none

/-- The id a call draws. -/
def draws : HubCall → Option GoString
  | .getOrCreate _ _ fresh _ => some fresh
  | _ => none

end HubCall

namespace ProjectHubs

/-- `put`: the metadata of a project is written, and its record put back after a refusal. -/
def putPlan (t : ProjectTable) (id : GoString) (prev next : ProjectRecord) (w : ProjectWrite) :
    Plan :=
  .write (t.insert id next) ((t.insert id next).insert id prev) w

section

variable (normEmail projectLabel : GoString → GoString) (trimText : GoString → ℕ → GoString)

/-- What a call decides on a copy. -/
def plan (t : ProjectTable) : HubCall → Plan
  | .getOrCreate name org fresh now =>
    let name := trimText (projectLabel name) 128
    if name = [] then .refused
    else match t.entries.find? fun row => row.2.name = name && row.2.org = org with
      | some row => .found name org row.1
      | none =>
        let p : ProjectRecord := { name, org, created := now }
        .write (t.insert fresh p) ((t.insert fresh p).erase fresh) (.put fresh p)
  | .update id name description icon =>
    let newName := name.map fun name => trimText (projectLabel name) (ProjectDB.maxNameLen + 1)
    let newDesc := description.map fun desc => trimText desc (ProjectDB.maxDescLen + 1)
    let newIcon := icon.map trimSpace
    if newName.any fun name => name = [] || ProjectDB.maxNameLen < (runes name).length then
      .refused
    else if newDesc.any fun desc => ProjectDB.maxDescLen < (runes desc).length then .refused
    else if newIcon.any fun icon => icon ≠ [] && !ProjectDB.iconShape icon then .refused
    else match t.lookup id with
      | none => .refused
      | some p =>
        if newName.any fun name => t.entries.any fun other =>
            other.1 ≠ id && other.2.name = name && other.2.org = p.org then .refused
        else
          let next := { p with
            name := newName.getD p.name
            description := newDesc.getD p.description
            icon := newIcon.getD p.icon }
          putPlan t id p next (.putMeta id next)
  | .setCreator id email =>
    match t.lookup id with
    | none => .refused
    | some p =>
      let next := { p with creator := normEmail email }
      putPlan t id p next (.putMeta id next)
  | .setOrg id org =>
    match t.lookup id with
    | none => .refused
    | some p =>
      let next := { p with org := org }
      putPlan t id p next (.putMeta id next)
  | .setPermBy id email level giver =>
    let e := normEmail email
    if !validLevel level || e = [] then .refused
    else match t.lookup id with
      | none => .refused
      | some p =>
        if level ≠ permAdmin && p.perms.lookup e = some permAdmin && adminCount p ≤ 1 then .refused
        else putPlan t id p
          { p with perms := p.perms.insert e level, grantedBy := setGranter p.grantedBy e giver }
          (.putPerm id e level giver)
  | .setFolder id rule =>
    if rule.pre = [] || !hasSuffix rule.pre [slash] then .refused
    else if rule.default ≠ [] && (!validLevel rule.default || rule.default = permAdmin) then .refused
    else if rule.perms.entries.any fun row =>
        row.1 = [] || !validLevel row.2 || row.2 = permAdmin then .refused
    else match t.lookup id with
      | none => .refused
      | some p =>
        if !p.folders.any (·.pre = rule.pre) && maxFolderRules ≤ p.folders.length then .refused
        else putPlan t id p { p with folders := ProjectTable.setRule p.folders rule }
          (.putFolder id rule)
  | .delete id =>
    match t.lookup id with
    | none => .refused
    | some _ => .write (t.erase id) (t.erase id) (.delete id)

end

end ProjectHubs

/-! ### Processes -/

/-- A write on its way: its call, what is written, the copy after a refusal, and the version of the
store at the decision. -/
structure HubWriting where
  call : HubCall
  w : ProjectWrite
  prev : ProjectTable
  decided : ℕ

/-- An answer of `GetOrCreate`. -/
structure HubAnswer where
  name : GoString
  org : GoString
  id : GoString
  deriving DecidableEq, Repr

/-- A store, the processes over it, the ids that were drawn and deleted, and the answers of
`GetOrCreate` whose projects were not renamed, moved or deleted since. The version of the store is
the number of its writes; a process recorded it with its last load. -/
structure ProjectHubs (κ σ : Type) where
  store : σ
  version : ℕ := 0
  byID : κ → ProjectTable := fun _ => ∅
  token : κ → Option ℕ := fun _ => none
  writing : κ → Option HubWriting := fun _ => none
  drawn : List GoString := []
  deleted : List GoString := []
  answered : List HubAnswer := []

/-- How a process refreshes: its copy is current, it loads and records the version or not, or the
load fails. -/
inductive Reread where
  | current
  | loads (records : Bool)
  | fails
  deriving DecidableEq, Repr

/-- What can happen next. The store may refuse a write, or take one and report an error. -/
inductive HubEvent (κ : Type) where
  | open_ (k : κ)
  | list (k : κ) (r : Reread)
  | call (k : κ) (r : Reread) (c : HubCall)
  | land (k : κ) (landed ok : Bool)

namespace ProjectHubs

variable {κ σ : Type} [DecidableEq κ]

/-- `refresh`. -/
def refresh (R : ProjectRepo σ) (s : ProjectHubs κ σ) (k : κ) : Reread → Option (ProjectHubs κ σ)
  | .current => if s.token k = some s.version then some s else none
  | .loads records =>
    some { s with
      byID := Function.update s.byID k (R.load s.store)
      token := Function.update s.token k (if records then some s.version else s.token k) }
  | .fails => some s

/-- The call that drew an id has it, and it will not be drawn again. -/
def draw (s : ProjectHubs κ σ) (c : HubCall) : ProjectHubs κ σ :=
  { s with drawn := c.draws.toList ++ s.drawn }

/-- What a call adds when it returns without an error: an answer, or a deletion. -/
def returns (s : ProjectHubs κ σ) (b : HubWriting) : ProjectHubs κ σ :=
  match b.w with
  | .put id p => { s with answered := ⟨p.name, p.org, id⟩ :: s.answered }
  | .delete id => { s with deleted := id :: s.deleted }
  | _ => s

/-- A write lands in the store: the answers about a project it renames, moves or deletes are over. -/
def landed (s : ProjectHubs κ σ) (k : κ) (b : HubWriting) (store : σ) (ok : Bool) :
    ProjectHubs κ σ :=
  let s := { s with
    store := store
    version := s.version + 1
    writing := Function.update s.writing k none
    answered := s.answered.filter fun a => b.call.retires ≠ some a.id }
  if ok then s.returns b else { s with byID := Function.update s.byID k b.prev }

section

variable (normEmail projectLabel : GoString → GoString) (trimText : GoString → ℕ → GoString)
  (R : ProjectRepo σ)

/-- A process that holds its lock decides. -/
def decide_ (s : ProjectHubs κ σ) (k : κ) (c : HubCall) : ProjectHubs κ σ :=
  match plan normEmail projectLabel trimText (s.byID k) c with
  | .refused => s
  | .found name org id => { s with answered := ⟨name, org, id⟩ :: s.answered }
  | .write next prev w =>
    { s with
      byID := Function.update s.byID k next
      writing := Function.update s.writing k (some ⟨c, w, prev, s.version⟩) }

/-- One step. A process that is opened loads the store, and an id that was drawn before is not drawn
again. -/
def step (s : ProjectHubs κ σ) : HubEvent κ → Option (ProjectHubs κ σ)
  | .open_ k =>
    some { s with
      byID := Function.update s.byID k (R.load s.store)
      token := Function.update s.token k none
      writing := Function.update s.writing k none }
  | .list k r => if (s.writing k).isSome then none else s.refresh R k r
  | .call k r c =>
    if (s.writing k).isSome || c.draws.any (· ∈ s.drawn) then none
    else (s.refresh R k r).map fun s =>
      (s.draw c).decide_ normEmail projectLabel trimText k c
  | .land k landed ok =>
    match s.writing k with
    | none => none
    | some b =>
      match (if landed then R.write s.store b.w else none) with
      | some store => some (s.landed k b store ok)
      | none => some { s with
          byID := Function.update s.byID k b.prev
          writing := Function.update s.writing k none }

/-- A careful step: loads succeed, a project is moved to an org that has no other of its name, no
write lands between a decision and its own, and the store deletes what it is asked for. -/
def Careful (s : ProjectHubs κ σ) : HubEvent κ → Prop
  | .open_ _ => True
  | .list _ r => r ≠ .fails
  | .call k r c => r ≠ .fails ∧ ∀ id org, c = .setOrg id org →
      ∀ s', s.refresh R k r = some s' → ∀ p, (s'.byID k).lookup id = some p →
        ∀ j, j ≠ id → (s'.byID k).named j ≠ some (p.name, org)
  | .land k landed _ => ∀ b, s.writing k = some b →
      (landed = true → b.decided = s.version) ∧ (∀ id, b.w = .delete id → landed = true)

/-- A step of any kind, and a careful one. -/
def Next (s s' : ProjectHubs κ σ) : Prop :=
  ∃ ev, step normEmail projectLabel trimText R s ev = some s'

def CarefulNext (s s' : ProjectHubs κ σ) : Prop :=
  ∃ ev, Careful R s ev ∧ step normEmail projectLabel trimText R s ev = some s'

end

/-! ### What a decision has seen -/

/-- A write that fits the names its decision has seen. What is made is new in its id and in its
name; what is written otherwise is there, and keeps its name or takes one that is free. -/
def Fits (names : GoString → Option (GoString × GoString)) (c : HubCall) : ProjectWrite → Prop
  | .put id p => c.draws = some id ∧ names id = none ∧ ∀ j, names j ≠ some (p.name, p.org)
  | .putMeta id p => (names id).isSome ∧ (names id = some (p.name, p.org) ∨
      c.retires = some id ∧ ∀ j, j ≠ id → names j ≠ some (p.name, p.org))
  | .putPerm id _ _ _ | .putFolder id _ => (names id).isSome
  | .delete id => (names id).isSome ∧ c.retires = some id
  | _ => False

section

variable {normEmail projectLabel : GoString → GoString} {trimText : GoString → ℕ → GoString}
  {t next prev : ProjectTable} {c : HubCall} {w : ProjectWrite}

theorem named_eq {id : GoString} {p : ProjectRecord} (h : t.lookup id = some p) :
    t.named id = some (p.name, p.org) := by
  rw [ProjectTable.named, h]
  rfl

/-- A record that is put back leaves the names as they were. -/
theorem named_putBack {id : GoString} {p : ProjectRecord} (h : t.lookup id = some p)
    (q : ProjectRecord) (j : GoString) :
    ProjectTable.named ((t.insert id q).insert id p) j = t.named j := by
  rw [ProjectTable.named_insert]
  by_cases hj : j = id
  · rw [if_pos hj, hj, named_eq h]
  · rw [if_neg hj]
    exact (ProjectTable.named_insert t id j q).trans (if_neg hj)

theorem putPlan_eq {id : GoString} {p q : ProjectRecord} {w' : ProjectWrite}
    (h : putPlan t id p q w' = .write next prev w) :
    w = w' ∧ prev = (t.insert id q).insert id p := by
  cases h
  exact ⟨rfl, rfl⟩

/-- A project that is found has the name and the org that were asked for. -/
theorem plan_found {name org id : GoString}
    (h : plan normEmail projectLabel trimText t c = .found name org id) :
    t.named id = some (name, org) := by
  cases c with
  | getOrCreate name' org' fresh now =>
    rw [plan] at h
    simp only at h
    split_ifs at h
    split at h
    · rename_i row hrow
      cases h
      have hkey := List.find?_some hrow
      simp only [Bool.and_eq_true, decide_eq_true_eq] at hkey
      have hmem := AList.mem_lookup_iff.mpr (List.mem_of_find?_eq_some hrow)
      rw [named_eq hmem, hkey.1, hkey.2]
    · cases h
  | update id' name' description icon =>
    rw [plan] at h
    simp only at h
    split_ifs at h
    split at h
    · cases h
    · split_ifs at h
      cases h
  | setCreator id' email =>
    rw [plan] at h
    split at h <;> cases h
  | setOrg id' org' =>
    rw [plan] at h
    split at h <;> cases h
  | setPermBy id' email level giver =>
    rw [plan] at h
    split_ifs at h
    split at h
    · cases h
    · split_ifs at h
      cases h
  | setFolder id' rule =>
    rw [plan] at h
    split_ifs at h
    split at h
    · cases h
    · split_ifs at h
      cases h
  | delete id' =>
    rw [plan] at h
    split at h <;> cases h

/-- **What a decision has seen**: its write fits the names of its copy, and a refusal brings the
names back, of all calls but a deletion. -/
theorem plan_fits (h : plan normEmail projectLabel trimText t c = .write next prev w)
    (hfresh : ∀ id, c.draws = some id → t.lookup id = none)
    (horg : ∀ id org, c = .setOrg id org → ∀ p, t.lookup id = some p →
      ∀ j, j ≠ id → t.named j ≠ some (p.name, org)) :
    Fits t.named c w ∧ ((∀ id, w ≠ .delete id) → ∀ j, prev.named j = t.named j) := by
  cases c with
  | getOrCreate name org fresh now =>
    rw [plan] at h
    simp only at h
    split_ifs at h
    split at h
    · cases h
    · rename_i hnone
      cases h
      have hnew := hfresh fresh rfl
      refine ⟨⟨rfl, by rw [ProjectTable.named, hnew]; rfl, fun j hj => ?_⟩, fun _ j => ?_⟩
      · obtain ⟨p, hp, heq⟩ := Option.map_eq_some_iff.mp hj
        have hrow := List.find?_eq_none.mp hnone _ (AList.mem_lookup_iff.mp hp)
        obtain ⟨hname, horg'⟩ := Prod.mk.inj heq
        simp [hname, horg'] at hrow
      · rw [ProjectTable.named, ProjectTable.named]
        by_cases hj : j = fresh
        · rw [hj, AList.lookup_erase, hnew]
        · rw [AList.lookup_erase_ne hj, AList.lookup_insert_ne hj]
  | update id name description icon =>
    rw [plan] at h
    simp only at h
    split_ifs at h
    split at h
    · cases h
    · rename_i p hp
      split_ifs at h with htaken
      have hnamed := named_eq hp
      obtain ⟨rfl, rfl⟩ := putPlan_eq h
      refine ⟨⟨by rw [hnamed]; rfl, ?_⟩, fun _ j => named_putBack hp _ j⟩
      cases name with
      | none => exact .inl hnamed
      | some name =>
        refine .inr ⟨rfl, fun j hj htwice => htaken ?_⟩
        obtain ⟨q, hq, heq⟩ := Option.map_eq_some_iff.mp htwice
        obtain ⟨hname, horg'⟩ := Prod.mk.inj heq
        rw [Option.map_some, Option.any_some, List.any_eq_true]
        refine ⟨⟨j, q⟩, AList.mem_lookup_iff.mp hq, ?_⟩
        simp only [Bool.and_eq_true, decide_eq_true_eq]
        exact ⟨⟨hj, hname⟩, horg'⟩
  | setCreator id email =>
    rw [plan] at h
    split at h
    · cases h
    · rename_i p hp
      have hnamed := named_eq hp
      obtain ⟨rfl, rfl⟩ := putPlan_eq h
      exact ⟨⟨by rw [hnamed]; rfl, .inl hnamed⟩, fun _ j => named_putBack hp _ j⟩
  | setOrg id org =>
    rw [plan] at h
    split at h
    · cases h
    · rename_i p hp
      obtain ⟨rfl, rfl⟩ := putPlan_eq h
      exact ⟨⟨by rw [named_eq hp]; rfl, .inr ⟨rfl, horg id org rfl p hp⟩⟩,
        fun _ j => named_putBack hp _ j⟩
  | setPermBy id email level giver =>
    rw [plan] at h
    split_ifs at h
    split at h
    · cases h
    · rename_i p hp
      split_ifs at h
      obtain ⟨rfl, rfl⟩ := putPlan_eq h
      exact ⟨by rw [Fits, named_eq hp]; rfl, fun _ j => named_putBack hp _ j⟩
  | setFolder id rule =>
    rw [plan] at h
    split_ifs at h
    split at h
    · cases h
    · rename_i p hp
      split_ifs at h
      obtain ⟨rfl, rfl⟩ := putPlan_eq h
      exact ⟨by rw [Fits, named_eq hp]; rfl, fun _ j => named_putBack hp _ j⟩
  | delete id =>
    rw [plan] at h
    split at h
    · cases h
    · rename_i p hp
      cases h
      exact ⟨⟨by rw [named_eq hp]; rfl, rfl⟩, fun hno => absurd rfl (hno id)⟩

end

/-! ### What a careful step keeps -/

/-- What is known of a write on its way while the store is the one its decision has seen. -/
structure WritingFine (R : ProjectRepo σ) (s : ProjectHubs κ σ) (b : HubWriting) : Prop where
  fits : Fits (R.load s.store).named b.call b.w
  prev : (∀ id, b.w ≠ .delete id) → ∀ j, b.prev.named j = (R.load s.store).named j
  new : ∀ id p, b.w = .put id p → id ∉ s.deleted

/-- What is known between careful steps. -/
structure Sound (R : ProjectRepo σ) (s : ProjectHubs κ σ) : Prop where
  unique : ∀ i j o, (R.load s.store).named i = some o → (R.load s.store).named j = some o → i = j
  undrawn : ∀ id, id ∉ s.drawn → R.Blank s.store id
  copy : ∀ k v, s.token k = some v → v ≤ s.version ∧ (v = s.version → s.writing k = none →
    ∀ j, (s.byID k).named j = (R.load s.store).named j)
  writing : ∀ k b, s.writing k = some b → b.decided ≤ s.version ∧
    (∀ v, s.token k = some v → v ≤ b.decided) ∧ (∀ id, b.call.draws = some id → id ∈ s.drawn) ∧
    (b.decided = s.version → WritingFine R s b)
  deleted : ∀ id ∈ s.deleted, R.Blank s.store id ∧ id ∈ s.drawn
  answered : ∀ a ∈ s.answered, (R.load s.store).named a.id = some (a.name, a.org)

section

variable {R : ProjectRepo σ} {s s' : ProjectHubs κ σ} {k : κ}

omit [DecidableEq κ] in
theorem sound_empty : Sound R ({ store := R.empty } : ProjectHubs κ σ) where
  unique i _ _ hi := by
    rw [ProjectTable.named, R.lookup_of_blank (R.blank_empty i)] at hi
    cases hi
  undrawn id _ := R.blank_empty id
  copy _ _ h := nomatch h
  writing _ _ h := nomatch h
  deleted _ h := nomatch h
  answered _ h := nomatch h

theorem named_of_blank {store : σ} {id : GoString} (h : R.Blank store id) :
    (R.load store).named id = none := by
  rw [ProjectTable.named, R.lookup_of_blank h]
  rfl

omit [DecidableEq κ] in
theorem Sound.drawn_of_named (hs : Sound R s) {id : GoString}
    (h : ((R.load s.store).named id).isSome) : id ∈ s.drawn := by
  by_contra hid
  rw [named_of_blank (hs.undrawn id hid)] at h
  cases h

/-- A process that has refreshed has the names of the store. -/
theorem Sound.refresh (hs : Sound R s) (hidle : s.writing k = none) {r : Reread} (hr : r ≠ .fails)
    (h : s.refresh R k r = some s') :
    Sound R s' ∧ (∀ j, (s'.byID k).named j = (R.load s'.store).named j) ∧
      s'.writing = s.writing ∧ s'.drawn = s.drawn ∧ s'.deleted = s.deleted := by
  cases r with
  | fails => exact absurd rfl hr
  | current =>
    rw [ProjectHubs.refresh, Option.ite_none_right_eq_some] at h
    obtain ⟨htoken, heq⟩ := h
    cases heq
    exact ⟨hs, (hs.copy k _ htoken).2 rfl hidle, rfl, rfl, rfl⟩
  | loads records =>
    cases h
    have hload : Function.update s.byID k (R.load s.store) k = R.load s.store :=
      Function.update_self ..
    refine ⟨⟨hs.unique, hs.undrawn, fun k' v hv => ?_, fun k' b hb => ?_, hs.deleted, hs.answered⟩,
      fun j => congrArg (ProjectTable.named · j) hload, rfl, rfl, rfl⟩
    · change Function.update s.token k _ k' = some v at hv
      by_cases hk : k' = k
      · subst hk
        refine ⟨?_, fun _ _ j => congrArg (ProjectTable.named · j) hload⟩
        rw [Function.update_self] at hv
        split_ifs at hv
        · cases hv
          exact le_refl _
        · exact (hs.copy k' v hv).1
      · rw [Function.update_of_ne hk] at hv
        refine ⟨(hs.copy k' v hv).1, fun hversion hwriting j => ?_⟩
        change (Function.update s.byID k _ k').named j = _
        rw [Function.update_of_ne hk]
        exact (hs.copy k' v hv).2 hversion hwriting j
    · have hk : k' ≠ k := by
        rintro rfl
        rw [hidle] at hb
        cases hb
      obtain ⟨hdecided, htoken, hdraws, hfine⟩ := hs.writing k' b hb
      refine ⟨hdecided, fun v hv => htoken v ?_, hdraws, fun hnow => ?_⟩
      · change Function.update s.token k _ k' = some v at hv
        rwa [Function.update_of_ne hk] at hv
      · exact ⟨(hfine hnow).fits, (hfine hnow).prev, (hfine hnow).new⟩

omit [DecidableEq κ] in
/-- An id is drawn. -/
theorem Sound.draw (hs : Sound R s) (c : HubCall) : Sound R (s.draw c) where
  unique := hs.unique
  undrawn id hid := hs.undrawn id fun h => hid (List.mem_append_right _ h)
  copy := hs.copy
  writing k b hb := by
    obtain ⟨hdecided, htoken, hdraws, hfine⟩ := hs.writing k b hb
    exact ⟨hdecided, htoken, fun id hid => List.mem_append_right _ (hdraws id hid),
      fun hnow => ⟨(hfine hnow).fits, (hfine hnow).prev, (hfine hnow).new⟩⟩
  deleted id hid := ⟨(hs.deleted id hid).1, List.mem_append_right _ (hs.deleted id hid).2⟩
  answered := hs.answered

/-- A process that has the names of the store decides. -/
theorem Sound.decide (hs : Sound R s) {normEmail projectLabel : GoString → GoString}
    {trimText : GoString → ℕ → GoString} {c : HubCall}
    (hcopy : ∀ j, (s.byID k).named j = (R.load s.store).named j)
    (hdraws : ∀ id, c.draws = some id →
      id ∈ s.drawn ∧ (s.byID k).lookup id = none ∧ id ∉ s.deleted)
    (horg : ∀ id org, c = .setOrg id org → ∀ p, (s.byID k).lookup id = some p →
      ∀ j, j ≠ id → (s.byID k).named j ≠ some (p.name, org)) :
    Sound R (s.decide_ normEmail projectLabel trimText k c) := by
  have hnames : (s.byID k).named = (R.load s.store).named := funext hcopy
  rw [decide_]
  split
  · exact hs
  · rename_i name org id hplan
    refine ⟨hs.unique, hs.undrawn, hs.copy, fun k' b hb => ?_, hs.deleted, fun a ha => ?_⟩
    · obtain ⟨hdecided, htoken, hdrawn, hfine⟩ := hs.writing k' b hb
      exact ⟨hdecided, htoken, hdrawn,
        fun hnow => ⟨(hfine hnow).fits, (hfine hnow).prev, (hfine hnow).new⟩⟩
    · rcases List.mem_cons.mp ha with rfl | ha
      · exact (hcopy _).symm.trans (plan_found hplan)
      · exact hs.answered a ha
  · rename_i next prev w hplan
    obtain ⟨hfits, hprev⟩ := plan_fits hplan (fun id hid => (hdraws id hid).2.1) horg
    rw [hnames] at hfits hprev
    refine ⟨hs.unique, hs.undrawn, fun k' v hv => ⟨(hs.copy k' v hv).1, fun hversion hwriting => ?_⟩,
      fun k' b hb => ?_, hs.deleted, hs.answered⟩
    · change Function.update s.writing k _ k' = none at hwriting
      by_cases hk : k' = k
      · rw [hk, Function.update_self] at hwriting
        cases hwriting
      · rw [Function.update_of_ne hk] at hwriting
        change ∀ j, (Function.update s.byID k _ k').named j = _
        rw [Function.update_of_ne hk]
        exact (hs.copy k' v hv).2 hversion hwriting
    · change Function.update s.writing k _ k' = some b at hb
      by_cases hk : k' = k
      · rw [hk, Function.update_self] at hb
        cases hb
        refine ⟨le_refl _, fun v hv => (hs.copy k v (hk ▸ hv)).1, fun id hid => (hdraws id hid).1,
          fun _ => ⟨hfits, hprev, fun id p hw => ?_⟩⟩
        cases hw
        exact (hdraws id hfits.1).2.2
      · rw [Function.update_of_ne hk] at hb
        obtain ⟨hdecided, htoken, hdrawn, hfine⟩ := hs.writing k' b hb
        exact ⟨hdecided, htoken, hdrawn,
          fun hnow => ⟨(hfine hnow).fits, (hfine hnow).prev, (hfine hnow).new⟩⟩

omit [DecidableEq κ] in
/-- A write that fits takes no other project's name, and is about an id that was drawn. -/
theorem WritingFine.free {b : HubWriting} (h : WritingFine R s b) (hs : Sound R s) {j : GoString}
    {o : GoString × GoString} (hj : j ≠ b.w.id) (hnamed : (R.load s.store).named j = some o) :
    b.w.named ((R.load s.store).named b.w.id) ≠ some o := by
  have hfits := h.fits
  cases hw : b.w with
  | put id p =>
    rw [hw] at hfits
    intro heq
    cases heq
    exact hfits.2.2 j hnamed
  | putMeta id p =>
    rw [hw] at hfits hj
    intro heq
    cases heq
    rcases hfits.2 with hsame | ⟨-, hfree⟩
    · exact hj (hs.unique _ _ _ hnamed hsame)
    · exact hfree j hj hnamed
  | putPerm id email level giver | putFolder id rule =>
    rw [hw] at hj
    exact fun heq => hj (hs.unique _ _ _ hnamed heq)
  | delete id => exact fun heq => nomatch heq
  | putData id on | dropFolderPerm id pre email | deleteFolder id pre | putAppFolder id g
  | dropAppFolder id pre app =>
    rw [hw] at hfits
    exact hfits.elim

omit [DecidableEq κ] in
theorem WritingFine.drawn {b : HubWriting} (h : WritingFine R s b) (hs : Sound R s)
    (hdraws : ∀ id, b.call.draws = some id → id ∈ s.drawn) : b.w.id ∈ s.drawn := by
  have hfits := h.fits
  cases hw : b.w with
  | put id p =>
    rw [hw] at hfits
    exact hdraws id hfits.1
  | putMeta id p =>
    rw [hw] at hfits
    exact hs.drawn_of_named hfits.1
  | putPerm id email level giver | putFolder id rule =>
    rw [hw] at hfits
    exact hs.drawn_of_named hfits
  | delete id =>
    rw [hw] at hfits
    exact hs.drawn_of_named hfits.1
  | putData id on | dropFolderPerm id pre email | deleteFolder id pre | putAppFolder id g
  | dropAppFolder id pre app =>
    rw [hw] at hfits
    exact hfits.elim

omit [DecidableEq κ] in
/-- What was deleted is not written again. -/
theorem WritingFine.not_deleted {b : HubWriting} (h : WritingFine R s b) (hs : Sound R s)
    {id : GoString} (hid : id ∈ s.deleted) : id ≠ b.w.id := by
  have hblank := named_of_blank (hs.deleted id hid).1
  have hfits := h.fits
  rintro rfl
  cases hw : b.w with
  | put id p => exact h.new id p hw (by rwa [hw] at hid)
  | putMeta id p =>
    rw [hw] at hfits hblank
    have hnamed := hfits.1
    rw [show (R.load s.store).named id = none from hblank] at hnamed
    cases hnamed
  | putPerm id email level giver | putFolder id rule =>
    rw [hw] at hfits hblank
    have hnamed : ((R.load s.store).named id).isSome := hfits
    rw [show (R.load s.store).named id = none from hblank] at hnamed
    cases hnamed
  | delete id =>
    rw [hw] at hfits hblank
    have hnamed := hfits.1
    rw [show (R.load s.store).named id = none from hblank] at hnamed
    cases hnamed
  | putData id on | dropFolderPerm id pre email | deleteFolder id pre | putAppFolder id g
  | dropAppFolder id pre app =>
    rw [hw] at hfits
    exact hfits.elim

omit [DecidableEq κ] in
/-- A call that does not rename, move or delete leaves a name that was answered. -/
theorem WritingFine.keeps {b : HubWriting} (h : WritingFine R s b) {o : GoString × GoString}
    (hnamed : (R.load s.store).named b.w.id = some o) (hretires : b.call.retires ≠ some b.w.id) :
    b.w.named ((R.load s.store).named b.w.id) = some o := by
  have hfits := h.fits
  cases hw : b.w with
  | put id p =>
    rw [hw] at hfits hnamed
    cases hfits.2.1.symm.trans hnamed
  | putMeta id p =>
    rw [hw] at hfits hnamed hretires
    rcases hfits.2 with hsame | ⟨hretired, -⟩
    · exact hsame.symm.trans hnamed
    · exact absurd hretired hretires
  | putPerm id email level giver | putFolder id rule =>
    rw [hw] at hnamed
    exact hnamed
  | delete id =>
    rw [hw] at hfits hretires
    exact absurd hfits.2 hretires
  | putData id on | dropFolderPerm id pre email | deleteFolder id pre | putAppFolder id g
  | dropAppFolder id pre app =>
    rw [hw] at hfits
    exact hfits.elim

/-- **A write lands in the store its decision has seen.** -/
theorem Sound.landed (hs : Sound R s) {b : HubWriting} (hb : s.writing k = some b)
    (hnow : b.decided = s.version) {store : σ} (hwrite : R.write s.store b.w = some store)
    (ok : Bool) : Sound R (s.landed k b store ok) := by
  obtain ⟨-, -, hdraws, hfine⟩ := hs.writing k b hb
  have hfine := hfine hnow
  have hself : (R.load store).named b.w.id = b.w.named ((R.load s.store).named b.w.id) := by
    rw [R.named_write hwrite, if_pos rfl]
  have hother : ∀ j, j ≠ b.w.id → (R.load store).named j = (R.load s.store).named j := by
    intro j hj
    rw [R.named_write hwrite, if_neg hj]
  have hunique : ∀ i j o, (R.load store).named i = some o → (R.load store).named j = some o →
      i = j := by
    intro i j o hi hj
    by_cases hi' : i = b.w.id <;> by_cases hj' : j = b.w.id
    · exact hi'.trans hj'.symm
    · rw [hi', hself] at hi
      exact absurd hi (hfine.free hs hj' ((hother j hj').symm.trans hj))
    · rw [hj', hself] at hj
      exact absurd hj (hfine.free hs hi' ((hother i hi').symm.trans hi))
    · exact hs.unique i j o ((hother i hi').symm.trans hi) ((hother j hj').symm.trans hj)
  have hundrawn : ∀ id, id ∉ s.drawn → R.Blank store id := fun id hid =>
    R.blank_write hwrite (fun heq => hid (heq ▸ hfine.drawn hs hdraws)) (hs.undrawn id hid)
  have hcopy : ∀ k' v, s.token k' = some v → v ≤ s.version + 1 ∧ (v = s.version + 1 → False) := by
    intro k' v hv
    have hle := (hs.copy k' v hv).1
    exact ⟨Nat.le_succ_of_le hle, fun heq => Nat.not_succ_le_self _ (heq ▸ hle)⟩
  have hwriting : ∀ {t : ProjectHubs κ σ}, t.token = s.token → t.drawn = s.drawn →
      t.version = s.version + 1 → ∀ k' b',
      Function.update s.writing k none k' = some b' → b'.decided ≤ t.version ∧
        (∀ v, t.token k' = some v → v ≤ b'.decided) ∧
        (∀ id, b'.call.draws = some id → id ∈ t.drawn) ∧
        (b'.decided = t.version → WritingFine R t b') := by
    intro t htoken hdrawn hversion k' b' hb'
    have hk : k' ≠ k := by
      rintro rfl
      rw [Function.update_self] at hb'
      cases hb'
    rw [Function.update_of_ne hk] at hb'
    obtain ⟨hdecided, htokens, hdraws', -⟩ := hs.writing k' b' hb'
    rw [htoken, hdrawn, hversion]
    exact ⟨Nat.le_succ_of_le hdecided, htokens, hdraws',
      fun heq => absurd (heq ▸ hdecided) (Nat.not_succ_le_self _)⟩
  have hdeleted : ∀ id ∈ s.deleted, R.Blank store id ∧ id ∈ s.drawn := fun id hid =>
    ⟨R.blank_write hwrite (hfine.not_deleted hs hid) (hs.deleted id hid).1, (hs.deleted id hid).2⟩
  have hanswered : ∀ a ∈ s.answered.filter fun a => b.call.retires ≠ some a.id,
      (R.load store).named a.id = some (a.name, a.org) := by
    intro a ha
    obtain ⟨ha, hretires⟩ := List.mem_filter.mp ha
    have hnamed := hs.answered a ha
    by_cases hid : a.id = b.w.id
    · rw [hid] at hnamed hretires ⊢
      rw [hself]
      exact hfine.keeps hnamed (by simpa using hretires)
    · rw [hother _ hid, hnamed]
  rw [ProjectHubs.landed]
  cases ok with
  | false =>
    exact ⟨hunique, hundrawn, fun k' v hv => ⟨(hcopy k' v hv).1, fun heq =>
      ((hcopy k' v hv).2 heq).elim⟩, hwriting rfl rfl rfl, hdeleted, hanswered⟩
  | true =>
    simp only [↓reduceIte]
    rw [returns]
    split
    · rename_i id p hw
      change b.w = _ at hw
      refine ⟨hunique, hundrawn, fun k' v hv => ⟨(hcopy k' v hv).1, fun heq =>
        ((hcopy k' v hv).2 heq).elim⟩, hwriting rfl rfl rfl, hdeleted, fun a ha => ?_⟩
      rcases List.mem_cons.mp ha with rfl | ha
      · rw [hw] at hself
        exact hself
      · exact hanswered a ha
    · rename_i id hw
      change b.w = _ at hw
      refine ⟨hunique, hundrawn, fun k' v hv => ⟨(hcopy k' v hv).1, fun heq =>
        ((hcopy k' v hv).2 heq).elim⟩, hwriting rfl rfl rfl, fun id' hid' => ?_, hanswered⟩
      rcases List.mem_cons.mp hid' with rfl | hid'
      · obtain ⟨store', hstore', hblank⟩ := (R.blank_delete :
          ∃ store, R.write s.store (.delete id') = some store ∧ R.Blank store id')
        rw [hw, hstore'] at hwrite
        cases hwrite
        have hdrawn := hfine.drawn hs hdraws
        rw [hw] at hdrawn
        exact ⟨hblank, hdrawn⟩
      · exact hdeleted id' hid'
    · exact ⟨hunique, hundrawn, fun k' v hv => ⟨(hcopy k' v hv).1, fun heq =>
        ((hcopy k' v hv).2 heq).elim⟩, hwriting rfl rfl rfl, hdeleted, hanswered⟩

/-- A write that does not land: the process has the names it had. -/
theorem Sound.refuses (hs : Sound R s) {b : HubWriting} (hb : s.writing k = some b)
    (hdelete : ∀ id, b.w ≠ .delete id) :
    Sound R { s with
      byID := Function.update s.byID k b.prev
      writing := Function.update s.writing k none } := by
  obtain ⟨hdecided, htoken, -, hfine⟩ := hs.writing k b hb
  refine ⟨hs.unique, hs.undrawn, fun k' v hv => ⟨(hs.copy k' v hv).1, fun hversion hwriting => ?_⟩,
    fun k' b' hb' => ?_, hs.deleted, hs.answered⟩
  · change ∀ j, (Function.update s.byID k _ k').named j = _
    by_cases hk : k' = k
    · subst hk
      have hnow : b.decided = s.version := le_antisymm hdecided (hversion ▸ htoken v hv)
      rw [Function.update_self]
      exact (hfine hnow).prev hdelete
    · rw [Function.update_of_ne hk]
      change Function.update s.writing k none k' = none at hwriting
      rw [Function.update_of_ne hk] at hwriting
      exact (hs.copy k' v hv).2 hversion hwriting
  · change Function.update s.writing k none k' = some b' at hb'
    have hk : k' ≠ k := by
      rintro rfl
      rw [Function.update_self] at hb'
      cases hb'
    rw [Function.update_of_ne hk] at hb'
    obtain ⟨hdecided', htoken', hdraws', hfine'⟩ := hs.writing k' b' hb'
    exact ⟨hdecided', htoken', hdraws',
      fun hnow => ⟨(hfine' hnow).fits, (hfine' hnow).prev, (hfine' hnow).new⟩⟩

/-- A process is opened. -/
theorem Sound.open_ (hs : Sound R s) (k : κ) : Sound R { s with
    byID := Function.update s.byID k (R.load s.store)
    token := Function.update s.token k none
    writing := Function.update s.writing k none } := by
  refine ⟨hs.unique, hs.undrawn, fun k' v hv => ?_, fun k' b hb => ?_, hs.deleted, hs.answered⟩
  · change Function.update s.token k none k' = some v at hv
    have hk : k' ≠ k := by
      rintro rfl
      rw [Function.update_self] at hv
      cases hv
    rw [Function.update_of_ne hk] at hv
    refine ⟨(hs.copy k' v hv).1, fun hversion hwriting => ?_⟩
    change Function.update s.writing k none k' = none at hwriting
    rw [Function.update_of_ne hk] at hwriting
    change ∀ j, (Function.update s.byID k _ k').named j = _
    rw [Function.update_of_ne hk]
    exact (hs.copy k' v hv).2 hversion hwriting
  · change Function.update s.writing k none k' = some b at hb
    have hk : k' ≠ k := by
      rintro rfl
      rw [Function.update_self] at hb
      cases hb
    rw [Function.update_of_ne hk] at hb
    obtain ⟨hdecided, htoken, hdraws, hfine⟩ := hs.writing k' b hb
    refine ⟨hdecided, fun v hv => htoken v ?_, hdraws,
      fun hnow => ⟨(hfine hnow).fits, (hfine hnow).prev, (hfine hnow).new⟩⟩
    change Function.update s.token k none k' = some v at hv
    rwa [Function.update_of_ne hk] at hv

/-- **What a careful step keeps.** -/
theorem Sound.step (hs : Sound R s) {normEmail projectLabel : GoString → GoString}
    {trimText : GoString → ℕ → GoString}
    (h : CarefulNext normEmail projectLabel trimText R s s') : Sound R s' := by
  obtain ⟨ev, hcareful, hstep⟩ := h
  cases ev with
  | open_ k =>
    cases hstep
    exact hs.open_ k
  | list k r =>
    rw [ProjectHubs.step, Option.ite_none_left_eq_some] at hstep
    obtain ⟨hidle, hstep⟩ := hstep
    exact (hs.refresh (by simpa using hidle) hcareful hstep).1
  | call k r c =>
    rw [ProjectHubs.step, Option.ite_none_left_eq_some] at hstep
    obtain ⟨hidle, hstep⟩ := hstep
    rw [Bool.or_eq_true, not_or] at hidle
    obtain ⟨s₁, hrefresh, rfl⟩ := Option.map_eq_some_iff.mp hstep
    obtain ⟨hs₁, hcopy, -, hdrawn, hdeleted⟩ :=
      hs.refresh (by simpa using hidle.1) hcareful.1 hrefresh
    refine (hs₁.draw c).decide hcopy (fun id hid => ?_) fun id org hc p hp =>
      hcareful.2 id org hc s₁ hrefresh p hp
    have hnew : id ∉ s₁.drawn := by
      have := hidle.2
      rw [hid] at this
      simpa [hdrawn] using this
    refine ⟨List.mem_append_left _ (by rw [hid]; exact List.mem_cons_self), ?_, fun hmem =>
      hnew (hs₁.deleted id hmem).2⟩
    have hnone := (hcopy id).trans (named_of_blank (hs₁.undrawn id hnew))
    exact Option.map_eq_none_iff.mp hnone
  | land k landed ok =>
    rw [ProjectHubs.step] at hstep
    split at hstep
    · cases hstep
    · rename_i b hb
      obtain ⟨hnow, hdelete⟩ := hcareful b hb
      split at hstep
      · rename_i store hwrite
        rw [Option.ite_none_right_eq_some] at hwrite
        cases hstep
        exact hs.landed hb (hnow hwrite.1) hwrite.2 ok
      · rename_i hwrite
        cases hstep
        refine hs.refuses hb fun id hw => ?_
        obtain ⟨store, hstore, -⟩ := (R.blank_delete :
          ∃ store, R.write s.store (.delete id) = some store ∧ R.Blank store id)
        rw [if_pos (hdelete id hw), hw, hstore] at hwrite
        cases hwrite

end

end ProjectHubs

/-! ### Identity -/

open ProjectHubs

/-- **A project's identity holds across processes**: in a run in which loads succeed, a write finds
the store its decision has seen, the store deletes what it is asked for, and a project is moved to
an org without another of its name, at most one stored project has a given name and org; the answers
of `GetOrCreate` about projects that were not renamed, moved or deleted since are of stored projects
of that name, one for each; and of what was deleted no row of any kind is stored, and no process
that refreshes lists it. -/
theorem project_identity {κ σ : Type} [DecidableEq κ] {normEmail projectLabel : GoString → GoString}
    {trimText : GoString → ℕ → GoString} {R : ProjectRepo σ} {s : ProjectHubs κ σ}
    (h : Relation.ReflTransGen (CarefulNext normEmail projectLabel trimText R)
      { store := R.empty } s) :
    (∀ i j o, (R.load s.store).named i = some o → (R.load s.store).named j = some o → i = j) ∧
      (∀ a ∈ s.answered, (R.load s.store).named a.id = some (a.name, a.org) ∧
        ∀ b ∈ s.answered, (a.name, a.org) = (b.name, b.org) → a.id = b.id) ∧
      ∀ id ∈ s.deleted, R.Blank s.store id ∧ ∀ k r s', r ≠ .fails →
        step normEmail projectLabel trimText R s (.list k r) = some s' →
          (s'.byID k).lookup id = none := by
  have hs : Sound R s := Runs.invariant h (fun _ _ hs => hs.step) sound_empty
  refine ⟨hs.unique, fun a ha => ⟨hs.answered a ha, fun b hb heq => ?_⟩, fun id hid =>
    ⟨(hs.deleted id hid).1, fun k r s' hr hstep => ?_⟩⟩
  · exact hs.unique _ _ _ (hs.answered a ha) (heq ▸ hs.answered b hb)
  · rw [step, Option.ite_none_left_eq_some] at hstep
    obtain ⟨hidle, hstep⟩ := hstep
    obtain ⟨hs', hcopy, -, -, hdeleted⟩ := hs.refresh (by simpa using hidle) hr hstep
    have hnone := (hcopy id).trans (named_of_blank (hs'.deleted id (hdeleted ▸ hid)).1)
    exact Option.map_eq_none_iff.mp hnone

/-- Two processes are asked for a project of one name, which no text is changed on the way. -/
def askWiki (fresh : GoString) : HubCall := .getOrCreate (ascii "wiki") [] fresh {}

/-- Steps from an empty store. -/
def hubRun {σ : Type} (R : ProjectRepo σ) (evs : List (HubEvent Bool)) :
    Option (ProjectHubs Bool σ) :=
  evs.foldlM (step id id (fun name _ => name) R) { store := R.empty }

/-- A project is made by one process and found by the other. -/
theorem wiki_found : ∃ s : ProjectHubs Bool SqlProjects,
    s.answered = [⟨ascii "wiki", [], ascii "a"⟩, ⟨ascii "wiki", [], ascii "a"⟩] ∧
      ∀ i j o, (sqlRepo.load s.store).named i = some o → (sqlRepo.load s.store).named j = some o →
        i = j := by
  have hrun : ∃ s : ProjectHubs Bool SqlProjects,
      Relation.ReflTransGen (CarefulNext id id (fun name _ => name) sqlRepo)
        { store := sqlRepo.empty } s ∧
      s.answered = [⟨ascii "wiki", [], ascii "a"⟩, ⟨ascii "wiki", [], ascii "a"⟩] :=
    ⟨_, .head ⟨.call true (.loads true) (askWiki (ascii "a")), ⟨by simp, fun _ _ h => nomatch h⟩, rfl⟩
        <| .head ⟨.land true true true, by
            rintro b ⟨⟩
            exact ⟨fun _ => rfl, fun _ h => nomatch h⟩, rfl⟩
        <| .single ⟨.call false (.loads true) (askWiki (ascii "b")),
            ⟨by simp, fun _ _ h => nomatch h⟩, rfl⟩, rfl⟩
  obtain ⟨s, hrun, hanswered⟩ := hrun
  exact ⟨s, hanswered, (project_identity hrun).1⟩

/-- Two processes decide before either writes. -/
def bothAsk : List (HubEvent Bool) :=
  [.call true (.loads true) (askWiki (ascii "a")), .call false (.loads true) (askWiki (ascii "b")),
    .land true true true, .land false true true]

theorem bothAsk_possible : (hubRun fileRepo bothAsk).isSome = true := by decide

/-- Two processes make a project of one name. -/
theorem name_taken_twice : ¬ ∀ s : ProjectHubs Bool ProjectTable,
    Relation.ReflTransGen (Next id id (fun name _ => name) fileRepo) { store := fileRepo.empty } s →
    ∀ i j o, (fileRepo.load s.store).named i = some o →
      (fileRepo.load s.store).named j = some o → i = j := by
  intro h
  have hrun : Relation.ReflTransGen (Next id id (fun name _ => name) fileRepo)
      { store := fileRepo.empty } ((hubRun fileRepo bothAsk).get bothAsk_possible) :=
    Runs.of_events (fun _ ev _ hev => ⟨ev, hev⟩) (Runs.possible bothAsk_possible)
  have hname : ∀ id ∈ [ascii "a", ascii "b"], (fileRepo.load
      ((hubRun fileRepo bothAsk).get bothAsk_possible).store).named id =
        some (ascii "wiki", []) := by decide
  have heq := h _ hrun (ascii "a") (ascii "b") _ (hname _ (by simp)) (hname _ (by simp))
  revert heq
  decide

end Beardrive
