import Beardrive.Lib.GoTime
import Beardrive.Webapp.AppGrants
import Mathlib.Data.List.AList
import Mathlib.Data.List.Nodup

/-!
# The registry of projects

One hub process keeps the projects in memory and writes every change to its store. A change of a
project's own fields, of one grant, of one folder rule or of one app's grant on a folder is a write
of its own, so that it carries nothing else with it. Each of them puts the new record into memory
first and the old one back where the store refuses. `Delete` alone does not put back what it took
out, and `dropFolderGrants` writes once for every rule that names the account.

The rules of a project are unique by their prefixes and the grants of apps by prefix and app. The
store keeps both in an order of its own: an app's grant that is written again moves to the end.

## Main definitions

* `ProjectRecord`, `ProjectTable` — a project, and the projects by id
* `ProjectDB` — what is in memory and what the store returns
* `ProjectCall`, `ProjectDB.call` — the mutators
* `ProjectRecord.Same` — two records up to the order of the grants of apps

## Main results

* `ProjectDB.Sound.call` — a call that deletes nothing in vain keeps memory and store the same
* `ProjectDB.call_unwritten` — a call that failed at its first write changed nothing
-/

namespace Beardrive

/-! ### Records -/

/-- Levels, or givers, by account. -/
abbrev GrantMap := AList fun _ : GoString => GoString

/-- `FolderRule`, as it is stored. -/
structure FolderRecord where
  pre : GoString
  default : GoString := []
  perms : GrantMap := ∅
  grantedBy : GrantMap := ∅

/-- `AppFolderGrant`, as it is stored. -/
structure AppFolderRecord where
  pre : GoString
  app : GoString
  level : GoString
  giver : GoString := []
  deriving DecidableEq, Repr

/-- `Project`. -/
structure ProjectRecord where
  name : GoString := []
  org : GoString := []
  created : Time := {}
  description : GoString := []
  icon : GoString := []
  creator : GoString := []
  template : GoString := []
  default : GoString := []
  perms : GrantMap := ∅
  grantedBy : GrantMap := ∅
  appFolders : List AppFolderRecord := []
  folders : List FolderRecord := []
  data : Bool := false

/-- The projects by id. -/
abbrev ProjectTable := AList fun _ : GoString => ProjectRecord

def permNone : GoString := ascii "none"

def permAdmin : GoString := ascii "admin"

/-- `validLevel`. -/
def validLevel (l : GoString) : Bool :=
  l = permNone || l = ascii "read" || l = ascii "write" || l = permAdmin

/-- `adminCount`. -/
def adminCount (p : ProjectRecord) : ℕ :=
  (p.perms.entries.filter (·.2 = permAdmin)).length

/-- `setGranter`: an empty giver is forgotten. -/
def setGranter (m : GrantMap) (email giver : GoString) : GrantMap :=
  if giver = [] then m.erase email else m.insert email giver

/-- `maxFolderRules` and `maxAppFolders`. -/
def maxFolderRules : ℕ := 64

def maxAppFolders : ℕ := 256

/-- A grant of an app on a folder. -/
def AppFolderRecord.at (g : AppFolderRecord) (pre app : GoString) : Bool :=
  g.pre = pre && g.app = app

/-- A rule without the grant of an account. -/
def FolderRecord.dropGrant (f : FolderRecord) (e : GoString) : FolderRecord :=
  { f with perms := f.perms.erase e, grantedBy := f.grantedBy.erase e }

/-! ### What the store does -/

/-- The writes that the store accepts or refuses. -/
inductive ProjectPut where
  | put (id : GoString)
  | delete (id : GoString)
  | putMeta (id : GoString)
  | putPerm (id email : GoString)
  | putFolder (id pre : GoString)
  | deleteFolder (id pre : GoString)
  | dropFolderPerm (id pre email : GoString)
  | putAppFolder (id pre app : GoString)
  | dropAppFolder (id pre app : GoString)
  | putData (id : GoString)
  deriving DecidableEq, Repr

namespace ProjectTable

/-- `editProject`: a record is changed as it stands in the store. -/
def edit (t : ProjectTable) (id : GoString) (f : ProjectRecord → ProjectRecord) : ProjectTable :=
  match t.lookup id with
  | none => t
  | some p => t.insert id (f p)

/-- `PutMeta`: grants, rules and the data setting stay as they are in the store. -/
def putMeta (t : ProjectTable) (id : GoString) (p : ProjectRecord) : ProjectTable :=
  let disk := (t.lookup id).getD {}
  t.insert id { p with
    perms := disk.perms, grantedBy := disk.grantedBy, folders := disk.folders,
    appFolders := disk.appFolders, data := disk.data }

/-- `PutPerm`: an empty level removes the grant. -/
def putPerm (t : ProjectTable) (id email level giver : GoString) : ProjectTable :=
  edit t id fun p => { p with
    perms := if level = [] then p.perms.erase email else p.perms.insert email level
    grantedBy := setGranter p.grantedBy email (if level = [] then [] else giver) }

/-- A rule takes the place of the one at its prefix, or is added. -/
def setRule (folders : List FolderRecord) (rule : FolderRecord) : List FolderRecord :=
  match folders.findIdx? (·.pre = rule.pre) with
  | some i => folders.set i rule
  | none => folders ++ [rule]

/-- `PutFolder`. -/
def putFolder (t : ProjectTable) (id : GoString) (rule : FolderRecord) : ProjectTable :=
  edit t id fun p => { p with folders := setRule p.folders rule }

/-- `DeleteFolder`. -/
def deleteFolder (t : ProjectTable) (id pre : GoString) : ProjectTable :=
  edit t id fun p => { p with folders := p.folders.filter (·.pre ≠ pre) }

/-- `DropFolderPerm`. -/
def dropFolderPerm (t : ProjectTable) (id pre email : GoString) : ProjectTable :=
  edit t id fun p => { p with
    folders := p.folders.map fun f => if f.pre = pre then f.dropGrant email else f }

/-- `PutAppFolder`: the grant is written at the end. -/
def putAppFolder (t : ProjectTable) (id : GoString) (g : AppFolderRecord) : ProjectTable :=
  edit t id fun p => { p with appFolders := p.appFolders.filter (!·.at g.pre g.app) ++ [g] }

/-- `DropAppFolder`. -/
def dropAppFolder (t : ProjectTable) (id pre app : GoString) : ProjectTable :=
  edit t id fun p => { p with appFolders := p.appFolders.filter (!·.at pre app) }

/-- `PutData`. -/
def putData (t : ProjectTable) (id : GoString) (on : Bool) : ProjectTable :=
  edit t id fun p => { p with data := on }

end ProjectTable

/-! ### The registry -/

/-- `ProjectDB`: what is in memory, and what `Load` would return. -/
structure ProjectDB where
  memory : ProjectTable := ∅
  store : ProjectTable := ∅

/-- What a call meets: the writes the store accepts, whether it writes single rows, whether it has
moved since the registry was read, the time, and the next id that is drawn at random. -/
structure ProjectEnv where
  accepts : ProjectPut → Bool := fun _ => true
  rowScoped : Bool := true
  rereads : Bool := false
  now : Time := {}
  fresh : GoString := []

/-- How a call ends: it is done, it is refused, or the store has not taken a write. -/
inductive Outcome where
  | done
  | refused
  | unwritten
  deriving DecidableEq, Repr

namespace ProjectDB

/-- `refresh`. -/
def refresh (db : ProjectDB) (rereads : Bool) : ProjectDB :=
  if rereads then { db with memory := db.store } else db

/-- What `put`, `putPerm`, `putFolder`, `putAppFolder` and `SetData` have in common: the new record
goes into memory, and the store takes one row, or the record where it cannot write rows. -/
def putRecord (env : ProjectEnv) (db : ProjectDB) (id : GoString) (prev next : ProjectRecord)
    (put : ProjectPut) (row : ProjectTable → ProjectTable) : Outcome × ProjectDB :=
  let memory := db.memory.insert id next
  if env.accepts put then
    (.done, ⟨memory, if env.rowScoped then row db.store else db.store.insert id next⟩)
  else (.unwritten, { db with memory := memory.insert id prev })

/-- `put`. -/
def put (env : ProjectEnv) (db : ProjectDB) (id : GoString) (prev p : ProjectRecord) :
    Outcome × ProjectDB :=
  db.putRecord env id prev p (.putMeta id) (·.putMeta id p)

/-- `putPerm`. -/
def putPerm (env : ProjectEnv) (db : ProjectDB) (id : GoString) (prev next : ProjectRecord)
    (email level : GoString) : Outcome × ProjectDB :=
  db.putRecord env id prev next (.putPerm id email)
    (·.putPerm id email level ((next.grantedBy.lookup email).getD []))

/-- `putFolder`, of a rule that is written. -/
def putFolder (env : ProjectEnv) (db : ProjectDB) (id : GoString) (prev next : ProjectRecord)
    (rule : FolderRecord) : Outcome × ProjectDB :=
  db.putRecord env id prev next (.putFolder id rule.pre) (·.putFolder id rule)

/-- `putFolder`, of a rule that is removed. -/
def removeFolder (env : ProjectEnv) (db : ProjectDB) (id : GoString) (prev next : ProjectRecord)
    (pre : GoString) : Outcome × ProjectDB :=
  db.putRecord env id prev next (.deleteFolder id pre) (·.deleteFolder id pre)

/-- The loop of `dropFolderGrants`. `p` is the record as the rules before have left it. -/
def dropGrants (env : ProjectEnv) (id e : GoString) :
    ProjectDB → ProjectRecord → List (FolderRecord × ℕ) → Outcome × ProjectDB
  | db, _, [] => (.done, db)
  | db, p, (rule, i) :: rules =>
    if (rule.perms.lookup e).isNone then dropGrants env id e db p rules
    else
      let next := { p with folders := p.folders.modify i (·.dropGrant e) }
      match db.putRecord env id p next (.dropFolderPerm id rule.pre e)
        (·.dropFolderPerm id rule.pre e) with
      | (.done, db) => dropGrants env id e db next rules
      | answer => answer

/-- `Delete`: what the store refuses to delete is not put back. -/
def delete (env : ProjectEnv) (db : ProjectDB) (id : GoString) : Outcome × ProjectDB :=
  match db.memory.lookup id with
  | none => (.refused, db)
  | some _ =>
    let memory := db.memory.erase id
    if env.accepts (.delete id) then (.done, ⟨memory, db.store.erase id⟩)
    else (.unwritten, { db with memory })

/-- `GetOrCreate`, of a name in its stored form. -/
def getOrCreate (env : ProjectEnv) (db : ProjectDB) (name org : GoString) : Outcome × ProjectDB :=
  if name = [] then (.refused, db)
  else if db.memory.entries.any fun row => row.2.name = name && row.2.org = org then (.done, db)
  else
    let p : ProjectRecord := { name, org, created := env.now }
    let memory := db.memory.insert env.fresh p
    if env.accepts (.put env.fresh) then (.done, ⟨memory, db.store.insert env.fresh p⟩)
    else (.unwritten, { db with memory := memory.erase env.fresh })

/-- `SetCreator`, `SetTemplate`, `SetDefault` and `SetOrg`: one field of a project is set. -/
def setField (env : ProjectEnv) (db : ProjectDB) (id : GoString)
    (f : ProjectRecord → ProjectRecord) : Outcome × ProjectDB :=
  match db.memory.lookup id with
  | none => (.refused, db)
  | some p => db.put env id p (f p)

/-- `SetData`. -/
def setData (env : ProjectEnv) (db : ProjectDB) (id : GoString) (on : Bool) :
    Outcome × ProjectDB :=
  match db.memory.lookup id with
  | none => (.refused, db)
  | some p => db.putRecord env id p { p with data := on } (.putData id) (·.putData id on)

/-- `SetFolder`. -/
def setFolder (env : ProjectEnv) (db : ProjectDB) (id : GoString) (rule : FolderRecord) :
    Outcome × ProjectDB :=
  if rule.pre = [] || !hasSuffix rule.pre [slash] then (.refused, db)
  else if rule.default ≠ [] && (!validLevel rule.default || rule.default = permAdmin) then
    (.refused, db)
  else if rule.perms.entries.any fun row =>
      row.1 = [] || !validLevel row.2 || row.2 = permAdmin then (.refused, db)
  else match db.memory.lookup id with
    | none => (.refused, db)
    | some p =>
      if !p.folders.any (·.pre = rule.pre) && maxFolderRules ≤ p.folders.length then (.refused, db)
      else db.putFolder env id p { p with folders := ProjectTable.setRule p.folders rule } rule

/-- `ClearFolder`. -/
def clearFolder (env : ProjectEnv) (db : ProjectDB) (id pre : GoString) : Outcome × ProjectDB :=
  match db.memory.lookup id with
  | none => (.refused, db)
  | some p =>
    if !p.folders.any (·.pre = pre) then (.refused, db)
    else db.removeFolder env id p { p with folders := p.folders.filter (·.pre ≠ pre) } pre

/-- `SetAppFolder`: in memory, a grant takes the place of the one it replaces. -/
def setAppFolder (env : ProjectEnv) (db : ProjectDB) (id : GoString) (g : AppFolderRecord) :
    Outcome × ProjectDB :=
  if !isAppPrincipal g.app || !validLevel g.level || g.level = permAdmin then (.refused, db)
  else match db.memory.lookup id with
    | none => (.refused, db)
    | some p =>
      match p.appFolders.findIdx? (·.at g.pre g.app) with
      | some i => db.putRecord env id p { p with appFolders := p.appFolders.set i g }
          (.putAppFolder id g.pre g.app) (·.putAppFolder id g)
      | none =>
        if maxAppFolders ≤ p.appFolders.length then (.refused, db)
        else db.putRecord env id p { p with appFolders := p.appFolders ++ [g] }
          (.putAppFolder id g.pre g.app) (·.putAppFolder id g)

/-- `DropAppFolder`. -/
def dropAppFolder (env : ProjectEnv) (db : ProjectDB) (id pre app : GoString) :
    Outcome × ProjectDB :=
  match db.memory.lookup id with
  | none => (.refused, db)
  | some p =>
    let kept := p.appFolders.filter (!·.at pre app)
    if kept.length = p.appFolders.length then (.refused, db)
    else db.putRecord env id p { p with appFolders := kept } (.dropAppFolder id pre app)
      (·.dropAppFolder id pre app)

section

variable (normEmail projectLabel : GoString → GoString) (trimText : GoString → ℕ → GoString)

/-- `SetPermBy`: the last admin stays one. -/
def setPermBy (env : ProjectEnv) (db : ProjectDB) (id email level giver : GoString) :
    Outcome × ProjectDB :=
  let e := normEmail email
  if !validLevel level || e = [] then (.refused, db)
  else match db.memory.lookup id with
    | none => (.refused, db)
    | some p =>
      if level ≠ permAdmin && p.perms.lookup e = some permAdmin && adminCount p ≤ 1 then
        (.refused, db)
      else
        let next := { p with
          perms := p.perms.insert e level, grantedBy := setGranter p.grantedBy e giver }
        db.putPerm env id p next e level

/-- A project without the grant of an account. -/
def withoutGrant (p : ProjectRecord) (e : GoString) : ProjectRecord :=
  { p with perms := p.perms.erase e, grantedBy := p.grantedBy.erase e }

/-- `ClearPerm`. -/
def clearPerm (env : ProjectEnv) (db : ProjectDB) (id email : GoString) : Outcome × ProjectDB :=
  let e := normEmail email
  match db.memory.lookup id with
  | none => (.refused, db)
  | some p =>
    if (p.perms.lookup e).isNone || (p.perms.lookup e = some permAdmin && adminCount p ≤ 1) then
      (.refused, db)
    else db.putPerm env id p (withoutGrant p e) e []

/-- `dropPerm`. -/
def dropPerm (env : ProjectEnv) (db : ProjectDB) (id email : GoString) : Outcome × ProjectDB :=
  let e := normEmail email
  match db.memory.lookup id with
  | none => (.refused, db)
  | some p =>
    if (p.perms.lookup e).isNone then (.done, db)
    else db.putPerm env id p (withoutGrant p e) e []

/-- `dropFolderGrants`. -/
def dropFolderGrants (env : ProjectEnv) (db : ProjectDB) (id email : GoString) :
    Outcome × ProjectDB :=
  match db.memory.lookup id with
  | none => (.refused, db)
  | some p => dropGrants env id (normEmail email) db p p.folders.zipIdx

/-- `maxNameLen` and `maxDescLen`. -/
def maxNameLen : ℕ := 120

def maxDescLen : ℕ := 280

/-- `iconRe`. -/
def iconShape (icon : GoString) : Bool :=
  1 ≤ icon.length && icon.length ≤ 32 && icon.all fun b =>
    (0x61 ≤ b && b ≤ 0x7A) || (0x30 ≤ b && b ≤ 0x39) || b == 0x2D

/-- `Update`: the fields that are given. -/
def update (env : ProjectEnv) (db : ProjectDB) (id : GoString)
    (name description icon : Option GoString) : Outcome × ProjectDB :=
  let newName := name.map fun name => trimText (projectLabel name) (maxNameLen + 1)
  let newDesc := description.map fun desc => trimText desc (maxDescLen + 1)
  let newIcon := icon.map trimSpace
  if newName.any fun name => name = [] || maxNameLen < (runes name).length then (.refused, db)
  else if newDesc.any fun desc => maxDescLen < (runes desc).length then (.refused, db)
  else if newIcon.any fun icon => icon ≠ [] && !iconShape icon then (.refused, db)
  else match db.memory.lookup id with
    | none => (.refused, db)
    | some p =>
      if newName.any fun name => db.memory.entries.any fun other =>
          other.1 ≠ id && other.2.name = name && other.2.org = p.org then (.refused, db)
      else db.put env id p { p with
        name := newName.getD p.name
        description := newDesc.getD p.description
        icon := newIcon.getD p.icon }

end

end ProjectDB

/-- The mutators of the registry. -/
inductive ProjectCall where
  | getOrCreate (name org : GoString)
  | update (id : GoString) (name description icon : Option GoString)
  | delete (id : GoString)
  | setCreator (id email : GoString)
  | setTemplate (id name : GoString)
  | setDefault (id level : GoString)
  | setOrg (id org : GoString)
  | setPermBy (id email level giver : GoString)
  | clearPerm (id email : GoString)
  | dropPerm (id email : GoString)
  | setFolder (id : GoString) (rule : FolderRecord)
  | clearFolder (id pre : GoString)
  | dropFolderGrants (id email : GoString)
  | setAppFolder (id : GoString) (g : AppFolderRecord)
  | dropAppFolder (id pre app : GoString)
  | setData (id : GoString) (on : Bool)

section

variable (normEmail projectLabel : GoString → GoString) (trimText : GoString → ℕ → GoString)

/-- A call, on the registry as it is read. -/
def ProjectDB.call (env : ProjectEnv) (db : ProjectDB) : ProjectCall → Outcome × ProjectDB
  | .getOrCreate name org => db.getOrCreate env (trimText (projectLabel name) 128) org
  | .update id name description icon =>
    db.update projectLabel trimText env id name description icon
  | .delete id => db.delete env id
  | .setCreator id email => db.setField env id fun p => { p with creator := normEmail email }
  | .setTemplate id name => db.setField env id fun p => { p with template := name }
  | .setDefault id level =>
    if !validLevel level || level = permAdmin then (.refused, db)
    else db.setField env id fun p => { p with default := level }
  | .setOrg id org => db.setField env id fun p => { p with org := org }
  | .setPermBy id email level giver => db.setPermBy normEmail env id email level giver
  | .clearPerm id email => db.clearPerm normEmail env id email
  | .dropPerm id email => db.dropPerm normEmail env id email
  | .setFolder id rule => db.setFolder env id rule
  | .clearFolder id pre => db.clearFolder env id pre
  | .dropFolderGrants id email => db.dropFolderGrants normEmail env id email
  | .setAppFolder id g => db.setAppFolder env id g
  | .dropAppFolder id pre app => db.dropAppFolder env id pre app
  | .setData id on => db.setData env id on

end

/-! ### Keys -/

/-- The rules of a project are unique by their prefixes, and the grants of apps by prefix and
app. -/
structure ProjectRecord.Keyed (p : ProjectRecord) : Prop where
  rules : (p.folders.map (·.pre)).Nodup
  grants : (p.appFolders.map fun g => (g.pre, g.app)).Nodup

/-- Two records are the same up to the order of the grants of apps. -/
def ProjectRecord.Same (p q : ProjectRecord) : Prop :=
  ∃ grants, p.appFolders.Perm grants ∧ q = { p with appFolders := grants }

theorem ProjectRecord.Same.refl (p : ProjectRecord) : p.Same p := ⟨_, .refl _, rfl⟩

theorem AppFolderRecord.at_iff {g : AppFolderRecord} {pre app : GoString} :
    g.at pre app = true ↔ (g.pre, g.app) = (pre, app) := by
  simp [AppFolderRecord.at]

/-- The prefixes after a rule is set. -/
theorem ProjectTable.nodup_setRule {folders : List FolderRecord} {rule : FolderRecord}
    (h : (folders.map (·.pre)).Nodup) : ((setRule folders rule).map (·.pre)).Nodup := by
  unfold setRule
  cases hi : folders.findIdx? (·.pre = rule.pre) with
  | some i =>
    obtain ⟨hlt, hpre, -⟩ := List.findIdx?_eq_some_iff_getElem.mp hi
    have hset : (folders.set i rule).map (·.pre) = folders.map (·.pre) := by
      rw [List.map_set, ← of_decide_eq_true hpre]
      have hself := @List.set_getElem_self _ (folders.map (·.pre)) i (by simpa using hlt)
      rwa [List.getElem_map] at hself
    rwa [hset]
  | none =>
    rw [List.map_append, List.nodup_append]
    refine ⟨h, List.nodup_singleton _, fun pre hpre pre' hpre' => ?_⟩
    obtain ⟨f, hf, rfl⟩ := List.mem_map.mp hpre
    have hne := List.findIdx?_eq_none_iff.mp hi f hf
    rintro rfl
    simp_all

/-- A grant that is written where it stood is the grant that is written at the end, up to their
order. -/
theorem AppFolderRecord.perm_set {g : AppFolderRecord} {l : List AppFolderRecord} {i : ℕ}
    (hnodup : (l.map fun g => (g.pre, g.app)).Nodup)
    (hi : l.findIdx? (·.at g.pre g.app) = some i) :
    (l.set i g).Perm (l.filter (!·.at g.pre g.app) ++ [g]) := by
  induction l generalizing i with
  | nil => cases hi
  | cons x l ih =>
    rw [List.map_cons, List.nodup_cons] at hnodup
    rw [List.findIdx?_cons] at hi
    split at hi
    · rename_i hx
      cases hi
      have hkeep : l.filter (!·.at g.pre g.app) = l := by
        refine List.filter_eq_self.mpr fun y hy => ?_
        rw [Bool.not_eq_true', Bool.eq_false_iff]
        intro hy'
        refine hnodup.1 (List.mem_map.mpr ⟨y, hy, ?_⟩)
        exact (AppFolderRecord.at_iff.mp hy').trans (AppFolderRecord.at_iff.mp hx).symm
      rw [List.set_cons_zero, List.filter_cons_of_neg (by simpa using hx), hkeep]
      exact (List.perm_append_singleton g l).symm
    · rename_i hx
      obtain ⟨j, hj, rfl⟩ := Option.map_eq_some_iff.mp hi
      rw [List.set_cons_succ, List.filter_cons_of_pos (by simpa using hx), List.cons_append]
      exact (ih hnodup.2 hj).cons x

/-- A rule is changed by its place as it is by its prefix. -/
theorem FolderRecord.modify_eq_map {f : FolderRecord → FolderRecord} {l : List FolderRecord}
    {i : ℕ} {pre : GoString} (hnodup : (l.map (·.pre)).Nodup)
    (hi : (l.map (·.pre))[i]? = some pre) :
    l.modify i f = l.map fun r => if r.pre = pre then f r else r := by
  induction l generalizing i with
  | nil => simp at hi
  | cons x l ih =>
    rw [List.map_cons, List.nodup_cons] at hnodup
    cases i with
    | zero =>
      have hx : x.pre = pre := by simpa using hi
      have hkeep : l.map (fun r => if r.pre = pre then f r else r) = l := by
        refine (List.map_congr_left fun r hr => ?_).trans l.map_id
        rw [if_neg, id]
        rintro hpre
        exact hnodup.1 (List.mem_map.mpr ⟨r, hr, hpre.trans hx.symm⟩)
      rw [List.modify_zero_cons, List.map_cons, if_pos hx, hkeep]
    | succ i =>
      have hi' : (l.map (·.pre))[i]? = some pre := by simpa using hi
      have hx : x.pre ≠ pre := by
        rintro rfl
        exact hnodup.1 (List.mem_of_getElem? hi')
      rw [List.modify_succ_cons, List.map_cons, if_neg hx, ih hnodup.2 hi']

/-! ### Memory and store -/

/-- The projects in memory are those of the store, and their rules and grants have keys. -/
structure ProjectDB.Sound (db : ProjectDB) : Prop where
  inStep : ∀ id, Option.Rel ProjectRecord.Same (db.memory.lookup id) (db.store.lookup id)
  keyed : ∀ id p, db.memory.lookup id = some p → p.Keyed

namespace ProjectDB

variable {env : ProjectEnv} {db : ProjectDB} {id : GoString}

/-- What the store has for a project in memory. -/
theorem Sound.stored (h : db.Sound) {p : ProjectRecord} (hp : db.memory.lookup id = some p) :
    ∃ grants, p.appFolders.Perm grants ∧
      db.store.lookup id = some { p with appFolders := grants } := by
  have hrel := h.inStep id
  rw [hp] at hrel
  cases hq : db.store.lookup id with
  | none =>
    rw [hq] at hrel
    cases hrel
  | some q =>
    rw [hq] at hrel
    cases hrel with
    | some hsame =>
      obtain ⟨grants, hperm, rfl⟩ := hsame
      exact ⟨grants, hperm, rfl⟩

theorem Sound.refresh (h : db.Sound) (rereads : Bool) : (db.refresh rereads).Sound := by
  cases rereads
  · exact h
  · refine ⟨fun id => ?_, fun id q hq => ?_⟩
    · change Option.Rel _ (db.store.lookup id) (db.store.lookup id)
      cases db.store.lookup id with
      | none => exact .none
      | some q => exact .some (.refl q)
    · have hq' : db.store.lookup id = some q := hq
      have hrel := h.inStep id
      rw [hq'] at hrel
      cases hp : db.memory.lookup id with
      | none =>
        rw [hp] at hrel
        cases hrel
      | some p =>
        rw [hp] at hrel
        cases hrel with
        | some hsame =>
          obtain ⟨grants, hperm, rfl⟩ := hsame
          have hkeyed := h.keyed id p hp
          exact ⟨hkeyed.rules, (hperm.map _).nodup_iff.mp hkeyed.grants⟩

/-- A record that both have. -/
theorem Sound.insert (h : db.Sound) {p q : ProjectRecord} (hsame : p.Same q) (hkeyed : p.Keyed) :
    Sound ⟨db.memory.insert id p, db.store.insert id q⟩ := by
  refine ⟨fun id' => ?_, fun id' p' hp' => ?_⟩
  · by_cases hid : id' = id
    · subst hid
      simp only [AList.lookup_insert]
      exact .some hsame
    · simp only [AList.lookup_insert_ne hid]
      exact h.inStep id'
  · by_cases hid : id' = id
    · subst hid
      rw [AList.lookup_insert] at hp'
      cases hp'
      exact hkeyed
    · rw [AList.lookup_insert_ne hid] at hp'
      exact h.keyed id' p' hp'

/-- A record that neither has. -/
theorem Sound.erase (h : db.Sound) : Sound ⟨db.memory.erase id, db.store.erase id⟩ := by
  refine ⟨fun id' => ?_, fun id' p' hp' => ?_⟩
  · by_cases hid : id' = id
    · subst hid
      simp only [AList.lookup_erase]
      exact .none
    · simp only [AList.lookup_erase_ne hid]
      exact h.inStep id'
  · by_cases hid : id' = id
    · subst hid
      rw [AList.lookup_erase] at hp'
      cases hp'
    · rw [AList.lookup_erase_ne hid] at hp'
      exact h.keyed id' p' hp'

/-- A record that was changed and put back. -/
theorem Sound.restored (h : db.Sound) {prev next : ProjectRecord}
    (hprev : db.memory.lookup id = some prev) :
    Sound { db with memory := (db.memory.insert id next).insert id prev } := by
  have hlookup : ∀ id', ((db.memory.insert id next).insert id prev).lookup id' =
      db.memory.lookup id' := fun id' => by
    by_cases hid : id' = id
    · subst hid
      rw [AList.lookup_insert, hprev]
    · rw [AList.lookup_insert_ne hid, AList.lookup_insert_ne hid]
  exact ⟨fun id' => (hlookup id').symm ▸ h.inStep id', fun id' p' hp' =>
    h.keyed id' p' ((hlookup id').symm.trans hp')⟩

/-- **A record that is written, or put back where the store refuses.** The row the store takes
does to its record what was done in memory. -/
theorem Sound.putRecord (h : db.Sound) {prev next : ProjectRecord} {put : ProjectPut}
    {row : ProjectTable → ProjectTable} (hprev : db.memory.lookup id = some prev)
    (hkeyed : next.Keyed)
    (hrow : ∀ grants, prev.appFolders.Perm grants →
      db.store.lookup id = some { prev with appFolders := grants } →
      ∃ q, row db.store = db.store.insert id q ∧ next.Same q) :
    (db.putRecord env id prev next put row).2.Sound := by
  unfold ProjectDB.putRecord
  dsimp only
  split
  · split
    · obtain ⟨grants, hperm, hstore⟩ := h.stored hprev
      obtain ⟨q, hq, hsame⟩ := hrow grants hperm hstore
      rw [hq]
      exact h.insert hsame hkeyed
    · exact h.insert (.refl next) hkeyed
  · exact h.restored hprev

/-- The store's record is changed as it stands. -/
theorem edit_eq {t : ProjectTable} {q : ProjectRecord} (f : ProjectRecord → ProjectRecord)
    (hq : t.lookup id = some q) : t.edit id f = t.insert id (f q) := by
  rw [ProjectTable.edit, hq]

/-- A write of the project's own fields. -/
theorem Sound.put (h : db.Sound) {prev next : ProjectRecord}
    (hprev : db.memory.lookup id = some prev)
    (hown : next = { next with
      perms := prev.perms, grantedBy := prev.grantedBy, folders := prev.folders,
      appFolders := prev.appFolders, data := prev.data }) :
    (db.put env id prev next).2.Sound := by
  have hkeyed := h.keyed id prev hprev
  refine h.putRecord hprev ?_ fun grants hperm hstore => ⟨_, rfl, grants, ?_, ?_⟩
  · rw [hown]
    exact ⟨hkeyed.rules, hkeyed.grants⟩
  · rw [hown]
    exact hperm
  · rw [hstore, hown]
    rfl

theorem Sound.setField (h : db.Sound) {f : ProjectRecord → ProjectRecord}
    (hown : ∀ p, f p = { f p with
      perms := p.perms, grantedBy := p.grantedBy, folders := p.folders,
      appFolders := p.appFolders, data := p.data }) :
    (db.setField env id f).2.Sound := by
  unfold ProjectDB.setField
  split
  · exact h
  · rename_i p hp
    exact h.put hp (hown p)

/-- A write of one grant. -/
theorem Sound.putPerm (h : db.Sound) {prev : ProjectRecord} {perms grantedBy : GrantMap}
    {email level : GoString} (hprev : db.memory.lookup id = some prev)
    (hperms : perms = if level = [] then prev.perms.erase email else prev.perms.insert email level)
    (hgiver : grantedBy = setGranter prev.grantedBy email
      (if level = [] then [] else (grantedBy.lookup email).getD [])) :
    (db.putPerm env id prev { prev with perms, grantedBy } email level).2.Sound := by
  have hkeyed := h.keyed id prev hprev
  refine h.putRecord hprev ⟨hkeyed.rules, hkeyed.grants⟩ fun grants hperm hstore =>
    ⟨_, edit_eq _ hstore, grants, hperm, ?_⟩
  dsimp only
  rw [← hperms, ← hgiver]

/-- The giver that is recorded is the giver that was named. -/
theorem lookup_setGranter (m : GrantMap) (email giver : GoString) :
    ((setGranter m email giver).lookup email).getD [] = giver := by
  unfold setGranter
  split
  · rename_i hgiver
    rw [AList.lookup_erase, hgiver, Option.getD_none]
  · rw [AList.lookup_insert, Option.getD_some]

theorem ne_nil_of_validLevel {level : GoString} (h : validLevel level = true) : level ≠ [] := by
  rintro rfl
  exact absurd h (by decide)

section

variable {normEmail projectLabel : GoString → GoString} {trimText : GoString → ℕ → GoString}

theorem Sound.setPermBy (h : db.Sound) (email level giver : GoString) :
    (db.setPermBy normEmail env id email level giver).2.Sound := by
  unfold ProjectDB.setPermBy
  dsimp only
  split
  · exact h
  rename_i hguard
  have hlevel : level ≠ [] := ne_nil_of_validLevel (by simp_all)
  split
  · exact h
  rename_i p hp
  split
  · exact h
  · exact h.putPerm hp (if_neg hlevel).symm (by rw [if_neg hlevel, lookup_setGranter])

theorem Sound.withoutGrant (h : db.Sound) {p : ProjectRecord}
    (hp : db.memory.lookup id = some p) (e : GoString) :
    (db.putPerm env id p (ProjectDB.withoutGrant p e) e []).2.Sound :=
  h.putPerm hp rfl rfl

theorem Sound.clearPerm (h : db.Sound) (email : GoString) :
    (db.clearPerm normEmail env id email).2.Sound := by
  unfold ProjectDB.clearPerm
  dsimp only
  split
  · exact h
  · rename_i p hp
    split
    · exact h
    · exact h.withoutGrant hp _

theorem Sound.dropPerm (h : db.Sound) (email : GoString) :
    (db.dropPerm normEmail env id email).2.Sound := by
  unfold ProjectDB.dropPerm
  dsimp only
  split
  · exact h
  · rename_i p hp
    split
    · exact h
    · exact h.withoutGrant hp _

/-- A write of the rules, which the store keeps in the order of memory. -/
theorem Sound.putFolders (h : db.Sound) {prev : ProjectRecord} {folders : List FolderRecord}
    {put : ProjectPut} {f : List FolderRecord → List FolderRecord}
    (hprev : db.memory.lookup id = some prev) (hfolders : folders = f prev.folders)
    (hkeyed : (folders.map (·.pre)).Nodup) :
    (db.putRecord env id prev { prev with folders } put
      fun t => t.edit id fun p => { p with folders := f p.folders }).2.Sound := by
  refine h.putRecord hprev ⟨hkeyed, (h.keyed id prev hprev).grants⟩ fun grants hperm hstore =>
    ⟨_, edit_eq _ hstore, grants, hperm, ?_⟩
  rw [hfolders]

theorem Sound.setFolder (h : db.Sound) (rule : FolderRecord) :
    (db.setFolder env id rule).2.Sound := by
  unfold ProjectDB.setFolder
  split
  · exact h
  split
  · exact h
  split
  · exact h
  split
  · exact h
  rename_i p hp
  split
  · exact h
  · exact h.putFolders (f := (ProjectTable.setRule · rule)) hp rfl
      (ProjectTable.nodup_setRule (h.keyed id p hp).rules)

theorem Sound.clearFolder (h : db.Sound) (pre : GoString) :
    (db.clearFolder env id pre).2.Sound := by
  unfold ProjectDB.clearFolder
  split
  · exact h
  rename_i p hp
  split
  · exact h
  · exact h.putFolders (f := (·.filter (·.pre ≠ pre))) hp rfl
      ((h.keyed id p hp).rules.sublist (List.filter_sublist.map _))

/-- The loop of `dropFolderGrants`. -/
theorem Sound.dropGrants {e : GoString} (rules : List (FolderRecord × ℕ)) {db : ProjectDB}
    (h : db.Sound) {p : ProjectRecord} (hp : db.memory.lookup id = some p)
    (hrules : ∀ rule ∈ rules, (p.folders.map (·.pre))[rule.2]? = some rule.1.pre) :
    (dropGrants env id e db p rules).2.Sound := by
  induction rules generalizing db p with
  | nil => exact h
  | cons rule rules ih =>
    obtain ⟨rule, i⟩ := rule
    have hi : (p.folders.map (·.pre))[i]? = some rule.pre := hrules _ (List.mem_cons_self ..)
    have hrest : ∀ rule ∈ rules, (p.folders.map (·.pre))[rule.2]? = some rule.1.pre :=
      fun rule hrule => hrules rule (List.mem_cons_of_mem _ hrule)
    rw [ProjectDB.dropGrants]
    split
    · exact ih h hp hrest
    have hmodify := FolderRecord.modify_eq_map (f := (·.dropGrant e)) (h.keyed id p hp).rules hi
    have hpres : (p.folders.modify i (·.dropGrant e)).map (·.pre) = p.folders.map (·.pre) := by
      rw [hmodify, List.map_map]
      refine List.map_congr_left fun r _ => ?_
      dsimp only [Function.comp_apply]
      split <;> rfl
    have hput : (db.putRecord env id p { p with folders := p.folders.modify i (·.dropGrant e) }
        (.dropFolderPerm id rule.pre e) (·.dropFolderPerm id rule.pre e)).2.Sound :=
      h.putFolders (f := (·.map fun r => if r.pre = rule.pre then r.dropGrant e else r)) hp hmodify
        (hpres ▸ (h.keyed id p hp).rules)
    cases hok : env.accepts (.dropFolderPerm id rule.pre e)
    · simp only [ProjectDB.putRecord, hok, Bool.false_eq_true, if_false] at hput ⊢
      exact hput
    · simp only [ProjectDB.putRecord, hok, if_true] at hput ⊢
      exact ih hput (AList.lookup_insert _) (hpres ▸ hrest)

theorem Sound.dropFolderGrants (h : db.Sound) (email : GoString) :
    (db.dropFolderGrants normEmail env id email).2.Sound := by
  unfold ProjectDB.dropFolderGrants
  split
  · exact h
  · rename_i p hp
    refine h.dropGrants _ hp fun rule hrule => ?_
    rw [List.getElem?_map, (List.mem_zipIdx_iff_getElem?.mp hrule), Option.map_some]

/-- A write of the grants of apps, which the store keeps in an order of its own. -/
theorem Sound.putGrants (h : db.Sound) {prev : ProjectRecord} {grants : List AppFolderRecord}
    {put : ProjectPut} {f : List AppFolderRecord → List AppFolderRecord}
    (hprev : db.memory.lookup id = some prev)
    (hgrants : ∀ stored, prev.appFolders.Perm stored → grants.Perm (f stored))
    (hkeyed : ((f prev.appFolders).map fun g => (g.pre, g.app)).Nodup) :
    (db.putRecord env id prev { prev with appFolders := grants } put
      fun t => t.edit id fun p => { p with appFolders := f p.appFolders }).2.Sound := by
  refine h.putRecord hprev ⟨(h.keyed id prev hprev).rules, ?_⟩ fun stored hperm hstore =>
    ⟨_, edit_eq _ hstore, f stored, hgrants stored hperm, rfl⟩
  exact ((hgrants _ (.refl _)).map _).nodup_iff.mpr hkeyed

/-- The grants after one of them is written at the end. -/
theorem nodup_putGrant {l : List AppFolderRecord} (g : AppFolderRecord)
    (h : (l.map fun g => (g.pre, g.app)).Nodup) :
    ((l.filter (!·.at g.pre g.app) ++ [g]).map fun g => (g.pre, g.app)).Nodup := by
  rw [List.map_append, List.nodup_append]
  refine ⟨h.sublist (List.filter_sublist.map _), List.nodup_singleton _, fun k hk k' hk' => ?_⟩
  obtain ⟨x, hx, rfl⟩ := List.mem_map.mp hk
  obtain rfl : k' = (g.pre, g.app) := by simpa using hk'
  have hnot := (List.mem_filter.mp hx).2
  intro heq
  rw [AppFolderRecord.at_iff.mpr heq] at hnot
  cases hnot

theorem Sound.setAppFolder (h : db.Sound) (g : AppFolderRecord) :
    (db.setAppFolder env id g).2.Sound := by
  unfold ProjectDB.setAppFolder
  split
  · exact h
  split
  · exact h
  rename_i p hp
  have hkeys := (h.keyed id p hp).grants
  split
  · rename_i i hi
    refine h.putGrants (f := fun l => l.filter (!·.at g.pre g.app) ++ [g]) hp
      (fun stored hperm => ?_) (nodup_putGrant g hkeys)
    exact (AppFolderRecord.perm_set hkeys hi).trans ((hperm.filter _).append_right _)
  · rename_i hi
    split
    · exact h
    refine h.putGrants (f := fun l => l.filter (!·.at g.pre g.app) ++ [g]) hp
      (fun stored hperm => ?_) (nodup_putGrant g hkeys)
    have hkeep : p.appFolders.filter (!·.at g.pre g.app) = p.appFolders :=
      List.filter_eq_self.mpr fun x hx => by
        simpa using List.findIdx?_eq_none_iff.mp hi x hx
    exact (hkeep ▸ hperm.filter _).append_right _

theorem Sound.dropAppFolder (h : db.Sound) (pre app : GoString) :
    (db.dropAppFolder env id pre app).2.Sound := by
  unfold ProjectDB.dropAppFolder
  split
  · exact h
  rename_i p hp
  dsimp only
  split
  · exact h
  · exact h.putGrants (f := (·.filter (!·.at pre app))) hp (fun stored hperm => hperm.filter _)
      ((h.keyed id p hp).grants.sublist (List.filter_sublist.map _))

theorem Sound.setData (h : db.Sound) (on : Bool) : (db.setData env id on).2.Sound := by
  unfold ProjectDB.setData
  split
  · exact h
  · rename_i p hp
    exact h.putRecord hp ⟨(h.keyed id p hp).rules, (h.keyed id p hp).grants⟩
      fun grants hperm hstore => ⟨_, edit_eq _ hstore, grants, hperm, rfl⟩

theorem Sound.update (h : db.Sound) (name description icon : Option GoString) :
    (db.update projectLabel trimText env id name description icon).2.Sound := by
  unfold ProjectDB.update
  dsimp only
  split
  · exact h
  split
  · exact h
  split
  · exact h
  split
  · exact h
  rename_i p hp
  split
  · exact h
  · exact h.put hp rfl

/-- A new project has an id of its own. -/
theorem Sound.getOrCreate (h : db.Sound) (hfresh : db.memory.lookup env.fresh = none)
    (name org : GoString) : (db.getOrCreate env name org).2.Sound := by
  unfold ProjectDB.getOrCreate
  split
  · exact h
  split
  · exact h
  dsimp only
  split
  · exact h.insert (.refl _) ⟨List.nodup_nil, List.nodup_nil⟩
  · have hlookup : ∀ p id', ((db.memory.insert env.fresh p).erase env.fresh).lookup id' =
        db.memory.lookup id' := fun p id' => by
      by_cases hid : id' = env.fresh
      · subst hid
        rw [AList.lookup_erase, hfresh]
      · rw [AList.lookup_erase_ne hid, AList.lookup_insert_ne hid]
    exact ⟨fun id' => (hlookup _ id').symm ▸ h.inStep id', fun id' p' hp' =>
      h.keyed id' p' ((hlookup _ id').symm.trans hp')⟩

/-- A project is deleted from both, where the store deletes it. -/
theorem Sound.delete (h : db.Sound) (hok : env.accepts (.delete id) = true) :
    (db.delete env id).2.Sound := by
  unfold ProjectDB.delete
  split
  · exact h
  · dsimp only
    rw [if_pos hok]
    exact h.erase

/-- **A call keeps memory and store the same**, unless it deletes a project that the store
keeps. -/
theorem Sound.call (h : db.Sound) (hfresh : db.memory.lookup env.fresh = none) (c : ProjectCall)
    (hdelete : ∀ id, c = .delete id → env.accepts (.delete id) = true) :
    (db.call normEmail projectLabel trimText env c).2.Sound := by
  cases c with
  | getOrCreate name org => exact h.getOrCreate hfresh _ _
  | update id name description icon => exact h.update _ _ _
  | delete id => exact h.delete (hdelete id rfl)
  | setCreator id email => exact h.setField fun p => rfl
  | setTemplate id name => exact h.setField fun p => rfl
  | setDefault id level =>
    simp only [ProjectDB.call]
    split
    · exact h
    · exact h.setField fun p => rfl
  | setOrg id org => exact h.setField fun p => rfl
  | setPermBy id email level giver => exact h.setPermBy _ _ _
  | clearPerm id email => exact h.clearPerm _
  | dropPerm id email => exact h.dropPerm _
  | setFolder id rule => exact h.setFolder _
  | clearFolder id pre => exact h.clearFolder _
  | dropFolderGrants id email => exact h.dropFolderGrants _
  | setAppFolder id g => exact h.setAppFolder _
  | dropAppFolder id pre app => exact h.dropAppFolder _ _
  | setData id on => exact h.setData _

/-! ### A write the store refuses -/

end

/-- What the reads of the projects answer. -/
def SameAnswers (db db' : ProjectDB) : Prop :=
  ∀ id, db'.memory.lookup id = db.memory.lookup id

theorem putRecord_unwritten {prev next : ProjectRecord} {put : ProjectPut}
    {row : ProjectTable → ProjectTable} (hprev : db.memory.lookup id = some prev)
    (h : (db.putRecord env id prev next put row).1 = .unwritten) :
    db.SameAnswers (db.putRecord env id prev next put row).2 := by
  unfold ProjectDB.putRecord at h ⊢
  dsimp only at h ⊢
  split at h
  · cases h
  rename_i hno
  rw [if_neg hno]
  intro id'
  by_cases hid : id' = id
  · subst hid
    exact (AList.lookup_insert _).trans hprev.symm
  · exact (AList.lookup_insert_ne hid).trans (AList.lookup_insert_ne hid)

/-- The prefixes of the rules that name an account. -/
def namingRules (folders : List FolderRecord) (e : GoString) : List GoString :=
  (folders.filter fun rule => (rule.perms.lookup e).isSome).map (·.pre)

theorem namingRules_cons_of_some {rule : FolderRecord} {e : GoString} (rules : List FolderRecord)
    (h : (rule.perms.lookup e).isSome = true) :
    namingRules (rule :: rules) e = rule.pre :: namingRules rules e := by
  simp only [namingRules, List.filter_cons, h, if_true, List.map_cons]

theorem namingRules_cons_of_none {rule : FolderRecord} {e : GoString} (rules : List FolderRecord)
    (h : (rule.perms.lookup e).isNone = true) :
    namingRules (rule :: rules) e = namingRules rules e := by
  have hsome : (rule.perms.lookup e).isSome = false := by simpa using h
  simp only [namingRules, List.filter_cons, hsome, Bool.false_eq_true, if_false]

/-- Where the store takes every row, the loop of `dropFolderGrants` ends. -/
theorem dropGrants_done {e : GoString} (rules : List (FolderRecord × ℕ)) (db : ProjectDB)
    (p : ProjectRecord) (h : ∀ pre ∈ namingRules (rules.map (·.1)) e,
      env.accepts (.dropFolderPerm id pre e) = true) :
    (dropGrants env id e db p rules).1 = .done := by
  induction rules generalizing db p with
  | nil => rfl
  | cons rule rules ih =>
    obtain ⟨rule, i⟩ := rule
    rw [List.map_cons] at h
    rw [ProjectDB.dropGrants]
    split
    · rename_i hnone
      rw [namingRules_cons_of_none _ hnone] at h
      exact ih db p h
    · rename_i hnames
      rw [namingRules_cons_of_some _ (by simpa [Option.isSome_iff_ne_none] using hnames)] at h
      have hok := h rule.pre (List.mem_cons_self ..)
      simp only [putRecord, hok, if_true]
      exact ih _ _ fun pre hpre => h pre (List.mem_cons_of_mem _ hpre)

/-- Where the first row is refused, nothing has changed. -/
theorem dropGrants_unwritten {e : GoString} (rules : List (FolderRecord × ℕ)) {p : ProjectRecord}
    (hp : db.memory.lookup id = some p)
    (hall : ∀ first ∈ (namingRules (rules.map (·.1)) e).head?,
      env.accepts (.dropFolderPerm id first e) = true →
      ∀ pre ∈ namingRules (rules.map (·.1)) e, env.accepts (.dropFolderPerm id pre e) = true)
    (h : (dropGrants env id e db p rules).1 = .unwritten) :
    db.SameAnswers (dropGrants env id e db p rules).2 := by
  induction rules with
  | nil => cases h
  | cons rule rules ih =>
    obtain ⟨rule, i⟩ := rule
    by_cases hnone : (rule.perms.lookup e).isNone = true
    · rw [List.map_cons, namingRules_cons_of_none _ hnone] at hall
      rw [ProjectDB.dropGrants, if_pos hnone] at h ⊢
      exact ih hall h
    have hcons := @namingRules_cons_of_some rule e (rules.map (·.1))
      (by simpa [Option.isSome_iff_ne_none] using hnone)
    rw [List.map_cons, hcons, List.head?_cons] at hall
    cases hok : env.accepts (.dropFolderPerm id rule.pre e)
    · rw [ProjectDB.dropGrants, if_neg hnone] at h ⊢
      have hput := @putRecord_unwritten env db id p
        { p with folders := p.folders.modify i (·.dropGrant e) } (.dropFolderPerm id rule.pre e)
        (·.dropFolderPerm id rule.pre e) hp
      simp only [putRecord, hok, Bool.false_eq_true, if_false] at hput h ⊢
      exact hput trivial
    · have hdone := @dropGrants_done env id e ((rule, i) :: rules) db p <| by
        rw [List.map_cons, hcons]
        exact hall rule.pre rfl hok
      rw [hdone] at h
      cases h

/-- What a call with at most one write does. -/
inductive OneWrite (env : ProjectEnv) (db : ProjectDB) : Outcome × ProjectDB → Prop
  | nothing (o : Outcome) (written : o ≠ .unwritten) : OneWrite env db (o, db)
  | put (id : GoString) (prev next : ProjectRecord) (put : ProjectPut)
    (row : ProjectTable → ProjectTable) (found : db.memory.lookup id = some prev) :
    OneWrite env db (db.putRecord env id prev next put row)

theorem OneWrite.unwritten {answer : Outcome × ProjectDB} (hone : OneWrite env db answer)
    (h : answer.1 = .unwritten) : db.SameAnswers answer.2 := by
  cases hone with
  | nothing o written => exact absurd h written
  | put id prev next put row found => exact putRecord_unwritten found h

theorem oneWrite_refused : OneWrite env db (.refused, db) := .nothing _ (by decide)

theorem oneWrite_done : OneWrite env db (.done, db) := .nothing _ (by decide)

theorem oneWrite_setField (id : GoString) (f : ProjectRecord → ProjectRecord) :
    OneWrite env db (db.setField env id f) := by
  unfold ProjectDB.setField
  split
  · exact oneWrite_refused
  · rename_i p hp
    exact .put id p _ _ _ hp

theorem oneWrite_setFolder (id : GoString) (rule : FolderRecord) :
    OneWrite env db (db.setFolder env id rule) := by
  unfold ProjectDB.setFolder
  split
  · exact oneWrite_refused
  split
  · exact oneWrite_refused
  split
  · exact oneWrite_refused
  split
  · exact oneWrite_refused
  rename_i p hp
  split
  · exact oneWrite_refused
  · exact .put id p _ _ _ hp

theorem oneWrite_clearFolder (id pre : GoString) :
    OneWrite env db (db.clearFolder env id pre) := by
  unfold ProjectDB.clearFolder
  split
  · exact oneWrite_refused
  rename_i p hp
  split
  · exact oneWrite_refused
  · exact .put id p _ _ _ hp

theorem oneWrite_setAppFolder (id : GoString) (g : AppFolderRecord) :
    OneWrite env db (db.setAppFolder env id g) := by
  unfold ProjectDB.setAppFolder
  split
  · exact oneWrite_refused
  split
  · exact oneWrite_refused
  rename_i p hp
  split
  · exact .put id p _ _ _ hp
  · split
    · exact oneWrite_refused
    · exact .put id p _ _ _ hp

theorem oneWrite_dropAppFolder (id pre app : GoString) :
    OneWrite env db (db.dropAppFolder env id pre app) := by
  unfold ProjectDB.dropAppFolder
  split
  · exact oneWrite_refused
  rename_i p hp
  dsimp only
  split
  · exact oneWrite_refused
  · exact .put id p _ _ _ hp

theorem oneWrite_setData (id : GoString) (on : Bool) :
    OneWrite env db (db.setData env id on) := by
  unfold ProjectDB.setData
  split
  · exact oneWrite_refused
  · rename_i p hp
    exact .put id p _ _ _ hp

section

variable {normEmail projectLabel : GoString → GoString} {trimText : GoString → ℕ → GoString}

theorem oneWrite_setPermBy (id email level giver : GoString) :
    OneWrite env db (db.setPermBy normEmail env id email level giver) := by
  unfold ProjectDB.setPermBy
  dsimp only
  split
  · exact oneWrite_refused
  split
  · exact oneWrite_refused
  rename_i p hp
  split
  · exact oneWrite_refused
  · exact .put id p _ _ _ hp

theorem oneWrite_clearPerm (id email : GoString) :
    OneWrite env db (db.clearPerm normEmail env id email) := by
  unfold ProjectDB.clearPerm
  dsimp only
  split
  · exact oneWrite_refused
  rename_i p hp
  split
  · exact oneWrite_refused
  · exact .put id p _ _ _ hp

theorem oneWrite_dropPerm (id email : GoString) :
    OneWrite env db (db.dropPerm normEmail env id email) := by
  unfold ProjectDB.dropPerm
  dsimp only
  split
  · exact oneWrite_refused
  rename_i p hp
  split
  · exact oneWrite_done
  · exact .put id p _ _ _ hp

theorem oneWrite_update (id : GoString) (name description icon : Option GoString) :
    OneWrite env db (db.update projectLabel trimText env id name description icon) := by
  unfold ProjectDB.update
  dsimp only
  split
  · exact oneWrite_refused
  split
  · exact oneWrite_refused
  split
  · exact oneWrite_refused
  split
  · exact oneWrite_refused
  rename_i p hp
  split
  · exact oneWrite_refused
  · exact .put id p _ _ _ hp

/-- A project that the store did not take is gone again. -/
theorem getOrCreate_unwritten (hfresh : db.memory.lookup env.fresh = none) {name org : GoString}
    (h : (db.getOrCreate env name org).1 = .unwritten) :
    db.SameAnswers (db.getOrCreate env name org).2 := by
  unfold ProjectDB.getOrCreate at h ⊢
  split at h
  · cases h
  split at h
  · cases h
  rename_i hname hfound
  rw [if_neg hname, if_neg hfound]
  dsimp only at h ⊢
  split at h
  · cases h
  rename_i hno
  rw [if_neg hno]
  intro id'
  by_cases hid : id' = env.fresh
  · subst hid
    exact (AList.lookup_erase _ _).trans hfresh.symm
  · exact (AList.lookup_erase_ne hid).trans (AList.lookup_insert_ne hid)

/-- **A call that failed at its first write has changed no answer.** -/
theorem call_unwritten {c : ProjectCall} (hfresh : db.memory.lookup env.fresh = none)
    (hdelete : ∀ id, c = .delete id → env.accepts (.delete id) = true)
    (hall : ∀ id email p, c = .dropFolderGrants id email → db.memory.lookup id = some p →
      ∀ first ∈ (namingRules p.folders (normEmail email)).head?,
        env.accepts (.dropFolderPerm id first (normEmail email)) = true →
        ∀ pre ∈ namingRules p.folders (normEmail email),
          env.accepts (.dropFolderPerm id pre (normEmail email)) = true)
    (h : (db.call normEmail projectLabel trimText env c).1 = .unwritten) :
    db.SameAnswers (db.call normEmail projectLabel trimText env c).2 := by
  cases c with
  | getOrCreate name org => exact getOrCreate_unwritten hfresh h
  | update id name description icon => exact (oneWrite_update ..).unwritten h
  | delete id =>
    simp only [ProjectDB.call, ProjectDB.delete] at h
    split at h
    · cases h
    · simp only [hdelete id rfl, if_true] at h
      cases h
  | setCreator id email => exact (oneWrite_setField ..).unwritten h
  | setTemplate id name => exact (oneWrite_setField ..).unwritten h
  | setDefault id level =>
    simp only [ProjectDB.call] at h ⊢
    split at h
    · cases h
    · rename_i hlevel
      rw [if_neg hlevel]
      exact (oneWrite_setField ..).unwritten h
  | setOrg id org => exact (oneWrite_setField ..).unwritten h
  | setPermBy id email level giver => exact (oneWrite_setPermBy ..).unwritten h
  | clearPerm id email => exact (oneWrite_clearPerm ..).unwritten h
  | dropPerm id email => exact (oneWrite_dropPerm ..).unwritten h
  | setFolder id rule => exact (oneWrite_setFolder ..).unwritten h
  | clearFolder id pre => exact (oneWrite_clearFolder ..).unwritten h
  | dropFolderGrants id email =>
    simp only [ProjectDB.call, ProjectDB.dropFolderGrants] at h ⊢
    split at h
    · cases h
    · rename_i p hp
      refine dropGrants_unwritten _ hp ?_ h
      rw [List.zipIdx_map_fst]
      exact hall id email p rfl hp
  | setAppFolder id g => exact (oneWrite_setAppFolder ..).unwritten h
  | dropAppFolder id pre app => exact (oneWrite_dropAppFolder ..).unwritten h
  | setData id on => exact (oneWrite_setData ..).unwritten h

end

end ProjectDB

end Beardrive
