import Beardrive.Webapp.Orgs

/-!
# The registry of organizations

One hub process keeps the orgs and their invites in memory and writes every change to its store.
A call changes the map first and puts the old record back where the store refuses the write. An
invite is alive as long as the account that minted it owns the org, which is looked up whenever
the invite is read. A read that finds the minter is no owner retires the invite, in memory whatever
the store says.

A call decides on what the registry holds in memory. Before it does, the registry is read again
where the store says it has moved.

## Main definitions

* `OrgDB` — what the registry holds and what the store does
* `OrgDB.change`, `OrgDB.rename` — the calls that change orgs and their members
* `OrgDB.liveLocked`, `OrgDB.retireLocked` — whether an invite is alive, and its end
* `OrgDB.redeem`, `OrgDB.validInvite`, `OrgDB.listInvites` — the reads of an invite

## Main results

* `OrgDB.InStep.change` — a call keeps the orgs in memory those of the store
* `OrgDB.owner_of_change` — who owns an org after a call
-/

namespace Beardrive

/-! ### Records -/

/-- `Org`. -/
structure OrgRecord where
  name : GoString := []
  created : Time := {}
  rows : OrgRows := ∅

/-- `OrgInvite`: a join link, and the account that minted it. Times are in nanoseconds. -/
structure OrgInvite where
  token : GoString
  org : GoString
  creator : GoString
  created : ℤ
  expires : ℤ
  uses : ℕ := 0
  deriving DecidableEq, Repr

/-- `OrgInvite.expired`. -/
def OrgInvite.expired (inv : OrgInvite) (now : ℤ) : Bool := inv.expires < now

/-- `DefaultInviteTTL`. -/
def defaultInviteTTL : ℤ := 7 * 24 * 3600 * 1000000000

/-- The orgs and the invites, as the registry holds them or as the store does. -/
structure OrgTables where
  orgs : GoString → Option OrgRecord := fun _ => none
  invites : AList fun _ : GoString => OrgInvite := ∅

/-- `OrgDB`: what is in memory, and what `Load` would return. -/
structure OrgDB where
  memory : OrgTables := {}
  store : OrgTables := {}

/-- The writes that the store accepts or refuses. -/
inductive OrgPut where
  | org (id : GoString)
  | orgMeta (id : GoString)
  | member (id email : GoString)
  | invite (token : GoString)
  | dropInvite (token : GoString)
  deriving DecidableEq, Repr

/-- What a call meets: the writes the store accepts, whether it writes a member's row alone,
whether it has moved since the registry was read, the time, the accounts by seniority, and the
next text that is drawn at random. -/
structure OrgEnv where
  accepts : OrgPut → Bool := fun _ => true
  rowScoped : Bool := true
  rereads : Bool := false
  now : Time := {}
  seniority : Option (List GoString) := none
  fresh : GoString := []

namespace OrgTables

/-- A record takes the place of another. -/
def setOrg (t : OrgTables) (id : GoString) (o : OrgRecord) : OrgTables :=
  { t with orgs := Function.update t.orgs id (some o) }

/-- A record goes. -/
def dropOrg (t : OrgTables) (id : GoString) : OrgTables :=
  { t with orgs := Function.update t.orgs id none }

/-- `PutOrgMeta`: the members stay as they are in the store. -/
def putOrgMeta (t : OrgTables) (id : GoString) (o : OrgRecord) : OrgTables :=
  t.setOrg id { o with rows := ((t.orgs id).map (·.rows)).getD ∅ }

/-- `PutMember`. -/
def putMember (t : OrgTables) (id email : GoString) (row : Option OrgMember) : OrgTables :=
  let o := (t.orgs id).map fun o => { o with rows := Beardrive.putMember email row o.rows }
  { t with orgs := Function.update t.orgs id o }

/-- `PutInvite`. -/
def putInvite (t : OrgTables) (inv : OrgInvite) : OrgTables :=
  { t with invites := t.invites.insert inv.token inv }

/-- `DeleteInvite`. -/
def dropInvite (t : OrgTables) (token : GoString) : OrgTables :=
  { t with invites := t.invites.erase token }

/-- An account is an owner of an org. -/
def owner (t : OrgTables) (id e : GoString) : Bool := (t.orgs id).any (isOwner ·.rows e)

end OrgTables

namespace OrgDB

/-- `refresh`: the registry is read again where the store has moved. -/
def refresh (db : OrgDB) (rereads : Bool) : OrgDB :=
  if rereads then { db with memory := db.store } else db

/-! ### Invites -/

/-- `retireLocked`. -/
def retireLocked (env : OrgEnv) (db : OrgDB) (token : GoString) : OrgDB where
  memory := db.memory.dropInvite token
  store := if env.accepts (.dropInvite token) then db.store.dropInvite token else db.store

/-- `liveLocked`: an invite whose minter is no owner is retired. -/
def liveLocked (env : OrgEnv) (db : OrgDB) (inv : OrgInvite) : Bool × OrgDB :=
  if inv.expired env.now.ns then (false, db)
  else if inv.creator = [] then (true, db)
  else if db.memory.owner inv.org inv.creator then (true, db)
  else (false, db.retireLocked env inv.token)

/-- `Redeem`. -/
def redeem (env : OrgEnv) (db : OrgDB) (token : GoString) : Option OrgInvite × OrgDB :=
  match db.memory.invites.lookup token with
  | none => (none, db)
  | some inv => let (live, db') := db.liveLocked env inv
    (if live then some inv else none, db')

/-- `ValidInvite`. -/
def validInvite (env : OrgEnv) (db : OrgDB) (token : GoString) : Bool × OrgDB :=
  match db.memory.invites.lookup token with
  | none => (false, db)
  | some inv => db.liveLocked env inv

/-- The body of the loop in `ListInvites`. -/
def listNext (env : OrgEnv) (id : GoString) (out : List OrgInvite × OrgDB)
    (row : Sigma fun _ : GoString => OrgInvite) : List OrgInvite × OrgDB :=
  if row.2.org = id then
    let (live, db) := out.2.liveLocked env row.2
    (if live then out.1 ++ [row.2] else out.1, db)
  else out

/-- `ListInvites`: the live invites of an org, the latest first. -/
def listInvites (env : OrgEnv) (db : OrgDB) (id : GoString) : List OrgInvite × OrgDB :=
  let (out, db) := db.memory.invites.entries.foldl (listNext env id) ([], db)
  (out.mergeSort fun a b => b.created ≤ a.created, db)

/-- `RevokeInvite`: an invite the store does not delete is put back. -/
def revokeInvite (env : OrgEnv) (db : OrgDB) (token : GoString) : Bool × OrgDB :=
  match db.memory.invites.lookup token with
  | none => (false, db)
  | some inv =>
    let memory := db.memory.dropInvite token
    if env.accepts (.dropInvite token) then (true, ⟨memory, db.store.dropInvite token⟩)
    else (false, { db with memory := { memory with invites := memory.invites.insert token inv } })

/-- `RecordInviteUse`. -/
def recordInviteUse (env : OrgEnv) (db : OrgDB) (token : GoString) : OrgDB :=
  match db.memory.invites.lookup token with
  | none => db
  | some inv =>
    let inv := { inv with uses := inv.uses + 1 }
    { memory := { db.memory with invites := db.memory.invites.insert token inv }
      store := if env.accepts (.invite token) then db.store.putInvite inv else db.store }

section

variable (normEmail trimName : GoString → GoString)

/-- `CreateInvite`. -/
def createInvite (env : OrgEnv) (db : OrgDB) (id creator : GoString) (ttl : ℤ) :
    Option OrgInvite × OrgDB :=
  match db.memory.orgs id with
  | none => (none, db)
  | some _ =>
    let inv : OrgInvite := ⟨env.fresh, id, normEmail creator, env.now.ns,
      env.now.ns + (if ttl ≤ 0 then defaultInviteTTL else ttl), 0⟩
    let memory := db.memory.putInvite inv
    if env.accepts (.invite inv.token) then (some inv, ⟨memory, db.store.putInvite inv⟩)
    else (none, { db with memory := memory.dropInvite inv.token })

/-! ### Orgs and their members -/

/-- `putOrg`: the record the store refuses is replaced by the one before. -/
def putOrg (env : OrgEnv) (db : OrgDB) (id : GoString) (prev o : OrgRecord) : Bool × OrgDB :=
  let memory := db.memory.setOrg id o
  if env.accepts (.orgMeta id) then
    (true, ⟨memory, if env.rowScoped then db.store.putOrgMeta id o else db.store.setOrg id o⟩)
  else (false, { db with memory := memory.setOrg id prev })

/-- One write of a call: a new org, which goes again where the store refuses it, or `putMember`. -/
def write (env : OrgEnv) (name : GoString) (db : OrgDB) : OrgWrite → Bool × OrgDB
  | .org id rows =>
    let o : OrgRecord := ⟨name, env.now, rows⟩
    let memory := db.memory.setOrg id o
    if env.accepts (.org id) then (true, ⟨memory, db.store.setOrg id o⟩)
    else (false, { db with memory := memory.dropOrg id })
  | .member id email row =>
    match db.memory.orgs id with
    | none => (env.accepts (.member id email), db)
    | some prev =>
      let next := { prev with rows := Beardrive.putMember email row prev.rows }
      let memory := db.memory.setOrg id next
      if env.accepts (.member id email) then
        (true, ⟨memory, if env.rowScoped then db.store.putMember id email row
          else db.store.setOrg id next⟩)
      else (false, { db with memory := memory.setOrg id prev })

/-- The invites that the heir of an org minted, which `EvictMember` retires before it promotes
them. -/
def sweep (env : OrgEnv) (db : OrgDB) : OrgCall → OrgWrite → OrgDB
  | .evict _ _, .member id h (some _) =>
    ((db.memory.invites.entries.filter fun row => row.2.org = id && row.2.creator = h).map
      (·.1)).foldl (retireLocked env) db
  | _, _ => db

/-- The writes of a call, up to the first that the store refuses. -/
def perform (env : OrgEnv) (name : GoString) (call : OrgCall) (db : OrgDB) :
    List OrgWrite → Bool × OrgDB
  | [] => (true, db)
  | w :: ws =>
    match (db.sweep env call w).write env name w with
    | (false, db) => (false, db)
    | (true, db) => perform env name call db ws

/-- The members of the orgs in memory. -/
def rows (db : OrgDB) : GoString → Option OrgRows := fun id => (db.memory.orgs id).map (·.rows)

/-- What a call writes, decided on what is in memory. -/
def plan (env : OrgEnv) (db : OrgDB) (call : OrgCall) : List OrgWrite :=
  call.plan normEmail env.seniority db.rows env.fresh env.now

/-- `Create`, `AddMember`, `RemoveMember`, `EvictMember` and `SetRole`. Only a new org needs a
name. The answer says whether the store took every write. -/
def change (env : OrgEnv) (db : OrgDB) (name : GoString) (call : OrgCall) : Bool × OrgDB :=
  match call with
  | .create _ =>
    if trimName name = [] then (true, db)
    else db.perform env (trimName name) call (db.plan normEmail env call)
  | _ => db.perform env [] call (db.plan normEmail env call)

/-- `Rename`. -/
def rename (env : OrgEnv) (db : OrgDB) (id name : GoString) : Bool × OrgDB :=
  match db.memory.orgs id with
  | none => (true, db)
  | some o =>
    if trimName name = [] then (true, db)
    else db.putOrg env id o { o with name := trimName name }

end

/-! ### A refused write -/

end OrgDB

theorem OrgTables.setOrg_setOrg {t : OrgTables} {id : GoString} {o prev : OrgRecord}
    (h : t.orgs id = some prev) : (t.setOrg id o).setOrg id prev = t := by
  rw [setOrg, setOrg, Function.update_idem, ← h, Function.update_eq_self]

theorem OrgTables.dropOrg_setOrg {t : OrgTables} {id : GoString} {o : OrgRecord}
    (h : t.orgs id = none) : (t.setOrg id o).dropOrg id = t := by
  rw [dropOrg, setOrg, Function.update_idem, ← h, Function.update_eq_self]

@[simp] theorem OrgTables.lookup_putInvite_self (t : OrgTables) (inv : OrgInvite) :
    (t.putInvite inv).invites.lookup inv.token = some inv :=
  AList.lookup_insert _

theorem OrgTables.lookup_putInvite_of_ne {t : OrgTables} {inv : OrgInvite} {token : GoString}
    (h : token ≠ inv.token) :
    (t.putInvite inv).invites.lookup token = t.invites.lookup token :=
  AList.lookup_insert_ne h

theorem OrgTables.lookup_of_dropInvite {t : OrgTables} {token token' : GoString}
    {inv : OrgInvite} (h : (t.dropInvite token').invites.lookup token = some inv) :
    token ≠ token' ∧ t.invites.lookup token = some inv := by
  have hne : token ≠ token' := by
    rintro rfl
    rw [dropInvite, AList.lookup_erase] at h
    cases h
  exact ⟨hne, by rwa [dropInvite, AList.lookup_erase_ne hne] at h⟩

namespace OrgDB

/-- The orgs in memory are those of the store. -/
def InStep (db : OrgDB) : Prop := db.memory.orgs = db.store.orgs

variable {env : OrgEnv} {db : OrgDB}

theorem InStep.refresh (h : db.InStep) (rereads : Bool) : (db.refresh rereads).InStep := by
  cases rereads
  · exact h
  · rfl

theorem orgs_refresh (h : db.InStep) (rereads : Bool) :
    (db.refresh rereads).memory.orgs = db.memory.orgs := by
  cases rereads
  · rfl
  · exact h.symm

/-! ### What retires an invite -/

theorem retireLocked_orgs (token : GoString) :
    (db.retireLocked env token).memory.orgs = db.memory.orgs ∧
      (db.retireLocked env token).store.orgs = db.store.orgs := by
  refine ⟨rfl, ?_⟩
  unfold retireLocked
  split <;> rfl

/-- What is left in memory after some invites are retired. -/
theorem lookup_retireLocked (tokens : List GoString) (db : OrgDB) (token : GoString) :
    (tokens.foldl (retireLocked env) db).memory.invites.lookup token =
      if token ∈ tokens then none else db.memory.invites.lookup token := by
  induction tokens generalizing db with
  | nil => simp
  | cons first tokens ih =>
    rw [List.foldl_cons, ih]
    by_cases hfirst : token = first
    · subst hfirst
      simp [retireLocked, OrgTables.dropInvite]
    · simp [retireLocked, OrgTables.dropInvite, AList.lookup_erase_ne hfirst, hfirst]

/-- What is left in the store, which may refuse to delete an invite. -/
theorem lookup_retireLocked_store (tokens : List GoString) (db : OrgDB) (token : GoString) :
    (tokens.foldl (retireLocked env) db).store.invites.lookup token =
      if token ∈ tokens ∧ env.accepts (.dropInvite token) then none
      else db.store.invites.lookup token := by
  induction tokens generalizing db with
  | nil => simp
  | cons first tokens ih =>
    rw [List.foldl_cons, ih]
    by_cases hfirst : token = first
    · subst hfirst
      by_cases hok : env.accepts (.dropInvite token) = true <;>
        simp [retireLocked, OrgTables.dropInvite, hok]
    · by_cases hok : env.accepts (.dropInvite first) = true <;>
        simp [retireLocked, OrgTables.dropInvite, AList.lookup_erase_ne hfirst, hfirst, hok]

theorem orgs_retireLocked (tokens : List GoString) (db : OrgDB) :
    (tokens.foldl (retireLocked env) db).memory.orgs = db.memory.orgs ∧
      (tokens.foldl (retireLocked env) db).store.orgs = db.store.orgs := by
  induction tokens generalizing db with
  | nil => exact ⟨rfl, rfl⟩
  | cons first tokens ih =>
    rw [List.foldl_cons, (ih _).1, (ih _).2]
    exact retireLocked_orgs first

theorem orgs_liveLocked (inv : OrgInvite) :
    (db.liveLocked env inv).2.memory.orgs = db.memory.orgs ∧
      (db.liveLocked env inv).2.store.orgs = db.store.orgs := by
  unfold liveLocked
  split_ifs
  · exact ⟨rfl, rfl⟩
  · exact ⟨rfl, rfl⟩
  · exact ⟨rfl, rfl⟩
  · exact retireLocked_orgs inv.token

theorem orgs_sweep (call : OrgCall) (w : OrgWrite) :
    (db.sweep env call w).memory.orgs = db.memory.orgs ∧
      (db.sweep env call w).store.orgs = db.store.orgs := by
  unfold sweep
  split
  · exact orgs_retireLocked _ db
  · exact ⟨rfl, rfl⟩

/-! ### One write -/

end OrgDB

/-- What a write leaves, in memory as in the store. -/
def OrgTables.apply (t : OrgTables) (name : GoString) (now : Time) : OrgWrite → OrgTables
  | .org id rows => t.setOrg id ⟨name, now, rows⟩
  | .member id email row => t.putMember id email row

/-- What the store is asked. -/
def OrgWrite.put : OrgWrite → OrgPut
  | .org id _ => .org id
  | .member id email _ => .member id email

/-- A new org takes nobody's place. -/
def OrgTables.Fresh (t : OrgTables) (w : OrgWrite) : Prop :=
  ∀ id rows, w = .org id rows → t.orgs id = none

@[simp] theorem OrgTables.apply_invites (t : OrgTables) (name : GoString) (now : Time)
    (w : OrgWrite) : (t.apply name now w).invites = t.invites := by
  cases w <;> rfl

theorem OrgTables.putMember_eq {t : OrgTables} {id email : GoString} {row : Option OrgMember}
    {prev : OrgRecord} (h : t.orgs id = some prev) : t.putMember id email row =
      t.setOrg id { prev with rows := Beardrive.putMember email row prev.rows } := by
  simp only [putMember, setOrg, h, Option.map_some]

theorem OrgTables.putMember_of_none {t : OrgTables} {id email : GoString}
    {row : Option OrgMember} (h : t.orgs id = none) : t.putMember id email row = t := by
  simp only [putMember, h, Option.map_none]
  rw [← h, Function.update_eq_self]

namespace OrgDB

variable {env : OrgEnv} {db : OrgDB}

/-- **A write reaches memory and store, or neither.** -/
theorem write_eq (name : GoString) {w : OrgWrite} (h : db.InStep) (hfresh : db.memory.Fresh w) :
    (db.write env name w).2 = if env.accepts w.put then
      ⟨db.memory.apply name env.now w, db.store.apply name env.now w⟩ else db := by
  cases w with
  | org id rows =>
    cases hok : env.accepts (.org id)
    · simp only [write, OrgWrite.put, hok, Bool.false_eq_true, if_false]
      rw [OrgTables.dropOrg_setOrg (hfresh id rows rfl)]
    · simp only [write, OrgWrite.put, OrgTables.apply, hok, if_true]
  | member id email row =>
    simp only [write, OrgWrite.put, OrgTables.apply]
    cases hprev : db.memory.orgs id with
    | none =>
      have hstore : db.store.orgs id = none := congrFun h id ▸ hprev
      rw [OrgTables.putMember_of_none hprev, OrgTables.putMember_of_none hstore]
      exact (ite_self db).symm
    | some prev =>
      have hstore : db.store.orgs id = some prev := congrFun h id ▸ hprev
      rw [OrgTables.putMember_eq hprev, OrgTables.putMember_eq hstore]
      by_cases hok : env.accepts (.member id email) = true
      · simp only [hok, if_true, ite_self]
      · simp only [hok, if_false, OrgTables.setOrg_setOrg hprev, Bool.false_eq_true]

/-- The answer of a write is the store's. -/
theorem write_answer (name : GoString) (w : OrgWrite) :
    (db.write env name w).1 = env.accepts w.put := by
  cases w with
  | org id rows =>
    simp only [write, OrgWrite.put]
    split <;> simp_all
  | member id email row =>
    simp only [write, OrgWrite.put]
    split
    · rfl
    · split <;> simp_all

theorem InStep.apply (h : db.InStep) (name : GoString) (now : Time) (w : OrgWrite) :
    (OrgDB.mk (db.memory.apply name now w) (db.store.apply name now w)).InStep := by
  have horgs : db.memory.orgs = db.store.orgs := h
  cases w <;> simp only [InStep, OrgTables.apply, OrgTables.setOrg, OrgTables.putMember, horgs]

theorem InStep.sweep (h : db.InStep) (call : OrgCall) (w : OrgWrite) :
    (db.sweep env call w).InStep := by
  rw [InStep, (orgs_sweep call w).1, (orgs_sweep call w).2]
  exact h

theorem InStep.write (h : db.InStep) (name : GoString) {w : OrgWrite}
    (hfresh : db.memory.Fresh w) : (db.write env name w).2.InStep := by
  rw [write_eq name h hfresh]
  split
  · exact h.apply name env.now w
  · exact h

/-! ### A call -/

/-- The invites of an account that is promoted are gone where an eviction promotes it, as far as
the store deletes those that were in memory. -/
structure Swept (env : OrgEnv) (db db' : OrgDB) (id x : GoString) : Prop where
  memory : ∀ token inv, db'.memory.invites.lookup token = some inv →
    ¬ (inv.org = id ∧ inv.creator = x)
  store : ∀ token inv, db.memory.invites.lookup token = some inv → inv.org = id →
    inv.creator = x → env.accepts (.dropInvite token) = true →
    db'.store.invites.lookup token = none

/-- What a call leaves: fewer invites, every org it found, and owners that were owners before,
founded the org, or were promoted. -/
structure Performed (env : OrgEnv) (call : OrgCall) (ws : List OrgWrite) (db db' : OrgDB) :
    Prop where
  inStep : db'.InStep
  memory : ∀ token inv, db'.memory.invites.lookup token = some inv →
    db.memory.invites.lookup token = some inv
  store : ∀ token inv, db'.store.invites.lookup token = some inv →
    db.store.invites.lookup token = some inv
  orgs : ∀ id, (db.memory.orgs id).isSome = true → (db'.memory.orgs id).isSome = true
  owner : ∀ id x, db'.memory.owner id x = true → db.memory.owner id x = true ∨
    (∃ rows, .org id rows ∈ ws) ∨ ∃ joined, .member id x (some ⟨.owner, joined⟩) ∈ ws ∧
      env.accepts (.member id x) = true ∧
      ((∃ o e, call = .evict o e) → Swept env db db' id x)

theorem Performed.nothing (h : db.InStep) (call : OrgCall) (ws : List OrgWrite) :
    Performed env call ws db db where
  inStep := h
  memory _ _ hinv := hinv
  store _ _ hinv := hinv
  orgs _ hid := hid
  owner _ _ hx := .inl hx

end OrgDB

/-- Who owns an org after a write. -/
theorem OrgTables.owner_apply {t : OrgTables} {name : GoString} {now : Time} {w : OrgWrite}
    {id x : GoString} (h : (t.apply name now w).owner id x = true) : t.owner id x = true ∨
      (∃ rows, w = .org id rows) ∨ ∃ joined, w = .member id x (some ⟨.owner, joined⟩) := by
  cases w with
  | org id' rows =>
    by_cases hid : id = id'
    · exact .inr (.inl ⟨rows, hid ▸ rfl⟩)
    · left
      simpa only [apply, setOrg, owner, Function.update_of_ne hid] using h
  | member id' e row =>
    by_cases hid : id = id'
    · subst hid
      simp only [owner, apply, putMember, Function.update_self, Option.any_map] at h
      obtain ⟨o, ho, howner⟩ := (Option.any_eq_true _ _).mp h
      by_cases hx : x = e
      · subst hx
        have hrole := isOwner_putMember_self.mp howner
        obtain ⟨m, rfl, hm⟩ := Option.map_eq_some_iff.mp hrole
        exact .inr (.inr ⟨m.joined, by rw [← hm]⟩)
      · have howner' : isOwner o.rows x = true := isOwner_putMember_of_ne hx ▸ howner
        exact .inl ((Option.any_eq_true _ _).mpr ⟨o, ho, howner'⟩)
    · left
      simpa only [apply, putMember, owner, Function.update_of_ne hid] using h

theorem OrgTables.isSome_apply {t : OrgTables} {name : GoString} {now : Time} (w : OrgWrite)
    {id : GoString} (h : (t.orgs id).isSome = true) :
    ((t.apply name now w).orgs id).isSome = true := by
  cases w with
  | org id' rows =>
    by_cases hid : id = id'
    · subst hid
      simp only [apply, setOrg, Function.update_self, Option.isSome_some]
    · simpa only [apply, setOrg, Function.update_of_ne hid] using h
  | member id' e row =>
    by_cases hid : id = id'
    · subst hid
      simpa only [apply, putMember, Function.update_self, Option.isSome_map] using h
    · simpa only [apply, putMember, Function.update_of_ne hid] using h

namespace OrgDB

variable {env : OrgEnv} {db : OrgDB}

/-- What the eviction of an owner leaves of the heir's invites. -/
theorem sweep_swept {org email id h : GoString} {m : OrgMember} :
    Swept env db (db.sweep env (.evict org email) (.member id h (some m))) id h := by
  have hmem : ∀ token inv, db.memory.invites.lookup token = some inv → inv.org = id →
      inv.creator = h → token ∈ (db.memory.invites.entries.filter fun row =>
        row.2.org = id && row.2.creator = h).map (·.1) := by
    intro token inv hinv hid hh
    refine List.mem_map.mpr ⟨⟨token, inv⟩, List.mem_filter.mpr ⟨?_, by simp [hid, hh]⟩, rfl⟩
    exact AList.mem_lookup_iff.mp hinv
  refine ⟨fun token inv hinv => ?_, fun token inv hinv hid hh hok => ?_⟩
  · rintro ⟨hid, hh⟩
    rw [sweep, lookup_retireLocked] at hinv
    split at hinv
    · cases hinv
    · rename_i hnot
      exact hnot (hmem token inv hinv hid hh)
  · rw [sweep, lookup_retireLocked_store, if_pos ⟨hmem token inv hinv hid hh, hok⟩]

theorem lookup_sweep (call : OrgCall) (w : OrgWrite) {token : GoString} {inv : OrgInvite}
    (h : (db.sweep env call w).memory.invites.lookup token = some inv) :
    db.memory.invites.lookup token = some inv := by
  unfold sweep at h
  split at h
  · rw [lookup_retireLocked] at h
    split at h
    · cases h
    · exact h
  · exact h

theorem lookup_sweep_store (call : OrgCall) (w : OrgWrite) {token : GoString} {inv : OrgInvite}
    (h : (db.sweep env call w).store.invites.lookup token = some inv) :
    db.store.invites.lookup token = some inv := by
  unfold sweep at h
  split at h
  · rw [lookup_retireLocked_store] at h
    split at h
    · cases h
    · exact h
  · exact h

/-- **A write leaves what `Performed` says.** -/
theorem performed_write (name : GoString) (call : OrgCall) {w : OrgWrite} (h : db.InStep)
    (hfresh : db.memory.Fresh w) :
    Performed env call [w] db ((db.sweep env call w).write env name w).2 := by
  have hsweep : (db.sweep env call w).memory.orgs = db.memory.orgs := (orgs_sweep call w).1
  have howner : ∀ id x, (db.sweep env call w).memory.owner id x = db.memory.owner id x :=
    fun id x => by rw [OrgTables.owner, hsweep, OrgTables.owner]
  have hfresh' : (db.sweep env call w).memory.Fresh w := fun id rows hw => by
    rw [hsweep]
    exact hfresh id rows hw
  rw [write_eq name (h.sweep call w) hfresh']
  split
  · rename_i hok
    refine ⟨(h.sweep call w).apply name env.now w, fun token inv hinv => ?_,
      fun token inv hinv => ?_, fun id hid => ?_, fun id x hx => ?_⟩
    · rw [OrgTables.apply_invites] at hinv
      exact lookup_sweep call w hinv
    · rw [OrgTables.apply_invites] at hinv
      exact lookup_sweep_store call w hinv
    · exact OrgTables.isSome_apply w (by rwa [hsweep])
    · rcases OrgTables.owner_apply hx with hbefore | ⟨rows, rfl⟩ | ⟨joined, rfl⟩
      · exact .inl (howner id x ▸ hbefore)
      · exact .inr (.inl ⟨rows, List.mem_singleton.mpr rfl⟩)
      · refine .inr (.inr ⟨joined, List.mem_singleton.mpr rfl, hok, ?_⟩)
        rintro ⟨o, e, rfl⟩
        have hswept := @sweep_swept env db o e id x ⟨.owner, joined⟩
        refine ⟨fun token inv hinv => hswept.memory token inv ?_,
          fun token inv hinv hid hcreator hdrop => ?_⟩
        · rwa [OrgTables.apply_invites] at hinv
        · rw [OrgTables.apply_invites]
          exact hswept.store token inv hinv hid hcreator hdrop
  · exact ⟨h.sweep call w, fun _ _ => lookup_sweep call w, fun _ _ => lookup_sweep_store call w,
      fun id hid => by rwa [hsweep], fun id x hx => .inl (howner id x ▸ hx)⟩

/-- The first of two writes, where it promotes nobody. -/
theorem Performed.cons {call : OrgCall} {id e : GoString} {ws : List OrgWrite} {s s' t : OrgDB}
    (h : Performed env call [.member id e none] s s') (hsame : s'.memory.invites = s.memory.invites)
    (ht : Performed env call ws s' t) : Performed env call (.member id e none :: ws) s t where
  inStep := ht.inStep
  memory token inv hinv := h.memory token inv (ht.memory token inv hinv)
  store token inv hinv := h.store token inv (ht.store token inv hinv)
  orgs id hid := ht.orgs id (h.orgs id hid)
  owner id' x hx := by
    rcases ht.owner id' x hx with hbefore | ⟨rows, hrows⟩ | ⟨joined, hmem, hok, hswept⟩
    · rcases h.owner id' x hbefore with hbefore | ⟨rows, hrows⟩ | ⟨joined, hmem, -⟩
      · exact .inl hbefore
      · cases List.mem_singleton.mp hrows
      · cases List.mem_singleton.mp hmem
    · exact .inr (.inl ⟨rows, List.mem_cons_of_mem _ hrows⟩)
    · refine .inr (.inr ⟨joined, List.mem_cons_of_mem _ hmem, hok, fun hcall => ?_⟩)
      exact ⟨(hswept hcall).memory, fun token inv hinv => (hswept hcall).store token inv (hsame ▸ hinv)⟩

theorem perform_singleton (name : GoString) (call : OrgCall) (w : OrgWrite) :
    (db.perform env name call [w]).2 = ((db.sweep env call w).write env name w).2 := by
  simp only [perform]
  split <;> rename_i hw <;> rw [hw]

section

variable {normEmail trimName : GoString → GoString}

/-- An org that a call makes has the id that was drawn. -/
theorem eq_fresh_of_mem_plan {call : OrgCall} {id : GoString} {rows : OrgRows}
    (h : .org id rows ∈ db.plan normEmail env call) : id = env.fresh := by
  unfold plan OrgCall.plan evictWrites at h
  cases call <;> grind

/-- **A call leaves what `Performed` says.** -/
theorem performed_plan (name : GoString) (call : OrgCall) (h : db.InStep)
    (hfresh : db.memory.orgs env.fresh = none) :
    Performed env call (db.plan normEmail env call) db
      (db.perform env name call (db.plan normEmail env call)).2 := by
  have hnew : ∀ w ∈ db.plan normEmail env call, db.memory.Fresh w := by
    rintro w hw id rows rfl
    rwa [eq_fresh_of_mem_plan hw]
  have hplanned := call.planned normEmail env.seniority db.rows env.fresh env.now []
  change OrgTask.Planned normEmail _ (db.plan normEmail env call) at hplanned
  revert hnew hplanned
  generalize db.plan normEmail env call = ws
  intro hnew hplanned
  cases hplanned with
  | none => exact .nothing h call []
  | org id rows owned =>
    rw [perform_singleton]
    exact performed_write name call h (hnew _ (List.mem_singleton.mpr rfl))
  | member id e row guarded =>
    rw [perform_singleton]
    exact performed_write name call h (hnew _ (List.mem_singleton.mpr rfl))
  | evict id email e heir joined hcall =>
    have hsweep : db.sweep env call (.member id e none) = db := by
      cases call <;> rfl
    have hfirst : Performed env call [.member id e none] db
        (db.write env name (.member id e none)).2 := by
      have hwrite := @performed_write env db name call _ h (hnew _ (List.mem_cons_self ..))
      rwa [hsweep] at hwrite
    have hsame : (db.write env name (.member id e none)).2.memory.invites = db.memory.invites := by
      rw [write_eq name h (hnew _ (List.mem_cons_self ..))]
      split
      · exact OrgTables.apply_invites ..
      · rfl
    rw [perform, hsweep]
    revert hfirst hsame
    generalize db.write env name (.member id e none) = answer
    obtain ⟨ok, db'⟩ := answer
    intro hfirst hsame
    cases ok with
    | false => exact hfirst.cons hsame (.nothing hfirst.inStep call _)
    | true =>
      refine hfirst.cons hsame ?_
      rw [perform_singleton]
      exact performed_write name call hfirst.inStep fun _ _ hw => nomatch hw

theorem performed_change (name : GoString) (call : OrgCall) (h : db.InStep)
    (hfresh : db.memory.orgs env.fresh = none) :
    Performed env call (db.plan normEmail env call) db
      (db.change normEmail trimName env name call).2 := by
  unfold change
  split
  · split
    · exact .nothing h _ _
    · exact performed_plan _ _ h hfresh
  · exact performed_plan _ _ h hfresh

/-- Where the store takes every write, a call succeeds. -/
theorem perform_answer (name : GoString) (call : OrgCall) (ws : List OrgWrite) (db : OrgDB)
    (h : ∀ w ∈ ws, env.accepts w.put = true) : (db.perform env name call ws).1 = true := by
  induction ws generalizing db with
  | nil => rfl
  | cons w ws ih =>
    have hw := @write_answer env (db.sweep env call w) name w
    rw [h w (List.mem_cons_self ..)] at hw
    rw [perform]
    revert hw
    generalize (db.sweep env call w).write env name w = answer
    obtain ⟨ok, db'⟩ := answer
    rintro rfl
    exact ih db' fun w hw => h w (List.mem_cons_of_mem _ hw)

/-- Where the first write is refused, the orgs are what they were. -/
theorem orgs_perform_unwritten (name : GoString) (call : OrgCall) {ws : List OrgWrite}
    (h : db.InStep) (hfresh : ∀ w ∈ ws, db.memory.Fresh w)
    (hall : ∀ w rest, ws = w :: rest → env.accepts w.put = true →
      ∀ w' ∈ rest, env.accepts w'.put = true)
    (hfail : (db.perform env name call ws).1 = false) :
    (db.perform env name call ws).2.memory.orgs = db.memory.orgs := by
  cases ws with
  | nil => cases hfail
  | cons w ws =>
    have hsweep : (db.sweep env call w).memory.orgs = db.memory.orgs := (orgs_sweep call w).1
    cases hok : env.accepts w.put
    · have hfresh' : (db.sweep env call w).memory.Fresh w := fun id rows hw => by
        rw [hsweep]
        exact hfresh w (List.mem_cons_self ..) id rows hw
      have hanswer := @write_answer env (db.sweep env call w) name w
      have hsame := @write_eq env _ name w (h.sweep call w) hfresh'
      rw [hok] at hanswer hsame
      rw [perform]
      revert hanswer hsame
      generalize (db.sweep env call w).write env name w = answer
      obtain ⟨ok, db'⟩ := answer
      rintro rfl hsame
      exact (congrArg (·.memory.orgs) hsame).trans hsweep
    · refine absurd hfail ?_
      rw [perform_answer name call (w :: ws) db fun w' hw' => ?_]
      · simp
      · rcases List.mem_cons.mp hw' with rfl | hw'
        · exact hok
        · exact hall w ws rfl hok w' hw'

theorem orgs_change_unwritten (name : GoString) (call : OrgCall) (h : db.InStep)
    (hfresh : db.memory.orgs env.fresh = none)
    (hall : ∀ w ws, db.plan normEmail env call = w :: ws → env.accepts w.put = true →
      ∀ w' ∈ ws, env.accepts w'.put = true)
    (hfail : (db.change normEmail trimName env name call).1 = false) :
    (db.change normEmail trimName env name call).2.memory.orgs = db.memory.orgs := by
  have hnew : ∀ w ∈ db.plan normEmail env call, db.memory.Fresh w := by
    rintro w hw id rows rfl
    rwa [eq_fresh_of_mem_plan hw]
  unfold change at hfail ⊢
  split at hfail
  · split at hfail
    · cases hfail
    · rename_i hname
      rw [if_neg hname]
      exact orgs_perform_unwritten _ _ h hnew hall hfail
  · exact orgs_perform_unwritten _ _ h hnew hall hfail

/-- **A renamed org has its name in both, or in neither.** -/
theorem rename_eq (id name : GoString) (h : db.InStep) :
    (db.rename trimName env id name).2 = db ∨ ∃ o, db.memory.orgs id = some o ∧
      (db.rename trimName env id name).2 = ⟨db.memory.setOrg id { o with name := trimName name },
        db.store.setOrg id { o with name := trimName name }⟩ := by
  unfold rename
  cases hid : db.memory.orgs id with
  | none => exact .inl rfl
  | some o =>
    have hstore : db.store.orgs id = some o := congrFun h id ▸ hid
    have hmeta : db.store.putOrgMeta id { o with name := trimName name } =
        db.store.setOrg id { o with name := trimName name } := by
      simp only [OrgTables.putOrgMeta, hstore, Option.map_some, Option.getD_some]
    simp only [putOrg, hmeta, ite_self]
    split
    · exact .inl rfl
    · split
      · exact .inr ⟨o, rfl, rfl⟩
      · exact .inl (by rw [OrgTables.setOrg_setOrg hid])

theorem rename_unwritten {id name : GoString} (hfail : (db.rename trimName env id name).1 = false) :
    (db.rename trimName env id name).2 = db := by
  unfold rename at hfail ⊢
  split at hfail
  · cases hfail
  rename_i o ho
  split at hfail
  · cases hfail
  rename_i hname
  simp only [putOrg] at hfail
  split at hfail
  · cases hfail
  rename_i hno
  simp only [if_neg hname, putOrg, if_neg hno]
  rw [OrgTables.setOrg_setOrg ho]

theorem InStep.rename (h : db.InStep) (id name : GoString) :
    (db.rename trimName env id name).2.InStep := by
  rcases rename_eq id name h with hsame | ⟨o, -, hnew⟩
  · rwa [hsame]
  · have horgs : db.memory.orgs = db.store.orgs := h
    rw [hnew, InStep, OrgTables.setOrg, OrgTables.setOrg, horgs]

end

end OrgDB

end Beardrive
