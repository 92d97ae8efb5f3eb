import Beardrive.Lib.GoTime
import Beardrive.Lib.Runs
import Mathlib.Data.List.AList

/-!
# Organizations

An org is administered by its owners, and nobody adopts one that has none. The registry therefore
refuses to remove or to demote the last owner, and when the last owner's account itself goes, it
promotes the member who has been there longest.

Both rules are decided on what a hub process read before it writes. The guard counts owners that
may have lost the role by the time the row is written. An eviction is two writes, and where the
second one fails, the retry finds no row to drop and promotes nobody.

## Main definitions

* `heir` — the member who inherits an org
* `OrgCall.plan` — the rows a call writes, decided on what it read
* `OrgHub.step` — one step of any process
* `OrgHub.Careful` — what a step must not do

## Main results

* `owned_of_careful` — after careful steps, an org with an heir has an owner
-/

namespace Beardrive

/-! ### Members and heirs -/

/-- `RoleOwner` and `RoleMember`. -/
inductive OrgRole where
  | owner
  | member
  deriving DecidableEq, Repr

/-- The role a text names. -/
def OrgRole.parse (role : GoString) : Option OrgRole :=
  if role = ascii "owner" then some .owner
  else if role = ascii "member" then some .member
  else none

/-- A membership row: the role, and when the account joined. -/
structure OrgMember where
  role : OrgRole
  joined : Time
  deriving DecidableEq, Repr

/-- `Org.Members` and `Org.Joined`: one row for each account. -/
abbrev OrgRows := AList fun _ : GoString => OrgMember

/-- An account is an owner of the org. -/
def isOwner (o : OrgRows) (e : GoString) : Bool := (o.lookup e).any (·.role == .owner)

/-- `OrgDB.ownerCount`. -/
def ownerCount (o : OrgRows) : ℕ := (o.entries.filter (·.2.role == .owner)).length

/-- The variables of the loop in `OrgDB.heir`. -/
structure HeirScan where
  heir : GoString := []
  joined : Time := {}
  tied : Bool := false

/-- The body of the loop. -/
def HeirScan.next (scan : HeirScan) (row : Sigma fun _ : GoString => OrgMember) : HeirScan :=
  if scan.heir = [] then { heir := row.1, joined := row.2.joined }
  else if row.2.joined.before scan.joined then { heir := row.1, joined := row.2.joined }
  else if row.2.joined.equal scan.joined then { scan with tied := true }
  else scan

section

variable (normEmail : GoString → GoString)

/-- `OrgDB.heir`: who has been in the org longest; among those who tie, the account that has been
on the hub longest, where accounts are listed at all. -/
def heir (seniority : Option (List GoString)) (o : OrgRows) : GoString :=
  let scan := o.entries.foldl HeirScan.next {}
  if scan.tied then
    match seniority with
    | none => []
    | some accounts => ((accounts.map normEmail).find? fun e =>
        (o.lookup e).any (·.joined.equal scan.joined)).getD []
  else scan.heir

/-! ### Calls -/

/-- A write to the store: a whole org, or one membership row, which goes where there is no role. -/
inductive OrgWrite where
  | org (id : GoString) (rows : OrgRows)
  | member (id email : GoString) (row : Option OrgMember)

/-- `PutMember`, on the rows of the org. -/
def putMember (email : GoString) (row : Option OrgMember) (o : OrgRows) : OrgRows :=
  match row with
  | none => o.erase email
  | some m => o.insert email m

/-- `PutOrg` and `PutMember`. -/
def OrgWrite.apply (orgs : GoString → Option OrgRows) : OrgWrite → GoString → Option OrgRows
  | .org id rows => Function.update orgs id (some rows)
  | .member id email row => Function.update orgs id ((orgs id).map (putMember email row))

/-- The calls that change who is in an org. -/
inductive OrgCall where
  | create (owner : GoString)
  | add (org email role : GoString)
  | remove (org email : GoString)
  | evict (org email : GoString)
  | setRole (org email role : GoString)
  deriving DecidableEq, Repr

/-- What `EvictMember` writes: the row goes, and the heir of an org without owners is promoted. -/
def evictWrites (seniority : Option (List GoString)) (id e : GoString) (o : OrgRows) :
    List OrgWrite :=
  let next := o.erase e
  let h := heir normEmail seniority next
  if isOwner o e && ownerCount next = 0 && h ≠ [] then
    [.member id e none, .member id h (some ⟨.owner, (next.lookup h).elim {} (·.joined)⟩)]
  else [.member id e none]

/-- What a call writes, decided on the orgs it read. A call that is refused writes nothing. -/
def OrgCall.plan (seniority : Option (List GoString)) (orgs : GoString → Option OrgRows)
    (newID : GoString) (now : Time) : OrgCall → List OrgWrite
  | .create owner =>
    let e := normEmail owner
    [.org newID (if e = [] then ∅ else AList.singleton e ⟨.owner, now⟩)]
  | .add id email role =>
    let e := normEmail email
    match OrgRole.parse role, orgs id with
    | some r, some o =>
      if e = [] || isOwner o e then []
      else [.member id e (some ⟨r, (o.lookup e).elim now (·.joined)⟩)]
    | _, _ => []
  | .remove id email =>
    let e := normEmail email
    match orgs id with
    | some o =>
      if isOwner o e && ownerCount o ≤ 1 then []
      else if (o.lookup e).isSome then [.member id e none]
      else []
    | none => []
  | .evict id email =>
    let e := normEmail email
    match orgs id with
    | some o => if (o.lookup e).isSome then evictWrites normEmail seniority id e o else []
    | none => []
  | .setRole id email role =>
    let e := normEmail email
    match OrgRole.parse role, orgs id with
    | some r, some o =>
      match o.lookup e with
      | some m =>
        if m.role = .owner && r = .member && ownerCount o ≤ 1 then []
        else [.member id e (some { m with role := r })]
      | none => []
    | _, _ => []

/-! ### Processes -/

/-- A call on its way: what it read, and what it has left to write. -/
structure OrgTask where
  call : OrgCall
  seen : GoString → Option OrgRows
  seniority : Option (List GoString)
  left : List OrgWrite

/-- The orgs, the accounts by seniority, the call each process is at, and the calls that failed
and have not been retried with success. -/
structure OrgHub (ι : Type*) where
  orgs : GoString → Option OrgRows := fun _ => none
  seniority : Option (List GoString) := none
  task : ι → Option OrgTask := fun _ => none
  owed : List OrgCall := []

/-- What can happen: a process reads the orgs and decides, it writes what is next, its call
returns or fails, and accounts come and go. -/
inductive OrgEvent (ι : Type*) where
  | begin_ (i : ι) (call : OrgCall) (newID : GoString) (now : Time)
  | write (i : ι)
  | finish (i : ι)
  | fail (i : ι)
  | accounts (seniority : Option (List GoString))

variable {ι : Type*} [DecidableEq ι]

/-- A process goes on with a call, or ends it. -/
def OrgHub.set (s : OrgHub ι) (i : ι) (t : Option OrgTask) : OrgHub ι :=
  { s with task := Function.update s.task i t }

/-- One step, where it is possible. -/
def OrgHub.step (s : OrgHub ι) : OrgEvent ι → Option (OrgHub ι)
  | .begin_ i call newID now =>
    match s.task i with
    | none => some (s.set i (some ⟨call, s.orgs, s.seniority,
        call.plan normEmail s.seniority s.orgs newID now⟩))
    | some _ => none
  | .write i =>
    match s.task i with
    | some ⟨call, seen, seniority, w :: ws⟩ =>
      some { s.set i (some ⟨call, seen, seniority, ws⟩) with orgs := w.apply s.orgs }
    | _ => none
  | .finish i =>
    match s.task i with
    | some ⟨call, _, _, []⟩ =>
      some { s.set i none with owed := s.owed.filter (· ≠ call) }
    | _ => none
  | .fail i =>
    match s.task i with
    | some t => some { s.set i none with owed := t.call :: s.owed }
    | none => none
  | .accounts seniority => some { s with seniority }

/-- What is left after a list of events, where all of them are possible. -/
def OrgHub.run (s : OrgHub ι) (evs : List (OrgEvent ι)) : Option (OrgHub ι) :=
  evs.foldlM (OrgHub.step normEmail) s

/-! ### What a step must not do -/

/-- An eviction that has dropped the row and has the promotion left to write. -/
def OrgTask.Promotes (t : OrgTask) (id : GoString) : Prop :=
  (∃ email, t.call = .evict id email) ∧
    ∃ e joined, t.left = [.member id e (some ⟨.owner, joined⟩)]

/-- Nobody owns the org, and nobody is about to be promoted. -/
def OrgHub.Ownerless (s : OrgHub ι) (id : GoString) (o : OrgRows) : Prop :=
  (∀ e, isOwner o e = false) ∧ ∀ i t, s.task i = some t → ¬ t.Promotes id

/-- Where the last write of a call takes the role from an owner, the org and the accounts are as
the call saw them, or another owner it saw is still one; and where the org has no owner, nobody
can inherit it afterwards. -/
structure OrgHub.CarefulWrite (s : OrgHub ι) (t : OrgTask) (id e : GoString)
    (row : Option OrgMember) (o : OrgRows) : Prop where
  takes : isOwner o e = true → (t.seen id = some o ∧ t.seniority = s.seniority) ∨
    ∃ seen x, t.seen id = some seen ∧ x ≠ e ∧ isOwner seen x = true ∧ isOwner o x = true
  leaves : s.Ownerless id o → heir normEmail s.seniority (putMember e row o) = []

/-- The steps that do not act on what has changed since, give up a promotion, or leave an heir to
an org without owners. -/
def OrgHub.Careful (s : OrgHub ι) : OrgEvent ι → Prop
  | .write i => ∀ t id e row o, s.task i = some t → t.left = [.member id e row] →
      row.map (·.role) ≠ some .owner → s.orgs id = some o →
      s.CarefulWrite normEmail t id e row o
  | .fail i => ∀ t id o, s.task i = some t → t.Promotes id → s.orgs id = some o →
      ∃ x, isOwner o x = true
  | .accounts seniority => ∀ id o, s.orgs id = some o → s.Ownerless id o →
      heir normEmail seniority o = []
  | _ => True

/-- A step of any kind. -/
def OrgHub.Next (s s' : OrgHub ι) : Prop := ∃ ev, s.step normEmail ev = some s'

/-- A careful step. -/
def OrgHub.CarefulNext (s s' : OrgHub ι) : Prop :=
  ∃ ev, s.Careful normEmail ev ∧ s.step normEmail ev = some s'

/-- No call is on its way, and those that failed have been retried with success. -/
def OrgHub.Settled (s : OrgHub ι) : Prop := (∀ i, s.task i = none) ∧ s.owed = []

/-- An org with a member who can inherit it has an owner. -/
def OrgHub.Owned (s : OrgHub ι) : Prop :=
  ∀ id o, s.orgs id = some o →
    (∃ m ∈ o, m ≠ [] ∧ heir normEmail s.seniority o = m) → ∃ e, isOwner o e = true

/-! ### Rows -/

omit normEmail in
theorem isOwner_iff {o : OrgRows} {e : GoString} :
    isOwner o e = true ↔ ∃ m, o.lookup e = some m ∧ m.role = .owner := by
  simp [isOwner, Option.any_eq_true]

@[simp] theorem isOwner_empty (e : GoString) : isOwner ∅ e = false := by
  simp [isOwner]

theorem isOwner_putMember_self {o : OrgRows} {e : GoString} {row : Option OrgMember} :
    isOwner (putMember e row o) e = true ↔ row.map (·.role) = some .owner := by
  cases row <;> simp [putMember, isOwner]

theorem isOwner_putMember_of_ne {o : OrgRows} {e x : GoString} {row : Option OrgMember}
    (h : x ≠ e) : isOwner (putMember e row o) x = isOwner o x := by
  cases row <;> simp [putMember, isOwner, AList.lookup_erase_ne h, AList.lookup_insert_ne h]

/-- Where two owners are counted, one of them is somebody else. -/
theorem exists_other_owner {o : OrgRows} (h : 1 < ownerCount o) (e : GoString) :
    ∃ x ≠ e, isOwner o x = true := by
  by_contra hno
  have hkeys : ∀ k ∈ (o.entries.filter (·.2.role == .owner)).keys, k = e := by
    intro k hk
    obtain ⟨row, hrow, rfl⟩ := List.mem_map.mp hk
    obtain ⟨hmem, hrole⟩ := List.mem_filter.mp hrow
    by_contra hke
    exact hno ⟨row.1, hke, isOwner_iff.mpr
      ⟨row.2, AList.mem_lookup_iff.mpr hmem, beq_iff_eq.mp hrole⟩⟩
  have hnodup : (o.entries.filter (·.2.role == .owner)).keys.Nodup :=
    o.nodupKeys.sublist List.filter_sublist
  rw [List.eq_replicate_of_mem hkeys, List.nodup_replicate] at hnodup
  have hlength : (o.entries.filter (·.2.role == .owner)).keys.length ≤ 1 := hnodup
  rw [List.keys, List.length_map] at hlength
  exact absurd h (not_lt.mpr hlength)

theorem isOwner_of_ownerCount {o : OrgRows} (h : ownerCount o ≠ 0) :
    ∃ x, isOwner o x = true := by
  obtain ⟨row, hrow⟩ := List.exists_mem_of_ne_nil _ (List.length_pos_iff.mp (Nat.pos_of_ne_zero h))
  obtain ⟨hmem, hrole⟩ := List.mem_filter.mp hrow
  exact ⟨row.1, isOwner_iff.mpr ⟨row.2, AList.mem_lookup_iff.mpr hmem, beq_iff_eq.mp hrole⟩⟩

@[simp] theorem heir_empty (seniority : Option (List GoString)) :
    heir normEmail seniority ∅ = [] := by
  simp [heir]

/-! ### What a call has left to write -/

/-- The guards of a call, on the org it read: where it takes the role from an owner, there is
another one, or nobody to inherit the org. -/
def Guarded (seniority : Option (List GoString)) (seen : GoString → Option OrgRows)
    (id e : GoString) (row : Option OrgMember) : Prop :=
  ∀ o, seen id = some o → isOwner o e = true → row.map (·.role) ≠ some .owner →
    (∃ x ≠ e, isOwner o x = true) ∨ heir normEmail seniority (putMember e row o) = []

/-- The writes a call has left. -/
inductive OrgTask.Planned (t : OrgTask) : List OrgWrite → Prop
  | none : Planned t []
  | org (id : GoString) (rows : OrgRows) (owned : rows = ∅ ∨ ∃ e, isOwner rows e = true) :
    Planned t [.org id rows]
  | member (id e : GoString) (row : Option OrgMember)
    (guarded : Guarded normEmail t.seniority t.seen id e row) : Planned t [.member id e row]
  | evict (id email e h : GoString) (joined : Time) (call : t.call = .evict id email) :
    Planned t [.member id e none, .member id h (some ⟨.owner, joined⟩)]

theorem guarded_owner {seniority : Option (List GoString)} {seen : GoString → Option OrgRows}
    {id e : GoString} {joined : Time} :
    Guarded normEmail seniority seen id e (some ⟨.owner, joined⟩) :=
  fun _ _ _ hne => absurd rfl hne

/-- **The guards of a call hold of what it read.** -/
theorem OrgCall.planned (call : OrgCall) (seniority : Option (List GoString))
    (seen : GoString → Option OrgRows) (newID : GoString) (now : Time) (left : List OrgWrite) :
    OrgTask.Planned normEmail ⟨call, seen, seniority, left⟩
      (call.plan normEmail seniority seen newID now) := by
  cases call with
  | create owner =>
    refine .org _ _ ?_
    split
    · exact .inl rfl
    · exact .inr ⟨normEmail owner, by simp [isOwner, AList.lookup, AList.singleton]⟩
  | add id email role =>
    simp only [plan]
    split
    · rename_i r o hr ho
      split
      · exact .none
      · rename_i hguard
        refine .member _ _ _ fun o' ho' howner => ?_
        cases ho.symm.trans ho'
        simp [howner] at hguard
    · exact .none
  | remove id email =>
    simp only [plan]
    split
    · rename_i o ho
      split
      · exact .none
      rename_i hguard
      split
      · refine .member _ _ _ fun o' ho' howner _ => .inl ?_
        cases ho.symm.trans ho'
        exact exists_other_owner (by simpa [howner] using hguard) _
      · exact .none
    · exact .none
  | evict id email =>
    simp only [plan]
    split
    · rename_i o ho
      split
      · rw [evictWrites]
        split
        · exact .evict _ _ _ _ _ rfl
        · rename_i hguard
          refine .member _ _ _ fun o' ho' howner _ => ?_
          cases ho.symm.trans ho'
          by_cases hcount : ownerCount (o.erase (normEmail email)) = 0
          · exact .inr (by simpa [howner, hcount, putMember] using hguard)
          · obtain ⟨x, hx⟩ := isOwner_of_ownerCount hcount
            have hne : x ≠ normEmail email := by
              rintro rfl
              simp [isOwner] at hx
            exact .inl ⟨x, hne, by rwa [isOwner, AList.lookup_erase_ne hne] at hx⟩
      · exact .none
    · exact .none
  | setRole id email role =>
    simp only [plan]
    split
    · rename_i r o hr ho
      split
      · rename_i m hm
        split
        · exact .none
        · rename_i hguard
          refine .member _ _ _ fun o' ho' howner hrole => .inl ?_
          cases ho.symm.trans ho'
          obtain ⟨m', hm', hrole'⟩ := isOwner_iff.mp howner
          cases hm.symm.trans hm'
          have hr' : r = .member := by cases r <;> simp_all
          exact exists_other_owner (by simpa [hrole', hr'] using hguard) _
      · exact .none
    · exact .none

/-! ### One step -/

@[simp] theorem OrgHub.set_task_self (s : OrgHub ι) (i : ι) (t : Option OrgTask) :
    (s.set i t).task i = t :=
  Function.update_self _ _ _

theorem OrgHub.set_task_of_ne (s : OrgHub ι) {i j : ι} (t : Option OrgTask) (h : j ≠ i) :
    (s.set i t).task j = s.task j :=
  Function.update_of_ne h _ _

/-- An org has an owner, or nobody to inherit it, or a promotion on its way. -/
def OrgHub.Provided (s : OrgHub ι) (id : GoString) (o : OrgRows) : Prop :=
  (∃ x, isOwner o x = true) ∨ heir normEmail s.seniority o = [] ∨
    ∃ i t, s.task i = some t ∧ t.Promotes id

/-- Calls have left what their guards allow, and every org is provided for. -/
structure OrgHub.Sound (s : OrgHub ι) : Prop where
  task : ∀ i t, s.task i = some t → t.Planned normEmail t.left
  provided : ∀ id o, s.orgs id = some o → s.Provided normEmail id o

omit [DecidableEq ι] in
theorem OrgHub.sound_init : ({} : OrgHub ι).Sound normEmail where
  task _ _ h := absurd h (by simp)
  provided _ _ h := absurd h (by simp)

variable {normEmail}

omit [DecidableEq ι] in
theorem OrgHub.of_not_ownerless {s : OrgHub ι} {id : GoString} {o : OrgRows}
    (h : ¬ s.Ownerless id o) :
    (∃ x, isOwner o x = true) ∨ ∃ i t, s.task i = some t ∧ t.Promotes id := by
  by_contra hno
  refine h ⟨fun e => ?_, fun i t hi ht => hno (.inr ⟨i, t, hi, ht⟩)⟩
  exact Bool.eq_false_iff.mpr fun he => hno (.inl ⟨e, he⟩)

/-- A process that is not about to promote anybody may go on. -/
theorem OrgHub.Provided.set {s : OrgHub ι} {id : GoString} {o : OrgRows} {i : ι}
    {t : Option OrgTask} (h : s.Provided normEmail id o)
    (hi : ∀ t, s.task i = some t → ¬ t.Promotes id) : (s.set i t).Provided normEmail id o := by
  rcases h with h | h | ⟨j, u, hj, hu⟩
  · exact .inl h
  · exact .inr (.inl h)
  · have hne : j ≠ i := by
      rintro rfl
      exact hi u hj hu
    exact .inr (.inr ⟨j, u, (s.set_task_of_ne t hne).trans hj, hu⟩)

/-- What is left after a write is still what the guards allow. -/
theorem OrgTask.Planned.tail {t : OrgTask} {w : OrgWrite} {ws : List OrgWrite}
    (h : t.Planned normEmail (w :: ws)) :
    OrgTask.Planned normEmail { t with left := ws } ws := by
  cases h with
  | org id rows owned => exact .none
  | member id e row guarded => exact .none
  | evict id email e h joined call => exact .member _ _ _ (guarded_owner normEmail)

theorem OrgHub.Sound.set {s : OrgHub ι} (h : s.Sound normEmail) {i : ι} {t : Option OrgTask}
    (ht : ∀ u, t = some u → u.Planned normEmail u.left) (j : ι) (u : OrgTask)
    (hj : (s.set i t).task j = some u) : u.Planned normEmail u.left := by
  by_cases hji : j = i
  · subst hji
    exact ht u ((s.set_task_self j t).symm.trans hj)
  · exact h.task j u ((s.set_task_of_ne t hji).symm.trans hj)

/-- **The last write of a call leaves an owner, or nobody to inherit the org.** -/
theorem OrgHub.provided_putMember {s : OrgHub ι} {i : ι} {t : OrgTask} {id e : GoString}
    {row : Option OrgMember} {o : OrgRows} (hi : s.task i = some t)
    (hleft : t.left = [.member id e row])
    (guarded : Guarded normEmail t.seniority t.seen id e row)
    (careful : row.map (·.role) ≠ some .owner → s.CarefulWrite normEmail t id e row o) :
    (s.set i (some { t with left := [] })).Provided normEmail id (putMember e row o) := by
  by_cases hrow : row.map (·.role) = some .owner
  · exact .inl ⟨e, isOwner_putMember_self.mpr hrow⟩
  have hpromotes : ∀ u, s.task i = some u → ¬ u.Promotes id := by
    rintro u hu ⟨-, e', joined, hleft'⟩
    cases hi.symm.trans hu
    cases hleft.symm.trans hleft'
    exact hrow rfl
  by_cases howner : ∃ x, isOwner o x = true
  · obtain ⟨x, hx⟩ := howner
    by_cases hxe : x = e
    · subst hxe
      rcases (careful hrow).takes hx with ⟨hseen, hseniority⟩ | ⟨-, y, -, hy, -, hyo⟩
      · rcases guarded o hseen hx hrow with ⟨y, hy, hyo⟩ | hheir
        · exact .inl ⟨y, by rwa [isOwner_putMember_of_ne hy]⟩
        · exact .inr (.inl (hseniority ▸ hheir))
      · exact .inl ⟨y, by rwa [isOwner_putMember_of_ne hy]⟩
    · exact .inl ⟨x, by rwa [isOwner_putMember_of_ne hxe]⟩
  · by_cases hless : s.Ownerless id o
    · exact .inr (.inl ((careful hrow).leaves hless))
    · rcases OrgHub.of_not_ownerless hless with hown | hp
      · exact absurd hown howner
      · have hp' : s.Provided normEmail id (putMember e row o) := .inr (.inr hp)
        exact hp'.set hpromotes

/-- **A careful write keeps every org provided for.** -/
theorem OrgHub.Sound.write {s : OrgHub ι} (h : s.Sound normEmail) {i : ι} {call : OrgCall}
    {seen : GoString → Option OrgRows} {seniority : Option (List GoString)} {w : OrgWrite}
    {ws : List OrgWrite} (hi : s.task i = some ⟨call, seen, seniority, w :: ws⟩)
    (careful : s.Careful normEmail (.write i)) :
    ({ s.set i (some ⟨call, seen, seniority, ws⟩) with orgs := w.apply s.orgs } :
      OrgHub ι).Sound normEmail := by
  have hplanned := h.task i _ hi
  refine ⟨h.set fun u hu => Option.some.inj hu ▸ hplanned.tail, fun id o ho => ?_⟩
  cases hplanned with
  | org id' rows owned =>
    by_cases hid : id = id'
    · subst hid
      cases (Function.update_self (f := s.orgs) _ _).symm.trans ho
      rcases owned with rfl | howned
      · exact .inr (.inl (heir_empty normEmail _))
      · exact .inl howned
    · refine (h.provided id o ((Function.update_of_ne hid _ _).symm.trans ho)).set ?_
      rintro u hu ⟨-, e', joined, hleft⟩
      cases hi.symm.trans hu
      cases hleft
  | member id' e row guarded =>
    by_cases hid : id = id'
    · subst hid
      obtain ⟨o', ho', rfl⟩ := Option.map_eq_some_iff.mp
        ((Function.update_self (f := s.orgs) _ _).symm.trans ho)
      exact OrgHub.provided_putMember hi rfl guarded fun hrow =>
        careful _ id e row o' hi rfl hrow ho'
    · refine (h.provided id o ((Function.update_of_ne hid _ _).symm.trans ho)).set ?_
      rintro u hu ⟨-, e', joined, hleft⟩
      cases hi.symm.trans hu
      cases hleft
      exact hid rfl
  | evict id' email e heir' joined hcall =>
    by_cases hid : id = id'
    · subst hid
      exact .inr (.inr ⟨i, _, s.set_task_self i _, ⟨email, hcall⟩, heir', joined, rfl⟩)
    · refine (h.provided id o ((Function.update_of_ne hid _ _).symm.trans ho)).set ?_
      rintro u hu ⟨-, e', joined', hleft⟩
      cases hi.symm.trans hu
      cases hleft

/-- **A careful step keeps every org provided for.** -/
theorem OrgHub.Sound.step {s s' : OrgHub ι} (h : s.Sound normEmail)
    (hstep : s.CarefulNext normEmail s') : s'.Sound normEmail := by
  obtain ⟨ev, careful, hev⟩ := hstep
  cases ev with
  | begin_ i call newID now =>
    simp only [OrgHub.step] at hev
    split at hev
    · rename_i hi
      cases hev
      refine ⟨h.set fun u hu => Option.some.inj hu ▸ call.planned .., fun id o ho => ?_⟩
      exact (h.provided id o ho).set fun t ht => absurd (hi.symm.trans ht) (by simp)
    · cases hev
  | write i =>
    simp only [OrgHub.step] at hev
    split at hev
    · rename_i hi
      cases hev
      exact h.write hi careful
    · cases hev
  | finish i =>
    simp only [OrgHub.step] at hev
    split at hev
    · rename_i hi
      cases hev
      refine ⟨h.set fun u hu => absurd hu (by simp), fun id o ho => (h.provided id o ho).set ?_⟩
      rintro u hu ⟨-, e, joined, hleft⟩
      cases hi.symm.trans hu
      cases hleft
    · cases hev
  | fail i =>
    simp only [OrgHub.step] at hev
    split at hev
    · rename_i t hi
      cases hev
      refine ⟨h.set fun u hu => absurd hu (by simp), fun id o ho => ?_⟩
      by_cases hp : t.Promotes id
      · exact .inl (careful t id o hi hp ho)
      · refine (h.provided id o ho).set fun u hu => ?_
        cases hi.symm.trans hu
        exact hp
    · cases hev
  | accounts seniority =>
    cases hev
    refine ⟨h.task, fun id o ho => ?_⟩
    by_cases hless : s.Ownerless id o
    · exact .inr (.inl (careful id o ho hless))
    · rcases OrgHub.of_not_ownerless hless with hown | hp
      · exact .inl hown
      · exact .inr (.inr hp)

/-! ### Runs -/

/-- **An org that somebody can inherit has an owner.** After careful steps of any processes, with
no call on its way. -/
theorem owned_of_careful {s : OrgHub ι}
    (h : Relation.ReflTransGen (OrgHub.CarefulNext normEmail) {} s) (hs : s.Settled) :
    s.Owned normEmail := by
  have hsound : s.Sound normEmail :=
    Runs.invariant h (fun _ _ => OrgHub.Sound.step) (OrgHub.sound_init normEmail)
  rintro id o ho ⟨m, -, hne, hheir⟩
  rcases hsound.provided id o ho with hown | hno | ⟨i, t, hi, -⟩
  · exact hown
  · exact absurd (hheir.symm.trans hno) hne
  · exact absurd ((hs.1 i).symm.trans hi) (by simp)

/-- An org whose owner is evicted has the other member for its owner. -/
theorem owned_of_careful_eviction : ∃ s : OrgHub Unit,
    (s.orgs (ascii "o")).map (·.entries.map (·.1)) = some [ascii "m"] ∧ s.Owned id := by
  have hrun : ∃ s : OrgHub Unit, Relation.ReflTransGen (OrgHub.CarefulNext id) {} s ∧
      s.Settled ∧ (s.orgs (ascii "o")).map (·.entries.map (·.1)) = some [ascii "m"] := by
    refine ⟨_, .head ⟨.begin_ () (.create (ascii "a")) (ascii "o") {}, trivial, rfl⟩ <|
      .head ⟨.write (), ?_, rfl⟩ <| .head ⟨.finish (), trivial, rfl⟩ <|
      .head ⟨.begin_ () (.add (ascii "o") (ascii "m") (ascii "member")) [] {}, trivial, rfl⟩ <|
      .head ⟨.write (), ?_, rfl⟩ <| .head ⟨.finish (), trivial, rfl⟩ <|
      .head ⟨.begin_ () (.evict (ascii "o") (ascii "a")) [] {}, trivial, rfl⟩ <|
      .head ⟨.write (), ?_, rfl⟩ <| .head ⟨.write (), ?_, rfl⟩ <|
      .single ⟨.finish (), trivial, rfl⟩, ⟨fun _ => rfl, ?_⟩, ?_⟩
    · intro t id e row o hi hleft
      cases Option.some.inj hi
      cases hleft
    · intro t id e row o hi hleft _ ho
      cases Option.some.inj hi
      cases hleft
      cases Option.some.inj ho
      refine ⟨fun howner => absurd howner (by decide +kernel), fun hless => ?_⟩
      exact absurd (hless.1 (ascii "a")) (by decide +kernel)
    · intro t id e row o hi hleft
      cases Option.some.inj hi
      cases hleft
    · intro t id e row o hi hleft hrow
      cases Option.some.inj hi
      cases hleft
      exact absurd rfl hrow
    · decide +kernel
    · decide +kernel
  obtain ⟨s, hs, hsettled, hentries⟩ := hrun
  exact ⟨s, hentries, owned_of_careful hs hsettled⟩

/-- A list of events that can all happen is a run. -/
theorem OrgHub.runs_of_run (evs : List (OrgEvent ι)) {s s' : OrgHub ι}
    (h : s.run normEmail evs = some s') :
    Relation.ReflTransGen (OrgHub.Next normEmail) s s' := by
  induction evs generalizing s with
  | nil =>
    cases h
    exact .refl
  | cons ev evs ih =>
    rw [run, List.foldlM_cons, Option.bind_eq_bind, Option.bind_eq_some_iff] at h
    obtain ⟨t, ht, hrest⟩ := h
    exact .head ⟨ev, ht⟩ (ih hrest)

end

/-- The owner of an org with one other member is evicted. The promotion fails, and the retry finds
nobody to evict. -/
def halfEvicted : List (OrgEvent Unit) :=
  let add := OrgCall.add (ascii "o") (ascii "m") (ascii "member")
  let evict := OrgCall.evict (ascii "o") (ascii "a")
  [.begin_ () (.create (ascii "a")) (ascii "o") {}, .write (), .finish (),
    .begin_ () add [] {}, .write (), .finish (),
    .begin_ () evict [] {}, .write (), .fail (),
    .begin_ () evict [] {}, .finish ()]

/-- The hub after an eviction whose promotion failed. -/
def halfEvictedHub : OrgHub Unit :=
  (OrgHub.run id {} halfEvicted).getD {}

/-- An org with an heir may have no owner. -/
theorem ownerless_after_retry :
    ¬ ∀ s : OrgHub Unit, Relation.ReflTransGen (OrgHub.Next id) {} s → s.Settled →
      s.Owned id := by
  intro h
  have hrun : Relation.ReflTransGen (OrgHub.Next id) {} halfEvictedHub :=
    OrgHub.runs_of_run halfEvicted rfl
  have hsettled : halfEvictedHub.Settled := ⟨fun _ => rfl, by decide +kernel⟩
  obtain ⟨o, ho⟩ : ∃ o, halfEvictedHub.orgs (ascii "o") = some o := ⟨_, rfl⟩
  have hentries : (halfEvictedHub.orgs (ascii "o")).map (·.entries) =
      some [⟨ascii "m", ⟨.member, {}⟩⟩] := by decide +kernel
  have hheir : (halfEvictedHub.orgs (ascii "o")).map (heir id halfEvictedHub.seniority) =
      some (ascii "m") := by decide +kernel
  rw [ho, Option.map_some, Option.some_inj] at hentries hheir
  have hm : ascii "m" ∈ o := AList.mem_keys.mpr (by simp [AList.keys, hentries])
  obtain ⟨e, he⟩ := h _ hrun hsettled _ o ho ⟨_, hm, by decide, hheir⟩
  obtain ⟨m, hlookup, hrole⟩ := isOwner_iff.mp he
  have hmem := AList.mem_lookup_iff.mp hlookup
  rw [hentries, List.mem_singleton] at hmem
  cases hmem
  cases hrole

end Beardrive
