import Beardrive.Lib.Runs
import Beardrive.Webapp.ProjectRepos

/-!
# The two stores of orgs, and both backends

The file of orgs holds whole records and the invites, and every write drops the invites that have
expired. The database holds the orgs, the membership rows and the invites. As with projects, a
membership row is tied to its org by name alone: the database takes a row of an org that is not
there, and shows it when the org is there again.

## Main definitions

* `OrgFile.write` — `fileOrgRepo`
* `SqlOrgs.write`, `SqlOrgs.load` — `sqlOrgRepo`
* `Backends` — both repositories of both backends

## Main results

* `SqlOrgs.Reflects.write`, `SqlOrgs.Reflects.load` — a careful write keeps the two stores the same
* `backends_agree` — after careful calls, the same calls succeed and the loads are the same
-/

namespace Beardrive

open Rows

/-! ### The file -/

/-- `Org`, as a repository is given it. -/
structure StoredOrg where
  name : GoString := []
  created : Time := {}
  members : GrantMap := ∅
  joined : AList fun _ : GoString => Time := ∅

/-- `OrgInvite`, without its token. -/
structure StoredInvite where
  org : GoString
  creator : GoString
  created : Time
  expires : Time
  uses : ℕ := 0
  deriving DecidableEq, Repr

/-- What is in `orgs.json`. -/
structure OrgFile where
  orgs : AList fun _ : GoString => StoredOrg := ∅
  invites : AList fun _ : GoString => StoredInvite := ∅

/-- The writes of an `OrgRepo`. -/
inductive OrgRepoWrite where
  | putOrg (id : GoString) (o : StoredOrg)
  | putOrgMeta (id : GoString) (o : StoredOrg)
  | putMember (id email role : GoString) (joined : Time)
  | deleteOrg (id : GoString)
  | putInvite (token : GoString) (i : StoredInvite)
  | deleteInvite (token : GoString)

/-- `checkOrg`. -/
def checkOrg (id : GoString) (o : StoredOrg) : Bool :=
  storable id && storable o.name && storableMap o.members

/-- `checkInvite`. -/
def checkInvite (token : GoString) (i : StoredInvite) : Bool :=
  [token, i.org, i.creator].all storable

/-- `OrgInvite.expired`. -/
def StoredInvite.expired (i : StoredInvite) (now : Time) : Bool := i.expires.before now

/-- An org, an invite and the times of members as they are read back from the file. -/
def jsonTimes (m : AList fun _ : GoString => Time) : Option (AList fun _ : GoString => Time) :=
  if m.entries.all fun row => (jsonTime row.2).isSome then some (pick (fun _ => jsonTime) m)
  else none

def StoredOrg.json (o : StoredOrg) : Option StoredOrg := do
  let created ← jsonTime o.created
  let joined ← jsonTimes o.joined
  some { o with created, joined }

def StoredInvite.json (i : StoredInvite) : Option StoredInvite := do
  let created ← jsonTime i.created
  let expires ← jsonTime i.expires
  some { i with created, expires }

namespace OrgFile

/-- `write`: invites that have expired are dropped. -/
def flush (f : OrgFile) (now : Time) : OrgFile :=
  { f with invites := pick (fun _ i => if i.expired now then none else some i) f.invites }

/-- An org is written. -/
def setOrg (f : OrgFile) (now : Time) (id : GoString) (o : StoredOrg) : OrgFile :=
  { f.flush now with orgs := f.orgs.insert id o }

/-- The writes of `fileOrgRepo`. -/
def write (f : OrgFile) (now : Time) : OrgRepoWrite → Option OrgFile
  | .putOrg id o => if checkOrg id o then o.json.map (f.setOrg now id) else none
  | .putOrgMeta id o =>
    if checkOrg id o then
      let disk := (f.orgs.lookup id).getD {}
      (jsonTime o.created).map fun created => f.setOrg now id { disk with name := o.name, created }
    else none
  | .putMember id email role joined =>
    if [id, email, role].all storable then
      match f.orgs.lookup id with
      | none => none
      | some o =>
        if role = [] then
          some (f.setOrg now id
            { o with members := o.members.erase email, joined := o.joined.erase email })
        else
          (jsonTime joined).map fun joined => f.setOrg now id
            { o with
              members := o.members.insert email role
              joined := o.joined.insert email joined }
    else none
  | .deleteOrg id => some { f.flush now with orgs := f.orgs.erase id }
  | .putInvite token i =>
    if checkInvite token i then
      i.json.map fun i => flush { f with invites := f.invites.insert token i } now
    else none
  | .deleteInvite token => some (flush { f with invites := f.invites.erase token } now)

end OrgFile

/-! ### The tables -/

/-- A row of `orgs`, of `org_members` and of `invites`, without its key. -/
structure OrgRow where
  name : GoString
  created : GoString
  deriving DecidableEq, Repr

structure MemberRow where
  role : GoString
  joined : GoString
  deriving DecidableEq, Repr

structure InviteRow where
  org : GoString
  creator : GoString
  created : GoString
  expires : GoString
  uses : ℕ
  deriving DecidableEq, Repr

/-- The tables. -/
structure SqlOrgs where
  orgs : AList fun _ : GoString => OrgRow := ∅
  members : AList fun _ : GoString × GoString => MemberRow := ∅
  invites : AList fun _ : GoString => InviteRow := ∅

def OrgRow.of (o : StoredOrg) : OrgRow := ⟨o.name, tenc o.created⟩

def InviteRow.of (i : StoredInvite) : InviteRow :=
  ⟨i.org, i.creator, tenc i.created, tenc i.expires, i.uses⟩

/-- The row of a member. -/
def memberRow (o : StoredOrg) (e : GoString) : Option MemberRow :=
  (o.members.lookup e).map fun role => ⟨role, tenc ((o.joined.lookup e).getD {})⟩

namespace SqlOrgs

/-- The rows of the members of an org. -/
def memberRows (id : GoString) (o : StoredOrg) : List ((GoString × GoString) × MemberRow) :=
  o.members.entries.map fun row =>
    ((id, row.1), ⟨row.2, tenc ((o.joined.lookup row.1).getD {})⟩)

/-- The writes of `sqlOrgRepo`. -/
def write (s : SqlOrgs) : OrgRepoWrite → Option SqlOrgs
  | .putOrg id o =>
    if checkOrg id o then
      (insertRows (keep (·.1 ≠ id) s.members) (memberRows id o)).map fun members =>
        { s with orgs := s.orgs.insert id (.of o), members }
    else none
  | .putOrgMeta id o =>
    if checkOrg id o then some { s with orgs := s.orgs.insert id (.of o) } else none
  | .putMember id email role joined =>
    if [id, email, role].all storable then
      some { s with members :=
        if role = [] then s.members.erase (id, email)
        else s.members.insert (id, email) ⟨role, tenc joined⟩ }
    else none
  | .deleteOrg id =>
    some { s with orgs := s.orgs.erase id, members := keep (·.1 ≠ id) s.members }
  | .putInvite token i =>
    if checkInvite token i then some { s with invites := s.invites.insert token (.of i) }
    else none
  | .deleteInvite token => some { s with invites := s.invites.erase token }

/-- `Load`. -/
def load (s : SqlOrgs) : OrgFile where
  orgs := pick (fun id row => some
    { name := row.name
      created := tdec row.created
      members := pick (fun _ row => some row.role) (children s.members id)
      joined := pick (fun _ row => some (tdec row.joined)) (children s.members id) }) s.orgs
  invites := pick (fun _ row => some
    { org := row.org
      creator := row.creator
      created := tdec row.created
      expires := tdec row.expires
      uses := row.uses }) s.invites

end SqlOrgs

/-! ### The tables reflect the file -/

/-- An org whose times are read back, and whose members have a time each. -/
structure StoredOrg.Fine (o : StoredOrg) : Prop where
  created : TimeFine o.created
  joined : ∀ e, (o.joined.lookup e).isSome = (o.members.lookup e).isSome
  times : ∀ e t, o.joined.lookup e = some t → TimeFine t

/-- An invite whose times are read back. -/
def StoredInvite.Fine (i : StoredInvite) : Prop := TimeFine i.created ∧ TimeFine i.expires

namespace SqlOrgs

/-- The tables hold the rows of the file, and no others. -/
structure Reflects (f : OrgFile) (s : SqlOrgs) : Prop where
  fine : ∀ id o, f.orgs.lookup id = some o → o.Fine
  inviteFine : ∀ token i, f.invites.lookup token = some i → i.Fine
  org : ∀ id, s.orgs.lookup id = (f.orgs.lookup id).map .of
  member : ∀ id e, s.members.lookup (id, e) = (f.orgs.lookup id).bind (memberRow · e)
  invite : ∀ token, s.invites.lookup token = (f.invites.lookup token).map .of

/-- No invite of the file has expired. -/
def Live (f : OrgFile) (now : Time) : Prop :=
  ∀ token i, f.invites.lookup token = some i → i.expired now = false

/-- A write of a file without expired invites keeps them all. -/
theorem lookup_flush {f : OrgFile} {now : Time} (h : Live f now) (token : GoString) :
    (f.flush now).invites.lookup token = f.invites.lookup token := by
  rw [OrgFile.flush, lookup_pick]
  cases hi : f.invites.lookup token with
  | none => rfl
  | some i => exact if_neg (by rw [h token i hi]; exact Bool.false_ne_true)

/-- A write that is about one org. -/
theorem Reflects.change {f : OrgFile} {s s' : SqlOrgs} (h : Reflects f s) {now : Time}
    (hlive : Live f now) (id : GoString) {o : Option StoredOrg}
    {orgs : AList fun _ : GoString => StoredOrg} (hself : orgs.lookup id = o)
    (hother : ∀ j, j ≠ id → orgs.lookup j = f.orgs.lookup j) (hfine : ∀ p, o = some p → p.Fine)
    (horg : s'.orgs.lookup id = o.map .of)
    (horgs : ∀ j, j ≠ id → s'.orgs.lookup j = s.orgs.lookup j)
    (hmember : ∀ e, s'.members.lookup (id, e) = o.bind (memberRow · e))
    (hmembers : ∀ j, j ≠ id → ∀ e, s'.members.lookup (j, e) = s.members.lookup (j, e))
    (hinvites : s'.invites = s.invites) : Reflects { f.flush now with orgs := orgs } s' where
  fine j p hp := by
    by_cases hj : j = id
    · exact hfine p (hself.symm.trans (hj ▸ hp))
    · exact h.fine j p ((hother j hj).symm.trans hp)
  inviteFine token i hi := h.inviteFine token i ((lookup_flush hlive token).symm.trans hi)
  org j := by
    by_cases hj : j = id
    · rw [hj, horg, hself]
    · rw [horgs j hj, hother j hj, h.org]
  member j e := by
    by_cases hj : j = id
    · rw [hj, hmember, hself]
    · rw [hmembers j hj, hother j hj, h.member]
  invite token := by
    rw [hinvites, h.invite]
    exact congrArg _ (lookup_flush hlive token).symm

/-- Times that are read back are the times that were written. -/
theorem json_eq {o : StoredOrg} (h : o.Fine) : ∃ o', o.json = some o' ∧ o'.name = o.name ∧
    o'.created = o.created ∧ o'.members = o.members ∧
    ∀ e, o'.joined.lookup e = o.joined.lookup e := by
  have htimes : jsonTimes o.joined = some (pick (fun _ => jsonTime) o.joined) := by
    refine if_pos (List.all_eq_true.mpr fun row hrow => ?_)
    rw [(h.times row.1 row.2 (AList.mem_lookup_iff.mpr hrow)).1]
    rfl
  refine ⟨{ o with joined := pick (fun _ => jsonTime) o.joined }, ?_, rfl, rfl, rfl, fun e => ?_⟩
  · rw [StoredOrg.json, h.created.1, htimes]
    rfl
  · change (pick (fun _ => jsonTime) o.joined).lookup e = _
    rw [lookup_pick]
    cases ht : o.joined.lookup e with
    | none => rfl
    | some t => exact (h.times e t ht).1

theorem keys_memberRows (id : GoString) (o : StoredOrg) :
    (memberRows id o).map (·.1) = o.members.keys.map fun e => (id, e) := by
  rw [memberRows, AList.keys, List.keys, List.map_map, List.map_map]
  rfl

/-- The members of an org become its rows. -/
theorem insertRows_memberRows (id : GoString) (o : StoredOrg)
    (t : AList fun _ : GoString × GoString => MemberRow) :
    ∃ t', insertRows (keep (·.1 ≠ id) t) (memberRows id o) = some t' ∧
      (∀ e, t'.lookup (id, e) = memberRow o e) ∧
      ∀ j, j ≠ id → ∀ e, t'.lookup (j, e) = t.lookup (j, e) := by
  have hdistinct : ((memberRows id o).map (·.1)).Nodup := by
    rw [keys_memberRows]
    exact o.members.keys_nodup.map fun _ _ h => (Prod.mk.inj h).2
  obtain ⟨t', ht', hrows, hrest⟩ := insertRows_eq_some (t := keep (·.1 ≠ id) t) hdistinct
    fun row hrow => by
      obtain ⟨entry, -, rfl⟩ := List.mem_map.mp hrow
      exact lookup_keep_self _ _
  refine ⟨t', ht', fun e => ?_, fun j hj e => ?_⟩
  · cases hrole : o.members.lookup e with
    | some role =>
      rw [memberRow, hrole]
      exact hrows _ (List.mem_map_of_mem (AList.mem_lookup_iff.mp hrole))
    | none =>
      rw [memberRow, hrole]
      refine (hrest _ fun hmem => ?_).trans (lookup_keep_self _ _)
      rw [keys_memberRows] at hmem
      obtain ⟨e', he', heq⟩ := List.mem_map.mp hmem
      obtain rfl := (Prod.mk.inj heq).2
      exact AList.lookup_eq_none.mp hrole (AList.mem_keys.mpr he')
  · refine (hrest _ fun hmem => ?_).trans (lookup_keep_ne hj _ _)
    rw [keys_memberRows] at hmem
    obtain ⟨_, -, heq⟩ := List.mem_map.mp hmem
    exact hj (Prod.mk.inj heq).1.symm

variable {f : OrgFile} {s : SqlOrgs} {now : Time}

theorem Reflects.putOrg (h : Reflects f s) (hlive : Live f now) (id : GoString) {o : StoredOrg}
    (hfine : o.Fine) :
    Option.Rel Reflects (f.write now (.putOrg id o)) (s.write (.putOrg id o)) := by
  rw [write, OrgFile.write]
  split_ifs
  · obtain ⟨o', ho', hname, hcreated, hmembers, hjoined⟩ := json_eq hfine
    obtain ⟨members, hrows, hself, hrest⟩ := insertRows_memberRows id o s.members
    rw [ho', hrows]
    refine .some (h.change hlive id (AList.lookup_insert _) (fun j hj =>
      AList.lookup_insert_ne hj) ?_ ?_ (fun j hj => AList.lookup_insert_ne hj) ?_ hrest rfl)
    · rintro _ ⟨⟩
      refine ⟨hcreated ▸ hfine.created, fun e => ?_, fun e t ht => ?_⟩
      · rw [hjoined, hmembers, hfine.joined]
      · exact hfine.times e t (by rwa [hjoined] at ht)
    · rw [AList.lookup_insert, Option.map_some, OrgRow.of, OrgRow.of, hname, hcreated]
    · intro e
      rw [Option.bind_some, memberRow, hmembers, hjoined]
      exact hself e
  · exact .none

theorem Reflects.putOrgMeta (h : Reflects f s) (hlive : Live f now) (id : GoString)
    {o : StoredOrg} (hcreated : TimeFine o.created) :
    Option.Rel Reflects (f.write now (.putOrgMeta id o)) (s.write (.putOrgMeta id o)) := by
  rw [write, OrgFile.write]
  split_ifs
  · rw [hcreated.1]
    refine .some (h.change hlive id (AList.lookup_insert _) (fun j hj =>
      AList.lookup_insert_ne hj) ?_ ?_ (fun j hj => AList.lookup_insert_ne hj) ?_
      (fun _ _ _ => rfl) rfl)
    · rintro _ ⟨⟩
      cases hdisk : f.orgs.lookup id with
      | none => exact ⟨hcreated, fun _ => rfl, fun e t ht => by cases ht⟩
      | some disk =>
        have hfine := h.fine id disk hdisk
        exact ⟨hcreated, hfine.joined, hfine.times⟩
    · exact AList.lookup_insert _
    · intro e
      rw [h.member]
      cases f.orgs.lookup id <;> rfl
  · exact .none

theorem Reflects.putMember (h : Reflects f s) (hlive : Live f now) {id : GoString} {o : StoredOrg}
    (ho : f.orgs.lookup id = some o) (email role : GoString) {joined : Time}
    (hjoined : TimeFine joined) :
    Option.Rel Reflects (f.write now (.putMember id email role joined))
      (s.write (.putMember id email role joined)) := by
  have hfine := h.fine id o ho
  have horg : s.orgs.lookup id = some (.of o) := by rw [h.org, ho]; rfl
  have hmember : ∀ e, s.members.lookup (id, e) = memberRow o e := by
    intro e
    rw [h.member, ho]
    rfl
  rw [write, OrgFile.write, ho]
  by_cases hcheck : [id, email, role].all storable = true
  · rw [if_pos hcheck, if_pos hcheck]
    by_cases hrole : role = []
    · rw [if_pos hrole]
      simp only [if_pos hrole]
      refine .some (h.change hlive id (AList.lookup_insert _) (fun j hj =>
        AList.lookup_insert_ne hj) ?_ horg (fun _ _ => rfl) (fun e => ?_)
        (fun j hj e => lookup_erase_other hj _ _ _) rfl)
      · rintro _ ⟨⟩
        refine ⟨hfine.created, fun e => ?_, fun e t ht => ?_⟩
        · by_cases he : e = email
          · rw [he, AList.lookup_erase, AList.lookup_erase]
            rfl
          · rw [AList.lookup_erase_ne he, AList.lookup_erase_ne he, hfine.joined]
        · by_cases he : e = email
          · rw [he, AList.lookup_erase] at ht
            cases ht
          · exact hfine.times e t (by rwa [AList.lookup_erase_ne he] at ht)
      · rw [Option.bind_some, memberRow]
        by_cases he : e = email
        · rw [he, AList.lookup_erase email o.members]
          exact AList.lookup_erase _ _
        · rw [AList.lookup_erase_ne he, AList.lookup_erase_ne he]
          exact (AList.lookup_erase_ne fun heq => he (Prod.mk.inj heq).2).trans (hmember e)
    · rw [if_neg hrole, hjoined.1]
      simp only [if_neg hrole]
      refine .some (h.change hlive id (AList.lookup_insert _) (fun j hj =>
        AList.lookup_insert_ne hj) ?_ horg (fun _ _ => rfl) (fun e => ?_)
        (fun j hj e => lookup_insert_other hj _ _ _ _) rfl)
      · rintro _ ⟨⟩
        refine ⟨hfine.created, fun e => ?_, fun e t ht => ?_⟩
        · by_cases he : e = email
          · rw [he, AList.lookup_insert, AList.lookup_insert]
            rfl
          · rw [AList.lookup_insert_ne he, AList.lookup_insert_ne he, hfine.joined]
        · by_cases he : e = email
          · rw [he, AList.lookup_insert] at ht
            cases ht
            exact hjoined
          · exact hfine.times e t (by rwa [AList.lookup_insert_ne he] at ht)
      · rw [Option.bind_some, memberRow]
        by_cases he : e = email
        · rw [he, AList.lookup_insert o.members, AList.lookup_insert o.joined]
          exact AList.lookup_insert _
        · rw [AList.lookup_insert_ne he, AList.lookup_insert_ne he]
          exact (AList.lookup_insert_ne fun heq => he (Prod.mk.inj heq).2).trans (hmember e)
  · rw [if_neg hcheck, if_neg hcheck]
    exact .none

theorem Reflects.deleteOrg (h : Reflects f s) (hlive : Live f now) (id : GoString) :
    Option.Rel Reflects (f.write now (.deleteOrg id)) (s.write (.deleteOrg id)) :=
  .some (h.change hlive id (AList.lookup_erase _ _) (fun _ hj => AList.lookup_erase_ne hj)
    (fun _ hp => nomatch hp) (AList.lookup_erase _ _) (fun _ hj => AList.lookup_erase_ne hj)
    (fun _ => lookup_keep_self _ _) (fun _ hj _ => lookup_keep_ne hj _ _) rfl)

/-- A write that is about one invite. -/
theorem Reflects.changeInvite (h : Reflects f s) {f' : OrgFile} {s' : SqlOrgs} (token : GoString)
    {i : Option StoredInvite} (hlive : Live f' now) (horgs : f'.orgs = f.orgs)
    (hself : f'.invites.lookup token = i)
    (hother : ∀ tok, tok ≠ token → f'.invites.lookup tok = f.invites.lookup tok)
    (hfine : ∀ j, i = some j → j.Fine) (horgs' : s'.orgs = s.orgs) (hmembers : s'.members = s.members)
    (hself' : s'.invites.lookup token = i.map .of)
    (hother' : ∀ tok, tok ≠ token → s'.invites.lookup tok = s.invites.lookup tok) :
    Reflects (f'.flush now) s' where
  fine id o ho := h.fine id o (horgs ▸ ho)
  inviteFine tok j hj := by
    rw [lookup_flush hlive] at hj
    by_cases htok : tok = token
    · exact hfine j (hself.symm.trans (htok ▸ hj))
    · exact h.inviteFine tok j (hother tok htok ▸ hj)
  org id := by
    rw [horgs', h.org]
    exact congrArg (fun orgs => (AList.lookup id orgs).map _) horgs.symm
  member id e := by
    rw [hmembers, h.member]
    exact congrArg (fun orgs => (AList.lookup id orgs).bind _) horgs.symm
  invite tok := by
    rw [lookup_flush hlive]
    by_cases htok : tok = token
    · rw [htok, hself', hself]
    · rw [hother' tok htok, hother tok htok, h.invite]

theorem Reflects.putInvite (h : Reflects f s) (hlive : Live f now) (token : GoString)
    {i : StoredInvite} (hfine : i.Fine) (hunexpired : i.expired now = false) :
    Option.Rel Reflects (f.write now (.putInvite token i)) (s.write (.putInvite token i)) := by
  rw [write, OrgFile.write]
  split_ifs
  · rw [StoredInvite.json, hfine.1.1, hfine.2.1]
    refine .some (h.changeInvite token (fun tok j hj => ?_) rfl (AList.lookup_insert _)
      (fun _ htok => AList.lookup_insert_ne htok) ?_ rfl rfl (AList.lookup_insert _)
      fun _ htok => AList.lookup_insert_ne htok)
    · by_cases htok : tok = token
      · rw [htok] at hj
        cases (AList.lookup_insert _).symm.trans hj
        exact hunexpired
      · exact hlive tok j ((AList.lookup_insert_ne htok).symm.trans hj)
    · rintro _ ⟨⟩
      exact hfine
  · exact .none

theorem Reflects.deleteInvite (h : Reflects f s) (hlive : Live f now) (token : GoString) :
    Option.Rel Reflects (f.write now (.deleteInvite token)) (s.write (.deleteInvite token)) := by
  refine .some (h.changeInvite token (fun tok j hj => ?_) rfl (AList.lookup_erase _ _)
    (fun _ htok => AList.lookup_erase_ne htok) (fun _ hp => nomatch hp) rfl rfl
    (AList.lookup_erase _ _) fun _ htok => AList.lookup_erase_ne htok)
  by_cases htok : tok = token
  · rw [htok] at hj
    cases (AList.lookup_erase _ _).symm.trans hj
  · exact hlive tok j ((AList.lookup_erase_ne htok).symm.trans hj)

/-- No invite has expired. A write of an org carries one row for each of its parts, and a write of a
member finds the org. -/
def Careful (f : OrgFile) (now : Time) (w : OrgRepoWrite) : Prop :=
  Live f now ∧ match w with
    | .putOrg _ o => o.Fine
    | .putOrgMeta _ o => TimeFine o.created
    | .putMember id _ _ joined => (f.orgs.lookup id).isSome ∧ TimeFine joined
    | .putInvite _ i => i.Fine ∧ i.expired now = false
    | .deleteOrg _ | .deleteInvite _ => True

/-- **A careful write succeeds in both stores or in neither, and keeps them the same.** -/
theorem Reflects.write (h : Reflects f s) {w : OrgRepoWrite} (careful : Careful f now w) :
    Option.Rel Reflects (f.write now w) (s.write w) := by
  obtain ⟨hlive, careful⟩ := careful
  cases w with
  | putOrg id o => exact h.putOrg hlive id careful
  | putOrgMeta id o => exact h.putOrgMeta hlive id careful
  | putMember id email role joined =>
    obtain ⟨o, ho⟩ := Option.isSome_iff_exists.mp careful.1
    exact h.putMember hlive ho email role careful.2
  | deleteOrg id => exact h.deleteOrg hlive id
  | putInvite token i => exact h.putInvite hlive token careful.1 careful.2
  | deleteInvite token => exact h.deleteInvite hlive token

end SqlOrgs

/-! ### What is loaded -/

/-- Two orgs with the same members. -/
structure StoredOrg.SameUpToOrder (o q : StoredOrg) : Prop where
  name : o.name = q.name
  created : o.created = q.created
  members : ∀ e, o.members.lookup e = q.members.lookup e
  joined : ∀ e, o.joined.lookup e = q.joined.lookup e

/-- Two loads that are equal up to the order of their rows. -/
structure OrgFile.SameLoad (f g : OrgFile) : Prop where
  orgs : ∀ id, Option.Rel StoredOrg.SameUpToOrder (f.orgs.lookup id) (g.orgs.lookup id)
  invites : ∀ token, f.invites.lookup token = g.invites.lookup token

/-- **Both stores load the same.** -/
theorem SqlOrgs.Reflects.load {f : OrgFile} {s : SqlOrgs} (h : SqlOrgs.Reflects f s) :
    f.SameLoad s.load where
  orgs id := by
    rw [SqlOrgs.load, lookup_pick, h.org]
    cases ho : f.orgs.lookup id with
    | none => exact .none
    | some o =>
      have hfine := h.fine id o ho
      have hmember : ∀ e, s.members.lookup (id, e) = memberRow o e := by
        intro e
        rw [h.member, ho]
        rfl
      refine .some ⟨rfl, hfine.created.2.symm, fun e => ?_, fun e => ?_⟩
      · rw [lookup_pick, lookup_children, hmember, memberRow]
        cases o.members.lookup e <;> rfl
      · have hboth := hfine.joined e
        rw [lookup_pick, lookup_children, hmember, memberRow]
        cases ht : o.joined.lookup e with
        | none =>
          rw [ht] at hboth
          rw [Option.isSome_eq_false_iff.mp hboth.symm |> Option.isNone_iff_eq_none.mp]
          rfl
        | some t =>
          rw [ht] at hboth
          obtain ⟨role, hrole⟩ := Option.isSome_iff_exists.mp hboth.symm
          rw [hrole]
          exact congrArg some (hfine.times e t ht).2.symm
  invites token := by
    rw [SqlOrgs.load, lookup_pick, h.invite]
    cases hi : f.invites.lookup token with
    | none => rfl
    | some i =>
      obtain ⟨hcreated, hexpires⟩ := h.inviteFine token i hi
      rw [Option.map_some, Option.bind_some, InviteRow.of, hcreated.2, hexpires.2]

/-! ### Both repositories -/

/-- The project and the org repository of the file backend and of the SQL backend. -/
structure Backends where
  projects : ProjectTable := ∅
  sqlProjects : SqlProjects := {}
  orgs : OrgFile := {}
  sqlOrgs : SqlOrgs := {}

/-- A call of a repository, and when it is made. -/
inductive RepoCall where
  | project (w : ProjectWrite)
  | org (now : Time) (w : OrgRepoWrite)

namespace Backends

/-- Whether a call succeeds in the file backend, and in the SQL backend. -/
def succeeds (b : Backends) : RepoCall → Bool × Bool
  | .project w => ((b.projects.write w).isSome, (b.sqlProjects.write w).isSome)
  | .org now w => ((b.orgs.write now w).isSome, (b.sqlOrgs.write w).isSome)

/-- Both backends after a call: one that fails leaves its backend as it was. -/
def call (b : Backends) : RepoCall → Backends
  | .project w => { b with
      projects := (b.projects.write w).getD b.projects
      sqlProjects := (b.sqlProjects.write w).getD b.sqlProjects }
  | .org now w => { b with
      orgs := (b.orgs.write now w).getD b.orgs
      sqlOrgs := (b.sqlOrgs.write w).getD b.sqlOrgs }

/-- A call is careful. -/
def Careful (b : Backends) : RepoCall → Prop
  | .project w => SqlProjects.Careful b.projects w
  | .org now w => SqlOrgs.Careful b.orgs now w

/-- A call of any kind, and a careful one. -/
def Next (b b' : Backends) : Prop := ∃ c, b' = b.call c

def CarefulNext (b b' : Backends) : Prop := ∃ c, b.Careful c ∧ b' = b.call c

/-- What is known between careful calls. -/
structure Sound (b : Backends) : Prop where
  projects : SqlProjects.Reflects b.projects b.sqlProjects
  orgs : SqlOrgs.Reflects b.orgs b.sqlOrgs

theorem sound_empty : ({} : Backends).Sound where
  projects := ⟨fun _ _ h => (nomatch h), fun _ => ⟨rfl, fun _ => rfl, fun _ => rfl,
    fun _ _ => rfl, fun _ _ => rfl⟩⟩
  orgs := ⟨fun _ _ h => (nomatch h), fun _ _ h => (nomatch h), fun _ => rfl, fun _ _ => rfl,
    fun _ => rfl⟩

theorem rel_getD {α β : Type} {R : α → β → Prop} {o : Option α} {o' : Option β} {a : α} {b : β}
    (h : Option.Rel R o o') (hab : R a b) : R (o.getD a) (o'.getD b) := by
  cases h with
  | none => exact hab
  | some h => exact h

theorem rel_isSome {α β : Type} {R : α → β → Prop} {o : Option α} {o' : Option β}
    (h : Option.Rel R o o') : o.isSome = o'.isSome := by
  cases h <;> rfl

theorem Sound.step {b b' : Backends} (h : b.Sound) (hstep : b.CarefulNext b') : b'.Sound := by
  obtain ⟨c, careful, rfl⟩ := hstep
  cases c with
  | project w => exact ⟨rel_getD (h.projects.write careful) h.projects, h.orgs⟩
  | org now w => exact ⟨h.projects, rel_getD (h.orgs.write careful) h.orgs⟩

theorem Sound.succeeds {b : Backends} (h : b.Sound) {c : RepoCall} (careful : b.Careful c) :
    (b.succeeds c).1 = (b.succeeds c).2 := by
  cases c with
  | project w => exact rel_isSome (h.projects.write careful)
  | org now w => exact rel_isSome (h.orgs.write careful)

end Backends

/-- **The two backends agree**: after careful calls, their loads are equal up to the order of rows,
and the next careful call succeeds in both or in neither. -/
theorem backends_agree {b : Backends} (h : Relation.ReflTransGen Backends.CarefulNext {} b) :
    b.projects.SameLoad b.sqlProjects.load ∧ b.orgs.SameLoad b.sqlOrgs.load ∧
      ∀ c, b.Careful c → (b.succeeds c).1 = (b.succeeds c).2 := by
  have hsound : b.Sound := Runs.invariant h (fun _ _ => Backends.Sound.step) Backends.sound_empty
  exact ⟨hsound.projects.load, hsound.orgs.load, fun _ => hsound.succeeds⟩

/-- A project is put. -/
def putWiki : RepoCall := .project (.put (ascii "p") { name := ascii "wiki" })

/-- An account is given a project. -/
def grantAnn : RepoCall := .project (.putPerm (ascii "p") (ascii "ann") permAdmin [])

theorem wiki_fine : ({ name := ascii "wiki" } : ProjectRecord).Fine where
  rules := List.nodup_nil
  grants := List.nodup_nil
  created := by decide
  givers _ _ h := nomatch h
  ruleGivers _ h := nomatch h

/-- A project with a grant loads alike from both backends. -/
theorem wiki_loads_alike :
    (((({} : Backends).call putWiki).call grantAnn).sqlProjects.load.lookup (ascii "p")).map
      (·.perms.entries) = some [⟨ascii "ann", permAdmin⟩] ∧
    ((({} : Backends).call putWiki).call grantAnn).projects.SameLoad
      ((({} : Backends).call putWiki).call grantAnn).sqlProjects.load := by
  have hstored : ((({} : Backends).call putWiki).projects.lookup (ascii "p")).isSome = true := by
    decide
  have hrun : Relation.ReflTransGen Backends.CarefulNext {}
      ((({} : Backends).call putWiki).call grantAnn) :=
    .head ⟨putWiki, wiki_fine, rfl⟩ <| .single ⟨grantAnn, hstored, rfl⟩
  exact ⟨by decide, (backends_agree hrun).1⟩

/-- The metadata of the project is written. -/
def putWikiMeta : RepoCall := .project (.putMeta (ascii "p") { name := ascii "wiki" })

theorem rel_perms {o o' : Option ProjectRecord} (h : Option.Rel ProjectRecord.SameUpToOrder o o')
    (e : GoString) : (o.map fun p => p.perms.lookup e) = o'.map fun p => p.perms.lookup e := by
  cases h with
  | none => rfl
  | some h => exact congrArg some (h.perms e)

/-- A grant of a project that is not there is refused by the file backend and taken by the SQL
backend, which shows it when the project is there. -/
theorem orphan_grant_returns :
    ¬ ∀ b : Backends, Relation.ReflTransGen Backends.Next {} b →
      b.projects.SameLoad b.sqlProjects.load ∧ b.orgs.SameLoad b.sqlOrgs.load ∧
        ∀ c, (b.succeeds c).1 = (b.succeeds c).2 := by
  intro h
  have hrun : Relation.ReflTransGen Backends.Next {}
      ((({} : Backends).call grantAnn).call putWikiMeta) :=
    .head ⟨grantAnn, rfl⟩ <| .single ⟨putWikiMeta, rfl⟩
  have hload := (h _ hrun).1 (ascii "p")
  have hfile : (((({} : Backends).call grantAnn).call putWikiMeta).projects.lookup
      (ascii "p")).map (·.perms.lookup (ascii "ann")) = some none := by decide
  have hsql : (((({} : Backends).call grantAnn).call putWikiMeta).sqlProjects.load.lookup
      (ascii "p")).map (·.perms.lookup (ascii "ann")) = some (some permAdmin) := by decide
  have hperm := rel_perms hload (ascii "ann")
  rw [hfile, hsql] at hperm
  cases hperm

end Beardrive
