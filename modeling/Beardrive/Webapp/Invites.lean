import Beardrive.Webapp.OrgDB

/-!
# Invites and the ownership behind them

An invite is worth as much as the ownership of the account that minted it: once that account is no
owner of the org, the link must not join anybody again, whatever the account becomes later. The
registry records such a death when it reads the invite, and when the account inherits the org from
an owner who was evicted. Between two reads nothing is recorded. An account that is demoted and
made an owner again has its invites back, and so it has where the store kept an invite that memory
had lost.

The history beside the registry remembers every invite that was minted, and which of them were
ever without an owner behind them.

## Main definitions

* `InviteHub` — a registry and its history
* `InviteHub.step` — one call
* `InviteHub.Careful` — an account becomes an owner only where none of its invites is left

## Main results

* `dead_invites_refused` — after careful calls, an invite that lost its owner is never taken again
-/

namespace Beardrive

/-! ### Calls and their history -/

/-- The calls of the registry. `reload` stands for a registry that is opened anew. -/
inductive InviteCall where
  | change (name : GoString) (call : OrgCall)
  | rename (id name : GoString)
  | mint (id creator : GoString) (ttl : ℤ)
  | revoke (token : GoString)
  | list (id : GoString)
  | redeem (token : GoString)
  | valid (token : GoString)
  | use (token : GoString)
  | reload
  deriving DecidableEq, Repr

/-- A call, and what it meets. -/
structure InviteEvent where
  env : OrgEnv := {}
  call : InviteCall

section

variable (normEmail trimName : GoString → GoString)

/-- The invite a call mints, and what it leaves. -/
def OrgDB.answer (env : OrgEnv) (db : OrgDB) : InviteCall → Option OrgInvite × OrgDB
  | .change name call => (none, (db.change normEmail trimName env name call).2)
  | .rename id name => (none, (db.rename trimName env id name).2)
  | .mint id creator ttl => db.createInvite normEmail env id creator ttl
  | .revoke token => (none, (db.revokeInvite env token).2)
  | .list id => (none, (db.listInvites env id).2)
  | .redeem token => (none, (db.redeem env token).2)
  | .valid token => (none, (db.validInvite env token).2)
  | .use token => (none, db.recordInviteUse env token)
  | .reload => (none, { db with memory := db.store })

/-- A registry, the time, every invite that was minted, and the tokens of those whose minter was
no owner of the org at some moment since. -/
structure InviteHub where
  db : OrgDB := {}
  now : ℤ := 0
  minted : List OrgInvite := []
  dead : List GoString := []

/-- The tokens of the invites whose minters are no owners. -/
def unowned (db : OrgDB) (minted : List OrgInvite) : List GoString :=
  (minted.filter fun inv => inv.creator ≠ [] && !db.memory.owner inv.org inv.creator).map (·.token)

/-- One call. Time does not go back, and what is drawn at random has not been drawn before. -/
def InviteHub.step (s : InviteHub) (ev : InviteEvent) : Option InviteHub :=
  let db := s.db.refresh ev.env.rereads
  if ev.env.now.ns < s.now || (db.memory.orgs ev.env.fresh).isSome ||
      (s.minted.map (·.token)).contains ev.env.fresh then none
  else
    let (made, db) := db.answer normEmail trimName ev.env ev.call
    let minted := s.minted ++ made.toList
    some ⟨db, ev.env.now.ns, minted, s.dead ++ unowned db minted⟩

/-- An account is made an owner only where none of its invites for the org is left, or where it
inherits the org and the sweep reaches every one of them that the store holds. -/
def InviteHub.Careful (s : InviteHub) (ev : InviteEvent) : Prop :=
  let db := s.db.refresh ev.env.rereads
  ∀ name call id x joined, ev.call = .change name call →
    .member id x (some ⟨.owner, joined⟩) ∈ db.plan normEmail ev.env call →
    ev.env.accepts (.member id x) = true → db.memory.owner id x = false →
    ∀ token inv, inv.org = id → inv.creator = x → inv.expired ev.env.now.ns = false →
      (db.memory.invites.lookup token = some inv → ∃ o e, call = .evict o e) ∧
      (db.store.invites.lookup token = some inv → (∃ o e, call = .evict o e) ∧
        (db.memory.invites.lookup token).isSome = true ∧
        ev.env.accepts (.dropInvite token) = true)

/-- A call of any kind. -/
def InviteHub.Next (s s' : InviteHub) : Prop := ∃ ev, s.step normEmail trimName ev = some s'

/-- A careful call. -/
def InviteHub.CarefulNext (s s' : InviteHub) : Prop :=
  ∃ ev, s.Careful normEmail ev ∧ s.step normEmail trimName ev = some s'

end

/-- No call takes a token. -/
def InviteHub.Refuses (s : InviteHub) (token : GoString) : Prop :=
  ∀ env : OrgEnv, s.now ≤ env.now.ns →
    ((s.db.refresh env.rereads).redeem env token).1 = none ∧
      ((s.db.refresh env.rereads).validInvite env token).1 = false

/-! ### What holds between calls -/

/-- An invite is held under a token, in memory or in the store. -/
def OrgDB.Holds (db : OrgDB) (token : GoString) (inv : OrgInvite) : Prop :=
  db.memory.invites.lookup token = some inv ∨ db.store.invites.lookup token = some inv

/-- Two records of one link: only the uses may differ. -/
structure OrgInvite.Like (inv m : OrgInvite) : Prop where
  token : inv.token = m.token
  org : inv.org = m.org
  creator : inv.creator = m.creator
  expires : inv.expires = m.expires

theorem OrgInvite.Like.refl (inv : OrgInvite) : inv.Like inv := ⟨rfl, rfl, rfl, rfl⟩

theorem OrgInvite.Like.trans {a b c : OrgInvite} (h : a.Like b) (h' : b.Like c) : a.Like c :=
  ⟨h.1.trans h'.1, h.2.trans h'.2, h.3.trans h'.3, h.4.trans h'.4⟩

/-- Memory and store agree on the orgs, what they hold was minted, and what is dead and still held
has no owner behind it. -/
structure InviteHub.Sound (s : InviteHub) : Prop where
  inStep : s.db.InStep
  held : ∀ token inv, s.db.Holds token inv → ∃ m ∈ s.minted, m.token = token ∧ inv.Like m
  tokens : (s.minted.map (·.token)).Nodup
  orgs : ∀ m ∈ s.minted, (s.db.memory.orgs m.org).isSome = true
  minted : ∀ token ∈ s.dead, token ∈ s.minted.map (·.token)
  dead : ∀ m ∈ s.minted, m.token ∈ s.dead → ∀ inv, s.db.Holds m.token inv →
    m.creator ≠ [] ∧ (m.expired s.now = true ∨ s.db.memory.owner m.org m.creator = false)

theorem InviteHub.sound_init : ({} : InviteHub).Sound where
  inStep := rfl
  held token inv h := by
    rcases h with h | h <;> simp at h
  tokens := List.nodup_nil
  orgs _ h := absurd h List.not_mem_nil
  minted _ h := absurd h List.not_mem_nil
  dead _ h := absurd h List.not_mem_nil

/-- A token tells the invite. -/
theorem InviteHub.Sound.like {s : InviteHub} (h : s.Sound) {m inv : OrgInvite}
    (hm : m ∈ s.minted) (hinv : s.db.Holds m.token inv) : inv.Like m := by
  obtain ⟨m', hm', htoken, hlike⟩ := h.held m.token inv hinv
  cases List.inj_on_of_nodup_map h.tokens hm' hm htoken
  exact hlike

theorem OrgDB.holds_refresh {db : OrgDB} {rereads : Bool} {token : GoString} {inv : OrgInvite}
    (h : (db.refresh rereads).Holds token inv) : db.Holds token inv := by
  cases rereads
  · exact h
  · exact .inr (h.elim id id)

theorem InviteHub.Sound.refresh {s : InviteHub} (h : s.Sound) (rereads : Bool) :
    ({ s with db := s.db.refresh rereads } : InviteHub).Sound := by
  have horgs := OrgDB.orgs_refresh h.inStep rereads
  refine ⟨h.inStep.refresh rereads, fun token inv hinv => h.held token inv (OrgDB.holds_refresh hinv),
    h.tokens, fun m hm => ?_, h.minted, fun m hm hdead inv hinv => ?_⟩
  · rw [horgs]
    exact h.orgs m hm
  · rw [OrgTables.owner, horgs]
    exact h.dead m hm hdead inv (OrgDB.holds_refresh hinv)

/-! ### One call -/

/-- A call that gives no dead invite its owner back, and holds no invite that was not minted. -/
theorem InviteHub.Sound.next {s : InviteHub} (h : s.Sound) {db : OrgDB} {made : Option OrgInvite}
    {now : ℤ} (hnow : s.now ≤ now) (inStep : db.InStep)
    (held : ∀ token inv, db.Holds token inv →
      (∃ inv', s.db.Holds token inv' ∧ inv.Like inv') ∨ made = some inv ∧ inv.token = token)
    (fresh : ∀ inv, made = some inv → inv.token ∉ s.minted.map (·.token) ∧
      (db.memory.orgs inv.org).isSome = true)
    (orgs : ∀ id, (s.db.memory.orgs id).isSome = true → (db.memory.orgs id).isSome = true)
    (owner : ∀ m ∈ s.minted, m.token ∈ s.dead → ∀ inv, db.Holds m.token inv →
      m.expired now = false → db.memory.owner m.org m.creator = true →
      s.db.memory.owner m.org m.creator = true) :
    InviteHub.Sound ⟨db, now, s.minted ++ made.toList,
      s.dead ++ unowned db (s.minted ++ made.toList)⟩ := by
  have htokens : ((s.minted ++ made.toList).map (·.token)).Nodup := by
    rw [List.map_append]
    refine h.tokens.append ?_ fun token hold hnew => ?_
    · cases made <;> simp
    · obtain ⟨inv, hinv, rfl⟩ := List.mem_map.mp hnew
      exact (fresh inv (Option.mem_toList.mp hinv)).1 hold
  have hunowned : ∀ m ∈ s.minted ++ made.toList, m.token ∈ unowned db (s.minted ++ made.toList) →
      m.creator ≠ [] ∧ db.memory.owner m.org m.creator = false := by
    intro m hm hdead
    obtain ⟨m', hm', htoken⟩ := List.mem_map.mp hdead
    obtain ⟨hmem, hdown⟩ := List.mem_filter.mp hm'
    cases List.inj_on_of_nodup_map htokens hmem hm htoken
    simpa using hdown
  refine ⟨inStep, fun token inv hinv => ?_, htokens, fun m hm => ?_, fun token htoken => ?_,
    fun m hm hdead inv hinv => ?_⟩
  · rcases held token inv hinv with ⟨inv', hinv', hlike⟩ | ⟨hmade, htoken⟩
    · obtain ⟨m, hm, htoken, hlike'⟩ := h.held token inv' hinv'
      exact ⟨m, List.mem_append_left _ hm, htoken, hlike.trans hlike'⟩
    · exact ⟨inv, List.mem_append_right _ (Option.mem_toList.mpr hmade), htoken, .refl inv⟩
  · rcases List.mem_append.mp hm with hm | hm
    · exact orgs m.org (h.orgs m hm)
    · exact (fresh m (Option.mem_toList.mp hm)).2
  · rw [List.map_append]
    rcases List.mem_append.mp htoken with hold | hnew
    · exact List.mem_append_left _ (h.minted token hold)
    · obtain ⟨m, hm, rfl⟩ := List.mem_map.mp hnew
      rw [← List.map_append]
      exact List.mem_map_of_mem (List.mem_filter.mp hm).1
  · by_cases hnew : m.token ∈ unowned db (s.minted ++ made.toList)
    · exact ⟨(hunowned m hm hnew).1, .inr (hunowned m hm hnew).2⟩
    have hold : m.token ∈ s.dead := (List.mem_append.mp hdead).resolve_right hnew
    have hm' : m ∈ s.minted := by
      refine (List.mem_append.mp hm).resolve_right fun hmade => ?_
      exact (fresh m (Option.mem_toList.mp hmade)).1 (h.minted _ hold)
    have hbefore : ∃ inv', s.db.Holds m.token inv' := by
      rcases held m.token inv hinv with ⟨inv', hinv', -⟩ | ⟨hmade, htoken⟩
      · exact ⟨inv', hinv'⟩
      · exact absurd (htoken ▸ h.minted _ hold) (fresh inv hmade).1
    obtain ⟨inv', hinv'⟩ := hbefore
    obtain ⟨hcreator, hend⟩ := h.dead m hm' hold inv' hinv'
    refine ⟨hcreator, ?_⟩
    rcases hexpired : m.expired now with _ | _
    · have hbefore : s.db.memory.owner m.org m.creator = false := by
        refine hend.resolve_left fun hexpired' => ?_
        simp only [OrgInvite.expired, decide_eq_true_eq, decide_eq_false_iff_not] at hexpired hexpired'
        omega
      right
      refine Bool.eq_false_iff.mpr fun hafter => ?_
      exact absurd (owner m hm' hold inv hinv hexpired hafter) (by simp [hbefore])
    · exact .inl rfl

/-- A call that mints nothing and writes no org. -/
theorem InviteHub.Sound.read {s : InviteHub} (h : s.Sound) {db : OrgDB} {now : ℤ}
    (hnow : s.now ≤ now) (memory : db.memory.orgs = s.db.memory.orgs)
    (store : db.store.orgs = s.db.store.orgs)
    (held : ∀ token inv, db.Holds token inv → ∃ inv', s.db.Holds token inv' ∧ inv.Like inv') :
    InviteHub.Sound ⟨db, now, s.minted ++ (none : Option OrgInvite).toList,
      s.dead ++ unowned db (s.minted ++ (none : Option OrgInvite).toList)⟩ := by
  refine h.next hnow ?_ (fun token inv hinv => .inl (held token inv hinv))
    (fun inv hinv => nomatch hinv) (fun id hid => by rwa [memory]) fun m _ _ _ _ _ hx => ?_
  · rw [OrgDB.InStep, memory, store]
    exact h.inStep
  · rwa [OrgTables.owner, memory] at hx

/-! ### Each call -/

section

variable {env : OrgEnv} {db : OrgDB}

/-- A read holds no more invites than before. -/
theorem OrgDB.holds_retireLocked {token t : GoString} {inv : OrgInvite}
    (h : (db.retireLocked env token).Holds t inv) : db.Holds t inv := by
  have hmem := @OrgDB.lookup_retireLocked env [token] db t
  have hstore := @OrgDB.lookup_retireLocked_store env [token] db t
  simp only [List.foldl_cons, List.foldl_nil] at hmem hstore
  rcases h with h | h
  · rw [hmem] at h
    split at h
    · cases h
    · exact .inl h
  · rw [hstore] at h
    split at h
    · cases h
    · exact .inr h

theorem OrgDB.holds_liveLocked {link : OrgInvite} {t : GoString} {inv : OrgInvite}
    (h : (db.liveLocked env link).2.Holds t inv) : db.Holds t inv := by
  unfold liveLocked at h
  split_ifs at h
  · exact h
  · exact h
  · exact h
  · exact OrgDB.holds_retireLocked h

/-- What the loop of `ListInvites` leaves. -/
theorem OrgDB.listNext_kept (id : GoString) (entries : List (Sigma fun _ : GoString => OrgInvite))
    (out : List OrgInvite × OrgDB) :
    (entries.foldl (listNext env id) out).2.memory.orgs = out.2.memory.orgs ∧
      (entries.foldl (listNext env id) out).2.store.orgs = out.2.store.orgs ∧
      ∀ t inv, (entries.foldl (listNext env id) out).2.Holds t inv → out.2.Holds t inv := by
  induction entries generalizing out with
  | nil => exact ⟨rfl, rfl, fun _ _ h => h⟩
  | cons row entries ih =>
    rw [List.foldl_cons]
    obtain ⟨hmem, hstore, hholds⟩ := ih (listNext env id out row)
    have hrow : (listNext env id out row).2 = out.2 ∨
        (listNext env id out row).2 = (out.2.liveLocked env row.2).2 := by
      unfold listNext
      split
      · exact .inr rfl
      · exact .inl rfl
    rcases hrow with hrow | hrow
    · rw [hrow] at hmem hstore hholds
      exact ⟨hmem, hstore, hholds⟩
    · rw [hrow] at hmem hstore hholds
      obtain ⟨hlive, hlive'⟩ := @OrgDB.orgs_liveLocked env out.2 row.2
      exact ⟨hmem.trans hlive, hstore.trans hlive', fun t inv h => holds_liveLocked (hholds t inv h)⟩

end

section

variable {normEmail trimName : GoString → GoString} {s : InviteHub} {env : OrgEnv} {now : ℤ}

/-- **A change of the members**, where it is careful. -/
theorem InviteHub.Sound.change (h : s.Sound) (hnow : s.now ≤ env.now.ns)
    (hfresh : s.db.memory.orgs env.fresh = none) (name : GoString) (call : OrgCall)
    (careful : ∀ id x joined,
      .member id x (some ⟨.owner, joined⟩) ∈ s.db.plan normEmail env call →
      env.accepts (.member id x) = true → s.db.memory.owner id x = false →
      ∀ token inv, inv.org = id → inv.creator = x → inv.expired env.now.ns = false →
        (s.db.memory.invites.lookup token = some inv → ∃ o e, call = .evict o e) ∧
        (s.db.store.invites.lookup token = some inv → (∃ o e, call = .evict o e) ∧
          (s.db.memory.invites.lookup token).isSome = true ∧
          env.accepts (.dropInvite token) = true)) :
    let db := (s.db.change normEmail trimName env name call).2
    InviteHub.Sound ⟨db, env.now.ns, s.minted ++ (none : Option OrgInvite).toList,
      s.dead ++ unowned db (s.minted ++ (none : Option OrgInvite).toList)⟩ := by
  intro db
  have hdone : OrgDB.Performed env call (s.db.plan normEmail env call) s.db db :=
    OrgDB.performed_change name call h.inStep hfresh
  have hholds : ∀ token inv, db.Holds token inv → s.db.Holds token inv := fun token inv hinv =>
    hinv.imp (hdone.memory token inv) (hdone.store token inv)
  refine h.next hnow hdone.inStep
    (fun token inv hinv => .inl ⟨inv, hholds token inv hinv, .refl inv⟩)
    (fun inv hinv => nomatch hinv) hdone.orgs fun m hm hdead inv hinv hexpired hx => ?_
  rcases hdone.owner _ _ hx with hbefore | ⟨rows, hrows⟩ | ⟨joined, hmem, hok, hswept⟩
  · exact hbefore
  · have horg := h.orgs m hm
    rw [OrgDB.eq_fresh_of_mem_plan hrows, hfresh] at horg
    cases horg
  by_contra hbefore
  have hlike := h.like hm (hholds _ _ hinv)
  have hexpired' : inv.expired env.now.ns = false := by
    rwa [OrgInvite.expired, hlike.expires]
  have hleft := careful _ _ joined hmem hok (Bool.eq_false_iff.mpr hbefore) m.token inv hlike.org
    hlike.creator hexpired'
  rcases hinv with hinv | hinv
  · have hcall := hleft.1 (hdone.memory _ _ hinv)
    exact (hswept hcall).memory _ _ hinv ⟨hlike.org, hlike.creator⟩
  · obtain ⟨hcall, hsome, hdrop⟩ := hleft.2 (hdone.store _ _ hinv)
    obtain ⟨inv', hinv'⟩ := Option.isSome_iff_exists.mp hsome
    have hlike' := h.like hm (.inl hinv')
    have hgone := (hswept hcall).store _ inv' hinv' hlike'.org hlike'.creator hdrop
    rw [hgone] at hinv
    cases hinv

/-- An invite that the store takes. -/
theorem InviteHub.Sound.minted_put (h : s.Sound) (hnow : s.now ≤ now) {inv : OrgInvite}
    (hfresh : inv.token ∉ s.minted.map (·.token))
    (horg : (s.db.memory.orgs inv.org).isSome = true) :
    let db : OrgDB := ⟨s.db.memory.putInvite inv, s.db.store.putInvite inv⟩
    InviteHub.Sound ⟨db, now, s.minted ++ (some inv).toList,
      s.dead ++ unowned db (s.minted ++ (some inv).toList)⟩ := by
  refine h.next hnow h.inStep (fun token inv' hinv => ?_) (fun inv' hinv => ?_)
    (fun _ hid => hid) fun m hm hdead inv hinv _ hx => hx
  · by_cases htoken : token = inv.token
    · subst htoken
      right
      rcases hinv with hinv | hinv <;> rw [OrgTables.lookup_putInvite_self] at hinv
      · exact ⟨hinv, by rw [Option.some_inj.mp hinv]⟩
      · exact ⟨hinv, by rw [Option.some_inj.mp hinv]⟩
    · refine .inl ⟨inv', hinv.imp (fun hinv => ?_) fun hinv => ?_, .refl inv'⟩
      · rwa [OrgTables.lookup_putInvite_of_ne htoken] at hinv
      · rwa [OrgTables.lookup_putInvite_of_ne htoken] at hinv
  · cases hinv
    exact ⟨hfresh, horg⟩

/-- A minted invite is new, and the org it is for exists. -/
theorem InviteHub.Sound.mint (h : s.Sound) (hnow : s.now ≤ env.now.ns)
    (hfresh : env.fresh ∉ s.minted.map (·.token)) (id creator : GoString) (ttl : ℤ) :
    let made := s.db.createInvite normEmail env id creator ttl
    InviteHub.Sound ⟨made.2, env.now.ns, s.minted ++ made.1.toList,
      s.dead ++ unowned made.2 (s.minted ++ made.1.toList)⟩ := by
  simp only [OrgDB.createInvite]
  split
  · exact h.read hnow rfl rfl fun token inv hinv => ⟨inv, hinv, .refl inv⟩
  · rename_i o ho
    split
    · exact h.minted_put hnow hfresh (by rw [ho]; rfl)
    · refine h.read hnow rfl rfl fun token inv hinv => ⟨inv, ?_, .refl inv⟩
      refine hinv.imp (fun hinv => ?_) fun hinv => hinv
      obtain ⟨hne, hinv⟩ := OrgTables.lookup_of_dropInvite hinv
      rwa [OrgTables.lookup_putInvite_of_ne hne] at hinv

/-- An invite that is put back after the store refused to delete it. -/
theorem InviteHub.Sound.revoke (h : s.Sound) (hnow : s.now ≤ now) (token : GoString) :
    let db := (s.db.revokeInvite env token).2
    InviteHub.Sound ⟨db, now, s.minted ++ (none : Option OrgInvite).toList,
      s.dead ++ unowned db (s.minted ++ (none : Option OrgInvite).toList)⟩ := by
  simp only [OrgDB.revokeInvite]
  split
  · exact h.read hnow rfl rfl fun token inv hinv => ⟨inv, hinv, .refl inv⟩
  · rename_i inv hinv
    split
    · refine h.read hnow rfl rfl fun token' inv' hinv' => ⟨inv', ?_, .refl inv'⟩
      exact hinv'.imp (fun h => (OrgTables.lookup_of_dropInvite h).2)
        fun h => (OrgTables.lookup_of_dropInvite h).2
    · refine h.read hnow rfl rfl fun token' inv' hinv' => ⟨inv', ?_, .refl inv'⟩
      refine hinv'.imp (fun h => ?_) fun h => h
      by_cases htoken : token' = token
      · rwa [htoken, AList.lookup_insert, ← hinv, ← htoken] at h
      · rw [AList.lookup_insert_ne htoken] at h
        exact (OrgTables.lookup_of_dropInvite h).2

/-- A use that is counted changes nothing else about an invite. -/
theorem InviteHub.Sound.use (h : s.Sound) (hnow : s.now ≤ now) (token : GoString) :
    let db := s.db.recordInviteUse env token
    InviteHub.Sound ⟨db, now, s.minted ++ (none : Option OrgInvite).toList,
      s.dead ++ unowned db (s.minted ++ (none : Option OrgInvite).toList)⟩ := by
  simp only [OrgDB.recordInviteUse]
  split
  · exact h.read hnow rfl rfl fun token inv hinv => ⟨inv, hinv, .refl inv⟩
  · rename_i link hlink
    obtain ⟨m, hm, htoken, hlike⟩ := h.held token link (.inl hlink)
    have hused : ∀ t inv, t = token → some { link with uses := link.uses + 1 } = some inv →
        ∃ inv', s.db.Holds t inv' ∧ inv.Like inv' := by
      rintro t inv rfl hinv
      exact ⟨link, .inl hlink, Option.some_inj.mp hinv ▸ ⟨rfl, rfl, rfl, rfl⟩⟩
    refine h.read hnow rfl ?_ fun t inv hinv => ?_
    · split <;> rfl
    by_cases ht : t = token
    · rcases hinv with hinv | hinv
      · rw [ht, AList.lookup_insert] at hinv
        exact hused t inv ht hinv
      · split at hinv
        · have hself : (s.db.store.putInvite { link with uses := link.uses + 1 }).invites.lookup t =
              some { link with uses := link.uses + 1 } := by
            rw [ht, ← htoken, ← hlike.token]
            exact OrgTables.lookup_putInvite_self ..
          exact hused t inv ht (hself.symm.trans hinv)
        · exact ⟨inv, .inr hinv, .refl inv⟩
    · refine ⟨inv, ?_, .refl inv⟩
      rcases hinv with hinv | hinv
      · rw [AList.lookup_insert_ne ht] at hinv
        exact .inl hinv
      · split at hinv
        · rw [OrgTables.lookup_putInvite_of_ne] at hinv
          · exact .inr hinv
          · rwa [hlike.token, htoken]
        · exact .inr hinv

/-- A rename leaves the members alone. -/
theorem InviteHub.Sound.rename (h : s.Sound) (hnow : s.now ≤ now) (id name : GoString) :
    let db := (s.db.rename trimName env id name).2
    InviteHub.Sound ⟨db, now, s.minted ++ (none : Option OrgInvite).toList,
      s.dead ++ unowned db (s.minted ++ (none : Option OrgInvite).toList)⟩ := by
  intro db
  have hstep : db.InStep := h.inStep.rename id name
  rcases @OrgDB.rename_eq env s.db trimName id name h.inStep with
    hsame | ⟨o, ho, hnew⟩
  · have hdb : db = s.db := hsame
    rw [hdb]
    exact h.read hnow rfl rfl fun token inv hinv => ⟨inv, hinv, .refl inv⟩
  have hdb : db = ⟨s.db.memory.setOrg id { o with name := trimName name },
    s.db.store.setOrg id { o with name := trimName name }⟩ := hnew
  have hrows : ∀ id', (db.memory.orgs id').map (·.rows) = (s.db.memory.orgs id').map (·.rows) := by
    intro id'
    by_cases hid : id' = id
    · subst hid
      simp only [hdb, OrgTables.setOrg, Function.update_self, ho, Option.map_some]
    · simp only [hdb, OrgTables.setOrg, Function.update_of_ne hid]
  refine h.next hnow hstep (fun token inv hinv => .inl ⟨inv, ?_, .refl inv⟩)
    (fun inv hinv => by cases hinv) (fun id' hid => ?_) fun m _ _ _ _ _ hx => ?_
  · rwa [hdb] at hinv
  · rw [← Option.isSome_map, hrows, Option.isSome_map]
    exact hid
  · have howner : ∀ t : OrgTables, t.owner m.org m.creator =
        ((t.orgs m.org).map (·.rows)).any (isOwner · m.creator) := fun t => by
      rw [OrgTables.owner, Option.any_map]
    rwa [howner, hrows, ← howner] at hx

/-- A read of one invite. -/
theorem InviteHub.Sound.live (h : s.Sound) (hnow : s.now ≤ now) (inv : OrgInvite) :
    let db := (s.db.liveLocked env inv).2
    InviteHub.Sound ⟨db, now, s.minted ++ (none : Option OrgInvite).toList,
      s.dead ++ unowned db (s.minted ++ (none : Option OrgInvite).toList)⟩ := by
  obtain ⟨hmem, hstore⟩ := @OrgDB.orgs_liveLocked env s.db inv
  exact h.read hnow hmem hstore fun token inv hinv =>
    ⟨inv, OrgDB.holds_liveLocked hinv, .refl inv⟩

/-- **A careful call keeps what holds.** -/
theorem InviteHub.Sound.step {s s' : InviteHub} (h : s.Sound)
    (hstep : s.CarefulNext normEmail trimName s') : s'.Sound := by
  obtain ⟨⟨env, call⟩, careful, hev⟩ := hstep
  simp only [InviteHub.step] at hev
  split at hev
  · cases hev
  rename_i hguard
  simp only [Bool.or_eq_true, decide_eq_true_eq, Option.isSome_iff_ne_none, List.contains_iff_mem,
    not_or, not_not] at hguard
  obtain ⟨⟨hnow, hfresh⟩, hnew⟩ := hguard
  replace hnow := Int.not_lt.mp hnow
  cases hev
  have h' := h.refresh env.rereads
  cases call with
  | change name call =>
    exact h'.change hnow hfresh name call fun id x joined => careful name call id x joined rfl
  | rename id name => exact h'.rename hnow id name
  | mint id creator ttl => exact h'.mint hnow hnew id creator ttl
  | revoke token => exact h'.revoke hnow token
  | list id =>
    obtain ⟨hmem, hstore, hholds⟩ := @OrgDB.listNext_kept env id
      (s.db.refresh env.rereads).memory.invites.entries ([], s.db.refresh env.rereads)
    exact h'.read hnow hmem hstore fun token inv hinv => ⟨inv, hholds token inv hinv, .refl inv⟩
  | redeem token =>
    simp only [OrgDB.answer, OrgDB.redeem]
    split
    · exact h'.read hnow rfl rfl fun token inv hinv => ⟨inv, hinv, .refl inv⟩
    · exact h'.live hnow _
  | valid token =>
    simp only [OrgDB.answer, OrgDB.validInvite]
    split
    · exact h'.read hnow rfl rfl fun token inv hinv => ⟨inv, hinv, .refl inv⟩
    · exact h'.live hnow _
  | use token => exact h'.use hnow token
  | reload =>
    refine h'.read hnow h'.inStep.symm rfl fun token inv hinv => ⟨inv, ?_, .refl inv⟩
    exact .inr (hinv.elim (fun h => h) fun h => h)

/-! ### Runs -/

/-- **An invite that lost its owner is never taken again**, where no account became an owner with
invites of its own left behind. -/
theorem dead_invites_refused {s : InviteHub}
    (h : Relation.ReflTransGen (InviteHub.CarefulNext normEmail trimName) {} s) :
    ∀ token ∈ s.dead, s.Refuses token := by
  have hsound : s.Sound := Runs.invariant h (fun _ _ => InviteHub.Sound.step) InviteHub.sound_init
  intro token htoken env hnow
  have h' := hsound.refresh env.rereads
  obtain ⟨m, hm, rfl⟩ := List.mem_map.mp (hsound.minted token htoken)
  rw [OrgDB.redeem, OrgDB.validInvite]
  cases hinv : (s.db.refresh env.rereads).memory.invites.lookup m.token with
  | none => exact ⟨rfl, rfl⟩
  | some inv =>
    have hlike := h'.like hm (.inl hinv)
    obtain ⟨hcreator, hend⟩ := h'.dead m hm htoken inv (.inl hinv)
    have hlive : ((s.db.refresh env.rereads).liveLocked env inv).1 = false := by
      rw [OrgDB.liveLocked, hlike.creator, hlike.org, if_neg hcreator]
      rcases hend with hexpired | howner
      · rw [if_pos]
        simp only [OrgInvite.expired, decide_eq_true_eq] at hexpired ⊢
        rw [hlike.expires]
        omega
      · simp only [howner, Bool.false_eq_true, if_false]
        split <;> rfl
    exact ⟨by simp only [hlive, Bool.false_eq_true, if_false], hlive⟩

end

/-- `a` founds an org. -/
def foundCall : InviteEvent where
  env := { fresh := ascii "o" }
  call := .change (ascii "Team") (.create (ascii "a"))

/-- `b` joins it with a role, or has the role changed. -/
def joinCall (role : GoString) : InviteEvent where
  call := .change [] (.add (ascii "o") (ascii "b") role)

def roleCall (role : GoString) : InviteEvent where
  call := .change [] (.setRole (ascii "o") (ascii "b") role)

/-- `b` mints an invite. -/
def mintCall : InviteEvent where
  env := { fresh := ascii "t" }
  call := .mint (ascii "o") (ascii "b") 0

/-- Somebody tries the invite. -/
def tryCall : InviteEvent where
  call := .redeem (ascii "t")

/-- An account may become an owner where there are no invites at all. -/
theorem InviteHub.careful_of_no_invites {s : InviteHub} {ev : InviteEvent}
    (h : ev.env.rereads = false) (hmem : s.db.memory.invites.entries = [])
    (hstore : s.db.store.invites.entries = []) : s.Careful id ev := by
  intro name call id x joined _ _ _ _ token inv _ _ _
  have hdb : s.db.refresh ev.env.rereads = s.db := by
    simp only [OrgDB.refresh, h, Bool.false_eq_true, if_false]
  have hlookup : ∀ t : OrgTables, t.invites.entries = [] → t.invites.lookup token ≠ some inv :=
    fun t ht hinv => by
      have hin := AList.mem_lookup_iff.mp hinv
      rw [ht] at hin
      cases hin
  rw [hdb]
  exact ⟨fun hinv => absurd hinv (hlookup _ hmem), fun hinv => absurd hinv (hlookup _ hstore)⟩

/-- A call that makes nobody an owner is careful. -/
theorem InviteHub.careful_of_no_owner {s : InviteHub} {ev : InviteEvent} {call : OrgCall}
    {name : GoString} (hcall : ev.call = .change name call)
    (h : ((s.db.refresh ev.env.rereads).plan id ev.env call).all (fun
      | .member _ _ (some m) => m.role == .member
      | _ => true) = true) : s.Careful id ev := by
  intro name' call' id x joined hcall' hmem
  cases hcall.symm.trans hcall'
  exact absurd (List.all_eq_true.mp h _ hmem) (by simp)

/-- The hubs after one, two and three of these calls, after the demotion, and after somebody has
tried the invite since. -/
def foundedHub : InviteHub := (InviteHub.step id id {} foundCall).get (by decide)

def joinedHub : InviteHub :=
  (foundedHub.step id id (joinCall (ascii "owner"))).get (by decide)

def mintedHub : InviteHub := (joinedHub.step id id mintCall).get (by decide)

def demotedHub : InviteHub :=
  (mintedHub.step id id (roleCall (ascii "member"))).get (by decide)

def triedHub : InviteHub := (demotedHub.step id id tryCall).get (by decide)

def restoredHub : InviteHub :=
  (triedHub.step id id (roleCall (ascii "owner"))).get (by decide)

/-- An invite that somebody tried while its minter was demoted stays dead. -/
theorem dead_invite_refused_tried : ascii "t" ∈ restoredHub.dead ∧
    restoredHub.db.memory.owner (ascii "o") (ascii "b") = true ∧
    restoredHub.Refuses (ascii "t") := by
  have hrun : Relation.ReflTransGen (InviteHub.CarefulNext id id) {} restoredHub := by
    refine .head ⟨foundCall, ?_, Runs.possible (by decide +kernel)⟩ <|
      .head ⟨joinCall (ascii "owner"), ?_, Runs.possible (by decide +kernel)⟩ <|
      .head ⟨mintCall, ?_, Runs.possible (by decide +kernel)⟩ <|
      .head ⟨roleCall (ascii "member"), ?_, Runs.possible (by decide +kernel)⟩ <|
      .head ⟨tryCall, ?_, Runs.possible (by decide +kernel)⟩ <|
      .single ⟨roleCall (ascii "owner"), ?_, Runs.possible (by decide +kernel)⟩
    · exact InviteHub.careful_of_no_invites rfl rfl rfl
    · exact InviteHub.careful_of_no_invites rfl rfl rfl
    · exact fun _ _ _ _ _ h => nomatch h
    · exact InviteHub.careful_of_no_owner rfl (by decide +kernel)
    · exact fun _ _ _ _ _ h => nomatch h
    · exact InviteHub.careful_of_no_invites rfl (by decide +kernel) (by decide +kernel)
  exact ⟨by decide +kernel, by decide +kernel,
    dead_invites_refused hrun _ (by decide +kernel)⟩

/-- The minter is an owner again, and nobody has tried the invite in between. -/
def untriedHub : InviteHub :=
  (demotedHub.step id id (roleCall (ascii "owner"))).get (by decide)

/-- An invite whose minter lost the org and has it back joins people again. -/
theorem dead_invite_taken : ¬ ∀ s : InviteHub,
    Relation.ReflTransGen (InviteHub.Next id id) {} s → ∀ token ∈ s.dead, s.Refuses token := by
  intro h
  have hrun : Relation.ReflTransGen (InviteHub.Next id id) {} untriedHub :=
    .head ⟨foundCall, Runs.possible (by decide +kernel)⟩ <|
      .head ⟨joinCall (ascii "owner"), Runs.possible (by decide +kernel)⟩ <|
      .head ⟨mintCall, Runs.possible (by decide +kernel)⟩ <|
      .head ⟨roleCall (ascii "member"), Runs.possible (by decide +kernel)⟩ <|
      .single ⟨roleCall (ascii "owner"), Runs.possible (by decide +kernel)⟩
  have hrefuses := h untriedHub hrun (ascii "t") (by decide +kernel) {} (by decide +kernel)
  exact absurd hrefuses.2 (by decide +kernel)

end Beardrive
