import Beardrive.Webapp.Comments

/-!
# Comments that stay

An event whose write was acknowledged should be in every later listing, as long as its thread is
not deleted.

## Stamps

The caps keep the oldest events by their stamps, so that a late writer cannot displace an earlier
one. But the stamp of a new thread is taken before the writer waits for its turn, and processes do
not wait for each other. An event that is stored later may carry an earlier stamp, and when there
is no room it displaces one that was already acknowledged.

## Reading back

A write whose event cannot be read back is acknowledged all the same. And while some objects cannot
be read, an author seems to have written less.

## Main definitions

* `CommentHubs.Careful` — events are stored in the order of their stamps, or while there is room
* `CommentHubs.Sound` — what is known between careful steps

## Main results

* `CommentHubs.Sound.step` — what a careful step keeps
* `CommentHubs.Answers.eq` — the order of listing and fetching does not matter
* `acknowledged_comments_stay` — what was acknowledged is in every later listing
-/

namespace Beardrive

namespace CommentHubs

variable {ι : Type*} {caps : CommentCaps} {s s' : CommentHubs ι} {e ev : CommentEvent}

/-! ### What the store keeps -/

/-- A careful step: an event is stored as one may be, and what a write read is complete. -/
def Careful (caps : CommentCaps) (s : CommentHubs ι) : CommentsEvent ι → Prop
  | .put i answered landed =>
    (answered || landed) = true → ∀ ev, s.call i = some (.checked ev) →
      MayPut caps s.dead s.objects ev
  | .update _ _ _ _ _ lost => lost = []
  | .readBack _ keys lost => keys.isSome ∧ lost = []
  | _ => True

/-- A careful step. -/
def CarefulNext [DecidableEq ι] (caps : CommentCaps) (s s' : CommentHubs ι) : Prop :=
  ∃ ev, s.Careful caps ev ∧ step caps s ev = some s'

/-- An event stays in the listings, unless its thread is deleted. -/
def Lasting (caps : CommentCaps) (s : CommentHubs ι) (e : CommentEvent) : Prop :=
  e.key.thread ∈ s.dead ∨ WithinCaps caps s.dead s.objects e

/-- An event opens a thread, or its thread was opened before by one that stays. -/
def Firm (caps : CommentCaps) (s : CommentHubs ι) (e : CommentEvent) : Prop :=
  e.kind = .open_ ∧ e.path ≠ [] ∨ e.kind ≠ .open_ ∧ ∃ o, Lasting caps s o ∧ o.kind = .open_ ∧
    o.path ≠ [] ∧ o.key.thread = e.key.thread ∧ o.time < e.time

/-- An event is stored, and when it opens its thread no other event does. -/
structure Placed (s : CommentHubs ι) (e : CommentEvent) : Prop where
  stored : (e.key, some e.toCommentBody) ∈ s.objects
  alone : e.kind = .open_ → ∀ o : CommentEvent, (o.key, some o.toCommentBody) ∈ s.objects →
    o.kind = .open_ → o.key.thread = e.key.thread → o = e

/-- What changes of the store leave as it was. -/
structure Grows (caps : CommentCaps) (s s' : CommentHubs ι) : Prop where
  stamps : (s'.objects.map (·.1.stamp)).Nodup
  lasting : ∀ e, Lasting caps s e → Lasting caps s' e
  placed : ∀ e, Placed s e → Placed s' e
  keys : ∀ k ∈ s.objects.map Prod.fst, k ∈ s'.objects.map Prod.fst
  read : ∀ k ∈ s.objects.map Prod.fst,
    readCommentEvent s'.objects k = readCommentEvent s.objects k

theorem Firm.grows (h : Firm caps s e) (hg : Grows caps s s') : Firm caps s' e := by
  rcases h with h | ⟨hkind, o, ho, hrest⟩
  · exact .inl h
  · exact .inr ⟨hkind, o, hg.lasting o ho, hrest⟩

/-- The store stays. -/
theorem Grows.same (hstamps : (s.objects.map (·.1.stamp)).Nodup) (hobjects : s'.objects = s.objects)
    (hdead : s'.dead = s.dead) : Grows caps s s' where
  stamps := by rwa [hobjects]
  lasting e he := by rwa [Lasting, hobjects, hdead]
  placed e he := ⟨by rw [hobjects]; exact he.stored, by rw [hobjects]; exact he.alone⟩
  keys k hk := by rwa [hobjects]
  read k _ := by rw [hobjects]

/-- An event is stored that may be. -/
theorem Grows.put (hstamps : (s.objects.map (·.1.stamp)).Nodup)
    (h : MayPut caps s.dead s.objects ev) (hobjects : s'.objects = putComment ev s.objects)
    (hdead : s'.dead = s.dead) : Grows caps s s' where
  stamps := by
    rw [hobjects, putComment_eq h, List.map_cons, List.nodup_cons]
    refine ⟨fun hmem => ?_, hstamps⟩
    obtain ⟨o, ho, heq⟩ := List.mem_map.mp hmem
    exact h.stamp o ho heq
  lasting e he := by
    rw [Lasting, hobjects, hdead]
    exact he.imp_right fun hkept => hkept.put h
  placed e he := by
    refine ⟨?_, fun hkind o ho hopen hthread => ?_⟩
    · rw [hobjects, putComment_eq h]
      exact List.mem_cons_of_mem _ he.stored
    · rw [hobjects, putComment_eq h, List.mem_cons] at ho
      rcases ho with ho | ho
      · obtain ⟨hkey, hbody⟩ := Prod.mk.inj ho
        have hnew : ev.kind = .open_ := by
          rw [← Option.some.inj hbody]
          exact hopen
        refine absurd ?_ (h.thread hnew _ he.stored)
        rw [← hkey]
        exact hthread.symm
      · exact he.alone hkind o ho hopen hthread
  keys k hk := by
    rw [hobjects, putComment_eq h, List.map_cons]
    exact List.mem_cons_of_mem _ hk
  read k hk := by
    rw [hobjects]
    refine readCommentEvent_put h.ne ?_
    obtain ⟨o, ho, rfl⟩ := List.mem_map.mp hk
    exact h.ne o ho

/-- A thread is deleted. -/
theorem Grows.delete {thread : ℕ} (hstamps : (s.objects.map (·.1.stamp)).Nodup)
    (hobjects : s'.objects = s.objects) (hdead : s'.dead = thread :: s.dead) :
    Grows caps s s' where
  stamps := by rwa [hobjects]
  lasting e he := by
    rw [Lasting, hobjects, hdead, List.mem_cons]
    by_cases hthread : e.key.thread = thread
    · exact .inl (.inl hthread)
    · exact he.imp .inr fun hkept => hkept.delete hthread
  placed e he := ⟨by rw [hobjects]; exact he.stored, by rw [hobjects]; exact he.alone⟩
  keys k hk := by rwa [hobjects]
  read k _ := by rw [hobjects]

theorem fetchComments_grows {keys lost : List CommentKey} (hg : Grows caps s s')
    (hkeys : ∀ k ∈ keys, k ∈ s.objects.map Prod.fst) :
    fetchComments s'.objects lost keys = fetchComments s.objects lost keys := by
  refine List.filterMap_congr fun k hk => ?_
  rw [hg.read k (hkeys k hk)]

/-! ### What a careful step keeps -/

/-- A listing names stored keys, and what a complete load of it holds stays. -/
def ListingSound (caps : CommentCaps) (s : CommentHubs ι) (keys : List CommentKey) : Prop :=
  (∀ k ∈ keys, k ∈ s.objects.map Prod.fst) ∧
    ∀ e ∈ loadCommentEvents caps s.objects [] keys, Lasting caps s e

/-- What a write on its way has secured. -/
def WriteSound (caps : CommentCaps) (s : CommentHubs ι) : CommentWrite → Prop
  | .stamped ev => Firm caps s ev
  | .checked ev => Firm caps s ev
  | .stored ev => Firm caps s ev ∧ Placed s ev

/-- What is known between careful steps. -/
structure Sound (caps : CommentCaps) (s : CommentHubs ι) : Prop where
  stamps : (s.objects.map (·.1.stamp)).Nodup
  listings : ∀ i keys, s.Listing i keys → ListingSound caps s keys
  waiting : ∀ i, ∀ ev ∈ s.waiting i, ev.kind = .open_ ∧ ev.path ≠ []
  call : ∀ i w, s.call i = some w → WriteSound caps s w
  acked : ∀ e ∈ s.acked, Lasting caps s e ∧ Firm caps s e ∧ Placed s e

theorem ListingSound.grows {keys : List CommentKey} (h : ListingSound caps s keys)
    (hg : Grows caps s s') : ListingSound caps s' keys := by
  refine ⟨fun k hk => hg.keys k (h.1 k hk), fun e he => hg.lasting e (h.2 e ?_)⟩
  rwa [loadCommentEvents, fetchComments_grows hg h.1] at he

theorem WriteSound.grows {w : CommentWrite} (h : WriteSound caps s w) (hg : Grows caps s s') :
    WriteSound caps s' w := by
  cases w with
  | stamped ev => exact Firm.grows h hg
  | checked ev => exact Firm.grows h hg
  | stored ev => exact ⟨h.1.grows hg, hg.placed ev h.2⟩

/-- What a step adds has to be accounted for; the rest is as it was. -/
theorem Sound.next (hs : Sound caps s) (hg : Grows caps s s')
    (hlistings : ∀ i keys, s'.Listing i keys → s.Listing i keys ∨ ListingSound caps s' keys)
    (hwaiting : ∀ i, ∀ ev ∈ s'.waiting i, ev ∈ s.waiting i ∨ ev.kind = .open_ ∧ ev.path ≠ [])
    (hcall : ∀ i w, s'.call i = some w → s.call i = some w ∨ WriteSound caps s' w)
    (hacked : ∀ e ∈ s'.acked, e ∈ s.acked ∨ Lasting caps s' e ∧ Firm caps s' e ∧ Placed s' e) :
    Sound caps s' where
  stamps := hg.stamps
  listings i keys h := (hlistings i keys h).elim (fun h => (hs.listings i keys h).grows hg) id
  waiting i ev h := (hwaiting i ev h).elim (hs.waiting i ev) id
  call i w h := (hcall i w h).elim (fun h => (hs.call i w h).grows hg) id
  acked e h := (hacked e h).elim
    (fun h => ⟨hg.lasting e (hs.acked e h).1, (hs.acked e h).2.1.grows hg,
      hg.placed e (hs.acked e h).2.2⟩) id

section

variable [DecidableEq ι] {i : ι}

theorem call_update {w w' : Option CommentWrite} {j : ι} {call : ι → Option CommentWrite}
    (h : Function.update call i w j = w') : call j = w' ∨ w = w' := by
  by_cases hj : j = i
  · rw [hj, Function.update_self] at h
    exact .inr h
  · rw [Function.update_of_ne hj] at h
    exact .inl h

theorem keys_of_update_none {keys : List CommentKey} {j : ι}
    (h : Function.update s.keys i none j = some keys) : s.keys j = some keys := by
  by_cases hj : j = i
  · rw [hj, Function.update_self] at h
    cases h
  · rwa [Function.update_of_ne hj] at h

/-- The store is as it was, and a write ends or goes on. -/
theorem Sound.oneCall {w : Option CommentWrite} (hs : Sound caps s)
    (hw : ∀ w', w = some w' → WriteSound caps s w')
    (hobjects : s'.objects = s.objects) (hdead : s'.dead = s.dead)
    (hkeys : s'.keys = s.keys) (hflying : s'.flying = s.flying)
    (hwaiting : ∀ j, ∀ ev ∈ s'.waiting j, ev ∈ s.waiting j)
    (hcall : s'.call = Function.update s.call i w)
    (hacked : ∀ e ∈ s'.acked, e ∈ s.acked ∨ Lasting caps s e ∧ Firm caps s e ∧ Placed s e) :
    Sound caps s' := by
  have hg : Grows caps s s' := Grows.same hs.stamps hobjects hdead
  refine hs.next hg (fun j keys h => .inl ?_) (fun j ev h => .inl (hwaiting j ev h))
    (fun j w' h => ?_) fun e he => ?_
  · rwa [Listing, hkeys, hflying] at h
  · rw [hcall] at h
    exact (call_update h).imp id fun h => (hw w' h).grows hg
  · exact (hacked e he).imp_right fun h =>
      ⟨hg.lasting e h.1, h.2.1.grows hg, hg.placed e h.2.2⟩

theorem Sound.finish (hs : Sound caps s) (i : ι) : Sound caps (s.finish i) :=
  hs.oneCall (i := i) (w := none) (fun _ h => by cases h) rfl rfl rfl rfl (fun _ _ h => h) rfl
    fun _ h => .inl h

theorem Sound.proceed {w : CommentWrite} (hs : Sound caps s) (hw : WriteSound caps s w) (i : ι) :
    Sound caps (s.proceed i w) :=
  hs.oneCall (i := i) (w := some w) (fun _ h => Option.some.inj h ▸ hw) rfl rfl rfl rfl
    (fun _ _ h => h) rfl fun _ h => .inl h

theorem Sound.acknowledge (hs : Sound caps s) (he : Lasting caps s e) (hfirm : Firm caps s e)
    (hplaced : Placed s e) (i : ι) : Sound caps (s.acknowledge i e) := by
  refine hs.oneCall (i := i) (w := none) (fun _ h => by cases h) rfl rfl rfl rfl
    (fun _ _ h => h) rfl fun e' he' => ?_
  rcases List.mem_cons.mp he' with rfl | he'
  · exact .inr ⟨he, hfirm, hplaced⟩
  · exact .inl he'

omit [DecidableEq ι] in
/-- A new listing. -/
theorem listingSound_listComments (hs : Sound caps s) :
    ListingSound caps s (listComments caps s.dead s.objects) := by
  refine ⟨fun k hk => ?_, fun e he => .inr ((mem_load_iff hs.stamps).mp he)⟩
  obtain ⟨o, ho, rfl⟩ := List.mem_map.mp ((mem_listComments hs.stamps).mp hk).1
  exact List.mem_map_of_mem (mem_liveComments.mp ho).1

/-- The thread an update answers to was opened by an event that stays. -/
theorem Sound.update {keys : List CommentKey} {body : CommentBody} {thread tail : ℕ}
    {t : CommentThread} (hs : Sound caps s) (hkeys : s.Listing i keys) (hkind : body.kind ≠ .open_)
    (ht : loadThreads caps s.objects [] keys thread = some t) :
    Sound caps
      (s.proceed i (.stamped (stampComment body thread tail (nextCommentTime s.now t)))) := by
  obtain ⟨o, ho, hopen, hpath, hthread, htime⟩ := opened_of_foldComments ht
  have hfirm : Firm caps s (stampComment body thread tail (nextCommentTime s.now t)) :=
    .inr ⟨hkind, o, (hs.listings i keys hkeys).2 o ho, hopen, hpath, hthread,
      lt_of_le_of_lt htime (lt_nextCommentTime s.now t)⟩
  exact hs.proceed (w := .stamped _) hfirm i

/-- An event is stored, and its write goes on or ends without an answer. -/
theorem Sound.put {w : Option CommentWrite} (hs : Sound caps s)
    (hcall : s.call i = some (.checked ev)) (h : MayPut caps s.dead s.objects ev)
    (hw : w = none ∨ w = some (.stored ev)) (hobjects : s'.objects = putComment ev s.objects)
    (hdead : s'.dead = s.dead) (hkeys : ∀ j keys, s'.keys j = some keys → s.keys j = some keys)
    (hflying : s'.flying = s.flying) (hwaiting : s'.waiting = s.waiting)
    (hcall' : s'.call = Function.update s.call i w) (hacked : s'.acked = s.acked) :
    Sound caps s' := by
  have hg : Grows caps s s' := Grows.put hs.stamps h hobjects hdead
  have hplaced : Placed s' ev := by
    have hobjects' : s'.objects = (ev.key, some ev.toCommentBody) :: s.objects := by
      rw [hobjects, putComment_eq h]
    refine ⟨by rw [hobjects']; exact List.mem_cons_self, fun hkind o ho _ hthread => ?_⟩
    rw [hobjects', List.mem_cons] at ho
    rcases ho with ho | ho
    · obtain ⟨hkey, hbody⟩ := Prod.mk.inj ho
      cases o
      cases ev
      cases hkey
      cases hbody
      rfl
    · exact absurd hthread (h.thread hkind _ ho)
  refine hs.next hg (fun j keys hlist => .inl ?_) (fun j e he => .inl ?_) (fun j w' hw' => ?_)
    fun e he => .inl ?_
  · rw [Listing, hflying] at hlist
    exact hlist.imp (hkeys j keys) id
  · rwa [hwaiting] at he
  · rw [hcall'] at hw'
    refine (call_update hw').imp id fun heq => ?_
    rcases hw with rfl | rfl
    · cases heq
    · cases heq
      have hfirm : Firm caps s ev := hs.call i _ hcall
      exact ⟨hfirm.grows hg, hplaced⟩
  · rwa [hacked] at he

/-- A write that finds its event stays. -/
theorem Sound.found {keys : List CommentKey} (hs : Sound caps s)
    (hcall : s.call i = some (.stored ev)) (hkeys : s.Listing i keys)
    (hfound : (loadCommentEvents caps s.objects [] keys).any (·.key = ev.key) = true) :
    Sound caps (s.acknowledge i ev) := by
  obtain ⟨hfirm, hplaced⟩ := hs.call i _ hcall
  obtain ⟨e, he, hkey⟩ := List.any_eq_true.mp hfound
  have hkey : e.key = ev.key := by simpa using hkey
  have hlasting : Lasting caps s e := (hs.listings i keys hkeys).2 e he
  refine hs.acknowledge ?_ hfirm hplaced i
  rcases hlasting with hdead | hkept
  · exact .inl (hkey ▸ hdead)
  · have hnodup := nodup_keys hs.stamps
    have hone : readCommentEvent s.objects ev.key = some e :=
      (readCommentEvent_eq_some hnodup).mpr ⟨hkey, hkey ▸ hkept.stored⟩
    have htwo : readCommentEvent s.objects ev.key = some ev :=
      (readCommentEvent_eq_some hnodup).mpr ⟨rfl, hplaced.stored⟩
    rw [hone] at htwo
    obtain rfl := Option.some.inj htwo
    exact .inr hkept

/-- **What a careful step keeps.** -/
theorem Sound.step (hs : Sound caps s) (h : CarefulNext caps s s') : Sound caps s' := by
  obtain ⟨ev, hcareful, hstep⟩ := h
  have hsame : ∀ {s₁ : CommentHubs ι}, s₁.objects = s.objects → s₁.dead = s.dead →
      Grows caps s s₁ := fun ho hd => Grows.same hs.stamps ho hd
  cases ev with
  | tick d =>
    cases hstep
    exact hs.next (hsame rfl rfl) (fun _ _ h => .inl h) (fun _ _ h => .inl h)
      (fun _ _ h => .inl h) fun _ h => .inl h
  | list i =>
    cases hstep
    have hg : Grows caps s (s.listed caps i) := hsame rfl rfl
    refine hs.next hg (fun j keys h => ?_) (fun _ _ h => .inl h) (fun _ _ h => .inl h)
      fun _ h => .inl h
    rcases h with h | h
    · exact .inl (.inl h)
    · by_cases hj : j = i
      · subst hj
        change keys ∈ Function.update s.flying j _ j at h
        rw [Function.update_self, List.mem_cons] at h
        rcases h with rfl | h
        · exact .inr ((listingSound_listComments hs).grows hg)
        · exact .inl (.inr h)
      · change keys ∈ Function.update s.flying i _ j at h
        rw [Function.update_of_ne hj] at h
        exact .inl (.inr h)
  | record i keys =>
    rw [CommentHubs.step, Option.ite_none_right_eq_some] at hstep
    obtain ⟨hkeys, heq⟩ := hstep
    cases heq
    refine hs.next (hsame rfl rfl) (fun j keys' h => .inl ?_) (fun _ _ h => .inl h)
      (fun _ _ h => .inl h) fun _ h => .inl h
    by_cases hj : j = i
    · subst hj
      rcases h with h | h
      · change Function.update s.keys j _ j = _ at h
        rw [Function.update_self] at h
        cases h
        exact .inr hkeys
      · change keys' ∈ Function.update s.flying j _ j at h
        rw [Function.update_self] at h
        exact .inr (List.mem_of_mem_erase h)
    · rcases h with h | h
      · change Function.update s.keys i _ j = _ at h
        rw [Function.update_of_ne hj] at h
        exact .inl h
      · change keys' ∈ Function.update s.flying i _ j at h
        rw [Function.update_of_ne hj] at h
        exact .inr h
  | expire i =>
    cases hstep
    refine hs.next (hsame rfl rfl) (fun j keys h => .inl ?_) (fun _ _ h => .inl h)
      (fun _ _ h => .inl h) fun _ h => .inl h
    exact h.imp (keys_of_update_none) id
  | create i body thread tail =>
    rw [CommentHubs.step, Option.ite_none_right_eq_some] at hstep
    obtain ⟨hopen, heq⟩ := hstep
    cases heq
    refine hs.next (hsame rfl rfl) (fun _ _ h => .inl h) (fun j e he => ?_) (fun _ _ h => .inl h)
      fun _ h => .inl h
    by_cases hj : j = i
    · subst hj
      change e ∈ Function.update s.waiting j _ j at he
      rw [Function.update_self, List.mem_cons] at he
      rcases he with rfl | he
      · exact .inr hopen
      · exact .inl he
    · change e ∈ Function.update s.waiting i _ j at he
      rw [Function.update_of_ne hj] at he
      exact .inl he
  | begin_ i e =>
    rw [CommentHubs.step, Option.ite_none_right_eq_some] at hstep
    obtain ⟨⟨hwaiting, -⟩, heq⟩ := hstep
    cases heq
    refine hs.oneCall (i := i) (w := some (.stamped e)) ?_ rfl rfl rfl rfl (fun j e' he' => ?_) rfl
      fun _ h => .inl h
    · rintro w ⟨⟩
      exact .inl (hs.waiting i e hwaiting)
    · by_cases hj : j = i
      · subst hj
        change e' ∈ Function.update s.waiting j _ j at he'
        rw [Function.update_self] at he'
        exact List.mem_of_mem_erase he'
      · change e' ∈ Function.update s.waiting i _ j at he'
        rwa [Function.update_of_ne hj] at he'
  | update i body thread tail keys lost =>
    obtain rfl : lost = [] := hcareful
    rw [CommentHubs.step, Option.ite_none_right_eq_some] at hstep
    obtain ⟨⟨hkind, -, hkeys⟩, hmap⟩ := hstep
    obtain ⟨t, ht, rfl⟩ := Option.map_eq_some_iff.mp hmap
    exact hs.update hkeys hkind ht
  | check i keys lost =>
    rw [CommentHubs.step] at hstep
    split at hstep
    · rename_i e hcall
      rw [Option.ite_none_right_eq_some] at hstep
      obtain ⟨-, hstep⟩ := hstep
      split_ifs at hstep <;> cases hstep
      · exact hs.finish i
      · have hfirm : Firm caps s e := hs.call i _ hcall
        exact hs.proceed (w := .checked e) hfirm i
    · cases hstep
  | refuse i =>
    rw [CommentHubs.step] at hstep
    split at hstep <;> cases hstep
    · exact hs.finish i
    · exact hs.finish i
  | put i answered landed =>
    rw [CommentHubs.step] at hstep
    split at hstep
    · rename_i e hcall
      cases answered with
      | true =>
        cases hstep
        have hmay := hcareful rfl e hcall
        exact hs.put (w := some (.stored e)) hcall hmay (.inr rfl) rfl rfl
          (fun j keys h => keys_of_update_none h) rfl rfl rfl rfl
      | false =>
        cases hstep
        cases landed with
        | true =>
          have hmay := hcareful rfl e hcall
          exact hs.put (w := none) hcall hmay (.inl rfl) rfl rfl (fun _ _ h => h) rfl rfl rfl rfl
        | false => exact hs.finish i
    · cases hstep
  | readBack i keys lost =>
    obtain ⟨hsome, rfl⟩ := hcareful
    obtain ⟨keys, rfl⟩ := Option.isSome_iff_exists.mp hsome
    rw [CommentHubs.step] at hstep
    split at hstep
    · rename_i e hcall
      rw [Option.ite_none_right_eq_some] at hstep
      obtain ⟨hkeys, hstep⟩ := hstep
      split_ifs at hstep with hfound <;> cases hstep
      · exact hs.found hcall hkeys hfound
      · exact hs.finish i
    · cases hstep
  | delete i thread =>
    rw [CommentHubs.step, Option.ite_none_right_eq_some] at hstep
    obtain ⟨-, heq⟩ := hstep
    cases heq
    refine hs.next (Grows.delete hs.stamps rfl rfl) (fun j keys h => .inl ?_)
      (fun _ _ h => .inl h) (fun _ _ h => .inl h) fun _ h => .inl h
    exact h.imp (keys_of_update_none) id

omit [DecidableEq ι] in
/-- **The order of listing and fetching does not matter.** -/
theorem Answers.eq {threads : ℕ → Option CommentThread} (h : Answers caps s threads)
    (hstamps : (s.objects.map (·.1.stamp)).Nodup) :
    threads = loadThreads caps s.objects [] (listComments caps s.dead s.objects) := by
  obtain ⟨objects, evs, hobjects, hevs, rfl⟩ := h
  have hstamps' : (objects.map (·.1.stamp)).Nodup := (hobjects.map _).nodup_iff.mpr hstamps
  have hlist : listComments caps s.dead objects = listComments caps s.dead s.objects := by
    have hlive : (liveComments s.dead objects).Perm (liveComments s.dead s.objects) :=
      hobjects.filter _
    rw [listComments, listComments,
      Rank.sortBy_congr (hlive.map Prod.fst) (nodup_liveKeys hstamps' s.dead)]
  have hfetch : ∀ keys, fetchComments objects [] keys = fetchComments s.objects [] keys :=
    fun keys => List.filterMap_congr fun k _ => by
      rw [readCommentEvent_perm hobjects (nodup_keys hstamps')]
  rw [hlist, hfetch] at hevs
  have hnodup : (evs.map (·.key.stamp)).Nodup := (hevs.map _).nodup_iff.mpr
    (nodup_fetchComments (nodup_listComments hstamps caps s.dead) [])
  rw [loadThreads, loadCommentEvents, boundByAuthor, boundByAuthor,
    Rank.sortBy_congr hevs hnodup]

omit [DecidableEq ι] in
/-- What stays has its place in the fold. -/
theorem Sound.shows {e : CommentEvent} (hs : Sound caps s) (he : e ∈ s.acked)
    (hlive : e.key.thread ∉ s.dead) :
    Shows e (loadThreads caps s.objects [] (listComments caps s.dead s.objects)) := by
  obtain ⟨hlasting, hfirm, hplaced⟩ := hs.acked e he
  have hload : ∀ o, o ∈ loadCommentEvents caps s.objects [] (listComments caps s.dead s.objects) ↔
      WithinCaps caps s.dead s.objects o := fun o => mem_load_iff hs.stamps
  refine shows_foldComments ((hload e).mpr (hlasting.resolve_left hlive)) ?_ ?_
  · rcases hfirm with ⟨hkind, hpath⟩ | ⟨hkind, o, ho, hopen, hpath, hthread, htime⟩
    · exact .inl ⟨hkind, hpath, fun o ho hopen hthread =>
        hplaced.alone hkind o ((hload o).mp ho).stored hopen hthread⟩
    · have hkept : WithinCaps caps s.dead s.objects o := ho.resolve_left (hthread ▸ hlive)
      exact .inr ⟨hkind, o, (hload o).mpr hkept, hopen, hpath, hthread, htime⟩
  · refine List.Nodup.map_on (fun a ha b hb hab => ?_) ?_
    · have hkey : a.key = b.key := by
        have hpair := (Prod.mk.inj (toLex.injective hab)).2
        obtain ⟨hthread, hstamp⟩ := Prod.mk.inj (toLex.injective hpair)
        obtain ⟨hnanos, htail⟩ := Prod.mk.inj (toLex.injective hstamp)
        cases ha' : a.key
        cases hb' : b.key
        simp_all
      have hnodup := nodup_keys hs.stamps
      have hone : readCommentEvent s.objects a.key = some a :=
        (readCommentEvent_eq_some hnodup).mpr ⟨rfl, ((hload a).mp ha).stored⟩
      have htwo : readCommentEvent s.objects a.key = some b :=
        (readCommentEvent_eq_some hnodup).mpr ⟨hkey.symm, hkey ▸ ((hload b).mp hb).stored⟩
      exact Option.some.inj (hone.symm.trans htwo)
    · have hfetch : ((fetchComments s.objects [] (listComments caps s.dead s.objects)).map
          (·.key.stamp)).Nodup := nodup_fetchComments (nodup_listComments hs.stamps caps s.dead) []
      exact ((Rank.sortBy_perm _ _).nodup_iff.mpr hfetch.of_map).sublist
        (boundByAuthorFrom_sublist _ _ _)

end

end CommentHubs

open CommentHubs

/-! ### Acknowledged comments -/

/-- The comments of a project, before anyone writes. -/
def startComments {ι : Type*} (objects : List CommentObject) (dead : List ℕ) (now : ℕ) :
    CommentHubs ι :=
  { objects := objects, dead := dead, now := now }

/-- **In a careful run an acknowledged event shows in every listing as long as its thread is not
deleted, and listings of the same objects answer the same, in whatever order they are listed and
fetched.** -/
theorem acknowledged_comments_stay {ι : Type*} [DecidableEq ι] {caps : CommentCaps}
    {objects : List CommentObject} {dead : List ℕ} {now : ℕ} {s : CommentHubs ι}
    (hstamps : (objects.map (·.1.stamp)).Nodup)
    (h : Relation.ReflTransGen (CarefulNext caps) (startComments objects dead now) s) :
    (∀ e ∈ s.acked, e.key.thread ∉ s.dead → ∀ threads, Answers caps s threads → Shows e threads) ∧
      ∀ threads threads', Answers caps s threads → Answers caps s threads' →
        threads = threads' := by
  have hstart : Sound caps (startComments objects dead now : CommentHubs ι) := by
    refine ⟨hstamps, fun i keys h => ?_, by simp [startComments], by simp [startComments],
      by simp [startComments]⟩
    rcases h with h | h
    · cases h
    · cases h
  have hs : Sound caps s := Runs.invariant h (fun _ _ => Sound.step) hstart
  refine ⟨fun e he hlive threads hthreads => ?_, fun threads threads' h h' => ?_⟩
  · rw [hthreads.eq hs.stamps]
    exact hs.shows he hlive
  · rw [h.eq hs.stamps, h'.eq hs.stamps]

/-- A comment on a file. -/
def fileComment (author : GoString) : CommentBody :=
  { kind := .open_, path := ascii "a.md", body := ascii "hm", author := author, time := 0 }

/-- Someone comments in an empty project, and the comment is acknowledged. -/
def oneComment : CommentHubs Unit where
  objects := [(⟨7, 5, 0⟩, some { fileComment (ascii "ann") with time := 5 })]
  now := 5
  keys := fun _ => some [⟨7, 5, 0⟩]
  acked := [stampComment (fileComment (ascii "ann")) 7 0 5]

/-- What a listing of that project folds to. -/
def oneListed : ℕ → Option CommentThread :=
  foldComments (boundByAuthor commentCaps.perAuthor
    (fetchComments oneComment.objects [] (listComments commentCaps oneComment.dead
      oneComment.objects)))

theorem one_comment_stays : Shows (stampComment (fileComment (ascii "ann")) 7 0 5) oneListed := by
  have hrun :
      Relation.ReflTransGen (CarefulNext commentCaps) (startComments [] [] 5) oneComment := by
    refine .head ⟨.list (), trivial, rfl⟩ <| .head ⟨.record () [], trivial, rfl⟩ <|
      .head ⟨.create () (fileComment (ascii "ann")) 7 0, trivial, rfl⟩ <|
      .head ⟨.begin_ () (stampComment (fileComment (ascii "ann")) 7 0 5), trivial, rfl⟩ <|
      .head ⟨.check () [] [], trivial, rfl⟩ <|
      .head ⟨.put () true true, fun _ ev hev => ?_, rfl⟩ <|
      .head ⟨.list (), trivial, rfl⟩ <|
      .head ⟨.record () [⟨7, 5, 0⟩], trivial, rfl⟩ <|
      .single ⟨.readBack () (some [⟨7, 5, 0⟩]) [], ⟨rfl, rfl⟩, ?_⟩
    · cases hev
      exact mayPut_nil
    · rfl
  have hlisted : Answers commentCaps oneComment oneListed := ⟨_, _, .refl _, .refl _, rfl⟩
  exact (acknowledged_comments_stay (by simp) hrun).1 _ (by simp [oneComment])
    (by simp [oneComment]) oneListed hlisted

/-- A project with room for one more event. -/
def nearlyFull : List CommentObject :=
  (List.range 19999).map fun n =>
    (⟨n, n, 0⟩, some { fileComment [UInt8.ofNat (n % 16)] with time := n })

/-- An opening that was stamped first, and one that was stamped a nanosecond later. -/
def firstStamped : CommentEvent := stampComment (fileComment (ascii "ann")) 20000 0 20000

@[inherit_doc firstStamped]
def thenStamped : CommentEvent := stampComment (fileComment (ascii "bob")) 20001 0 20001

theorem mem_nearlyFull {o : CommentObject} (h : o ∈ nearlyFull) :
    o.1.thread < 20000 ∧ o.1.nanos < 20000 ∧ ∃ b, o.2 = some b ∧ b.author.length = 1 := by
  obtain ⟨n, hn, rfl⟩ := List.mem_map.mp h
  have hlt : n < 19999 := List.mem_range.mp hn
  exact ⟨by simp only; omega, by simp only; omega, _, rfl, rfl⟩

/-- What is stored already is older. -/
theorem nearlyFull_stamp_lt {o : CommentObject} (h : o ∈ nearlyFull) {k : CommentKey}
    (hk : 20000 ≤ k.nanos) : o.1.stamp < k.stamp :=
  Prod.Lex.toLex_lt_toLex.mpr (.inl (Nat.lt_of_lt_of_le (mem_nearlyFull h).2.1 hk))

theorem nearlyFull_ne {o : CommentObject} (h : o ∈ nearlyFull) {k : CommentKey}
    (hk : 20000 ≤ k.nanos) : o.1 ≠ k := fun heq =>
  lt_irrefl _ (heq ▸ nearlyFull_stamp_lt h hk)

theorem length_nearlyFull : nearlyFull.length = 19999 := by simp [nearlyFull]

theorem nearlyFull_stamps : (nearlyFull.map (·.1.stamp)).Nodup := by
  rw [nearlyFull, List.map_map]
  refine List.nodup_range.map fun a b hab => ?_
  exact (Prod.mk.inj (toLex.injective hab)).1

-- What follows uses these facts; nothing has to evaluate the list.
attribute [irreducible] nearlyFull

theorem liveComments_nil (objects : List CommentObject) : liveComments [] objects = objects := by
  simp [liveComments]

/-- While there is room by the listing, the look before a write passes an account without
comments. -/
theorem not_full {caps : CommentCaps} {objects : List CommentObject} {keys : List CommentKey}
    {ev : CommentEvent} (hroom : keys.length < caps.perProject) (hcap : 0 < caps.perAuthor)
    (hnone : ∀ o ∈ objects, ∀ b, o.2 = some b → b.author ≠ ev.author)
    (hkeys : (objects.map Prod.fst).Nodup) :
    full caps (loadCommentEvents caps objects [] keys) ev = false := by
  have hsub := boundByAuthorFrom_sublist caps.perAuthor (fun _ => 0)
    (Rank.sortBy (·.key.stamp) (fetchComments objects [] keys))
  have hlength : (loadCommentEvents caps objects [] keys).length ≤ keys.length := by
    refine hsub.length_le.trans ?_
    rw [(Rank.sortBy_perm _ _).length_eq]
    exact List.length_filterMap_le _ _
  have hmine : (loadCommentEvents caps objects [] keys).countP
      (fun e => e.author = ev.author) = 0 := by
    rw [List.countP_eq_zero]
    intro e he
    have hfetch := (mem_fetchComments hkeys).mp ((Rank.mem_sortBy _).mp (hsub.subset he))
    simpa using hnone _ hfetch.2 _ rfl
  rw [full, hmine, Bool.or_eq_false_iff, decide_eq_false_iff_not, decide_eq_false_iff_not]
  omega

section

variable {ι : Type*} [DecidableEq ι] {caps : CommentCaps} {s : CommentHubs ι} {i : ι}
  {ev : CommentEvent} {keys : List CommentKey}

theorem listing_listed (caps : CommentCaps) (s : CommentHubs ι) (i : ι) :
    (s.listed caps i).Listing i (listComments caps s.dead s.objects) := by
  refine .inr ?_
  change _ ∈ Function.update s.flying i _ i
  rw [Function.update_self]
  exact List.mem_cons_self

theorem step_check (hcall : s.call i = some (.stamped ev)) (hkeys : s.Listing i keys)
    (hroom : full caps (loadCommentEvents caps s.objects [] keys) ev = false) :
    step caps s (.check i keys []) = some (s.proceed i (.checked ev)) := by
  rw [step, hcall]
  simp [hkeys, hroom]

theorem step_readBack (hcall : s.call i = some (.stored ev)) (hkeys : s.Listing i keys)
    (hfound : ev ∈ loadCommentEvents caps s.objects [] keys) :
    step caps s (.readBack i (some keys) []) = some (s.acknowledge i ev) := by
  have hany : (loadCommentEvents caps s.objects [] keys).any (·.key = ev.key) = true :=
    List.any_eq_true.mpr ⟨ev, hfound, by simp⟩
  rw [step, hcall]
  simp [hkeys, hany]

end

/-- What is stored when the first write has landed, and when both have. -/
def fullComments : List CommentObject :=
  (thenStamped.key, some thenStamped.toCommentBody) :: nearlyFull

@[inherit_doc fullComments]
def overfullComments : List CommentObject :=
  (firstStamped.key, some firstStamped.toCommentBody) :: fullComments

theorem firstStamped_lt : firstStamped.key.stamp < thenStamped.key.stamp :=
  Prod.Lex.toLex_lt_toLex.mpr (.inl (Nat.lt_succ_self 20000))

theorem put_thenStamped : putComment thenStamped nearlyFull = fullComments :=
  putComment_of_new fun _ ho => nearlyFull_ne ho (Nat.le_succ 20000)

theorem put_firstStamped : putComment firstStamped fullComments = overfullComments := by
  refine putComment_of_new fun o ho => ?_
  rcases List.mem_cons.mp ho with rfl | ho
  · exact fun heq => lt_irrefl _ (heq ▸ firstStamped_lt)
  · exact nearlyFull_ne ho (le_refl 20000)

theorem fullComments_stamps : (fullComments.map (·.1.stamp)).Nodup := by
  rw [fullComments, List.map_cons, List.nodup_cons]
  refine ⟨fun hmem => ?_, nearlyFull_stamps⟩
  obtain ⟨o, ho, heq⟩ := List.mem_map.mp hmem
  exact (nearlyFull_stamp_lt ho (Nat.le_succ 20000)).ne heq

theorem overfullComments_stamps : (overfullComments.map (·.1.stamp)).Nodup := by
  rw [overfullComments, List.map_cons, List.nodup_cons]
  refine ⟨fun hmem => ?_, fullComments_stamps⟩
  obtain ⟨o, ho, heq⟩ := List.mem_map.mp hmem
  rcases List.mem_cons.mp ho with rfl | ho
  · exact firstStamped_lt.ne' heq
  · exact (nearlyFull_stamp_lt ho (le_refl 20000)).ne heq

/-- The opening that is stored first is within the caps. -/
theorem thenStamped_kept : WithinCaps commentCaps [] fullComments thenStamped := by
  refine ⟨List.mem_cons_self, by simp, ?_, ?_⟩
  · rw [liveComments_nil]
    have hlength : fullComments.length = 20000 := by
      rw [fullComments, List.length_cons, length_nearlyFull]
    have hmem : (thenStamped.key, some thenStamped.toCommentBody) ∈ fullComments :=
      List.mem_cons_self
    have hlt := Rank.rank_lt_length (f := fun o : CommentObject => o.1.stamp) hmem
    rw [hlength] at hlt
    exact hlt
  · refine lt_of_eq_of_lt (Rank.rank_eq_zero_of_forall fun e he => ?_) (Nat.succ_pos 1999)
    obtain ⟨hmem, hauthor⟩ := List.mem_filter.mp he
    rcases List.mem_cons.mp (mem_liveEvents.mp hmem).1 with heq | hold
    · rw [(Prod.mk.inj heq).1]
    · obtain ⟨-, -, b, hb, hlength⟩ := mem_nearlyFull hold
      cases hb
      have heq : e.author = thenStamped.author := by simpa using hauthor
      rw [heq] at hlength
      exact absurd hlength (by decide)

/-- The opening that is stored later displaces it. -/
theorem not_shows_thenStamped :
    ¬ Shows thenStamped (loadThreads commentCaps overfullComments []
      (listComments commentCaps [] overfullComments)) := by
  rintro ⟨t, ht, -⟩
  obtain ⟨o, ho, -, -, hthread, -⟩ := opened_of_foldComments ht
  have hkept := (mem_load_iff overfullComments_stamps).mp ho
  have hkey : o.key = thenStamped.key := by
    rcases List.mem_cons.mp hkept.stored with heq | hstored
    · rw [(Prod.mk.inj heq).1] at hthread
      exact absurd hthread (Nat.ne_of_lt (Nat.lt_succ_self 20000))
    rcases List.mem_cons.mp hstored with heq | hold
    · exact (Prod.mk.inj heq).1
    · have hlt : o.key.thread < 20000 := (mem_nearlyFull hold).1
      rw [hthread] at hlt
      exact absurd hlt (Nat.not_lt.mpr (Nat.le_succ 20000))
  have hrank : Rank.rank (·.1.stamp) overfullComments thenStamped.key.stamp < 20000 := by
    rw [← liveComments_nil overfullComments, ← hkey]
    exact hkept.project
  have hold : Rank.rank (fun o : CommentObject => o.1.stamp) nearlyFull thenStamped.key.stamp =
      19999 := by
    rw [Rank.rank, List.countP_eq_length.mpr fun o ho => by
      simpa using nearlyFull_stamp_lt ho (Nat.le_succ 20000), length_nearlyFull]
  have hfull : Rank.rank (fun o : CommentObject => o.1.stamp) fullComments thenStamped.key.stamp =
      19999 := (Rank.rank_cons_of_le (le_refl _)).trans hold
  have hover : Rank.rank (fun o : CommentObject => o.1.stamp) overfullComments
      thenStamped.key.stamp = Rank.rank (fun o : CommentObject => o.1.stamp) fullComments
        thenStamped.key.stamp + 1 := Rank.rank_cons_of_lt firstStamped_lt
  omega

/-- The look before either write finds room. -/
theorem nearlyFull_not_full {ev : CommentEvent} (hev : ev.author.length = 3) :
    full commentCaps (loadCommentEvents commentCaps nearlyFull []
      (listComments commentCaps [] nearlyFull)) ev = false := by
  refine not_full ?_ (Nat.succ_pos 1999) (fun o ho b hb heq => ?_) (nodup_keys nearlyFull_stamps)
  · refine lt_of_le_of_lt (List.length_take_le' _ _) ?_
    rw [(Rank.sortBy_perm _ _).length_eq, liveComments_nil, List.length_map, length_nearlyFull]
    exact Nat.lt_succ_self 19999
  · obtain ⟨-, -, b', hb', hlength⟩ := mem_nearlyFull ho
    rw [hb'] at hb
    cases hb
    rw [heq, hev] at hlength
    exact absurd hlength (by decide)

theorem step_check_nearlyFull {s : CommentHubs Bool} {i : Bool} {ev : CommentEvent}
    (hobjects : s.objects = nearlyFull) (hdead : s.dead = [])
    (hcall : s.call i = some (.stamped ev)) (hev : ev.author.length = 3) :
    step commentCaps (s.listed commentCaps i)
      (.check i (listComments commentCaps s.dead s.objects) []) =
        some ((s.listed commentCaps i).proceed i (.checked ev)) := by
  refine step_check hcall (listing_listed commentCaps s i) ?_
  change full commentCaps (loadCommentEvents commentCaps s.objects [] _) ev = false
  rw [hobjects, hdead]
  exact nearlyFull_not_full hev

/-- Both openings have their stamps, and the earlier one has the lock of its process. -/
def annBegun : CommentHubs Bool :=
  { proceed (startComments nearlyFull [] 20001) true (.stamped firstStamped) with
    waiting := fun i => if i then [] else [thenStamped] }

/-- It found room, and the later one has the lock of the other process. -/
def bobBegun : CommentHubs Bool :=
  { ((annBegun.listed commentCaps true).proceed true (.checked firstStamped)).proceed false
      (.stamped thenStamped) with
    waiting := fun _ => [] }

theorem annBegun_reached :
    Relation.ReflTransGen (Next commentCaps) (startComments nearlyFull [] 20000) annBegun := by
  refine .head ⟨.create true (fileComment (ascii "ann")) 20000 0, rfl⟩ <|
    .head ⟨.tick 1, rfl⟩ <|
    .head ⟨.create false (fileComment (ascii "bob")) 20001 0, rfl⟩ <|
    .single ⟨.begin_ true firstStamped, ?_⟩
  refine congrArg some (CommentHubs.mk.injEq .. ▸ ⟨rfl, rfl, rfl, rfl, rfl, ?_, rfl, rfl⟩)
  funext i
  cases i <;> rfl

/-- Two openings find the last place. The one that is stored later carries the earlier stamp, and
displaces the other, which was acknowledged. -/
theorem late_write_displaces :
    ¬ ∀ (objects : List CommentObject) (dead : List ℕ) (now : ℕ) (s : CommentHubs Bool),
      (objects.map (·.1.stamp)).Nodup →
      Relation.ReflTransGen (Next commentCaps) (startComments objects dead now) s →
      ∀ e ∈ s.acked, e.key.thread ∉ s.dead → ∀ threads, Answers commentCaps s threads →
        Shows e threads := by
  intro h
  have hrun : ∃ s : CommentHubs Bool,
      Relation.ReflTransGen (Next commentCaps) (startComments nearlyFull [] 20000) s ∧
        s.objects = overfullComments ∧ s.dead = [] ∧ thenStamped ∈ s.acked := by
    have hbob : Relation.ReflTransGen (Next commentCaps) annBegun bobBegun := by
      refine .head ⟨.list true, rfl⟩ <|
        .head ⟨.check true _ [], step_check_nearlyFull (s := annBegun) rfl rfl rfl rfl⟩ <|
        .single ⟨.begin_ false thenStamped, ?_⟩
      refine congrArg some (CommentHubs.mk.injEq .. ▸ ⟨rfl, rfl, rfl, rfl, rfl, ?_, rfl, rfl⟩)
      funext i
      cases i <;> rfl
    refine ⟨_, annBegun_reached.trans <| hbob.trans <| .head ⟨.list false, rfl⟩ <|
      .head ⟨.check false _ [], step_check_nearlyFull (s := bobBegun) rfl rfl rfl rfl⟩ <|
      .head ⟨.put false true true, rfl⟩ <| .head ⟨.list false, rfl⟩ <|
      .head ⟨.readBack false (some _) [], step_readBack rfl (listing_listed _ _ _) ?_⟩ <|
      .single ⟨.put true true true, rfl⟩, ?_, rfl, List.mem_cons_self⟩
    · exact put_thenStamped ▸ (mem_load_iff fullComments_stamps).mpr thenStamped_kept
    · exact (congrArg (putComment firstStamped) put_thenStamped).trans put_firstStamped
  obtain ⟨s, hrun, hobjects, hdead, hacked⟩ := hrun
  refine not_shows_thenStamped ?_
  have hshows := h nearlyFull [] 20000 s nearlyFull_stamps hrun thenStamped hacked
    (by simp [hdead]) _ ⟨s.objects, _, .refl _, .refl _, rfl⟩
  rwa [hobjects, hdead] at hshows

end Beardrive
