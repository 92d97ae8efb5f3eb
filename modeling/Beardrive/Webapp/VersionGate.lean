import Beardrive.Lib.SharedRead
import Mathlib.Order.Nat

/-!
# Reads that are not stale

Every registry answers from a copy of the store that it makes anew when the store says something
moved. Before each read it asks for the store's token, which changes with every write, and compares
it with the one it recorded with its last load. It drops its lock while it asks, and calls that ask
at the same time share the question.

## Why the copy is new enough

The token a call compares was read after the call began. The token a registry recorded was read
before the load it stands for. So when they agree, the load saw everything the call has to see.

## What can go wrong

A load that fails leaves the old copy, on purpose. A load of several queries is not one moment of
the store. A write of one process lands in its copy, also when another process has written since
the copy was made, and a call that asked for its token before both answers from that copy. And
`Delete` leaves a project out of the copy when the store refuses to delete it: the token stands,
and nothing brings the project back.

## Main definitions

* `GatedRegistry` — the store, one registry and the calls on their way
* `GatedRegistry.step` — the steps of `refresh`, of the mutators and of other processes
* `GatedRegistry.Careful` — loads succeed and see one moment, and a write finds what it saw

## Main results

* `GatedRegistry.Sound.step` — what a careful step keeps
* `answers_not_stale` — answers are new enough in a careful run; shared reads are fresh, and
  nobody waits for more than the outstanding ones, in every run
-/

namespace Beardrive

/-- How a store keeps the rows of a registry: in tables, which a load queries in order. -/
structure StoreTables (γ τ : Type*) where
  table : γ → τ
  order : List τ
  all : ∀ g, table g ∈ order

/-- How far a call has come: it waits for the registry's lock, it asks for the token, it waits for
the answer, it has a token or none and waits for the lock, it loads, or it has a fresh copy. -/
inductive GatePhase (γ ρ τ : Type*) where
  | queued
  | asking
  | waiting
  | back (token : Option ℕ)
  | loading (token : Option ℕ) (todo : List τ) (got : γ → ρ)
  | refreshed

/-- What a call answered from: the version of the store when it began, and the copy. -/
structure GateAnswer (γ ρ : Type*) where
  began : ℕ
  content : γ → ρ

/-- A store and one registry over it. The store's token is the number of its writes, and `past` has
its contents at each. A call is known with the version at which it began. -/
structure GatedRegistry (κ γ ρ τ : Type*) where
  store : γ → ρ
  version : ℕ := 0
  past : ℕ → γ → ρ
  byID : γ → ρ
  token : Option ℕ := none
  lock : Option κ := none
  reads : SharedRead κ (Option ℕ) := {}
  call : κ → Option (ℕ × GatePhase γ ρ τ) := fun _ => none
  answers : List (GateAnswer γ ρ) := []

/-- What can happen next. A version read may fail, and a load; the store may refuse a write, or take
one and report an error. -/
inductive GateEvent (κ γ ρ : Type*) where
  | begin_ (k : κ)
  | lock (k : κ)
  | enter (k : κ)
  | readBegins
  | sample (ok : Bool)
  | readEnds
  | handOff
  | leave (k : κ)
  | relock (k : κ)
  | query (k : κ)
  | loaded (k : κ)
  | loadFails (k : κ)
  | put (k : κ) (rows : γ → Option ρ) (landed ok : Bool)
  | delete (k : κ) (rows : γ → Option ρ) (landed : Bool)
  | answer (k : κ)
  | foreign (rows : γ → Option ρ)

/-- Rows that a write sets. -/
def setRows {γ ρ : Type*} (rows : γ → Option ρ) (f : γ → ρ) : γ → ρ :=
  fun g => (rows g).getD (f g)

namespace GatedRegistry

variable {κ γ ρ τ : Type*} [DecidableEq κ] [DecidableEq τ]

/-- A registry that was opened. -/
def opened (content : γ → ρ) : GatedRegistry κ γ ρ τ :=
  { store := content, past := fun _ => content, byID := content }

/-- A write lands in the store. -/
def land (s : GatedRegistry κ γ ρ τ) (rows : γ → Option ρ) : GatedRegistry κ γ ρ τ :=
  { s with
    store := setRows rows s.store
    version := s.version + 1
    past := Function.update s.past (s.version + 1) (setRows rows s.store) }

/-- A call goes on. -/
def go (s : GatedRegistry κ γ ρ τ) (k : κ) (began : ℕ) (phase : GatePhase γ ρ τ) :
    GatedRegistry κ γ ρ τ :=
  { s with call := Function.update s.call k (some (began, phase)) }

/-- What `stale` makes of a token, and `refresh` after it, under the lock. -/
def compare (tables : StoreTables γ τ) (s : GatedRegistry κ γ ρ τ) (token : Option ℕ) :
    GatePhase γ ρ τ :=
  if token.isSome ∧ s.token = token then .refreshed else .loading token tables.order s.byID

/-- One step. A store without versions is loaded every time. -/
def step (tables : StoreTables γ τ) (versioned : Bool) (s : GatedRegistry κ γ ρ τ) :
    GateEvent κ γ ρ → Option (GatedRegistry κ γ ρ τ)
  | .begin_ k => if (s.call k).isNone then some (s.go k s.version .queued) else none
  | .lock k =>
    match s.call k with
    | some (b, .queued) =>
      if s.lock.isSome then none
      else if versioned then some (s.go k b .asking)
      else some { s.go k b (.loading none tables.order s.byID) with lock := some k }
    | _ => none
  | .enter k =>
    match s.call k with
    | some (b, .asking) =>
      (s.reads.step (.enter k)).map fun reads => { s.go k b .waiting with reads := reads }
    | _ => none
  | .readBegins => (s.reads.step .begin_).map fun reads => { s with reads := reads }
  | .sample ok =>
    (s.reads.step (.sample (if ok then some s.version else none))).map fun reads =>
      { s with reads := reads }
  | .readEnds => (s.reads.step .finish).map fun reads => { s with reads := reads }
  | .handOff => (s.reads.step .handOff).map fun reads => { s with reads := reads }
  | .leave k =>
    match s.call k, s.reads.answer k with
    | some (b, .waiting), some token =>
      (s.reads.step (.leave k)).map fun reads => { s.go k b (.back token) with reads := reads }
    | _, _ => none
  | .relock k =>
    match s.call k with
    | some (b, .back token) =>
      if s.lock.isSome then none
      else some { s.go k b (compare tables s token) with lock := some k }
    | _ => none
  | .query k =>
    match s.call k with
    | some (b, .loading token (t :: todo) got) =>
      some (s.go k b (.loading token todo fun g => if tables.table g = t then s.store g else got g))
    | _ => none
  | .loaded k =>
    match s.call k with
    | some (b, .loading token [] got) =>
      some { s.go k b .refreshed with byID := got, token := token.or s.token }
    | _ => none
  | .loadFails k =>
    match s.call k with
    | some (b, .loading _ _ _) => some (s.go k b .refreshed)
    | _ => none
  | .put k rows landed ok =>
    match s.call k with
    | some (_, .refreshed) =>
      if landed then
        some (if ok then { s.land rows with byID := setRows rows s.byID } else s.land rows)
      else some s
    | _ => none
  | .delete k rows landed =>
    match s.call k with
    | some (_, .refreshed) =>
      some { (if landed then s.land rows else s) with byID := setRows rows s.byID }
    | _ => none
  | .answer k =>
    match s.call k with
    | some (b, .refreshed) =>
      some { s with
        lock := none
        call := Function.update s.call k none
        answers := ⟨b, s.byID⟩ :: s.answers }
    | _ => none
  | .foreign rows => some (s.land rows)

/-- The state may become the next one. -/
def Next (tables : StoreTables γ τ) (versioned : Bool) (s s' : GatedRegistry κ γ ρ τ) : Prop :=
  ∃ ev, step tables versioned s ev = some s'

/-- No load is in the middle of its queries. -/
def Between (tables : StoreTables γ τ) (s : GatedRegistry κ γ ρ τ) : Prop :=
  ∀ k b token todo got, s.call k = some (b, .loading token todo got) →
    todo = tables.order ∨ todo = []

/-- A careful step: loads succeed, no write lands in the middle of one, a write that changes the
copy finds in the store what the copy has, and the store deletes what `Delete` is asked for. -/
def Careful (tables : StoreTables γ τ) (s : GatedRegistry κ γ ρ τ) : GateEvent κ γ ρ → Prop
  | .loadFails _ => False
  | .put _ _ landed ok => landed = true → Between tables s ∧ (ok = true → s.byID = s.store)
  | .delete _ _ landed => landed = true ∧ Between tables s ∧ s.byID = s.store
  | .foreign _ => Between tables s
  | _ => True

/-- A careful step. -/
def CarefulNext (tables : StoreTables γ τ) (versioned : Bool) (s s' : GatedRegistry κ γ ρ τ) :
    Prop :=
  ∃ ev, Careful tables s ev ∧ step tables versioned s ev = some s'

/-- An answer reflects a state of the store at least as new as the call. -/
def NotStale (s : GatedRegistry κ γ ρ τ) : Prop :=
  ∀ a ∈ s.answers, ∃ v, a.began ≤ v ∧ v ≤ s.version ∧ a.content = s.past v

/-- What callers of the shared read are given is of a read that began after they asked; at most two
reads are outstanding; and whoever waits may leave or a read goes on, and may leave when the read
it waits for is done, whatever else happens meanwhile. -/
def ReadsShared (s : GatedRegistry κ γ ρ τ) : Prop :=
  (∀ p ∈ s.reads.received, ∃ t, p.2 = some t ∧ p.1 < t) ∧ s.reads.outstanding.length ≤ 2 ∧
    ∀ k w, s.reads.waiting k = some w →
      ((s.reads.answer k).isSome ∨ ∃ reads, SharedRead.ReadStep s.reads reads) ∧
        ∀ n reads, SharedRead.Going k n s.reads reads → s.reads.toGo w.read ≤ n →
          (reads.answer k).isSome

/-! ### Shared reads, in every run -/

section

variable {tables : StoreTables γ τ} {versioned : Bool} {s s' : GatedRegistry κ γ ρ τ}

/-- A step takes one step of the shared read, or none. -/
theorem reads_step {ev : GateEvent κ γ ρ} (h : step tables versioned s ev = some s') :
    s'.reads = s.reads ∨ SharedRead.Next s.reads s'.reads := by
  cases ev with
  | begin_ k =>
    rw [step, Option.ite_none_right_eq_some] at h
    cases h.2
    exact .inl rfl
  | lock k =>
    rw [step] at h
    split at h
    · split_ifs at h <;> cases h <;> exact .inl rfl
    · cases h
  | enter k =>
    rw [step] at h
    split at h
    · obtain ⟨reads, hreads, rfl⟩ := Option.map_eq_some_iff.mp h
      exact .inr ⟨_, hreads⟩
    · cases h
  | readBegins =>
    obtain ⟨reads, hreads, rfl⟩ := Option.map_eq_some_iff.mp h
    exact .inr ⟨_, hreads⟩
  | sample ok =>
    obtain ⟨reads, hreads, rfl⟩ := Option.map_eq_some_iff.mp h
    exact .inr ⟨_, hreads⟩
  | readEnds =>
    obtain ⟨reads, hreads, rfl⟩ := Option.map_eq_some_iff.mp h
    exact .inr ⟨_, hreads⟩
  | handOff =>
    obtain ⟨reads, hreads, rfl⟩ := Option.map_eq_some_iff.mp h
    exact .inr ⟨_, hreads⟩
  | leave k =>
    rw [step] at h
    split at h
    · obtain ⟨reads, hreads, rfl⟩ := Option.map_eq_some_iff.mp h
      exact .inr ⟨_, hreads⟩
    · cases h
  | relock k =>
    rw [step] at h
    split at h
    · split_ifs at h
      cases h
      exact .inl rfl
    · cases h
  | put k rows landed ok =>
    rw [step] at h
    split at h
    · split_ifs at h <;> cases h <;> exact .inl rfl
    · cases h
  | delete k rows landed =>
    rw [step] at h
    split at h
    · cases h
      cases landed <;> exact .inl rfl
    · cases h
  | foreign rows =>
    cases h
    exact .inl rfl
  | query k | loaded k | loadFails k | answer k =>
    rw [step] at h
    split at h <;> cases h
    exact .inl rfl

theorem readsSound_step (hs : s.reads.Sound) (h : Next tables versioned s s') : s'.reads.Sound := by
  obtain ⟨ev, hstep⟩ := h
  rcases reads_step hstep with heq | hnext
  · rwa [heq]
  · exact hs.step hnext

theorem readsSound_of_run (h : Relation.ReflTransGen (Next tables versioned) s s')
    (hs : s.reads.Sound) : s'.reads.Sound := by
  induction h with
  | refl => exact hs
  | tail _ hstep ih => exact readsSound_step ih hstep

omit [DecidableEq τ] in
theorem readsShared_of_sound (hs : s.reads.Sound) : s.ReadsShared :=
  ⟨hs.received, s.reads.outstanding_le, fun _ _ hw =>
    ⟨hs.answer_or_readStep hw none, fun _ _ hrun hn => (hs.leaves hw hrun hn)⟩⟩

end

/-! ### What a careful step keeps -/

omit [DecidableEq κ] [DecidableEq τ] in
theorem between_of_idle {tables : StoreTables γ τ} {s : GatedRegistry κ γ ρ τ}
    (h : ∀ k, s.call k = none) : Between tables s := by
  intro k b token todo got hcall
  rw [h k] at hcall
  cases hcall

/-- A token that was read since a call began. -/
def TokenFits (s : GatedRegistry κ γ ρ τ) (began : ℕ) (token : Option ℕ) : Prop :=
  ∀ t, token = some t → began ≤ t ∧ t ≤ s.version

/-- What is known of a call. What a load has got so far is of one moment, and of this one as long as
there is more to query. -/
def CallFresh (tables : StoreTables γ τ) (s : GatedRegistry κ γ ρ τ) (k : κ) (began : ℕ) :
    GatePhase γ ρ τ → Prop
  | .queued => True
  | .asking => True
  | .waiting => ∃ w, s.reads.waiting k = some w ∧
      ∀ token, s.reads.HasValue w.read token → TokenFits s began token
  | .back token => TokenFits s began token
  | .loading token todo got => s.lock = some k ∧ ∃ v, began ≤ v ∧ v ≤ s.version ∧
      (∀ t, token = some t ∨ s.token = some t → t ≤ v) ∧
      (∀ g, tables.table g ∉ todo → got g = s.past v g) ∧ (todo ≠ [] → v = s.version)
  | .refreshed => s.lock = some k ∧ ∃ v, began ≤ v ∧ v ≤ s.version ∧ s.byID = s.past v

/-- What is known between careful steps. -/
structure Sound (tables : StoreTables γ τ) (s : GatedRegistry κ γ ρ τ) : Prop where
  reads : s.reads.Sound
  present : s.past s.version = s.store
  token : ∀ t, s.token = some t → ∃ v, t ≤ v ∧ v ≤ s.version ∧ s.byID = s.past v
  call : ∀ k b phase, s.call k = some (b, phase) → b ≤ s.version ∧ CallFresh tables s k b phase
  answers : s.NotStale

section

variable {tables : StoreTables γ τ} {versioned : Bool} {s s' : GatedRegistry κ γ ρ τ}

omit [DecidableEq κ] [DecidableEq τ] in
theorem sound_opened (content : γ → ρ) :
    Sound tables (opened content : GatedRegistry κ γ ρ τ) where
  reads := SharedRead.sound_start
  present := rfl
  token := by simp [opened]
  call := by simp [opened]
  answers := by simp [NotStale, opened]

omit [DecidableEq κ] [DecidableEq τ] in
/-- The other calls do not hold the lock, and know what they knew. -/
theorem CallFresh.other {k : κ} {b : ℕ} {phase : GatePhase γ ρ τ}
    (h : CallFresh tables s k b phase) (hlock : s.lock ≠ some k) (hreads : s'.reads = s.reads)
    (hversion : s.version ≤ s'.version) : CallFresh tables s' k b phase := by
  cases phase with
  | queued => trivial
  | asking => trivial
  | waiting =>
    obtain ⟨w, hw, hvalue⟩ := h
    rw [← hreads] at hw hvalue
    refine ⟨w, hw, fun token htoken t ht => ?_⟩
    exact (hvalue token htoken t ht).imp_right fun h => h.trans hversion
  | back token => exact fun t ht => (h t ht).imp_right fun h => h.trans hversion
  | loading token todo got => exact absurd h.1 hlock
  | refreshed => exact absurd h.1 hlock

omit [DecidableEq τ] in
/-- A step of one call that has the lock, or takes it or gives it up, is that call's own matter. -/
theorem Sound.own (hs : Sound tables s) {k : κ} {b : ℕ} {phase : GatePhase γ ρ τ}
    (hlock : ∀ j, j ≠ k → s.lock ≠ some j)
    (hreads : s'.reads = s.reads) (hstore : s'.store = s.store) (hversion : s'.version = s.version)
    (hpast : s'.past = s.past) (hcall : s'.call = Function.update s.call k (some (b, phase)))
    (hb : b ≤ s.version) (hphase : CallFresh tables s' k b phase)
    (htoken : ∀ t, s'.token = some t → ∃ v, t ≤ v ∧ v ≤ s'.version ∧ s'.byID = s'.past v)
    (hanswers : s'.answers = s.answers) : Sound tables s' where
  reads := hreads ▸ hs.reads
  present := by rw [hpast, hversion, hstore, hs.present]
  token := htoken
  call j b' phase' hj := by
    rw [hcall] at hj
    by_cases hjk : j = k
    · rw [hjk, Function.update_self] at hj
      cases hj
      exact ⟨hversion ▸ hb, hjk ▸ hphase⟩
    · rw [Function.update_of_ne hjk] at hj
      obtain ⟨hb', hfresh⟩ := hs.call j b' phase' hj
      exact ⟨hversion ▸ hb', hfresh.other (hlock j hjk) hreads hversion.ge⟩
  answers a ha := by
    rw [hanswers] at ha
    rw [hversion, hpast]
    exact hs.answers a ha

omit [DecidableEq τ] in
/-- A step of one call that touches neither the lock nor the copy. -/
theorem Sound.quiet (hs : Sound tables s) {k : κ} {b : ℕ} {phase : GatePhase γ ρ τ}
    (hb : b ≤ s.version) (hphase : CallFresh tables (s.go k b phase) k b phase) :
    Sound tables (s.go k b phase) where
  reads := hs.reads
  present := hs.present
  token := hs.token
  call j b' phase' hj := by
    change Function.update s.call k (some (b, phase)) j = _ at hj
    by_cases hjk : j = k
    · rw [hjk, Function.update_self] at hj
      cases hj
      exact ⟨hb, hjk ▸ hphase⟩
    · rw [Function.update_of_ne hjk] at hj
      obtain ⟨hb', hfresh⟩ := hs.call j b' phase' hj
      refine ⟨hb', ?_⟩
      cases phase' <;> exact hfresh
  answers := hs.answers

omit [DecidableEq τ] in
/-- A step of the shared read, for the calls that neither ask nor leave. -/
theorem CallFresh.read {ev : SharedReadEvent κ (Option ℕ)} {reads : SharedRead κ (Option ℕ)}
    {j : κ} {b : ℕ} {phase : GatePhase γ ρ τ} (hb : b ≤ s.version)
    (h : CallFresh tables s j b phase) (hreads : s.reads.step ev = some reads)
    (hsample : ∀ t, ev = .sample (some t) → t = s.version) (henter : ev ≠ .enter j)
    (hleave : ev ≠ .leave j) : CallFresh tables { s with reads := reads } j b phase := by
  cases phase with
  | waiting =>
    obtain ⟨w, hw, hvalue⟩ := h
    refine ⟨w, (SharedRead.waiting_of_step hreads henter hleave).trans hw, fun token htoken => ?_⟩
    rcases SharedRead.hasValue_step hreads htoken with hold | hnew
    · exact hvalue token hold
    · rintro t rfl
      rw [hsample t hnew]
      exact ⟨hb, le_refl _⟩
  | queued => trivial
  | asking => trivial
  | back token => exact h
  | loading token todo got => exact h
  | refreshed => exact h

omit [DecidableEq τ] in
theorem Sound.read {ev : SharedReadEvent κ (Option ℕ)} {reads : SharedRead κ (Option ℕ)}
    (hs : Sound tables s) (hreads : s.reads.step ev = some reads)
    (hsample : ∀ t, ev = .sample (some t) → t = s.version)
    (hev : ∀ k, ev ≠ .enter k ∧ ev ≠ .leave k) : Sound tables { s with reads := reads } where
  reads := hs.reads.step ⟨ev, hreads⟩
  present := hs.present
  token := hs.token
  call j b phase hj := ⟨(hs.call j b phase hj).1,
    (hs.call j b phase hj).2.read (hs.call j b phase hj).1 hreads hsample (hev j).1 (hev j).2⟩
  answers := hs.answers

omit [DecidableEq τ] in
/-- A call asks, or leaves with its token. -/
theorem Sound.readOf {ev : SharedReadEvent κ (Option ℕ)} {reads : SharedRead κ (Option ℕ)} {k : κ}
    {b : ℕ} {phase : GatePhase γ ρ τ} (hs : Sound tables s) (hreads : s.reads.step ev = some reads)
    (hev : ev = .enter k ∨ ev = .leave k) (hb : b ≤ s.version)
    (hphase : CallFresh tables { s.go k b phase with reads := reads } k b phase) :
    Sound tables { s.go k b phase with reads := reads } where
  reads := hs.reads.step ⟨ev, hreads⟩
  present := hs.present
  token := hs.token
  call j b' phase' hj := by
    change Function.update s.call k (some (b, phase)) j = _ at hj
    by_cases hjk : j = k
    · rw [hjk, Function.update_self] at hj
      cases hj
      exact ⟨hb, hjk ▸ hphase⟩
    · rw [Function.update_of_ne hjk] at hj
      obtain ⟨hb', hfresh⟩ := hs.call j b' phase' hj
      have hread := hfresh.read hb' hreads (by rcases hev with rfl | rfl <;> simp)
        (by rcases hev with rfl | rfl <;> simp [Ne.symm hjk])
        (by rcases hev with rfl | rfl <;> simp [Ne.symm hjk])
      refine ⟨hb', ?_⟩
      cases phase' <;> exact hread
  answers := hs.answers

omit [DecidableEq κ] [DecidableEq τ] in
/-- A write lands between the loads. -/
theorem Sound.land (hs : Sound tables s) (hbetween : Between tables s) (rows : γ → Option ρ) :
    Sound tables (s.land rows) := by
  have hpast : ∀ {v}, v ≤ s.version → (s.land rows).past v = s.past v := fun hv =>
    Function.update_of_ne (Nat.ne_of_lt (Nat.lt_succ_of_le hv)) ..
  refine ⟨hs.reads, ?_, fun t ht => ?_, fun k b phase hk => ?_, fun a ha => ?_⟩
  · exact Function.update_self ..
  · obtain ⟨v, htv, hv, hbyID⟩ := hs.token t ht
    exact ⟨v, htv, Nat.le_succ_of_le hv, hbyID.trans (hpast hv).symm⟩
  · obtain ⟨hb, hfresh⟩ := hs.call k b phase hk
    refine ⟨Nat.le_succ_of_le hb, ?_⟩
    cases phase with
    | queued => trivial
    | asking => trivial
    | waiting =>
      obtain ⟨w, hw, hvalue⟩ := hfresh
      exact ⟨w, hw, fun token htoken t ht =>
        (hvalue token htoken t ht).imp_right Nat.le_succ_of_le⟩
    | back token => exact fun t ht => (hfresh t ht).imp_right Nat.le_succ_of_le
    | loading token todo got =>
      obtain ⟨hlock, v, hbv, hv, htokens, hgot, hnow⟩ := hfresh
      refine ⟨hlock, ?_⟩
      rcases hbetween k b token todo got hk with rfl | rfl
      · exact ⟨s.version + 1, Nat.le_succ_of_le hb, le_refl _,
          fun t ht => (htokens t ht).trans (Nat.le_succ_of_le hv),
          fun g hg => absurd (tables.all g) hg, fun _ => rfl⟩
      · exact ⟨v, hbv, Nat.le_succ_of_le hv, htokens,
          fun g hg => (hgot g hg).trans (congrFun (hpast hv).symm g), fun h => absurd rfl h⟩
    | refreshed =>
      obtain ⟨hlock, v, hbv, hv, hbyID⟩ := hfresh
      exact ⟨hlock, v, hbv, Nat.le_succ_of_le hv, hbyID.trans (hpast hv).symm⟩
  · obtain ⟨v, hav, hv, hcontent⟩ := hs.answers a ha
    exact ⟨v, hav, Nat.le_succ_of_le hv, hcontent.trans (hpast hv).symm⟩

omit [DecidableEq κ] [DecidableEq τ] in
/-- The holder of the lock writes what it has found, and the copy is the store again. -/
theorem Sound.landCopy {k : κ} {b : ℕ} (hs : Sound tables s)
    (hcall : s.call k = some (b, .refreshed)) (hbetween : Between tables s)
    (hbyID : s.byID = s.store) (rows : γ → Option ρ) :
    Sound tables { s.land rows with byID := setRows rows s.byID } := by
  have hland := hs.land hbetween rows
  have hcopy : setRows rows s.byID = (s.land rows).past (s.version + 1) := by
    rw [hbyID]
    exact (Function.update_self (s.version + 1) (setRows rows s.store) s.past).symm
  have hlock : s.lock = some k := (hs.call k b _ hcall).2.1
  refine ⟨hland.reads, hland.present, fun t ht => ?_, fun j b' phase hj => ?_, hland.answers⟩
  · obtain ⟨v, htv, hv, -⟩ := hland.token t ht
    exact ⟨s.version + 1, htv.trans hv, le_refl _, hcopy⟩
  · obtain ⟨hb', hfresh⟩ := hland.call j b' phase hj
    refine ⟨hb', ?_⟩
    cases phase with
    | queued => trivial
    | asking => trivial
    | waiting => exact hfresh
    | back token => exact hfresh
    | loading token todo got => exact hfresh
    | refreshed => exact ⟨hfresh.1, s.version + 1, hb', le_refl _, hcopy⟩

omit [DecidableEq τ] in
/-- A call answers and lets go of the lock. -/
theorem Sound.answer (hs : Sound tables s) {k : κ} {b : ℕ} (hcall : s.call k = some (b, .refreshed)) :
    Sound tables { s with
      lock := none
      call := Function.update s.call k none
      answers := ⟨b, s.byID⟩ :: s.answers } := by
  obtain ⟨-, hlock, v, hbv, hv, hbyID⟩ := hs.call k b _ hcall
  refine ⟨hs.reads, hs.present, hs.token, fun j b' phase hj => ?_, fun a ha => ?_⟩
  · change Function.update s.call k none j = _ at hj
    by_cases hjk : j = k
    · rw [hjk, Function.update_self] at hj
      cases hj
    · rw [Function.update_of_ne hjk] at hj
      obtain ⟨hb', hfresh⟩ := hs.call j b' phase hj
      have hother : s.lock ≠ some j := by simpa [hlock] using Ne.symm hjk
      exact ⟨hb', hfresh.other hother rfl (le_refl _)⟩
  · rcases List.mem_cons.mp ha with rfl | ha
    · exact ⟨v, hbv, hv, hbyID⟩
    · exact hs.answers a ha

omit [DecidableEq κ] [DecidableEq τ] in
/-- A call has the lock again: the recorded token vouches for the copy, or a load begins. -/
theorem Sound.compare (hs : Sound tables s) {k : κ} {b : ℕ} {token : Option ℕ} (hb : b ≤ s.version)
    (htoken : TokenFits s b token) :
    CallFresh tables { s with lock := some k } k b (compare tables s token) := by
  rw [GatedRegistry.compare]
  split_ifs with h
  · obtain ⟨hsome, heq⟩ := h
    obtain ⟨t, rfl⟩ := Option.isSome_iff_exists.mp hsome
    obtain ⟨v, htv, hv, hbyID⟩ := hs.token t heq
    exact ⟨rfl, v, (htoken t rfl).1.trans htv, hv, hbyID⟩
  · refine ⟨rfl, s.version, hb, le_refl _, ?_, fun g hg => absurd (tables.all g) hg, fun _ => rfl⟩
    rintro t (ht | ht)
    · exact (htoken t ht).2
    · obtain ⟨v, htv, hv, -⟩ := hs.token t ht
      exact htv.trans hv

omit [DecidableEq κ] in
/-- A query adds the rows of its table as they are now. -/
theorem CallFresh.query {k : κ} {b : ℕ} {token : Option ℕ} {t : τ} {todo : List τ} {got : γ → ρ}
    (h : CallFresh tables s k b (.loading token (t :: todo) got)) (hs : Sound tables s) :
    CallFresh tables s k b
      (.loading token todo fun g => if tables.table g = t then s.store g else got g) := by
  obtain ⟨hlock, v, hbv, hv, htokens, hgot, hnow⟩ := h
  have hpresent : v = s.version := hnow (List.cons_ne_nil _ _)
  refine ⟨hlock, v, hbv, hv, htokens, fun g hg => ?_, fun _ => hpresent⟩
  change (if tables.table g = t then s.store g else got g) = _
  by_cases ht : tables.table g = t
  · rw [if_pos ht, hpresent, hs.present]
  · rw [if_neg ht]
    exact hgot g fun hmem => (List.mem_cons.mp hmem).elim ht hg

/-- **What a careful step keeps.** -/
theorem Sound.step (hs : Sound tables s) (h : CarefulNext tables versioned s s') :
    Sound tables s' := by
  obtain ⟨ev, hcareful, hstep⟩ := h
  cases ev with
  | begin_ k =>
    rw [GatedRegistry.step, Option.ite_none_right_eq_some] at hstep
    cases hstep.2
    exact hs.quiet (le_refl _) trivial
  | lock k =>
    rw [GatedRegistry.step] at hstep
    split at hstep
    · rename_i b hcall
      have hb := (hs.call k b _ hcall).1
      split_ifs at hstep with hlock hversioned
      · cases hstep
        exact hs.quiet hb trivial
      · cases hstep
        have hfree : s.lock = none := by simpa using hlock
        have hphase : CallFresh tables { s with lock := some k } k b
            (GatedRegistry.compare tables s none) :=
          hs.compare hb (by simp [TokenFits])
        refine hs.own (by simp [hfree]) rfl rfl rfl rfl rfl hb hphase hs.token rfl
    · cases hstep
  | enter k =>
    rw [GatedRegistry.step] at hstep
    split at hstep
    · rename_i b hcall
      obtain ⟨reads, hreads, rfl⟩ := Option.map_eq_some_iff.mp hstep
      obtain ⟨w, hw, hvalue⟩ := hs.reads.waits_of_enter hreads
      exact hs.readOf hreads (.inl rfl) (hs.call k b _ hcall).1
        ⟨w, hw, fun token htoken => absurd htoken (hvalue token)⟩
    · cases hstep
  | readBegins =>
    obtain ⟨reads, hreads, rfl⟩ := Option.map_eq_some_iff.mp hstep
    exact hs.read hreads (by simp) (by simp)
  | sample ok =>
    obtain ⟨reads, hreads, rfl⟩ := Option.map_eq_some_iff.mp hstep
    refine hs.read hreads (fun t ht => ?_) (by simp)
    cases ok <;> cases ht
    rfl
  | readEnds =>
    obtain ⟨reads, hreads, rfl⟩ := Option.map_eq_some_iff.mp hstep
    exact hs.read hreads (by simp) (by simp)
  | handOff =>
    obtain ⟨reads, hreads, rfl⟩ := Option.map_eq_some_iff.mp hstep
    exact hs.read hreads (by simp) (by simp)
  | leave k =>
    rw [GatedRegistry.step] at hstep
    split at hstep
    · rename_i b token hcall hanswer
      obtain ⟨reads, hreads, rfl⟩ := Option.map_eq_some_iff.mp hstep
      obtain ⟨hb, w, hw, hvalue⟩ := hs.call k b _ hcall
      exact hs.readOf hreads (.inr rfl) hb
        (hvalue token (SharedRead.hasValue_of_answer hw hanswer))
    · cases hstep
  | relock k =>
    rw [GatedRegistry.step] at hstep
    split at hstep
    · rename_i b token hcall
      obtain ⟨hb, htoken⟩ := hs.call k b _ hcall
      split_ifs at hstep with hlock
      cases hstep
      have hfree : s.lock = none := by simpa using hlock
      have hphase := hs.compare (k := k) hb htoken
      refine hs.own (by simp [hfree]) rfl rfl rfl rfl rfl hb ?_ hs.token rfl
      cases hcompare : GatedRegistry.compare tables s token <;> rw [hcompare] at hphase <;>
        exact hphase
    · cases hstep
  | query k =>
    rw [GatedRegistry.step] at hstep
    split at hstep
    · rename_i b token t todo got hcall
      obtain ⟨hb, hfresh⟩ := hs.call k b _ hcall
      cases hstep
      exact hs.quiet hb (hfresh.query hs)
    · cases hstep
  | loaded k =>
    rw [GatedRegistry.step] at hstep
    split at hstep
    · rename_i b token got hcall
      obtain ⟨hb, hlock, v, hbv, hv, htokens, hgot, -⟩ := hs.call k b _ hcall
      have hcopy : got = s.past v := funext fun g => hgot g (by simp)
      cases hstep
      refine hs.own (by simp [hlock, eq_comm]) rfl rfl rfl rfl rfl hb ⟨hlock, v, hbv, hv, hcopy⟩
        (fun t ht => ⟨v, htokens t ?_, hv, hcopy⟩) rfl
      cases token with
      | none => exact .inr ht
      | some t' => exact .inl ht
    · cases hstep
  | loadFails k => exact hcareful.elim
  | put k rows landed ok =>
    rw [GatedRegistry.step] at hstep
    split at hstep
    · rename_i b hcall
      cases landed with
      | false =>
        cases hstep
        exact hs
      | true =>
        obtain ⟨hbetween, hcopy⟩ := hcareful rfl
        cases ok with
        | false =>
          cases hstep
          exact hs.land hbetween rows
        | true =>
          cases hstep
          exact hs.landCopy hcall hbetween (hcopy rfl) rows
    · cases hstep
  | delete k rows landed =>
    obtain ⟨rfl, hbetween, hcopy⟩ := hcareful
    rw [GatedRegistry.step] at hstep
    split at hstep
    · rename_i b hcall
      cases hstep
      exact hs.landCopy hcall hbetween hcopy rows
    · cases hstep
  | answer k =>
    rw [GatedRegistry.step] at hstep
    split at hstep
    · rename_i b hcall
      cases hstep
      exact hs.answer hcall
    · cases hstep
  | foreign rows =>
    cases hstep
    exact hs.land hcareful rows

end

end GatedRegistry

/-! ### Answers -/

open GatedRegistry

/-- **Answers are not stale**: in a run in which loads succeed and see one moment of the store, and
a write finds in the store what the copy has, every answer is a state of the store at least as new
as the call. In every run, what callers of the shared read are given is of a read that began after
they asked, at most two reads are outstanding, and nobody waits for more than those. -/
theorem answers_not_stale {κ γ ρ τ : Type*} [DecidableEq κ] [DecidableEq τ]
    (tables : StoreTables γ τ) (versioned : Bool) (content : γ → ρ) (s : GatedRegistry κ γ ρ τ) :
    (Relation.ReflTransGen (Next tables versioned) (opened content) s → s.ReadsShared) ∧
      (Relation.ReflTransGen (CarefulNext tables versioned) (opened content) s → s.NotStale) := by
  refine ⟨fun h => readsShared_of_sound (readsSound_of_run h SharedRead.sound_start), fun h => ?_⟩
  have hsound := Runs.invariant h (fun _ _ => Sound.step) (sound_opened content)
  exact hsound.answers

/-- One table with one row. -/
def oneRow : StoreTables Unit Unit := ⟨id, [()], fun _ => List.mem_singleton_self _⟩

/-- A registry of one grant that was opened. -/
def grantOpened : GatedRegistry Unit Unit Bool Unit := opened fun _ => true

/-- A grant is read, another process takes it away, and the next call finds it gone. -/
theorem revocation_seen : ∃ s : GatedRegistry Unit Unit Bool Unit,
    s.answers = [⟨1, fun _ => false⟩, ⟨0, fun _ => true⟩] ∧ s.NotStale := by
  have hrun : ∃ s, Relation.ReflTransGen (CarefulNext oneRow true) grantOpened s ∧
      s.answers = [⟨1, fun _ => false⟩, ⟨0, fun _ => true⟩] :=
    ⟨_, .head ⟨.begin_ (), trivial, rfl⟩ <| .head ⟨.lock (), trivial, rfl⟩ <|
      .head ⟨.enter (), trivial, rfl⟩ <| .head ⟨.readBegins, trivial, rfl⟩ <|
      .head ⟨.sample true, trivial, rfl⟩ <| .head ⟨.readEnds, trivial, rfl⟩ <|
      .head ⟨.handOff, trivial, rfl⟩ <| .head ⟨.leave (), trivial, rfl⟩ <|
      .head ⟨.relock (), trivial, rfl⟩ <| .head ⟨.query (), trivial, rfl⟩ <|
      .head ⟨.loaded (), trivial, rfl⟩ <| .head ⟨.answer (), trivial, rfl⟩ <|
      .head ⟨.foreign fun _ => some false, between_of_idle fun _ => rfl, rfl⟩ <|
      .head ⟨.begin_ (), trivial, rfl⟩ <| .head ⟨.lock (), trivial, rfl⟩ <|
      .head ⟨.enter (), trivial, rfl⟩ <| .head ⟨.readBegins, trivial, rfl⟩ <|
      .head ⟨.sample true, trivial, rfl⟩ <| .head ⟨.readEnds, trivial, rfl⟩ <|
      .head ⟨.handOff, trivial, rfl⟩ <| .head ⟨.leave (), trivial, rfl⟩ <|
      .head ⟨.relock (), trivial, rfl⟩ <| .head ⟨.query (), trivial, rfl⟩ <|
      .head ⟨.loaded (), trivial, rfl⟩ <| .single ⟨.answer (), trivial, rfl⟩, rfl⟩
  obtain ⟨s, hrun, hanswers⟩ := hrun
  exact ⟨s, hanswers, (answers_not_stale oneRow true _ s).2 hrun⟩

/-- The store refuses to delete a row. The next call asks for the token, finds it unchanged, and
answers that the row is gone. -/
theorem refused_delete_applied :
    ¬ ∀ (tables : StoreTables Unit Unit) (versioned : Bool) (content : Unit → Bool)
      (s : GatedRegistry Unit Unit Bool Unit),
      Relation.ReflTransGen (Next tables versioned) (opened content) s →
        s.NotStale ∧ s.ReadsShared := by
  intro h
  have hrun : ∃ s, Relation.ReflTransGen (Next oneRow true) grantOpened s ∧
      (⟨0, fun _ => false⟩ : GateAnswer Unit Bool) ∈ s.answers ∧ s.version = 0 ∧
        s.past 0 () = true :=
    ⟨_, .head ⟨.begin_ (), rfl⟩ <| .head ⟨.lock (), rfl⟩ <| .head ⟨.enter (), rfl⟩ <|
      .head ⟨.readBegins, rfl⟩ <| .head ⟨.sample true, rfl⟩ <| .head ⟨.readEnds, rfl⟩ <|
      .head ⟨.handOff, rfl⟩ <| .head ⟨.leave (), rfl⟩ <| .head ⟨.relock (), rfl⟩ <|
      .head ⟨.query (), rfl⟩ <| .head ⟨.loaded (), rfl⟩ <|
      .head ⟨.delete () (fun _ => some false) false, rfl⟩ <|
      .head ⟨.answer (), rfl⟩ <| .head ⟨.begin_ (), rfl⟩ <| .head ⟨.lock (), rfl⟩ <|
      .head ⟨.enter (), rfl⟩ <| .head ⟨.readBegins, rfl⟩ <| .head ⟨.sample true, rfl⟩ <|
      .head ⟨.readEnds, rfl⟩ <| .head ⟨.handOff, rfl⟩ <| .head ⟨.leave (), rfl⟩ <|
      .head ⟨.relock (), rfl⟩ <| .single ⟨.answer (), rfl⟩, List.mem_cons_self, rfl, rfl⟩
  obtain ⟨s, hrun, hanswer, hversion, hpast⟩ := hrun
  obtain ⟨v, -, hv, hcontent⟩ := (h oneRow true _ s hrun).1 _ hanswer
  rw [hversion, Nat.le_zero] at hv
  rw [hv] at hcontent
  rw [← congrFun hcontent ()] at hpast
  cases hpast

end Beardrive
