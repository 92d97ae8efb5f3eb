import Beardrive.Lib.Runs
import Mathlib.Algebra.Order.Ring.Int
import Mathlib.Logic.Function.Basic

/-!
# One writer per room

Several hub processes may host a room, and the one that writes it holds a lease: a record in the
store, taken and renewed by compare-and-swap, that names the holder and says until when. A process
remembers the version it wrote and until when its lease stands. Up to half its life it answers from
memory, and after that it renews.

## Time

A process that answers from memory has the other half of the lease's life left. Another process
takes the lease only when it stands no longer by its own clock, so that clocks may differ by less
than half a life. But the time a lease stands counts from before the write, and the process does
not look at its clock again when the write is answered. An answer that takes too long lets in a
process whose lease has passed on.

## Writes without an answer

A write may land although its caller saw an error, also later. A process that sees one forgets its
lease, which is safe, unless its request was cancelled. Then it keeps what it remembered: an old
lease after a renewal, which ends earlier than what is stored, and after a release a lease that is
stored no more.

## Main definitions

* `LeaseHubs` — the processes, the stored record and the writes on their way
* `LeaseHubs.step` — the steps of `holdLease` and `releaseLease`
* `LeaseHubs.Claim` — what a process believes to hold

## Main results

* `LeaseHubs.Sound.step` — a claim is stored, or has run out by some clock
* `one_writer` — one process at a time is told that it writes
-/

namespace Beardrive

/-! ### Leases -/

/-- `leaseTTL`, in nanoseconds. -/
def leaseTTL : ℤ := 30 * 10 ^ 9

/-- `leaseRecord`. A lease that was given up stands until no time. -/
structure LeaseRecord (ι : Type*) where
  holder : ι
  until_ : Option ℤ
  deriving DecidableEq

/-- `now.Before(rec.Until)`. -/
def LeaseRecord.live {ι : Type*} (r : LeaseRecord ι) (now : ℤ) : Bool :=
  r.until_.any fun u => now < u

/-- `roomLease`: what a process remembers of its lease. -/
structure RoomLease where
  version : ℕ
  until_ : ℤ
  deriving DecidableEq

/-- A `PutIf` of a record, over the version it expects: zero where it expects no record. -/
structure LeasePut (ι : Type*) where
  record : LeaseRecord ι
  expect : ℕ
  deriving DecidableEq

/-- How far a call has come. A process makes one call at a time: it holds `leaseMu`. A write that
has landed has a version. -/
inductive LeaseCall (ι : Type*) where
  | reading (now : ℤ)
  | taking (put : LeasePut ι) (landed : Option ℕ)
  | releasing (put : LeasePut ι) (landed : Option ℕ)
  deriving DecidableEq

/-- The hub processes of one room and its record, the versions of which are counted.

The writes in `stray` are those whose callers are gone. `held` says with which lease, and when by
its clock, a process was last told that it writes, unless it gave the lease up since; `crashed` has
the clocks at the time a process died. -/
structure LeaseHubs (ι : Type*) where
  record : Option (LeaseRecord ι) := none
  version : ℕ := 0
  clock : ι → ℤ
  cached : ι → Option RoomLease := fun _ => none
  call : ι → Option (LeaseCall ι) := fun _ => none
  stray : List (LeasePut ι) := []
  held : ι → Option (RoomLease × ℤ) := fun _ => none
  crashed : ι → Option (ι → ℤ) := fun _ => none

/-- What can happen next. An answer is an error or none; the context may have been cancelled, and a
write that has not landed may be lost, or may land later. -/
inductive LeaseEvent (ι : Type*) where
  | tick (clock : ι → ℤ)
  | hold (i : ι)
  | read (i : ι) (ok : Bool)
  | release (i : ι)
  | land (i : ι)
  | landStray (put : LeasePut ι)
  | answer (i : ι) (ok cancelled lost : Bool)
  | crash (i : ι)

namespace LeaseHubs

variable {ι : Type*} [DecidableEq ι]

/-- A process runs and makes no call. -/
def free (s : LeaseHubs ι) (i : ι) : Bool := (s.call i).isNone && (s.crashed i).isNone

/-- The lease a process may answer from. -/
def fresh (s : LeaseHubs ι) (i : ι) : Option RoomLease :=
  (s.cached i).filter fun l => s.clock i < l.until_ - leaseTTL / 2

/-- A write lands: the record has a new version. One that gives the lease up ends what its process
held. -/
def put (s : LeaseHubs ι) (p : LeasePut ι) : LeaseHubs ι :=
  { s with
    record := some p.record
    version := s.version + 1
    held := if p.record.until_.isNone then Function.update s.held p.record.holder none else s.held }

/-- A call ends; its write goes astray, unless it has landed or is lost. -/
def abandon (s : LeaseHubs ι) (i : ι) (p : LeasePut ι) (landed : Option ℕ) (lost : Bool) :
    LeaseHubs ι :=
  { s with
    call := Function.update s.call i none
    stray := if landed.isNone && !lost then p :: s.stray else s.stray }

/-- The process that is told, by an event, that it writes. -/
def grants (s : LeaseHubs ι) : LeaseEvent ι → Option ι
  | .hold i => if s.free i && (s.fresh i).isSome then some i else none
  | .answer i true _ _ =>
    match s.call i with
    | some (.taking _ (some _)) => some i
    | _ => none
  | _ => none

/-- `holdLease`, up to its first round trip: it answers from memory, or renews what it remembers,
or reads the record. -/
def holdLease (s : LeaseHubs ι) (i : ι) : LeaseHubs ι :=
  match s.fresh i with
  | some l => { s with held := Function.update s.held i (some (l, s.clock i)) }
  | none =>
    let call : LeaseCall ι :=
      match s.cached i with
      | some l => .taking ⟨⟨i, some (s.clock i + leaseTTL)⟩, l.version⟩ none
      | none => .reading (s.clock i)
    { s with call := Function.update s.call i (some call) }

/-- `holdLease`, when it has read the record: it stands back, or writes its own. -/
def readLease (s : LeaseHubs ι) (i : ι) (now : ℤ) (ok : Bool) : LeaseHubs ι :=
  let refused := s.record.any fun r => r.holder ≠ i && r.live now
  let call : Option (LeaseCall ι) :=
    if !ok || refused then none
    else some (.taking ⟨⟨i, some (now + leaseTTL)⟩, s.version⟩ none)
  { s with call := Function.update s.call i call }

/-- `holdLease`, when its write is answered. -/
def takeAnswered (s : LeaseHubs ι) (i : ι) (p : LeasePut ι) (landed : Option ℕ)
    (ok cancelled lost : Bool) : Option (LeaseHubs ι) :=
  match ok, landed with
  | true, none => none
  | true, some v =>
    let l : RoomLease := ⟨v, p.record.until_.getD 0⟩
    some { s with
      call := Function.update s.call i none
      cached := Function.update s.cached i (some l)
      held := Function.update s.held i (some (l, s.clock i)) }
  | false, landed =>
    let s := s.abandon i p landed lost
    some (if cancelled then s else { s with cached := Function.update s.cached i none })

/-- `releaseLease`, when its write is answered. -/
def releaseAnswered (s : LeaseHubs ι) (i : ι) (p : LeasePut ι) (landed : Option ℕ)
    (ok cancelled lost : Bool) : Option (LeaseHubs ι) :=
  if ok && landed.isNone then none
  else
    let s := s.abandon i p landed lost
    some (if !ok && cancelled then s else { s with cached := Function.update s.cached i none })

/-- One step. -/
def step (s : LeaseHubs ι) : LeaseEvent ι → Option (LeaseHubs ι)
  | .tick clock => some { s with clock }
  | .hold i => if s.free i then some (s.holdLease i) else none
  | .read i ok =>
    match s.call i with
    | some (.reading now) => some (s.readLease i now ok)
    | _ => none
  | .release i =>
    match s.cached i with
    | none => none
    | some l =>
      if s.free i then
        some { s with
          call := Function.update s.call i (some (.releasing ⟨⟨i, none⟩, l.version⟩ none)) }
      else none
  | .land i =>
    match s.call i with
    | some (.taking p none) =>
      if p.expect = s.version then
        some { s.put p with
          call := Function.update s.call i (some (.taking p (some (s.version + 1)))) }
      else none
    | some (.releasing p none) =>
      if p.expect = s.version then
        some { s.put p with
          call := Function.update s.call i (some (.releasing p (some (s.version + 1)))) }
      else none
    | _ => none
  | .landStray p =>
    if p ∈ s.stray ∧ p.expect = s.version then
      some { s.put p with stray := s.stray.erase p }
    else none
  | .answer i ok cancelled lost =>
    match s.call i with
    | some (.taking p landed) => s.takeAnswered i p landed ok cancelled lost
    | some (.releasing p landed) => s.releaseAnswered i p landed ok cancelled lost
    | _ => none
  | .crash i =>
    if (s.crashed i).isNone then
      let s' : LeaseHubs ι :=
        match s.call i with
        | some (.taking p landed) => s.abandon i p landed false
        | some (.releasing p landed) => s.abandon i p landed false
        | _ => { s with call := Function.update s.call i none }
      some { s' with
        cached := Function.update s.cached i none
        crashed := Function.update s.crashed i (some s.clock) }
    else none

/-- Clocks run forward, and two of them are never further apart than `skew`. -/
def Clocked (skew : ℤ) (s : LeaseHubs ι) : LeaseEvent ι → Prop
  | .tick clock => (∀ i, s.clock i ≤ clock i) ∧ ∀ i j, clock i ≤ clock j + skew
  | _ => True

/-- A lease that was taken is answered within half its life, by the clock of the process. A release
that is cut off by a cancelled context never lands. -/
def Careful (s : LeaseHubs ι) : LeaseEvent ι → Prop
  | .answer i ok cancelled lost =>
    match s.call i with
    | some (.taking p (some _)) =>
      ok = true → ∀ u, p.record.until_ = some u → s.clock i < u - leaseTTL / 2
    | some (.releasing _ landed) => ok = false → cancelled = true → landed = none ∧ lost = true
    | _ => True
  | _ => True

/-- A step under clocks that differ by `skew`. -/
def Next (skew : ℤ) (s s' : LeaseHubs ι) : Prop :=
  ∃ ev, s.Clocked skew ev ∧ s.step ev = some s'

/-- A careful step. -/
def CarefulNext (skew : ℤ) (s s' : LeaseHubs ι) : Prop :=
  ∃ ev, s.Careful ev ∧ s.Clocked skew ev ∧ s.step ev = some s'

end LeaseHubs

/-! ### What a process believes -/

namespace LeaseHubs

variable {ι : Type*} [DecidableEq ι] {skew : ℤ} {s s' : LeaseHubs ι}

/-- The clock of a process, as it stands or as it stood when the process died. -/
def seen (s : LeaseHubs ι) (i : ι) : ℤ := ((s.crashed i).map fun clock => clock i).getD (s.clock i)

/-- A lease a process believes to hold: it remembers it and has not just given it up, or it was
told that it writes, or its write has landed. -/
def Claim (s : LeaseHubs ι) (i : ι) (l : RoomLease) : Prop :=
  (s.cached i = some l ∧ ∀ p v, s.call i ≠ some (.releasing p (some v))) ∨
    (∃ c, s.held i = some (l, c)) ∨
    ∃ p, s.call i = some (.taking p (some l.version)) ∧ p.record.until_ = some l.until_

/-- A write that may still land. -/
def Flying (s : LeaseHubs ι) (p : LeasePut ι) : Prop :=
  p ∈ s.stray ∨ s.call p.record.holder = some (.taking p none) ∨
    s.call p.record.holder = some (.releasing p none)

/-- A claim is not of a later version than the record, and it has run out by some clock, or the
record is the claimant's and stands as long. -/
structure ClaimFine (s : LeaseHubs ι) (i : ι) (l : RoomLease) : Prop where
  version : l.version ≤ s.version
  bound : l.until_ ≤ s.seen i + leaseTTL
  own : l.version = s.version → ∃ r, s.record = some r ∧ r.holder = i
  stands : (∃ k, l.until_ ≤ s.clock k) ∨ ∃ u, s.record = some ⟨i, some u⟩ ∧ l.until_ ≤ u

/-- A write that lands leaves its process the leases it believes to hold, and takes the record from
another only when that has run out by some clock. -/
structure FlyingFine (s : LeaseHubs ι) (p : LeasePut ι) : Prop where
  version : p.expect ≤ s.version
  bound : ∀ u, p.record.until_ = some u → u ≤ s.seen p.record.holder + leaseTTL
  longer : ∀ u, p.record.until_ = some u → ∀ l, s.Claim p.record.holder l →
    l.version ≤ p.expect → l.until_ ≤ u
  basis : p.expect = s.version → ∀ r, s.record = some r →
    r.holder = p.record.holder ∨ ∀ u, r.until_ = some u → ∃ k, u ≤ s.clock k

/-- A call is what it says: it is of its process, it takes a lease until some time or gives one up,
and what it reads the record for is no claim that stands longer. -/
def CallFine (s : LeaseHubs ι) (i : ι) : LeaseCall ι → Prop
  | .reading now => now ≤ s.clock i ∧ s.cached i = none ∧
      ∀ l, s.Claim i l → l.until_ ≤ now + leaseTTL
  | .taking p _ => p.record.holder = i ∧ ∃ u, p.record.until_ = some u
  | .releasing p landed => p.record.holder = i ∧ p.record.until_ = none ∧
      (landed = none → ∃ l, s.cached i = some l ∧ l.version = p.expect)

/-- What holds in every state. -/
structure Sound (skew : ℤ) (s : LeaseHubs ι) : Prop where
  synced : ∀ i j, s.clock i ≤ s.clock j + skew
  crashed : ∀ i clock, s.crashed i = some clock →
    (∀ j, clock i ≤ clock j + skew) ∧ s.call i = none ∧ s.cached i = none
  bound : ∀ i u, s.record = some ⟨i, some u⟩ → u ≤ s.seen i + leaseTTL
  held : ∀ i l c, s.held i = some (l, c) → c < l.until_ - leaseTTL / 2
  claim : ∀ i l, s.Claim i l → s.ClaimFine i l
  flying : ∀ p, s.Flying p → s.FlyingFine p
  call : ∀ i c, s.call i = some c → s.CallFine i c
  stray : ∀ p ∈ s.stray, p.record.until_ = none →
    (∀ l, s.cached p.record.holder = some l → p.expect < l.version) ∧
      ∀ p' v, s.call p.record.holder = some (.taking p' (some v)) → p.expect < v

omit [DecidableEq ι] in
theorem seen_of_running {i : ι} (h : s.crashed i = none) : s.seen i = s.clock i := by
  simp [seen, h]

omit [DecidableEq ι] in
theorem free_iff {i : ι} : s.free i = true ↔ s.call i = none ∧ s.crashed i = none := by
  simp [free]

omit [DecidableEq ι] in
theorem CallFine.mono {i : ι} {c : LeaseCall ι} (h : s.CallFine i c)
    (hclock : s.clock i ≤ s'.clock i) (hcached : s'.cached i = s.cached i)
    (hclaim : ∀ l, s'.Claim i l → s.Claim i l) : s'.CallFine i c := by
  cases c with
  | reading now => exact ⟨h.1.trans hclock, hcached.trans h.2.1, fun l hl => h.2.2 l (hclaim l hl)⟩
  | taking p landed => exact h
  | releasing p landed =>
    refine ⟨h.1, h.2.1, fun hnone => ?_⟩
    rw [hcached]
    exact h.2.2 hnone

omit [DecidableEq ι] in
/-- A step that writes no record keeps what holds, if its claims and writes are old ones. -/
theorem Sound.quiet (h : s.Sound skew) (hrecord : s'.record = s.record)
    (hversion : s'.version = s.version) (hclock : ∀ i, s.clock i ≤ s'.clock i)
    (hseen : ∀ i, s.seen i ≤ s'.seen i) (synced : ∀ i j, s'.clock i ≤ s'.clock j + skew)
    (crashed : ∀ i clock, s'.crashed i = some clock →
      (∀ j, clock i ≤ clock j + skew) ∧ s'.call i = none ∧ s'.cached i = none)
    (held : ∀ i l c, s'.held i = some (l, c) → c < l.until_ - leaseTTL / 2)
    (hclaim : ∀ i l, s'.Claim i l → s.Claim i l)
    (hflying : ∀ p, s'.Flying p → s.Flying p ∨ s'.FlyingFine p)
    (call : ∀ i c, s'.call i = some c → s'.CallFine i c)
    (stray : ∀ p ∈ s'.stray, p.record.until_ = none →
      (∀ l, s'.cached p.record.holder = some l → p.expect < l.version) ∧
        ∀ p' v, s'.call p.record.holder = some (.taking p' (some v)) → p.expect < v) :
    s'.Sound skew where
  synced := synced
  crashed := crashed
  bound i u hr := (h.bound i u (hrecord ▸ hr)).trans (Int.add_le_add_right (hseen i) _)
  held := held
  claim i l hl := by
    obtain ⟨hv, hb, hown, hstands⟩ := h.claim i l (hclaim i l hl)
    refine ⟨hversion ▸ hv, hb.trans (Int.add_le_add_right (hseen i) _), ?_, ?_⟩
    · rw [hversion, hrecord]
      exact hown
    · rw [hrecord]
      exact hstands.imp_left fun ⟨k, hk⟩ => ⟨k, hk.trans (hclock k)⟩
  flying p hp := by
    rcases hflying p hp with hp | hp
    · obtain ⟨hv, hb, hlonger, hbasis⟩ := h.flying p hp
      refine ⟨hversion ▸ hv, fun u hu => (hb u hu).trans (Int.add_le_add_right (hseen _) _),
        fun u hu l hl hle => hlonger u hu l (hclaim _ l hl) hle, ?_⟩
      · rw [hversion, hrecord]
        intro he r hr
        exact (hbasis he r hr).imp_right fun hout u hu =>
          (hout u hu).imp fun k hk => hk.trans (hclock k)
    · exact hp
  call := call
  stray := stray

/-- The claims when a call takes another turn that lands nothing. -/
theorem claim_of_call {i j : ι} {l : RoomLease} {call' : LeaseCall ι}
    (hold : ∀ p v, s.call i ≠ some (.releasing p (some v)))
    (hnew : ∀ p v, call' ≠ .taking p (some v))
    (hl : ({ s with call := Function.update s.call i (some call') } : LeaseHubs ι).Claim j l) :
    s.Claim j l := by
  by_cases hj : j = i
  · subst hj
    rcases hl with ⟨hcached, -⟩ | hheld | ⟨p, hp, -⟩
    · exact .inl ⟨hcached, hold⟩
    · exact .inr (.inl hheld)
    · change Function.update s.call j (some call') j = _ at hp
      rw [Function.update_self] at hp
      exact absurd (Option.some.inj hp) (hnew p _)
  · simpa only [Claim, Function.update_of_ne hj] using hl

/-- The writes on their way when a call takes another turn. -/
theorem flying_of_call {i : ι} {call' : Option (LeaseCall ι)} {p : LeasePut ι}
    (hp : ({ s with call := Function.update s.call i call' } : LeaseHubs ι).Flying p) :
    s.Flying p ∨ p.record.holder = i ∧
      (call' = some (.taking p none) ∨ call' = some (.releasing p none)) := by
  by_cases hi : p.record.holder = i
  · subst hi
    rcases hp with hp | hp
    · exact .inl (.inl hp)
    · exact .inr ⟨rfl, by simpa only [Function.update_self] using hp⟩
  · refine .inl ?_
    simpa only [Flying, Function.update_of_ne hi] using hp

end LeaseHubs

/-! ### Steps that write no record -/

namespace LeaseHubs

variable {ι : Type*} [DecidableEq ι] {skew : ℤ} {s s' : LeaseHubs ι} {i : ι}

omit [DecidableEq ι] in
theorem Sound.tick {clock : ι → ℤ} (h : s.Sound skew) (hforward : ∀ i, s.clock i ≤ clock i)
    (hsynced : ∀ i j, clock i ≤ clock j + skew) :
    ({ s with clock } : LeaseHubs ι).Sound skew := by
  refine h.quiet rfl rfl hforward (fun i => ?_) hsynced h.crashed h.held (fun _ _ hl => hl)
    (fun _ hp => .inl hp) (fun i c hc => ?_) h.stray
  · cases hcrashed : s.crashed i with
    | none => simpa [seen, hcrashed] using hforward i
    | some snap => simp [seen, hcrashed]
  · exact (h.call i c hc).mono (hforward i) rfl fun _ hl => hl

omit [DecidableEq ι] in
/-- The claims of a process that makes no call are in its memory. -/
theorem claim_of_cached {l : RoomLease} (hfree : s.call i = none) (hl : s.cached i = some l) :
    s.Claim i l :=
  .inl ⟨hl, fun p v hcall => by rw [hfree] at hcall; cases hcall⟩

/-- A process is told from memory that it writes. -/
theorem Sound.fresh {l : RoomLease} (h : s.Sound skew) (hfree : s.call i = none)
    (hfresh : s.fresh i = some l) :
    ({ s with held := Function.update s.held i (some (l, s.clock i)) } : LeaseHubs ι).Sound skew := by
  obtain ⟨hcached, hlive⟩ := Option.filter_eq_some_iff.mp hfresh
  have hclaim : ∀ j l', ({ s with held := Function.update s.held i (some (l, s.clock i)) } :
      LeaseHubs ι).Claim j l' → s.Claim j l' := by
    rintro j l' (hl' | ⟨c, hc⟩ | hl')
    · exact .inl hl'
    · by_cases hj : j = i
      · subst hj
        change Function.update s.held j _ j = _ at hc
        rw [Function.update_self] at hc
        cases hc
        exact claim_of_cached hfree hcached
      · change Function.update s.held i _ j = _ at hc
        rw [Function.update_of_ne hj] at hc
        exact .inr (.inl ⟨c, hc⟩)
    · exact .inr (.inr hl')
  refine h.quiet rfl rfl (fun _ => le_rfl) (fun _ => le_rfl) h.synced h.crashed (fun j l' c hc => ?_)
    hclaim (fun _ hp => .inl hp) (fun j c hc => ?_) h.stray
  · by_cases hj : j = i
    · subst hj
      change Function.update s.held j _ j = _ at hc
      rw [Function.update_self] at hc
      cases hc
      exact of_decide_eq_true hlive
    · change Function.update s.held i _ j = _ at hc
      rw [Function.update_of_ne hj] at hc
      exact h.held j l' c hc
  · exact (h.call j c hc).mono le_rfl rfl (hclaim j)

/-- A process makes a call, or its call takes another turn: nothing lands. -/
theorem Sound.turn {call' : LeaseCall ι} (h : s.Sound skew) (hrunning : s.crashed i = none)
    (hold : ∀ p v, s.call i ≠ some (.releasing p (some v)))
    (hnew : ∀ p v, call' ≠ .taking p (some v)) (hfine : s.CallFine i call')
    (hflying : ∀ p, call' = .taking p none ∨ call' = .releasing p none → s.FlyingFine p) :
    ({ s with call := Function.update s.call i (some call') } : LeaseHubs ι).Sound skew := by
  have hclaim : ∀ j l, ({ s with call := Function.update s.call i (some call') } :
      LeaseHubs ι).Claim j l → s.Claim j l := fun j l => claim_of_call hold hnew
  refine h.quiet rfl rfl (fun _ => le_rfl) (fun _ => le_rfl) h.synced (fun j snap hj => ?_) h.held
    hclaim (fun p hp => ?_) (fun j c hc => ?_) (fun p hp hu => ⟨(h.stray p hp hu).1, fun p' v hc => ?_⟩)
  · have hne : j ≠ i := by
      rintro rfl
      rw [show s.crashed j = some snap from hj] at hrunning
      cases hrunning
    simpa only [Function.update_of_ne hne] using h.crashed j snap hj
  · refine (flying_of_call hp).imp_right fun ⟨hi, hcall⟩ => ?_
    obtain ⟨hv, hb, hlonger, hbasis⟩ := hflying p (hcall.imp Option.some.inj Option.some.inj)
    exact ⟨hv, hb, fun u hu l hl => hlonger u hu l (hclaim _ l hl), hbasis⟩
  · change Function.update s.call i (some call') j = some c at hc
    by_cases hj : j = i
    · subst hj
      rw [Function.update_self] at hc
      exact (Option.some.inj hc) ▸ hfine.mono le_rfl rfl (hclaim j)
    · rw [Function.update_of_ne hj] at hc
      exact (h.call j c hc).mono le_rfl rfl (hclaim j)
  · change Function.update s.call i (some call') p.record.holder = _ at hc
    by_cases hi : p.record.holder = i
    · rw [hi, Function.update_self] at hc
      exact absurd (Option.some.inj hc) (hnew p' v)
    · rw [Function.update_of_ne hi] at hc
      exact (h.stray p hp hu).2 p' v hc

omit [DecidableEq ι] in
/-- A write over a version that a process remembers. -/
theorem Sound.flying_cached {l : RoomLease} {u : Option ℤ} (h : s.Sound skew)
    (hfree : s.call i = none) (hl : s.cached i = some l)
    (hbound : ∀ u', u = some u' → s.seen i + leaseTTL = u') :
    s.FlyingFine ⟨⟨i, u⟩, l.version⟩ := by
  have hfine := h.claim i l (claim_of_cached hfree hl)
  refine ⟨hfine.version, fun u' hu => (hbound u' hu).ge, fun u' hu l' hl' _ => ?_, fun hv r hr => ?_⟩
  · exact (h.claim i l' hl').bound.trans (hbound u' hu).le
  · obtain ⟨r', hr', hown⟩ := hfine.own hv
    rw [hr] at hr'
    cases hr'
    exact .inl hown

theorem Sound.holdLease (h : s.Sound skew) (hfree : s.free i = true) :
    (s.holdLease i).Sound skew := by
  obtain ⟨hcall, hrunning⟩ := free_iff.mp hfree
  have hseen := seen_of_running hrunning
  have hnot : ∀ p v, s.call i ≠ some (.releasing p (some v)) := fun p v hc => by
    rw [hcall] at hc
    cases hc
  unfold LeaseHubs.holdLease
  cases hfresh : s.fresh i with
  | some l => exact h.fresh hcall hfresh
  | none =>
    cases hcached : s.cached i with
    | some l =>
      refine h.turn hrunning hnot (by simp) ⟨rfl, _, rfl⟩ fun p hp => ?_
      rcases hp with hp | hp
      · cases hp
        refine h.flying_cached hcall hcached fun u hu => ?_
        rw [hseen]
        exact Option.some.inj hu
      · cases hp
    | none =>
      refine h.turn hrunning hnot (by simp) ⟨le_rfl, hcached, fun l hl => ?_⟩ (by simp)
      exact hseen ▸ (h.claim i l hl).bound

theorem Sound.release {l : RoomLease} (h : s.Sound skew) (hfree : s.free i = true)
    (hl : s.cached i = some l) :
    ({ s with call := Function.update s.call i (some (.releasing ⟨⟨i, none⟩, l.version⟩ none)) } :
      LeaseHubs ι).Sound skew := by
  obtain ⟨hcall, hrunning⟩ := free_iff.mp hfree
  refine h.turn hrunning (fun p v hc => ?_) (by simp) ⟨rfl, rfl, fun _ => ⟨l, hl, rfl⟩⟩
    fun p hp => ?_
  · rw [hcall] at hc
    cases hc
  · rcases hp with hp | hp
    · cases hp
    · cases hp
      exact h.flying_cached hcall hl (by simp)

end LeaseHubs

/-! ### The end of a call -/

namespace LeaseHubs

variable {ι : Type*} [DecidableEq ι] {skew : ℤ} {s s' : LeaseHubs ι} {i : ι}

/-- A call ends, and leaves its process what it believed to hold, or less. -/
theorem Sound.ended {c' : Option RoomLease} {held' : ι → Option (RoomLease × ℤ)}
    {stray' : List (LeasePut ι)} (h : s.Sound skew) (hrunning : s.crashed i = none)
    (hcached : ∀ l, c' = some l → s.Claim i l)
    (hheld : ∀ j l c, held' j = some (l, c) → s.Claim j l ∧ c < l.until_ - leaseTTL / 2)
    (hstray : ∀ p ∈ stray', s.Flying p)
    (hgiving : ∀ p ∈ stray', p.record.until_ = none →
      (∀ l, Function.update s.cached i c' p.record.holder = some l → p.expect < l.version) ∧
        ∀ p' v, Function.update s.call i none p.record.holder = some (.taking p' (some v)) →
          p.expect < v) :
    ({ s with call := Function.update s.call i none, cached := Function.update s.cached i c',
              held := held', stray := stray' } : LeaseHubs ι).Sound skew := by
  have hclaim : ∀ j l, ({ s with
      call := Function.update s.call i none, cached := Function.update s.cached i c',
      held := held', stray := stray' } : LeaseHubs ι).Claim j l → s.Claim j l := by
    intro j l hl
    by_cases hj : j = i
    · subst hj
      rcases hl with ⟨hl, -⟩ | ⟨c, hc⟩ | ⟨p, hp, -⟩
      · change Function.update s.cached j c' j = _ at hl
        rw [Function.update_self] at hl
        exact hcached l hl
      · exact (hheld j l c hc).1
      · change Function.update s.call j none j = _ at hp
        rw [Function.update_self] at hp
        cases hp
    · rcases hl with ⟨hl, hcall⟩ | ⟨c, hc⟩ | ⟨p, hp, hu⟩
      · change Function.update s.cached i c' j = _ at hl
        change ∀ p v, Function.update s.call i none j ≠ _ at hcall
        simp only [Function.update_of_ne hj] at hl hcall
        exact .inl ⟨hl, hcall⟩
      · exact (hheld j l c hc).1
      · change Function.update s.call i none j = _ at hp
        rw [Function.update_of_ne hj] at hp
        exact .inr (.inr ⟨p, hp, hu⟩)
  refine h.quiet rfl rfl (fun _ => le_rfl) (fun _ => le_rfl) h.synced (fun j snap hj => ?_)
    (fun j l c hc => (hheld j l c hc).2) hclaim (fun p hp => .inl ?_) (fun j c hc => ?_) hgiving
  · have hne : j ≠ i := by
      rintro rfl
      rw [show s.crashed j = some snap from hj] at hrunning
      cases hrunning
    simpa only [Function.update_of_ne hne] using h.crashed j snap hj
  · rcases hp with hp | hp
    · exact hstray p hp
    · by_cases hi : p.record.holder = i
      · simp [hi] at hp
      · simp only [Function.update_of_ne hi] at hp
        exact .inr hp
  · change Function.update s.call i none j = some c at hc
    have hne : j ≠ i := by
      rintro rfl
      rw [Function.update_self] at hc
      cases hc
    rw [Function.update_of_ne hne] at hc
    exact (h.call j c hc).mono le_rfl (Function.update_of_ne hne ..) (hclaim j)

omit [DecidableEq ι] in
/-- A process that makes a call runs. -/
theorem Sound.running {c : LeaseCall ι} (h : s.Sound skew) (hcall : s.call i = some c) :
    s.crashed i = none := by
  cases hcrashed : s.crashed i with
  | none => rfl
  | some snap =>
    rw [(h.crashed i snap hcrashed).2.1] at hcall
    cases hcall

theorem mem_abandon {p q : LeasePut ι} {landed : Option ℕ} {lost : Bool} :
    q ∈ (s.abandon i p landed lost).stray ↔
      q ∈ s.stray ∨ q = p ∧ landed = none ∧ lost = false := by
  unfold LeaseHubs.abandon
  cases landed <;> cases lost <;> simp [or_comm]

omit [DecidableEq ι] in
/-- What a process was told is a claim. -/
theorem Sound.held_claim (h : s.Sound skew) (j : ι) (l : RoomLease) (c : ℤ)
    (hc : s.held j = some (l, c)) : s.Claim j l ∧ c < l.until_ - leaseTTL / 2 :=
  ⟨.inr (.inl ⟨c, hc⟩), h.held j l c hc⟩

/-- A call ends with an error: its process forgets its lease, or keeps what it remembered. -/
theorem Sound.abandon {p : LeasePut ι} {landed : Option ℕ} {lost : Bool} {c' : Option RoomLease}
    (h : s.Sound skew)
    (hcall : s.call i = some (.taking p landed) ∨ s.call i = some (.releasing p landed))
    (hcached : c' = none ∨ c' = s.cached i ∧ (s.call i = some (.taking p landed) ∨
      landed = none ∧ lost = true)) :
    ({ s.abandon i p landed lost with cached := Function.update s.cached i c' } :
      LeaseHubs ι).Sound skew := by
  have hrunning : s.crashed i = none := hcall.elim h.running h.running
  have hholder : p.record.holder = i :=
    hcall.elim (fun hc => (h.call i _ hc).1) fun hc => (h.call i _ hc).1
  refine h.ended hrunning (fun l hl => ?_) h.held_claim (fun q hq => ?_) fun q hq hu => ?_
  · rcases hcached with hnone | ⟨hkept, hkind⟩
    · rw [hnone] at hl
      cases hl
    · rw [hkept] at hl
      refine .inl ⟨hl, fun p' v hc => ?_⟩
      rcases hkind with htaking | ⟨rfl, -⟩
      · rw [htaking] at hc
        cases hc
      · rcases hcall with hcall | hcall
        · rw [hcall] at hc
          cases hc
        · rw [hcall] at hc
          cases hc
  · rcases mem_abandon.mp hq with hq | ⟨rfl, rfl, -⟩
    · exact .inl hq
    · rw [← hholder] at hcall
      exact .inr hcall
  · by_cases hi : q.record.holder = i
    · refine ⟨fun l hl => ?_, fun p' v hc => ?_⟩
      · rw [hi, Function.update_self] at hl
        rcases hcached with hnone | ⟨hkept, hkind⟩
        · rw [hnone] at hl
          cases hl
        · rcases mem_abandon.mp hq with hmem | ⟨rfl, -, hlost⟩
          · rw [hkept, ← hi] at hl
            exact (h.stray q hmem hu).1 l hl
          · rcases hkind with htaking | ⟨-, hlost'⟩
            · obtain ⟨-, u, hsome⟩ := h.call i _ htaking
              rw [hu] at hsome
              cases hsome
            · rw [hlost] at hlost'
              cases hlost'
      · rw [hi, Function.update_self] at hc
        cases hc
    · have hmem : q ∈ s.stray :=
        (mem_abandon.mp hq).resolve_right fun hp => hi (hp.1 ▸ hholder)
      simpa only [Function.update_of_ne hi] using h.stray q hmem hu

theorem Sound.readLease {now : ℤ} (h : s.Sound skew) (hcall : s.call i = some (.reading now))
    (ok : Bool) : (s.readLease i now ok).Sound skew := by
  obtain ⟨hnow, hcached, hclaims⟩ := h.call i _ hcall
  have hrunning := h.running hcall
  unfold LeaseHubs.readLease
  by_cases hrefused : (!ok || s.record.any fun r => r.holder ≠ i && r.live now) = true
  · have hended : ({ s with call := Function.update s.call i none,
                            cached := Function.update s.cached i none } :
        LeaseHubs ι).Sound skew := by
      refine h.ended hrunning (by simp) h.held_claim (fun p hp => .inl hp) fun p hp hu => ?_
      by_cases hi : p.record.holder = i
      · simp [hi]
      · simpa only [Function.update_of_ne hi] using h.stray p hp hu
    have hsame : Function.update s.cached i none = s.cached := by
      rw [← hcached, Function.update_eq_self]
    rw [hsame] at hended
    simp only [hrefused, if_true]
    exact hended
  · rw [Bool.not_eq_true, Bool.or_eq_false_iff] at hrefused
    simp only [hrefused.1, hrefused.2, Bool.or_self, Bool.false_eq_true, if_false]
    refine h.turn hrunning (fun p v hc => ?_) (by simp) ⟨rfl, _, rfl⟩ fun p hp => ?_
    · rw [hcall] at hc
      cases hc
    · rcases hp with hp | hp
      · cases hp
        refine ⟨le_rfl, fun u hu => ?_, fun u hu l hl _ => ?_, fun _ r hr => ?_⟩
        · cases hu
          rw [show s.seen i = s.clock i from seen_of_running hrunning]
          omega
        · cases hu
          exact hclaims l hl
        · by_cases hown : r.holder = i
          · exact .inl hown
          · refine .inr fun u hu => ⟨i, ?_⟩
            have hdead := hrefused.2
            rw [hr, Option.any_some] at hdead
            simp only [LeaseRecord.live, hu, Option.any_some, ne_eq, hown, not_false_eq_true,
              decide_true, Bool.true_and, decide_eq_false_iff_not, not_lt] at hdead
            exact hdead.trans hnow
      · cases hp

theorem Sound.takeAnswered {p : LeasePut ι} {landed : Option ℕ} {ok cancelled lost : Bool}
    (h : s.Sound skew) (hcall : s.call i = some (.taking p landed))
    (careful : s.Careful (.answer i ok cancelled lost))
    (hs' : s.takeAnswered i p landed ok cancelled lost = some s') : s'.Sound skew := by
  unfold LeaseHubs.takeAnswered at hs'
  cases ok with
  | true =>
    cases landed with
    | none => cases hs'
    | some v =>
      cases hs'
      obtain ⟨hholder, u, hu⟩ := h.call i _ hcall
      have hclaim : s.Claim i ⟨v, u⟩ := .inr (.inr ⟨p, hcall, hu⟩)
      have htime : s.clock i < u - leaseTTL / 2 := by
        simp only [Careful, hcall, forall_const] at careful
        exact careful u hu
      rw [hu, Option.getD_some]
      refine h.ended (h.running hcall) (fun l hl => ?_) (fun j l c hc => ?_) (fun q hq => .inl hq)
        fun q hq hnone => ?_
      · cases hl
        exact hclaim
      · by_cases hj : j = i
        · subst hj
          rw [Function.update_self] at hc
          cases hc
          exact ⟨hclaim, htime⟩
        · rw [Function.update_of_ne hj] at hc
          exact h.held_claim j l c hc
      · by_cases hi : q.record.holder = i
        · refine ⟨fun l hl => ?_, fun p' v' hc => ?_⟩
          · rw [hi, Function.update_self] at hl
            cases hl
            exact (h.stray q hq hnone).2 p v (hi ▸ hcall)
          · rw [hi, Function.update_self] at hc
            cases hc
        · simpa only [Function.update_of_ne hi] using h.stray q hq hnone
  | false =>
    cases cancelled with
    | true =>
      cases hs'
      have hkept : ({ s.abandon i p landed lost with
          cached := Function.update s.cached i (s.cached i) } : LeaseHubs ι).Sound skew :=
        h.abandon (.inl hcall) (.inr ⟨rfl, .inl hcall⟩)
      rwa [Function.update_eq_self] at hkept
    | false =>
      cases hs'
      exact h.abandon (.inl hcall) (.inl rfl)

theorem Sound.releaseAnswered {p : LeasePut ι} {landed : Option ℕ} {ok cancelled lost : Bool}
    (h : s.Sound skew) (hcall : s.call i = some (.releasing p landed))
    (careful : s.Careful (.answer i ok cancelled lost))
    (hs' : s.releaseAnswered i p landed ok cancelled lost = some s') : s'.Sound skew := by
  unfold LeaseHubs.releaseAnswered at hs'
  split_ifs at hs' with hunknown hkeep
  · cases hs'
    rw [Bool.and_eq_true, Bool.not_eq_true'] at hkeep
    simp only [Careful, hcall] at careful
    have hkept := h.abandon (.inr hcall) (.inr ⟨rfl, .inr (careful hkeep.1 hkeep.2)⟩)
    rwa [Function.update_eq_self] at hkept
  · cases hs'
    exact h.abandon (.inr hcall) (.inl rfl)

end LeaseHubs

/-! ### Writes that land -/

namespace LeaseHubs

variable {ι : Type*} [DecidableEq ι] {skew : ℤ} {s s' : LeaseHubs ι} {i : ι} {p : LeasePut ι}

/-- A write lands. The claims of its process are old ones or the one it makes, and none is left
where it gives the lease up. -/
theorem Sound.landed {call' : ι → Option (LeaseCall ι)} {stray' : List (LeasePut ι)}
    (h : s.Sound skew) (hp : s.Flying p) (hexpect : p.expect = s.version)
    (hclaim : ∀ j l, ({ s.put p with call := call', stray := stray' } : LeaseHubs ι).Claim j l →
      s.Claim j l ∨
        j = p.record.holder ∧ p.record.until_ = some l.until_ ∧ l.version = s.version + 1)
    (hgone : p.record.until_ = none → ∀ l,
      ¬ ({ s.put p with call := call', stray := stray' } : LeaseHubs ι).Claim p.record.holder l)
    (hflying : ∀ q, ({ s.put p with call := call', stray := stray' } : LeaseHubs ι).Flying q →
      s.Flying q)
    (hidle : ∀ j, s.call j = none → call' j = none)
    (hcall : ∀ j c, call' j = some c →
      ({ s.put p with call := call', stray := stray' } : LeaseHubs ι).CallFine j c)
    (hstray : ∀ q ∈ stray', q ∈ s.stray ∧ ∀ p' v,
      call' q.record.holder = some (.taking p' (some v)) →
        s.call q.record.holder = some (.taking p' (some v)) ∨ v = s.version + 1) :
    ({ s.put p with call := call', stray := stray' } : LeaseHubs ι).Sound skew := by
  obtain ⟨-, hbound, hlonger, hbasis⟩ := h.flying p hp
  have hheld : ∀ j x, (s.put p).held j = some x → s.held j = some x := by
    intro j x hx
    unfold LeaseHubs.put at hx
    dsimp only at hx
    split_ifs at hx
    · by_cases hj : j = p.record.holder
      · subst hj
        rw [Function.update_self] at hx
        cases hx
      · rwa [Function.update_of_ne hj] at hx
    · exact hx
  refine ⟨h.synced, fun j snap hj => ?_, fun j u hr => ?_, fun j l c hc => ?_, fun j l hl => ?_,
    fun q hq => ?_, hcall, fun q hq hu => ?_⟩
  · obtain ⟨hs, hnone, hcached⟩ := h.crashed j snap hj
    exact ⟨hs, hidle j hnone, hcached⟩
  · have hrecord : p.record = ⟨j, some u⟩ := Option.some.inj hr
    have hb := hbound u (by rw [hrecord])
    rwa [hrecord] at hb
  · exact h.held j l c (hheld j _ hc)
  · by_cases hj : j = p.record.holder
    · cases hu : p.record.until_ with
      | none => exact absurd (hj ▸ hl) (hgone hu l)
      | some u =>
        have hrecord : p.record = ⟨j, some u⟩ := by
          rw [hj, ← hu]
        rcases hclaim j l hl with hold | ⟨-, huntil, hversion⟩
        · obtain ⟨hv, hb, -, -⟩ := h.claim j l hold
          have hle := hlonger u hu l (hj ▸ hold) (hexpect ▸ hv)
          exact ⟨Nat.le_succ_of_le hv, hb, fun hv' => ⟨p.record, rfl, hj.symm⟩,
            .inr ⟨u, congrArg some hrecord, hle⟩⟩
        · obtain rfl : u = l.until_ := Option.some.inj (hu.symm.trans huntil)
          exact ⟨hversion.le, hj ▸ hbound _ hu, fun _ => ⟨p.record, rfl, hj.symm⟩,
            .inr ⟨l.until_, congrArg some hrecord, le_rfl⟩⟩
    · have hold := (hclaim j l hl).resolve_right fun hnew => hj hnew.1
      obtain ⟨hv, hb, -, hstands⟩ := h.claim j l hold
      refine ⟨Nat.le_succ_of_le hv, hb, fun hv' => ?_, .inl ?_⟩
      · rw [hv'] at hv
        exact absurd hv (Nat.not_succ_le_self _)
      · rcases hstands with hout | ⟨u, hr, hle⟩
        · exact hout
        · obtain ⟨k, hk⟩ := (hbasis hexpect _ hr).resolve_left hj u rfl
          exact ⟨k, hle.trans hk⟩
  · obtain ⟨hv, hb, hlonger', -⟩ := h.flying q (hflying q hq)
    refine ⟨Nat.le_succ_of_le hv, hb, fun u hu l hl hle => ?_, fun hv' => ?_⟩
    · rcases hclaim _ l hl with hold | ⟨-, -, hversion⟩
      · exact hlonger' u hu l hold hle
      · rw [hversion] at hle
        exact absurd (hle.trans hv) (Nat.not_succ_le_self _)
    · rw [hv'] at hv
      exact absurd hv (Nat.not_succ_le_self _)
  · obtain ⟨hmem, hlanded⟩ := hstray q hq
    refine ⟨(h.stray q hmem hu).1, fun p' v hc => ?_⟩
    rcases hlanded p' v hc with hold | rfl
    · exact (h.stray q hmem hu).2 p' v hold
    · exact Nat.lt_succ_of_le (h.flying q (.inl hmem)).version

/-- The write of a call lands. -/
theorem Sound.land {call' : LeaseCall ι} (h : s.Sound skew)
    (hcall : (s.call i = some (.taking p none) ∧ call' = .taking p (some (s.version + 1))) ∨
      s.call i = some (.releasing p none) ∧ call' = .releasing p (some (s.version + 1)))
    (hexpect : p.expect = s.version) :
    ({ s.put p with call := Function.update s.call i (some call') } : LeaseHubs ι).Sound skew := by
  obtain ⟨c, hc⟩ : ∃ c, s.call i = some c := hcall.elim (fun hc => ⟨_, hc.1⟩) fun hc => ⟨_, hc.1⟩
  have hholder : p.record.holder = i :=
    hcall.elim (fun hc => (h.call i _ hc.1).1) fun hc => (h.call i _ hc.1).1
  have hflying : s.Flying p := by
    rw [Flying, hholder]
    exact .inr (hcall.imp And.left And.left)
  have hclaim : ∀ j l, ({ s.put p with call := Function.update s.call i (some call') } :
      LeaseHubs ι).Claim j l → s.Claim j l ∨
        j = p.record.holder ∧ p.record.until_ = some l.until_ ∧ l.version = s.version + 1 := by
    intro j l hl
    by_cases hj : j = i
    · subst hj
      rcases hl with ⟨hl, hnot⟩ | ⟨c', hc'⟩ | ⟨p', hp', hu⟩
      · refine .inl (.inl ⟨hl, fun p' v hp' => ?_⟩)
        rcases hcall with ⟨hc', -⟩ | ⟨hc', -⟩ <;> rw [hc'] at hp' <;> cases hp'
      · refine .inl (.inr (.inl ⟨c', ?_⟩))
        unfold LeaseHubs.put at hc'
        dsimp only at hc'
        split_ifs at hc'
        · rw [← hholder, Function.update_self] at hc'
          cases hc'
        · exact hc'
      · change Function.update s.call j (some call') j = _ at hp'
        rw [Function.update_self] at hp'
        rcases hcall with ⟨-, rfl⟩ | ⟨-, rfl⟩
        · rw [Option.some.injEq, LeaseCall.taking.injEq] at hp'
          obtain ⟨rfl, hversion⟩ := hp'
          exact .inr ⟨hholder.symm, hu, (Option.some.inj hversion).symm⟩
        · cases hp'
    · refine .inl ?_
      have hj' : j ≠ p.record.holder := hholder ▸ hj
      rcases hl with ⟨hl, hnot⟩ | ⟨c', hc'⟩ | ⟨p', hp', hu⟩
      · change ∀ p v, Function.update s.call i (some call') j ≠ _ at hnot
        rw [Function.update_of_ne hj] at hnot
        exact .inl ⟨hl, hnot⟩
      · unfold LeaseHubs.put at hc'
        dsimp only at hc'
        split_ifs at hc'
        · rw [Function.update_of_ne hj'] at hc'
          exact .inr (.inl ⟨c', hc'⟩)
        · exact .inr (.inl ⟨c', hc'⟩)
      · change Function.update s.call i (some call') j = _ at hp'
        rw [Function.update_of_ne hj] at hp'
        exact .inr (.inr ⟨p', hp', hu⟩)
  refine h.landed hflying hexpect hclaim (fun hnone l hl => ?_) (fun q hq => ?_) (fun j hj => ?_)
    (fun j c' hc' => ?_) fun q hq => ⟨hq, fun p' v hc' => ?_⟩
  · rcases hcall with ⟨hc', -⟩ | ⟨hc', rfl⟩
    · obtain ⟨-, u, hu⟩ := h.call i _ hc'
      rw [hnone] at hu
      cases hu
    · rw [hholder] at hl
      rcases hl with ⟨-, hnot⟩ | ⟨c', hheld⟩ | ⟨p', hp', -⟩
      · exact hnot p (s.version + 1) (Function.update_self ..)
      · unfold LeaseHubs.put at hheld
        rw [hnone] at hheld
        change Function.update s.held p.record.holder none i = _ at hheld
        rw [hholder, Function.update_self] at hheld
        cases hheld
      · change Function.update s.call i _ i = _ at hp'
        rw [Function.update_self] at hp'
        cases hp'
  · rcases hq with hq | hq
    · exact .inl hq
    · change Function.update s.call i (some call') q.record.holder = _ ∨
        Function.update s.call i (some call') q.record.holder = _ at hq
      by_cases hi : q.record.holder = i
      · rw [hi, Function.update_self] at hq
        rcases hcall with ⟨-, rfl⟩ | ⟨-, rfl⟩
        · rcases hq with hq | hq <;> cases hq
        · rcases hq with hq | hq <;> cases hq
      · rw [Function.update_of_ne hi] at hq
        exact .inr hq
  · have hne : j ≠ i := by
      rintro rfl
      rw [hc] at hj
      cases hj
    rw [Function.update_of_ne hne]
    exact hj
  · by_cases hj : j = i
    · subst hj
      rw [Function.update_self] at hc'
      cases hc'
      rcases hcall with ⟨hc', rfl⟩ | ⟨hc', rfl⟩
      · exact h.call j _ hc'
      · exact ⟨hholder, (h.call j _ hc').2.1, by simp⟩
    · rw [Function.update_of_ne hj] at hc'
      exact (h.call j c' hc').mono le_rfl rfl fun l hl =>
        (hclaim j l hl).resolve_right fun hnew => hj (hnew.1.trans hholder)
  · by_cases hi : q.record.holder = i
    · rw [hi, Function.update_self] at hc'
      rcases hcall with ⟨-, rfl⟩ | ⟨-, rfl⟩
      · cases hc'
        exact .inr rfl
      · cases hc'
    · rw [Function.update_of_ne hi] at hc'
      exact .inl hc'

/-- A write without a caller lands. -/
theorem Sound.landStray (h : s.Sound skew) (hp : p ∈ s.stray) (hexpect : p.expect = s.version) :
    ({ s.put p with stray := s.stray.erase p } : LeaseHubs ι).Sound skew := by
  have hheld : ∀ j x, (s.put p).held j = some x →
      s.held j = some x ∧ (p.record.until_ = none → j ≠ p.record.holder) := by
    intro j x hx
    unfold LeaseHubs.put at hx
    dsimp only at hx
    split_ifs at hx with hnone
    · have hj : j ≠ p.record.holder := by
        rintro rfl
        rw [Function.update_self] at hx
        cases hx
      rw [Function.update_of_ne hj] at hx
      exact ⟨hx, fun _ => hj⟩
    · exact ⟨hx, fun hu => absurd (Option.isNone_iff_eq_none.mpr hu) hnone⟩
  have hclaim : ∀ j l, ({ s.put p with stray := s.stray.erase p } : LeaseHubs ι).Claim j l →
      s.Claim j l := by
    rintro j l (hl | ⟨c, hc⟩ | hl)
    · exact .inl hl
    · exact .inr (.inl ⟨c, (hheld j _ hc).1⟩)
    · exact .inr (.inr hl)
  refine h.landed (.inl hp) hexpect (fun j l hl => .inl (hclaim j l hl)) (fun hnone l hl => ?_)
    (fun q hq => hq.imp_left List.mem_of_mem_erase) (fun j hj => hj) (fun j c hc => ?_)
    fun q hq => ⟨List.mem_of_mem_erase hq, fun p' v hc => .inl hc⟩
  · have hle := hexpect.symm ▸ (h.claim _ l (hclaim _ l hl)).version
    obtain ⟨hcached, hlanded⟩ := h.stray p hp hnone
    rcases hl with ⟨hl, -⟩ | ⟨c, hc⟩ | ⟨p', hp', -⟩
    · exact absurd (hcached l hl) (Nat.not_lt.mpr hle)
    · exact (hheld _ _ hc).2 hnone rfl
    · exact absurd (hlanded p' _ hp') (Nat.not_lt.mpr hle)
  · exact (h.call j c hc).mono le_rfl rfl (hclaim j)

end LeaseHubs

/-! ### Runs -/

namespace LeaseHubs

variable {ι : Type*} [DecidableEq ι] {skew : ℤ} {s s' : LeaseHubs ι} {i : ι} {ev : LeaseEvent ι}

theorem Sound.die (h : s.Sound skew) (hrunning : s.crashed i = none) (hcall : s.call i = none)
    (hcached : s.cached i = none) :
    ({ s with crashed := Function.update s.crashed i (some s.clock) } : LeaseHubs ι).Sound skew := by
  refine h.quiet rfl rfl (fun _ => le_rfl) (fun j => ?_) h.synced (fun j snap hj => ?_) h.held
    (fun _ _ hl => hl) (fun _ hp => .inl hp) (fun j c hc => (h.call j c hc).mono le_rfl rfl
      fun _ hl => hl) h.stray
  · by_cases hj : j = i
    · subst hj
      simp [seen, hrunning]
    · simp [seen, Function.update_of_ne hj]
  · change Function.update s.crashed i _ j = _ at hj
    by_cases hi : j = i
    · subst hi
      rw [Function.update_self] at hj
      cases hj
      exact ⟨h.synced j, hcall, hcached⟩
    · rw [Function.update_of_ne hi] at hj
      exact h.crashed j snap hj

/-- A process dies. -/
theorem Sound.crash (h : s.Sound skew) (hs' : s.step (.crash i) = some s') : s'.Sound skew := by
  simp only [step, Option.isNone_iff_eq_none] at hs'
  split_ifs at hs' with hrunning
  cases hs'
  have hquiet : ({ s with call := Function.update s.call i none,
                          cached := Function.update s.cached i none } :
      LeaseHubs ι).Sound skew := by
    refine h.ended hrunning (by simp) h.held_claim (fun p hp => .inl hp) fun p hp hu => ?_
    by_cases hi : p.record.holder = i
    · simp [hi]
    · simpa only [Function.update_of_ne hi] using h.stray p hp hu
  cases hcall : s.call i with
  | none => exact hquiet.die hrunning (Function.update_self ..) (Function.update_self ..)
  | some c =>
    cases c with
    | reading now => exact hquiet.die hrunning (Function.update_self ..) (Function.update_self ..)
    | taking p landed =>
      have hleft : ({ s.abandon i p landed false with
          cached := Function.update s.cached i none } : LeaseHubs ι).Sound skew :=
        h.abandon (.inl hcall) (.inl rfl)
      exact hleft.die hrunning (Function.update_self ..) (Function.update_self ..)
    | releasing p landed =>
      have hleft : ({ s.abandon i p landed false with
          cached := Function.update s.cached i none } : LeaseHubs ι).Sound skew :=
        h.abandon (.inr hcall) (.inl rfl)
      exact hleft.die hrunning (Function.update_self ..) (Function.update_self ..)

/-- **A claim is stored, or has run out by some clock**: a careful step keeps that. -/
theorem Sound.step (h : s.Sound skew) (careful : s.Careful ev) (clocked : s.Clocked skew ev)
    (hs' : s.step ev = some s') : s'.Sound skew := by
  cases ev with
  | tick clock =>
    cases hs'
    exact h.tick clocked.1 clocked.2
  | hold i =>
    simp only [LeaseHubs.step] at hs'
    split_ifs at hs' with hfree
    cases hs'
    exact h.holdLease hfree
  | read i ok =>
    simp only [LeaseHubs.step] at hs'
    split at hs'
    · rename_i now hcall
      cases hs'
      exact h.readLease hcall ok
    · cases hs'
  | release i =>
    simp only [LeaseHubs.step] at hs'
    cases hcached : s.cached i with
    | none => simp [hcached] at hs'
    | some l =>
      simp only [hcached] at hs'
      split_ifs at hs' with hfree
      cases hs'
      exact h.release hfree hcached
  | land i =>
    simp only [LeaseHubs.step] at hs'
    split at hs'
    · rename_i p hcall
      split_ifs at hs' with hexpect
      cases hs'
      exact h.land (.inl ⟨hcall, rfl⟩) hexpect
    · rename_i p hcall
      split_ifs at hs' with hexpect
      cases hs'
      exact h.land (.inr ⟨hcall, rfl⟩) hexpect
    · cases hs'
  | landStray p =>
    simp only [LeaseHubs.step] at hs'
    split_ifs at hs' with hland
    cases hs'
    exact h.landStray hland.1 hland.2
  | answer i ok cancelled lost =>
    simp only [LeaseHubs.step] at hs'
    split at hs'
    · rename_i p landed hcall
      exact h.takeAnswered hcall careful hs'
    · rename_i p landed hcall
      exact h.releaseAnswered hcall careful hs'
    · cases hs'
  | crash i => exact h.crash hs'

omit [DecidableEq ι] in
theorem sound_init {clock : ι → ℤ} (synced : ∀ i j, clock i ≤ clock j + skew) :
    ({ clock } : LeaseHubs ι).Sound skew := by
  have hclaim : ∀ i l, ¬ ({ clock } : LeaseHubs ι).Claim i l := by
    rintro i l (⟨hl, -⟩ | ⟨c, hc⟩ | ⟨p, hp, -⟩)
    · cases hl
    · cases hc
    · cases hp
  have hflying : ∀ p, ¬ ({ clock } : LeaseHubs ι).Flying p := by
    rintro p (hp | hp | hp)
    · cases hp
    · cases hp
    · cases hp
  exact ⟨synced, nofun, nofun, nofun, fun i l hl => absurd hl (hclaim i l),
    fun p hp => absurd hp (hflying p), nofun, nofun⟩

omit [DecidableEq ι] in
/-- The process that is told that it writes has the record. -/
theorem Sound.granted (h : s.Sound skew) (hskew : skew < leaseTTL / 2) (careful : s.Careful ev)
    (hgrant : s.grants ev = some i) : ∃ u, s.record = some ⟨i, some u⟩ := by
  have hstored (l : RoomLease) (hl : s.Claim i l) (htime : s.clock i < l.until_ - leaseTTL / 2) :
      ∃ u, s.record = some ⟨i, some u⟩ := by
    rcases (h.claim i l hl).stands with ⟨k, hk⟩ | ⟨u, hr, -⟩
    · have := h.synced k i
      omega
    · exact ⟨u, hr⟩
  unfold grants at hgrant
  split at hgrant
  · rename_i j
    split_ifs at hgrant with hfree
    cases hgrant
    rw [Bool.and_eq_true] at hfree
    obtain ⟨l, hl⟩ := Option.isSome_iff_exists.mp hfree.2
    obtain ⟨hcached, hlive⟩ := Option.filter_eq_some_iff.mp hl
    exact hstored l (claim_of_cached (free_iff.mp hfree.1).1 hcached) (of_decide_eq_true hlive)
  · rename_i j cancelled lost
    split at hgrant
    · rename_i p v hcall
      cases hgrant
      obtain ⟨-, u, hu⟩ := h.call _ _ hcall
      simp only [Careful, hcall, forall_const] at careful
      exact hstored ⟨v, u⟩ (.inr (.inr ⟨p, hcall, hu⟩)) (careful u hu)
    · cases hgrant
  · cases hgrant

end LeaseHubs

/-- **One writer per room.** In careful runs, clocks within half a life of each other, a process is
told that it writes only when every other that was told so, and has not given the lease up since,
was told half a life ago, less what the clocks differ, by its own clock. And the lease of a process
that died stands, by the clock of any other, no longer than a life and what the clocks differ. -/
theorem one_writer {ι : Type*} [DecidableEq ι] {skew : ℤ} (hskew : skew < leaseTTL / 2)
    {clock : ι → ℤ} (synced : ∀ i j, clock i ≤ clock j + skew) {s : LeaseHubs ι}
    (h : Relation.ReflTransGen (LeaseHubs.CarefulNext skew) { clock } s) :
    (∀ ev i, s.Careful ev → s.grants ev = some i →
      ∀ j l c, j ≠ i → s.held j = some (l, c) → leaseTTL / 2 - skew < s.clock j - c) ∧
    ∀ i j snap r now, s.crashed i = some snap → snap j + leaseTTL + skew ≤ now →
      s.record = some r → r.holder = i → r.live now = false := by
  have hsound : s.Sound skew := Runs.invariant h
    (fun _ _ hs ⟨_, careful, clocked, hstep⟩ => hs.step careful clocked hstep)
    (LeaseHubs.sound_init synced)
  refine ⟨fun ev i careful hgrant j l c hj hheld => ?_, fun i j snap r now hcrashed hlong hr hi => ?_⟩
  · obtain ⟨u, hr⟩ := hsound.granted hskew careful hgrant
    have htold := hsound.held j l c hheld
    rcases (hsound.claim j l (.inr (.inl ⟨c, hheld⟩))).stands with ⟨k, hk⟩ | ⟨u', hr', -⟩
    · have := hsound.synced k j
      omega
    · rw [hr] at hr'
      cases hr'
      exact absurd rfl hj
  · obtain ⟨holder, until_⟩ := r
    subst hi
    cases until_ with
    | none => rfl
    | some u =>
      have hb := hsound.bound holder u hr
      have hdied := (hsound.crashed holder snap hcrashed).1 j
      simp only [LeaseHubs.seen, hcrashed, Option.map_some, Option.getD_some] at hb
      simp only [LeaseRecord.live, Option.any_some, decide_eq_false_iff_not, not_lt]
      omega

/-- Two processes, whose clocks agree. -/
def twoHubs : LeaseHubs Bool := { clock := fun _ => 0 }

theorem twoHubs_synced (i j : Bool) : (fun _ : Bool => (0 : ℤ)) i ≤ (fun _ => 0) j + 0 := le_rfl

/-- Both clocks say that half a minute has passed, and a second. -/
def halfMinuteOn : LeaseEvent Bool := .tick fun _ => 31 * 10 ^ 9

theorem halfMinuteOn_clocked {s : LeaseHubs Bool} (h : s.clock = fun _ => 0) :
    s.Clocked 0 halfMinuteOn := by
  refine ⟨fun i => ?_, fun i j => le_rfl⟩
  rw [h]
  exact (by decide : (0 : ℤ) ≤ 31 * 10 ^ 9)

/-- A process takes the lease, and when that has run out another does. -/
def takenOver : LeaseHubs Bool :=
  (([.hold true, .read true true, .land true, .answer true true false false, halfMinuteOn,
    .hold false, .read false true, .land false] : List (LeaseEvent Bool)).foldlM
      LeaseHubs.step twoHubs).get (by decide)

theorem writer_taken_over : takenOver.grants (.answer false true false false) = some false ∧
    takenOver.held true = some (⟨1, leaseTTL⟩, 0) ∧
    leaseTTL / 2 - 0 < takenOver.clock true - 0 := by
  have hrun : Relation.ReflTransGen (LeaseHubs.CarefulNext 0) twoHubs takenOver := by
    refine .head ⟨.hold true, trivial, trivial, rfl⟩ <|
      .head ⟨.read true true, trivial, trivial, rfl⟩ <|
      .head ⟨.land true, trivial, trivial, rfl⟩ <|
      .head ⟨.answer true true false false, ?_, trivial, rfl⟩ <|
      .head ⟨halfMinuteOn, trivial, halfMinuteOn_clocked rfl, rfl⟩ <|
      .head ⟨.hold false, trivial, trivial, rfl⟩ <|
      .head ⟨.read false true, trivial, trivial, rfl⟩ <|
      .single ⟨.land false, trivial, trivial, rfl⟩
    rintro - u hu
    cases hu
    decide
  have hcareful : takenOver.Careful (.answer false true false false) := by
    rintro - u hu
    cases hu
    decide
  have hgrant : takenOver.grants (.answer false true false false) = some false := rfl
  have hheld : takenOver.held true = some (⟨1, leaseTTL⟩, 0) := rfl
  have hskew : (0 : ℤ) < leaseTTL / 2 := by decide
  exact ⟨hgrant, hheld,
    (one_writer hskew twoHubs_synced hrun).1 _ _ hcareful hgrant _ _ _ (by decide) hheld⟩

/-- The answer of the first process is late: the other has the lease by then. -/
def answeredLate : LeaseHubs Bool :=
  (([.hold true, .read true true, .land true, halfMinuteOn, .hold false, .read false true,
    .land false, .answer false true false false] : List (LeaseEvent Bool)).foldlM
      LeaseHubs.step twoHubs).get (by decide)

/-- Both are told at one time that they write. -/
theorem two_writers : ¬ ∀ (skew : ℤ) (clock : Bool → ℤ), skew < leaseTTL / 2 →
    (∀ i j, clock i ≤ clock j + skew) → ∀ s : LeaseHubs Bool,
      Relation.ReflTransGen (LeaseHubs.Next skew) { clock } s → ∀ ev i, s.grants ev = some i →
        ∀ j l c, j ≠ i → s.held j = some (l, c) → leaseTTL / 2 - skew < s.clock j - c := by
  intro h
  have hrun : Relation.ReflTransGen (LeaseHubs.Next 0) twoHubs answeredLate :=
    .head ⟨.hold true, trivial, rfl⟩ <| .head ⟨.read true true, trivial, rfl⟩ <|
      .head ⟨.land true, trivial, rfl⟩ <|
      .head ⟨halfMinuteOn, halfMinuteOn_clocked rfl, rfl⟩ <|
      .head ⟨.hold false, trivial, rfl⟩ <| .head ⟨.read false true, trivial, rfl⟩ <|
      .head ⟨.land false, trivial, rfl⟩ <|
      .single ⟨.answer false true false false, trivial, rfl⟩
  have hlong := h 0 _ (by decide) twoHubs_synced answeredLate hrun (.answer true true false false)
    true rfl false ⟨2, 61 * 10 ^ 9⟩ (31 * 10 ^ 9) (by decide) rfl
  exact absurd hlong (by decide)

end Beardrive
