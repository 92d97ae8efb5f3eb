import Beardrive.Lib.Custody
import Beardrive.Lib.GoString
import Beardrive.Lib.Runs
import Mathlib

/-!
# Storage grants

A presigned upload does not pass through the hub, so its bytes are reserved when the URL is handed
out and charged when the hub finds them in storage. What is reserved counts against the cap as long
as the grant has not expired; what has been charged counts as usage. Whoever takes a grant out of
the ledger is the one who charges its bytes, so they are charged once.

Between the two there are gaps. What has landed and not been charged counts for nothing once its
grant expires, or while its charge is on the way; bytes may move from the ledger to usage between
the check and the booking; and a grant may be dropped for one reason while a URL for the same
object is still good for another.

## Main definitions

* `Ledger`, `Ledger.step` — the ledger, storage and the calls at work on them
* `Ledger.exposure` — what the cap has to hold
* `Ledger.Careful` — what a step must not do

## Main results

* `exposure_le_cap` — after careful steps no booking has gone over the cap, and what has landed is
  charged once
-/

namespace Beardrive

/-! ### Grants -/

/-- Where an object is stored: its project and its key. -/
abbrev Stored := GoString × GoString

/-- A `grant`. -/
structure Grant where
  object : Stored
  size : ℕ
  expires : ℤ
  deriving DecidableEq, Repr

/-- Arithmetic on `int64` wraps around. -/
def int64 (n : ℤ) : ℤ := n.bmod 18446744073709551616

/-- `grantReconcileGrace`, in nanoseconds. -/
def grantReconcileGrace : ℤ := 24 * 3600 * 1000000000

/-- The bytes of the grants that have not expired. -/
def unexpired (now : ℤ) (grants : List Grant) : ℕ :=
  ((grants.filter fun g => now ≤ g.expires).map (·.size)).sum

/-- `dropStaleLocked`. -/
def dropStale (now : ℤ) (grants : List Grant) : List Grant :=
  grants.filter fun g => now - grantReconcileGrace ≤ g.expires

/-- `dropLocked`, of the grants of one object. -/
def dropObject (object : Stored) (grants : List Grant) : List Grant :=
  grants.filter fun g => g.object ≠ object

/-! ### Calls -/

/-- Where a call is: `reserveIfFits` and the signing after it, a sweep of `reconcileGrants` with
the grants it has left, a commit that has claimed a grant, or a relayed put. -/
inductive GrantTask where
  | idle
  | asks (object : Stored) (size ttl : ℕ)
  | checks (object : Stored) (size ttl outstanding : ℕ)
  | books (object : Stored) (size ttl outstanding usage : ℕ)
  | signs (g : Grant)
  | sweeps (mine : List Grant)
  | looked (g : Grant) (exists_ : Bool) (mine : List Grant)
  | retires (g : Grant) (exists_ : Bool) (mine : List Grant)
  | charges (object : Stored) (size : ℕ) (mine : List Grant)
  | commits (object : Stored)
  | relays (object : Stored) (size : ℕ) (billed : Bool)
  | relayed (object : Stored) (size : ℕ) (billed : Bool)
  deriving DecidableEq

/-- The ledger of an org, its cap and its usage; the URLs handed out, each until its grant expires;
the objects in storage; the calls on their way; how often each object was charged; and what the
cap had to hold after each booking. -/
structure Ledger (ι : Type*) where
  cap : ℤ
  now : ℤ := 0
  usage : ℕ := 0
  grants : List Grant := []
  urls : List Grant := []
  objects : List (Stored × ℕ) := []
  task : ι → GrantTask := fun _ => .idle
  charged : Stored → ℕ := fun _ => 0
  booked : List ℕ := []

/-- What can happen: time passes; an upload lands; a call begins, or goes on. -/
inductive LedgerEvent (ι : Type*) where
  | tick (t : ℕ)
  | land (url : Grant)
  | ask (i : ι) (object : Stored) (size ttl : ℕ)
  | read (i : ι)
  | check (i : ι)
  | book (i : ι)
  | sign (i : ι)
  | giveBack (i : ι)
  | sweep (i : ι) (project : GoString)
  | look (i : ι) (answers : Bool)
  | decide (i : ι)
  | retire (i : ι)
  | record (i : ι)
  | claim (i : ι) (object : Stored)
  | abandon (i : ι)
  | relay (i : ι) (object : Stored) (size : ℕ)
  | put (i : ι)
  | settle (i : ι)

variable {ι : Type*} [DecidableEq ι]

/-- An object is in storage. -/
def Ledger.landed (s : Ledger ι) (object : Stored) : Bool := s.objects.any (·.1 == object)

/-- An object is written, with the same bytes if it is there. -/
def Ledger.store (s : Ledger ι) (object : Stored) (size : ℕ) : List (Stored × ℕ) :=
  if s.landed object then s.objects else (object, size) :: s.objects

/-- `billableBytes`: whether there is anything to charge for a put through the hub. -/
def Ledger.billed (s : Ledger ι) (object : Stored) (size : ℕ) : Bool :=
  0 < size && (!hasPrefix object.2 (ascii "blobs/") || !s.landed object)

/-- A call goes on. -/
def Ledger.set (s : Ledger ι) (i : ι) (t : GrantTask) : Ledger ι :=
  { s with task := Function.update s.task i t }

/-- `quota().RecordUsage`, for an object. -/
def Ledger.recordUsage (s : Ledger ι) (object : Stored) (size : ℕ) : Ledger ι :=
  { s with
    usage := s.usage + size
    charged := Function.update s.charged object (s.charged object + 1) }

/-- The ledger without the grants of an object. -/
def Ledger.drop (s : Ledger ι) (object : Stored) : Ledger ι :=
  { s with grants := dropObject object s.grants }

/-- The ledger has a grant of an object. -/
def Ledger.has (s : Ledger ι) (object : Stored) : Bool := s.grants.any (·.object == object)

/-- What the cap has to hold: what is charged, what is granted and has not expired, and what has
landed and is neither. -/
def Ledger.exposure (s : Ledger ι) : ℕ :=
  s.usage + unexpired s.now s.grants + ((s.objects.filter fun o => s.charged o.1 = 0 ∧
    ¬ s.grants.any fun g => g.object = o.1 ∧ s.now ≤ g.expires).map (·.2)).sum

/-- One step, where it is possible. -/
def Ledger.step (s : Ledger ι) : LedgerEvent ι → Option (Ledger ι)
  | .tick t => some { s with now := s.now + t }
  | .land url =>
    if url ∈ s.urls ∧ s.now ≤ url.expires then
      some { s with objects := s.store url.object url.size }
    else none
  | .ask i object size ttl =>
    match s.task i with
    | .idle => some (s.set i (.asks object size ttl))
    | _ => none
  | .read i =>
    match s.task i with
    | .asks object size ttl =>
      let grants := dropStale s.now s.grants
      some { s.set i (.checks object size ttl (unexpired s.now grants)) with grants }
    | _ => none
  | .check i =>
    match s.task i with
    | .checks object size ttl outstanding =>
      -- The plan refuses what takes the recorded usage over the cap.
      if s.usage + int64 (size + outstanding) ≤ s.cap then
        some (s.set i (.books object size ttl outstanding s.usage))
      else some (s.set i .idle)
    | _ => none
  | .book i =>
    match s.task i with
    | .books object size ttl outstanding _ =>
      let grants := dropStale s.now s.grants
      if int64 outstanding < int64 (unexpired s.now grants) then
        some { s.set i (.asks object size ttl) with grants }
      else
        let g : Grant := ⟨object, size, s.now + ttl⟩
        let s' : Ledger ι := { s.set i (.signs g) with grants := grants ++ [g] }
        some { s' with booked := s.booked ++ [s'.exposure] }
    | _ => none
  | .sign i =>
    match s.task i with
    | .signs g => some { s.set i .idle with urls := g :: s.urls }
    | _ => none
  | .giveBack i =>
    match s.task i with
    | .signs g => some ((s.set i .idle).drop g.object)
    | _ => none
  | .sweep i project =>
    match s.task i with
    | .idle =>
      let grants := dropStale s.now s.grants
      some { s.set i (.sweeps (grants.filter (·.object.1 = project))) with grants }
    | _ => none
  | .look i answers =>
    match s.task i with
    | .sweeps [] => some (s.set i .idle)
    | .sweeps (g :: mine) =>
      some (s.set i (if answers then .looked g (s.landed g.object) mine else .sweeps mine))
    | _ => none
  | .decide i =>
    match s.task i with
    | .looked g exists_ mine =>
      some (s.set i (if !exists_ && s.now ≤ g.expires then .sweeps mine
        else .retires g exists_ mine))
    | _ => none
  | .retire i =>
    match s.task i with
    | .retires g exists_ mine =>
      some ((s.set i (if s.has g.object && exists_ then .charges g.object g.size mine
        else .sweeps mine)).drop g.object)
    | _ => none
  | .record i =>
    match s.task i with
    | .charges object size mine => some ((s.set i (.sweeps mine)).recordUsage object size)
    | .commits object =>
      -- A commit charges the size storage reports.
      match s.objects.find? (·.1 == object) with
      | some (_, size) => some ((s.set i .idle).recordUsage object size)
      | none => none
    | _ => none
  | .claim i object =>
    match s.task i with
    | .idle => some ((s.set i (if s.has object then .commits object else .idle)).drop object)
    | _ => none
  | .abandon i =>
    match s.task i with
    | .commits _ => some (s.set i .idle)
    | _ => none
  | .relay i object size =>
    match s.task i with
    | .idle => some (s.set i (.relays object size (s.billed object size)))
    | _ => none
  | .put i =>
    match s.task i with
    | .relays object size billed =>
      some { s.set i (.relayed object size billed) with objects := s.store object size }
    | _ => none
  | .settle i =>
    match s.task i with
    | .relayed object size billed =>
      some ((s.set i (if billed then .charges object size [] else .idle)).drop object)
    | _ => none

/-- Every project is reconciled within the grace. -/
def Ledger.InTime (s : Ledger ι) : LedgerEvent ι → Prop
  | .tick t => ∀ g ∈ s.grants, s.now + t ≤ g.expires + grantReconcileGrace
  | _ => True

/-- A step of any kind. -/
def Ledger.Next (s s' : Ledger ι) : Prop := ∃ ev, s.InTime ev ∧ s.step ev = some s'

/-! ### What a step must not do -/

/-- The object whose grant a call has taken, and which it is about to charge. -/
def GrantTask.hand : GrantTask → Option Stored
  | .charges object _ _ | .commits object => some object
  | _ => none

/-- The object a call has put, and is going to charge. -/
def GrantTask.awaits : GrantTask → Option Stored
  | .relayed object _ true => some object
  | _ => none

/-- The objects whose grants the calls have taken. -/
def Ledger.hand (s : Ledger ι) (i : ι) : Option Stored := (s.task i).hand

/-- There are bytes of the object in storage, or a URL to put them there. -/
def Ledger.Exposed (s : Ledger ι) (object : Stored) : Prop :=
  (∃ o ∈ s.objects, o.1 = object ∧ 0 < o.2) ∨
    ∃ u ∈ s.urls, u.object = object ∧ 0 < u.size ∧ s.now ≤ u.expires

/-- Nobody has charged the object, or is about to. -/
def Ledger.Free (s : Ledger ι) (object : Stored) : Prop :=
  s.charged object = 0 ∧ ∀ i, s.hand i ≠ some object

/-- The object is in the ledger, has been charged, or is going to be. -/
def Ledger.Accounted (s : Ledger ι) (object : Stored) : Prop :=
  InCustody (s.has · = true) s.hand s.charged object ∨
    ∃ i, (s.task i).awaits = some object

/-- A booking goes by what is still so: usage and unexpired grants have not grown since the plan
was asked, the sum it was asked about fits an `int64`, nothing that has landed is outside both, and
nobody has charged the object. -/
structure Ledger.CarefulBook (s : Ledger ι) (object : Stored) (size outstanding usage : ℕ) :
    Prop where
  grown : s.usage + unexpired s.now s.grants ≤ usage + outstanding
  fits : size + outstanding < 2 ^ 63
  covered : ∀ o ∈ s.objects, 0 < o.2 → s.charged o.1 ≠ 0 ∨
    ∃ g ∈ s.grants, g.object = o.1 ∧ s.now ≤ g.expires
  free : s.Free object

/-- The steps that keep a grant as long as its object may be there uncharged, and book by what is
still so. -/
def Ledger.Careful (s : Ledger ι) : LedgerEvent ι → Prop
  | .book i => ∀ object size ttl outstanding usage,
      s.task i = .books object size ttl outstanding usage →
      int64 (unexpired s.now (dropStale s.now s.grants)) ≤ int64 outstanding →
      s.CarefulBook object size outstanding usage
  | .sign i => ∀ g, s.task i = .signs g → s.Accounted g.object
  | .giveBack i => ∀ g, s.task i = .signs g → s.has g.object = true → ¬ s.Exposed g.object
  | .retire i => ∀ g mine, s.task i = .retires g false mine → s.has g.object = true →
      ¬ s.Exposed g.object
  | .abandon i => ∀ object, s.task i = .commits object → ¬ s.Exposed object
  | .settle i => ∀ object size billed, s.task i = .relayed object size billed →
      (billed = true → s.Free object) ∧
        (billed = false → s.has object = true → ¬ s.Exposed object)
  | _ => True

/-- A careful step. -/
def Ledger.CarefulNext (s s' : Ledger ι) : Prop :=
  ∃ ev, s.InTime ev ∧ s.Careful ev ∧ s.step ev = some s'

/-- The object has been charged once, or has not been, and is going to be: it is in the ledger, or
a call charges it. -/
def Ledger.ChargedOnce (s : Ledger ι) (object : Stored) : Prop :=
  s.charged object = 1 ∨ s.charged object = 0 ∧ (s.has object = true ∨
    (∃ i, s.hand i = some object) ∨ ∃ i, (s.task i).awaits = some object)

/-- What a task knows of the ledger: a put that is not billed has no bytes, or finds its object
there, and a booking was asked about and granted. -/
def Ledger.Fits (s : Ledger ι) : GrantTask → Prop
  | .relays object size false => size = 0 ∨ s.landed object = true
  | .books _ size _ outstanding usage => usage + int64 (size + outstanding) ≤ s.cap
  | _ => True

/-- The invariant of the ledger. -/
structure Ledger.Sound (s : Ledger ι) : Prop where
  reconciled : ∀ g ∈ s.grants, s.now ≤ g.expires + grantReconcileGrace
  custody : Custody (s.has · = true) s.hand s.charged
  accounted : ∀ object, s.Exposed object → s.Accounted object
  fits : ∀ i, s.Fits (s.task i)
  booked : ∀ e ∈ s.booked, (e : ℤ) ≤ s.cap

/-! ### The parts of a ledger -/

section

omit [DecidableEq ι] in
theorem Ledger.has_iff {s : Ledger ι} {object : Stored} :
    s.has object = true ↔ ∃ g ∈ s.grants, g.object = object := by
  simp [Ledger.has]

omit [DecidableEq ι] in
theorem Ledger.landed_iff {s : Ledger ι} {object : Stored} :
    s.landed object = true ↔ ∃ o ∈ s.objects, o.1 = object := by
  simp [Ledger.landed]

omit [DecidableEq ι] in
/-- Nothing goes stale that is reconciled in time. -/
theorem Ledger.Sound.dropStale_eq {s : Ledger ι} (h : s.Sound) :
    dropStale s.now s.grants = s.grants :=
  List.filter_eq_self.mpr fun g hg => decide_eq_true (by have := h.reconciled g hg; omega)

omit [DecidableEq ι] in
theorem Ledger.has_drop {s : Ledger ι} {k object : Stored} :
    (s.drop k).has object = true ↔ s.has object = true ∧ object ≠ k := by
  simp only [has_iff, Ledger.drop, dropObject, List.mem_filter, decide_eq_true_eq]
  constructor
  · rintro ⟨g, ⟨hg, hne⟩, rfl⟩
    exact ⟨⟨g, hg, rfl⟩, hne⟩
  · rintro ⟨⟨g, hg, rfl⟩, hne⟩
    exact ⟨g, ⟨hg, hne⟩, rfl⟩

theorem Ledger.hand_set (s : Ledger ι) (i : ι) (t : GrantTask) :
    (s.set i t).hand = Function.update s.hand i t.hand := by
  funext j
  by_cases hji : j = i
  · subst hji
    simp [Ledger.hand, Ledger.set]
  · simp [Ledger.hand, Ledger.set, hji]

@[simp] theorem Ledger.task_set_self (s : Ledger ι) (i : ι) (t : GrantTask) :
    (s.set i t).task i = t :=
  Function.update_self _ _ _

theorem Ledger.task_set_of_ne (s : Ledger ι) {i j : ι} (t : GrantTask) (h : j ≠ i) :
    (s.set i t).task j = s.task j :=
  Function.update_of_ne h _ _

omit [DecidableEq ι] in
/-- What has been charged once, or is in custody, is charged once. -/
theorem Ledger.Sound.chargedOnce {s : Ledger ι} (h : s.Sound) {object : Stored}
    (he : s.Exposed object) : s.ChargedOnce object := by
  have hone := h.custody.once object
  by_cases hused : s.charged object = 1
  · exact .inl hused
  refine .inr ⟨by omega, ?_⟩
  rcases h.accounted object he with (hhas | hhand | hused') | hawaits
  · exact .inl hhas
  · exact .inr (.inl hhand)
  · exact absurd hused' hused
  · exact .inr (.inr hawaits)

end

/-! ### Calls that go on -/

/-- A call knows what it knew, and what it has come to know. -/
theorem Ledger.Sound.fits_set {s : Ledger ι} (h : s.Sound) {i : ι} {t : GrantTask}
    (ht : s.Fits t) (j : ι) : s.Fits ((s.set i t).task j) := by
  by_cases hji : j = i
  · subst hji
    rwa [s.task_set_self]
  · rw [s.task_set_of_ne t hji]
    exact h.fits j

/-- An object that some other call charges is still accounted for. -/
theorem Ledger.awaits_set {s : Ledger ι} {i j : ι} {t : GrantTask} {object : Stored}
    (hj : (s.task j).awaits = some object) (hi : (s.task i).awaits ≠ some object) :
    ((s.set i t).task j).awaits = some object := by
  have hji : j ≠ i := by
    rintro rfl
    exact hi hj
  rwa [s.task_set_of_ne t hji]

theorem Ledger.hand_set_of_none {s : Ledger ι} {i : ι} {t₀ t : GrantTask}
    (htask : s.task i = t₀) (hhand : t₀.hand = none) (ht : t.hand = none) :
    (s.set i t).hand = s.hand := by
  have hi : s.hand i = none := (congrArg GrantTask.hand htask).trans hhand
  rw [s.hand_set, ht, ← hi, Function.update_eq_self]

/-- A call that has nothing in hand goes on. -/
theorem Ledger.Sound.set {s : Ledger ι} (h : s.Sound) {i : ι} {t₀ t : GrantTask}
    (htask : s.task i = t₀) (hhand : t₀.hand = none) (hawaits : t₀.awaits = none)
    (ht : t.hand = none) (hfits : s.Fits t) : (s.set i t).Sound := by
  have heq : (s.set i t).hand = s.hand := hand_set_of_none htask hhand ht
  refine ⟨h.reconciled, heq ▸ h.custody, fun k hk => ?_, h.fits_set hfits, h.booked⟩
  rcases h.accounted k hk with hc | ⟨j, hj⟩
  · exact .inl (heq ▸ hc)
  · exact .inr ⟨j, awaits_set hj (by simp [htask, hawaits])⟩

omit [DecidableEq ι] in
/-- **A grant may be dropped** where nothing of its object is there, or may still come. -/
theorem Ledger.Sound.drop {s : Ledger ι} (h : s.Sound) {k : Stored}
    (hk : s.has k = true → ¬ s.Exposed k) : (s.drop k).Sound := by
  refine ⟨fun g hg => h.reconciled g (List.mem_of_mem_filter hg),
    h.custody.mono fun j hj => (has_drop.mp hj).1, fun j hj => ?_, h.fits, h.booked⟩
  rcases h.accounted j hj with (hhas | hrest) | hawaits
  · refine .inl (.inl (has_drop.mpr ⟨hhas, ?_⟩))
    rintro rfl
    exact hk hhas hj
  · exact .inl (.inr hrest)
  · exact .inr hawaits

/-- **A call takes the grants of an object**, and is the one to charge it. -/
theorem Ledger.Sound.take {s : Ledger ι} (h : s.Sound) {i : ι} {t₀ t : GrantTask} {k : Stored}
    (htask : s.task i = t₀) (hhand : t₀.hand = none)
    (hawaits : ∀ j, t₀.awaits = some j → j = k) (hfree : s.Free k) (ht : t.hand = some k)
    (hfits : s.Fits t) : ((s.set i t).drop k).Sound := by
  have heq : ((s.set i t).drop k).hand = Function.update s.hand i (some k) := ht ▸ s.hand_set i t
  refine ⟨fun g hg => h.reconciled g (List.mem_of_mem_filter hg), ?_, fun j hj => ?_,
    h.fits_set hfits, h.booked⟩
  · rw [heq]
    exact h.custody.take hfree.1 hfree.2 fun j hj => has_drop.mp hj
  · by_cases hjk : j = k
    · subst hjk
      exact .inl (.inr (.inl ⟨i, by rw [heq, Function.update_self]⟩))
    rcases h.accounted j hj with (hhas | ⟨l, hl⟩ | hused) | ⟨l, hl⟩
    · exact .inl (.inl (has_drop.mpr ⟨hhas, hjk⟩))
    · have hli : l ≠ i := by
        rintro rfl
        rw [Ledger.hand, htask, hhand] at hl
        cases hl
      exact .inl (.inr (.inl ⟨l, by rw [heq, Function.update_of_ne hli, hl]⟩))
    · exact .inl (.inr (.inr hused))
    · exact .inr ⟨l, awaits_set hl fun hi => hjk (hawaits j (htask ▸ hi))⟩

/-- **A call charges what it has taken.** -/
theorem Ledger.Sound.recordUsage {s : Ledger ι} (h : s.Sound) {i : ι} {t₀ t : GrantTask}
    {k : Stored} {size : ℕ} (htask : s.task i = t₀) (hhand₀ : t₀.hand = some k)
    (hawaits : t₀.awaits = none) (ht : t.hand = none) (hfits : s.Fits t) :
    ((s.set i t).recordUsage k size).Sound := by
  have hhand : s.hand i = some k := (congrArg GrantTask.hand htask).trans hhand₀
  have heq : ((s.set i t).recordUsage k size).hand = Function.update s.hand i none :=
    ht ▸ s.hand_set i t
  have hused : s.charged k = 0 := (h.custody.hand i k hhand).1
  refine ⟨h.reconciled, ?_, fun j hj => ?_, h.fits_set hfits, h.booked⟩
  · rw [heq]
    exact h.custody.use hhand
  · by_cases hjk : j = k
    · subst hjk
      refine .inl (.inr (.inr ?_))
      simp [Ledger.recordUsage, Ledger.set, hused]
    rcases h.accounted j hj with (hhas | ⟨l, hl⟩ | hcharged) | ⟨l, hl⟩
    · exact .inl (.inl hhas)
    · have hli : l ≠ i := by
        rintro rfl
        exact hjk (Option.some.inj (hl.symm.trans hhand))
      exact .inl (.inr (.inl ⟨l, by rw [heq, Function.update_of_ne hli, hl]⟩))
    · refine .inl (.inr (.inr ?_))
      simpa [Ledger.recordUsage, Ledger.set, hjk] using hcharged
    · exact .inr ⟨l, awaits_set hl (by simp [htask, hawaits])⟩

/-- A call gives up what it has taken, where nothing of the object is there, or may still come. -/
theorem Ledger.Sound.abandon {s : Ledger ι} (h : s.Sound) {i : ι} {t₀ t : GrantTask} {k : Stored}
    (htask : s.task i = t₀) (hhand₀ : t₀.hand = some k) (hawaits : t₀.awaits = none)
    (ht : t.hand = none) (hfits : s.Fits t) (hk : ¬ s.Exposed k) : (s.set i t).Sound := by
  have hhand : s.hand i = some k := (congrArg GrantTask.hand htask).trans hhand₀
  have heq : (s.set i t).hand = Function.update s.hand i none := ht ▸ s.hand_set i t
  refine ⟨h.reconciled, ?_, fun j hj => ?_, h.fits_set hfits, h.booked⟩
  · rw [heq]
    exact h.custody.discard i
  · rcases h.accounted j hj with (hhas | ⟨l, hl⟩ | hcharged) | ⟨l, hl⟩
    · exact .inl (.inl hhas)
    · have hli : l ≠ i := by
        rintro rfl
        cases hl.symm.trans hhand
        exact hk hj
      exact .inl (.inr (.inl ⟨l, by rw [heq, Function.update_of_ne hli, hl]⟩))
    · exact .inl (.inr (.inr hcharged))
    · exact .inr ⟨l, awaits_set hl (by simp [htask, hawaits])⟩

/-! ### Bookings -/

theorem int64_eq_self {n : ℕ} (h : n < 2 ^ 63) : int64 n = n :=
  Int.bmod_eq_of_le (by omega) (by omega)

theorem unexpired_append {now : ℤ} {grants : List Grant} {g : Grant} (h : now ≤ g.expires) :
    unexpired now (grants ++ [g]) = unexpired now grants + g.size := by
  simp [unexpired, h]

/-- **A careful booking fits the cap.** -/
theorem Ledger.exposure_le {s : Ledger ι} {i : ι} {object : Stored}
    {size ttl outstanding usage : ℕ} (hfits : usage + int64 (size + outstanding) ≤ s.cap)
    (hc : s.CarefulBook object size outstanding usage) :
    (({ s.set i (.signs ⟨object, size, s.now + ttl⟩) with
      grants := s.grants ++ [⟨object, size, s.now + ttl⟩] } : Ledger ι).exposure : ℤ) ≤ s.cap := by
  let g : Grant := ⟨object, size, s.now + ttl⟩
  let covered (o : Stored × ℕ) : Bool :=
    (s.grants ++ [g]).any fun g => g.object = o.1 ∧ s.now ≤ g.expires
  have hlive : s.now ≤ g.expires := Int.le_add_of_nonneg_right (Int.natCast_nonneg ttl)
  have hrest : ((s.objects.filter fun o => s.charged o.1 = 0 ∧ ¬ covered o).map (·.2)).sum = 0 := by
    refine List.sum_eq_zero fun n hn => ?_
    obtain ⟨o, ho, rfl⟩ := List.mem_map.mp hn
    obtain ⟨hmem, hp⟩ := List.mem_filter.mp ho
    obtain ⟨hused, hcov⟩ := of_decide_eq_true hp
    by_contra hsize
    rcases hc.covered o hmem (Nat.pos_of_ne_zero hsize) with hcharged | ⟨g', hg', hobj, hlive'⟩
    · exact hcharged hused
    · refine hcov (List.any_eq_true.mpr ⟨g', List.mem_append_left _ hg', ?_⟩)
      exact decide_eq_true ⟨hobj, hlive'⟩
  have hint : int64 (size + outstanding) = size + outstanding := by
    exact_mod_cast int64_eq_self hc.fits
  have hsum : ({ s.set i (.signs g) with grants := s.grants ++ [g] } : Ledger ι).exposure =
      s.usage + (unexpired s.now s.grants + size) + 0 := by
    rw [← hrest, ← unexpired_append hlive]
    rfl
  have hgrown := hc.grown
  rw [hint] at hfits
  rw [hsum]
  omega

omit [DecidableEq ι] in
/-- A booking enters the ledger. -/
theorem Ledger.Sound.enter {s : Ledger ι} (h : s.Sound) {g : Grant} (hfree : s.Free g.object)
    (hlive : s.now ≤ g.expires) {booked : List ℕ} (hbooked : ∀ e ∈ booked, (e : ℤ) ≤ s.cap) :
    ({ s with grants := s.grants ++ [g], booked } : Ledger ι).Sound := by
  have hhas : ∀ {j}, ({ s with grants := s.grants ++ [g], booked } : Ledger ι).has j = true ↔
      s.has j = true ∨ j = g.object := by
    intro j
    simp [Ledger.has, @eq_comm _ g.object]
  have hgrace : 0 ≤ grantReconcileGrace := by decide
  refine ⟨fun g' hg' => ?_, ?_, fun j hj => ?_, h.fits, hbooked⟩
  · rcases List.mem_append.mp hg' with hg' | hg'
    · exact h.reconciled g' hg'
    · rw [List.mem_singleton.mp hg']
      exact Int.le_trans hlive (Int.le_add_of_nonneg_right hgrace)
  · exact h.custody.enter hfree.1 hfree.2 fun j hj => hhas.mp hj
  · rcases h.accounted j hj with (hold | hrest) | hawaits
    · exact .inl (.inl (hhas.mpr (.inl hold)))
    · exact .inl (.inr hrest)
    · exact .inr hawaits

/-! ### One step -/

/-- What a call books. -/
theorem Ledger.Sound.book {s s' : Ledger ι} (h : s.Sound) {i : ι} (careful : s.Careful (.book i))
    (hs : s.step (.book i) = some s') : s'.Sound := by
  simp only [Ledger.step] at hs
  split at hs
  case h_2 => cases hs
  rename_i object size ttl outstanding usage htask
  have hfits : s.Fits (s.task i) := h.fits i
  rw [htask] at hfits
  rw [h.dropStale_eq] at hs
  split at hs
  · cases hs
    exact h.set htask rfl rfl rfl trivial
  · rename_i hguard
    have hc := careful object size ttl outstanding usage htask (by
      rw [h.dropStale_eq]
      exact Int.not_lt.mp hguard)
    have hset := h.set (t := .signs ⟨object, size, s.now + ttl⟩) htask rfl rfl rfl trivial
    have hfree : (s.set i (.signs ⟨object, size, s.now + ttl⟩)).Free object := by
      refine ⟨hc.free.1, fun j hj => ?_⟩
      rw [s.hand_set] at hj
      exact hc.free.2 j (Custody.update_none_eq_some.mp hj).2
    cases hs
    refine hset.enter hfree (Int.le_add_of_nonneg_right (Int.natCast_nonneg ttl)) fun e he => ?_
    rcases List.mem_append.mp he with he | he
    · exact h.booked e he
    · rw [List.mem_singleton.mp he]
      exact s.exposure_le hfits hc

omit [DecidableEq ι] in
theorem Ledger.landed_store {s : Ledger ι} {object k : Stored} {size : ℕ}
    (h : s.landed k = true) : (s.store object size).any (·.1 == k) = true := by
  rw [Ledger.store]
  split
  · exact h
  · exact List.any_cons.trans (by simp [show s.objects.any (·.1 == k) = true from h])

omit [DecidableEq ι] in
theorem Ledger.mem_store {s : Ledger ι} {object : Stored} {size : ℕ} {o : Stored × ℕ}
    (h : o ∈ s.store object size) : o ∈ s.objects ∨ s.landed object = false ∧ o = (object, size) := by
  rw [Ledger.store] at h
  split at h
  · exact .inl h
  · rename_i hno
    rcases List.mem_cons.mp h with rfl | h
    · exact .inr ⟨Bool.eq_false_iff.mpr hno, rfl⟩
    · exact .inl h

omit [DecidableEq ι] in
/-- Time passes, and projects are reconciled in time. -/
theorem Ledger.Sound.tick {s : Ledger ι} (h : s.Sound) {t : ℕ}
    (intime : s.InTime (.tick t)) : ({ s with now := s.now + t } : Ledger ι).Sound := by
  refine ⟨intime, h.custody, fun k hk => h.accounted k ?_, h.fits, h.booked⟩
  rcases hk with hobj | ⟨u, hu, hkey, hsize, hlive⟩
  · exact .inl hobj
  · exact .inr ⟨u, hu, hkey, hsize, Int.le_trans (Int.le_add_of_nonneg_right
      (Int.natCast_nonneg t)) hlive⟩

omit [DecidableEq ι] in
/-- More objects are in storage, and each of them is accounted for. -/
theorem Ledger.Sound.store {s : Ledger ι} (h : s.Sound) {object : Stored} {size : ℕ}
    (hnew : s.landed object = false → 0 < size → s.Accounted object) :
    ({ s with objects := s.store object size } : Ledger ι).Sound := by
  refine ⟨h.reconciled, h.custody, fun k hk => ?_, fun i => ?_, h.booked⟩
  · rcases hk with ⟨o, ho, rfl, hsize⟩ | hurl
    · rcases s.mem_store ho with ho | ⟨hno, rfl⟩
      · exact h.accounted o.1 (.inl ⟨o, ho, rfl, hsize⟩)
      · exact hnew hno hsize
    · exact h.accounted k (.inr hurl)
  · have hfits := h.fits i
    revert hfits
    show s.Fits (s.task i) → Ledger.Fits _ (s.task i)
    cases s.task i with
    | relays k size' billed =>
      cases billed with
      | false => exact Or.imp_right Ledger.landed_store
      | true => exact fun _ => trivial
    | _ => exact id

/-- The upload of a URL lands. -/
theorem Ledger.Sound.land {s s' : Ledger ι} (h : s.Sound) {url : Grant}
    (hs : s.step (.land url) = some s') : s'.Sound := by
  simp only [Ledger.step] at hs
  split at hs
  case isFalse => cases hs
  rename_i hurl
  cases hs
  exact h.store fun _ hsize => h.accounted _ (.inr ⟨url, hurl.1, rfl, hsize, hurl.2⟩)

/-- A relayed put is stored. -/
theorem Ledger.Sound.put {s s' : Ledger ι} (h : s.Sound) {i : ι}
    (hs : s.step (.put i) = some s') : s'.Sound := by
  simp only [Ledger.step] at hs
  split at hs
  case h_2 => cases hs
  rename_i object size billed htask
  cases hs
  have hset : (s.set i (.relayed object size billed)).Sound :=
    h.set htask rfl rfl rfl trivial
  refine hset.store fun hno hsize => ?_
  have hfits : s.Fits (s.task i) := h.fits i
  rw [htask] at hfits
  cases billed with
  | true => exact .inr ⟨i, by rw [s.task_set_self]; rfl⟩
  | false =>
    rcases hfits with hzero | hlanded
    · exact absurd hzero (Nat.ne_of_gt hsize)
    · exact absurd (hno.symm.trans hlanded) (by simp)

/-- A URL is handed out, or its grant is given back. -/
theorem Ledger.Sound.sign {s s' : Ledger ι} (h : s.Sound) {i : ι} (careful : s.Careful (.sign i))
    (hs : s.step (.sign i) = some s') : s'.Sound := by
  simp only [Ledger.step] at hs
  split at hs
  case h_2 => cases hs
  rename_i g htask
  cases hs
  have hset : (s.set i .idle).Sound :=
    h.set htask rfl rfl rfl trivial
  refine ⟨hset.reconciled, hset.custody, fun k hk => ?_, hset.fits, hset.booked⟩
  rcases hk with hobj | ⟨u, hu, rfl, hsize, hlive⟩
  · exact hset.accounted k (.inl hobj)
  rcases List.mem_cons.mp hu with rfl | hu
  · rcases careful u htask with hc | ⟨j, hj⟩
    · have heq : (s.set i .idle).hand = s.hand := hand_set_of_none htask rfl rfl
      exact .inl (heq ▸ hc)
    · exact .inr ⟨j, awaits_set hj (by simp [htask, GrantTask.awaits])⟩
  · exact hset.accounted u.object (.inr ⟨u, hu, rfl, hsize, hlive⟩)

theorem Ledger.Sound.giveBack {s s' : Ledger ι} (h : s.Sound) {i : ι}
    (careful : s.Careful (.giveBack i)) (hs : s.step (.giveBack i) = some s') : s'.Sound := by
  simp only [Ledger.step] at hs
  split at hs
  case h_2 => cases hs
  rename_i g htask
  cases hs
  have hset : (s.set i .idle).Sound :=
    h.set htask rfl rfl rfl trivial
  exact hset.drop (careful g htask)

omit [DecidableEq ι] in
/-- Nobody has charged what is in the ledger. -/
theorem Ledger.Sound.free {s : Ledger ι} (h : s.Sound) {k : Stored} (hk : s.has k = true) :
    s.Free k :=
  h.custody.pool k hk

/-- A sweep retires a grant. -/
theorem Ledger.Sound.retire {s s' : Ledger ι} (h : s.Sound) {i : ι}
    (careful : s.Careful (.retire i)) (hs : s.step (.retire i) = some s') : s'.Sound := by
  simp only [Ledger.step] at hs
  split at hs
  case h_2 => cases hs
  rename_i g found mine htask
  cases hs
  by_cases hhas : s.has g.object = true
  · cases found with
    | true =>
      simp only [hhas, Bool.and_self, ↓reduceIte]
      exact h.take htask rfl (fun _ hj => nomatch hj) (h.free hhas) rfl trivial
    | false =>
      simp only [Bool.and_false, Bool.false_eq_true, ↓reduceIte]
      have hset := h.set (t := .sweeps mine) htask rfl rfl rfl trivial
      exact hset.drop fun _ => careful g mine htask hhas
  · simp only [hhas, Bool.false_and, Bool.false_eq_true, ↓reduceIte]
    have hset := h.set (t := .sweeps mine) htask rfl rfl rfl trivial
    exact hset.drop fun hhas' => absurd hhas' hhas

/-- A commit claims a grant. -/
theorem Ledger.Sound.claim {s s' : Ledger ι} (h : s.Sound) {i : ι} {object : Stored}
    (hs : s.step (.claim i object) = some s') : s'.Sound := by
  simp only [Ledger.step] at hs
  split at hs
  case h_2 => cases hs
  rename_i htask
  cases hs
  by_cases hhas : s.has object = true
  · simp only [hhas, ↓reduceIte]
    exact h.take htask rfl (fun _ hj => nomatch hj) (h.free hhas) rfl trivial
  · simp only [hhas, Bool.false_eq_true, ↓reduceIte]
    have hset := h.set (t := .idle) htask rfl rfl rfl trivial
    exact hset.drop fun hhas' => absurd hhas' hhas

/-- What has been taken is charged. -/
theorem Ledger.Sound.record {s s' : Ledger ι} (h : s.Sound) {i : ι}
    (hs : s.step (.record i) = some s') : s'.Sound := by
  simp only [Ledger.step] at hs
  split at hs
  case h_3 => cases hs
  · rename_i object size mine htask
    cases hs
    exact h.recordUsage htask rfl rfl rfl trivial
  · rename_i object htask
    split at hs
    case h_2 => cases hs
    cases hs
    exact h.recordUsage htask rfl rfl rfl trivial

/-- A relayed put drops the grants of its object, and is charged if it was billed. -/
theorem Ledger.Sound.settle {s s' : Ledger ι} (h : s.Sound) {i : ι}
    (careful : s.Careful (.settle i)) (hs : s.step (.settle i) = some s') : s'.Sound := by
  simp only [Ledger.step] at hs
  split at hs
  case h_2 => cases hs
  rename_i object size billed htask
  obtain ⟨hfree, hdrop⟩ := careful object size billed htask
  cases hs
  cases billed with
  | true =>
    exact h.take htask rfl (fun j hj => (Option.some.inj hj).symm) (hfree rfl) rfl trivial
  | false =>
    have hset := h.set (t := .idle) htask rfl rfl rfl trivial
    exact hset.drop (hdrop rfl)

/-- **A careful step keeps the invariant of the ledger.** -/
theorem Ledger.Sound.step {s s' : Ledger ι} (h : s.Sound) (hs : s.CarefulNext s') : s'.Sound := by
  obtain ⟨ev, intime, careful, hs⟩ := hs
  cases ev with
  | tick t =>
    cases hs
    exact h.tick intime
  | land url => exact h.land hs
  | book i => exact h.book careful hs
  | sign i => exact h.sign careful hs
  | giveBack i => exact h.giveBack careful hs
  | retire i => exact h.retire careful hs
  | record i => exact h.record hs
  | claim i object => exact h.claim hs
  | put i => exact h.put hs
  | settle i => exact h.settle careful hs
  | abandon i =>
    simp only [Ledger.step] at hs
    split at hs
    case h_2 => cases hs
    rename_i object htask
    cases hs
    exact h.abandon htask rfl rfl rfl trivial
      (careful object htask)
  | ask i object size ttl =>
    simp only [Ledger.step] at hs
    split at hs
    case h_2 => cases hs
    rename_i htask
    cases hs
    exact h.set htask rfl rfl rfl trivial
  | read i =>
    simp only [Ledger.step] at hs
    split at hs
    case h_2 => cases hs
    rename_i htask
    rw [h.dropStale_eq] at hs
    cases hs
    exact h.set htask rfl rfl rfl trivial
  | check i =>
    simp only [Ledger.step] at hs
    split at hs
    case h_2 => cases hs
    rename_i htask
    split at hs
    · rename_i hfits
      cases hs
      exact h.set htask rfl rfl rfl hfits
    · cases hs
      exact h.set htask rfl rfl rfl trivial
  | sweep i project =>
    simp only [Ledger.step] at hs
    split at hs
    case h_2 => cases hs
    rename_i htask
    rw [h.dropStale_eq] at hs
    cases hs
    exact h.set htask rfl rfl rfl trivial
  | look i answers =>
    simp only [Ledger.step] at hs
    split at hs
    case h_3 => cases hs
    all_goals
      rename_i htask
      cases hs
      refine h.set htask rfl rfl ?_ ?_
    · rfl
    · trivial
    · cases answers <;> rfl
    · cases answers <;> trivial
  | decide i =>
    simp only [Ledger.step] at hs
    split at hs
    case h_2 => cases hs
    rename_i htask
    cases hs
    refine h.set htask rfl rfl ?_ ?_
    · split <;> rfl
    · split <;> trivial
  | relay i object size =>
    simp only [Ledger.step] at hs
    split at hs
    case h_2 => cases hs
    rename_i htask
    cases hs
    refine h.set htask rfl rfl rfl ?_
    cases hbilled : s.billed object size with
    | true => trivial
    | false =>
      by_cases hsize : size = 0
      · exact .inl hsize
      · refine .inr ?_
        by_contra hno
        simp [Ledger.billed, Nat.pos_of_ne_zero hsize, hno] at hbilled

/-! ### Runs -/

omit [DecidableEq ι] in
/-- An org with nothing stored and nothing granted. -/
theorem Ledger.sound_init (cap : ℤ) : ({ cap } : Ledger ι).Sound where
  reconciled _ hg := absurd hg (by simp)
  custody := ⟨fun _ => Nat.zero_le _, fun _ hk => absurd hk (by simp [Ledger.has]),
    fun _ _ hk => absurd hk (by simp [Ledger.hand, GrantTask.hand])⟩
  accounted _ hk := by
    rcases hk with ⟨_, ho, -⟩ | ⟨_, hu, -⟩
    · exact absurd ho (by simp)
    · exact absurd hu (by simp)
  fits _ := trivial
  booked _ he := absurd he (by simp)

theorem Ledger.cap_step {s s' : Ledger ι} (hs : s.CarefulNext s') : s'.cap = s.cap := by
  obtain ⟨ev, -, -, hs⟩ := hs
  cases ev
  all_goals
    simp only [Ledger.step] at hs
    repeat' split at hs
    all_goals first | (cases hs; rfl) | cases hs

/-- **No booking goes over the cap, and what lands is charged once.** After careful steps of any
calls: usage, what is granted and has not expired and what has landed besides were within the cap
at each booking; and an object that is in storage has been charged once, or has not been charged
and is going to be. -/
theorem exposure_le_cap (cap : ℤ) {s : Ledger ι}
    (h : Relation.ReflTransGen Ledger.CarefulNext { cap } s) :
    (∀ e ∈ s.booked, (e : ℤ) ≤ cap) ∧ ∀ o ∈ s.objects, 0 < o.2 → s.ChargedOnce o.1 := by
  have hcap : s.cap = cap := @Runs.invariant _ _ (fun t => t.cap = cap) _ _ h
    (fun _ _ hs hstep => (Ledger.cap_step hstep).trans hs) rfl
  have hsound : s.Sound :=
    Runs.invariant h (fun _ _ => Ledger.Sound.step) (Ledger.sound_init cap)
  exact ⟨hcap ▸ hsound.booked, fun o ho hsize => hsound.chargedOnce (.inl ⟨o, ho, rfl, hsize⟩)⟩

/-! ### Runs on given events -/

/-- Two objects. -/
def blobA : Stored := (ascii "p", ascii "blobs/a")

def blobB : Stored := (ascii "p", ascii "blobs/b")

/-- An upload is granted, lands, and is charged by a sweep. -/
theorem exposure_le_cap_swept : ∃ s : Ledger Unit, s.booked = [50] ∧ s.usage = 50 ∧
    (∀ e ∈ s.booked, (e : ℤ) ≤ 100) ∧ ∀ o ∈ s.objects, 0 < o.2 → s.ChargedOnce o.1 := by
  have hrun : ∃ s : Ledger Unit, Relation.ReflTransGen Ledger.CarefulNext { cap := 100 } s ∧
      s.booked = [50] ∧ s.usage = 50 := by
    refine ⟨_, .head ⟨.ask () blobA 50 10, trivial, trivial, Runs.possible (by decide +kernel)⟩ <|
      .head ⟨.read (), trivial, trivial, Runs.possible (by decide +kernel)⟩ <|
      .head ⟨.check (), trivial, trivial, Runs.possible (by decide +kernel)⟩ <|
      .head ⟨.book (), trivial, ?_, Runs.possible (by decide +kernel)⟩ <|
      .head ⟨.sign (), trivial, ?_, Runs.possible (by decide +kernel)⟩ <|
      .head ⟨.land ⟨blobA, 50, 10⟩, trivial, trivial, Runs.possible (by decide +kernel)⟩ <|
      .head ⟨.sweep () (ascii "p"), trivial, trivial, Runs.possible (by decide +kernel)⟩ <|
      .head ⟨.look () true, trivial, trivial, Runs.possible (by decide +kernel)⟩ <|
      .head ⟨.decide (), trivial, trivial, Runs.possible (by decide +kernel)⟩ <|
      .head ⟨.retire (), trivial, ?_, Runs.possible (by decide +kernel)⟩ <|
      .single ⟨.record (), trivial, trivial, Runs.possible (by decide +kernel)⟩, ?_, ?_⟩
    · intro object size ttl outstanding usage htask _
      cases htask.symm.trans (by decide +kernel : _ = GrantTask.books blobA 50 10 0 0)
      exact ⟨by decide +kernel, by decide +kernel, by decide +kernel, by decide +kernel,
        fun ⟨⟩ => by decide +kernel⟩
    · intro g htask
      cases htask.symm.trans (by decide +kernel : _ = GrantTask.signs ⟨blobA, 50, 10⟩)
      exact .inl (.inl (by decide +kernel))
    · intro g mine htask
      cases htask.symm.trans
        (by decide +kernel : _ = GrantTask.retires ⟨blobA, 50, 10⟩ true [])
    · decide +kernel
    · decide +kernel
  obtain ⟨s, hs, hbooked, husage⟩ := hrun
  exact ⟨s, hbooked, husage, exposure_le_cap 100 hs⟩

/-- A grant may be released for free because its object landed while the sweep was looking; and
what landed before its grant expired leaves room for another booking. -/
theorem released_or_overbooked :
    (¬ ∀ s : Ledger Unit, Relation.ReflTransGen Ledger.Next { cap := 100 } s →
      ∀ o ∈ s.objects, 0 < o.2 → s.ChargedOnce o.1) ∧
    ¬ ∀ s : Ledger Unit, Relation.ReflTransGen Ledger.Next { cap := 100 } s →
      ∀ e ∈ s.booked, (e : ℤ) ≤ 100 := by
  constructor
  · intro h
    have hrun : ∃ s : Ledger Unit, Relation.ReflTransGen Ledger.Next { cap := 100 } s ∧
        s.objects = [(blobA, 50)] ∧ ¬ s.ChargedOnce blobA := by
      refine ⟨_, .head ⟨.ask () blobA 50 10, trivial, Runs.possible (by decide +kernel)⟩ <|
        .head ⟨.read (), trivial, Runs.possible (by decide +kernel)⟩ <|
        .head ⟨.check (), trivial, Runs.possible (by decide +kernel)⟩ <|
        .head ⟨.book (), trivial, Runs.possible (by decide +kernel)⟩ <|
        .head ⟨.sign (), trivial, Runs.possible (by decide +kernel)⟩ <|
        .head ⟨.sweep () (ascii "p"), trivial, Runs.possible (by decide +kernel)⟩ <|
        .head ⟨.look () true, trivial, Runs.possible (by decide +kernel)⟩ <|
        .head ⟨.land ⟨blobA, 50, 10⟩, trivial, Runs.possible (by decide +kernel)⟩ <|
        .head ⟨.tick 11, ?_, Runs.possible (by decide +kernel)⟩ <|
        .head ⟨.decide (), trivial, Runs.possible (by decide +kernel)⟩ <|
        .single ⟨.retire (), trivial, Runs.possible (by decide +kernel)⟩,
        by decide +kernel, ?_⟩
      · simp only [Ledger.InTime]
        decide +kernel
      · rintro (hused | ⟨-, hhas | ⟨⟨⟩, hhand⟩ | ⟨⟨⟩, hawaits⟩⟩)
        · exact absurd hused (by decide +kernel)
        · exact absurd hhas (by decide +kernel)
        · exact absurd hhand (by decide +kernel)
        · exact absurd hawaits (by decide +kernel)
    obtain ⟨s, hs, hobjects, hcharged⟩ := hrun
    exact hcharged (h s hs (blobA, 50) (by simp [hobjects]) (by decide))
  · intro h
    have hrun : ∃ s : Ledger Unit, Relation.ReflTransGen Ledger.Next { cap := 100 } s ∧
        s.booked = [60, 120] := by
      refine ⟨_, .head ⟨.ask () blobA 60 10, trivial, Runs.possible (by decide +kernel)⟩ <|
        .head ⟨.read (), trivial, Runs.possible (by decide +kernel)⟩ <|
        .head ⟨.check (), trivial, Runs.possible (by decide +kernel)⟩ <|
        .head ⟨.book (), trivial, Runs.possible (by decide +kernel)⟩ <|
        .head ⟨.sign (), trivial, Runs.possible (by decide +kernel)⟩ <|
        .head ⟨.land ⟨blobA, 60, 10⟩, trivial, Runs.possible (by decide +kernel)⟩ <|
        .head ⟨.tick 11, ?_, Runs.possible (by decide +kernel)⟩ <|
        .head ⟨.ask () blobB 60 10, trivial, Runs.possible (by decide +kernel)⟩ <|
        .head ⟨.read (), trivial, Runs.possible (by decide +kernel)⟩ <|
        .head ⟨.check (), trivial, Runs.possible (by decide +kernel)⟩ <|
        .single ⟨.book (), trivial, Runs.possible (by decide +kernel)⟩, by decide +kernel⟩
      simp only [Ledger.InTime]
      decide +kernel
    obtain ⟨s, hs, hbooked⟩ := hrun
    exact absurd (h s hs 120 (by simp [hbooked])) (by decide)

end Beardrive
