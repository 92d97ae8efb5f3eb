import Beardrive.Lib.GoString
import Beardrive.Lib.Runs

/-!
# One approval, one device token

A machine without a browser signs in by polling. The hub keeps a pending sign-in in a store that
all its processes share; a person approves it on a page, which sets the account and the mark
`granted` in the row, and the next poll takes the row and is answered with a token.

A poll has to decide and consume in one step, or two polls win the same approval. So it takes the
row out, looks at it, and writes it back when nobody has approved it yet. Between the two the row
is gone.

## What can go wrong

The row a poll writes back is the one it took: an approval that landed in between is overwritten,
although its page said "connected". Another poll finds no row and is told that the sign-in has
expired. An approval reads the row and writes it later, also when a poll has spent it meanwhile,
and then one sign-in buys a second token. And an exchange of the browser flow that presents the
code takes the row before it looks at its kind.

## Main definitions

* `DeviceLogin` — the row, the calls on their way and what was answered
* `DeviceLogin.step` — the steps of `takeGranted`, `approveDevice` and `take`
* `DeviceLogin.Careful` — the steps that do not meet each other

## Main results

* `DeviceLogin.Sound.step` — what a careful step keeps
* `one_approval_one_token` — nothing is lost, spent twice or refused in a careful run
-/

namespace Beardrive

/-! ### Pending sign-ins -/

/-- `cliGrant.Kind`: the code of a browser callback, or a poll. -/
inductive GrantKind where
  | code
  | device
  deriving DecidableEq

/-- `cliGrant`. -/
structure CliGrant where
  kind : GrantKind
  challenge : GoString := []
  link : GoString := []
  user : GoString := []
  device : GoString := []
  os : GoString := []
  ip : GoString := []
  granted : Bool := false
  deriving DecidableEq

/-- A sign-in as it is minted: one that is polled for waits for its approval. -/
def CliGrant.Minted (g : CliGrant) : Prop := g.kind = .device → g.granted = false

/-- What a call was answered: a poll with a token, to wait, or that the code is invalid or expired;
an approval that the device is connected, or that the sign-in expired; an exchange with a token or
none. -/
inductive LoginAnswer where
  | token (user device : GoString)
  | pending
  | invalid
  | connected (user : GoString)
  | expired
  | exchanged (token : Option (GoString × GoString))
  | refused
  deriving DecidableEq

namespace LoginAnswer

/-- A poll was answered with a token. -/
def isToken : LoginAnswer → Bool
  | .token .. => true
  | _ => false

/-- The answer of the call that spent the sign-in. -/
def spends : LoginAnswer → Bool
  | .token .. => true
  | .exchanged _ => true
  | _ => false

/-- The account an approval was answered for. -/
def connectedAs : LoginAnswer → Option GoString
  | .connected user => some user
  | _ => none

end LoginAnswer

/-- What a poll makes of the row it took. -/
inductive Taken where
  | missing
  | early (g : CliGrant)
  | won (g : CliGrant)
  deriving DecidableEq

/-- `takeGranted`, up to the write that puts a row back. -/
def takeGranted (kind : GrantKind) : Option CliGrant → Taken
  | none => .missing
  | some g => if g.kind ≠ kind then .missing else if g.granted then .won g else .early g

/-- `load`: a row of another kind is none. -/
def loadGrant (kind : GrantKind) (row : Option CliGrant) : Option CliGrant :=
  row.filter fun g => g.kind = kind

/-- What `approveDevice` saves. -/
def CliGrant.approve (g : CliGrant) (user : GoString) : CliGrant :=
  { g with user := user, granted := true }

/-! ### Calls -/

/-- One pending sign-in. `held` has the rows that polls took and have not written back, `read` the
rows that approvals read, with the account that approves, and `log` what was answered, latest
first. -/
structure DeviceLogin where
  row : Option CliGrant
  held : List CliGrant := []
  read : List (CliGrant × GoString) := []
  log : List LoginAnswer := []
  deriving DecidableEq

/-- What can happen next, on any process. The store may refuse a call. -/
inductive LoginEvent where
  | take (ok : Bool)
  | putBack (g : CliGrant) (ok : Bool)
  | load (user : GoString) (ok : Bool)
  | save (g : CliGrant) (user : GoString) (ok : Bool)
  | exchange (verifier device : GoString) (ok : Bool)

namespace DeviceLogin

/-- A sign-in that was minted. -/
def start (g : CliGrant) : DeviceLogin := { row := some g }

/-- A poll takes the row. -/
def poll (s : DeviceLogin) : DeviceLogin :=
  match takeGranted .device s.row with
  | .missing => { s with row := none, log := .invalid :: s.log }
  | .early g => { s with row := none, held := g :: s.held }
  | .won g => { s with row := none, log := .token g.user g.device :: s.log }

/-- `apiExchange`: it takes the row and then looks at its kind. -/
def exchange (pkceOK : GoString → GoString → Bool) (s : DeviceLogin) (verifier device : GoString) :
    DeviceLogin :=
  match loadGrant .code s.row with
  | none => { s with row := none, log := .refused :: s.log }
  | some g =>
    let won := g.granted && pkceOK g.challenge verifier
    { s with row := none, log := .exchanged (if won then some (g.user, device) else none) :: s.log }

/-- One step of a call. A row that cannot be written back is gone; one that cannot be taken counts
as none. -/
def step (pkceOK : GoString → GoString → Bool) (s : DeviceLogin) :
    LoginEvent → Option DeviceLogin
  | .take true => some s.poll
  | .take false => some { s with log := .invalid :: s.log }
  | .putBack g ok =>
    if g ∈ s.held then
      some { s with
        row := if ok then some g else s.row
        held := s.held.erase g
        log := .pending :: s.log }
    else none
  | .load user ok =>
    match if ok then loadGrant .device s.row else none with
    | none => some { s with log := .expired :: s.log }
    | some g => some { s with read := (g, user) :: s.read }
  | .save g user ok =>
    if (g, user) ∈ s.read then
      some { s with
        row := if ok then some (g.approve user) else s.row
        read := s.read.erase (g, user)
        log := (if ok then .connected user else .expired) :: s.log }
    else none
  | .exchange verifier device true => some (s.exchange pkceOK verifier device)
  | .exchange _ _ false => some { s with log := .refused :: s.log }

/-- The state may become the next one. -/
def Next (pkceOK : GoString → GoString → Bool) (s s' : DeviceLogin) : Prop :=
  ∃ ev, step pkceOK s ev = some s'

/-- Some call has spent the sign-in. -/
def Spent (log : List LoginAnswer) : Prop := ∃ a ∈ log, a.spends = true

/-- The account of the latest approval that was answered as connected. -/
def connectedAs (log : List LoginAnswer) : Option GoString :=
  log.findSome? LoginAnswer.connectedAs

/-! ### What a sign-in should keep -/

/-- At most one poll is answered with a token. -/
def OneToken (log : List LoginAnswer) : Prop := log.countP (·.isToken) ≤ 1

/-- A poll is told that the code is invalid only when the sign-in was spent. -/
def NotRefused (log : List LoginAnswer) : Prop :=
  ∀ later earlier, log = later ++ .invalid :: earlier → Spent earlier

/-- The next poll after an approval is answered with a token for the account that approved. -/
def ApprovalKept (s : DeviceLogin) : Prop :=
  ∀ user, connectedAs s.log = some user → ¬ Spent s.log →
    ∃ device, s.poll.log = .token user device :: s.log

/-- Steps that do not meet each other. A poll takes the row when no other poll holds it, and can
write it back; an approval writes while the row is there; and no call presents a code of the other
kind. -/
def Careful (s : DeviceLogin) : LoginEvent → Prop
  | .take ok => ok = true ∧ s.held = [] ∧ ∀ g ∈ s.row, g.kind = .device
  | .putBack _ ok => ok = true
  | .load _ _ => True
  | .save _ _ ok => ok = true → s.row.isSome
  | .exchange _ _ ok => ok = true → ∀ g ∈ s.row, g.kind = .code

/-- A careful step. -/
def CarefulNext (pkceOK : GoString → GoString → Bool) (s s' : DeviceLogin) : Prop :=
  ∃ ev, s.Careful ev ∧ step pkceOK s ev = some s'

/-! ### One more answer -/

section

variable {log : List LoginAnswer} {a : LoginAnswer}

theorem spent_cons : Spent (a :: log) ↔ a.spends = true ∨ Spent log := by simp [Spent]

theorem connectedAs_cons : connectedAs (a :: log) = a.connectedAs.or (connectedAs log) := by
  rw [connectedAs, List.findSome?_cons]
  cases a.connectedAs <;> rfl

theorem spends_of_isToken (h : a.isToken = true) : a.spends = true := by
  cases a <;> first | rfl | cases h

/-- What the log says as a whole. -/
structure LogSound (log : List LoginAnswer) : Prop where
  tokens : OneToken log
  unspent : ¬ Spent log → log.countP (·.isToken) = 0
  invalid : NotRefused log

/-- A call may answer with a token when the sign-in is not spent, and that it is invalid when it
is. -/
theorem LogSound.cons (hs : LogSound log) (htoken : a.isToken = true → ¬ Spent log)
    (hinvalid : a = .invalid → Spent log) : LogSound (a :: log) := by
  refine ⟨?_, fun hspent => ?_, fun later earlier hlog => ?_⟩
  · have hone : log.countP (·.isToken) ≤ 1 := hs.tokens
    rw [OneToken, List.countP_cons]
    by_cases ha : a.isToken = true
    · simp [ha, hs.unspent (htoken ha)]
    · simpa [ha] using hone
  · rw [spent_cons, not_or] at hspent
    have ha : a.isToken ≠ true := fun ha => hspent.1 (spends_of_isToken ha)
    simpa [List.countP_cons, ha] using hs.unspent hspent.2
  · cases later with
    | nil =>
      obtain ⟨rfl, rfl⟩ := List.cons.inj hlog
      exact hinvalid rfl
    | cons b later => exact hs.invalid later earlier (List.cons.inj hlog).2

/-- What a row says, after the answers given so far: the sign-in is not spent, and it is granted to
the account that was last told so, if any was. -/
structure RowSound (g : CliGrant) (log : List LoginAnswer) (r : CliGrant) : Prop where
  kind : r.kind = g.kind
  unspent : ¬ Spent log
  granted : g.kind = .device → r.granted = (connectedAs log).isSome
  account : ∀ user, connectedAs log = some user → g.kind = .device ∧ r.user = user

/-- An answer that neither spends the sign-in nor approves it leaves what the row says. -/
theorem RowSound.cons {g r : CliGrant} (hr : RowSound g log r) (hspends : a.spends = false)
    (hconnected : a.connectedAs = none) : RowSound g (a :: log) r where
  kind := hr.kind
  unspent := by simpa [spent_cons, hspends] using hr.unspent
  granted := by simpa [connectedAs_cons, hconnected] using hr.granted
  account := by simpa [connectedAs_cons, hconnected] using hr.account

/-- What an approval writes says that its account is connected. -/
theorem RowSound.approve {g r r₀ : CliGrant} {user : GoString} (hr : RowSound g log r₀)
    (hkind : r.kind = g.kind) (hdevice : g.kind = .device) :
    RowSound g (.connected user :: log) (r.approve user) := by
  have hlast : connectedAs (.connected user :: log) = some user := by
    rw [connectedAs_cons]
    rfl
  refine ⟨hkind, ?_, fun _ => by rw [hlast]; rfl, fun u hu => ⟨hdevice, ?_⟩⟩
  · rw [spent_cons, not_or]
    exact ⟨by simp [LoginAnswer.spends], hr.unspent⟩
  · rw [hlast] at hu
    exact Option.some.inj hu

end

/-! ### What careful steps keep -/

/-- Between careful steps the row is in the store, or one poll holds it, or it is spent. -/
structure Sound (g : CliGrant) (s : DeviceLogin) : Prop where
  log : LogSound s.log
  row : ∀ r ∈ s.row, RowSound g s.log r
  held : ∀ r ∈ s.held, s.row = none ∧ s.held = [r] ∧ RowSound g s.log r ∧ r.granted = false
  read : ∀ a ∈ s.read, a.1.kind = g.kind ∧ g.kind = .device
  gone : s.row = none → s.held = [] → Spent s.log

theorem sound_start {g : CliGrant} (hg : g.Minted) : Sound g (start g) where
  log := ⟨by simp [OneToken, start], by simp [start], by simp [NotRefused, start]⟩
  row := by
    rintro r ⟨⟩
    exact ⟨rfl, by simp [Spent, start], fun h => hg h, by simp [connectedAs, start]⟩
  held := by simp [start]
  read := by simp [start]
  gone := by simp [start]

section

variable {g : CliGrant} {s s' : DeviceLogin} {a : LoginAnswer}
  {pkceOK : GoString → GoString → Bool}

/-- Answers that change nothing. -/
theorem Sound.quiet (hs : Sound g s) (hspends : a.spends = false)
    (hconnected : a.connectedAs = none) (hinvalid : a = .invalid → Spent s.log) :
    Sound g { s with log := a :: s.log } where
  log := hs.log.cons (fun ha => by simp [spends_of_isToken ha] at hspends) hinvalid
  row r hr := (hs.row r hr).cons hspends hconnected
  held r hr := by
    obtain ⟨hnone, hall, hsound, hgranted⟩ := hs.held r hr
    exact ⟨hnone, hall, hsound.cons hspends hconnected, hgranted⟩
  read := hs.read
  gone hnone hheld := spent_cons.mpr (.inr (hs.gone hnone hheld))

theorem Sound.held_eq_nil {r : CliGrant} (hs : Sound g s) (hrow : s.row = some r) :
    s.held = [] := by
  refine List.eq_nil_iff_forall_not_mem.mpr fun r' hr' => ?_
  have hnone := (hs.held r' hr').1
  rw [hrow] at hnone
  cases hnone

/-- A call that spends the sign-in leaves no row. -/
theorem Sound.spend {r : CliGrant} (hs : Sound g s) (hrow : s.row = some r)
    (hspends : a.spends = true) : Sound g { s with row := none, log := a :: s.log } where
  log := hs.log.cons (fun _ => (hs.row r hrow).unspent) (by rintro rfl; cases hspends)
  row := by simp
  held := by simp [hs.held_eq_nil hrow]
  read := hs.read
  gone _ _ := spent_cons.mpr (.inl hspends)

/-- A poll that no other poll meets. -/
theorem Sound.poll (hs : Sound g s) (hheld : s.held = [])
    (hkind : ∀ r ∈ s.row, r.kind = .device) : Sound g s.poll := by
  cases hrow : s.row with
  | none =>
    have hpoll : s.poll = { s with log := .invalid :: s.log } := by
      rw [DeviceLogin.poll, hrow]
      simp [takeGranted]
    rw [hpoll]
    exact hs.quiet rfl rfl fun _ => hs.gone hrow hheld
  | some r =>
    have hdevice : r.kind = .device := hkind r hrow
    cases hgranted : r.granted with
    | true =>
      have hpoll : s.poll = { s with row := none, log := .token r.user r.device :: s.log } := by
        rw [DeviceLogin.poll, hrow]
        simp [takeGranted, hdevice, hgranted]
      rw [hpoll]
      exact hs.spend hrow rfl
    | false =>
      have hpoll : s.poll = { s with row := none, held := [r] } := by
        rw [DeviceLogin.poll, hrow]
        simp [takeGranted, hdevice, hgranted, hheld]
      rw [hpoll]
      refine ⟨hs.log, by simp, ?_, hs.read, by simp⟩
      intro r' hr'
      obtain rfl := List.mem_singleton.mp hr'
      exact ⟨rfl, rfl, hs.row r' hrow, hgranted⟩

/-- A poll writes the row back, and the row says what it said. -/
theorem Sound.putBack {r : CliGrant} (hs : Sound g s) (hr : r ∈ s.held) :
    Sound g { s with row := some r, held := s.held.erase r, log := .pending :: s.log } := by
  obtain ⟨-, hall, hsound, -⟩ := hs.held r hr
  have herase : s.held.erase r = [] := by simp [hall]
  refine ⟨hs.log.cons (by simp [LoginAnswer.isToken]) (by simp), ?_, by simp [herase], hs.read,
    by simp⟩
  rintro r' ⟨⟩
  exact hsound.cons rfl rfl

/-- An approval reads the row. -/
theorem Sound.load {r : CliGrant} {user : GoString} (hs : Sound g s)
    (hload : loadGrant .device s.row = some r) :
    Sound g { s with read := (r, user) :: s.read } := by
  obtain ⟨hrow, hkind⟩ := Option.filter_eq_some_iff.mp hload
  have hdevice : r.kind = .device := by simpa using hkind
  refine ⟨hs.log, hs.row, hs.held, fun a ha => ?_, hs.gone⟩
  rcases List.mem_cons.mp ha with rfl | ha
  · exact ⟨(hs.row r hrow).kind, (hs.row r hrow).kind ▸ hdevice⟩
  · exact hs.read a ha

/-- An approval that finds the row in the store when it writes. -/
theorem Sound.save {r r₀ : CliGrant} {user : GoString} (hs : Sound g s)
    (hr : (r, user) ∈ s.read) (hrow : s.row = some r₀) :
    Sound g { s with
      row := some (r.approve user)
      read := s.read.erase (r, user)
      log := .connected user :: s.log } := by
  obtain ⟨hkind, hdevice⟩ := hs.read (r, user) hr
  refine ⟨hs.log.cons (by simp [LoginAnswer.isToken]) (by simp), ?_, by simp [hs.held_eq_nil hrow],
    fun a ha => hs.read a (List.mem_of_mem_erase ha), by simp⟩
  rintro r' ⟨⟩
  exact (hs.row r₀ hrow).approve hkind hdevice

/-- An approval that cannot write. -/
theorem Sound.expire {r : CliGrant} {user : GoString} (hs : Sound g s) :
    Sound g { s with read := s.read.erase (r, user), log := .expired :: s.log } := by
  have hquiet : Sound g { s with log := .expired :: s.log } := hs.quiet rfl rfl (by simp)
  exact ⟨hquiet.log, hquiet.row, hquiet.held, fun a ha => hs.read a (List.mem_of_mem_erase ha),
    hquiet.gone⟩

/-- An exchange that presents no code of a sign-in that is polled for. -/
theorem Sound.exchange {verifier device : GoString} (hs : Sound g s)
    (hkind : ∀ r ∈ s.row, r.kind = .code) : Sound g (s.exchange pkceOK verifier device) := by
  cases hrow : s.row with
  | none =>
    have hexchange : s.exchange pkceOK verifier device = { s with log := .refused :: s.log } := by
      rw [DeviceLogin.exchange, hrow]
      simp [loadGrant]
    rw [hexchange]
    exact hs.quiet rfl rfl (by simp)
  | some r =>
    have hload : loadGrant .code s.row = some r := by
      rw [hrow]
      exact Option.filter_some_pos (by simpa using hkind r hrow)
    rw [DeviceLogin.exchange, hload]
    exact hs.spend hrow rfl

/-- **What a careful step keeps.** -/
theorem Sound.step (hs : Sound g s) (h : CarefulNext pkceOK s s') : Sound g s' := by
  obtain ⟨ev, hcareful, hstep⟩ := h
  cases ev with
  | take ok =>
    obtain ⟨rfl, hheld, hkind⟩ := hcareful
    cases hstep
    exact hs.poll hheld hkind
  | putBack r ok =>
    obtain rfl : ok = true := hcareful
    rw [DeviceLogin.step, Option.ite_none_right_eq_some] at hstep
    obtain ⟨hr, heq⟩ := hstep
    cases heq
    exact hs.putBack hr
  | load user ok =>
    rw [DeviceLogin.step] at hstep
    cases hload : (if ok then loadGrant .device s.row else none) with
    | none =>
      rw [hload] at hstep
      cases hstep
      exact hs.quiet rfl rfl (by simp)
    | some r =>
      rw [hload] at hstep
      cases hstep
      cases ok with
      | false => cases hload
      | true => exact hs.load hload
  | save r user ok =>
    rw [DeviceLogin.step, Option.ite_none_right_eq_some] at hstep
    obtain ⟨hr, heq⟩ := hstep
    cases heq
    cases ok with
    | true =>
      obtain ⟨r₀, hsome⟩ := Option.isSome_iff_exists.mp (hcareful rfl)
      exact hs.save hr hsome
    | false => exact hs.expire
  | exchange verifier device ok =>
    cases ok with
    | true =>
      cases hstep
      exact hs.exchange (hcareful rfl)
    | false =>
      cases hstep
      exact hs.quiet rfl rfl (by simp)

/-- While a poll holds the row, no approval was answered as connected. -/
theorem Sound.approvalKept (hs : Sound g s) : s.ApprovalKept := by
  intro user hconnected hspent
  cases hrow : s.row with
  | some r =>
    have hr := hs.row r hrow
    obtain ⟨hdevice, rfl⟩ := hr.account user hconnected
    have hgranted : r.granted = true := by
      rw [hr.granted hdevice, hconnected]
      rfl
    refine ⟨r.device, ?_⟩
    rw [DeviceLogin.poll, hrow]
    simp [takeGranted, hr.kind, hdevice, hgranted]
  | none =>
    cases hheld : s.held with
    | nil => exact absurd (hs.gone hrow hheld) hspent
    | cons r held =>
      obtain ⟨-, -, hr, hgranted⟩ := hs.held r (by simp [hheld])
      rw [hr.granted (hr.account user hconnected).1, hconnected] at hgranted
      cases hgranted

end

end DeviceLogin

open DeviceLogin

/-! ### One approval, one token -/

/-- **In a careful run at most one poll is answered with a token, an approval that was answered as
connected is what the next poll is answered with, and no poll is refused before the sign-in was
spent.** -/
theorem one_approval_one_token {pkceOK : GoString → GoString → Bool} {g : CliGrant}
    {s : DeviceLogin} (hg : g.Minted)
    (h : Relation.ReflTransGen (CarefulNext pkceOK) (start g) s) :
    OneToken s.log ∧ s.ApprovalKept ∧ NotRefused s.log := by
  have hs : Sound g s := Runs.invariant h (fun _ _ => Sound.step) (sound_start hg)
  exact ⟨hs.log.tokens, hs.approvalKept, hs.log.invalid⟩

/-- A sign-in that is polled for, on a machine named `ci`. -/
def ciLogin : CliGrant := { kind := .device, link := ascii "l", device := ascii "ci" }

/-- A poll came too early, and then the sign-in was approved. -/
def approvedLogin : DeviceLogin :=
  ⟨some (ciLogin.approve (ascii "u1")), [], [], [.connected (ascii "u1"), .pending]⟩

/-- The next poll is answered for the account that approved. -/
theorem approved_login_connects :
    OneToken approvedLogin.log ∧ approvedLogin.ApprovalKept ∧ NotRefused approvedLogin.log := by
  have hrun : Relation.ReflTransGen (CarefulNext fun _ _ => false) (start ciLogin) approvedLogin :=
    .head ⟨.take true, ⟨rfl, rfl, by simp [start, ciLogin]⟩, rfl⟩ <|
    .head ⟨.putBack ciLogin true, rfl, rfl⟩ <|
    .head ⟨.load (ascii "u1") true, trivial, rfl⟩ <|
    .single ⟨.save ciLogin (ascii "u1") true, fun _ => rfl, rfl⟩
  exact one_approval_one_token (fun _ => rfl) hrun

/-- An approval lands while a poll holds the row, and the poll writes back what it took. -/
theorem approval_overwritten :
    ¬ ∀ (pkceOK : GoString → GoString → Bool) (g : CliGrant) (s : DeviceLogin), g.Minted →
      Relation.ReflTransGen (Next pkceOK) (start g) s →
      OneToken s.log ∧ s.ApprovalKept ∧ NotRefused s.log := by
  intro h
  have hrun : Relation.ReflTransGen (Next fun _ _ => false) (start ciLogin)
      ⟨some ciLogin, [], [], [.pending, .connected (ascii "u1")]⟩ :=
    .head ⟨.load (ascii "u1") true, rfl⟩ <|
    .head ⟨.take true, rfl⟩ <|
    .head ⟨.save ciLogin (ascii "u1") true, rfl⟩ <|
    .single ⟨.putBack ciLogin true, rfl⟩
  obtain ⟨-, hkept, -⟩ := h _ _ _ (fun _ => rfl) hrun
  obtain ⟨device, hlog⟩ := hkept (ascii "u1") rfl (by simp [Spent, LoginAnswer.spends])
  cases hlog

end Beardrive
