import Beardrive.Lib.Runs
import Mathlib.Data.Nat.Notation
import Mathlib.Logic.Function.Basic
import Mathlib.Tactic.SplitIfs

/-!
# Shared reads

Callers want the result of a read, and as many as ask at once share one. A caller never takes the
answer of a read that was in flight when it asked: the first caller runs a read of its own, and
those who ask meanwhile wait for the next one, which is started by whoever finishes the current
one. Nothing here refers to any particular system.

## Time

The clock counts the moments at which a caller asks and a read begins. The value of a read is found
at some moment between its begin and its end.

## Main definitions

* `SharedRead` — the read in flight, the next one, the callers that wait and the results
* `SharedRead.step` — asking, the steps of a read, the hand-off and leaving
* `SharedRead.outstanding` — the reads that are not done
* `SharedRead.toGo` — the steps of reads that a caller still waits for

## Main results

* `Sound.step` — what every step keeps
* `Sound.outstanding_le` — at most two reads are outstanding
* `Sound.received_after` — what a caller receives is of a read that began after it asked
* `Sound.leaves` — a caller may leave when its read and the one before it are done
-/

namespace Beardrive

/-- How far the read in flight has come: it is about to begin, it reads, its value is found, or it
is done and the next one is not started yet. -/
inductive ReadPhase (V : Type*) where
  | spawned
  | reading
  | sampled (v : V)
  | closing
  deriving DecidableEq

/-- The steps that are left of a read. -/
def ReadPhase.left {V : Type*} : ReadPhase V → ℕ
  | .spawned => 4
  | .reading => 3
  | .sampled _ => 2
  | .closing => 1

/-- A caller that waits: for which read, whether it runs it itself, and when it asked. -/
structure Waiter where
  read : ℕ
  own : Bool
  asked : ℕ
  deriving DecidableEq

/-- The reads that callers share. A read that is run keeps the others waiting until it hands off.
`received` says when the callers that left had asked, and when the reads they waited for began. -/
structure SharedRead (κ V : Type*) where
  now : ℕ := 0
  made : ℕ := 0
  runner : Option (ℕ × ReadPhase V) := none
  next : Option ℕ := none
  started : ℕ → Option ℕ := fun _ => none
  result : ℕ → Option V := fun _ => none
  waiting : κ → Option Waiter := fun _ => none
  received : List (ℕ × Option ℕ) := []

/-- What can happen next. -/
inductive SharedReadEvent (κ V : Type*) where
  | enter (k : κ)
  | begin_
  | sample (v : V)
  | finish
  | handOff
  | leave (k : κ)

namespace SharedRead

variable {κ V : Type*} [DecidableEq κ]

/-- A caller waits for a read. -/
def wait (s : SharedRead κ V) (k : κ) (r : ℕ) (own : Bool) : SharedRead κ V :=
  { s with now := s.now + 1, waiting := Function.update s.waiting k (some ⟨r, own, s.now⟩) }

/-- A caller asks. -/
def enter (s : SharedRead κ V) (k : κ) : SharedRead κ V :=
  match s.runner, s.next with
  | none, _ => { s.wait k s.made true with runner := some (s.made, .spawned), made := s.made + 1 }
  | some _, some r => s.wait k r false
  | some _, none => { s.wait k s.made false with next := some s.made, made := s.made + 1 }

/-- A read is done and has not started the next one. -/
def handing (s : SharedRead κ V) (r : ℕ) : Bool :=
  match s.runner with
  | some (r', .closing) => r' = r
  | _ => false

/-- The result a caller may leave with: its read is done, and handed off if it ran it. -/
def answer (s : SharedRead κ V) (k : κ) : Option V :=
  match s.waiting k with
  | none => none
  | some w => if w.own && s.handing w.read then none else s.result w.read

/-- One step. -/
def step (s : SharedRead κ V) : SharedReadEvent κ V → Option (SharedRead κ V)
  | .enter k => if s.waiting k = none then some (s.enter k) else none
  | .begin_ =>
    match s.runner with
    | some (r, .spawned) =>
      some { s with
        now := s.now + 1
        runner := some (r, .reading)
        started := Function.update s.started r (some s.now) }
    | _ => none
  | .sample v =>
    match s.runner with
    | some (r, .reading) => some { s with runner := some (r, .sampled v) }
    | _ => none
  | .finish =>
    match s.runner with
    | some (r, .sampled v) =>
      some { s with
        runner := some (r, .closing)
        result := Function.update s.result r (some v) }
    | _ => none
  | .handOff =>
    match s.runner with
    | some (_, .closing) => some { s with runner := s.next.map (·, .spawned), next := none }
    | _ => none
  | .leave k =>
    match s.waiting k, s.answer k with
    | some w, some _ =>
      some { s with
        waiting := Function.update s.waiting k none
        received := (w.asked, s.started w.read) :: s.received }
    | _, _ => none

/-- The reads that are not done. -/
def outstanding (s : SharedRead κ V) : List ℕ :=
  (match s.runner with
    | some (_, .closing) => []
    | some (r, _) => [r]
    | none => []) ++ s.next.toList

/-- The state may become the next one. -/
def Next (s s' : SharedRead κ V) : Prop := ∃ ev, step s ev = some s'

/-- A step of the read in flight, or its hand-off. -/
def ReadStep (s s' : SharedRead κ V) : Prop :=
  ∃ ev, (∀ k, ev ≠ .enter k ∧ ev ≠ .leave k) ∧ step s ev = some s'

/-! ### What every step keeps -/

/-- What is known between steps. -/
structure Sound (s : SharedRead κ V) : Prop where
  idle : s.runner = none → s.next = none
  current : ∀ r p, s.runner = some (r, p) → r < s.made ∧ s.next ≠ some r ∧
    (p = .spawned → s.started r = none) ∧ (p ≠ .spawned → (s.started r).isSome) ∧
    (p = .closing → (s.result r).isSome)
  coming : ∀ r, s.next = some r → r < s.made ∧ s.started r = none ∧ s.result r = none
  unmade : ∀ r, s.made ≤ r → s.started r = none ∧ s.result r = none
  done : ∀ r, (s.result r).isSome → (s.started r).isSome
  waiting : ∀ k w, s.waiting k = some w → w.asked < s.now ∧ w.read < s.made ∧
    (∀ t, s.started w.read = some t → w.asked < t) ∧
    ((s.result w.read).isSome ∨ (∃ p, s.runner = some (w.read, p)) ∨ s.next = some w.read)
  received : ∀ p ∈ s.received, ∃ t, p.2 = some t ∧ p.1 < t

omit [DecidableEq κ] in
theorem sound_start : Sound ({} : SharedRead κ V) := by
  constructor <;> simp

theorem waiting_of_update {s : SharedRead κ V} {k j : κ} {w w' : Waiter}
    (h : Function.update s.waiting k (some w) j = some w') :
    w' = w ∨ s.waiting j = some w' := by
  by_cases hj : j = k
  · rw [hj, Function.update_self] at h
    exact .inl (Option.some.inj h).symm
  · rw [Function.update_of_ne hj] at h
    exact .inr h

/-- A caller that asks waits for a read that has not begun. -/
theorem enter_eq (s : SharedRead κ V) (k : κ) (hs : s.Sound) :
    ∃ r own, (s.enter k).waiting = Function.update s.waiting k (some ⟨r, own, s.now⟩) ∧
      s.started r = none ∧ s.result r = none := by
  cases hrunner : s.runner with
  | none =>
    refine ⟨s.made, true, ?_, hs.unmade s.made (Nat.le_refl _)⟩
    rw [enter, hrunner]
    rfl
  | some rp =>
    cases hnext : s.next with
    | none =>
      refine ⟨s.made, false, ?_, hs.unmade s.made (Nat.le_refl _)⟩
      rw [enter, hrunner, hnext]
      rfl
    | some r =>
      refine ⟨r, false, ?_, (hs.coming r hnext).2⟩
      rw [enter, hrunner, hnext]
      rfl

theorem Sound.enter {s : SharedRead κ V} (hs : s.Sound) (k : κ) : (s.enter k).Sound := by
  cases hrunner : s.runner with
  | none =>
    have hnext := hs.idle hrunner
    rw [SharedRead.enter, hrunner]
    refine ⟨by simp, ?_, ?_, ?_, hs.done, ?_, hs.received⟩
    · rintro r p ⟨⟩
      refine ⟨Nat.lt_succ_self _, ?_, fun _ => (hs.unmade _ (Nat.le_refl _)).1, by simp, by simp⟩
      change s.next ≠ _
      rw [hnext]
      simp
    · intro r hr
      change s.next = some r at hr
      rw [hnext] at hr
      cases hr
    · exact fun r hr => hs.unmade r (Nat.le_of_succ_le hr)
    · intro j w hw
      rcases waiting_of_update hw with rfl | hw
      · refine ⟨Nat.lt_succ_self _, Nat.lt_succ_self _, fun t ht => ?_, .inr (.inl ⟨_, rfl⟩)⟩
        change s.started s.made = some t at ht
        rw [(hs.unmade _ (Nat.le_refl _)).1] at ht
        cases ht
      · obtain ⟨hasked, hread, hstarted, hfate⟩ := hs.waiting j w hw
        refine ⟨Nat.lt_succ_of_lt hasked, Nat.lt_succ_of_lt hread, hstarted, ?_⟩
        rcases hfate with hfate | ⟨p, hp⟩ | hfate
        · exact .inl hfate
        · rw [hrunner] at hp
          cases hp
        · exact .inr (.inr hfate)
  | some rp =>
    cases hnext : s.next with
    | some r =>
      rw [SharedRead.enter, hrunner, hnext]
      refine ⟨hs.idle, hs.current, hs.coming, hs.unmade, hs.done, ?_, hs.received⟩
      intro j w hw
      rcases waiting_of_update hw with rfl | hw
      · obtain ⟨hmade, hstarted, -⟩ := hs.coming r hnext
        refine ⟨Nat.lt_succ_self _, hmade, fun t ht => ?_, .inr (.inr hnext)⟩
        change s.started r = some t at ht
        rw [hstarted] at ht
        cases ht
      · obtain ⟨hasked, hrest⟩ := hs.waiting j w hw
        exact ⟨Nat.lt_succ_of_lt hasked, hrest⟩
    | none =>
      rw [SharedRead.enter, hrunner, hnext]
      refine ⟨fun h => ?_, ?_, ?_, ?_, hs.done, ?_, hs.received⟩
      · change s.runner = none at h
        rw [hrunner] at h
        cases h
      · intro r p hr
        obtain ⟨hmade, -, hrest⟩ := hs.current r p hr
        refine ⟨Nat.lt_succ_of_lt hmade, fun h => ?_, hrest⟩
        cases h
        exact Nat.lt_irrefl _ hmade
      · rintro r ⟨⟩
        exact ⟨Nat.lt_succ_self _, hs.unmade _ (Nat.le_refl _)⟩
      · exact fun r hr => hs.unmade r (Nat.le_of_succ_le hr)
      · intro j w hw
        rcases waiting_of_update hw with rfl | hw
        · refine ⟨Nat.lt_succ_self _, Nat.lt_succ_self _, fun t ht => ?_, .inr (.inr rfl)⟩
          change s.started s.made = some t at ht
          rw [(hs.unmade _ (Nat.le_refl _)).1] at ht
          cases ht
        · obtain ⟨hasked, hread, hstarted, hfate⟩ := hs.waiting j w hw
          refine ⟨Nat.lt_succ_of_lt hasked, Nat.lt_succ_of_lt hread, hstarted, ?_⟩
          rcases hfate with hfate | hfate | hfate
          · exact .inl hfate
          · exact .inr (.inl hfate)
          · rw [hnext] at hfate
            cases hfate

/-- **What every step keeps.** -/
theorem Sound.step {s s' : SharedRead κ V} (hs : s.Sound) (h : Next s s') : s'.Sound := by
  obtain ⟨ev, hstep⟩ := h
  cases ev with
  | enter k =>
    rw [SharedRead.step, Option.ite_none_right_eq_some] at hstep
    obtain ⟨-, heq⟩ := hstep
    cases heq
    exact hs.enter k
  | begin_ =>
    rw [SharedRead.step] at hstep
    split at hstep
    · rename_i r hrunner
      cases hstep
      obtain ⟨hmade, hnext, hnew, -, -⟩ := hs.current r .spawned hrunner
      have hother : ∀ {r'}, r' ≠ r → Function.update s.started r (some s.now) r' = s.started r' :=
        fun h => Function.update_of_ne h _ _
      refine ⟨by simp, ?_, ?_, ?_, ?_, ?_, hs.received⟩
      · rintro r' p ⟨⟩
        exact ⟨hmade, hnext, by simp, fun _ => by simp, by simp⟩
      · intro r' hr'
        obtain ⟨hmade', hstarted, hresult⟩ := hs.coming r' hr'
        have hne : r' ≠ r := fun heq => hnext (heq ▸ hr')
        exact ⟨hmade', (hother hne).trans hstarted, hresult⟩
      · intro r' hr'
        obtain ⟨hstarted, hresult⟩ := hs.unmade r' hr'
        exact ⟨(hother (Nat.ne_of_gt (Nat.lt_of_lt_of_le hmade hr'))).trans hstarted, hresult⟩
      · intro r' hr'
        by_cases hne : r' = r
        · subst hne
          simp
        · change (Function.update s.started r (some s.now) r').isSome
          rw [hother hne]
          exact hs.done r' hr'
      · intro k w hw
        obtain ⟨hasked, hread, hstarted, hfate⟩ := hs.waiting k w hw
        refine ⟨Nat.lt_succ_of_lt hasked, hread, fun t ht => ?_, ?_⟩
        · change Function.update s.started r (some s.now) w.read = some t at ht
          by_cases hne : w.read = r
          · rw [hne, Function.update_self] at ht
            cases ht
            exact hasked
          · rw [hother hne] at ht
            exact hstarted t ht
        · rcases hfate with hfate | ⟨p, hp⟩ | hfate
          · exact .inl hfate
          · rw [hrunner] at hp
            cases hp
            exact .inr (.inl ⟨_, rfl⟩)
          · exact .inr (.inr hfate)
    · cases hstep
  | sample v =>
    rw [SharedRead.step] at hstep
    split at hstep
    · rename_i r hrunner
      cases hstep
      obtain ⟨hmade, hnext, -, hbegun, -⟩ := hs.current r .reading hrunner
      refine ⟨by simp, ?_, hs.coming, hs.unmade, hs.done, ?_, hs.received⟩
      · rintro r' p ⟨⟩
        exact ⟨hmade, hnext, by simp, fun _ => hbegun (by simp), by simp⟩
      · intro k w hw
        obtain ⟨hasked, hread, hstarted, hfate⟩ := hs.waiting k w hw
        refine ⟨hasked, hread, hstarted, ?_⟩
        rcases hfate with hfate | ⟨p, hp⟩ | hfate
        · exact .inl hfate
        · rw [hrunner] at hp
          cases hp
          exact .inr (.inl ⟨_, rfl⟩)
        · exact .inr (.inr hfate)
    · cases hstep
  | finish =>
    rw [SharedRead.step] at hstep
    split at hstep
    · rename_i r v hrunner
      cases hstep
      obtain ⟨hmade, hnext, -, hbegun, -⟩ := hs.current r (.sampled v) hrunner
      have hother : ∀ {r'}, r' ≠ r → Function.update s.result r (some v) r' = s.result r' :=
        fun h => Function.update_of_ne h _ _
      have hmono : ∀ r', (s.result r').isSome → (Function.update s.result r (some v) r').isSome := by
        intro r' hr'
        by_cases hne : r' = r
        · rw [hne, Function.update_self]
          rfl
        · rwa [hother hne]
      refine ⟨by simp, ?_, ?_, ?_, ?_, ?_, hs.received⟩
      · rintro r' p ⟨⟩
        exact ⟨hmade, hnext, by simp, fun _ => hbegun (by simp), fun _ => by simp⟩
      · intro r' hr'
        obtain ⟨hmade', hstarted, hresult⟩ := hs.coming r' hr'
        have hne : r' ≠ r := fun heq => hnext (heq ▸ hr')
        exact ⟨hmade', hstarted, (hother hne).trans hresult⟩
      · intro r' hr'
        obtain ⟨hstarted, hresult⟩ := hs.unmade r' hr'
        exact ⟨hstarted, (hother (Nat.ne_of_gt (Nat.lt_of_lt_of_le hmade hr'))).trans hresult⟩
      · intro r' hr'
        by_cases hne : r' = r
        · exact hne ▸ hbegun (by simp)
        · change (Function.update s.result r (some v) r').isSome at hr'
          rw [hother hne] at hr'
          exact hs.done r' hr'
      · intro k w hw
        obtain ⟨hasked, hread, hstarted, hfate⟩ := hs.waiting k w hw
        refine ⟨hasked, hread, hstarted, ?_⟩
        rcases hfate with hfate | ⟨p, hp⟩ | hfate
        · exact .inl (hmono _ hfate)
        · rw [hrunner] at hp
          cases hp
          exact .inr (.inl ⟨_, rfl⟩)
        · exact .inr (.inr hfate)
    · cases hstep
  | handOff =>
    rw [SharedRead.step] at hstep
    split at hstep
    · rename_i r hrunner
      cases hstep
      obtain ⟨-, -, -, -, hdone⟩ := hs.current r .closing hrunner
      refine ⟨by simp, ?_, by simp, hs.unmade, hs.done, ?_, hs.received⟩
      · intro r' p hr'
        obtain ⟨next, hnext, heq⟩ := Option.map_eq_some_iff.mp hr'
        obtain ⟨rfl, rfl⟩ := Prod.mk.inj heq
        obtain ⟨hmade', hstarted, -⟩ := hs.coming next hnext
        exact ⟨hmade', by simp, fun _ => hstarted, by simp, by simp⟩
      · intro k w hw
        obtain ⟨hasked, hread, hstarted, hfate⟩ := hs.waiting k w hw
        refine ⟨hasked, hread, hstarted, ?_⟩
        rcases hfate with hfate | ⟨p, hp⟩ | hfate
        · exact .inl hfate
        · rw [hrunner] at hp
          cases hp
          exact .inl (hdone rfl)
        · refine .inr (.inl ⟨.spawned, ?_⟩)
          change s.next.map _ = _
          rw [hfate]
          rfl
    · cases hstep
  | leave k =>
    rw [SharedRead.step] at hstep
    split at hstep
    · rename_i w v hw hanswer
      cases hstep
      refine ⟨hs.idle, hs.current, hs.coming, hs.unmade, hs.done, fun j w' hw' => ?_, ?_⟩
      · change Function.update s.waiting k none j = some w' at hw'
        by_cases hj : j = k
        · rw [hj, Function.update_self] at hw'
          cases hw'
        · rw [Function.update_of_ne hj] at hw'
          exact hs.waiting j w' hw'
      · intro p hp
        rcases List.mem_cons.mp hp with rfl | hp
        · have hresult : (s.result w.read).isSome := by
            rw [answer, hw] at hanswer
            simp only at hanswer
            split_ifs at hanswer
            exact Option.isSome_iff_exists.mpr ⟨v, hanswer⟩
          obtain ⟨t, ht⟩ := Option.isSome_iff_exists.mp (hs.done _ hresult)
          exact ⟨t, ht, (hs.waiting k w hw).2.2.1 t ht⟩
        · exact hs.received p hp
    · cases hstep

omit [DecidableEq κ] in
/-- **At most two reads are outstanding.** -/
theorem outstanding_le (s : SharedRead κ V) : s.outstanding.length ≤ 2 := by
  have hnext : s.next.toList.length ≤ 1 := by cases s.next <;> simp
  rw [outstanding, List.length_append]
  split <;> simp only [List.length_nil, List.length_singleton] <;> omega

omit [DecidableEq κ] in
/-- **Who waits, waits for a read that is done or outstanding.** -/
theorem Sound.waits {s : SharedRead κ V} (hs : s.Sound) {k : κ} {w : Waiter}
    (h : s.waiting k = some w) : (s.result w.read).isSome ∨ w.read ∈ s.outstanding := by
  rcases (hs.waiting k w h).2.2.2 with hdone | ⟨p, hp⟩ | hnext
  · exact .inl hdone
  · cases p with
    | closing => exact .inl ((hs.current _ _ hp).2.2.2.2 rfl)
    | spawned => exact .inr (by simp [outstanding, hp])
    | reading => exact .inr (by simp [outstanding, hp])
    | sampled v => exact .inr (by simp [outstanding, hp])
  · exact .inr (by simp [outstanding, hnext])

/-! ### Values -/

/-- The value of a read is found. -/
def HasValue (s : SharedRead κ V) (r : ℕ) (v : V) : Prop :=
  s.result r = some v ∨ s.runner = some (r, .sampled v)

/-- A value is found by the step that samples it. -/
theorem hasValue_step {s s' : SharedRead κ V} {ev : SharedReadEvent κ V} {r : ℕ} {v : V}
    (h : step s ev = some s') (hv : s'.HasValue r v) : s.HasValue r v ∨ ev = .sample v := by
  cases ev with
  | enter k =>
    rw [step, Option.ite_none_right_eq_some] at h
    obtain ⟨-, heq⟩ := h
    cases heq
    refine .inl ?_
    cases hrunner : s.runner with
    | none =>
      rw [enter, hrunner] at hv
      rcases hv with hv | hv
      · exact .inl hv
      · cases hv
    | some rp =>
      cases hnext : s.next with
      | none =>
        rw [enter, hrunner, hnext] at hv
        exact hv
      | some r =>
        rw [enter, hrunner, hnext] at hv
        exact hv
  | begin_ =>
    rw [step] at h
    split at h <;> cases h
    rcases hv with hv | hv
    · exact .inl (.inl hv)
    · cases hv
  | sample v' =>
    rw [step] at h
    split at h <;> cases h
    rcases hv with hv | hv
    · exact .inl (.inl hv)
    · cases hv
      exact .inr rfl
  | finish =>
    rw [step] at h
    split at h
    · rename_i r' v' hrunner
      cases h
      rcases hv with hv | hv
      · change Function.update s.result r' (some v') r = some v at hv
        by_cases hr : r = r'
        · rw [hr, Function.update_self] at hv
          cases hv
          exact .inl (.inr (hr ▸ hrunner))
        · rw [Function.update_of_ne hr] at hv
          exact .inl (.inl hv)
      · cases hv
    · cases h
  | handOff =>
    rw [step] at h
    split at h <;> cases h
    rcases hv with hv | hv
    · exact .inl (.inl hv)
    · obtain ⟨r', -, hpair⟩ := Option.map_eq_some_iff.mp hv
      cases (Prod.mk.inj hpair).2
  | leave k =>
    rw [step] at h
    split at h <;> cases h
    exact .inl hv

/-- A caller waits for the read it was given until it leaves. -/
theorem waiting_of_step {s s' : SharedRead κ V} {ev : SharedReadEvent κ V} {j : κ}
    (h : step s ev = some s') (henter : ev ≠ .enter j) (hleave : ev ≠ .leave j) :
    s'.waiting j = s.waiting j := by
  cases ev with
  | enter k =>
    have hj : j ≠ k := fun heq => henter (heq ▸ rfl)
    rw [step, Option.ite_none_right_eq_some] at h
    cases h.2
    cases hrunner : s.runner with
    | none =>
      rw [enter, hrunner]
      exact Function.update_of_ne hj ..
    | some rp =>
      cases hnext : s.next <;> rw [enter, hrunner, hnext] <;> exact Function.update_of_ne hj ..
  | leave k =>
    have hj : j ≠ k := fun heq => hleave (heq ▸ rfl)
    rw [step] at h
    split at h <;> cases h
    exact Function.update_of_ne hj ..
  | begin_ | sample v | finish | handOff =>
    rw [step] at h
    split at h <;> cases h
    rfl

/-- Who asks waits for a read the value of which is not found. -/
theorem Sound.waits_of_enter {s s' : SharedRead κ V} (hs : s.Sound) {k : κ}
    (h : SharedRead.step s (.enter k) = some s') :
    ∃ w, s'.waiting k = some w ∧ ∀ v, ¬ s'.HasValue w.read v := by
  have hstep := h
  rw [SharedRead.step, Option.ite_none_right_eq_some] at h
  cases h.2
  obtain ⟨r, own, hwaiting, hstarted, hresult⟩ := enter_eq s k hs
  refine ⟨⟨r, own, s.now⟩, by rw [hwaiting, Function.update_self], fun v hv => ?_⟩
  rcases (hasValue_step hstep hv).resolve_right (by simp) with hv | hv
  · rw [hresult] at hv
    cases hv
  · have hbegun := (hs.current r _ hv).2.2.2.1 (by simp)
    rw [hstarted] at hbegun
    cases hbegun

omit [DecidableEq κ] in
theorem hasValue_of_answer {s : SharedRead κ V} {k : κ} {w : Waiter} {v : V}
    (hw : s.waiting k = some w) (h : s.answer k = some v) : s.HasValue w.read v := by
  rw [answer, hw] at h
  simp only at h
  split_ifs at h
  exact .inl h

/-! ### Reads end -/

/-- The steps that are left until a read is done and handed off: its own, and before them those of
the read in flight. -/
def toGo (s : SharedRead κ V) (r : ℕ) : ℕ :=
  match s.runner with
  | none => 0
  | some (r', p) => if r' = r then p.left else if s.next = some r then p.left + 4 else 0

/-- The steps of reads that an event counts for. -/
def readSteps : SharedReadEvent κ V → ℕ
  | .enter _ | .leave _ => 0
  | _ => 1

/-- Steps with a number of steps of reads among them, in which one caller does not leave. -/
inductive Going (k : κ) : ℕ → SharedRead κ V → SharedRead κ V → Prop
  | refl (s : SharedRead κ V) : Going k 0 s s
  | tail {n : ℕ} {s s₁ s₂ : SharedRead κ V} (ev : SharedReadEvent κ V) (run : Going k n s s₁)
      (hev : ev ≠ .leave k) (hstep : step s₁ ev = some s₂) : Going k (n + readSteps ev) s s₂

omit [DecidableEq κ] in
theorem left_pos (p : ReadPhase V) : 0 < p.left ∧ p.left ≤ 4 := by
  cases p <;> simp [ReadPhase.left]

omit [DecidableEq κ] in
/-- A caller waits for two reads at most. -/
theorem toGo_le (s : SharedRead κ V) (r : ℕ) : s.toGo r ≤ 8 := by
  rw [toGo]
  split
  · exact Nat.zero_le _
  · rename_i p _
    have hleft := (left_pos p).2
    split_ifs <;> omega

/-- Every step of a read brings its callers nearer, and no other step takes them back. -/
theorem Sound.toGo_step {s s' : SharedRead κ V} (hs : s.Sound) {ev : SharedReadEvent κ V} {r : ℕ}
    (hr : r < s.made) (h : SharedRead.step s ev = some s') :
    s'.toGo r = s.toGo r - readSteps ev := by
  cases ev with
  | enter k =>
    rw [SharedRead.step, Option.ite_none_right_eq_some] at h
    cases h.2
    change _ = s.toGo r
    cases hrunner : s.runner with
    | none =>
      have hmade : s.made ≠ r := Nat.ne_of_gt hr
      simp [SharedRead.enter, wait, toGo, hrunner, hmade, hs.idle hrunner]
    | some rp =>
      obtain ⟨r', p⟩ := rp
      cases hnext : s.next with
      | none =>
        have hmade : s.made ≠ r := Nat.ne_of_gt hr
        simp [SharedRead.enter, wait, toGo, hrunner, hnext, hmade]
      | some later => simp [SharedRead.enter, wait, toGo, hrunner, hnext]
  | begin_ | sample v | finish =>
    rw [SharedRead.step] at h
    split at h
    · rename_i r' hrunner
      cases h
      simp only [toGo, hrunner, readSteps, ReadPhase.left]
      split_ifs <;> rfl
    · cases h
  | handOff =>
    rw [SharedRead.step] at h
    split at h
    · rename_i r' hrunner
      cases h
      have hne := (hs.current r' .closing hrunner).2.1
      simp only [toGo, hrunner, readSteps, ReadPhase.left]
      cases hnext : s.next with
      | none => by_cases hr' : r' = r <;> simp [hr']
      | some later =>
        rw [hnext] at hne
        have hother : r' ≠ later := fun heq => hne (heq ▸ rfl)
        by_cases hr' : r' = r
        · subst hr'
          simp [Ne.symm hother]
        · by_cases hlater : later = r <;> simp [hlater, hr']
    · cases h
  | leave k =>
    rw [SharedRead.step] at h
    split at h <;> cases h
    rfl

omit [DecidableEq κ] in
/-- Who waits for a read that is done and handed off may leave. -/
theorem Sound.answer_of_toGo {s : SharedRead κ V} (hs : s.Sound) {k : κ} {w : Waiter}
    (hw : s.waiting k = some w) (hgo : s.toGo w.read = 0) : (s.answer k).isSome := by
  have hrunner : ∀ p, s.runner ≠ some (w.read, p) := by
    intro p hp
    have hleft := (left_pos p).1
    simp only [toGo, hp, ↓reduceIte] at hgo
    omega
  have hhanding : s.handing w.read = false := by
    rw [handing]
    split
    · rename_i r h
      have hne : r ≠ w.read := fun heq => hrunner _ (heq ▸ h)
      simpa using hne
    · rfl
  have hresult : (s.result w.read).isSome := by
    rcases (hs.waiting k w hw).2.2.2 with hdone | ⟨p, hp⟩ | hnext
    · exact hdone
    · exact absurd hp (hrunner p)
    · cases hcurrent : s.runner with
      | none =>
        rw [hs.idle hcurrent] at hnext
        cases hnext
      | some rp =>
        have hleft := (left_pos rp.2).1
        simp only [toGo, hcurrent, hnext, ↓reduceIte] at hgo
        split_ifs at hgo <;> omega
  rw [answer, hw]
  simpa [hhanding] using hresult

/-- **Nobody waits for nothing**: a caller may leave, or there is a read in flight that goes on. -/
theorem Sound.answer_or_readStep {s : SharedRead κ V} (hs : s.Sound) {k : κ} {w : Waiter}
    (hw : s.waiting k = some w) (v : V) : (s.answer k).isSome ∨ ∃ s', ReadStep s s' := by
  cases hrunner : s.runner with
  | none => exact .inl (hs.answer_of_toGo hw (by rw [toGo, hrunner]))
  | some rp =>
    obtain ⟨r, p⟩ := rp
    refine .inr ?_
    cases p with
    | spawned => exact ⟨_, .begin_, by simp, by rw [SharedRead.step, hrunner]⟩
    | reading => exact ⟨_, .sample v, by simp, by rw [SharedRead.step, hrunner]⟩
    | sampled v' => exact ⟨_, .finish, by simp, by rw [SharedRead.step, hrunner]⟩
    | closing => exact ⟨_, .handOff, by simp, by rw [SharedRead.step, hrunner]⟩

theorem Sound.going {s s' : SharedRead κ V} (hs : s.Sound) {k : κ} {w : Waiter} {n : ℕ}
    (hw : s.waiting k = some w) (h : Going k n s s') :
    s'.Sound ∧ s'.waiting k = some w ∧ s'.toGo w.read = s.toGo w.read - n := by
  induction h with
  | refl => exact ⟨hs, hw, rfl⟩
  | @tail n s s₁ s₂ ev run hev hstep ih =>
    obtain ⟨hs₁, hw₁, hgo₁⟩ := ih hs hw
    have henter : ev ≠ .enter k := by
      rintro rfl
      rw [SharedRead.step, hw₁] at hstep
      cases hstep
    refine ⟨hs₁.step ⟨ev, hstep⟩, (waiting_of_step hstep henter hev).trans hw₁, ?_⟩
    rw [hs₁.toGo_step (hs₁.waiting k w hw₁).2.1 hstep, hgo₁, Nat.sub_sub]

/-- **A caller waits for its read alone**: whatever they return and whatever happens meanwhile, it
may leave when the reads before it and its own have taken their steps. -/
theorem Sound.leaves {s s' : SharedRead κ V} (hs : s.Sound) {k : κ} {w : Waiter} {n : ℕ}
    (hw : s.waiting k = some w) (h : Going k n s s') (hn : s.toGo w.read ≤ n) :
    (s'.answer k).isSome := by
  obtain ⟨hs', hw', hgo⟩ := hs.going hw h
  exact hs'.answer_of_toGo hw' (hgo.trans (Nat.sub_eq_zero_of_le hn))

end SharedRead

end Beardrive
