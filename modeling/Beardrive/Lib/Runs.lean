import Mathlib.Logic.Relation

/-!
# Runs

A system takes steps from state to state. What one step preserves, a run preserves; and what one
step relates, in a reflexive and transitive relation, a run relates. Nothing here refers to any
particular system.

## Main results

* `invariant` — what every step preserves holds after every run
* `kept` — what every step keeps is kept by every run
* `of_events` — events that are possible one after another are a run
* `possible` — a step that is possible leads somewhere
-/

namespace Beardrive

namespace Runs

variable {σ : Type*} {Step : σ → σ → Prop} {Inv : σ → Prop} {Kept : σ → σ → Prop} {s s' : σ}

/-- What every step preserves holds after every run. -/
theorem invariant (h : Relation.ReflTransGen Step s s')
    (step : ∀ s s', Inv s → Step s s' → Inv s') (hs : Inv s) : Inv s' := by
  induction h with
  | refl => exact hs
  | tail _ hstep ih => exact step _ _ ih hstep

/-- What every step keeps is kept by every run. -/
theorem kept (h : Relation.ReflTransGen Step s s') (refl : ∀ s, Kept s s)
    (trans : ∀ s t u, Kept s t → Kept t u → Kept s u)
    (inv : ∀ s s', Inv s → Step s s' → Inv s') (step : ∀ s s', Inv s → Step s s' → Kept s s')
    (hs : Inv s) : Kept s s' := by
  induction h with
  | refl => exact refl s
  | tail hrun hstep ih => exact trans _ _ _ ih (step _ _ (invariant hrun inv hs) hstep)

/-- Events that are possible one after another are a run. -/
theorem of_events {ε : Type*} {step : σ → ε → Option σ} {evs : List ε}
    (hstep : ∀ s ev s', step s ev = some s' → Step s s') (h : evs.foldlM step s = some s') :
    Relation.ReflTransGen Step s s' := by
  induction evs generalizing s with
  | nil =>
    cases h
    exact .refl
  | cons ev evs ih =>
    rw [List.foldlM_cons, Option.bind_eq_bind, Option.bind_eq_some_iff] at h
    obtain ⟨s₁, hfirst, hrest⟩ := h
    exact .head (hstep s ev s₁ hfirst) (ih hrest)

/-- A step that is possible leads somewhere. -/
theorem possible {o : Option σ} (h : o.isSome = true) : o = some (o.get h) :=
  (Option.some_get h).symm

end Runs

end Beardrive
