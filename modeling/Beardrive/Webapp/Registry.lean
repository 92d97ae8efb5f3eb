import Beardrive.Lib.Runs
import Beardrive.Webapp.OrgDB
import Beardrive.Webapp.ProjectDB

/-!
# The registries and their store

Every answer of the hub about orgs and projects comes out of memory. What is in memory should be
what the store would return, after every call and whatever the store refuses: otherwise a deletion
or a demotion un-happens when the hub is started again.

That holds except for a project the store refuses to delete, which is gone from memory alone. A
call that fails changes nothing, except where an earlier write of the same call was taken: an
eviction that cannot promote the heir, and an account that is dropped from some of the rules that
name it.

## Main definitions

* `Registry`, `Registry.call` — both registries, and a call of either
* `Registry.Careful` — a project is deleted from the store too, and a call is not broken off

## Main results

* `memory_is_store` — after careful calls, memory is what the store would return, and a call that
  fails changes no answer
-/

namespace Beardrive

/-- The registries of projects and of orgs. -/
structure Registry where
  projects : ProjectDB := {}
  orgs : OrgDB := {}

/-- A call, and what it meets. -/
inductive RegistryCall where
  | project (env : ProjectEnv) (call : ProjectCall)
  | change (env : OrgEnv) (name : GoString) (call : OrgCall)
  | rename (env : OrgEnv) (id name : GoString)

/-- Memory is what the store would return, up to the order of the grants of apps. -/
structure Registry.InStep (s : Registry) : Prop where
  projects : ∀ id, Option.Rel ProjectRecord.Same (s.projects.memory.lookup id)
    (s.projects.store.lookup id)
  orgs : s.orgs.memory.orgs = s.orgs.store.orgs

/-- Two registries give the same answers, up to the order of the grants of apps. -/
structure Registry.SameAnswers (s s' : Registry) : Prop where
  projects : ∀ id, Option.Rel ProjectRecord.Same (s.projects.memory.lookup id)
    (s'.projects.memory.lookup id)
  orgs : s'.orgs.memory.orgs = s.orgs.memory.orgs

section

variable (normEmail trimName projectLabel : GoString → GoString)
  (trimText : GoString → ℕ → GoString)

/-- The answer of a call says whether the store has taken every write. -/
def Registry.call (s : Registry) : RegistryCall → Bool × Registry
  | .project env call =>
    let (outcome, projects) :=
      (s.projects.refresh env.rereads).call normEmail projectLabel trimText env call
    (outcome ≠ .unwritten, { s with projects })
  | .change env name call =>
    let (ok, orgs) := (s.orgs.refresh env.rereads).change normEmail trimName env name call
    (ok, { s with orgs })
  | .rename env id name =>
    let (ok, orgs) := (s.orgs.refresh env.rereads).rename trimName env id name
    (ok, { s with orgs })

/-- The ids that are drawn at random are new. -/
def Registry.Fresh (s : Registry) : RegistryCall → Prop
  | .project env _ => (s.projects.refresh env.rereads).memory.lookup env.fresh = none
  | .change env _ _ => (s.orgs.refresh env.rereads).memory.orgs env.fresh = none
  | .rename _ _ _ => True

/-- A project that is deleted is deleted from the store. Of the rows a call writes, the store takes
all where it takes the first. -/
def Registry.Careful (s : Registry) : RegistryCall → Prop
  | .project env call =>
    (∀ id, call = .delete id → env.accepts (.delete id) = true) ∧
    ∀ id email p, call = .dropFolderGrants id email →
      (s.projects.refresh env.rereads).memory.lookup id = some p →
      ∀ first ∈ (ProjectDB.namingRules p.folders (normEmail email)).head?,
        env.accepts (.dropFolderPerm id first (normEmail email)) = true →
        ∀ pre ∈ ProjectDB.namingRules p.folders (normEmail email),
          env.accepts (.dropFolderPerm id pre (normEmail email)) = true
  | .change env _ call => ∀ w ws, (s.orgs.refresh env.rereads).plan normEmail env call = w :: ws →
      env.accepts w.put = true → ∀ w' ∈ ws, env.accepts w'.put = true
  | .rename _ _ _ => True

/-- A call of any kind. -/
def Registry.Next (s s' : Registry) : Prop :=
  ∃ c, s.Fresh c ∧ s' = (s.call normEmail trimName projectLabel trimText c).2

/-- A careful call. -/
def Registry.CarefulNext (s s' : Registry) : Prop :=
  ∃ c, s.Fresh c ∧ s.Careful normEmail c ∧
    s' = (s.call normEmail trimName projectLabel trimText c).2

end

variable {normEmail trimName projectLabel : GoString → GoString}
  {trimText : GoString → ℕ → GoString}

/-! ### One call -/

/-- What holds of both registries between calls. -/
structure Registry.Sound (s : Registry) : Prop where
  projects : s.projects.Sound
  orgs : s.orgs.InStep

omit normEmail trimName projectLabel trimText in
theorem Registry.sound_init : ({} : Registry).Sound where
  projects := ⟨fun _ => .none, fun _ _ h => (nomatch h)⟩
  orgs := rfl

/-- **A careful call keeps memory and store the same.** -/
theorem Registry.Sound.step {s s' : Registry} (h : s.Sound)
    (hstep : s.CarefulNext normEmail trimName projectLabel trimText s') : s'.Sound := by
  obtain ⟨c, hfresh, careful, rfl⟩ := hstep
  cases c with
  | project env call =>
    exact ⟨(h.projects.refresh env.rereads).call hfresh call careful.1, h.orgs⟩
  | change env name call =>
    exact ⟨h.projects, (OrgDB.performed_change name call (h.orgs.refresh env.rereads) hfresh).inStep⟩
  | rename env id name => exact ⟨h.projects, (h.orgs.refresh env.rereads).rename id name⟩

omit normEmail trimName projectLabel trimText in
/-- A registry that is read again gives the same answers. -/
theorem Registry.Sound.refresh {s : Registry} (h : s.Sound) (rereads : Bool) (id : GoString) :
    Option.Rel ProjectRecord.Same (s.projects.memory.lookup id)
      ((s.projects.refresh rereads).memory.lookup id) := by
  cases rereads
  · change Option.Rel _ (s.projects.memory.lookup id) (s.projects.memory.lookup id)
    cases s.projects.memory.lookup id with
    | none => exact .none
    | some p => exact .some (.refl p)
  · exact h.projects.inStep id

/-- **A careful call that fails changes no answer.** -/
theorem Registry.Sound.unwritten {s : Registry} (h : s.Sound) {c : RegistryCall}
    (hfresh : s.Fresh c) (careful : s.Careful normEmail c)
    (hfail : (s.call normEmail trimName projectLabel trimText c).1 = false) :
    s.SameAnswers (s.call normEmail trimName projectLabel trimText c).2 := by
  cases c with
  | project env call =>
    refine ⟨fun id => ?_, rfl⟩
    have hsame := @ProjectDB.call_unwritten env _ normEmail projectLabel trimText call
      hfresh careful.1 careful.2 (by simpa [Registry.call] using hfail)
    change Option.Rel _ _ (AList.lookup id ((s.projects.refresh env.rereads).call normEmail
      projectLabel trimText env call).2.memory)
    rw [hsame id]
    exact h.refresh env.rereads id
  | change env name call =>
    refine ⟨fun id => h.refresh false id, ?_⟩
    have hsame := @OrgDB.orgs_change_unwritten env _ normEmail trimName name call
      (h.orgs.refresh env.rereads) hfresh careful hfail
    exact hsame.trans (OrgDB.orgs_refresh h.orgs env.rereads)
  | rename env id name =>
    refine ⟨fun id => h.refresh false id, ?_⟩
    have hsame := @OrgDB.rename_unwritten env (s.orgs.refresh env.rereads) trimName id name hfail
    exact (congrArg (·.memory.orgs) hsame).trans (OrgDB.orgs_refresh h.orgs env.rereads)

/-! ### Runs -/

/-- **Memory is what the store would return**, after every careful call; and a careful call that
fails changes no answer. -/
theorem memory_is_store {s : Registry} (h : Relation.ReflTransGen
      (Registry.CarefulNext normEmail trimName projectLabel trimText) {} s) :
    s.InStep ∧ ∀ c, s.Fresh c → s.Careful normEmail c →
      (s.call normEmail trimName projectLabel trimText c).1 = false →
      s.SameAnswers (s.call normEmail trimName projectLabel trimText c).2 := by
  have hsound : s.Sound := Runs.invariant h (fun _ _ => Registry.Sound.step) Registry.sound_init
  exact ⟨⟨hsound.projects.inStep, hsound.orgs⟩, fun c hfresh careful hfail =>
    hsound.unwritten hfresh careful hfail⟩

/-- A registry after some calls, where no name is changed on the way. -/
def Registry.calls (cs : List RegistryCall) : Registry :=
  cs.foldl (fun s c => (s.call id id id (fun name _ => name) c).2) {}

/-- A project is made, and an account is given it. -/
def projectCall : RegistryCall :=
  .project { fresh := ascii "p" } (.getOrCreate (ascii "wiki") [])

def grantCall : RegistryCall :=
  .project {} (.setPermBy (ascii "p") (ascii "a") permAdmin [])

/-- Another grant, which the store refuses. -/
def refusedCall : RegistryCall :=
  .project { accepts := fun _ => false } (.setPermBy (ascii "p") (ascii "b") permNone [])

/-- A project that somebody administers is what the store has, and a grant that the store refused
has changed nothing. -/
theorem memory_is_store_granted :
    ((Registry.calls [projectCall, grantCall]).projects.memory.lookup (ascii "p")).map
      (·.perms.entries) = some [⟨ascii "a", permAdmin⟩] ∧
    (Registry.calls [projectCall, grantCall]).InStep ∧
    (Registry.calls [projectCall, grantCall]).SameAnswers
      (Registry.calls [projectCall, grantCall, refusedCall]) := by
  have hgrant : ∀ c email level giver env, c = .project env (.setPermBy (ascii "p") email level giver) →
      ∀ s : Registry, s.Careful id c := by
    rintro _ _ _ _ _ rfl s
    exact ⟨fun _ h => (nomatch h), fun _ _ _ h => (nomatch h)⟩
  have hproject : ({} : Registry).Careful id projectCall :=
    ⟨fun _ h => (nomatch h), fun _ _ _ h => (nomatch h)⟩
  have hrun : Relation.ReflTransGen (Registry.CarefulNext id id id fun name _ => name) {}
      (Registry.calls [projectCall, grantCall]) :=
    .head ⟨projectCall, rfl, hproject, rfl⟩ <|
      .single ⟨grantCall, Option.isNone_iff_eq_none.mp (by decide +kernel),
        hgrant _ _ _ _ _ rfl _, rfl⟩
  obtain ⟨hstep, hfails⟩ := memory_is_store hrun
  exact ⟨by decide +kernel, hstep, hfails refusedCall
    (Option.isNone_iff_eq_none.mp (by decide +kernel)) (hgrant _ _ _ _ _ rfl _) (by decide +kernel)⟩

/-- The project is deleted, and the store keeps it. -/
def keptCall : RegistryCall :=
  .project { accepts := fun _ => false } (.delete (ascii "p"))

/-- A project that the store did not delete is gone from memory. -/
theorem memory_is_not_store : ¬ ∀ s : Registry,
    Relation.ReflTransGen (Registry.Next id id id fun name _ => name) {} s → s.InStep := by
  intro h
  have hrun : Relation.ReflTransGen (Registry.Next id id id fun name _ => name) {}
      (Registry.calls [projectCall, keptCall]) :=
    .head ⟨projectCall, rfl, rfl⟩ <|
      .single ⟨keptCall, Option.isNone_iff_eq_none.mp (by decide +kernel), rfl⟩
  have hrel := (h _ hrun).projects (ascii "p")
  have hmemory : (Registry.calls [projectCall, keptCall]).projects.memory.lookup (ascii "p") =
      none := Option.isNone_iff_eq_none.mp (by decide +kernel)
  have hstore : ((Registry.calls [projectCall, keptCall]).projects.store.lookup
      (ascii "p")).isSome = true := by decide +kernel
  rw [hmemory] at hrel
  revert hrel hstore
  generalize (Registry.calls [projectCall, keptCall]).projects.store.lookup (ascii "p") = stored
  rintro (- | -) hstore
  cases hstore

end Beardrive
