import Beardrive.AgentHooks.Platforms

/-!
# Hooks of other people

Removal judges commands one by one and registering judges groups, so that the two agree only where
no group holds somebody else's command beside one that carries a marker. A group with such a
command is what is left after a configuration was tidied by hand; the next run of `install` writes
the package's group over it.

What else has to hold is said by the shapes that both take for granted: a map to write to, a table
of hooks, and lists without `null` below the events.

## Main definitions

* `HooksFine` — nothing of anybody else is touched, by `install`, `uninstall` and both
* `HooksApart` — what a configuration has to be for that

## Main results

* `hooksFine_iff` — the two are the same
* `tidiedConfig_loses` — a configuration that was tidied by hand
-/

namespace Beardrive

namespace AgentHooks

open Tree (Fields)

/-! ### What is promised -/

/-- Nothing outside the package's own entries differs: the entries of other people below every
event, what stands in the place of the hooks, and every other key. -/
structure Installs (p : Platform) (before after : Config) : Prop where
  theirs : ∀ e, theirs e (after.eventOf e) = theirs e (before.eventOf e)
  odd : after.oddHooks = before.oddHooks
  outside : ∀ k ≠ hooksKey, after.key k = before.key k
  again : p.install after = some (after, false)

/-- Exactly the package's own entries are gone. -/
structure Removes (before after : Config) : Prop where
  entries : ∀ e, eventEntries (after.eventOf e) = theirs e (before.eventOf e)
  odd : after.oddHooks = before.oddHooks
  outside : ∀ k ≠ hooksKey, after.key k = before.key k

/-- A value with a list of nothing taken for none. -/
def settle : Tree → Tree
  | .list [] => .null
  | v => v

/-- The same values, up to lists and tables of nothing. -/
structure SameValues (before after : Config) : Prop where
  values : ∀ e, settle (after.eventOf e) = settle (before.eventOf e)
  odd : after.oddHooks = before.oddHooks
  outside : ∀ k ≠ hooksKey, after.key k = before.key k

/-- No own entry stands below an event of the package. -/
def NoOwn (cfg : Config) : Prop :=
  ∀ e ∈ ourEvents, ∀ x ∈ eventEntries (cfg.eventOf e), x.own = false

/-- What is promised of a configuration: `install` leaves everybody else's hooks and does nothing
the second time, `uninstall` takes the own ones only, before and after `install`, and a
configuration without own ones comes back. -/
def HooksFine (p : Platform) (cfg : Config) : Prop :=
  ∃ after changed, p.install cfg = some (after, changed) ∧ Installs p cfg after ∧
    Removes after (uninstall after).1 ∧ Removes cfg (uninstall cfg).1 ∧
    (NoOwn cfg → SameValues cfg (uninstall after).1)

/-- The groups that `install` writes over. -/
def Platform.replaced (p : Platform) (cfg : Config) : List Tree :=
  (outdated (cfg.eventOf p.pullEvent).items p.pull marker).toList ++
  (outdated (cfg.eventOf p.pushEvent).items p.push marker).toList ++
  (p.outdatedRead (cfg.eventOf p.pushEvent).items).toList

/-- What a configuration has to be. There is a map, and a table or nothing in the place of the
hooks. Where there is something to write or to remove, the events of the package hold lists
without `null`. A group that is written over holds own entries only, and none is where the
configuration holds no own entry. -/
structure HooksApart (p : Platform) (cfg : Config) : Prop where
  map : cfg ≠ none
  table : cfg.oddHooks = none
  plain : ¬ NoOwn cfg ∨ ¬ p.Registered cfg → ∀ e ∈ ourEvents, plain (cfg.eventOf e) = true
  own : ∀ g ∈ p.replaced cfg, ∀ x ∈ groupEntries g, x.own = true
  untouched : NoOwn cfg → p.replaced cfg = []

/-! ### Own entries -/

theorem noOwn_iff (cfg : Config) : NoOwn cfg ↔ ¬ DropsBelow cfg := by
  rw [NoOwn, DropsBelow]
  constructor
  · rintro h ⟨e, hours, hdrop⟩
    rw [dropped_items, List.any_eq_true] at hdrop
    obtain ⟨x, hx, hown⟩ := hdrop
    rw [h e hours x hx] at hown
    exact Bool.false_ne_true hown
  · intro h e hours x hx
    by_contra hown
    refine h ⟨e, hours, ?_⟩
    rw [dropped_items, List.any_eq_true]
    exact ⟨x, hx, Bool.not_eq_false _ ▸ hown⟩

theorem others_eq_nil {entries : List HookEntry} :
    others entries = [] ↔ ∀ x ∈ entries, x.own = true := by
  rw [others, List.filter_eq_nil_iff]
  simp

/-- Without own entries all are somebody else's. -/
theorem NoOwn.theirs {cfg : Config} (h : NoOwn cfg) (e : GoString) :
    theirs e (cfg.eventOf e) = eventEntries (cfg.eventOf e) := by
  rw [AgentHooks.theirs]
  split_ifs with hours
  · rw [others, List.filter_eq_self]
    intro x hx
    rw [h e hours x hx]
    rfl
  · rfl

/-- The entries of other people in a list of groups. -/
def otherEntries (groups : List Tree) : List HookEntry := others (groups.flatMap groupEntries)

theorem otherEntries_append (gs hs : List Tree) :
    otherEntries (gs ++ hs) = otherEntries gs ++ otherEntries hs := by
  rw [otherEntries, List.flatMap_append, others_append]
  rfl

theorem otherEntries_singleton (g : Tree) : otherEntries [g] = others (groupEntries g) := by
  rw [otherEntries, List.flatMap_cons, List.flatMap_nil, List.append_nil]

section Own

variable {p : Platform} {group : Fields}

theorem otherEntries_own (h : group ∈ [p.pull, p.push, p.read]) :
    otherEntries [.table group] = [] := by
  rw [otherEntries_singleton, ← groupEntries_stripOwnHooks rfl, if_pos (p.strip_own h)]

theorem keptGroups_own (h : group ∈ [p.pull, p.push, p.read]) : keptGroups [.table group] = [] := by
  simp [keptGroups, p.strip_own h]

theorem dropped_own (h : group ∈ [p.pull, p.push, p.read]) :
    (stripOwnHooks (.table group)).2 = true := by
  by_contra hdrop
  have := p.strip_own h
  rw [stripOwnHooks_of_not_dropped (Bool.not_eq_true _ ▸ hdrop)] at this
  exact Bool.false_ne_true this

end Own

/-! ### Groups that stay -/

theorem mem_converge {arr : List Tree} {group : Fields} {m : GoString} {x : Tree} (h : x ∈ arr)
    (hx : marked m x = false) : x ∈ (converge arr group m).1 := by
  rcases converge_cases arr group m with ⟨-, hconv⟩ | ⟨pre, g, post, rfl, -, hg, hconv⟩
  · rw [hconv]
    exact List.mem_append_left _ h
  · rw [hconv]
    split_ifs
    · exact h
    · rcases List.mem_append.mp h with h | h
      · exact List.mem_append_left _ h
      · rcases List.mem_cons.mp h with rfl | h
        · rw [hx] at hg
          exact absurd hg Bool.false_ne_true
        · exact List.mem_append_right _ (List.mem_cons_of_mem _ h)

theorem mem_converge_of_not_settled {arr : List Tree} {group : Fields} {m : GoString}
    (h : ¬ Settled arr group m) : .table group ∈ (converge arr group m).1 := by
  rw [← converge_settled] at h
  rcases converge_cases arr group m with ⟨-, hconv⟩ | ⟨pre, g, post, rfl, -, hg, hconv⟩
  · rw [hconv]
    exact List.mem_append_right _ List.mem_cons_self
  · rw [hconv] at h ⊢
    split_ifs at h ⊢
    · exact absurd rfl h
    · exact List.mem_append_right _ List.mem_cons_self

/-- A member of the list afterwards was there before, or is the group. -/
theorem mem_of_mem_converge {arr : List Tree} {group : Fields} {m : GoString} {x : Tree}
    (h : x ∈ (converge arr group m).1) : x ∈ arr ∨ x = .table group := by
  rcases converge_cases arr group m with ⟨-, hconv⟩ | ⟨pre, g, post, rfl, -, hg, hconv⟩
  · rw [hconv] at h
    simpa using h
  · rw [hconv] at h
    split_ifs at h
    · exact .inl h
    · rcases List.mem_append.mp h with h | h
      · exact .inl (List.mem_append_left _ h)
      · rcases List.mem_cons.mp h with h | h
        · exact .inr h
        · exact .inl (List.mem_append_right _ (List.mem_cons_of_mem _ h))

/-- A list without `null` stays one, and no other becomes one. -/
theorem all_converge {arr : List Tree} {group : Fields} {m : GoString} :
    ((converge arr group m).1.all fun g => !g.isNull) = arr.all fun g => !g.isNull := by
  rw [Bool.eq_iff_iff, List.all_eq_true, List.all_eq_true]
  constructor
  · intro h g hg
    by_contra hnull
    have hg' : g = .null := Tree.isNull_iff.mp (by simpa using hnull)
    refine hnull (h g (mem_converge hg ?_))
    rw [hg']
    rfl
  · intro h g hg
    rcases mem_of_mem_converge hg with hg | rfl
    · exact h g hg
    · rfl

theorem mem_of_outdated {arr : List Tree} {group : Fields} {m : GoString} {g : Tree}
    (h : g ∈ outdated arr group m) : g ∈ arr ∧ g.isNull = false ∧ ¬ Settled arr group m := by
  obtain ⟨hfind, hne⟩ := Option.filter_eq_some_iff.mp h
  refine ⟨List.mem_of_find?_eq_some hfind, (marked_table (List.find?_some hfind)).1, ?_⟩
  rintro ⟨g', hfind', heq⟩
  rw [hfind] at hfind'
  rw [← Option.some.inj hfind'] at heq
  simp [heq] at hne

/-! ### The two runs -/

namespace Platform

variable {p : Platform}

theorem mem_replaced {cfg : Config} {g : Tree} (h : g ∈ p.replaced cfg) :
    g ∈ outdated (cfg.eventOf p.pullEvent).items p.pull marker ∨
      g ∈ outdated (cfg.eventOf p.pushEvent).items p.push marker ∨
        g ∈ p.outdatedRead (cfg.eventOf p.pushEvent).items := by
  simp only [replaced, List.mem_append, Option.mem_toList] at h
  rcases h with (h | h) | h
  · exact .inl h
  · exact .inr (.inl h)
  · exact .inr (.inr h)

/-- A group to write over is a group of the configuration, and `install` has something to do. -/
theorem of_mem_replaced {cfg : Config} {g : Tree} (h : g ∈ p.replaced cfg) :
    g.isNull = false ∧ ¬ p.Registered cfg ∧
      ∃ e ∈ ourEvents, g ∈ (cfg.eventOf e).items := by
  rcases mem_replaced h with h | h | h
  · obtain ⟨hmem, hnull, hnot⟩ := mem_of_outdated h
    exact ⟨hnull, fun hr => hnot hr.pull, p.pullEvent, p.pullEvent_mem, hmem⟩
  · obtain ⟨hmem, hnull, hnot⟩ := mem_of_outdated h
    exact ⟨hnull, fun hr => hnot hr.push, p.pushEvent, p.pushEvent_mem, hmem⟩
  · obtain ⟨hmem, hnull, -⟩ := mem_of_outdated h
    rw [← outdated_read] at h
    obtain ⟨-, -, hnot⟩ := mem_of_outdated h
    refine ⟨hnull, fun hr => hnot ?_, p.pushEvent, p.pushEvent_mem, List.mem_of_mem_eraseP hmem⟩
    rw [converge_of_settled hr.push]
    exact hr.read

/-- The other groups of both events stay exactly when what is written over holds none. -/
theorem rest_items_iff {β : Type*} {rest : List Tree → List β} (cfg : Config)
    (happ : ∀ xs ys, rest (xs ++ ys) = rest xs ++ rest ys)
    (hown : ∀ group ∈ [p.pull, p.push, p.read], rest [.table group] = []) :
    (rest (p.pullItems (cfg.eventOf p.pullEvent).items) = rest (cfg.eventOf p.pullEvent).items ∧
      rest (p.pushItems (cfg.eventOf p.pushEvent).items) = rest (cfg.eventOf p.pushEvent).items) ↔
    ∀ g ∈ p.replaced cfg, rest [g] = [] := by
  rw [pullItems, rest_converge_iff happ (hown _ (by simp)),
    rest_pushItems_iff happ (hown _ (by simp)) (hown _ (by simp))]
  constructor
  · rintro ⟨hpull, hpush, hread⟩ g hg
    rcases mem_replaced hg with hg | hg | hg
    · exact hpull g hg
    · exact hpush g hg
    · exact hread g hg
  · intro h
    refine ⟨fun g hg => h g ?_, fun g hg => h g ?_, fun g hg => h g ?_⟩
    · simp only [replaced, List.mem_append, Option.mem_toList]
      exact .inl (.inl hg)
    · simp only [replaced, List.mem_append, Option.mem_toList]
      exact .inl (.inr hg)
    · simp only [replaced, List.mem_append, Option.mem_toList]
      exact .inr hg

/-- A registered group is there afterwards. -/
theorem dropsBelow_of_mem {cfg : Config} {e : GoString} {group : Fields} (hours : e ∈ ourEvents)
    (hown : group ∈ [p.pull, p.push, p.read]) (h : .table group ∈ (cfg.eventOf e).items) :
    DropsBelow cfg :=
  ⟨e, hours, List.any_eq_true.mpr ⟨_, h, dropped_own hown⟩⟩

/-- After a run that had something to do there is something to remove. -/
theorem dropsBelow_of_not_registered {before after : Config} (h : p.Installed before after)
    (hnot : ¬ p.Registered before) : DropsBelow after := by
  have hown : p.pull ∈ [p.pull, p.push, p.read] ∧ p.push ∈ [p.pull, p.push, p.read] ∧
      p.read ∈ [p.pull, p.push, p.read] := by simp
  by_cases hpull : Settled (before.eventOf p.pullEvent).items p.pull marker
  swap
  · refine dropsBelow_of_mem p.pullEvent_mem hown.1 ?_
    rw [h.pull]
    exact mem_converge_of_not_settled hpull
  by_cases hpush : Settled (before.eventOf p.pushEvent).items p.push marker
  swap
  · refine dropsBelow_of_mem p.pushEvent_mem hown.2.1 ?_
    rw [h.push]
    exact mem_converge (mem_converge_of_not_settled hpush) p.push_unread
  refine dropsBelow_of_mem p.pushEvent_mem hown.2.2 ?_
  rw [h.push]
  show _ ∈ (converge _ _ _).1
  rw [converge_of_settled hpush]
  exact mem_converge_of_not_settled fun hread => hnot ⟨hpull, hpush, hread⟩

end Platform

/-- `uninstall` takes exactly the own entries where the events hold what the platforms read. -/
theorem removes_iff (cfg : Config) :
    Removes cfg (uninstall cfg).1 ↔
      (DropsBelow cfg → ∀ e ∈ ourEvents, plain (cfg.eventOf e) = true) := by
  rcases uninstall_spec cfg with ⟨hnone, hrun⟩ | ⟨hdrops, after, hrun, hafter⟩
  · refine iff_of_true ?_ fun h => absurd h hnone
    rw [hrun]
    exact ⟨fun e => (((noOwn_iff cfg).mpr hnone).theirs e).symm, rfl, fun _ _ => rfl⟩
  · rw [hrun]
    constructor
    · intro h _ e hours
      have := h.entries e
      rw [hafter.value e, if_pos hours, theirs, if_pos hours] at this
      exact (eventEntries_strippedValue_iff _).mp this
    · intro h
      refine ⟨fun e => ?_, hafter.odd, hafter.outside⟩
      rw [hafter.value e, theirs]
      by_cases hours : e ∈ ourEvents
      · rw [if_pos hours, if_pos hours]
        exact (eventEntries_strippedValue_iff _).mpr (h hdrops e hours)
      · rw [if_neg hours, if_neg hours]

/-- A value that holds groups or nothing. -/
def listed : Tree → Prop
  | .null | .list _ => True
  | _ => False

theorem eventEntries_of_listed {v : Tree} (h : listed v) :
    eventEntries v = v.items.flatMap groupEntries := by
  cases v with
  | null => rfl
  | list items => rfl
  | _ => exact h.elim

theorem plain_iff {v : Tree} :
    plain v = true ↔ listed v ∧ (v.items.all fun g => !g.isNull) = true := by
  cases v with
  | null => simp [plain, listed, Tree.items]
  | list items => simp [plain, listed, Tree.items]
  | _ => simp [plain, listed]

/-- Where `install` leaves everybody else's entries there were groups or nothing. -/
theorem listed_of_theirs {v : Tree} {items : List Tree} (hnil : v.items = [] → otherEntries items = [])
    (h : others (eventEntries (.list items)) = others (eventEntries v)) : listed v := by
  have habsurd (hv : v.items = []) (hshape : others (eventEntries v) = [.shape v]) : listed v := by
    rw [hshape] at h
    have := hnil hv
    rw [otherEntries] at this
    exact absurd (this.symm.trans h) (List.cons_ne_nil _ _).symm
  cases v with
  | null => exact trivial
  | list items => exact trivial
  | leaf text => exact habsurd rfl rfl
  | str s => exact habsurd rfl rfl
  | table fields => exact habsurd rfl rfl

/-! ### Values up to lists of nothing -/

theorem settle_strippedValue (v : Tree) :
    settle (strippedValue v) = settle (.list (keptGroups v.items)) := by
  rw [strippedValue]
  cases keptGroups v.items with
  | nil => rfl
  | cons g kept => rfl

theorem settle_of_listed {v : Tree} (h : listed v) : settle v = settle (.list v.items) := by
  cases v with
  | null => rfl
  | list items => rfl
  | _ => exact h.elim

theorem settle_list_inj {xs ys : List Tree} (h : settle (.list xs) = settle (.list ys)) :
    xs = ys := by
  cases xs with
  | nil =>
    cases ys with
    | nil => rfl
    | cons y ys => exact absurd h Tree.noConfusion
  | cons x xs =>
    cases ys with
    | nil => exact absurd h Tree.noConfusion
    | cons y ys => exact Tree.list.inj h

/-- Without own entries nothing is taken from a list without `null`. -/
theorem keptGroups_of_noOwn {cfg : Config} (hno : NoOwn cfg) {e : GoString} (hours : e ∈ ourEvents)
    (h : plain (cfg.eventOf e) = true) :
    keptGroups (cfg.eventOf e).items = (cfg.eventOf e).items := by
  have hdrop : dropped (cfg.eventOf e).items = false := by
    by_contra hdrop
    exact (noOwn_iff cfg).mp hno ⟨e, hours, Bool.not_eq_false _ ▸ hdrop⟩
  rw [keptGroups_of_not_dropped hdrop, List.filter_eq_self]
  exact List.all_eq_true.mp (plain_iff.mp h).2

/-! ### Apart, and only then -/

section Iff

variable {p : Platform} {cfg after : Config}

theorem otherEntries_own_of_mem :
    ∀ group ∈ [p.pull, p.push, p.read], otherEntries [.table group] = [] :=
  fun _ => otherEntries_own

theorem keptGroups_own_of_mem :
    ∀ group ∈ [p.pull, p.push, p.read], keptGroups [.table group] = [] :=
  fun _ => keptGroups_own

/-- The events of the package hold what the platforms read before and afterwards alike. -/
theorem plain_after_iff (h : p.Installed cfg after) (hpull : listed (cfg.eventOf p.pullEvent))
    (hpush : listed (cfg.eventOf p.pushEvent)) (e : GoString) :
    plain (after.eventOf e) = true ↔ plain (cfg.eventOf e) = true := by
  by_cases he : e = p.pullEvent
  · rw [he, h.pull, plain_iff, plain_iff]
    show True ∧ (List.all (converge _ _ _).1 _) = true ↔ _
    rw [all_converge]
    exact and_congr_left fun _ => iff_of_true trivial hpull
  · by_cases he' : e = p.pushEvent
    · rw [he', h.push, plain_iff, plain_iff]
      show True ∧ (List.all (converge _ _ _).1 _) = true ↔ _
      rw [all_converge, all_converge]
      exact and_congr_left fun _ => iff_of_true trivial hpush
    · rw [h.elsewhere e he he']

/-- The entries of other people at both events, in terms of the groups. -/
theorem theirs_iff (h : p.Installed cfg after) (hpull : listed (cfg.eventOf p.pullEvent))
    (hpush : listed (cfg.eventOf p.pushEvent)) :
    (∀ e, theirs e (after.eventOf e) = theirs e (cfg.eventOf e)) ↔
      ∀ g ∈ p.replaced cfg, ∀ x ∈ groupEntries g, x.own = true := by
  have hrest := p.rest_items_iff cfg otherEntries_append otherEntries_own_of_mem
  have hgroups : (∀ g ∈ p.replaced cfg, otherEntries [g] = []) ↔
      ∀ g ∈ p.replaced cfg, ∀ x ∈ groupEntries g, x.own = true := by
    simp only [otherEntries_singleton, others_eq_nil]
  rw [← hgroups, ← hrest]
  constructor
  · intro hall
    constructor
    · have := hall p.pullEvent
      rwa [h.pull, theirs, theirs, if_pos p.pullEvent_mem, if_pos p.pullEvent_mem,
        eventEntries_of_listed hpull] at this
    · have := hall p.pushEvent
      rwa [h.push, theirs, theirs, if_pos p.pushEvent_mem, if_pos p.pushEvent_mem,
        eventEntries_of_listed hpush] at this
  · rintro ⟨hpullItems, hpushItems⟩ e
    by_cases he : e = p.pullEvent
    · rw [he, h.pull, theirs, theirs, if_pos p.pullEvent_mem, if_pos p.pullEvent_mem,
        eventEntries_of_listed hpull]
      exact hpullItems
    · by_cases he' : e = p.pushEvent
      · rw [he', h.push, theirs, theirs, if_pos p.pushEvent_mem, if_pos p.pushEvent_mem,
          eventEntries_of_listed hpush]
        exact hpushItems
      · rw [h.elsewhere e he he']

/-- Where `install` leaves the entries of other people, its events held groups or nothing. -/
theorem listed_of_keeps (h : p.Installed cfg after)
    (hkeep : ∀ e, theirs e (after.eventOf e) = theirs e (cfg.eventOf e)) :
    listed (cfg.eventOf p.pullEvent) ∧ listed (cfg.eventOf p.pushEvent) := by
  have hpull := hkeep p.pullEvent
  have hpush := hkeep p.pushEvent
  rw [h.pull, theirs, theirs, if_pos p.pullEvent_mem, if_pos p.pullEvent_mem] at hpull
  rw [h.push, theirs, theirs, if_pos p.pushEvent_mem, if_pos p.pushEvent_mem] at hpush
  have hsub {group : Fields} (hown : group ∈ [p.pull, p.push, p.read]) (arr : List Tree)
      (m : GoString) : (otherEntries (converge arr group m).1).Sublist (otherEntries arr) :=
    rest_converge_sublist otherEntries_append (otherEntries_own hown) arr m
  refine ⟨listed_of_theirs (fun hnil => ?_) hpull, listed_of_theirs (fun hnil => ?_) hpush⟩
  · refine List.sublist_nil.mp ?_
    rw [hnil]
    exact hsub (by simp) [] marker
  · refine List.sublist_nil.mp ?_
    rw [hnil]
    exact (hsub (by simp) _ readMarker).trans (hsub (by simp) [] marker)

/-- There is something to remove afterwards where there was something to write or to remove. -/
theorem dropsBelow_after_iff {root after : Fields} {changed : Bool}
    (h : p.Installed (some root) (some after))
    (hchanged : changed = false ↔ p.Registered (some root)) (hsame : changed = false → after = root) :
    DropsBelow (some after) ↔ ¬ NoOwn (some root) ∨ ¬ p.Registered (some root) := by
  by_cases hreg : p.Registered (some root)
  · rw [hsame (hchanged.mpr hreg), noOwn_iff, not_not]
    exact ⟨.inl, fun h => h.resolve_right (not_not.mpr hreg)⟩
  · exact iff_of_true (p.dropsBelow_of_not_registered h hreg) (.inr hreg)

end Iff

/-- A configuration that keeps what is promised is apart. -/
theorem hooksApart_of_fine {p : Platform} {cfg : Config} (h : HooksFine p cfg) :
    HooksApart p cfg := by
  obtain ⟨after', changed', hrun, hkeep, hremove, -, hback⟩ := h
  cases cfg with
  | none => exact absurd hrun (by simp [Groups.install])
  | some root =>
    obtain ⟨after, changed, hrun', hinst, hchanged, hsame⟩ := p.install_spec root
    obtain ⟨rfl, rfl⟩ := Prod.mk.inj (Option.some.inj (hrun.symm.trans hrun'))
    obtain ⟨hpull, hpush⟩ := listed_of_keeps hinst hkeep.theirs
    have hdrops := dropsBelow_after_iff hinst hchanged hsame
    have hplain : ¬ NoOwn (some root) ∨ ¬ p.Registered (some root) →
        ∀ e ∈ ourEvents, plain (Config.eventOf (some root) e) = true := fun hdo e hours =>
      (plain_after_iff hinst hpull hpush e).mp
        ((removes_iff _).mp hremove (hdrops.mpr hdo) e hours)
    refine ⟨by simp, ?_, hplain, (theirs_iff hinst hpull hpush).mp hkeep.theirs, ?_⟩
    · rw [← hkeep.odd, hinst.odd]
    · intro hno
      rw [List.eq_nil_iff_forall_not_mem]
      intro g hg
      obtain ⟨hnull, hnreg, e, hours, hmem⟩ := p.of_mem_replaced hg
      have hdo : ¬ NoOwn (some root) ∨ ¬ p.Registered (some root) := .inr hnreg
      rcases uninstall_spec (some after) with ⟨hnone, -⟩ | ⟨-, after2, hrun2, huninst⟩
      · exact hnone (hdrops.mpr hdo)
      have hsameValues := hback hno
      rw [hrun2] at hsameValues
      -- what the removal leaves at an event is what stood there at first
      have hkept {e : GoString} (hours : e ∈ ourEvents) (hlisted : listed (Config.eventOf (some root) e)) :
          keptGroups (Config.eventOf (some after) e).items =
            keptGroups (Config.eventOf (some root) e).items := by
        rw [keptGroups_of_noOwn hno hours (hplain hdo e hours)]
        refine settle_list_inj ?_
        have := hsameValues.values e
        rwa [huninst.value, if_pos hours, settle_strippedValue, settle_of_listed hlisted] at this
      have hkeptPull := hkept p.pullEvent_mem hpull
      have hkeptPush := hkept p.pushEvent_mem hpush
      rw [hinst.pull] at hkeptPull
      rw [hinst.push] at hkeptPush
      have hgone := (p.rest_items_iff (some root) keptGroups_append keptGroups_own_of_mem).mp
        ⟨hkeptPull, hkeptPush⟩ g hg
      -- but a group without an own entry is kept
      have hdrop : (stripOwnHooks g).2 = false := by
        by_contra hdrop
        exact (noOwn_iff _).mp hno ⟨e, hours, List.any_eq_true.mpr ⟨g, hmem, Bool.not_eq_false _ ▸ hdrop⟩⟩
      simp [keptGroups, stripOwnHooks_of_not_dropped hdrop, hnull] at hgone

/-- A configuration that is apart keeps what is promised. -/
theorem hooksFine_of_apart {p : Platform} {cfg : Config} (h : HooksApart p cfg) :
    HooksFine p cfg := by
  cases cfg with
  | none => exact absurd rfl h.map
  | some root =>
    obtain ⟨after, changed, hrun, hinst, hchanged, hsame⟩ := p.install_spec root
    have hdrops := dropsBelow_after_iff hinst hchanged hsame
    have hlisted : listed (Config.eventOf (some root) p.pullEvent) ∧
        listed (Config.eventOf (some root) p.pushEvent) := by
      by_cases hreg : p.Registered (some root)
      · rw [value_of_settled hreg.pull, value_of_settled hreg.push]
        exact ⟨trivial, trivial⟩
      · have hplain := h.plain (.inr hreg)
        exact ⟨(plain_iff.mp (hplain _ p.pullEvent_mem)).1,
          (plain_iff.mp (hplain _ p.pushEvent_mem)).1⟩
    obtain ⟨hpull, hpush⟩ := hlisted
    refine ⟨some after, changed, hrun, ?_, ?_, ?_, fun hno => ?_⟩
    · exact ⟨(theirs_iff hinst hpull hpush).mpr h.own, by rw [hinst.odd, h.table], hinst.outside,
        p.install_again hinst⟩
    · exact (removes_iff _).mpr fun hd e hours =>
        (plain_after_iff hinst hpull hpush e).mpr (h.plain (hdrops.mp hd) e hours)
    · exact (removes_iff _).mpr fun hd =>
        h.plain (.inl fun hno => (noOwn_iff _).mp hno hd)
    · rcases uninstall_spec (some after) with ⟨hnone, hrun2⟩ | ⟨hd, after2, hrun2, huninst⟩
      · -- nothing to remove, so that nothing was written either
        have hreg : p.Registered (some root) := by
          by_contra hreg
          exact hnone (hdrops.mpr (.inr hreg))
        rw [hrun2, hsame (hchanged.mpr hreg)]
        exact ⟨fun _ => rfl, rfl, fun _ _ => rfl⟩
      · rw [hrun2]
        have hplain := h.plain (hdrops.mp hd)
        obtain ⟨hkeptPull, hkeptPush⟩ :=
          (p.rest_items_iff (some root) keptGroups_append keptGroups_own_of_mem).mpr
            (by rw [h.untouched hno]; exact fun g hg => absurd hg List.not_mem_nil)
        refine ⟨fun e => ?_, ?_, ?_⟩
        · rw [huninst.value]
          split_ifs with hours
          · rw [settle_strippedValue,
              settle_of_listed (plain_iff.mp (hplain e hours)).1,
              ← keptGroups_of_noOwn hno hours (hplain e hours)]
            by_cases he : e = p.pullEvent
            · rw [he, hinst.pull]
              exact congrArg (settle ∘ Tree.list) hkeptPull
            · by_cases he' : e = p.pushEvent
              · rw [he', hinst.push]
                exact congrArg (settle ∘ Tree.list) hkeptPush
              · rw [hinst.elsewhere e he he']
          · have hne : e ≠ p.pullEvent ∧ e ≠ p.pushEvent :=
              ⟨fun h => hours (h ▸ p.pullEvent_mem), fun h => hours (h ▸ p.pushEvent_mem)⟩
            rw [hinst.elsewhere e hne.1 hne.2]
        · rw [huninst.odd, hinst.odd, h.table]
        · exact fun k hk => (huninst.outside k hk).trans (hinst.outside k hk)

/-- **Nobody else's hook is touched** exactly in a configuration that is apart. -/
theorem hooksFine_iff (agent : Agent) (cfg : Config) :
    HooksFine agent.platform cfg ↔ HooksApart agent.platform cfg :=
  ⟨hooksApart_of_fine, hooksFine_of_apart⟩

/-- A group of a tidied configuration: both commands of the package, and a formatter. -/
def tidiedGroup : Tree :=
  .table [(hooksKey, .list [.table [(commandKey, .str (ascii "bdrive sync ."))],
    .table [(commandKey, .str (ascii "bdrive read-log ."))],
    .table [(commandKey, .str (ascii "run-my-formatter"))]])]

/-- A configuration with that group below the event of a tool call. -/
def tidiedConfig : Config := some [(hooksKey, .table [(ascii "PostToolUse", .list [tidiedGroup])])]

/-- **The formatter is lost** when the hooks are registered once more. -/
theorem tidiedConfig_loses : ¬ HooksFine Agent.claude.platform tidiedConfig := by
  intro h
  have hown := (hooksApart_of_fine h).own tidiedGroup
  have hmarked : marked marker tidiedGroup = true := by decide +kernel
  have hread : marked readMarker tidiedGroup = true := by decide +kernel
  have hitems : (tidiedConfig.eventOf Agent.claude.platform.pushEvent).items = [tidiedGroup] := by
    show (Config.eventOf tidiedConfig (ascii "PostToolUse")).items = _
    simp [Config.eventOf, Config.hooks, tidiedConfig, valueAt, Tree.items]
  have hdiffers : jsonEqual tidiedGroup (.table Agent.claude.platform.push) = false := by
    by_contra heq
    have := Platform.unread_of_jsonEqual (Bool.not_eq_false _ ▸ heq)
    rw [hread] at this
    exact Bool.noConfusion this
  have hreplaced : tidiedGroup ∈ Agent.claude.platform.replaced tidiedConfig := by
    rw [Platform.replaced, hitems]
    refine List.mem_append_left _ (List.mem_append_right _ ?_)
    simp [outdated, hmarked, hdiffers]
  have hformatter := hown hreplaced
    (.inner [] (.table [(commandKey, .str (ascii "run-my-formatter"))])) (by
      simp [groupEntries, tidiedGroup, Table.erase])
  exact absurd hformatter (by decide +kernel)

end AgentHooks

end Beardrive
