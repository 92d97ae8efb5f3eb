import Beardrive.Lib.Table
import Beardrive.Lib.Tree
import Mathlib.Data.List.Dedup

/-!
# Removing the agent hooks

A hook group of an agent's configuration is a table. Most platforms put the commands of a group
into a list below its key `hooks`; one platform makes the group itself the command. Removal is per
command, and it looks only below the events the package registers under: what is left of a group is
written back, and a group, an event and the table of hooks go when nothing is left of them.

A value of another type stands in nobody's way until something is removed. Then a group that is
`null` is taken for one of which nothing is left, and an event whose value is no list for one
without groups.

## Main definitions

* `ownHook`, `stripOwnHooks` — which command is the package's own, and a group without these
* `uninstall` — `removeHooks` on the decoded configuration
* `HookEntry`, `eventEntries`, `theirs` — the entries below an event, and those of other people

## Main results

* `uninstall_spec` — what every event holds afterwards
* `eventEntries_strippedValue_iff` — at which events only own entries go
-/

namespace Beardrive

namespace AgentHooks

open Tree (Fields)

/-- What identifies the sync hooks. -/
def marker : GoString := ascii "bdrive sync"

/-- What identifies the read hook. -/
def readMarker : GoString := ascii "bdrive read-log"

/-- The events the package registers under. -/
def ourEvents : List GoString :=
  [ascii "UserPromptSubmit", ascii "PostToolUse", ascii "BeforeAgent", ascii "AfterTool",
    ascii "pre_llm_call", ascii "post_tool_call"]

/-- The key of the hooks, in a configuration and in a group. -/
def hooksKey : GoString := ascii "hooks"

/-- The key of the command of a hook. -/
def commandKey : GoString := ascii "command"

/-- A decoded configuration; a document that is `null` leaves no map at all. -/
abbrev Config := Option Fields

namespace Config

/-- The table of hooks; a value of another type leaves an empty one. -/
def hooks (cfg : Config) : Fields :=
  match cfg.bind (List.lookup hooksKey) with
  | some (.table hooks) => hooks
  | _ => []

/-- A value below `hooks` that is no table, where it is not `null` either. -/
def oddHooks (cfg : Config) : Option Tree :=
  match cfg.bind (List.lookup hooksKey) with
  | some (.table _) | some .null | none => none
  | some v => some v

/-- The value of a key. -/
def key (cfg : Config) (k : GoString) : Option Tree := cfg.bind (List.lookup k)

end Config

/-- The value below a key, `nil` for a missing one. -/
def valueAt (hooks : Fields) (event : GoString) : Tree := (hooks.lookup event).getD .null

/-- The value below an event. -/
def Config.eventOf (cfg : Config) (event : GoString) : Tree := valueAt cfg.hooks event

theorem valueAt_set (hooks : Fields) (event e : GoString) (v : Tree) :
    valueAt (Table.set hooks event v) e = if e = event then v else valueAt hooks e := by
  rw [valueAt, Table.lookup_set]
  split_ifs
  · rfl
  · rfl

theorem valueAt_erase (hooks : Fields) (event e : GoString) :
    valueAt (Table.erase hooks event) e = if e = event then .null else valueAt hooks e := by
  rw [valueAt, Table.lookup_erase]
  split_ifs
  · rfl
  · rfl

/-! ### A configuration with its table of hooks replaced -/

section Set

variable (root hooks : Fields)

theorem Config.hooks_set :
    Config.hooks (some (Table.set root hooksKey (.table hooks))) = hooks := by
  simp [Config.hooks, Table.lookup_set]

theorem Config.oddHooks_set :
    Config.oddHooks (some (Table.set root hooksKey (.table hooks))) = none := by
  simp [Config.oddHooks, Table.lookup_set]

theorem Config.hooks_erase : Config.hooks (some (Table.erase root hooksKey)) = [] := by
  simp [Config.hooks, Table.lookup_erase]

theorem Config.oddHooks_erase : Config.oddHooks (some (Table.erase root hooksKey)) = none := by
  simp [Config.oddHooks, Table.lookup_erase]

end Set

/-! ### Own commands -/

/-- `ownHook`: a command with one of the markers in it. -/
def ownHook (h : Fields) : Bool :=
  let cmd := match h.lookup commandKey with
    | some (.str s) => s
    | _ => []
  contains cmd marker || contains cmd readMarker

/-- A hook entry is own when it is a table with an own command. -/
def ownEntry : Tree → Bool
  | .table h => ownHook h
  | _ => false

/-- `stripOwnHooks`: what is left of a group, `nil` when nothing is, and whether a hook went. -/
def stripOwnHooks (group : Tree) : Tree × Bool :=
  match group with
  | .table m =>
    match m.lookup hooksKey with
    | some (.list inner) =>
      let kept := inner.filter fun h => !ownEntry h
      if inner.any ownEntry then
        if kept.isEmpty then (.null, true) else (.table (Table.set m hooksKey (.list kept)), true)
      else (group, false)
    | _ => if ownHook m then (.null, true) else (group, false)
  | _ => (group, false)

/-- What is left of the groups of a list. -/
def keptGroups (groups : List Tree) : List Tree :=
  (groups.map fun g => (stripOwnHooks g).1).filter fun left => !left.isNull

/-- Whether a hook goes from one of the groups. -/
def dropped (groups : List Tree) : Bool := groups.any fun g => (stripOwnHooks g).2

/-- One event of the loop of `removeHooks`. -/
def visitEvent (s : Fields × Bool) (event : GoString) : Fields × Bool :=
  if event ∈ ourEvents then
    let arr := (valueAt s.1 event).items
    let kept := keptGroups arr
    (if kept.isEmpty then Table.erase s.1 event else Table.set s.1 event (.list kept),
      s.2 || dropped arr)
  else s

/-- `removeHooks`, with whether the file was written. -/
def uninstall (cfg : Config) : Config × Bool :=
  match cfg with
  | none => (none, false)
  | some root =>
    match root.lookup hooksKey with
    | some (.table hooks) =>
      let s := (hooks.map Prod.fst).dedup.foldl visitEvent (hooks, false)
      if s.2 then
        (some (if s.1.isEmpty then Table.erase root hooksKey
          else Table.set root hooksKey (.table s.1)), true)
      else (cfg, false)
    | _ => (cfg, false)

/-! ### What an event holds afterwards -/

/-- What is left of the value below an event. -/
def strippedValue (v : Tree) : Tree :=
  match keptGroups v.items with
  | [] => .null
  | kept => .list kept

theorem valueAt_visitEvent (s : Fields × Bool) (event e : GoString) :
    valueAt (visitEvent s event).1 e =
      if e = event ∧ event ∈ ourEvents then strippedValue (valueAt s.1 event)
      else valueAt s.1 e := by
  rw [visitEvent]
  by_cases hours : event ∈ ourEvents
  · rw [if_pos hours]
    show valueAt (if _ then _ else _) e = _
    cases hkept : keptGroups (valueAt s.1 event).items with
    | nil => simp [valueAt_erase, hours, strippedValue, hkept]
    | cons g kept => simp [valueAt_set, hours, strippedValue, hkept]
  · simp [hours]

theorem visitEvent_changed (s : Fields × Bool) (event : GoString) :
    (visitEvent s event).2 =
      (s.2 || (decide (event ∈ ourEvents) && dropped (valueAt s.1 event).items)) := by
  rw [visitEvent]
  by_cases hours : event ∈ ourEvents
  · simp [hours]
  · simp [hours]

/-- The loop over the events, each visited once. -/
theorem foldl_visitEvent (events : List GoString) (hnodup : events.Nodup) (s : Fields × Bool) :
    (∀ e, valueAt (events.foldl visitEvent s).1 e =
      if e ∈ events ∧ e ∈ ourEvents then strippedValue (valueAt s.1 e) else valueAt s.1 e) ∧
    ((events.foldl visitEvent s).2 = true ↔
      s.2 = true ∨ ∃ e ∈ events, e ∈ ourEvents ∧ dropped (valueAt s.1 e).items = true) := by
  induction events generalizing s with
  | nil => simp
  | cons event events ih =>
    obtain ⟨hnew, hnodup⟩ := List.nodup_cons.mp hnodup
    obtain ⟨hvalue, hchanged⟩ := ih hnodup (visitEvent s event)
    have hother : ∀ e ∈ events, valueAt (visitEvent s event).1 e = valueAt s.1 e := by
      intro e he
      rw [valueAt_visitEvent, if_neg]
      rintro ⟨rfl, -⟩
      exact hnew he
    rw [List.foldl_cons]
    constructor
    · intro e
      rw [hvalue e, valueAt_visitEvent]
      by_cases he : e = event
      · subst he
        simp [hnew]
      · simp [he]
    · rw [hchanged, visitEvent_changed]
      constructor
      · rintro (h | ⟨e, he, hours, hdrop⟩)
        · rcases Bool.or_eq_true _ _ ▸ h with h | h
          · exact .inl h
          · rw [Bool.and_eq_true, decide_eq_true_eq] at h
            exact .inr ⟨event, List.mem_cons_self, h.1, h.2⟩
        · exact .inr ⟨e, List.mem_cons_of_mem _ he, hours, hother e he ▸ hdrop⟩
      · rintro (h | ⟨e, he, hours, hdrop⟩)
        · exact .inl (by rw [h, Bool.true_or])
        · rcases List.mem_cons.mp he with rfl | he
          · exact .inl (by simp [hours, hdrop])
          · exact .inr ⟨e, he, hours, (hother e he).symm ▸ hdrop⟩

@[simp] theorem strippedValue_null : strippedValue .null = .null := rfl

/-- Removal has something to do below an event. -/
def DropsBelow (cfg : Config) : Prop := ∃ e ∈ ourEvents, dropped (cfg.eventOf e).items = true

/-- What `uninstall` does, when it does something. -/
structure Uninstalled (before after : Config) : Prop where
  value : ∀ e, after.eventOf e =
    if e ∈ ourEvents then strippedValue (before.eventOf e) else before.eventOf e
  odd : after.oddHooks = before.oddHooks
  outside : ∀ k ≠ hooksKey, after.key k = before.key k

/-- **What `uninstall` leaves.** It writes when an own command stands below an event of the
package, and then strips every one of these events. -/
theorem uninstall_spec (cfg : Config) :
    (¬ DropsBelow cfg ∧ uninstall cfg = (cfg, false)) ∨
    (DropsBelow cfg ∧ ∃ after, uninstall cfg = (after, true) ∧ Uninstalled cfg after) := by
  have hidle : cfg.hooks = [] → ¬ DropsBelow cfg := by
    rintro h ⟨e, -, hdrop⟩
    simp [Config.eventOf, h, valueAt, Tree.items, dropped] at hdrop
  cases cfg with
  | none => exact .inl ⟨hidle rfl, rfl⟩
  | some root =>
    by_cases htable : ∃ hooks, root.lookup hooksKey = some (.table hooks)
    swap
    · refine .inl ⟨hidle ?_, ?_⟩
      · simp only [Config.hooks, Option.bind_some]
        split
        · rename_i hooks h
          exact absurd ⟨hooks, h⟩ htable
        · rfl
      · simp only [uninstall]
        split
        · rename_i hooks h
          exact absurd ⟨hooks, h⟩ htable
        · rfl
    obtain ⟨hooks, hlookup⟩ := htable
    have hhooks : Config.hooks (some root) = hooks := by simp [Config.hooks, hlookup]
    have hodd : Config.oddHooks (some root) = none := by simp [Config.oddHooks, hlookup]
    obtain ⟨hvalue, hchanged⟩ := foldl_visitEvent (hooks.map Prod.fst).dedup
      (List.nodup_dedup _) (hooks, false)
    rw [uninstall]
    simp only [hlookup]
    generalize hs : (hooks.map Prod.fst).dedup.foldl visitEvent (hooks, false) = s at hvalue hchanged ⊢
    -- an event that is no key of the table has nothing below it
    have hmissing : ∀ e ∉ (hooks.map Prod.fst).dedup, valueAt hooks e = .null := by
      intro e he
      rw [List.mem_dedup] at he
      have : hooks.lookup e = none := by
        rw [List.lookup_eq_none_iff]
        intro field hfield
        have : e ≠ field.1 := fun h => he (h ▸ List.mem_map_of_mem hfield)
        simpa using this
      rw [valueAt, this]
      rfl
    have hdrops : s.2 = true ↔ DropsBelow (some root) := by
      rw [hchanged, DropsBelow]
      constructor
      · rintro (h | ⟨e, -, hours, hdrop⟩)
        · exact absurd h Bool.false_ne_true
        · exact ⟨e, hours, by rw [Config.eventOf, hhooks]; exact hdrop⟩
      · rintro ⟨e, hours, hdrop⟩
        rw [Config.eventOf, hhooks] at hdrop
        refine .inr ⟨e, ?_, hours, hdrop⟩
        by_contra he
        rw [hmissing e he] at hdrop
        exact absurd hdrop Bool.false_ne_true
    by_cases hs2 : s.2 = true
    swap
    · exact .inl ⟨fun h => hs2 (hdrops.mpr h), by rw [if_neg hs2]⟩
    refine .inr ⟨hdrops.mp hs2, _, by rw [if_pos hs2], ?_⟩
    have hleft : ∀ e, valueAt s.1 e =
        if e ∈ ourEvents then strippedValue (valueAt hooks e) else valueAt hooks e := by
      intro e
      rw [hvalue e]
      by_cases he : e ∈ (hooks.map Prod.fst).dedup
      · simp only [he, true_and]
      · rw [if_neg fun h => he h.1, hmissing e he]
        simp
    by_cases hempty : s.1.isEmpty = true
    · rw [if_pos hempty]
      constructor
      · intro e
        rw [Config.eventOf, Config.hooks_erase, Config.eventOf, hhooks, ← hleft e,
          List.isEmpty_iff.mp hempty]
      · rw [Config.oddHooks_erase, hodd]
      · intro k hk
        simp [Config.key, Table.lookup_erase, hk]
    · rw [if_neg hempty]
      constructor
      · intro e
        rw [Config.eventOf, Config.hooks_set, Config.eventOf, hhooks, hleft e]
      · rw [Config.oddHooks_set, hodd]
      · intro k hk
        simp [Config.key, Table.lookup_set, hk]

/-! ### Entries -/

/-- A hook entry: a command of a group, with what else the group holds; a group that is itself an
entry; or a value that is no list of groups. -/
inductive HookEntry where
  | inner (frame : Fields) (hook : Tree)
  | whole (group : Tree)
  | shape (value : Tree)

/-- Whether an entry is the package's own, below an event of the package. -/
def HookEntry.own : HookEntry → Bool
  | inner _ hook => ownEntry hook
  | whole group => ownEntry group
  | shape _ => false

/-- The entries of a group. -/
def groupEntries (group : Tree) : List HookEntry :=
  match group with
  | .table m =>
    match m.lookup hooksKey with
    | some (.list inner) => inner.map (.inner (Table.erase m hooksKey))
    | _ => [.whole group]
  | _ => [.whole group]

/-- The entries below an event. -/
def eventEntries : Tree → List HookEntry
  | .null => []
  | .list groups => groups.flatMap groupEntries
  | v => [.shape v]

/-- The entries that are not the package's own. -/
def others (entries : List HookEntry) : List HookEntry := entries.filter fun x => !x.own

/-- The entries below an event that are somebody else's. -/
def theirs (event : GoString) (v : Tree) : List HookEntry :=
  if event ∈ ourEvents then others (eventEntries v) else eventEntries v

@[simp] theorem others_append (xs ys : List HookEntry) :
    others (xs ++ ys) = others xs ++ others ys :=
  List.filter_append ..

/-- The entries of what is left of a group. -/
theorem groupEntries_stripOwnHooks {group : Tree} (h : group.isNull = false) :
    (if (stripOwnHooks group).1.isNull then [] else groupEntries (stripOwnHooks group).1) =
      others (groupEntries group) := by
  cases group with
  | null => exact absurd h (by simp [Tree.isNull])
  | leaf text => rfl
  | str s => rfl
  | list items => rfl
  | table m =>
    have hwhole (hm : ∀ inner, m.lookup hooksKey ≠ some (.list inner)) :
        groupEntries (.table m) = [.whole (.table m)] := by
      simp only [groupEntries]
    by_cases hinner : ∃ inner, m.lookup hooksKey = some (.list inner)
    · obtain ⟨inner, hinner⟩ := hinner
      have hother : others (groupEntries (.table m)) =
          (inner.filter fun h => !ownEntry h).map (.inner (Table.erase m hooksKey)) := by
        simp only [groupEntries, hinner, others, List.filter_map]
        rfl
      rw [hother]
      simp only [stripOwnHooks, hinner]
      by_cases hany : inner.any ownEntry = true
      · rw [if_pos hany]
        by_cases hempty : (inner.filter fun h => !ownEntry h).isEmpty = true
        · rw [if_pos hempty, List.isEmpty_iff.mp hempty]
          rfl
        · rw [if_neg hempty]
          simp [Tree.isNull, groupEntries, Table.lookup_set]
      · rw [if_neg hany]
        have hall : inner.filter (fun h => !ownEntry h) = inner := by
          rw [List.filter_eq_self]
          intro h hh
          rw [Bool.not_eq_true, List.any_eq_false] at hany
          simpa using hany h hh
        rw [hall]
        simp [Tree.isNull, groupEntries, hinner]
    · have hm : ∀ inner, m.lookup hooksKey ≠ some (.list inner) := fun inner h => hinner ⟨inner, h⟩
      have hstrip : stripOwnHooks (.table m) =
          if ownHook m then (.null, true) else (.table m, false) := by
        simp only [stripOwnHooks]
      rw [hstrip, hwhole hm]
      by_cases hown : ownHook m = true
      · simp [hown, others, HookEntry.own, ownEntry, Tree.isNull]
      · simp [hown, others, HookEntry.own, ownEntry, Tree.isNull, hwhole hm]

/-- A hook goes from a group exactly when the group has an own entry. -/
theorem stripOwnHooks_dropped (group : Tree) :
    (stripOwnHooks group).2 = (groupEntries group).any HookEntry.own := by
  cases group with
  | null => rfl
  | leaf text => rfl
  | str s => rfl
  | list items => rfl
  | table m =>
    by_cases hinner : ∃ inner, m.lookup hooksKey = some (.list inner)
    · obtain ⟨inner, hinner⟩ := hinner
      have hentries : (groupEntries (.table m)).any HookEntry.own = inner.any ownEntry := by
        simp only [groupEntries, hinner, List.any_map]
        rfl
      rw [hentries]
      simp only [stripOwnHooks, hinner]
      split_ifs with hany hempty
      · exact hany.symm
      · exact hany.symm
      · exact (Bool.not_eq_true _ ▸ hany).symm
    · have hm : ∀ inner, m.lookup hooksKey ≠ some (.list inner) := fun inner h => hinner ⟨inner, h⟩
      simp only [stripOwnHooks, groupEntries]
      by_cases hown : ownHook m = true
      · simp [hown, HookEntry.own, ownEntry]
      · simp [hown, HookEntry.own, ownEntry]

/-- A group without an own entry stays as it is. -/
theorem stripOwnHooks_of_not_dropped {group : Tree} (h : (stripOwnHooks group).2 = false) :
    (stripOwnHooks group).1 = group := by
  cases group with
  | null => rfl
  | leaf text => rfl
  | str s => rfl
  | list items => rfl
  | table m =>
    simp only [stripOwnHooks] at h ⊢
    split at h
    · split_ifs at h ⊢ with hany hempty
      · rfl
    · split_ifs at h ⊢ with hown
      · rfl

@[simp] theorem keptGroups_append (gs hs : List Tree) :
    keptGroups (gs ++ hs) = keptGroups gs ++ keptGroups hs := by
  simp [keptGroups]

@[simp] theorem dropped_append (gs hs : List Tree) :
    dropped (gs ++ hs) = (dropped gs || dropped hs) := by
  simp [dropped]

/-- The entries of what is left of a list of groups. -/
theorem flatMap_keptGroups (groups : List Tree) :
    (keptGroups groups).flatMap groupEntries =
      others ((groups.filter fun g => !g.isNull).flatMap groupEntries) := by
  induction groups with
  | nil => rfl
  | cons g groups ih =>
    have hsplit : keptGroups (g :: groups) = keptGroups [g] ++ keptGroups groups :=
      keptGroups_append [g] groups
    rw [hsplit, List.flatMap_append, ih, List.filter_cons]
    cases hnull : g.isNull with
    | true =>
      rw [Tree.isNull_iff.mp hnull]
      rfl
    | false =>
      simp only [Bool.not_false, if_true, List.flatMap_cons, others_append]
      rw [← groupEntries_stripOwnHooks hnull]
      congr 1
      by_cases hleft : (stripOwnHooks g).1.isNull = true
      · simp [keptGroups, hleft]
      · simp [keptGroups, hleft]

/-- Without own entries the groups that are not `null` are left. -/
theorem keptGroups_of_not_dropped {groups : List Tree} (h : dropped groups = false) :
    keptGroups groups = groups.filter fun g => !g.isNull := by
  rw [keptGroups]
  congr 1
  rw [dropped, List.any_eq_false] at h
  refine (List.map_congr_left fun g hg => ?_).trans (List.map_id groups)
  exact stripOwnHooks_of_not_dropped (Bool.not_eq_true _ ▸ h g hg)

/-- Something goes below an event exactly when an own entry stands there. -/
theorem dropped_items (v : Tree) : dropped v.items = (eventEntries v).any HookEntry.own := by
  cases v with
  | null => rfl
  | leaf text => rfl
  | str s => rfl
  | table fields => rfl
  | list groups =>
    show groups.any _ = (groups.flatMap groupEntries).any _
    rw [List.any_flatMap]
    simp only [stripOwnHooks_dropped]

/-! ### Where only own entries go -/

/-- A value below an event as the platforms read it: missing, or a list with no `null` in it. -/
def plain : Tree → Bool
  | .null => true
  | .list groups => groups.all fun g => !g.isNull
  | _ => false

/-- An entry for every `null` in a list. -/
theorem length_others_flatMap (groups : List Tree) :
    (others (groups.flatMap groupEntries)).length =
      (others ((groups.filter fun g => !g.isNull).flatMap groupEntries)).length +
        (groups.filter Tree.isNull).length := by
  induction groups with
  | nil => rfl
  | cons g groups ih =>
    rw [List.flatMap_cons, others_append, List.length_append, ih, List.filter_cons,
      List.filter_cons]
    cases hnull : g.isNull with
    | true =>
      rw [Tree.isNull_iff.mp hnull]
      simp only [Bool.not_true, Bool.false_eq_true, if_false, if_true, List.length_cons]
      show 1 + _ = _
      omega
    | false =>
      simp only [Bool.not_false, if_true, List.flatMap_cons, others_append, List.length_append,
        Bool.false_eq_true, if_false]
      omega

/-- The entries that are left below an event. -/
theorem eventEntries_strippedValue (v : Tree) :
    eventEntries (strippedValue v) =
      others ((v.items.filter fun g => !g.isNull).flatMap groupEntries) := by
  rw [← flatMap_keptGroups, strippedValue]
  cases keptGroups v.items with
  | nil => rfl
  | cons g kept => rfl

/-- **Only own entries go** below an event exactly when its value is one the platforms read. -/
theorem eventEntries_strippedValue_iff (v : Tree) :
    eventEntries (strippedValue v) = others (eventEntries v) ↔ plain v = true := by
  rw [eventEntries_strippedValue]
  cases v with
  | null => exact ⟨fun _ => rfl, fun _ => rfl⟩
  | leaf text => exact iff_of_false (List.cons_ne_nil _ _).symm Bool.false_ne_true
  | str s => exact iff_of_false (List.cons_ne_nil _ _).symm Bool.false_ne_true
  | table fields => exact iff_of_false (List.cons_ne_nil _ _).symm Bool.false_ne_true
  | list groups =>
    show others ((groups.filter fun g => !g.isNull).flatMap groupEntries) =
      others (groups.flatMap groupEntries) ↔ (groups.all fun g => !g.isNull) = true
    constructor
    · intro h
      have hlength := length_others_flatMap groups
      rw [← h] at hlength
      have hnone : groups.filter Tree.isNull = [] := List.length_eq_zero_iff.mp (by omega)
      rw [List.all_eq_true]
      intro g hg
      simpa using List.filter_eq_nil_iff.mp hnone g hg
    · intro h
      rw [List.filter_eq_self.mpr (List.all_eq_true.mp h)]

end AgentHooks

end Beardrive
