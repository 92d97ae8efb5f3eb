import Beardrive.AgentHooks.Uninstall

/-!
# Registering the agent hooks

Three groups are registered: one that pulls when a turn starts, and two below the event of a tool
call, which push and record what was read. Each is told from the groups that are there by a marker,
and a marker is looked for in the whole JSON text of a group, wherever in it the marker may stand.
The first group that carries the marker is taken for the registered one and replaced, unless its
JSON text is the wanted one already.

A group that replaces another is not compared with it, so that whatever else the other held is lost
with it.

## Main definitions

* `converge`, `register` — one group put into a list, and into the table of hooks
* `Platform`, `Agent.platform` — what is registered for which agent
* `Platform.install` — `mergeJSONHooks` and `installHermes` on the decoded configuration

## Main results

* `converge_cases` — what happens to a list of groups
* `Platform.install_spec` — what every event holds afterwards
* `Platform.install_again` — a second run changes nothing
-/

namespace Beardrive

namespace AgentHooks

open Tree (Fields)

/-! ### The groups -/

/-- `containsMarker`. -/
def containsMarker (v : Tree) (m : GoString) : Bool := v.marshal.any fun text => contains text m

/-- A group that carries a marker. -/
def marked (m : GoString) (group : Tree) : Bool :=
  match group with
  | .table _ => containsMarker group m
  | _ => false

/-- `indexOfMarkerGroup`. -/
def indexOfMarkerGroup (arr : List Tree) (m : GoString) : Option ℕ := arr.findIdx? (marked m)

/-- `jsonEqual`. -/
def jsonEqual (a b : Tree) : Bool :=
  match a.marshal, b.marshal with
  | some da, some db => da == db
  | _, _ => false

/-- A list of groups with one registered, and whether that changed it. -/
def converge (arr : List Tree) (group : Fields) (m : GoString) : List Tree × Bool :=
  match indexOfMarkerGroup arr m with
  | some idx =>
    if arr[idx]?.any fun g => jsonEqual g (.table group) then (arr, false)
    else (arr.set idx (.table group), true)
  | none => (arr ++ [.table group], true)

/-- A group with its event and its marker. -/
structure Managed where
  event : GoString
  group : Fields
  marker : GoString

/-- One group of the loop over those to register. -/
def register (s : Fields × Bool) (g : Managed) : Fields × Bool :=
  let c := converge (valueAt s.1 g.event).items g.group g.marker
  if c.2 then (Table.set s.1 g.event (.list c.1), true) else s

/-- What is registered for a platform. -/
structure Groups where
  pullEvent : GoString
  pushEvent : GoString
  pull : Fields
  push : Fields
  read : Fields

/-- The groups in the order they are registered. -/
def Groups.managed (p : Groups) : List Managed :=
  [⟨p.pullEvent, p.pull, marker⟩, ⟨p.pushEvent, p.push, marker⟩, ⟨p.pushEvent, p.read, readMarker⟩]

/-- Whether the markers tell the groups apart and all their entries are own. -/
def Groups.apart (p : Groups) : Bool :=
  decide (p.pullEvent ≠ p.pushEvent) && decide (p.pullEvent ∈ ourEvents) &&
  decide (p.pushEvent ∈ ourEvents) &&
  marked marker (.table p.pull) && marked marker (.table p.push) &&
  marked readMarker (.table p.read) &&
  !marked readMarker (.table p.push) && !marked marker (.table p.read) &&
  [p.pull, p.push, p.read].all fun group => (stripOwnHooks (.table group)).1.isNull

/-- Groups that the markers tell apart, with own entries only. -/
structure Platform extends Groups where
  isApart : toGroups.apart = true

/-- Registering: the configuration afterwards, and whether the file was written. A map that a
`null` document left unmade is assigned to, which panics. -/
def Groups.install (p : Groups) (cfg : Config) : Option (Config × Bool) :=
  match cfg with
  | none => none
  | some root =>
    let s := p.managed.foldl register (cfg.hooks, false)
    some (if s.2 then (some (Table.set root hooksKey (.table s.1)), true) else (cfg, false))

/-! ### What happens to a list of groups -/

theorem marked_table {m : GoString} {g : Tree} (h : marked m g = true) :
    g.isNull = false ∧ containsMarker g m = true := by
  cases g with
  | table fields => exact ⟨rfl, h⟩
  | _ => exact absurd h Bool.false_ne_true

/-- A group with the JSON text of another carries the markers of the other. -/
theorem containsMarker_of_jsonEqual {a b : Tree} (h : jsonEqual a b = true) (m : GoString) :
    containsMarker a m = containsMarker b m := by
  rw [jsonEqual] at h
  split at h
  · rename_i da db ha hb
    rw [containsMarker, containsMarker, ha, hb, beq_iff_eq.mp h]
  · exact absurd h Bool.false_ne_true

theorem jsonEqual_self {m : GoString} {g : Tree} (h : containsMarker g m = true) :
    jsonEqual g g = true := by
  rw [containsMarker] at h
  rw [jsonEqual]
  cases hg : g.marshal with
  | none => simp [hg] at h
  | some text => simp

/-- The first group of a list that carries a marker, which is not yet the wanted one. -/
def outdated (arr : List Tree) (group : Fields) (m : GoString) : Option Tree :=
  (arr.find? (marked m)).filter fun g => !jsonEqual g (.table group)

/-- The first group of a list that carries a marker is the wanted one. -/
def Settled (arr : List Tree) (group : Fields) (m : GoString) : Prop :=
  ∃ g, arr.find? (marked m) = some g ∧ jsonEqual g (.table group) = true

/-- A list is cut at its first marked group, or has none. -/
theorem converge_cases (arr : List Tree) (group : Fields) (m : GoString) :
    (arr.find? (marked m) = none ∧ converge arr group m = (arr ++ [.table group], true)) ∨
    ∃ pre g post, arr = pre ++ g :: post ∧ pre.find? (marked m) = none ∧ marked m g = true ∧
      converge arr group m = if jsonEqual g (.table group) then (arr, false)
        else (pre ++ .table group :: post, true) := by
  cases hidx : indexOfMarkerGroup arr m with
  | none =>
    refine .inl ⟨?_, by rw [converge, hidx]⟩
    rw [List.find?_eq_none]
    intro g hg
    have := List.findIdx?_eq_none_iff.mp hidx g hg
    simp [this]
  | some idx =>
    obtain ⟨hlt, hmarked, hbefore⟩ := List.findIdx?_eq_some_iff_getElem.mp hidx
    refine .inr ⟨arr.take idx, arr[idx], arr.drop (idx + 1), ?_, ?_, hmarked, ?_⟩
    · rw [List.getElem_cons_drop hlt, List.take_append_drop]
    · rw [List.find?_eq_none]
      intro g hg
      obtain ⟨i, hi, rfl⟩ := List.mem_take_iff_getElem.mp hg
      simpa using hbefore i (by omega)
    · rw [converge, hidx]
      simp only [List.getElem?_eq_getElem hlt, Option.any_some]
      rw [List.set_eq_take_append_cons_drop, if_pos hlt]

/-- The list stays as it is exactly when the wanted group stands first. -/
theorem converge_settled {arr : List Tree} {group : Fields} {m : GoString} :
    (converge arr group m).2 = false ↔ Settled arr group m := by
  rcases converge_cases arr group m with ⟨hnone, hconv⟩ | ⟨pre, g, post, rfl, hpre, hg, hconv⟩
  · rw [hconv, Settled, hnone]
    simp
  · have hfind : (pre ++ g :: post).find? (marked m) = some g := by
      rw [List.find?_append, hpre, List.find?_cons_of_pos hg]
      rfl
    rw [hconv, Settled, hfind]
    by_cases heq : jsonEqual g (.table group) = true
    · simp [heq]
    · simp [heq]

theorem converge_of_settled {arr : List Tree} {group : Fields} {m : GoString}
    (h : Settled arr group m) : converge arr group m = (arr, false) := by
  have hfalse := converge_settled.mpr h
  rcases converge_cases arr group m with ⟨-, hconv⟩ | ⟨pre, g, post, rfl, -, -, hconv⟩
  · rw [hconv] at hfalse
    exact absurd hfalse (by simp)
  · rw [hconv] at hfalse ⊢
    split_ifs at hfalse ⊢ with heq
    · rfl

/-- What was registered is there. -/
theorem settled_converge {arr : List Tree} {group : Fields} {m : GoString}
    (hmarked : marked m (.table group) = true) : Settled (converge arr group m).1 group m := by
  have hself := jsonEqual_self (marked_table hmarked).2
  rcases converge_cases arr group m with ⟨hnone, hconv⟩ | ⟨pre, g, post, rfl, hpre, hg, hconv⟩
  · refine ⟨.table group, ?_, hself⟩
    rw [hconv, List.find?_append, hnone, List.find?_cons_of_pos hmarked]
    rfl
  · rw [hconv]
    by_cases heq : jsonEqual g (.table group) = true
    · refine ⟨g, ?_, heq⟩
      rw [if_pos heq, List.find?_append, hpre, List.find?_cons_of_pos hg]
      rfl
    · refine ⟨.table group, ?_, hself⟩
      rw [if_neg heq, List.find?_append, hpre, List.find?_cons_of_pos hmarked]
      rfl

/-- Registering a group of another marker leaves the first group of this one. -/
theorem find?_converge {arr : List Tree} {group : Fields} {m m' : GoString} {g : Tree}
    (hfind : arr.find? (marked m) = some g) (hother : marked m' g = false)
    (hgroup : marked m (.table group) = false) :
    (converge arr group m').1.find? (marked m) = some g := by
  rcases converge_cases arr group m' with ⟨-, hconv⟩ | ⟨pre, g', post, rfl, -, hg', hconv⟩
  · rw [hconv, List.find?_append, hfind]
    rfl
  · rw [hconv]
    split_ifs
    · exact hfind
    · rw [List.find?_append] at hfind ⊢
      cases hpre : pre.find? (marked m) with
      | some g₀ => rwa [hpre] at hfind
      | none =>
        rw [hpre, Option.none_or] at hfind
        rw [Option.none_or, List.find?_cons_of_neg (by simp [hgroup])]
        rw [List.find?_cons] at hfind
        split at hfind
        · rw [Option.some.inj hfind, hother] at hg'
          exact absurd hg' Bool.false_ne_true
        · exact hfind

/-! ### What a replaced group takes with it -/

section Rest

variable {β : Type*} {rest : List Tree → List β} {group : Fields}

/-- What is read from the groups of a list loses at most what the replaced group held. -/
theorem rest_converge (happ : ∀ xs ys, rest (xs ++ ys) = rest xs ++ rest ys)
    (hgroup : rest [.table group] = []) (arr : List Tree) (m : GoString) :
    (outdated arr group m = none ∧ rest (converge arr group m).1 = rest arr) ∨
    ∃ g front back, outdated arr group m = some g ∧ rest arr = front ++ rest [g] ++ back ∧
      rest (converge arr group m).1 = front ++ back := by
  rcases converge_cases arr group m with ⟨hnone, hconv⟩ | ⟨pre, g, post, rfl, hpre, hg, hconv⟩
  · refine .inl ⟨by rw [outdated, hnone]; rfl, ?_⟩
    rw [hconv, happ, hgroup, List.append_nil]
  · have hcut (x : Tree) : rest (pre ++ x :: post) = rest pre ++ rest [x] ++ rest post := by
      rw [happ, ← List.singleton_append, happ, List.append_assoc]
    have hout : outdated (pre ++ g :: post) group m =
        if jsonEqual g (.table group) then none else some g := by
      rw [outdated, List.find?_append, hpre, Option.none_or, List.find?_cons_of_pos hg]
      by_cases heq : jsonEqual g (.table group) = true
      · simp [Option.filter, heq]
      · simp [Option.filter, heq]
    by_cases heq : jsonEqual g (.table group) = true
    · rw [if_pos heq] at hout hconv
      exact .inl ⟨hout, by rw [hconv]⟩
    · rw [if_neg heq] at hout hconv
      refine .inr ⟨g, rest pre, rest post, hout, hcut g, ?_⟩
      rw [hconv, hcut, hgroup, List.append_nil]

theorem rest_converge_sublist (happ : ∀ xs ys, rest (xs ++ ys) = rest xs ++ rest ys)
    (hgroup : rest [.table group] = []) (arr : List Tree) (m : GoString) :
    (rest (converge arr group m).1).Sublist (rest arr) := by
  rcases rest_converge happ hgroup arr m with ⟨-, h⟩ | ⟨g, front, back, -, harr, h⟩
  · rw [h]
  · rw [h, harr, List.append_assoc]
    exact List.Sublist.append_left (List.sublist_append_right _ _) front

theorem rest_converge_iff (happ : ∀ xs ys, rest (xs ++ ys) = rest xs ++ rest ys)
    (hgroup : rest [.table group] = []) (arr : List Tree) (m : GoString) :
    rest (converge arr group m).1 = rest arr ↔ ∀ g ∈ outdated arr group m, rest [g] = [] := by
  rcases rest_converge happ hgroup arr m with ⟨hout, h⟩ | ⟨g, front, back, hout, harr, h⟩
  · simp [hout, h]
  · rw [h, harr, hout]
    constructor
    · intro heq g' hg'
      obtain rfl := Option.some.inj hg'
      have := congrArg List.length heq
      simp only [List.length_append] at this
      exact List.length_eq_zero_iff.mp (by omega)
    · intro hall
      rw [hall g rfl, List.append_nil]

end Rest

/-! ### The two events -/

namespace Platform

variable (p : Platform)

/-- The groups below the event of a turn, afterwards. -/
def pullItems (arr : List Tree) : List Tree := (converge arr p.pull marker).1

/-- The groups below the event of a tool call, afterwards. -/
def pushItems (arr : List Tree) : List Tree :=
  (converge (converge arr p.push marker).1 p.read readMarker).1

/-- The group that the read group replaces: the first other one that carries its marker. -/
def outdatedRead (arr : List Tree) : Option Tree :=
  outdated (arr.eraseP (marked marker)) p.read readMarker

variable {p}

theorem events_ne : p.pullEvent ≠ p.pushEvent := by
  have := p.isApart
  simp only [Groups.apart, Bool.and_eq_true, decide_eq_true_eq] at this
  exact this.1.1.1.1.1.1.1.1

theorem pullEvent_mem : p.pullEvent ∈ ourEvents := by
  have := p.isApart
  simp only [Groups.apart, Bool.and_eq_true, decide_eq_true_eq] at this
  exact this.1.1.1.1.1.1.1.2

theorem pushEvent_mem : p.pushEvent ∈ ourEvents := by
  have := p.isApart
  simp only [Groups.apart, Bool.and_eq_true, decide_eq_true_eq] at this
  exact this.1.1.1.1.1.1.2

theorem pull_marked : marked marker (.table p.pull) = true := by
  have := p.isApart
  simp only [Groups.apart, Bool.and_eq_true] at this
  exact this.1.1.1.1.1.2

theorem push_marked : marked marker (.table p.push) = true := by
  have := p.isApart
  simp only [Groups.apart, Bool.and_eq_true] at this
  exact this.1.1.1.1.2

theorem read_marked : marked readMarker (.table p.read) = true := by
  have := p.isApart
  simp only [Groups.apart, Bool.and_eq_true] at this
  exact this.1.1.1.2

theorem push_unread : marked readMarker (.table p.push) = false := by
  have := p.isApart
  simp only [Groups.apart, Bool.and_eq_true, Bool.not_eq_true'] at this
  exact this.1.1.2

theorem read_unmarked : marked marker (.table p.read) = false := by
  have := p.isApart
  simp only [Groups.apart, Bool.and_eq_true, Bool.not_eq_true'] at this
  exact this.1.2

/-- Nothing is left of a registered group. -/
theorem strip_own {group : Fields} (h : group ∈ [p.pull, p.push, p.read]) :
    (stripOwnHooks (.table group)).1.isNull = true := by
  have := p.isApart
  simp only [Groups.apart, Bool.and_eq_true] at this
  exact List.all_eq_true.mp this.2 group h

/-- A group that stands for the push group does not carry the marker of the read group. -/
theorem unread_of_jsonEqual {g : Tree} (h : jsonEqual g (.table p.push) = true) :
    marked readMarker g = false := by
  cases g with
  | table fields =>
    show containsMarker _ _ = false
    rw [containsMarker_of_jsonEqual h]
    exact push_unread
  | _ => rfl

/-- The read group is registered as if the first push group were not there. -/
theorem outdated_read (arr : List Tree) :
    outdated (converge arr p.push marker).1 p.read readMarker = p.outdatedRead arr := by
  suffices h : (converge arr p.push marker).1.find? (marked readMarker) =
      (arr.eraseP (marked marker)).find? (marked readMarker) by
    rw [outdatedRead, outdated, outdated, h]
  have hskip {x : Tree} (hx : marked readMarker x = false) (xs ys : List Tree) :
      (xs ++ x :: ys).find? (marked readMarker) = (xs ++ ys).find? (marked readMarker) := by
    rw [List.find?_append, List.find?_append, List.find?_cons_of_neg (by simp [hx])]
  rcases converge_cases arr p.push marker with
    ⟨hnone, hconv⟩ | ⟨pre, g, post, rfl, hpre, hg, hconv⟩
  · rw [hconv, hskip push_unread, List.append_nil]
    rw [List.eraseP_of_forall_not (List.find?_eq_none.mp hnone)]
  · rw [List.eraseP_append_right _ (List.find?_eq_none.mp hpre), List.eraseP_cons_of_pos hg, hconv]
    split_ifs with heq
    · exact hskip (unread_of_jsonEqual heq) pre post
    · exact hskip push_unread pre post

/-- Both groups of the event of a tool call at once. -/
theorem rest_pushItems_iff {β : Type*} {rest : List Tree → List β}
    (happ : ∀ xs ys, rest (xs ++ ys) = rest xs ++ rest ys) (hpush : rest [.table p.push] = [])
    (hread : rest [.table p.read] = []) (arr : List Tree) :
    rest (p.pushItems arr) = rest arr ↔
      (∀ g ∈ outdated arr p.push marker, rest [g] = []) ∧
        ∀ g ∈ p.outdatedRead arr, rest [g] = [] := by
  rw [← rest_converge_iff happ hpush, ← outdated_read, ← rest_converge_iff happ hread, pushItems]
  constructor
  · intro h
    have hfirst : rest (converge arr p.push marker).1 = rest arr := by
      refine (rest_converge_sublist happ hpush arr marker).eq_of_length_le ?_
      rw [← h]
      exact (rest_converge_sublist happ hread _ readMarker).length_le
    exact ⟨hfirst, h.trans hfirst.symm⟩
  · rintro ⟨hfirst, hsecond⟩
    exact hsecond.trans hfirst

end Platform

/-! ### What the run leaves -/

/-- Where a group is there already the value is a list. -/
theorem value_of_settled {v : Tree} {group : Fields} {m : GoString}
    (h : Settled v.items group m) : v = .list (converge v.items group m).1 := by
  rw [converge_of_settled h]
  obtain ⟨g, hfind, -⟩ := h
  cases v with
  | list items => rfl
  | _ => simp [Tree.items] at hfind

theorem register_of_settled {s : Fields × Bool} {g : Managed}
    (h : Settled (valueAt s.1 g.event).items g.group g.marker) : register s g = s := by
  rw [register, converge_of_settled h]
  rfl

/-- An event holds the list with the group registered, also where that was so before. -/
theorem valueAt_register (s : Fields × Bool) (g : Managed) (e : GoString) :
    valueAt (register s g).1 e =
      if e = g.event then .list (converge (valueAt s.1 g.event).items g.group g.marker).1
      else valueAt s.1 e := by
  cases hchanged : (converge (valueAt s.1 g.event).items g.group g.marker).2 with
  | true =>
    rw [register]
    simp only [hchanged, if_true]
    exact valueAt_set _ _ _ _
  | false =>
    have hsettled := converge_settled.mp hchanged
    rw [register_of_settled hsettled]
    split_ifs with he
    · rw [he]
      exact value_of_settled hsettled
    · rfl

/-- The mark of a change stays as it is exactly where the group is there already. -/
theorem register_changed (s : Fields × Bool) (g : Managed) :
    (register s g).2 = false ↔
      s.2 = false ∧ Settled (valueAt s.1 g.event).items g.group g.marker := by
  rw [← converge_settled, register]
  cases hchanged : (converge (valueAt s.1 g.event).items g.group g.marker).2 with
  | true => simp
  | false => simp

namespace Platform

variable (p : Platform)

/-- Every group is there already. -/
structure Registered (cfg : Config) : Prop where
  pull : Settled (cfg.eventOf p.pullEvent).items p.pull marker
  push : Settled (cfg.eventOf p.pushEvent).items p.push marker
  read : Settled (cfg.eventOf p.pushEvent).items p.read readMarker

/-- What the run leaves of a configuration. -/
structure Installed (before after : Config) : Prop where
  pull : after.eventOf p.pullEvent = .list (p.pullItems (before.eventOf p.pullEvent).items)
  push : after.eventOf p.pushEvent = .list (p.pushItems (before.eventOf p.pushEvent).items)
  elsewhere : ∀ e, e ≠ p.pullEvent → e ≠ p.pushEvent → after.eventOf e = before.eventOf e
  odd : after.oddHooks = none
  outside : ∀ k ≠ hooksKey, after.key k = before.key k

variable {p}

/-- A value below `hooks` that is no table has no event below it. -/
theorem oddHooks_of_eventOf {cfg : Config} {e : GoString} (h : cfg.eventOf e ≠ .null) :
    cfg.oddHooks = none := by
  have hhooks : cfg.hooks ≠ [] := by
    intro hnil
    rw [Config.eventOf, hnil] at h
    exact h rfl
  rw [Config.oddHooks]
  rw [Config.hooks] at hhooks
  split at hhooks
  · rename_i hooks hlookup
    rw [hlookup]
  · exact absurd rfl hhooks

/-- The loop over the groups. -/
theorem foldl_register (hooks : Fields) :
    (valueAt (p.managed.foldl register (hooks, false)).1 p.pullEvent =
      .list (p.pullItems (valueAt hooks p.pullEvent).items)) ∧
    (valueAt (p.managed.foldl register (hooks, false)).1 p.pushEvent =
      .list (p.pushItems (valueAt hooks p.pushEvent).items)) ∧
    (∀ e, e ≠ p.pullEvent → e ≠ p.pushEvent →
      valueAt (p.managed.foldl register (hooks, false)).1 e = valueAt hooks e) := by
  have hne := p.events_ne
  simp only [Groups.managed, List.foldl_cons, List.foldl_nil]
  refine ⟨?_, ?_, ?_⟩
  · rw [valueAt_register, if_neg hne, valueAt_register, if_neg hne, valueAt_register, if_pos rfl]
    rfl
  · rw [valueAt_register, if_pos rfl, valueAt_register, if_pos rfl, valueAt_register,
      if_neg hne.symm]
    rfl
  · intro e hpull hpush
    rw [valueAt_register, if_neg hpush, valueAt_register, if_neg hpush, valueAt_register,
      if_neg hpull]

/-- The loop changes nothing exactly when every group is there already. -/
theorem foldl_register_changed (cfg : Config) :
    (p.managed.foldl register (cfg.hooks, false)).2 = false ↔ p.Registered cfg := by
  simp only [Groups.managed, List.foldl_cons, List.foldl_nil]
  generalize hfirst : register (cfg.hooks, false) ⟨p.pullEvent, p.pull, marker⟩ = s
  have hpushValue : valueAt s.1 p.pushEvent = cfg.eventOf p.pushEvent := by
    rw [← hfirst, valueAt_register, if_neg p.events_ne.symm]
    rfl
  have hreadValue : (valueAt (register s ⟨p.pushEvent, p.push, marker⟩).1 p.pushEvent).items =
      (converge (cfg.eventOf p.pushEvent).items p.push marker).1 := by
    rw [valueAt_register, if_pos rfl, hpushValue]
    rfl
  rw [register_changed, register_changed, ← hfirst, register_changed, hfirst, hreadValue,
    hpushValue]
  constructor
  · rintro ⟨⟨⟨-, hpull⟩, hpush⟩, hread⟩
    rw [converge_of_settled hpush] at hread
    exact ⟨hpull, hpush, hread⟩
  · rintro ⟨hpull, hpush, hread⟩
    refine ⟨⟨⟨rfl, hpull⟩, hpush⟩, ?_⟩
    rw [converge_of_settled hpush]
    exact hread

/-- **What `install` leaves.** Both events hold their lists with the groups registered, and
nothing is written where every group was there already. -/
theorem install_spec (root : Fields) :
    ∃ after changed, p.install (some root) = some (some after, changed) ∧
      p.Installed (some root) (some after) ∧ (changed = false ↔ p.Registered (some root)) ∧
      (changed = false → after = root) := by
  have hchanged := p.foldl_register_changed (some root)
  obtain ⟨hpull, hpush, helse⟩ := p.foldl_register (Config.hooks (some root))
  rw [Groups.install]
  generalize hs : p.managed.foldl register (Config.hooks (some root), false) = s at *
  cases hs2 : s.2 with
  | true =>
    rw [hs2] at hchanged
    refine ⟨Table.set root hooksKey (.table s.1), true, by simp, ?_, hchanged,
      fun h => absurd h (by simp)⟩
    constructor
    · rw [Config.eventOf, Config.hooks_set]
      exact hpull
    · rw [Config.eventOf, Config.hooks_set]
      exact hpush
    · intro e h h'
      rw [Config.eventOf, Config.hooks_set]
      exact helse e h h'
    · exact Config.oddHooks_set _ _
    · intro k hk
      simp [Config.key, Table.lookup_set, hk]
  | false =>
    rw [hs2] at hchanged
    refine ⟨root, false, by simp, ?_, hchanged, fun _ => rfl⟩
    obtain ⟨hpull', hpush', hread'⟩ := hchanged.mp rfl
    have hpullEvent : Config.eventOf (some root) p.pullEvent =
        .list (p.pullItems (Config.eventOf (some root) p.pullEvent).items) :=
      value_of_settled hpull'
    have hpushEvent : Config.eventOf (some root) p.pushEvent =
        .list (p.pushItems (Config.eventOf (some root) p.pushEvent).items) := by
      rw [pushItems, converge_of_settled hpush']
      exact value_of_settled hread'
    refine ⟨hpullEvent, hpushEvent, fun _ _ _ => rfl, ?_, fun _ _ => rfl⟩
    refine oddHooks_of_eventOf (e := p.pullEvent) ?_
    rw [hpullEvent]
    exact Tree.noConfusion

/-- **A second run changes nothing.** -/
theorem install_again {before after : Config} (h : p.Installed before after) :
    p.install after = some (after, false) := by
  have hregistered : p.Registered after := by
    constructor
    · rw [h.pull]
      exact settled_converge p.pull_marked
    · rw [h.push]
      have hsettled : Settled (converge (before.eventOf p.pushEvent).items p.push marker).1
          p.push marker :=
        settled_converge p.push_marked
      obtain ⟨g, hfind, heq⟩ := hsettled
      exact ⟨g, find?_converge hfind (unread_of_jsonEqual heq) p.read_unmarked, heq⟩
    · rw [h.push]
      exact settled_converge p.read_marked
  cases after with
  | none =>
    have := h.pull
    exact absurd this Tree.noConfusion
  | some root =>
    obtain ⟨after, changed, hinstall, -, hchanged, hsame⟩ := p.install_spec root
    have := hchanged.mpr hregistered
    rw [hinstall, this, hsame this]

end Platform

end AgentHooks

end Beardrive
