import Beardrive.Journal.Replace
import Beardrive.Webapp.Upload
import Mathlib.Data.List.Dedup

/-!
# Undoing a run

The ops of one agent run are picked out of one journal by their session or their note. Undoing the
run writes one op for each path it touched: the version the path held before the run, or a delete
where it held none. The run itself stays in the history.

A path is left alone when the content it holds is already the content from before, and the two are
compared by their address alone. So a run that changed a mode, or that made or removed a symbolic
link, is not undone there: a link has no address. Nor is a link put back, since the op that is
written names the content and never the target.

## Main definitions

* `matchesRun`, `touchedPaths` — the run
* `beforeRun`, `undoFate`, `planUndo` — what undoing it writes
* `stateBefore`, `UndoesRun` — what undoing it is meant to do
* `Restorable` — a path the plan puts back

## Main results

* `undoes_run_iff` — the runs that are undone
-/

namespace Beardrive

/-! ### The plan -/

/-- `undoSel`: a run, by the journal it is in and its session or its note. -/
structure UndoSel where
  device : GoString
  session : GoString := []
  note : GoString := []

/-- `matchesRun`. -/
def matchesRun (sel : UndoSel) (so : SourcedOp) : Bool :=
  if so.origin ≠ sel.device then false
  else if sel.session ≠ [] then so.op.session == sel.session
  else so.op.note == sel.note && so.op.session == []

/-- The ops in replay order, each with its journal. -/
def sortSourced (sourced : List SourcedOp) : List SourcedOp :=
  sourced.insertionSort fun a b => less b.op a.op = false

/-- An op of the run on a path. -/
def runOn (sel : UndoSel) (p : GoString) (so : SourcedOp) : Bool :=
  matchesRun sel so && so.op.path == p

/-- The paths of the run. -/
def touchedPaths (sourced : List SourcedOp) (sel : UndoSel) : List GoString :=
  ((sourced.filter (matchesRun sel)).map (·.op.path)).dedup.mergeSort

/-- What comes before the first op of the run on a path. -/
def frontOf (sourced : List SourcedOp) (sel : UndoSel) (p : GoString) : List SourcedOp :=
  (sortSourced sourced).takeWhile fun so => !runOn sel p so

/-- The newest op on a path before the first of the run there. -/
def beforeRun (sourced : List SourcedOp) (sel : UndoSel) (p : GoString) : Option Op :=
  ((frontOf sourced sel p).map (·.op)).filter (fun op => op.path = p) |>.getLast?

/-- Whether an op on a path comes after the last of the run there. -/
def changedAfter (sourced : List SourcedOp) (sel : UndoSel) (p : GoString) : Bool :=
  ((sortSourced sourced).reverse.takeWhile fun so => !runOn sel p so).any fun so => so.op.path == p

/-- What becomes of a path. -/
inductive UndoFate where
  | refused
  | skipped
  | remove (op : Op)
  | restore (op : Op)

/-- The op that is written, if one is. -/
def UndoFate.op : UndoFate → Option Op
  | .remove op => some op
  | .restore op => some op
  | _ => none

/-- One round of the loop of `planUndo`. -/
def undoFate (sourced : List SourcedOp) (sel : UndoSel) (p : GoString) : UndoFate :=
  if cleanUploadPath p = none then .refused
  else
    let now := (replay (sourced.map (·.op)) p).getD {}
    match beforeRun sourced sel p with
    | some before =>
      if before.kind = .delete then
        if now.blob = [] then .skipped else .remove { kind := .delete, path := p }
      else if now.blob = before.blob then .skipped
      else .restore
        { kind := .put, path := p, blob := before.blob, size := before.size, mode := before.mode }
    | none => if now.blob = [] then .skipped else .remove { kind := .delete, path := p }

/-- `undoPlan`. -/
structure UndoPlan where
  ops : List Op
  actions : List (GoString × GoString)
  skipped : List GoString
  after : List GoString
  refused : List GoString

/-- `planUndo`. -/
def planUndo (sourced : List SourcedOp) (sel : UndoSel) : UndoPlan :=
  let paths := touchedPaths sourced sel
  let fate := undoFate sourced sel
  { ops := paths.filterMap fun p => (fate p).op
    actions := paths.filterMap fun p =>
      match fate p with
      | .remove _ => some (p, ascii "remove")
      | .restore _ => some (p, ascii "restore")
      | _ => none
    skipped := paths.filter fun p => match fate p with | .skipped => true | _ => false
    after := paths.filter fun p =>
      (match fate p with | .refused => false | _ => true) && changedAfter sourced sel p
    refused := paths.filter fun p => match fate p with | .refused => true | _ => false }

/-- `undoNote`. -/
def undoNote (sel : UndoSel) : GoString :=
  ascii "undo run " ++ if sel.session ≠ [] then sel.session else sel.note

/-- The ops of a plan as the handler appends them, by the account that asked. -/
def undoOps (user userName : GoString) (sel : UndoSel) (plan : UndoPlan) : List Op :=
  plan.ops.map fun op => { op with user, userName, note := undoNote sel }

/-! ### What undoing is meant to do -/

/-- What a path held immediately before the run's first op there. -/
def stateBefore (sourced : List SourcedOp) (sel : UndoSel) (p : GoString) : Option FileState :=
  replay ((frontOf sourced sel p).map (·.op)) p

/-- Stored with more ops behind, a run is undone: the paths it touched are as they were before it
or refused, no other path has changed, and nothing is left to undo. -/
def UndoesRun (sourced after : List SourcedOp) (sel : UndoSel) : Prop :=
  (∀ p ∈ touchedPaths sourced sel, p ∈ (planUndo sourced sel).refused ∨
      replay (after.map (·.op)) p = stateBefore sourced sel p) ∧
    (∀ p, p ∉ touchedPaths sourced sel ∨ p ∈ (planUndo sourced sel).refused →
      replay (after.map (·.op)) p = replay (sourced.map (·.op)) p) ∧
    (planUndo after sel).ops = []

/-- A path the plan puts back. Where the path held nothing before the run, what it holds now has
an address, if it holds anything. Where it held a file, the file has the same address now and
nothing else of it has changed, or it was no link. -/
def Restorable (sourced : List SourcedOp) (sel : UndoSel) (p : GoString) : Prop :=
  let now := replay (sourced.map (·.op)) p
  match beforeRun sourced sel p with
  | some before =>
    if before.kind = .delete then now = none ∨ (now.getD {}).blob ≠ []
    else if (now.getD {}).blob = before.blob then now = before.effect
    else before.link = []
  | none => now = none ∨ (now.getD {}).blob ≠ []

/-! ### The run and what comes before it -/

theorem sortSourced_eq (sourced : List SourcedOp) :
    sortSourced sourced = LastWriter.sort (fun so : SourcedOp => so.op.key) sourced := by
  simp only [sortSourced, LastWriter.sort, not_less_iff]

theorem mem_touchedPaths {sourced : List SourcedOp} {sel : UndoSel} {p : GoString} :
    p ∈ touchedPaths sourced sel ↔ ∃ so ∈ sourced, runOn sel p so = true := by
  simp only [touchedPaths, List.mem_mergeSort, List.mem_dedup, List.mem_map, List.mem_filter,
    runOn, Bool.and_eq_true, beq_iff_eq, and_assoc]

theorem nodup_touchedPaths (sourced : List SourcedOp) (sel : UndoSel) :
    (touchedPaths sourced sel).Nodup :=
  (List.mergeSort_perm _ _).nodup_iff.mpr (List.nodup_dedup _)

/-- What a path held before the run is what the op before the run left. -/
theorem stateBefore_eq (sourced : List SourcedOp) (sel : UndoSel) (p : GoString) :
    stateBefore sourced sel p = (beforeRun sourced sel p).bind Op.effect := by
  have hsorted : ((frontOf sourced sel p).map (·.op)).Pairwise fun a b => a.key ≤ b.key := by
    rw [List.pairwise_map, frontOf, sortSourced_eq]
    exact (LastWriter.sort_pairwise _ sourced).sublist (List.takeWhile_sublist _)
  rw [stateBefore, replay_eq_lastOp, lastOp, sortOps_eq, LastWriter.sort_of_pairwise hsorted]
  rfl

/-! ### Ops that come after everything -/

section Append

variable {front back : List SourcedOp} {sel : UndoSel} {device : HubDevice} {stamped : List Op}

/-- The stored ops with the stamped ones in the hub's own journal. -/
def appended (front back : List SourcedOp) (device : HubDevice) (stamped : List Op) :
    List SourcedOp :=
  front ++ stamped.map (SourcedOp.mk · device.id) ++ back

theorem appended_op : (appended front back device stamped).map (·.op) =
    front.map (·.op) ++ stamped ++ back.map (·.op) := by
  simp [appended, Function.comp_def]

/-- A path that no new op is on holds what it held. -/
theorem replay_appended_of_forall_ne {p : GoString} (h : ∀ u ∈ stamped, u.path ≠ p) :
    replay ((appended front back device stamped).map (·.op)) p =
      replay ((front ++ back).map (·.op)) p := by
  rw [appended_op, List.map_append, replay_eq_lastOp, replay_eq_lastOp, lastOp_append,
    lastOp_append, lastOp_append, lastOp_eq_none_iff.mpr h, later_none_right]

/-- A path that one new op is on holds what that op leaves. -/
theorem replay_appended_of_mem (hafter : ∀ u ∈ stamped, ∀ so ∈ front ++ back, less so.op u = true)
    {u : Op} (hu : u ∈ stamped) (huniq : ∀ v ∈ stamped, v.path = u.path → v = u) :
    replay ((appended front back device stamped).map (·.op)) u.path = u.effect := by
  rw [appended_op]
  refine replay_eq_of_greatest (by simp [hu]) fun o ho hpath hne => ?_
  have hstored {l : List SourcedOp} (hl : ∀ so ∈ l, so ∈ front ++ back)
      (ho : o ∈ l.map (·.op)) : less o u = true := by
    obtain ⟨so, hso, rfl⟩ := List.mem_map.mp ho
    exact hafter u hu so (hl so hso)
  simp only [List.mem_append] at ho
  rcases ho with (ho | ho) | ho
  · exact hstored (fun so hso => List.mem_append_left _ hso) ho
  · exact absurd (huniq o ho hpath) hne
  · exact hstored (fun so hso => List.mem_append_right _ hso) ho

/-- New ops that are not of the run leave the paths of the run as they are. -/
theorem mem_touchedPaths_appended
    (hrun : ∀ u ∈ stamped, matchesRun sel ⟨u, device.id⟩ = false) {p : GoString} :
    p ∈ touchedPaths (appended front back device stamped) sel ↔
      p ∈ touchedPaths (front ++ back) sel := by
  simp only [mem_touchedPaths, appended, List.mem_append, List.mem_map]
  constructor
  · rintro ⟨so, (hso | ⟨u, hu, rfl⟩) | hso, hrunOn⟩
    · exact ⟨so, .inl hso, hrunOn⟩
    · simp [runOn, hrun u hu] at hrunOn
    · exact ⟨so, .inr hso, hrunOn⟩
  · rintro ⟨so, hso | hso, hrunOn⟩
    · exact ⟨so, .inl (.inl hso), hrunOn⟩
    · exact ⟨so, .inr hso, hrunOn⟩

private theorem takeWhile_append_of_mem {α : Type*} {f : α → Bool} {l l' : List α} {a : α}
    (ha : a ∈ l) (hf : f a = false) : (l ++ l').takeWhile f = l.takeWhile f := by
  induction l with
  | nil => cases ha
  | cons b l ih =>
    rw [List.cons_append, List.takeWhile_cons, List.takeWhile_cons]
    split
    · rename_i hb
      rcases List.mem_cons.mp ha with rfl | ha
      · rw [hf] at hb
        cases hb
      · rw [ih ha]
    · rfl

/-- The op before the run is the same with ops behind everything. -/
theorem beforeRun_appended (hafter : ∀ u ∈ stamped, ∀ so ∈ front ++ back, less so.op u = true)
    {p : GoString} (hp : p ∈ touchedPaths (front ++ back) sel) :
    beforeRun (appended front back device stamped) sel p = beforeRun (front ++ back) sel p := by
  have hsort : sortSourced (appended front back device stamped) =
      sortSourced (front ++ back) ++ sortSourced (stamped.map (SourcedOp.mk · device.id)) := by
    simp only [sortSourced_eq]
    refine LastWriter.sort_between fun so hso v hv => ?_
    obtain ⟨u, hu, rfl⟩ := List.mem_map.mp hv
    exact less_iff.mp (hafter u hu so hso)
  obtain ⟨so, hso, hrunOn⟩ := mem_touchedPaths.mp hp
  have hfront : frontOf (appended front back device stamped) sel p =
      frontOf (front ++ back) sel p := by
    rw [frontOf, hsort]
    refine takeWhile_append_of_mem (a := so) ?_ (by simp [hrunOn])
    rw [sortSourced_eq]
    exact (LastWriter.mem_sort _).mpr hso
  rw [beforeRun, hfront, beforeRun]

end Append

/-! ### The planned ops -/

theorem undoFate_op {sourced : List SourcedOp} {sel : UndoSel} {p : GoString} {op : Op}
    (h : (undoFate sourced sel p).op = some op) : op.path = p ∧ op.session = [] := by
  unfold undoFate at h
  split at h
  · cases h
  · dsimp only at h
    split at h
    · split at h
      · split at h
        · cases h
        · rw [← Option.some.inj h]
          exact ⟨rfl, rfl⟩
      · split at h
        · cases h
        · rw [← Option.some.inj h]
          exact ⟨rfl, rfl⟩
    · split at h
      · cases h
      · rw [← Option.some.inj h]
        exact ⟨rfl, rfl⟩

/-- The plan has one op for a path. -/
theorem planUndo_paths (sourced : List SourcedOp) (sel : UndoSel) :
    (planUndo sourced sel).ops.map (·.path) =
      (touchedPaths sourced sel).filter fun p => (undoFate sourced sel p).op.isSome := by
  simp only [planUndo]
  induction touchedPaths sourced sel with
  | nil => rfl
  | cons p paths ih =>
    rw [List.filterMap_cons, List.filter_cons]
    cases h : (undoFate sourced sel p).op with
    | none => simpa using ih
    | some op => simpa [(undoFate_op h).1] using ih

theorem undoFate_ne_refused {sourced : List SourcedOp} {sel : UndoSel} {p : GoString}
    (h : cleanUploadPath p ≠ none) : undoFate sourced sel p ≠ .refused := by
  unfold undoFate
  rw [if_neg h]
  dsimp only
  cases beforeRun sourced sel p with
  | none => dsimp only; split <;> simp
  | some before => dsimp only; split <;> split <;> simp

theorem mem_refused {sourced : List SourcedOp} {sel : UndoSel} {p : GoString} :
    p ∈ (planUndo sourced sel).refused ↔
      p ∈ touchedPaths sourced sel ∧ cleanUploadPath p = none := by
  simp only [planUndo, List.mem_filter]
  refine and_congr_right fun _ => ?_
  by_cases hclean : cleanUploadPath p = none
  · simp [undoFate, hclean]
  · refine iff_of_false (fun h => ?_) hclean
    have hne := @undoFate_ne_refused sourced sel p hclean
    split at h
    · exact hne ‹_›
    · cases h

/-! ### The runs that are undone -/

section Undo

variable {front back : List SourcedOp} {sel : UndoSel} {device : HubDevice} {now : Time}
  {user userName : GoString} {stamped : List Op}

theorem mem_planUndo {sourced : List SourcedOp} {op : Op} :
    op ∈ (planUndo sourced sel).ops ↔
      ∃ p ∈ touchedPaths sourced sel, (undoFate sourced sel p).op = some op := by
  simp only [planUndo, List.mem_filterMap]

/-- What the handler appends is not of the run it undoes. -/
theorem not_matchesRun_of_stamp {sourced : List SourcedOp}
    (hstamp : stamp device now sourced
      (undoOps user userName sel (planUndo sourced sel)) = some stamped) :
    ∀ u ∈ stamped, matchesRun sel ⟨u, device.id⟩ = false := by
  intro u hu
  have hmap := stamp_map (f := fun op => (op.note, op.session)) (fun _ _ _ => rfl) hstamp
  have hmem : (u.note, u.session) ∈ stamped.map fun op => (op.note, op.session) :=
    List.mem_map.mpr ⟨u, hu, rfl⟩
  rw [hmap, undoOps, List.map_map] at hmem
  obtain ⟨op, hop, heq⟩ := List.mem_map.mp hmem
  obtain ⟨p, -, hfate⟩ := mem_planUndo.mp hop
  obtain ⟨hnote, hsession⟩ := Prod.mk.inj heq
  have hempty : u.session = [] := hsession ▸ (undoFate_op hfate).2
  unfold matchesRun
  split
  · rfl
  · split
    · rename_i hne
      rw [hempty]
      exact beq_eq_false_iff_ne.mpr (Ne.symm hne)
    · rename_i hnil
      -- the note of an undo is longer than the note it undoes
      have hlonger : undoNote sel ≠ sel.note := by
        rw [undoNote, if_neg hnil]
        intro h
        have hlen := congrArg List.length h
        simp only [List.length_append] at hlen
        have hpre : (ascii "undo run ").length = 9 := by decide
        omega
      simp [← hnote, hlonger]

/-- The new ops for a path are those of the plan. -/
theorem stamped_on {sourced : List SourcedOp}
    (hstamp : stamp device now sourced
      (undoOps user userName sel (planUndo sourced sel)) = some stamped) {p : GoString}
    (hp : p ∈ touchedPaths sourced sel) :
    match (undoFate sourced sel p).op with
    | none => ∀ u ∈ stamped, u.path ≠ p
    | some op => ∃ u ∈ stamped, u.path = p ∧ u.effect = op.effect ∧
        ∀ v ∈ stamped, v.path = u.path → v = u := by
  have hmap := stamp_map (f := fun op => (op.path, op.effect)) (fun _ _ _ => rfl) hstamp
  have hops : stamped.map (fun u => (u.path, u.effect)) =
      (planUndo sourced sel).ops.map fun op => (op.path, op.effect) := by
    rw [hmap, undoOps, List.map_map]
    rfl
  have hpaths : stamped.map (·.path) =
      (touchedPaths sourced sel).filter fun p => (undoFate sourced sel p).op.isSome := by
    have := congrArg (List.map Prod.fst) hops
    rwa [List.map_map, List.map_map, ← planUndo_paths] at *
  cases hfate : (undoFate sourced sel p).op with
  | none =>
    intro u hu hup
    have hmem : u.path ∈ stamped.map (·.path) := List.mem_map.mpr ⟨u, hu, rfl⟩
    rw [hpaths, hup] at hmem
    simp [hfate] at hmem
  | some op =>
    have hmem : (op.path, op.effect) ∈ stamped.map fun u => (u.path, u.effect) := by
      rw [hops]
      exact List.mem_map.mpr ⟨op, mem_planUndo.mpr ⟨p, hp, hfate⟩, rfl⟩
    obtain ⟨u, hu, heq⟩ := List.mem_map.mp hmem
    obtain ⟨hpath, heffect⟩ := Prod.mk.inj heq
    have hnodup : (stamped.map (·.path)).Nodup := by
      rw [hpaths]
      exact (nodup_touchedPaths _ _).filter _
    exact ⟨u, hu, hpath.trans (undoFate_op hfate).1, heffect, fun v hv hvu =>
      List.inj_on_of_nodup_map hnodup hv hu hvu⟩

/-- What a path of the run holds with the plan appended. -/
theorem replay_undone
    (hstamp : stamp device now (front ++ back)
      (undoOps user userName sel (planUndo (front ++ back) sel)) = some stamped)
    (hafter : ∀ u ∈ stamped, ∀ so ∈ front ++ back, less so.op u = true) {p : GoString}
    (hp : p ∈ touchedPaths (front ++ back) sel) :
    replay ((appended front back device stamped).map (·.op)) p =
      match (undoFate (front ++ back) sel p).op with
      | none => replay ((front ++ back).map (·.op)) p
      | some op => op.effect := by
  have hon := stamped_on hstamp hp
  cases hfate : (undoFate (front ++ back) sel p).op with
  | none =>
    rw [hfate] at hon
    exact replay_appended_of_forall_ne hon
  | some op =>
    rw [hfate] at hon
    obtain ⟨u, hu, rfl, heffect, huniq⟩ := hon
    rw [replay_appended_of_mem hafter hu huniq, heffect]

/-- A path is put back exactly when it is one the plan puts back. -/
theorem restored_iff {sourced : List SourcedOp} {p : GoString} (hclean : cleanUploadPath p ≠ none) :
    (match (undoFate sourced sel p).op with
      | none => replay (sourced.map (·.op)) p
      | some op => op.effect) = stateBefore sourced sel p ↔ Restorable sourced sel p := by
  rw [stateBefore_eq, undoFate, if_neg hclean, Restorable]
  dsimp only
  generalize replay (sourced.map (·.op)) p = held
  have hgone : (match (if (held.getD {}).blob = [] then UndoFate.skipped
      else .remove { kind := .delete, path := p }).op with
      | none => held
      | some op => op.effect) = none ↔ held = none ∨ (held.getD {}).blob ≠ [] := by
    by_cases hblob : (held.getD {}).blob = []
    · simp [hblob, UndoFate.op]
    · simp [hblob, UndoFate.op]
  cases beforeRun sourced sel p with
  | none => exact hgone
  | some before =>
    by_cases hkind : before.kind = .delete
    · simp only [hkind, if_true, Option.bind_some, Op.effect_delete hkind]
      exact hgone
    · have hput : before.kind = .put := by
        cases h : before.kind with
        | put => rfl
        | delete => exact absurd h hkind
      simp only [hkind, if_false, Option.bind_some]
      by_cases hblob : (held.getD {}).blob = before.blob
      · simp [hblob, UndoFate.op]
      · rw [Op.effect_put hput]
        simp [hblob, UndoFate.op, Op.effect, eq_comm]

/-- Once its paths are put back, a run has nothing left to undo. -/
theorem undoFate_undone (hafter : ∀ u ∈ stamped, ∀ so ∈ front ++ back, less so.op u = true)
    {p : GoString} (hp : p ∈ touchedPaths (front ++ back) sel)
    (hback : replay ((appended front back device stamped).map (·.op)) p =
      stateBefore (front ++ back) sel p) :
    (undoFate (appended front back device stamped) sel p).op = none := by
  rw [stateBefore_eq] at hback
  unfold undoFate
  split
  · rfl
  · dsimp only
    rw [hback, beforeRun_appended hafter hp]
    cases beforeRun (front ++ back) sel p with
    | none => rfl
    | some before =>
      cases hkind : before.kind with
      | delete => simp [hkind, UndoFate.op]
      | put => simp [hkind, UndoFate.op]

/-- **A run is undone exactly when every path it touched that the hub writes is one the plan puts
back.** -/
theorem undoes_run_iff
    (hstamp : stamp device now (front ++ back)
      (undoOps user userName sel (planUndo (front ++ back) sel)) = some stamped)
    (hafter : ∀ u ∈ stamped, ∀ so ∈ front ++ back, less so.op u = true) :
    UndoesRun (front ++ back) (appended front back device stamped) sel ↔
      ∀ p ∈ touchedPaths (front ++ back) sel, cleanUploadPath p ≠ none →
        Restorable (front ++ back) sel p := by
  constructor
  · rintro ⟨hback, -, -⟩ p hp hclean
    refine (restored_iff hclean).mp ?_
    rw [← replay_undone hstamp hafter hp]
    exact (hback p hp).resolve_left fun h => hclean (mem_refused.mp h).2
  · intro h
    have hback : ∀ p ∈ touchedPaths (front ++ back) sel, cleanUploadPath p ≠ none →
        replay ((appended front back device stamped).map (·.op)) p =
          stateBefore (front ++ back) sel p := by
      intro p hp hclean
      rw [replay_undone hstamp hafter hp]
      exact (restored_iff hclean).mpr (h p hp hclean)
    refine ⟨fun p hp => ?_, fun p hp => ?_, ?_⟩
    · by_cases hclean : cleanUploadPath p = none
      · exact .inl (mem_refused.mpr ⟨hp, hclean⟩)
      · exact .inr (hback p hp hclean)
    · by_cases htouched : p ∈ touchedPaths (front ++ back) sel
      · have hrefused : cleanUploadPath p = none :=
          (mem_refused.mp (hp.resolve_left (not_not.mpr htouched))).2
        rw [replay_undone hstamp hafter htouched, undoFate, if_pos hrefused]
        rfl
      · refine replay_appended_of_forall_ne fun u hu hup => htouched ?_
        have hmap := stamp_map (f := (·.path)) (fun _ _ _ => rfl) hstamp
        have hmem : u.path ∈ stamped.map (·.path) := List.mem_map.mpr ⟨u, hu, rfl⟩
        rw [hmap, undoOps, List.map_map] at hmem
        obtain ⟨op, hop, heq⟩ := List.mem_map.mp hmem
        obtain ⟨q, hq, hfate⟩ := mem_planUndo.mp hop
        have hpath : op.path = u.path := heq
        rwa [← hup, ← hpath, (undoFate_op hfate).1]
    · rw [planUndo, List.filterMap_eq_nil_iff]
      intro p hp
      rw [mem_touchedPaths_appended (not_matchesRun_of_stamp hstamp)] at hp
      by_cases hclean : cleanUploadPath p = none
      · rw [undoFate, if_pos hclean]
        rfl
      · exact undoFate_undone hafter hp (hback p hp hclean)

end Undo

/-- An agent makes a file. -/
def runOp : SourcedOp where
  op :=
    { seq := 1, lamport := 1, device := ascii "d", session := ascii "s", kind := .put,
      path := ascii "f", blob := ascii "b" }
  origin := ascii "d"

/-- An agent makes a symbolic link. -/
def linkRunOp : SourcedOp where
  op :=
    { seq := 1, lamport := 1, device := ascii "d", session := ascii "s", kind := .put,
      path := ascii "f", link := ascii "target" }
  origin := ascii "d"

/-- Their run. -/
def agentRun : UndoSel where
  device := ascii "d"
  session := ascii "s"

/-- The file is deleted. -/
theorem undoes_run_made_file :
    UndoesRun ([runOp] ++ []) (appended [runOp] [] ⟨ascii "hub", [], []⟩
        [{ seq := 1, lamport := 2, device := ascii "hub", kind := .delete, path := ascii "f",
           note := ascii "undo run s" }]) agentRun ↔
      ∀ p ∈ touchedPaths ([runOp] ++ []) agentRun, cleanUploadPath p ≠ none →
        Restorable ([runOp] ++ []) agentRun p :=
  @undoes_run_iff [runOp] [] agentRun _ {} [] [] _ (by decide +kernel) (by decide +kernel)

/-- The link stays, and is not reported. -/
theorem undo_leaves_link : ¬ ∀ (front back : List SourcedOp) (sel : UndoSel) (device : HubDevice)
    (now : Time) (user userName : GoString) (stamped : List Op),
    stamp device now (front ++ back)
        (undoOps user userName sel (planUndo (front ++ back) sel)) = some stamped →
      (∀ u ∈ stamped, ∀ so ∈ front ++ back, less so.op u = true) →
        UndoesRun (front ++ back) (appended front back device stamped) sel := by
  intro h
  have hstamp : stamp ⟨ascii "hub", [], []⟩ {} ([linkRunOp] ++ [])
      (undoOps [] [] agentRun (planUndo ([linkRunOp] ++ []) agentRun)) = some [] := by
    decide +kernel
  have hundone := (h [linkRunOp] [] agentRun _ {} [] [] [] hstamp (by simp)).1 (ascii "f")
    (by decide +kernel)
  exact absurd hundone (by decide +kernel)

end Beardrive
