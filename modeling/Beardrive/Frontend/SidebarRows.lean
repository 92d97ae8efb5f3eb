import Beardrive.Frontend.ProjectTree
import Mathlib.Data.List.Perm.Basic

/-!
# Every file of the tree is accounted for

A level shows some of its children, hides those beyond its cap and counts them, folds copies into
their originals, and puts housekeeping into a group that counts it while it is closed. Which levels
are laid out follows from that: a folder's is when the folder is shown and expanded. So a file whose
folders are expanded is in a row, or the first node on the way to it that has none is counted by its
level, once.

Two kinds of files are in neither. A copy of a copy that is itself folded is counted beside a row
that is not there. And a folder whose path is that of a copy is folded with all that is in it.

## Main definitions

* `shownAt`, `counters` — what a level shows, and the rows of it that count
* `Lays` — the levels that are laid out
* `HasRow`, `Placed` — nodes with rows, and where a file is accounted for
* `Accounts` — the sidebar accounts for a tree

## Main results

* `layLevel_perm` — what a level shows and what it hides
* `mem_levelRows_lays_iff` — the rows of a tree
* `ProjectTree.placed_unique`, `ProjectTree.exists_placed` — a file is accounted for at one place
* `ProjectTree.hasRow_selected` — the selected path has a row
* `ProjectTree.nodup_keys` — each row is there once
* `sidebar_accounts` — all of it
-/

namespace Beardrive.Sidebar

open Browser

section

variable (S : Stats) (V : View)

/-! ### One level -/

theorem map_node_kidsOf (cs : List Node) (i : ℕ) : (kidsOf S V cs i).map Kid.node = cs := by
  induction cs generalizing i with
  | nil => rfl
  | cons c cs ih => rw [kidsOf, List.map_cons, ih]

theorem map_id_kidsOf (cs : List Node) (i : ℕ) :
    (kidsOf S V cs i).map Kid.id = List.range' i cs.length := by
  induction cs generalizing i with
  | nil => rfl
  | cons c cs ih => rw [kidsOf, List.map_cons, ih, List.length_cons, List.range'_succ]

variable {S V} in
theorem rows_of_mem_kidsOf {cs : List Node} {i : ℕ} {k : Kid} (h : k ∈ kidsOf S V cs i) :
    k.rows = block S V k.node := by
  induction cs generalizing i with
  | nil => cases h
  | cons c cs ih =>
    rw [kidsOf] at h
    rcases List.mem_cons.mp h with rfl | h
    · rfl
    · exact ih h

theorem byLatest_perm (kids : List Kid) : (byLatest S kids).Perm kids :=
  List.perm_insertionSort _ kids

/-- Of a list without repetitions the picked ones are the front and those that are held. -/
theorem filter_pick_perm {plain byRecent shown held rest : List Kid}
    (hids : (plain.map Kid.id).Nodup) (hperm : byRecent.Perm plain)
    (hsplit : byRecent.Perm ((shown ++ held) ++ rest)) :
    (plain.filter fun k => ((shown ++ held).map Kid.id).contains k.id).Perm (shown ++ held) := by
  have hnodup : (((shown ++ held) ++ rest).map Kid.id).Nodup :=
    ((hperm.symm.trans hsplit).map Kid.id).nodup_iff.mp hids
  rw [List.map_append, List.nodup_append] at hnodup
  refine ((hperm.symm.trans hsplit).filter _).trans (List.Perm.of_eq ?_)
  rw [List.filter_append, List.filter_eq_self.mpr, List.filter_eq_nil_iff.mpr, List.append_nil]
  · intro k hk hpick
    have hmem := List.contains_iff_mem.mp hpick
    exact hnodup.2.2 _ hmem _ (List.mem_map_of_mem hk) rfl
  · intro k hk
    exact List.contains_iff_mem.mpr (List.mem_map_of_mem hk)

/-- **What a level shows and what it hides.** What is hidden is counted, and is not on the way to
the selected path. -/
theorem layLevel_perm (parent : List ℕ) {kids : List Kid} (hids : (kids.map Kid.id).Nodup)
    (depth : ℕ) : ∃ rest : List Kid,
      ((layLevel S V parent kids depth).plain ++ rest).Perm (plainKids S kids) ∧
      ((layLevel S V parent kids depth).hidden = some rest.length ∨
        (layLevel S V parent kids depth).hidden = none ∧ rest = []) ∧
      ∀ k ∈ rest, V.onKeepPath k.node.path = false := by
  have hplain : (if V.recent then byLatest S (plainKids S kids) else plainKids S kids).Perm
      (plainKids S kids) := by
    split_ifs
    · exact byLatest_perm S _
    · exact .refl _
  have hsub : ((plainKids S kids).map Kid.id).Nodup :=
    hids.sublist (List.filter_sublist.map Kid.id)
  rw [layLevel]
  generalize (if V.recent then byLatest S (plainKids S kids) else plainKids S kids) = plain at *
  have hplainIds : (plain.map Kid.id).Nodup := (hplain.map Kid.id).nodup_iff.mpr hsub
  split_ifs with hcap
  · have hrecent := byLatest_perm S plain
    generalize byLatest S plain = byRecent at hrecent
    have hfilter := List.filter_append_perm (fun k : Kid => V.onKeepPath k.node.path)
      (byRecent.drop V.cap)
    have hsplit : byRecent.Perm ((byRecent.take V.cap ++
        (byRecent.drop V.cap).filter fun k => V.onKeepPath k.node.path) ++
          (byRecent.drop V.cap).filter fun k => !V.onKeepPath k.node.path) := by
      rw [List.append_assoc]
      nth_rewrite 1 [← List.take_append_drop V.cap byRecent]
      exact hfilter.symm.append_left _
    have hpick := filter_pick_perm hplainIds hrecent hsplit
    refine ⟨(byRecent.drop V.cap).filter fun k => !V.onKeepPath k.node.path, ?_, .inl ?_, ?_⟩
    · exact (hpick.append_right _).trans ((hsplit.symm.trans hrecent).trans hplain)
    · have hlen := (hrecent.symm.trans hsplit).length_eq
      rw [List.length_append, List.length_append] at hlen
      dsimp only
      rw [hlen]
      congr 1
      omega
    · intro k hk
      simpa using (List.mem_filter.mp hk).2
  · refine ⟨[], ?_, .inr ⟨rfl, rfl⟩, nofun⟩
    rw [List.append_nil]
    exact hplain

/-! ### The level of a folder -/

/-- Neither folded nor housekeeping. -/
def plainNode (n : Node) : Bool := !isFoldedCopy S n.path && !isSystemName n.name

/-- Housekeeping. -/
def systemNode (n : Node) : Bool := !isFoldedCopy S n.path && isSystemName n.name

/-- A folder's level, laid out at a depth. -/
def laid (P : Node) (depth : ℕ) : Laid := layLevel S V P.path (kidsOf S V P.children 0) depth

/-- Its rows. -/
def levelRows (P : Node) (depth : ℕ) : List TreeRow :=
  level S V P.path (kidsOf S V P.children 0) depth

/-- The row of a node. -/
def nodeRow (n : Node) (depth : ℕ) : TreeRow :=
  .node n depth (if n.dir then 0 else S.conflicts n.path)
    (if n.dir then (lookupLast S.fresh n.path).getD 0 else 0)

theorem block_eq (n : Node) (depth : ℕ) : block S V n depth = nodeRow S n depth ::
    if n.dir && V.expanded n.path then levelRows S V n (depth + 1) else [] := by
  cases n
  rfl

theorem system_laid (P : Node) (depth : ℕ) :
    (laid S V P depth).system = systemKids S (kidsOf S V P.children 0) := by
  rw [laid, layLevel]
  dsimp only
  split_ifs
  all_goals rfl

theorem isOpen_laid (P : Node) (depth : ℕ) : (laid S V P depth).isOpen =
    (V.expanded (systemKey P.path) ||
      (P.children.filter (systemNode S)).any fun n => V.onKeepPath n.path) := by
  have hnodes : P.children.filter (systemNode S) =
      (systemKids S (kidsOf S V P.children 0)).map Kid.node := by
    nth_rewrite 1 [← map_node_kidsOf S V P.children 0]
    rw [List.filter_map]
    rfl
  rw [hnodes, List.any_map, laid, layLevel]
  dsimp only
  split_ifs
  all_goals rfl

/-- The nodes of the system group. -/
theorem map_system_laid (P : Node) (depth : ℕ) :
    (laid S V P depth).system.map Kid.node = P.children.filter (systemNode S) := by
  nth_rewrite 1 [← map_node_kidsOf S V P.children 0]
  rw [system_laid, List.filter_map]
  rfl

/-- **The nodes a level shows and those it hides.** -/
theorem laid_perm (P : Node) (depth : ℕ) : ∃ rest : List Node,
    ((laid S V P depth).plain.map Kid.node ++ rest).Perm (P.children.filter (plainNode S)) ∧
    ((laid S V P depth).hidden = some rest.length ∨
      (laid S V P depth).hidden = none ∧ rest = []) ∧
    ∀ n ∈ rest, V.onKeepPath n.path = false := by
  have hids : ((kidsOf S V P.children 0).map Kid.id).Nodup := by
    rw [map_id_kidsOf]
    exact List.nodup_range'
  obtain ⟨rest, hperm, hhidden, hkeep⟩ := layLevel_perm S V P.path hids depth
  refine ⟨rest.map Kid.node, ?_, ?_, ?_⟩
  · have hmap := hperm.map Kid.node
    rw [List.map_append] at hmap
    nth_rewrite 1 [← map_node_kidsOf S V P.children 0]
    rw [List.filter_map]
    exact hmap
  · rw [List.length_map]
    rcases hhidden with h | ⟨h, rfl⟩
    · exact .inl h
    · exact .inr ⟨h, rfl⟩
  · rw [List.forall_mem_map]
    exact hkeep

/-- What a level shows, with its depth. -/
def shownAt (P : Node) (depth : ℕ) : List (Node × ℕ) :=
  ((laid S V P depth).plain.map Kid.node).map (·, depth) ++
    if (laid S V P depth).isOpen then (P.children.filter (systemNode S)).map (·, depth + 1) else []

/-- The rows of a level that count. -/
def counters (P : Node) (depth : ℕ) : List TreeRow :=
  ((laid S V P depth).hidden.map (TreeRow.more P.path depth)).toList ++
    if P.children.filter (systemNode S) = [] then []
    else [.system P.path depth (P.children.filter (systemNode S)).length
      (laid S V P depth).isOpen]

theorem emit_eq {kids : List Kid} (h : ∀ k ∈ kids, k.rows = block S V k.node) (depth : ℕ) :
    emit kids depth =
      ((kids.map Kid.node).map (·, depth)).flatMap fun x => block S V x.1 x.2 := by
  rw [emit, List.map_map, List.flatMap_map]
  exact List.flatMap_congr fun k hk => congrFun (h k hk) depth

/-- **The rows of a level** are those of what it shows and those that count. -/
theorem levelRows_perm (P : Node) (depth : ℕ) : (levelRows S V P depth).Perm
    (((shownAt S V P depth).flatMap fun x => block S V x.1 x.2) ++ counters S V P depth) := by
  have hplain : ∀ k ∈ (laid S V P depth).plain, k.rows = block S V k.node := by
    intro k hk
    have hids : ((kidsOf S V P.children 0).map Kid.id).Nodup := by
      rw [map_id_kidsOf]
      exact List.nodup_range'
    obtain ⟨rest, hperm, -⟩ := layLevel_perm S V P.path hids depth
    exact rows_of_mem_kidsOf
      (List.mem_filter.mp (hperm.mem_iff.mp (List.mem_append_left rest hk))).1
  have hsystem : ∀ k ∈ (laid S V P depth).system, k.rows = block S V k.node := by
    intro k hk
    rw [system_laid] at hk
    exact rows_of_mem_kidsOf (List.mem_filter.mp hk).1
  have hnil : (laid S V P depth).system = [] ↔ P.children.filter (systemNode S) = [] := by
    rw [← map_system_laid S V P depth, List.map_eq_nil_iff]
  have hlen : (laid S V P depth).system.length = (P.children.filter (systemNode S)).length := by
    rw [← map_system_laid S V P depth, List.length_map]
  have hlevel : levelRows S V P depth = emit (laid S V P depth).plain depth ++
      ((laid S V P depth).hidden.map (TreeRow.more P.path depth)).toList ++
      if (laid S V P depth).system = [] then []
      else .system P.path depth (laid S V P depth).system.length (laid S V P depth).isOpen ::
        if (laid S V P depth).isOpen then emit (laid S V P depth).system (depth + 1) else [] := rfl
  rw [hlevel, emit_eq S V hplain, emit_eq S V hsystem, map_system_laid, shownAt, counters, hlen,
    List.flatMap_append, List.append_assoc, List.append_assoc]
  refine List.Perm.append_left _ ?_
  by_cases hempty : P.children.filter (systemNode S) = []
  · rw [if_pos (hnil.mpr hempty), if_pos hempty, hempty]
    cases (laid S V P depth).isOpen with
    | true => exact .refl _
    | false => exact .refl _
  · rw [if_neg (mt hnil.mp hempty), if_neg hempty]
    cases (laid S V P depth).isOpen with
    | true =>
      rw [if_pos rfl, if_pos rfl, List.append_cons]
      exact List.perm_append_comm
    | false => exact .refl _

/-! ### The rows of a tree -/

theorem mem_block_iff {n : Node} {depth : ℕ} {r : TreeRow} : r ∈ block S V n depth ↔
    r = nodeRow S n depth ∨
      (n.dir = true ∧ V.expanded n.path = true) ∧ r ∈ levelRows S V n (depth + 1) := by
  rw [block_eq, List.mem_cons]
  refine or_congr_right ?_
  by_cases h : n.dir = true ∧ V.expanded n.path = true
  · rw [if_pos (by rw [h.1, h.2]; rfl)]
    exact (and_iff_right h).symm
  · rw [if_neg (by simpa using h)]
    exact iff_of_false List.not_mem_nil fun h' => h h'.1

theorem mem_levelRows_iff {P : Node} {depth : ℕ} {r : TreeRow} : r ∈ levelRows S V P depth ↔
    (∃ n e, (n, e) ∈ shownAt S V P depth ∧ r ∈ block S V n e) ∨ r ∈ counters S V P depth := by
  rw [(levelRows_perm S V P depth).mem_iff, List.mem_append, List.mem_flatMap, Prod.exists]

/-- What is shown of a level: plain children at its depth, and those of an open group one deeper. -/
theorem mem_shownAt {P n : Node} {depth e : ℕ} (h : (n, e) ∈ shownAt S V P depth) :
    n ∈ P.children ∧ ((plainNode S n = true ∧ e = depth) ∨
      (systemNode S n = true ∧ e = depth + 1 ∧ (laid S V P depth).isOpen = true)) := by
  obtain ⟨rest, hperm, -⟩ := laid_perm S V P depth
  rcases List.mem_append.mp h with h | h
  · obtain ⟨m, hm, heq⟩ := List.mem_map.mp h
    obtain ⟨rfl, rfl⟩ := Prod.mk.inj heq
    obtain ⟨hmem, hplain⟩ := List.mem_filter.mp (hperm.mem_iff.mp (List.mem_append_left rest hm))
    exact ⟨hmem, .inl ⟨hplain, rfl⟩⟩
  · split_ifs at h with hopen
    · obtain ⟨m, hm, heq⟩ := List.mem_map.mp h
      obtain ⟨rfl, rfl⟩ := Prod.mk.inj heq
      obtain ⟨hmem, hsystem⟩ := List.mem_filter.mp hm
      exact ⟨hmem, .inr ⟨hsystem, rfl, hopen⟩⟩
    · cases h

theorem not_systemNode {n : Node} (h : plainNode S n = true) : systemNode S n = false := by
  rw [plainNode, Bool.and_eq_true] at h
  rw [systemNode, Bool.and_eq_false_iff]
  exact .inr (by simpa using h.2)

variable {S V} in
/-- A child is shown at one depth. -/
theorem shownAt_depth {P n : Node} {depth e e' : ℕ} (h : (n, e) ∈ shownAt S V P depth)
    (h' : (n, e') ∈ shownAt S V P depth) : e = e' := by
  rcases (mem_shownAt S V h).2 with ⟨hplain, rfl⟩ | ⟨hsystem, rfl, -⟩
  · rcases (mem_shownAt S V h').2 with ⟨-, rfl⟩ | ⟨hsystem', -⟩
    · rfl
    · rw [not_systemNode S hplain] at hsystem'
      cases hsystem'
  · rcases (mem_shownAt S V h').2 with ⟨hplain', -⟩ | ⟨-, rfl, -⟩
    · rw [not_systemNode S hplain'] at hsystem
      cases hsystem
    · rfl

/-- Levels that are laid out, each of a folder that is shown in the one before and expanded. -/
inductive Lays : Node → ℕ → List Node → Node → ℕ → Prop
  | here {P d} : Lays P d [] P d
  | into {P d a e as Q f} : (a, e) ∈ shownAt S V P d → a.dir = true →
      V.expanded a.path = true → Lays a (e + 1) as Q f → Lays P d (a :: as) Q f

variable {S V}

theorem Lays.leads {P Q : Node} {d e : ℕ} {as : List Node} (h : Lays S V P d as Q e) :
    Leads P as Q := by
  induction h with
  | here => exact .here
  | into hshown hdir _ _ ih => exact .into (mem_shownAt S V hshown).1 hdir ih

theorem Lays.append {P Q R : Node} {d e f : ℕ} {as bs : List Node} (h : Lays S V P d as Q e)
    (h' : Lays S V Q e bs R f) : Lays S V P d (as ++ bs) R f := by
  induction h with
  | here => exact h'
  | into hshown hdir hexp _ ih => exact .into hshown hdir hexp (ih h')

theorem Lays.snoc {P Q a : Node} {d e f : ℕ} {as : List Node} (h : Lays S V P d as Q e)
    (hshown : (a, f) ∈ shownAt S V Q e) (hdir : a.dir = true) (hexp : V.expanded a.path = true) :
    Lays S V P d (as ++ [a]) a (f + 1) := h.append (.into hshown hdir hexp .here)

theorem Lays.split {P Q : Node} {d e : ℕ} {as bs : List Node} (h : Lays S V P d (as ++ bs) Q e) :
    ∃ R f, Lays S V P d as R f ∧ Lays S V R f bs Q e := by
  induction as generalizing P d with
  | nil => exact ⟨P, d, .here, h⟩
  | cons a as ih =>
    cases h with
    | into hshown hdir hexp hrest =>
      obtain ⟨R, f, hR, hQ⟩ := ih hrest
      exact ⟨R, f, .into hshown hdir hexp hR, hQ⟩

/-- A level is laid out at one depth. -/
theorem Lays.depth_unique {P Q R : Node} {d e f : ℕ} {as : List Node} (h : Lays S V P d as Q e)
    (h' : Lays S V P d as R f) : e = f := by
  induction h with
  | here =>
    cases h' with
    | here => rfl
  | into hshown _ _ _ ih =>
    cases h' with
    | into hshown' _ _ hrest =>
      obtain rfl := shownAt_depth hshown hshown'
      exact ih hrest

/-- **The rows of a tree** are those of the nodes its levels show, and those that count. -/
theorem mem_levelRows_lays_iff {P : Node} {d : ℕ} {r : TreeRow} : r ∈ levelRows S V P d ↔
    ∃ as Q e, Lays S V P d as Q e ∧
      ((∃ n f, (n, f) ∈ shownAt S V Q e ∧ r = nodeRow S n f) ∨ r ∈ counters S V Q e) := by
  constructor
  · induction P using Node.induction generalizing d with
    | h P ih =>
      intro h
      rcases (mem_levelRows_iff S V).mp h with ⟨n, e, hshown, hr⟩ | hr
      · rcases (mem_block_iff S V).mp hr with rfl | ⟨⟨hdir, hexp⟩, hr⟩
        · exact ⟨[], P, d, .here, .inl ⟨n, e, hshown, rfl⟩⟩
        · obtain ⟨as, Q, f, hQ, hr⟩ := ih n (mem_shownAt S V hshown).1 hr
          exact ⟨n :: as, Q, f, .into hshown hdir hexp hQ, hr⟩
      · exact ⟨[], P, d, .here, .inr hr⟩
  · rintro ⟨as, Q, e, h, hr⟩
    induction h with
    | here =>
      refine (mem_levelRows_iff S V).mpr (hr.imp_left ?_)
      rintro ⟨n, f, hshown, rfl⟩
      exact ⟨n, f, hshown, (mem_block_iff S V).mpr (.inl rfl)⟩
    | into hshown hdir hexp _ ih =>
      exact (mem_levelRows_iff S V).mpr (.inl ⟨_, _, hshown,
        (mem_block_iff S V).mpr (.inr ⟨⟨hdir, hexp⟩, ih hr⟩)⟩)

/-! ### Rows of nodes -/

/-- A node has a row. -/
def HasRow (rows : List TreeRow) (n : Node) : Prop :=
  ∃ depth conflicts fresh, TreeRow.node n depth conflicts fresh ∈ rows

theorem not_node_of_mem_counters {P n : Node} {d depth c f : ℕ} :
    TreeRow.node n depth c f ∉ counters S V P d := by
  intro h
  rcases List.mem_append.mp h with h | h
  · obtain ⟨k, -, hk⟩ := Option.map_eq_some_iff.mp (Option.mem_toList.mp h)
    cases hk
  · split_ifs at h
    · cases h
    · cases List.mem_singleton.mp h

namespace ProjectTree

variable (T : ProjectTree)

/-- **A node has a row** exactly when its level is laid out and shows it. -/
theorem hasRow_iff {as : List Node} {P n : Node} (hP : Leads T.root as P)
    (hn : n ∈ P.children) : HasRow (buildRows S V T.root) n ↔
      ∃ d e, Lays S V T.root 0 as P d ∧ (n, e) ∈ shownAt S V P d := by
  constructor
  · rintro ⟨depth, c, f, h⟩
    obtain ⟨bs, Q, d, hQ, h⟩ := mem_levelRows_lays_iff.mp h
    rcases h with ⟨m, e, hshown, heq⟩ | h
    · obtain ⟨rfl, -⟩ := TreeRow.node.inj heq
      obtain ⟨rfl, rfl, -⟩ := T.unique hP hQ.leads hn (mem_shownAt S V hshown).1 rfl
      exact ⟨d, e, hQ, hshown⟩
    · exact absurd h not_node_of_mem_counters
  · rintro ⟨d, e, hlays, hshown⟩
    exact ⟨e, _, _, mem_levelRows_lays_iff.mpr ⟨as, P, d, hlays, .inl ⟨n, e, hshown, rfl⟩⟩⟩

/-- **A level is laid out** exactly when the folders on its way have rows and are expanded. -/
theorem lays_iff {as : List Node} {P : Node} (hP : Leads T.root as P) :
    (∃ d, Lays S V T.root 0 as P d) ↔
      ∀ a ∈ as, HasRow (buildRows S V T.root) a ∧ V.expanded a.path = true := by
  induction as using List.reverseRecOn generalizing P with
  | nil =>
    cases hP
    exact iff_of_true ⟨0, .here⟩ nofun
  | append_singleton as a ih =>
    obtain ⟨R, hR, ha⟩ := hP.split
    cases ha with
    | into hmem hdir hend =>
      cases hend
      rw [List.forall_mem_append, List.forall_mem_singleton, ← ih hR, T.hasRow_iff hR hmem]
      constructor
      · rintro ⟨d, h⟩
        obtain ⟨R', f, hR', ha⟩ := h.split
        obtain rfl := hR.end_unique hR'.leads
        cases ha with
        | into hshown _ hexp _ => exact ⟨⟨f, hR'⟩, ⟨f, _, hR', hshown⟩, hexp⟩
      · rintro ⟨-, ⟨d, e, hlays, hshown⟩, hexp⟩
        exact ⟨e + 1, hlays.snoc hshown hdir hexp⟩

end ProjectTree

/-! ### Places -/

/-- Where a file is accounted for: in a row, or in the number of a level. -/
inductive Place
  | row
  | more (parent : List ℕ)
  | system (parent : List ℕ)

/-- The first node of a way that has no row, and the folder it is in. -/
structure FirstHidden (root : Node) (rows : List TreeRow) (way : List Node) (R m : Node) :
    Prop where
  split : ∃ front rest, way = front ++ m :: rest ∧ Leads root front R ∧
    ∀ a ∈ front, HasRow rows a
  child : m ∈ R.children
  hidden : ¬ HasRow rows m

variable (S V) in
/-- **A way is accounted for at a place**: all of it has rows; or the first node of it that has none
is one of those that a row of its level counts, each of them once. -/
def Placed (root : Node) (way : List Node) : Place → Prop
  | .row => ∀ n ∈ way, HasRow (buildRows S V root) n
  | .more p => ∃ R m, FirstHidden root (buildRows S V root) way R m ∧ R.path = p ∧
      plainNode S m = true ∧ ∃ (depth : ℕ) (hidden : List Node), hidden.Nodup ∧
        (∀ c, c ∈ hidden ↔ c ∈ R.children ∧ plainNode S c = true ∧
          ¬ HasRow (buildRows S V root) c) ∧
        TreeRow.more p depth hidden.length ∈ buildRows S V root
  | .system p => ∃ R m, FirstHidden root (buildRows S V root) way R m ∧ R.path = p ∧
      systemNode S m = true ∧ ∃ depth,
        TreeRow.system p depth (R.children.filter (systemNode S)).length false ∈
          buildRows S V root

/-- The first of a list that fails. -/
theorem exists_first {α : Type*} {p : α → Prop} {l : List α} (h : ¬ ∀ a ∈ l, p a) :
    ∃ front m rest, l = front ++ m :: rest ∧ (∀ a ∈ front, p a) ∧ ¬ p m := by
  induction l with
  | nil => exact absurd nofun h
  | cons a l ih =>
    by_cases ha : p a
    · have hl : ¬ ∀ b ∈ l, p b := by
        intro hall
        exact h (List.forall_mem_cons.mpr ⟨ha, hall⟩)
      obtain ⟨front, m, rest, rfl, hfront, hm⟩ := ih hl
      exact ⟨a :: front, m, rest, rfl, List.forall_mem_cons.mpr ⟨ha, hfront⟩, hm⟩
    · exact ⟨[], a, l, rfl, nofun, ha⟩

/-- And there is one. -/
theorem first_unique {α : Type*} {p : α → Prop} {front front' rest rest' : List α} {m m' : α}
    (heq : front ++ m :: rest = front' ++ m' :: rest') (hfront : ∀ a ∈ front, p a)
    (hfront' : ∀ a ∈ front', p a) (hm : ¬ p m) (hm' : ¬ p m') : front = front' ∧ m = m' := by
  induction front generalizing front' with
  | nil =>
    cases front' with
    | nil => exact ⟨rfl, (List.cons.inj heq).1⟩
    | cons b front' => exact absurd (hfront' m (by simp [(List.cons.inj heq).1])) hm
  | cons a front ih =>
    cases front' with
    | nil => exact absurd (hfront m' (by simp [← (List.cons.inj heq).1])) hm'
    | cons b front' =>
      obtain ⟨rfl, hrest⟩ := List.cons.inj heq
      obtain ⟨rfl, hsame⟩ := ih hrest (List.forall_mem_cons.mp hfront).2
        (List.forall_mem_cons.mp hfront').2
      exact ⟨rfl, hsame⟩

/-- A place on the way to a child is a child of a folder on it. -/
theorem Leads.child_of_split {P Q f m : Node} {as front rest : List Node} (h : Leads P as Q)
    (hf : f ∈ Q.children) (heq : as ++ [f] = front ++ m :: rest) :
    ∃ R, Leads P front R ∧ m ∈ R.children ∧ front ⊆ as := by
  rcases List.eq_nil_or_concat rest with rfl | ⟨rest', b, rfl⟩
  · obtain ⟨rfl, hm⟩ := List.append_inj' heq rfl
    rw [← (List.cons.inj hm).1]
    exact ⟨Q, h, hf, List.Subset.refl _⟩
  · rw [List.concat_eq_append, ← List.cons_append, ← List.append_assoc] at heq
    obtain ⟨rfl, -⟩ := List.append_inj' heq rfl
    obtain ⟨R, hR, hm⟩ := h.split
    cases hm with
    | into hmem _ _ => exact ⟨R, hR, hmem, List.subset_append_left _ _⟩

namespace ProjectTree

variable (T : ProjectTree)

/-- The first node without a row is one. -/
theorem firstHidden_unique {way : List Node} {R R' m m' : Node}
    (h : FirstHidden T.root (buildRows S V T.root) way R m)
    (h' : FirstHidden T.root (buildRows S V T.root) way R' m') : R = R' ∧ m = m' := by
  obtain ⟨⟨front, rest, hway, hR, hfront⟩, -, hm⟩ := h
  obtain ⟨⟨front', rest', hway', hR', hfront'⟩, -, hm'⟩ := h'
  obtain ⟨rfl, rfl⟩ := first_unique (hway.symm.trans hway') hfront hfront' hm hm'
  exact ⟨hR.end_unique hR', rfl⟩

/-- **A way is accounted for at one place at most.** -/
theorem placed_unique {way : List Node} {place place' : Place}
    (h : Placed S V T.root way place) (h' : Placed S V T.root way place') : place = place' := by
  have hrow {R m : Node} (hall : ∀ n ∈ way, HasRow (buildRows S V T.root) n)
      (hfirst : FirstHidden T.root (buildRows S V T.root) way R m) : False := by
    obtain ⟨⟨front, rest, rfl, -⟩, -, hm⟩ := hfirst
    exact hm (hall m (List.mem_append_right front (List.mem_cons_self ..)))
  cases place with
  | row =>
    cases place' with
    | row => rfl
    | more p =>
      obtain ⟨R, m, hfirst, -⟩ := h'
      exact (hrow h hfirst).elim
    | system p =>
      obtain ⟨R, m, hfirst, -⟩ := h'
      exact (hrow h hfirst).elim
  | more p =>
    obtain ⟨R, m, hfirst, rfl, hplain, -⟩ := h
    cases place' with
    | row => exact (hrow h' hfirst).elim
    | more p' =>
      obtain ⟨R', m', hfirst', rfl, -⟩ := h'
      rw [(T.firstHidden_unique hfirst hfirst').1]
    | system p' =>
      obtain ⟨R', m', hfirst', -, hsystem, -⟩ := h'
      rw [← (T.firstHidden_unique hfirst hfirst').2, not_systemNode S hplain] at hsystem
      cases hsystem
  | system p =>
    obtain ⟨R, m, hfirst, rfl, hsystem, -⟩ := h
    cases place' with
    | row => exact (hrow h' hfirst).elim
    | more p' =>
      obtain ⟨R', m', hfirst', -, hplain, -⟩ := h'
      rw [(T.firstHidden_unique hfirst hfirst').2, not_systemNode S hplain] at hsystem
      cases hsystem
    | system p' =>
      obtain ⟨R', m', hfirst', rfl, -⟩ := h'
      rw [(T.firstHidden_unique hfirst hfirst').1]

/-- A plain child without a row is counted in its level's number. -/
theorem more_of_hidden {as : List Node} {P m : Node} {d : ℕ} (hlays : Lays S V T.root 0 as P d)
    (hm : m ∈ P.children) (hplain : plainNode S m = true)
    (hrow : ¬ HasRow (buildRows S V T.root) m) :
    ∃ hidden : List Node, hidden.Nodup ∧
      (∀ c, c ∈ hidden ↔ c ∈ P.children ∧ plainNode S c = true ∧
        ¬ HasRow (buildRows S V T.root) c) ∧
      TreeRow.more P.path d hidden.length ∈ buildRows S V T.root := by
  obtain ⟨rest, hperm, hhidden, -⟩ := laid_perm S V P d
  have hnodup : ((laid S V P d).plain.map Kid.node ++ rest).Nodup :=
    hperm.nodup_iff.mpr ((T.nodup_children hlays.leads).filter _)
  rw [List.nodup_append] at hnodup
  have hshown {c : Node} (hc : c ∈ P.children) (hp : plainNode S c = true) :
      HasRow (buildRows S V T.root) c ↔ c ∈ (laid S V P d).plain.map Kid.node := by
    rw [T.hasRow_iff hlays.leads hc]
    constructor
    · rintro ⟨d', e, hlays', hmem⟩
      obtain rfl := hlays.depth_unique hlays'
      rcases List.mem_append.mp hmem with hmem | hmem
      · obtain ⟨c', hc', heq⟩ := List.mem_map.mp hmem
        rwa [← (Prod.mk.inj heq).1]
      · split_ifs at hmem
        · obtain ⟨c', hc', heq⟩ := List.mem_map.mp hmem
          have hsystem := (List.mem_filter.mp hc').2
          rw [(Prod.mk.inj heq).1, not_systemNode S hp] at hsystem
          cases hsystem
        · cases hmem
    · intro hmem
      exact ⟨d, d, hlays, List.mem_append_left _ (List.mem_map_of_mem hmem)⟩
  have hmem (c : Node) : c ∈ rest ↔ c ∈ P.children ∧ plainNode S c = true ∧
      ¬ HasRow (buildRows S V T.root) c := by
    constructor
    · intro hc
      obtain ⟨hchild, hp⟩ := List.mem_filter.mp (hperm.mem_iff.mp (List.mem_append_right _ hc))
      refine ⟨hchild, hp, fun hr => ?_⟩
      exact hnodup.2.2 c ((hshown hchild hp).mp hr) c hc rfl
    · rintro ⟨hchild, hp, hr⟩
      rcases List.mem_append.mp (hperm.mem_iff.mpr (List.mem_filter.mpr ⟨hchild, hp⟩)) with h | h
      · exact absurd ((hshown hchild hp).mpr h) hr
      · exact h
  refine ⟨rest, hnodup.2.1, hmem, ?_⟩
  have hin : m ∈ rest := (hmem m).mpr ⟨hm, hplain, hrow⟩
  rcases hhidden with hhidden | ⟨-, rfl⟩
  · refine mem_levelRows_lays_iff.mpr ⟨as, P, d, hlays, .inr (List.mem_append_left _ ?_)⟩
    rw [hhidden]
    exact List.mem_singleton_self _
  · cases hin

/-- A housekeeping child without a row is counted in its level's closed group. -/
theorem system_of_hidden {as : List Node} {P m : Node} {d : ℕ}
    (hlays : Lays S V T.root 0 as P d) (hm : m ∈ P.children) (hsystem : systemNode S m = true)
    (hrow : ¬ HasRow (buildRows S V T.root) m) :
    TreeRow.system P.path d (P.children.filter (systemNode S)).length false ∈
      buildRows S V T.root := by
  have hmem : m ∈ P.children.filter (systemNode S) := List.mem_filter.mpr ⟨hm, hsystem⟩
  have hclosed : (laid S V P d).isOpen = false := by
    by_contra hopen
    rw [Bool.not_eq_false] at hopen
    refine hrow ((T.hasRow_iff hlays.leads hm).mpr ⟨d, d + 1, hlays, ?_⟩)
    refine List.mem_append_right _ ?_
    rw [if_pos hopen]
    exact List.mem_map_of_mem hmem
  refine mem_levelRows_lays_iff.mpr ⟨as, P, d, hlays, .inr (List.mem_append_right _ ?_)⟩
  rw [if_neg (List.ne_nil_of_mem hmem), hclosed]
  exact List.mem_singleton_self _

/-- **A file whose folders are expanded is accounted for**, unless it or one of them is folded. -/
theorem exists_placed {as : List Node} {Q f : Node} (hQ : Leads T.root as Q)
    (hf : f ∈ Q.children) (hexp : ∀ a ∈ as, V.expanded a.path = true)
    (hfold : ∀ n ∈ as ++ [f], isFoldedCopy S n.path = false) :
    ∃ place, Placed S V T.root (as ++ [f]) place := by
  by_cases hall : ∀ n ∈ as ++ [f], HasRow (buildRows S V T.root) n
  · exact ⟨.row, hall⟩
  · obtain ⟨front, m, rest, heq, hfront, hm⟩ := exists_first hall
    obtain ⟨R, hR, hmR, hsub⟩ := hQ.child_of_split hf heq
    obtain ⟨d, hlays⟩ := (T.lays_iff hR).mpr fun a ha => ⟨hfront a ha, hexp a (hsub ha)⟩
    have hfirst : FirstHidden T.root (buildRows S V T.root) (as ++ [f]) R m :=
      ⟨⟨front, rest, heq, hR, hfront⟩, hmR, hm⟩
    have hopen : isFoldedCopy S m.path = false := by
      refine hfold m ?_
      rw [heq]
      exact List.mem_append_right front (List.mem_cons_self ..)
    cases hname : isSystemName m.name with
    | false =>
      have hplain : plainNode S m = true := by
        rw [plainNode, hopen, hname]
        rfl
      exact ⟨.more R.path, R, m, hfirst, rfl, hplain, d, T.more_of_hidden hlays hmR hplain hm⟩
    | true =>
      have hsystem : systemNode S m = true := by
        rw [systemNode, hopen, hname]
        rfl
      exact ⟨.system R.path, R, m, hfirst, rfl, hsystem, d,
        T.system_of_hidden hlays hmR hsystem hm⟩

end ProjectTree

/-! ### The selected path -/

namespace ProjectTree

variable (T : ProjectTree)

/-- The path of a folder is in front of what lies in it. -/
theorem path_prefix {as : List Node} {Q n a : Node} (hQ : Leads T.root as Q)
    (hn : n ∈ Q.children) (ha : a ∈ as) : a.path ++ [0x2F] <+: n.path := by
  induction as using List.reverseRecOn generalizing Q n with
  | nil => cases ha
  | append_singleton as b ih =>
    obtain ⟨R, hR, hb⟩ := hQ.split
    cases hb with
    | into hmem hdir hend =>
      cases hend
      obtain ⟨hne, -, hbpath⟩ := (T.fine _ R hR).names _ hmem
      obtain ⟨-, -, hnpath⟩ := (T.fine _ _ hQ).names n hn
      have hb : b.path ++ [0x2F] <+: n.path := by
        rw [hnpath, pathIn, if_neg (by rw [hbpath]; exact pathIn_ne_nil hne)]
        exact ⟨n.name, by simp⟩
      rcases List.mem_append.mp ha with ha | ha
      · exact (ih hR hmem ha).trans ((List.prefix_append _ _).trans hb)
      · rw [List.mem_singleton.mp ha]
        exact hb

/-- What is on the way to the selected path is shown. -/
theorem hasRow_of_keep {as : List Node} {P n : Node} {d : ℕ} (hlays : Lays S V T.root 0 as P d)
    (hn : n ∈ P.children) (hfold : isFoldedCopy S n.path = false)
    (hkeep : V.onKeepPath n.path = true) : HasRow (buildRows S V T.root) n := by
  rw [T.hasRow_iff hlays.leads hn]
  obtain ⟨rest, hperm, -, hrest⟩ := laid_perm S V P d
  cases hname : isSystemName n.name with
  | false =>
    have hplain : n ∈ P.children.filter (plainNode S) := by
      refine List.mem_filter.mpr ⟨hn, ?_⟩
      rw [plainNode, hfold, hname]
      rfl
    rcases List.mem_append.mp (hperm.mem_iff.mpr hplain) with h | h
    · exact ⟨d, d, hlays, List.mem_append_left _ (List.mem_map_of_mem h)⟩
    · rw [hrest n h] at hkeep
      cases hkeep
  | true =>
    have hsystem : n ∈ P.children.filter (systemNode S) := by
      refine List.mem_filter.mpr ⟨hn, ?_⟩
      rw [systemNode, hfold, hname]
      rfl
    have hopen : (laid S V P d).isOpen = true := by
      rw [isOpen_laid, Bool.or_eq_true]
      exact .inr (List.any_eq_true.mpr ⟨n, hsystem, hkeep⟩)
    refine ⟨d, d + 1, hlays, List.mem_append_right _ ?_⟩
    rw [if_pos hopen]
    exact List.mem_map_of_mem hsystem

/-- **The selected path has a row** when its folders are expanded, unless it or one of them is
folded. -/
theorem hasRow_selected {as : List Node} {Q n : Node} (hQ : Leads T.root as Q)
    (hn : n ∈ Q.children) (hkeep : V.keep = n.path)
    (hexp : ∀ a ∈ as, V.expanded a.path = true)
    (hfold : ∀ m ∈ as ++ [n], isFoldedCopy S m.path = false) :
    HasRow (buildRows S V T.root) n := by
  by_contra hrow
  have hall : ¬ ∀ m ∈ as ++ [n], HasRow (buildRows S V T.root) m := by
    intro hall
    exact hrow (hall n (List.mem_append_right as (List.mem_singleton_self n)))
  obtain ⟨front, m, rest, heq, hfront, hm⟩ := exists_first hall
  obtain ⟨R, hR, hmR, hsub⟩ := hQ.child_of_split hn heq
  obtain ⟨d, hlays⟩ := (T.lays_iff hR).mpr fun a ha => ⟨hfront a ha, hexp a (hsub ha)⟩
  have hmem : m ∈ as ++ [n] := by
    rw [heq]
    exact List.mem_append_right front (List.mem_cons_self ..)
  refine hm (T.hasRow_of_keep hlays hmR (hfold m hmem) ?_)
  rw [View.onKeepPath, hkeep, Bool.or_eq_true]
  rcases List.mem_append.mp hmem with h | h
  · exact .inr (List.isPrefixOf_iff_prefix.mpr (T.path_prefix hQ hn h))
  · rw [List.mem_singleton.mp h]
    exact .inl (beq_self_eq_true _)

end ProjectTree

/-! ### Each row once -/

/-- What a row is for. -/
inductive RowKey
  | node (path : List ℕ) (dir : Bool)
  | system (parent : List ℕ)
  | more (parent : List ℕ)
  deriving DecidableEq

/-- The key of a row. -/
def TreeRow.key : TreeRow → RowKey
  | .node n _ _ _ => .node n.path n.dir
  | .system parent _ _ _ => .system parent
  | .more parent _ _ => .more parent

/-- The way to what a row is for. -/
def KeyWay (root : Node) (way : List Node) : RowKey → Prop
  | .node p dir => ∃ as P n, way = as ++ [n] ∧ Leads root as P ∧ n ∈ P.children ∧ n.path = p ∧
      n.dir = dir
  | .system p => ∃ P, Leads root way P ∧ P.path = p
  | .more p => ∃ P, Leads root way P ∧ P.path = p

namespace ProjectTree

variable (T : ProjectTree)

theorem keyWay_unique {k : RowKey} {way way' : List Node} (h : KeyWay T.root way k)
    (h' : KeyWay T.root way' k) : way = way' := by
  cases k with
  | node p dir =>
    obtain ⟨as, P, n, rfl, hP, hn, hpath, hdir⟩ := h
    obtain ⟨bs, Q, m, rfl, hQ, hm, hpath', hdir'⟩ := h'
    obtain ⟨rfl, -, hsame⟩ := T.unique hP hQ hn hm (hpath.trans hpath'.symm)
    rw [hsame (hdir.trans hdir'.symm)]
  | system p =>
    obtain ⟨P, hP, hpath⟩ := h
    obtain ⟨Q, hQ, hpath'⟩ := h'
    exact T.way_unique hP hQ (hpath.trans hpath'.symm)
  | more p =>
    obtain ⟨P, hP, hpath⟩ := h
    obtain ⟨Q, hQ, hpath'⟩ := h'
    exact T.way_unique hP hQ (hpath.trans hpath'.symm)

end ProjectTree

/-- The rows that count are for their level. -/
theorem key_of_mem_counters {P : Node} {d : ℕ} {r : TreeRow} (h : r ∈ counters S V P d) :
    r.key = .more P.path ∨ r.key = .system P.path := by
  rcases List.mem_append.mp h with h | h
  · obtain ⟨k, -, rfl⟩ := Option.map_eq_some_iff.mp (Option.mem_toList.mp h)
    exact .inl rfl
  · split_ifs at h
    · cases h
    · rw [List.mem_singleton.mp h]
      exact .inr rfl

theorem nodup_counters (P : Node) (d : ℕ) : ((counters S V P d).map TreeRow.key).Nodup := by
  rw [counters]
  split_ifs
  · cases (laid S V P d).hidden with
    | none => exact List.nodup_nil
    | some k => exact List.nodup_singleton _
  · cases (laid S V P d).hidden with
    | none => exact List.nodup_singleton _
    | some k => exact List.nodup_cons.mpr ⟨by simp [TreeRow.key], List.nodup_singleton _⟩

/-- The rows of a level are for it or for what is below it. -/
theorem keyWay_levelRows {root P : Node} {as : List Node} {d : ℕ} {r : TreeRow}
    (hP : Leads root as P) (hr : r ∈ levelRows S V P d) :
    ∃ tail, KeyWay root (as ++ tail) r.key ∧ (tail = [] → r ∈ counters S V P d) := by
  obtain ⟨bs, Q, e, hlays, hr⟩ := mem_levelRows_lays_iff.mp hr
  have hQ := hP.append hlays.leads
  rcases hr with ⟨n, f, hshown, rfl⟩ | hr
  · refine ⟨bs ++ [n], ⟨as ++ bs, Q, n, (List.append_assoc ..).symm, hQ,
      (mem_shownAt S V hshown).1, rfl, rfl⟩, fun h => ?_⟩
    exact absurd h (by simp)
  · refine ⟨bs, ?_, fun h => ?_⟩
    · rcases key_of_mem_counters hr with h | h
      · rw [h]
        exact ⟨Q, hQ, rfl⟩
      · rw [h]
        exact ⟨Q, hQ, rfl⟩
    · subst h
      cases hlays
      exact hr

/-- Those of a child are for it or for what is below it. -/
theorem keyWay_block {root P c : Node} {as : List Node} {e : ℕ} {r : TreeRow}
    (hP : Leads root as P) (hc : c ∈ P.children) (hr : r ∈ block S V c e) :
    ∃ tail, KeyWay root (as ++ c :: tail) r.key := by
  rcases (mem_block_iff S V).mp hr with rfl | ⟨⟨hdir, -⟩, hr⟩
  · exact ⟨[], as, P, c, rfl, hP, hc, rfl, rfl⟩
  · obtain ⟨tail, hway, -⟩ := keyWay_levelRows (hP.snoc hc hdir) hr
    rw [List.append_assoc] at hway
    exact ⟨tail, hway⟩

namespace ProjectTree

variable (T : ProjectTree)

/-- What a level shows, it shows once. -/
theorem nodup_shownAt {as : List Node} {P : Node} (hP : Leads T.root as P) (d : ℕ) :
    ((shownAt S V P d).map Prod.fst).Nodup := by
  obtain ⟨rest, hperm, -⟩ := laid_perm S V P d
  have hplain : ((laid S V P d).plain.map Kid.node).Nodup :=
    (List.nodup_append.mp (hperm.nodup_iff.mpr ((T.nodup_children hP).filter _))).1
  have hsystem : (P.children.filter (systemNode S)).Nodup := (T.nodup_children hP).filter _
  have hfst (l : List Node) (e : ℕ) : (l.map (·, e)).map Prod.fst = l := by
    rw [List.map_map]
    exact List.map_id' l
  rw [shownAt, List.map_append, hfst]
  split_ifs
  · rw [hfst, List.nodup_append]
    refine ⟨hplain, hsystem, ?_⟩
    rintro a ha b hb rfl
    have hpa := (List.mem_filter.mp (hperm.mem_iff.mp (List.mem_append_left rest ha))).2
    have hsa := (List.mem_filter.mp hb).2
    rw [not_systemNode S hpa] at hsa
    cases hsa
  · rw [List.map_nil, List.append_nil]
    exact hplain

/-- **Each row is there once.** -/
theorem nodup_keys (S : Stats) (V : View) :
    ((buildRows S V T.root).map TreeRow.key).Nodup := by
  suffices h : ∀ (P : Node) (as : List Node) (d : ℕ), Leads T.root as P →
      ((levelRows S V P d).map TreeRow.key).Nodup from h T.root [] 0 .here
  intro P
  induction P using Node.induction with
  | h P ih =>
    intro as d hP
    have hshown := T.nodup_shownAt (S := S) (V := V) hP d
    rw [((levelRows_perm S V P d).map TreeRow.key).nodup_iff, List.map_append, List.nodup_append]
    refine ⟨?_, nodup_counters P d, ?_⟩
    · rw [List.map_flatMap, List.nodup_flatMap]
      constructor
      · rintro ⟨n, e⟩ hmem
        have hn := (mem_shownAt S V hmem).1
        dsimp only
        rw [block_eq]
        by_cases hdir : n.dir = true
        · have hQ := hP.snoc hn hdir
          rw [List.map_cons, List.nodup_cons]
          split_ifs
          · refine ⟨fun hkey => ?_, ih n hn (as ++ [n]) (e + 1) hQ⟩
            obtain ⟨r, hr, heq⟩ := List.mem_map.mp hkey
            obtain ⟨tail, hway, hcount⟩ := keyWay_levelRows hQ hr
            rw [heq] at hway
            have hown : KeyWay T.root (as ++ [n]) (nodeRow S n e).key :=
              ⟨as, P, n, rfl, hP, hn, rfl, rfl⟩
            have htail := T.keyWay_unique hown hway
            rcases key_of_mem_counters (hcount (List.self_eq_append_right.mp htail)) with h | h
            · rw [h] at heq
              cases heq
            · rw [h] at heq
              cases heq
          · exact ⟨List.not_mem_nil, List.nodup_nil⟩
        · rw [Bool.not_eq_true] at hdir
          rw [hdir, Bool.false_and, if_neg (by decide)]
          exact List.nodup_singleton _
      · rw [List.Nodup, List.pairwise_map] at hshown
        refine hshown.imp_of_mem fun {x y} hx hy hne => ?_
        intro k hk hk'
        obtain ⟨r, hr, rfl⟩ := List.mem_map.mp hk
        obtain ⟨r', hr', heq⟩ := List.mem_map.mp hk'
        obtain ⟨tail, hway⟩ := keyWay_block hP (mem_shownAt S V hx).1 hr
        obtain ⟨tail', hway'⟩ := keyWay_block hP (mem_shownAt S V hy).1 hr'
        rw [heq] at hway'
        have hsame := List.append_cancel_left (T.keyWay_unique hway hway')
        exact hne (List.cons.inj hsame).1
    · intro k hk k' hk' heq
      obtain ⟨r, hr, rfl⟩ := List.mem_map.mp hk
      obtain ⟨r', hr', rfl⟩ := List.mem_map.mp hk'
      obtain ⟨⟨n, e⟩, hmem, hr⟩ := List.mem_flatMap.mp hr
      obtain ⟨tail, hway⟩ := keyWay_block hP (mem_shownAt S V hmem).1 hr
      have hown : KeyWay T.root as r'.key := by
        rcases key_of_mem_counters hr' with h | h
        · rw [h]
          exact ⟨P, hP, rfl⟩
        · rw [h]
          exact ⟨P, hP, rfl⟩
      rw [heq] at hway
      have hsame := T.keyWay_unique hown hway
      exact absurd (List.self_eq_append_right.mp hsame) (List.cons_ne_nil _ _)

end ProjectTree

end

/-! ### Everything is accounted for -/

section

variable (T : ProjectTree) (V : View) (since : ℤ)

/-- **The sidebar accounts for the tree.** Each row is there once. A file whose folders are expanded
and none of them folded is accounted for at one place, unless it is folded. If it is folded its
original lies beside it, is accounted for at one place unless it is folded itself, and has with its
row the number of all copies of it, of which the file is one. The selected path has a row when its
folders are expanded, unless it or one of them is folded. -/
structure Accounts : Prop where
  once : ((buildRows (treeStats T.root since) V T.root).map TreeRow.key).Nodup
  placed : ∀ as Q f, Leads T.root as Q → f ∈ Q.children → f.dir = false →
    (∀ a ∈ as, V.expanded a.path = true) →
    (∀ a ∈ as, isFoldedCopy (treeStats T.root since) a.path = false) →
    isFoldedCopy (treeStats T.root since) f.path = false →
      ∃! place, Placed (treeStats T.root since) V T.root (as ++ [f]) place
  folded : ∀ as Q f, Leads T.root as Q → f ∈ Q.children → f.dir = false →
    (∀ a ∈ as, V.expanded a.path = true) →
    (∀ a ∈ as, isFoldedCopy (treeStats T.root since) a.path = false) →
    isFoldedCopy (treeStats T.root since) f.path = true →
      ∃ g ∈ Q.children, g.dir = false ∧ originalOf f.path = some g.path ∧
        (isFoldedCopy (treeStats T.root since) g.path = false →
          ∃! place, Placed (treeStats T.root since) V T.root (as ++ [g]) place) ∧
        ∃ copies : List (List ℕ), copies.Nodup ∧ f.path ∈ copies ∧
          (∀ p, p ∈ copies ↔ originalOf p = some g.path ∧
            ∃ bs R c, Leads T.root bs R ∧ c ∈ R.children ∧ c.dir = false ∧ c.path = p) ∧
          ∀ depth conflicts fresh, TreeRow.node g depth conflicts fresh ∈
            buildRows (treeStats T.root since) V T.root → conflicts = copies.length
  selected : ∀ as Q n, Leads T.root as Q → n ∈ Q.children → V.keep = n.path →
    (∀ a ∈ as, V.expanded a.path = true) →
    (∀ m ∈ as ++ [n], isFoldedCopy (treeStats T.root since) m.path = false) →
      HasRow (buildRows (treeStats T.root since) V T.root) n

/-- The number beside a file is that of its copies. -/
theorem conflicts_of_mem {g : Node} (hfile : g.dir = false)
    (hg : g.path ∈ (treeStats T.root since).files) {depth conflicts fresh : ℕ}
    (h : TreeRow.node g depth conflicts fresh ∈ buildRows (treeStats T.root since) V T.root) :
    conflicts = ((treeStats T.root since).copiesOf g.path).length := by
  obtain ⟨bs, Q, e, -, h⟩ := mem_levelRows_lays_iff.mp h
  rcases h with ⟨m, f, -, heq⟩ | h
  · obtain ⟨rfl, -, hconflicts, -⟩ := TreeRow.node.inj heq
    rw [hconflicts, hfile, if_neg (by decide), Stats.conflicts, if_pos hg]
  · exact absurd h not_node_of_mem_counters

/-- **No file vanishes from the sidebar**, but for copies of what is folded and what lies in a folder
that is. -/
theorem sidebar_accounts : Accounts T V since := by
  have hone {as : List Node} {Q f : Node} (hQ : Leads T.root as Q) (hf : f ∈ Q.children)
      (hexp : ∀ a ∈ as, V.expanded a.path = true)
      (hways : ∀ a ∈ as, isFoldedCopy (treeStats T.root since) a.path = false)
      (hfold : isFoldedCopy (treeStats T.root since) f.path = false) :
      ∃! place, Placed (treeStats T.root since) V T.root (as ++ [f]) place := by
    have hall : ∀ n ∈ as ++ [f], isFoldedCopy (treeStats T.root since) n.path = false :=
      List.forall_mem_append.mpr ⟨hways, List.forall_mem_singleton.mpr hfold⟩
    obtain ⟨place, hplace⟩ := T.exists_placed hQ hf hexp hall
    exact ⟨place, hplace, fun other hother => T.placed_unique hother hplace⟩
  refine ⟨T.nodup_keys _ V, fun as Q f hQ hf _ hexp hways hfold => hone hQ hf hexp hways hfold,
    fun as Q f hQ hf hfile hexp hways hfold => ?_,
    fun as Q n hQ hn hkeep hexp hfold => T.hasRow_selected hQ hn hkeep hexp hfold⟩
  obtain ⟨g, hg, hgfile, horiginal, hcopy⟩ := T.exists_original hQ hf hfold
  have hcounted : g.path ∈ (treeStats T.root since).files :=
    T.mem_files_iff.mpr ⟨as, Q, g, hQ, hg, hgfile, rfl⟩
  refine ⟨g, hg, hgfile, horiginal, fun hopen => hone hQ hg hexp hways hopen,
    (treeStats T.root since).copiesOf g.path, (T.nodup_files since).filter _, hcopy hfile,
    fun p => ?_, fun depth conflicts fresh h => conflicts_of_mem T V since hgfile hcounted h⟩
  rw [Stats.copiesOf, List.mem_filter, T.mem_files_iff, beq_iff_eq]
  exact and_comm

/-- A file in a row, or counted beside one, in the number of its level or in that of its closed
group. -/
def NoneVanish : Prop := ∀ as Q f, Leads T.root as Q → f ∈ Q.children → f.dir = false →
  (∀ a ∈ as, V.expanded a.path = true) →
    HasRow (buildRows (treeStats T.root since) V T.root) f ∨
      (∃ g, HasRow (buildRows (treeStats T.root since) V T.root) g ∧
        f.path ∈ (treeStats T.root since).copiesOf g.path) ∨
      (∃ depth hidden, TreeRow.more Q.path depth hidden ∈
        buildRows (treeStats T.root since) V T.root) ∨
      ∃ depth count, TreeRow.system Q.path depth count false ∈
        buildRows (treeStats T.root since) V T.root

end

/-! ### A file in a closed group -/

/-- A file in a folder. -/
def configFile : Node := .mk (units (ascii "config")) (units (ascii ".git/config")) false 0 []

/-- The folder, whose name is housekeeping. -/
def gitFolder : Node := .mk (units (ascii ".git")) (units (ascii ".git")) true 0 [configFile]

/-- A project with that folder. -/
def gitTree : ProjectTree where
  root := .mk [] [] true 0 [gitFolder]
  path_root := rfl
  fine := by
    intro as P hP
    cases hP with
    | here =>
      refine ⟨?_, List.pairwise_singleton _ _⟩
      intro c hc
      rw [List.mem_singleton.mp hc]
      decide
    | into hmem hdir hrest =>
      rw [List.mem_singleton.mp hmem] at hrest
      cases hrest with
      | here =>
        refine ⟨?_, List.pairwise_singleton _ _⟩
        intro c hc
        rw [List.mem_singleton.mp hc]
        decide
      | into hmem' hdir' _ =>
        rw [List.mem_singleton.mp hmem'] at hdir'
        cases hdir'

/-- The folder was expanded before its group was closed. -/
def gitView : View where
  expanded p := p == units (ascii ".git")

/-- **A file in a closed group is not counted by itself**: the group counts the folder it is in. -/
theorem closedGroup_counts_folder : ¬ ∀ T V since, NoneVanish T V since := by
  intro h
  have hrows : buildRows (treeStats gitTree.root 0) gitView gitTree.root =
      [.system [] 0 1 false] := by rfl
  have hfile := h gitTree gitView 0 [gitFolder] gitFolder configFile
    (.into (List.mem_singleton_self _) rfl .here) (List.mem_singleton_self _) rfl
    (by intro a ha; rw [List.mem_singleton.mp ha]; decide +kernel)
  rw [hrows] at hfile
  rcases hfile with ⟨_, _, _, h⟩ | ⟨g, ⟨_, _, _, h⟩, -⟩ | ⟨_, _, h⟩ | ⟨_, _, h⟩
  · cases List.mem_singleton.mp h
  · cases List.mem_singleton.mp h
  · cases List.mem_singleton.mp h
  · have hpath := (TreeRow.system.inj (List.mem_singleton.mp h)).1
    exact absurd hpath (by decide +kernel)

end Beardrive.Sidebar
