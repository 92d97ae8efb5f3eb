import Beardrive.Frontend.Sidebar
import Mathlib.Data.List.Pairwise

/-!
# The tree of a project

The tree is built from the paths of a project's files: a child's path is its folder's with the name
behind it, a name has no slash, and a folder has one file and one folder of a name at most. So a path
tells the folders it lies in, one by one.

A conflict copy lies in the folder of its original, since nothing the browser reads behind the
original's path has a slash.

## Main definitions

* `Leads` — a way through folders
* `ProjectTree` — the tree of a project

## Main results

* `ProjectTree.unique` — a path and its kind tell one node, and the way to it
* `mem_files_iff`, `nodup_files` — the files that are counted
* `exists_original` — a folded copy has its original beside it
-/

namespace Beardrive.Sidebar

open Browser

/-! ### Ways -/

/-- Folders, each in the one before. -/
inductive Leads : Node → List Node → Node → Prop
  | here {P} : Leads P [] P
  | into {P a as Q} : a ∈ P.children → a.dir = true → Leads a as Q → Leads P (a :: as) Q

/-- Induction over a tree. -/
theorem Node.induction {motive : Node → Prop} (h : ∀ P : Node, (∀ c ∈ P.children, motive c) →
    motive P) (P : Node) : motive P :=
  match P with
  | .mk name path dir time children =>
    h (.mk name path dir time children) fun c _ => Node.induction h c
termination_by P
decreasing_by
  rename_i hc
  have hlt := List.sizeOf_lt_of_mem hc
  simp only [Node.children, Node.mk.sizeOf_spec] at hlt ⊢
  omega

theorem Leads.append {P Q R : Node} {as bs : List Node} (h : Leads P as Q) (h' : Leads Q bs R) :
    Leads P (as ++ bs) R := by
  induction h with
  | here => exact h'
  | into hmem hdir _ ih => exact .into hmem hdir (ih h')

theorem Leads.snoc {P Q a : Node} {as : List Node} (h : Leads P as Q) (hmem : a ∈ Q.children)
    (hdir : a.dir = true) : Leads P (as ++ [a]) a := h.append (.into hmem hdir .here)

/-- A way is one, and then another. -/
theorem Leads.split {P Q : Node} {as bs : List Node} (h : Leads P (as ++ bs) Q) :
    ∃ R, Leads P as R ∧ Leads R bs Q := by
  induction as generalizing P with
  | nil => exact ⟨P, .here, h⟩
  | cons a as ih =>
    cases h with
    | into hmem hdir hrest =>
      obtain ⟨R, hR, hQ⟩ := ih hrest
      exact ⟨R, .into hmem hdir hR, hQ⟩

/-- A way tells where it ends. -/
theorem Leads.end_unique {P Q R : Node} {as : List Node} (h : Leads P as Q) (h' : Leads P as R) :
    Q = R := by
  induction h with
  | here =>
    cases h' with
    | here => rfl
  | into _ _ _ ih =>
    cases h' with
    | into _ _ hrest => exact ih hrest

/-! ### Paths -/

/-- The path of a name in a folder. -/
def pathIn (folder name : List ℕ) : List ℕ :=
  if folder = [] then name else folder ++ 0x2F :: name

theorem pathIn_ne_nil {p name : List ℕ} (h : name ≠ []) : pathIn p name ≠ [] := by
  rw [pathIn]
  split_ifs
  · exact h
  · simp

theorem splitPath_pathIn {p name : List ℕ} (h : 0x2F ∉ name) :
    splitPath (pathIn p name) = (if p = [] then [] else p ++ [0x2F], name) := by
  rw [pathIn]
  split_ifs with hp
  · exact splitPath_eq (.inl rfl) h
  · rw [show p ++ 0x2F :: name = p ++ [0x2F] ++ name by simp]
    exact splitPath_eq (.inr ⟨p, rfl⟩) h

/-- **A path tells the folder and the name.** -/
theorem pathIn_inj {p q n m : List ℕ} (hn : 0x2F ∉ n) (hm : 0x2F ∉ m)
    (h : pathIn p n = pathIn q m) : p = q ∧ n = m := by
  have hsplit := congrArg splitPath h
  rw [splitPath_pathIn hn, splitPath_pathIn hm] at hsplit
  obtain ⟨hdir, hname⟩ := Prod.mk.inj hsplit
  refine ⟨?_, hname⟩
  split_ifs at hdir with hp hq hq
  · rw [hp, hq]
  · exact absurd hdir.symm (by simp)
  · exact absurd hdir (by simp)
  · exact List.append_cancel_right hdir

/-- A level of a project's tree. -/
structure FineLevel (P : Node) : Prop where
  names : ∀ c ∈ P.children, c.name ≠ [] ∧ 0x2F ∉ c.name ∧ c.path = pathIn P.path c.name
  apart : P.children.Pairwise fun a b => ¬ (a.path = b.path ∧ a.dir = b.dir)

/-- **The tree of a project.** -/
structure ProjectTree where
  root : Node
  path_root : root.path = []
  fine : ∀ as P, Leads root as P → FineLevel P

namespace ProjectTree

variable (T : ProjectTree)

/-- The children of a folder that agree in path and kind are one. -/
theorem child_unique {as : List Node} {P a b : Node} (h : Leads T.root as P)
    (ha : a ∈ P.children) (hb : b ∈ P.children) (hpath : a.path = b.path)
    (hdir : a.dir = b.dir) : a = b := by
  by_contra hne
  have hpair := (T.fine as P h).apart
  have hsymm : Std.Symm fun a b : Node => ¬ (a.path = b.path ∧ a.dir = b.dir) :=
    ⟨fun _ _ h h' => h ⟨h'.1.symm, h'.2.symm⟩⟩
  exact hpair.forall ha hb hne ⟨hpath, hdir⟩

theorem nodup_children {as : List Node} {P : Node} (h : Leads T.root as P) : P.children.Nodup :=
  by
  refine (T.fine as P h).apart.imp fun {a b} hne => ?_
  rintro rfl
  exact hne ⟨rfl, rfl⟩

/-- **A folder's path tells the way to it.** -/
theorem way_unique {as bs : List Node} {P Q : Node} (hP : Leads T.root as P)
    (hQ : Leads T.root bs Q) (hpath : P.path = Q.path) : as = bs := by
  induction as using List.reverseRecOn generalizing bs P Q with
  | nil =>
    cases hP
    rcases List.eq_nil_or_concat bs with rfl | ⟨bs', b, rfl⟩
    · rfl
    · rw [List.concat_eq_append] at hQ
      obtain ⟨R, hR, hb⟩ := hQ.split
      cases hb with
      | into hmem _ hend =>
        cases hend
        obtain ⟨hne, -, hbpath⟩ := (T.fine _ R hR).names _ hmem
        rw [T.path_root, hbpath] at hpath
        exact absurd hpath.symm (pathIn_ne_nil hne)
  | append_singleton as a ih =>
    obtain ⟨R, hR, ha⟩ := hP.split
    cases ha with
    | into hmem hdir hend =>
      cases hend
      obtain ⟨hne, hslash, hapath⟩ := (T.fine _ R hR).names a hmem
      rcases List.eq_nil_or_concat bs with rfl | ⟨bs', b, rfl⟩
      · cases hQ
        rw [T.path_root, hapath] at hpath
        exact absurd hpath (pathIn_ne_nil hne)
      · rw [List.concat_eq_append] at hQ ⊢
        obtain ⟨R', hR', hb⟩ := hQ.split
        cases hb with
        | into hmem' hdir' hend' =>
          cases hend'
          obtain ⟨-, hslash', hbpath⟩ := (T.fine _ R' hR').names _ hmem'
          have hsame := hpath
          rw [hapath, hbpath] at hsame
          obtain rfl := ih hR hR' (pathIn_inj hslash hslash' hsame).1
          obtain rfl := hR.end_unique hR'
          rw [T.child_unique hR hmem hmem' hpath (hdir.trans hdir'.symm)]

/-- **A path tells the way to it**, and with its kind the node. -/
theorem unique {as bs : List Node} {P Q a b : Node} (hP : Leads T.root as P)
    (hQ : Leads T.root bs Q) (ha : a ∈ P.children) (hb : b ∈ Q.children)
    (hpath : a.path = b.path) : as = bs ∧ P = Q ∧ (a.dir = b.dir → a = b) := by
  obtain ⟨-, hslash, hapath⟩ := (T.fine _ P hP).names a ha
  obtain ⟨-, hslash', hbpath⟩ := (T.fine _ Q hQ).names b hb
  have hsame := hpath
  rw [hapath, hbpath] at hsame
  obtain rfl := T.way_unique hP hQ (pathIn_inj hslash hslash' hsame).1
  obtain rfl := hP.end_unique hQ
  exact ⟨rfl, rfl, T.child_unique hP ha hb hpath⟩

end ProjectTree

/-! ### The files -/

theorem files_walkChildren (since : ℤ) (cs : List Node) (acc : Walked) :
    (walkChildren since cs acc).stats.files = acc.stats.files ++
      cs.flatMap fun c => if c.dir then (walk since c).stats.files else [c.path] := by
  induction cs generalizing acc with
  | nil => exact (List.append_nil _).symm
  | cons c cs ih =>
    rw [walkChildren, List.flatMap_cons]
    by_cases hdir : c.dir = true
    · rw [if_pos hdir, if_pos hdir, ih, Stats.append, List.append_assoc]
    · rw [if_neg hdir, if_neg hdir, ih, Stats.append, List.append_assoc]

theorem files_walk (since : ℤ) (P : Node) : (walk since P).stats.files =
    P.children.flatMap fun c => if c.dir then (walk since c).stats.files else [c.path] := by
  obtain ⟨name, path, dir, time, children⟩ := P
  have hfiles := files_walkChildren since children {}
  rw [List.nil_append] at hfiles
  rw [walk]
  split_ifs
  · exact hfiles
  · exact (List.append_nil _).trans hfiles

theorem mem_files_walk {since : ℤ} {P : Node} {p : List ℕ} :
    p ∈ (walk since P).stats.files ↔
      ∃ as Q f, Leads P as Q ∧ f ∈ Q.children ∧ f.dir = false ∧ f.path = p := by
  induction P using Node.induction with
  | h P ih =>
    rw [files_walk, List.mem_flatMap]
    constructor
    · rintro ⟨c, hc, hp⟩
      by_cases hdir : c.dir = true
      · rw [if_pos hdir] at hp
        obtain ⟨as, Q, f, hQ, hf⟩ := (ih c hc).mp hp
        exact ⟨c :: as, Q, f, .into hc hdir hQ, hf⟩
      · rw [if_neg hdir] at hp
        exact ⟨[], P, c, .here, hc, by simpa using hdir, (List.mem_singleton.mp hp).symm⟩
    · rintro ⟨as, Q, f, hQ, hf, hfile, rfl⟩
      cases hQ with
      | here =>
        refine ⟨f, hf, ?_⟩
        rw [hfile]
        exact List.mem_singleton_self _
      | @into _ a _ _ ha hdir hrest =>
        refine ⟨a, ha, ?_⟩
        rw [if_pos hdir]
        exact (ih a ha).mpr ⟨_, _, f, hrest, hf, hfile, rfl⟩

namespace ProjectTree

variable (T : ProjectTree)

/-- **The files that are counted** are those of the tree. -/
theorem mem_files_iff {since : ℤ} {p : List ℕ} : p ∈ (treeStats T.root since).files ↔
    ∃ as Q f, Leads T.root as Q ∧ f ∈ Q.children ∧ f.dir = false ∧ f.path = p := mem_files_walk

/-- **Each is counted once.** -/
theorem nodup_files (since : ℤ) : (treeStats T.root since).files.Nodup := by
  suffices h : ∀ (P : Node) (as : List Node), Leads T.root as P →
      (walk since P).stats.files.Nodup from h T.root [] .here
  intro P
  induction P using Node.induction with
  | h P ih =>
    intro as hP
    -- a file below a child has its way through the child
    have hway : ∀ c ∈ P.children, ∀ p ∈ (if c.dir then (walk since c).stats.files else [c.path]),
        ∃ bs Q f, Leads T.root (as ++ bs) Q ∧ f ∈ Q.children ∧ f.dir = false ∧ f.path = p ∧
          (bs ++ [f]).head? = some c := by
      intro c hc p hp
      by_cases hdir : c.dir = true
      · rw [if_pos hdir] at hp
        obtain ⟨bs, Q, f, hQ, hf, hfile, hpath⟩ := mem_files_walk.mp hp
        exact ⟨c :: bs, Q, f, hP.append (.into hc hdir hQ), hf, hfile, hpath, rfl⟩
      · rw [if_neg hdir] at hp
        refine ⟨[], P, c, ?_, hc, by simpa using hdir, (List.mem_singleton.mp hp).symm, rfl⟩
        rwa [List.append_nil]
    rw [files_walk, List.nodup_flatMap]
    constructor
    · intro c hc
      by_cases hdir : c.dir = true
      · rw [if_pos hdir]
        exact ih c hc (as ++ [c]) (hP.snoc hc hdir)
      · rw [if_neg hdir]
        exact List.nodup_singleton _
    · refine (T.nodup_children hP).imp_of_mem fun {c d} hc hd hne => ?_
      intro p hp hp'
      obtain ⟨bs, Q, f, hQ, hf, hfile, hpath, hhead⟩ := hway c hc p hp
      obtain ⟨ds, R, g, hR, hg, hfile', hpath', hhead'⟩ := hway d hd p hp'
      obtain ⟨hsame, rfl, hnode⟩ := T.unique hQ hR hf hg (hpath.trans hpath'.symm)
      rw [List.append_cancel_left hsame, hnode (hfile.trans hfile'.symm), hhead'] at hhead
      exact hne (Option.some.inj hhead).symm

/-! ### Folded copies -/

/-- The path of a name with something behind it. -/
theorem pathIn_append (p name tail : List ℕ) :
    pathIn p name ++ tail = pathIn p (name ++ tail) := by
  rw [pathIn, pathIn]
  split_ifs
  · rfl
  · rw [List.append_assoc, List.cons_append]

/-- **A folded copy has its original beside it**, a file, and is among the copies of it that are
counted when it is a file. -/
theorem exists_original {since : ℤ} {as : List Node} {Q f : Node} (hQ : Leads T.root as Q)
    (hf : f ∈ Q.children) (hfold : isFoldedCopy (treeStats T.root since) f.path = true) :
    ∃ g ∈ Q.children, g.dir = false ∧ originalOf f.path = some g.path ∧
      (f.dir = false → f.path ∈ (treeStats T.root since).copiesOf g.path) := by
  rw [isFoldedCopy] at hfold
  cases horig : originalOf f.path with
  | none =>
    rw [horig] at hfold
    cases hfold
  | some o =>
    rw [horig] at hfold
    dsimp only at hfold
    rw [decide_eq_true_iff, Stats.conflicts] at hfold
    have hmem : o ∈ (treeStats T.root since).files := by
      by_contra hno
      exact hfold (if_neg hno)
    obtain ⟨bs, R, g, hR, hg, hfile, rfl⟩ := T.mem_files_iff.mp hmem
    obtain ⟨c, hc, horiginal⟩ := Option.map_eq_some_iff.mp horig
    obtain ⟨tail, htail, -, hslash⟩ := parseConflict_split hc
    obtain ⟨-, hfname, hfpath⟩ := (T.fine _ Q hQ).names f hf
    obtain ⟨-, hgname, hgpath⟩ := (T.fine _ R hR).names g hg
    -- both lie in one folder
    have hfolder : Q.path = R.path := by
      rw [horiginal, hfpath, hgpath, pathIn_append] at htail
      refine (pathIn_inj hfname ?_ htail).1
      rw [List.mem_append]
      exact not_or.mpr ⟨hgname, hslash⟩
    obtain rfl := T.way_unique hQ hR hfolder
    obtain rfl := hQ.end_unique hR
    refine ⟨g, hg, hfile, rfl, fun hplain => List.mem_filter.mpr ⟨?_, ?_⟩⟩
    · exact T.mem_files_iff.mpr ⟨as, Q, f, hQ, hf, hplain, rfl⟩
    · rw [horig, beq_self_eq_true]

end ProjectTree

end Beardrive.Sidebar
