import Beardrive.Config.Reserved
import Beardrive.Syncer.Scope

/-!
# Folder rules

A folder rule narrows, or raises, the level of a project over one prefix. The hub resolves a path
by the longest rule that covers it and by nothing else, while a device is handed two flat lists
and refuses whatever any entry of them covers. This file relates the two.

## One direction holds

A path the hub refuses is always one the device refuses too (`refuses_of_hub_refuses`), so an
honest device is never answered 403 for its whole journal. The other direction fails where a rule
grants write inside a folder another rule restricts: the hub accepts the path and the device
never offers it. `refuses_iff_hub_refuses_iff` says that nothing else goes wrong.

## Main definitions

* `Level`, `atLeast` — the ordered levels
* `FolderRule`, `ruleFor`, `folderLevel`, `effectiveLevel` — the hub's resolution
* `handleProjectScope`, `clientRefuses` — what a device is told and what it does with it
* `Lifted` — a rule that grants write inside a folder another rule restricts

## Main results

* `refuses_iff_hub_refuses_iff` — where the two decisions agree, exactly
-/

namespace Beardrive

/-- The levels of an account on a project or a folder; `unset` is the empty string. -/
inductive Level where
  | unset
  | none
  | read
  | write
  | admin
  deriving DecidableEq, Repr

/-- `permRank`. -/
def permRank : Level → ℕ
  | .read => 1
  | .write => 2
  | .admin => 3
  | _ => 0

/-- Whether `have` satisfies `want`. -/
def atLeast (level want : Level) : Bool := permRank want ≤ permRank level

/-- `maxPrefixLen`. -/
def maxPrefixLen : ℕ := 512

/-- The stored form of a folder prefix, or nothing for one the hub would not carry as a path. -/
def normPrefix (p : GoString) : Option GoString :=
  let p := trimSlashes (trimSpace p)
  if p = [] then none
  else if maxPrefixLen < p.length then none
  else if p ≠ clean p ∨ safePath p = false ∨ reservedPath p then none
  else some (p ++ [slash])

/-- A rule over one prefix, which is always in its stored form. An unset default says nothing
about the accounts the rule does not name. `grantedBy` names the member who gave each app its
level. -/
structure FolderRule where
  pre : GoString
  default : Level := .unset
  perms : GoString → Option Level := fun _ => none
  grantedBy : GoString → GoString := fun _ => []
  normalized : ∃ p, normPrefix p = some pre

/-- The rule governing a path: the longest prefix that matches. -/
def ruleFor (folders : List FolderRule) (filePath : GoString) : Option FolderRule :=
  folders.foldl (fun best r =>
    if !hasPrefix filePath r.pre then best
    else match best with
      | none => some r
      | some b => if b.pre.length < r.pre.length then some r else best) none

/-- What a rule answers for an account whose project level is `base`. -/
def ruleLevel (rule : FolderRule) (email : GoString) (base : Level) : Level :=
  match rule.perms email with
  | some l => l
  | none => if rule.default = .unset then base else rule.default

/-- The level of an account at a path. -/
def folderLevel (folders : List FolderRule) (email filePath : GoString) (base : Level) : Level :=
  if base = .none ∨ base = .unset then .none
  else match ruleFor folders filePath with
    | none => base
    | some rule => ruleLevel rule email base

/-- `folderLevel` under the short circuit that keeps an administrator one everywhere. -/
def effectiveLevel (folders : List FolderRule) (email filePath : GoString) (base : Level) : Level :=
  if base = .admin then .admin else folderLevel folders email filePath base

/-- The prefixes a device may only read, and those it may not read: what the hub answers it. -/
def handleProjectScope (folders : List FolderRule) (email : GoString) (base : Level) :
    List GoString × List GoString :=
  let level (rule : FolderRule) := effectiveLevel folders email rule.pre base
  let deny := folders.filter fun rule => !atLeast (level rule) .read
  let readonly := folders.filter fun rule =>
    atLeast (level rule) .read && (level rule == .read && atLeast base .write)
  ((readonly.map (·.pre)).mergeSort, (deny.map (·.pre)).mergeSort)

/-- The scope of a device that has the answer. -/
def clientScope (folders : List FolderRule) (email : GoString) (base : Level) : WriteScope where
  readOnly := sanePrefixes (handleProjectScope folders email base).1
  denied := sanePrefixes (handleProjectScope folders email base).2

/-- Whether the device refuses to journal a path. -/
def clientRefuses (folders : List FolderRule) (email : GoString) (base : Level)
    (p : GoString) : Bool :=
  (clientScope folders email base).readOnlyPath p

/-- A rule that leaves an account less than write. -/
def Restricts (rule : FolderRule) (email : GoString) (base : Level) : Prop :=
  atLeast (ruleLevel rule email base) .write = false

instance (rule : FolderRule) (email : GoString) (base : Level) :
    Decidable (Restricts rule email base) := by unfold Restricts; infer_instance

/-- The rule that governs `p` grants write inside a folder that another rule, the governing one
of its own prefix, restricts. -/
def Lifted (folders : List FolderRule) (email : GoString) (base : Level) (p : GoString) : Prop :=
  ∃ outer inner, ruleFor folders outer.pre = some outer ∧ outer.pre <+: p ∧
    Restricts outer email base ∧ ruleFor folders p = some inner ∧ ¬ Restricts inner email base

/-! ### The longest rule -/

theorem normPrefix_spec {p pre : GoString} (h : normPrefix p = some pre) :
    ∃ folder, pre = folder ++ [slash] ∧ safePath folder = true := by
  simp only [normPrefix] at h
  split_ifs at h with h1 h2 h3
  simp only [not_or, Bool.not_eq_false] at h3
  exact ⟨_, (Option.some.inj h).symm, h3.2.1⟩

theorem FolderRule.safe (rule : FolderRule) :
    ∃ folder, rule.pre = folder ++ [slash] ∧ safePath folder = true :=
  rule.normalized.elim fun _ h => normPrefix_spec h

theorem ruleFor_append_singleton (folders : List FolderRule) (r : FolderRule) (p : GoString) :
    ruleFor (folders ++ [r]) p =
      if !hasPrefix p r.pre then ruleFor folders p
      else match ruleFor folders p with
        | none => some r
        | some b => if b.pre.length < r.pre.length then some r else ruleFor folders p := by
  simp only [ruleFor, List.foldl_append, List.foldl_cons, List.foldl_nil]

theorem ruleFor_spec {folders : List FolderRule} {p : GoString} :
    (∀ g, ruleFor folders p = some g → g ∈ folders ∧ g.pre <+: p) ∧
      ∀ r ∈ folders, r.pre <+: p →
        ∃ g, ruleFor folders p = some g ∧ r.pre.length ≤ g.pre.length := by
  induction folders using List.reverseRecOn with
  | nil => simp [ruleFor]
  | append_singleton folders r ih =>
    obtain ⟨ih1, ih2⟩ := ih
    rw [ruleFor_append_singleton]
    by_cases hr : r.pre <+: p
    · rw [if_neg (by simpa using hr)]
      cases hb : ruleFor folders p with
      | none =>
        have hno : ∀ x ∈ folders, ¬ x.pre <+: p := fun x hx hxp => by
          simpa [hb] using ih2 x hx hxp
        refine ⟨?_, fun x hx hxp => ?_⟩
        · rintro g ⟨⟩
          exact ⟨by simp, hr⟩
        · rcases List.mem_append.mp hx with hx | hx
          · exact absurd hxp (hno x hx)
          · exact ⟨r, rfl, by rw [List.mem_singleton.mp hx]⟩
      | some b =>
        obtain ⟨hbmem, hbp⟩ := ih1 b hb
        have hbest : ∀ x ∈ folders, x.pre <+: p → x.pre.length ≤ b.pre.length := by
          intro x hx hxp
          obtain ⟨g, hg, hle⟩ := ih2 x hx hxp
          rw [hb] at hg
          exact Option.some.inj hg ▸ hle
        by_cases hlt : b.pre.length < r.pre.length
        · simp only [hlt, if_true]
          refine ⟨?_, fun x hx hxp => ⟨r, rfl, ?_⟩⟩
          · rintro g ⟨⟩
            exact ⟨by simp, hr⟩
          · rcases List.mem_append.mp hx with hx | hx
            · exact (hbest x hx hxp).trans hlt.le
            · rw [List.mem_singleton.mp hx]
        · simp only [hlt, if_false]
          refine ⟨?_, fun x hx hxp => ⟨b, rfl, ?_⟩⟩
          · rintro g ⟨⟩
            exact ⟨by simp [hbmem], hbp⟩
          · rcases List.mem_append.mp hx with hx | hx
            · exact hbest x hx hxp
            · rw [List.mem_singleton.mp hx]
              exact not_lt.mp hlt
    · rw [if_pos (by simpa using hr)]
      refine ⟨fun g hg => ?_, fun x hx hxp => ?_⟩
      · exact ⟨List.mem_append_left _ (ih1 g hg).1, (ih1 g hg).2⟩
      · rcases List.mem_append.mp hx with hx | hx
        · exact ih2 x hx hxp
        · rw [List.mem_singleton.mp hx] at hxp
          exact absurd hxp hr

/-- The governing rule of a path governs its own prefix. -/
theorem ruleFor_pre {folders : List FolderRule} {p : GoString} {g : FolderRule}
    (h : ruleFor folders p = some g) : ruleFor folders g.pre = some g := by
  induction folders using List.reverseRecOn with
  | nil => simp [ruleFor] at h
  | append_singleton folders r ih =>
    rw [ruleFor_append_singleton] at h ⊢
    by_cases hr : r.pre <+: p
    · rw [if_neg (by simpa using hr)] at h
      cases hb : ruleFor folders p with
      | none =>
        rw [hb] at h
        obtain rfl : r = g := Option.some.inj h
        have hnone : ruleFor folders r.pre = none := by
          rw [Option.eq_none_iff_forall_not_mem]
          intro x hx
          obtain ⟨hxmem, hxpre⟩ := ruleFor_spec.1 x hx
          obtain ⟨y, hy, -⟩ := ruleFor_spec.2 x hxmem (hxpre.trans hr)
          simp [hb] at hy
        simp [hnone]
      | some b =>
        simp only [hb] at h
        by_cases hlt : b.pre.length < r.pre.length
        · rw [if_pos hlt] at h
          obtain rfl : r = g := Option.some.inj h
          rw [if_neg (by simp)]
          cases hx : ruleFor folders r.pre with
          | none => rfl
          | some x =>
            obtain ⟨hxmem, hxpre⟩ := ruleFor_spec.1 x hx
            obtain ⟨y, hy, hle⟩ := ruleFor_spec.2 x hxmem (hxpre.trans hr)
            obtain rfl : b = y := Option.some.inj (hb.symm.trans hy)
            simp [hle.trans_lt hlt]
        · rw [if_neg hlt] at h
          obtain rfl : b = g := Option.some.inj h
          rw [ih hb]
          simp [hlt]
    · rw [if_pos (by simpa using hr)] at h
      have hgp := (ruleFor_spec.1 g h).2
      have hrg : ¬ r.pre <+: g.pre := fun hrg => hr (hrg.trans hgp)
      rw [if_pos (by simpa using hrg), ih h]

/-! ### What the device is told -/

/-- A rule is listed when the level its own prefix resolves to is below write. -/
theorem mem_clientScope {folders : List FolderRule} {email : GoString} {base : Level}
    (hbase : atLeast base .write = true) {pre : GoString} :
    pre ∈ (clientScope folders email base).readOnly ++ (clientScope folders email base).denied ↔
      ∃ rule ∈ folders, rule.pre = pre ∧
        atLeast (effectiveLevel folders email pre base) .write = false := by
  have hmem (answer : List GoString) (hsafe : ∀ p ∈ answer, ∃ rule ∈ folders, rule.pre = p) :
      ∀ p, p ∈ sanePrefixes answer ↔ p ∈ answer := by
    intro p
    refine ⟨fun h => (mem_sanePrefixes.mp h).1, fun h => ?_⟩
    obtain ⟨rule, -, rfl⟩ := hsafe p h
    obtain ⟨folder, heq, hfolder⟩ := rule.safe
    rw [heq] at h ⊢
    exact mem_sanePrefixes_of_safe h hfolder
  have hsorted (select : FolderRule → Bool) :
      ∀ p ∈ ((folders.filter select).map (·.pre)).mergeSort, ∃ rule ∈ folders, rule.pre = p := by
    intro p hp
    obtain ⟨rule, hrule, rfl⟩ := List.mem_map.mp (List.mem_mergeSort.mp hp)
    exact ⟨rule, (List.mem_filter.mp hrule).1, rfl⟩
  simp only [clientScope, handleProjectScope, List.mem_append]
  rw [hmem _ (hsorted _), hmem _ (hsorted _)]
  simp only [List.mem_mergeSort, List.mem_map, List.mem_filter]
  have hlevels : ∀ l : Level, atLeast l .write = false ↔
      (atLeast l .read && (l == .read && atLeast base .write)) = true ∨
        (!atLeast l .read) = true := by
    intro l
    cases l <;> simp [hbase] <;> decide
  constructor
  · rintro (⟨rule, ⟨hrule, hl⟩, rfl⟩ | ⟨rule, ⟨hrule, hl⟩, rfl⟩)
    · exact ⟨rule, hrule, rfl, (hlevels _).mpr (.inl hl)⟩
    · exact ⟨rule, hrule, rfl, (hlevels _).mpr (.inr hl)⟩
  · rintro ⟨rule, hrule, rfl, hl⟩
    rcases (hlevels _).mp hl with hl | hl
    · exact .inl ⟨rule, ⟨hrule, hl⟩, rfl⟩
    · exact .inr ⟨rule, ⟨hrule, hl⟩, rfl⟩

theorem folderLevel_of_ruleFor {folders : List FolderRule} {email p : GoString} {base : Level}
    (hbase : atLeast base .write = true) {g : FolderRule} (h : ruleFor folders p = some g) :
    folderLevel folders email p base = ruleLevel g email base := by
  have hne : ¬ (base = .none ∨ base = .unset) := by
    rintro (rfl | rfl) <;> exact absurd hbase (by decide)
  rw [folderLevel, if_neg hne, h]

theorem folderLevel_of_none {folders : List FolderRule} {email p : GoString} {base : Level}
    (hbase : atLeast base .write = true) (h : ruleFor folders p = none) :
    folderLevel folders email p base = base := by
  have hne : ¬ (base = .none ∨ base = .unset) := by
    rintro (rfl | rfl) <;> exact absurd hbase (by decide)
  rw [folderLevel, if_neg hne, h]

/-- The device refuses what some listed rule covers; an administrator's lists are empty. -/
theorem clientRefuses_iff {folders : List FolderRule} {email : GoString} {base : Level}
    (hbase : atLeast base .write = true) {p : GoString} :
    clientRefuses folders email base p = true ↔
      base ≠ .admin ∧ ∃ outer, ruleFor folders outer.pre = some outer ∧ outer.pre <+: p ∧
        Restricts outer email base := by
  rw [clientRefuses, WriteScope.readOnlyPath_iff]
  simp only [mem_clientScope hbase]
  by_cases hadmin : base = .admin
  · subst hadmin
    simp only [effectiveLevel, if_true, ne_eq, not_true_eq_false, false_and, iff_false]
    rintro ⟨pre, ⟨rule, -, -, h⟩, -⟩
    exact absurd h (by decide)
  simp only [effectiveLevel, ne_eq, hadmin, not_false_eq_true, true_and]
  constructor
  · rintro ⟨_, ⟨rule, hrule, rfl, hl⟩, hp⟩
    obtain ⟨g, hg, hle⟩ := ruleFor_spec.2 rule hrule (List.prefix_refl _)
    have hgpre : g.pre = rule.pre := (ruleFor_spec.1 g hg).2.eq_of_length_le hle
    refine ⟨g, hgpre ▸ hg, hgpre ▸ hp, ?_⟩
    rw [folderLevel_of_ruleFor hbase hg] at hl
    exact hl
  · rintro ⟨outer, hself, hp, hl⟩
    refine ⟨outer.pre, ⟨outer, (ruleFor_spec.1 outer hself).1, rfl, ?_⟩, hp⟩
    rw [folderLevel_of_ruleFor hbase hself]
    exact hl

/-! ### The two decisions -/

/-- What the hub refuses, the device never offers. -/
theorem refuses_of_hub_refuses {folders : List FolderRule} {email : GoString} {base : Level}
    (hbase : atLeast base .write = true) (hadmin : base ≠ .admin) {p : GoString}
    (h : atLeast (folderLevel folders email p base) .write = false) :
    clientRefuses folders email base p = true := by
  cases hg : ruleFor folders p with
  | none =>
    rw [folderLevel_of_none hbase hg, hbase] at h
    simp at h
  | some g =>
    rw [folderLevel_of_ruleFor hbase hg] at h
    exact (clientRefuses_iff hbase).mpr ⟨hadmin, g, ruleFor_pre hg, (ruleFor_spec.1 g hg).2, h⟩

/-- **The device and the hub agree on a path exactly when no rule that grants write lifts a
restriction around it**, and for an administrator, whom the device restricts nowhere, when the
governing rule names no lower level. -/
theorem refuses_iff_hub_refuses_iff (folders : List FolderRule) (email : GoString) (base : Level)
    (p : GoString) (hbase : atLeast base .write = true) :
    (clientRefuses folders email base p = true ↔
        atLeast (folderLevel folders email p base) .write = false) ↔
      if base = .admin then ∀ g, ruleFor folders p = some g → ¬ Restricts g email base
      else ¬ Lifted folders email base p := by
  split
  · rename_i hadmin
    have hclient : ¬ clientRefuses folders email base p = true := fun h =>
      ((clientRefuses_iff hbase).mp h).1 hadmin
    rw [iff_false_left hclient]
    cases hg : ruleFor folders p with
    | none => simp [folderLevel_of_none hbase hg, hbase]
    | some g => simp [folderLevel_of_ruleFor hbase hg, Restricts]
  · rename_i hadmin
    constructor
    · rintro h ⟨outer, inner, hself, hp, hl, hinner, hlift⟩
      have := h.mp ((clientRefuses_iff hbase).mpr ⟨hadmin, outer, hself, hp, hl⟩)
      rw [folderLevel_of_ruleFor hbase hinner] at this
      exact hlift this
    · intro h
      refine ⟨fun hc => ?_, refuses_of_hub_refuses hbase hadmin⟩
      obtain ⟨-, outer, hself, hp, hl⟩ := (clientRefuses_iff hbase).mp hc
      obtain ⟨g, hg, -⟩ := ruleFor_spec.2 outer (ruleFor_spec.1 outer hself).1 hp
      rw [folderLevel_of_ruleFor hbase hg]
      by_contra hlift
      exact h ⟨outer, g, hself, hp, hl, hg, hlift⟩

/-- A folder that everybody may only read. -/
def lockedRule : FolderRule where
  pre := ascii "locked/"
  default := .read
  normalized := ⟨ascii "locked", by decide⟩

/-- A drop box inside it that everybody may write. -/
def dropBoxRule : FolderRule where
  pre := ascii "locked/drop/"
  default := .write
  normalized := ⟨ascii "locked/drop", by decide⟩

/-- The rules of the second folder are all the hub asks about a file in the drop box, and nothing
in them restricts anybody. -/
theorem refuses_iff_hub_refuses_drop_box :
    (clientRefuses [lockedRule, dropBoxRule] (ascii "a@b.c") .write (ascii "locked/drop/x.md")
        = true ↔
      atLeast (folderLevel [lockedRule, dropBoxRule] (ascii "a@b.c") (ascii "locked/drop/x.md")
        .write) .write = false) ↔ ¬ Lifted [lockedRule, dropBoxRule] (ascii "a@b.c") .write
          (ascii "locked/drop/x.md") := by
  simpa using refuses_iff_hub_refuses_iff [lockedRule, dropBoxRule] (ascii "a@b.c") .write
    (ascii "locked/drop/x.md") (by decide)

/-- The device refuses a file the hub would accept. -/
theorem drop_box_refused :
    ¬ ∀ (folders : List FolderRule) (email : GoString) (base : Level) (p : GoString),
      atLeast base .write = true → safePath p = true →
        (clientRefuses folders email base p = true ↔
          atLeast (folderLevel folders email p base) .write = false) := by
  intro h
  have hself : ruleFor [lockedRule, dropBoxRule] lockedRule.pre = some lockedRule := rfl
  have hrefused : clientRefuses [lockedRule, dropBoxRule] (ascii "a@b.c") .write
      (ascii "locked/drop/x.md") = true :=
    (clientRefuses_iff (by decide)).mpr ⟨by decide, lockedRule, hself, by decide, by decide⟩
  have := (h [lockedRule, dropBoxRule] (ascii "a@b.c") .write (ascii "locked/drop/x.md")
    (by decide) (by decide)).mp hrefused
  exact absurd this (by decide)

end Beardrive
