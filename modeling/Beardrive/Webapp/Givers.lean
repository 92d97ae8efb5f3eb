import Beardrive.Webapp.AppGrants
import Mathlib.Data.Set.Insert

/-!
# An app and the members who let it in

A grant to an app is meant to be worth no more than the standing of the member who gave it, and to
be worth nothing once that member can give nothing there. Half of it holds of every project: what
an app has at a path is held to a giver whose grant covers the path (`heldToGivers`). The other
half compares two projects, with a spent grant and without it.

The two differ in two ways. A grant on a folder makes a rule where none stands, and the rule stays
when its giver is gone: below it the rules around it no longer decide, and the app has what its
project grant gives. And a rule that names the app keeps out the grant on the same folder, even
where what it names the app for is spent.

## Main definitions

* `HeldToGivers`, `Spent` — what is asked
* `Masks` — a spent grant that decides

## Main results

* `heldToGivers` — an app has no more than its givers
* `grants_held_to_givers_iff` — when the spent grants count for nothing
-/

namespace Beardrive

/-- The most a giver could give at a path; one that is not recorded was an administrator. -/
def giverCeiling (org : Org) (p : Project) (giver x : GoString) : Level :=
  if giver = [] then .admin else grantCeiling org p giver x

/-- The app has at every path no more than some giver could give there, of those whose grants
cover the path. -/
def HeldToGivers (org : Org) (p : Project) (app : GoString) : Prop :=
  ∀ x, atLeast (appLevel org p app x) .read = true →
    ∃ place level giver, p.grantAt app place = some (level, giver) ∧ level ≠ .none ∧
      place.pre <+: x ∧ permRank (appLevel org p app x) ≤ permRank (giverCeiling org p giver x)

/-- A grant whose giver can give nothing where it stands. -/
def Spent (org : Org) (p : Project) (app : GoString) (place : GrantPlace) : Prop :=
  ∃ level giver, p.grantAt app place = some (level, giver) ∧ level ≠ .none ∧
    honor org p level giver place.pre = .none

/-- A grant that decides when it is spent. In a rule, it keeps out a grant on the same folder that
still gives what the project grant does not. On a folder where no rule stands, it keeps out what
the nearest prefix around the folder gives. -/
def Masks (org : Org) (p : Project) (app : GoString) : GrantPlace → Prop
  | .project => False
  | .rule P => ∃ level giver h, p.grantAt app (.folder P) = some (level, giver) ∧
      counts org p level giver P = some h ∧ h ≠ unnamedAt org p app P
  | .folder P => p.ruleAt P = none ∧
      ∃ Q, Longest (p.prefixes app \ {P}) P Q ∧ worthAt org p app Q ≠ unnamedAt org p app P

/-! ### What a giver can give -/

theorem ruleFor_eq_longestPrefix (folders : List FolderRule) (x : GoString) :
    ruleFor folders x = longestPrefix FolderRule.pre folders x := by
  unfold ruleFor longestPrefix greatest
  congr 1
  funext best rule
  by_cases h : rule.pre <+: x <;> cases best <;> simp [h]

theorem mem_prefixes_of_rule {p : Project} (app : GoString) {rule : FolderRule}
    (h : rule ∈ p.folders) : rule.pre ∈ p.prefixes app := by
  obtain ⟨r, hr⟩ := mem_standsAt_iff.mp (⟨rule, h, rfl⟩ : rule.pre ∈ standsAt FolderRule.pre _)
  refine Or.inl ?_
  rw [Project.ruleAt, hr]
  simp

section Ceilings

variable {org : Org} {p : Project} {app giver : GoString}

/-- What a giver can give depends on the rules that cover the path. -/
theorem giverCeiling_congr {x y : GoString}
    (h : ∀ rule ∈ p.folders, rule.pre <+: x ↔ rule.pre <+: y) :
    giverCeiling org p giver x = giverCeiling org p giver y := by
  -- the empty prefix stands for the project, and no rule covers it
  have hlevel (base : Level) (z : GoString) :
      ceilingOf (if z ≠ [] then effectiveLevel p.folders giver z base else base) =
        ceilingOf (effectiveLevel p.folders giver z base) := by
    by_cases hz : z = []
    · have hnone : ruleFor p.folders [] = none := by
        rw [ruleFor_eq_longestPrefix, longestPrefix_eq_none_iff]
        rintro _ ⟨rule, -, rfl⟩ hpre
        obtain ⟨folder, heq, -⟩ := rule.safe
        rw [heq] at hpre
        simpa using hpre.length_le
      rw [hz]
      cases base <;> simp [effectiveLevel, folderLevel, hnone, ceilingOf]
    · rw [if_pos hz]
  have hrule : ruleFor p.folders x = ruleFor p.folders y := by
    rw [ruleFor_eq_longestPrefix, ruleFor_eq_longestPrefix, longestPrefix_congr h]
  unfold giverCeiling grantCeiling
  rw [hlevel, hlevel, effectiveLevel, effectiveLevel, folderLevel, folderLevel, hrule]

theorem giverCeiling_of_longest {x P : GoString} (h : Longest (p.prefixes app) x P) :
    giverCeiling org p giver P = giverCeiling org p giver x :=
  giverCeiling_congr fun _ hrule =>
    ⟨fun hP => hP.trans h.2.1, fun hx => h.prefix_of_mem (mem_prefixes_of_rule app hrule) hx⟩

theorem giverCeiling_of_uncovered {x : GoString} (h : ∀ P ∈ p.prefixes app, ¬ P <+: x) :
    giverCeiling org p giver [] = giverCeiling org p giver x :=
  giverCeiling_congr fun _ hrule =>
    ⟨fun hP => hP.trans (List.nil_prefix),
      fun hx => absurd hx (h _ (mem_prefixes_of_rule app hrule))⟩

theorem honor_eq (level : Level) (pre : GoString) :
    honor org p level giver pre =
      if level = .none then .none else lowerOf level (giverCeiling org p giver pre) := by
  unfold honor giverCeiling
  by_cases hgiver : giver = []
  · cases level <;> simp [hgiver, lowerOf, atLeast, permRank]
  · by_cases hlevel : level = .none <;> simp [hgiver, hlevel]

theorem permRank_honor (level : Level) (pre : GoString) :
    permRank (honor org p level giver pre) ≤ permRank (giverCeiling org p giver pre) := by
  rw [honor_eq]
  split
  · exact Nat.zero_le _
  · exact (permRank_lowerOf _ _).2

/-- A level held to its giver once is held to it anywhere the giver can give as much. -/
theorem honor_honor {level : Level} {P Q : GoString}
    (h : giverCeiling org p giver P = giverCeiling org p giver Q) :
    honor org p (honor org p level giver P) giver Q = honor org p level giver P := by
  rw [honor_eq, honor_eq, h]
  cases level <;> cases giverCeiling org p giver Q <;> decide

end Ceilings

/-! ### Held to the givers -/

/-- The grant an app has on a folder is one of its grants. -/
theorem grantAt_of_namedAt {p : Project} {app P : GoString} {e : Level × GoString}
    (h : p.namedAt app P = some e) : ∃ place, p.grantAt app place = some e ∧ place.pre = P := by
  rcases Option.or_eq_some_iff.mp h with h | ⟨-, h⟩
  · exact ⟨.rule P, h, rfl⟩
  · exact ⟨.folder P, h, rfl⟩

theorem grantAt_project_of_projectGrant {org : Org} {p : Project} {app : GoString} {level : Level}
    (h : projectGrant org p app = some level) :
    ∃ l, p.grantAt app .project = some (l, p.grantedBy app) ∧
      honor org p l (p.grantedBy app) [] = level := by
  obtain ⟨l, hl, hc⟩ := Option.bind_eq_some_iff.mp h
  exact ⟨l, by simp [Project.grantAt, hl], (counts_eq_some hc).1⟩

theorem unnamedAt_le {org : Org} {p : Project} {app P : GoString} :
    permRank (unnamedAt org p app P) ≤ permRank (giverCeiling org p (p.grantedBy app) P) := by
  unfold unnamedAt
  split
  · exact Nat.zero_le _
  · split
    · exact (permRank_appBase _).trans (permRank_honor _ _)
    · exact permRank_honor _ _

theorem not_atLeast_none : ¬ atLeast .none .read = true := by decide

/-- **An app has nowhere more than a giver whose grant covers the path could give there.** -/
theorem heldToGivers (org : Org) (p : Project) (id : GoString) :
    HeldToGivers org p (appPrincipal id) := by
  intro x hread
  rcases hrole : org.apps (appPrincipal id) with _ | _
  · rw [appLevel_of_closed (.inl (by simp [roleIn_appPrincipal, hrole]))] at hread
    exact absurd hread not_atLeast_none
  have happ : org.roleIn (appPrincipal id) = .app := by simp [roleIn_appPrincipal, hrole]
  by_cases hclosed : p.perms (appPrincipal id) = some .none
  · rw [appLevel_of_closed (.inr ⟨happ, hclosed⟩)] at hread
    exact absurd hread not_atLeast_none
  have hproject {level : Level} (hgrant : projectGrant org p (appPrincipal id) = some level) :
      ∃ l, p.grantAt (appPrincipal id) .project = some (l, p.grantedBy (appPrincipal id)) ∧
        honor org p l (p.grantedBy (appPrincipal id)) [] = level ∧ l ≠ .none := by
    obtain ⟨l, hl, hlevel⟩ := grantAt_project_of_projectGrant hgrant
    refine ⟨l, hl, hlevel, ?_⟩
    rintro rfl
    rw [← hlevel] at hgrant
    exact (projectGrant_spec hgrant).2 hclosed (by simp [honor])
  rcases longest_or_uncovered org p (appPrincipal id) x with ⟨P, hP⟩ | hnone
  · rw [appLevel_of_longest happ hclosed hP] at hread ⊢
    unfold worthAt at hread ⊢
    cases hstand : (p.namedAt (appPrincipal id) P).bind fun e => counts org p e.1 e.2 P with
    | some h =>
      rw [hstand] at hread
      obtain ⟨⟨level, giver⟩, hnamed, hc⟩ := Option.bind_eq_some_iff.mp hstand
      obtain ⟨place, hplace, rfl⟩ := grantAt_of_namedAt hnamed
      obtain ⟨rfl, -⟩ := counts_eq_some hc
      refine ⟨place, level, giver, hplace, ?_, hP.2.1, ?_⟩
      · rintro rfl
        simp [honor, atLeast, permRank] at hread
      · rw [← giverCeiling_of_longest hP]
        exact permRank_honor _ _
    | none =>
      rw [hstand, Option.getD_none] at hread
      cases hgrant : projectGrant org p (appPrincipal id) with
      | none =>
        rw [unnamedAt, hgrant] at hread
        exact absurd hread not_atLeast_none
      | some level =>
        obtain ⟨l, hl, -, hne⟩ := hproject hgrant
        refine ⟨.project, l, _, hl, hne, List.nil_prefix, ?_⟩
        rw [← giverCeiling_of_longest hP]
        exact unnamedAt_le
  · rw [appLevel_of_uncovered happ hclosed hnone] at hread ⊢
    cases hgrant : projectGrant org p (appPrincipal id) with
    | none =>
      rw [projectBase, hgrant] at hread
      exact absurd hread not_atLeast_none
    | some level =>
      obtain ⟨l, hl, rfl, hne⟩ := hproject hgrant
      refine ⟨.project, l, _, hl, hne, List.nil_prefix, ?_⟩
      rw [← giverCeiling_of_uncovered hnone, projectBase, hgrant]
      exact (permRank_appBase _).trans (permRank_honor _ _)

/-! ### A project without one of its grants -/

section Drop

variable {org : Org} {p : Project} {app : GoString}

theorem drop_perms (place : GrantPlace) {email : GoString} (h : email ≠ app) :
    (p.drop app place).perms email = p.perms email := by
  cases place with
  | project => exact Function.update_of_ne h _ _
  | rule P => rfl
  | folder P => rfl

theorem drop_folderLevel (place : GrantPlace) {email : GoString} (h : email ≠ app)
    (x : GoString) (base : Level) :
    folderLevel (p.drop app place).folders email x base = folderLevel p.folders email x base := by
  cases place with
  | project => rfl
  | folder P => rfl
  | rule P =>
    have hpre (r : FolderRule) : (if r.pre = P then r.unname app else r).pre = r.pre := by
      split <;> rfl
    unfold folderLevel
    simp only [Project.drop, ruleFor_eq_longestPrefix, longestPrefix_map hpre]
    cases longestPrefix FolderRule.pre p.folders x with
    | none => rfl
    | some r =>
      have hlevel : ruleLevel (if r.pre = P then r.unname app else r) email base =
          ruleLevel r email base := by
        split
        · unfold ruleLevel FolderRule.unname
          dsimp only
          rw [Function.update_of_ne h]
        · rfl
      simp only [Option.map_some, hlevel]

/-- What a member can give does not rest on any grant of an app's. -/
theorem drop_grantCeiling (happ : isAppPrincipal app = true) (place : GrantPlace)
    (giver pre : GoString) :
    grantCeiling org (p.drop app place) giver pre = grantCeiling org p giver pre := by
  unfold grantCeiling
  split
  · rfl
  · rename_i h
    simp only [not_or] at h
    have hne : giver ≠ app := fun heq => h.2 (heq ▸ happ)
    have hlevel : (p.drop app place).level = p.level := by cases place <;> rfl
    have hperm : projectPermWithRole (p.drop app place).perms (p.drop app place).level giver
        (org.roleIn giver) = projectPermWithRole p.perms p.level giver (org.roleIn giver) := by
      unfold projectPermWithRole
      rw [hlevel, drop_perms place hne]
    rw [hperm]
    simp only [effectiveLevel, drop_folderLevel place hne]

theorem drop_honor (happ : isAppPrincipal app = true) (place : GrantPlace) (level : Level)
    (giver pre : GoString) :
    honor org (p.drop app place) level giver pre = honor org p level giver pre := by
  simp only [honor, drop_grantCeiling happ]

theorem drop_counts (happ : isAppPrincipal app = true) (place : GrantPlace) (level : Level)
    (giver pre : GoString) :
    counts org (p.drop app place) level giver pre = counts org p level giver pre := by
  simp only [counts, drop_honor happ]

/-- A spent grant on the project is as good as none. -/
theorem drop_projectGrant (happ : isAppPrincipal app = true) {place : GrantPlace}
    (h : Spent org p app place) :
    projectGrant org (p.drop app place) app = projectGrant org p app := by
  cases place with
  | rule P => simp only [projectGrant, drop_counts happ]; rfl
  | folder P => simp only [projectGrant, drop_counts happ]; rfl
  | project =>
    obtain ⟨level, giver, hgrant, hne, hspent⟩ := h
    obtain ⟨l, hl, heq⟩ := Option.map_eq_some_iff.mp hgrant
    obtain ⟨rfl, rfl⟩ := Prod.mk.inj heq
    have hnone : counts org p l (p.grantedBy app) [] = none :=
      counts_eq_none_iff.mpr ⟨hspent, hne⟩
    simp [projectGrant, Project.drop, hl, hnone]

theorem drop_ruleAt (place : GrantPlace) (Q : GoString) :
    (p.drop app place).ruleAt Q =
      if place = .rule Q then (p.ruleAt Q).map (FolderRule.unname app) else p.ruleAt Q := by
  cases place with
  | project => simp [Project.drop, Project.ruleAt]
  | folder P => simp [Project.drop, Project.ruleAt]
  | rule P =>
    have hfind : (p.drop app (.rule P)).ruleAt Q =
        (p.ruleAt Q).map fun r => if r.pre = P then r.unname app else r := by
      simp only [Project.ruleAt, Project.drop, List.find?_map]
      congr 2
      funext r
      simp only [Function.comp]
      split <;> rfl
    rw [hfind]
    cases hr : p.ruleAt Q with
    | none => simp
    | some r =>
      by_cases hPQ : P = Q
      · simp [hPQ, ruleAt_pre hr]
      · simp [hPQ, ruleAt_pre hr, Ne.symm hPQ]

theorem drop_appFolderAt (place : GrantPlace) (Q : GoString) :
    (p.drop app place).appFolderAt app Q =
      if place = .folder Q then none else p.appFolderAt app Q := by
  cases place with
  | project => simp [Project.drop, Project.appFolderAt]
  | rule P => simp [Project.drop, Project.appFolderAt]
  | folder P =>
    simp only [Project.drop, Project.appFolderAt, List.find?_filter]
    by_cases hPQ : P = Q
    · subst hPQ
      rw [if_pos rfl, List.find?_eq_none]
      intro g _
      simp only [decide_eq_true_eq, not_and_self, not_false_eq_true]
    · simp only [GrantPlace.folder.injEq, hPQ, if_false]
      congr 1
      funext g
      by_cases hg : g.app = app ∧ g.pre = Q
      · simp [hg, Ne.symm hPQ]
      · simp [hg]

theorem drop_defaultAt (place : GrantPlace) (Q : GoString) :
    (p.drop app place).defaultAt Q = p.defaultAt Q := by
  unfold Project.defaultAt
  rw [drop_ruleAt]
  split
  · cases p.ruleAt Q <;> rfl
  · rfl

theorem drop_unnamedAt (happ : isAppPrincipal app = true) {place : GrantPlace}
    (h : Spent org p app place) (Q : GoString) :
    unnamedAt org (p.drop app place) app Q = unnamedAt org p app Q := by
  have hby : (p.drop app place).grantedBy = p.grantedBy := by cases place <;> rfl
  unfold unnamedAt
  rw [drop_projectGrant happ h, drop_defaultAt, hby]
  simp only [drop_honor happ]

/-- The grant a prefix is left with. -/
theorem drop_namedAt (place : GrantPlace) (Q : GoString) :
    (p.drop app place).namedAt app Q =
      if place = .rule Q then p.grantAt app (.folder Q)
      else if place = .folder Q then p.grantAt app (.rule Q)
      else p.namedAt app Q := by
  simp only [Project.namedAt, Project.grantAt, drop_ruleAt, drop_appFolderAt]
  by_cases hrule : place = .rule Q
  · subst hrule
    cases p.ruleAt Q <;> simp [FolderRule.unname]
  · by_cases hfolder : place = .folder Q
    · subst hfolder
      simp
    · simp [hrule, hfolder]

theorem drop_prefixes (place : GrantPlace) :
    (p.drop app place).prefixes app =
      {Q | Q ∈ p.prefixes app ∧ (place = .folder Q → p.ruleAt Q ≠ none)} := by
  ext Q
  simp only [Project.prefixes, Set.mem_ofPred_eq, drop_ruleAt, drop_appFolderAt]
  by_cases hrule : place = .rule Q
  · subst hrule
    simp
  · by_cases hfolder : place = .folder Q
    · subst hfolder
      simp only [reduceCtorEq, if_false, if_true, ne_eq, not_true_eq_false, or_false, forall_const]
      tauto
    · simp [hrule, hfolder]

theorem drop_worthAt (happ : isAppPrincipal app = true) {place : GrantPlace}
    (h : Spent org p app place) (Q : GoString) :
    worthAt org (p.drop app place) app Q =
      (((p.drop app place).namedAt app Q).bind fun e => counts org p e.1 e.2 Q).getD
        (unnamedAt org p app Q) := by
  simp only [worthAt, drop_counts happ, drop_unnamedAt happ h]

end Drop

/-! ### Without a spent grant -/

section Deletion

variable {org : Org} {p : Project} {app : GoString}

/-- Two projects of the same prefixes, each worth the same, give an app the same. -/
theorem appLevel_congr {p' : Project} (hrole : org.roleIn app = .app)
    (hopen : p.perms app ≠ some .none) (hopen' : p'.perms app ≠ some .none)
    (hprefixes : p'.prefixes app = p.prefixes app)
    (hworth : ∀ P, worthAt org p' app P = worthAt org p app P)
    (hbase : projectBase org p' app = projectBase org p app) (x : GoString) :
    appLevel org p' app x = appLevel org p app x := by
  rcases longest_or_uncovered org p app x with ⟨P, hP⟩ | hnone
  · rw [appLevel_of_longest hrole hopen hP, appLevel_of_longest hrole hopen' (hprefixes ▸ hP),
      hworth]
  · rw [appLevel_of_uncovered hrole hopen hnone,
      appLevel_of_uncovered hrole hopen' (hprefixes ▸ hnone), hbase]

theorem drop_open (place : GrantPlace) (hopen : p.perms app ≠ some .none) :
    (p.drop app place).perms app ≠ some .none := by
  cases place with
  | project => simp [Project.drop]
  | rule P => exact hopen
  | folder P => exact hopen

theorem drop_projectBase (happ : isAppPrincipal app = true) {place : GrantPlace}
    (h : Spent org p app place) :
    projectBase org (p.drop app place) app = projectBase org p app := by
  rw [projectBase, projectBase, drop_projectGrant happ h]

/-- A spent grant that its prefix is named by leaves the prefix what the project grant gives. -/
theorem worthAt_of_spent {place : GrantPlace} {Q : GoString} (h : Spent org p app place)
    (hQ : place.pre = Q) (hnamed : p.namedAt app Q = p.grantAt app place) :
    worthAt org p app Q = unnamedAt org p app Q := by
  obtain ⟨level, giver, hgrant, hne, hspent⟩ := h
  subst hQ
  have hnone : counts org p level giver place.pre = none := counts_eq_none_iff.mpr ⟨hspent, hne⟩
  rw [worthAt, hnamed, hgrant, Option.bind_some, hnone, Option.getD_none]

/-- The grant of a rule comes before the folder's own. -/
theorem namedAt_of_rule {Q : GoString} {e : Level × GoString}
    (h : p.grantAt app (.rule Q) = some e) : p.namedAt app Q = p.grantAt app (.rule Q) := by
  rw [Project.namedAt, h, Option.some_or]

/-- Where nothing around a folder decides, its spent grant leaves what the project gives. -/
theorem unnamedAt_of_uncovered {P : GoString} (hrule : p.ruleAt P = none)
    (h : ∀ Q ∈ p.prefixes app \ {P}, ¬ Q <+: P) : unnamedAt org p app P = projectBase org p app := by
  have hdefault : p.defaultAt P = .unset := by rw [Project.defaultAt, hrule]; rfl
  rw [unnamedAt, projectBase]
  cases hgrant : projectGrant org p app with
  | none => rfl
  | some level =>
    obtain ⟨l, -, rfl⟩ := grantAt_project_of_projectGrant hgrant
    have hceiling : giverCeiling org p (p.grantedBy app) [] =
        giverCeiling org p (p.grantedBy app) P := by
      refine giverCeiling_congr fun rule hmem => ⟨fun hP => hP.trans List.nil_prefix, fun hP => ?_⟩
      refine absurd hP (h _ ⟨mem_prefixes_of_rule app hmem, fun heq => ?_⟩)
      obtain ⟨r, hr⟩ := mem_standsAt_iff.mp (⟨rule, hmem, heq⟩ : P ∈ standsAt FolderRule.pre _)
      rw [Project.ruleAt, hr] at hrule
      cases hrule
    simp only [hdefault, if_true, Option.map_some, Option.getD_some]
    rw [honor_honor hceiling]

theorem appLevel_drop_project (happ : isAppPrincipal app = true) (hrole : org.roleIn app = .app)
    (hopen : p.perms app ≠ some .none) (h : Spent org p app .project) (x : GoString) :
    appLevel org (p.drop app .project) app x = appLevel org p app x := by
  refine appLevel_congr hrole hopen (drop_open _ hopen) ?_ (fun P => ?_)
    (drop_projectBase happ h) x
  · rw [drop_prefixes]
    simp
  · rw [drop_worthAt happ h, drop_namedAt]
    simp [worthAt]

/-- Without a spent grant of a rule, the prefix has what the grant on the same folder gives. -/
theorem worthAt_drop_rule (happ : isAppPrincipal app = true) {P : GoString}
    (h : Spent org p app (.rule P)) :
    worthAt org (p.drop app (.rule P)) app P =
      ((p.grantAt app (.folder P)).bind fun e => counts org p e.1 e.2 P).getD
        (unnamedAt org p app P) := by
  rw [drop_worthAt happ h, drop_namedAt, if_pos rfl]

theorem appLevel_drop_rule_iff (happ : isAppPrincipal app = true) (hrole : org.roleIn app = .app)
    (hopen : p.perms app ≠ some .none) {P : GoString} (h : Spent org p app (.rule P)) :
    (∀ x, appLevel org p app x = appLevel org (p.drop app (.rule P)) app x) ↔
      ¬ Masks org p app (.rule P) := by
  obtain ⟨level, giver, hgrant, -⟩ := id h
  have hworth : worthAt org p app P = unnamedAt org p app P :=
    worthAt_of_spent h rfl (namedAt_of_rule hgrant)
  have hprefixes : (p.drop app (.rule P)).prefixes app = p.prefixes app := by
    rw [drop_prefixes]
    simp
  constructor
  · rintro hall ⟨l, g, kept, htwin, hcounts, hne⟩
    have hmem : P ∈ p.prefixes app := by
      obtain ⟨rule, hrule, -⟩ := Option.bind_eq_some_iff.mp hgrant
      exact Or.inl (by simp [hrule])
    have hP := hall P
    rw [appLevel_of_longest hrole hopen (.self hmem),
      appLevel_of_longest hrole (drop_open _ hopen) (.self (hprefixes ▸ hmem)), hworth,
      worthAt_drop_rule happ h, htwin, Option.bind_some, hcounts] at hP
    exact hne hP.symm
  · intro hmask x
    refine (appLevel_congr hrole hopen (drop_open _ hopen) hprefixes (fun Q => ?_)
      (drop_projectBase happ h) x).symm
    by_cases hQ : P = Q
    · subst hQ
      rw [worthAt_drop_rule happ h, hworth]
      cases htwin : (p.grantAt app (.folder P)).bind fun e => counts org p e.1 e.2 P with
      | none => rfl
      | some kept =>
        obtain ⟨⟨l, g⟩, hfolder, hcounts⟩ := Option.bind_eq_some_iff.mp htwin
        by_contra hne
        exact hmask ⟨l, g, kept, hfolder, hcounts, hne⟩
    · rw [drop_worthAt happ h, drop_namedAt]
      simp [worthAt, hQ]

theorem appLevel_drop_folder_iff (happ : isAppPrincipal app = true)
    (hrole : org.roleIn app = .app) (hopen : p.perms app ≠ some .none) {P : GoString}
    (h : Spent org p app (.folder P)) :
    (∀ x, appLevel org p app x = appLevel org (p.drop app (.folder P)) app x) ↔
      ¬ Masks org p app (.folder P) := by
  have hother {Q : GoString} (hQ : P ≠ Q) :
      worthAt org (p.drop app (.folder P)) app Q = worthAt org p app Q := by
    rw [drop_worthAt happ h, drop_namedAt]
    simp [worthAt, hQ]
  have hbase := drop_projectBase happ h
  by_cases hrule : p.ruleAt P = none
  · -- the grant made the rule of its prefix, and takes it along
    have hnamed : p.namedAt app P = p.grantAt app (.folder P) := by
      simp [Project.namedAt, Project.grantAt, hrule]
    have hworth : worthAt org p app P = unnamedAt org p app P := worthAt_of_spent h rfl hnamed
    have hprefixes : (p.drop app (.folder P)).prefixes app = p.prefixes app \ {P} := by
      rw [drop_prefixes]
      ext Q
      simp only [Set.mem_ofPred_eq, Set.mem_sdiff, Set.mem_singleton_iff, GrantPlace.folder.injEq]
      refine and_congr_right fun _ => ⟨?_, fun hne heq => absurd heq.symm hne⟩
      rintro hP rfl
      exact hP rfl hrule
    have hdrop {x Q : GoString} (hQ : Longest (p.prefixes app \ {P}) x Q) :
        appLevel org (p.drop app (.folder P)) app x = worthAt org p app Q := by
      rw [appLevel_of_longest hrole (drop_open _ hopen) (hprefixes ▸ hQ),
        hother fun heq => hQ.1.2 heq.symm]
    have hmem : P ∈ p.prefixes app := by
      obtain ⟨level, giver, hgrant, -⟩ := id h
      obtain ⟨g, hg, -⟩ := Option.map_eq_some_iff.mp hgrant
      exact Or.inr (by simp [hg])
    constructor
    · rintro hall ⟨-, Q, hQ, hne⟩
      have hP := hall P
      rw [appLevel_of_longest hrole hopen (.self hmem), hworth, hdrop hQ] at hP
      exact hne hP.symm
    · intro hmask x
      rcases longest_or_uncovered org p app x with ⟨P', hP'⟩ | hnone
      · by_cases heq : P' = P
        · subst heq
          rw [appLevel_of_longest hrole hopen hP', hworth]
          rcases longest_or_uncovered org (p.drop app (.folder P')) app x with ⟨Q, hQ⟩ | hnone
          · rw [hprefixes] at hQ
            rw [hdrop hQ]
            by_contra hne
            refine hmask ⟨hrule, Q, hQ.of_between ?_ hP'.2.1, Ne.symm hne⟩
            exact hP'.prefix_of_mem hQ.1.1 hQ.2.1
          · rw [appLevel_of_uncovered hrole (drop_open _ hopen) hnone, hbase]
            refine unnamedAt_of_uncovered hrule fun Q hQ hQP => ?_
            exact hnone Q (hprefixes ▸ hQ) (hQP.trans hP'.2.1)
        · have hlong : Longest (p.prefixes app \ {P}) x P' :=
            ⟨⟨hP'.1, heq⟩, hP'.2.1, fun Q hQ => hP'.2.2 Q hQ.1⟩
          rw [appLevel_of_longest hrole hopen hP', hdrop hlong]
      · rw [appLevel_of_uncovered hrole hopen hnone,
          appLevel_of_uncovered hrole (drop_open _ hopen)
            (hprefixes ▸ fun Q hQ => hnone Q hQ.1), hbase]
  · -- the rule of the prefix stays where it is
    have hmask : ¬ Masks org p app (.folder P) := fun hm => hrule hm.1
    refine iff_of_true (fun x => ?_) hmask
    refine (appLevel_congr hrole hopen (drop_open _ hopen) ?_ (fun Q => ?_) hbase x).symm
    · rw [drop_prefixes]
      ext Q
      simp only [Set.mem_ofPred_eq, GrantPlace.folder.injEq, and_iff_left_iff_imp]
      rintro - rfl
      exact hrule
    · by_cases hQ : P = Q
      · subst hQ
        rw [drop_worthAt happ h, drop_namedAt, if_neg (by simp), if_pos rfl]
        cases hnamed : p.grantAt app (.rule P) with
        | some e => rw [worthAt, namedAt_of_rule hnamed, hnamed]
        | none =>
          have hfolder : p.namedAt app P = p.grantAt app (.folder P) := by
            rw [Project.namedAt, hnamed, Option.none_or]
          have hworth : worthAt org p app P = unnamedAt org p app P :=
            worthAt_of_spent h rfl hfolder
          rw [hworth]
          rfl
      · exact hother hQ

end Deletion

/-- **An app has no more than its givers, and a spent grant counts for nothing, exactly when no
spent grant decides**: none keeps out a grant on its own folder, and none stands, where no rule
does, inside a prefix that gives the app something else than its project grant. -/
theorem grants_held_to_givers_iff (org : Org) (p : Project) (id : GoString) :
    (HeldToGivers org p (appPrincipal id) ∧
      ∀ place, Spent org p (appPrincipal id) place → ∀ x,
        appLevel org p (appPrincipal id) x =
          appLevel org (p.drop (appPrincipal id) place) (appPrincipal id) x) ↔
      (org.apps (appPrincipal id) = true → p.perms (appPrincipal id) ≠ some .none →
        ∀ place, Spent org p (appPrincipal id) place → ¬ Masks org p (appPrincipal id) place) := by
  have happ := isAppPrincipal_appPrincipal id
  rw [and_iff_right (heldToGivers org p id)]
  by_cases hreg : org.apps (appPrincipal id) = true
  swap
  · have hrole : org.roleIn (appPrincipal id) = .none := by simp [roleIn_appPrincipal, hreg]
    refine iff_of_true (fun place _ x => ?_) fun h => absurd h hreg
    rw [appLevel_of_closed (.inl hrole), appLevel_of_closed (.inl hrole)]
  have hrole : org.roleIn (appPrincipal id) = .app := by simp [roleIn_appPrincipal, hreg]
  by_cases hclosed : p.perms (appPrincipal id) = some .none
  · refine iff_of_true (fun place hspent x => ?_) fun _ h => absurd hclosed h
    have hstill : (p.drop (appPrincipal id) place).perms (appPrincipal id) = some .none := by
      cases place with
      | rule P => exact hclosed
      | folder P => exact hclosed
      | project =>
        obtain ⟨level, giver, hgrant, hne, -⟩ := hspent
        obtain ⟨l, hl, heq⟩ := Option.map_eq_some_iff.mp hgrant
        obtain rfl : l = level := congrArg Prod.fst heq
        exact absurd (Option.some.inj (hl.symm.trans hclosed)) hne
    rw [appLevel_of_closed (.inr ⟨hrole, hclosed⟩), appLevel_of_closed (.inr ⟨hrole, hstill⟩)]
  · simp only [hreg, hclosed, ne_eq, not_false_eq_true, forall_const]
    refine forall₂_congr fun place hspent => ?_
    cases place with
    | project =>
      exact iff_of_true (fun x => (appLevel_drop_project happ hrole hclosed hspent x).symm) not_false
    | rule P => exact appLevel_drop_rule_iff happ hrole hclosed hspent
    | folder P => exact appLevel_drop_folder_iff happ hrole hclosed hspent

/-- An organization of one owner, with one app. -/
def bossOrg : Org where
  role email := if email = ascii "boss@b.c" then .owner else .none
  apps app := app == ascii "app:bot"
  role_ne_app email := by split <;> simp

/-- Nobody reads a folder; the app, which may write the project, was let into a folder inside it
by somebody who has left. -/
def leftProject : Project where
  perms email := if email = ascii "app:bot" then some .write else none
  grantedBy _ := ascii "boss@b.c"
  folders := [{ pre := ascii "docs/", default := .none, normalized := ⟨ascii "docs", by decide⟩ }]
  appFolders := [{
    pre := ascii "docs/secret/", app := ascii "app:bot", level := .read, giver := ascii "left@b.c",
    level_set := by decide, normalized := ⟨ascii "docs/secret", by decide⟩ }]
  perms_set email := by split <;> simp
  rules_set := by simp
  rules_nodup := by simp
  grants_nodup := by simp

/-- The app may write what it could not even read without the grant. -/
theorem left_grant_opens : ¬ ∀ (org : Org) (p : Project) (id : GoString),
    HeldToGivers org p (appPrincipal id) ∧
      ∀ place, Spent org p (appPrincipal id) place → ∀ x,
        appLevel org p (appPrincipal id) x =
          appLevel org (p.drop (appPrincipal id) place) (appPrincipal id) x := by
  intro h
  have hspent : Spent bossOrg leftProject (appPrincipal (ascii "bot"))
      (.folder (ascii "docs/secret/")) :=
    ⟨.read, ascii "left@b.c", by decide +kernel, by decide, by decide +kernel⟩
  have hsame := (h bossOrg leftProject (ascii "bot")).2 _ hspent (ascii "docs/secret/key.txt")
  have hwith : appLevel bossOrg leftProject (appPrincipal (ascii "bot"))
      (ascii "docs/secret/key.txt") = .write := by decide +kernel
  have hwithout : appLevel bossOrg
      (leftProject.drop (appPrincipal (ascii "bot")) (.folder (ascii "docs/secret/")))
      (appPrincipal (ascii "bot")) (ascii "docs/secret/key.txt") = .none := by decide +kernel
  rw [hwith, hwithout] at hsame
  cases hsame

end Beardrive
