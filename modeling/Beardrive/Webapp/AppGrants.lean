import Beardrive.Lib.LongestPrefix
import Beardrive.Webapp.Folders
import Mathlib.Data.Set.Basic

/-!
# What an app is given

An app holds grants: one on the project, one in each folder rule that names it, and grants on
folders of its own, which stand beside the rules. Every grant counts as far as the member who gave
it could still give it. The hub builds the project as the app may use it, in which each of its
grants is a rule and each rule says what the app has there, and looks a path up in that.

A grant whose giver can give nothing any more says nothing, but it still stands where it stood. In
a folder that no rule covers exactly, the rule made for it is longer than the rules around it, so
that the app has there what its project grant gives and not what the folder around it says.

## Main definitions

* `Project`, `Org` — grants, rules and who is a member
* `grantCeiling`, `honor` — what a giver can still give, and a level held to it
* `honoredGrants`, `appLevel` — the project as an app may use it, and its level at a path
* `GrantPlace`, `Project.grantAt`, `Project.drop` — the grants of an app, one by one
* `Masks` — a grant that counts for nothing and still decides

## Main results

* `appLevel_of_longest`, `appLevel_of_uncovered` — what an app has at a path
* `grants_held_to_givers_iff` — when a grant is worth no more than its giver
-/

namespace Beardrive

/-! ### Members and grants -/

/-- `appPrincipal`: the account of an app. -/
def appPrincipal (id : GoString) : GoString := ascii "app:" ++ id

/-- The role of an account in an organization; `none` is an outsider. -/
inductive Role where
  | none
  | member
  | owner
  | app
  deriving DecidableEq, Repr

/-- `isAppPrincipal`. -/
def isAppPrincipal (principal : GoString) : Bool := hasPrefix principal (ascii "app:")

/-- An organization: the roles its directory answers, and the apps registered with it. -/
structure Org where
  role : GoString → Role
  apps : GoString → Bool
  role_ne_app : ∀ email, role email ≠ .app

/-- `roleIn`. -/
def Org.roleIn (org : Org) (principal : GoString) : Role :=
  if isAppPrincipal principal then
    if org.apps principal then .app else .none
  else org.role principal

/-- An app's level on one folder, and the member who gave it. -/
structure AppFolderGrant where
  pre : GoString
  app : GoString
  level : Level
  giver : GoString
  level_set : level ≠ .unset
  normalized : ∃ p, normPrefix p = some pre

/-- The permissions of a project. A grant is never of the unset level, one rule stands at a
prefix, and an app has one grant of its own there. -/
structure Project where
  default : Level := .unset
  perms : GoString → Option Level := fun _ => none
  grantedBy : GoString → GoString := fun _ => []
  folders : List FolderRule := []
  appFolders : List AppFolderGrant := []
  perms_set : ∀ email, perms email ≠ some .unset
  rules_set : ∀ rule ∈ folders, ∀ email, rule.perms email ≠ some .unset
  rules_nodup : (folders.map (·.pre)).Nodup
  grants_nodup : (appFolders.map fun g => (g.pre, g.app)).Nodup

/-- `Project.level`. -/
def Project.level (p : Project) : Level := if p.default = .unset then .write else p.default

/-- `projectPermWithRole`, over the grants and the default level of a project. -/
def projectPermWithRole (perms : GoString → Option Level) (level : Level) (email : GoString) :
    Role → Level
  | .owner => .admin
  | .none => .none
  | .app =>
    match perms email with
    | none => .none
    | some .unset => .none
    | some .admin => .write
    | some l => l
  | .member => (perms email).getD level

/-- The most a member whose level is `level` could give. -/
def ceilingOf : Level → Level
  | .admin => .admin
  | .write => .read
  | _ => .none

/-- `grantCeiling`. The accounts it asks about are never apps, so that their level on the project
needs no view of it. -/
def grantCeiling (org : Org) (p : Project) (giver pre : GoString) : Level :=
  if giver = [] ∨ isAppPrincipal giver then .none
  else
    let level := projectPermWithRole p.perms p.level giver (org.roleIn giver)
    ceilingOf (if pre ≠ [] then effectiveLevel p.folders giver pre level else level)

/-- `lowerOf`. -/
def lowerOf (a b : Level) : Level := if atLeast a b then b else a

/-- A level held to what its giver can give. One without a recorded giver counts as it is. -/
def honor (org : Org) (p : Project) (level : Level) (giver pre : GoString) : Level :=
  if giver = [] ∨ level = .none then level else lowerOf level (grantCeiling org p giver pre)

/-! ### The project as an app may use it -/

/-- A rule of an app's view: a folder rule, a grant of the app's own, or the rule on the empty
prefix, which is not a folder's. -/
structure ViewRule where
  pre : GoString
  default : Level := .unset
  perms : GoString → Option Level := fun _ => none
  grantedBy : GoString → GoString := fun _ => []

/-- The permissions of a project as an app may use them. -/
structure View where
  perms : GoString → Option Level
  folders : List ViewRule

/-- The folder rule itself. -/
def FolderRule.view (rule : FolderRule) : ViewRule where
  pre := rule.pre
  default := rule.default
  perms := rule.perms
  grantedBy := rule.grantedBy

/-- The rule names the app of a grant, unless it names it already. -/
def ViewRule.nameApp (rule : ViewRule) (g : AppFolderGrant) : ViewRule :=
  if (rule.perms g.app).isSome then rule
  else { rule with
    perms := Function.update rule.perms g.app (some g.level)
    grantedBy := Function.update rule.grantedBy g.app g.giver }

/-- A grant joins the rule that stands at its prefix, or makes one. -/
def nameFirst (g : AppFolderGrant) : List ViewRule → List ViewRule
  | [] => [ViewRule.nameApp { pre := g.pre } g]
  | rule :: rules =>
    if rule.pre = g.pre then rule.nameApp g :: rules else rule :: nameFirst g rules

/-- The rules of a project, joined by the app's own grants. -/
def joinedRules (p : Project) (app : GoString) : List ViewRule :=
  p.appFolders.foldl (fun rules g => if g.app ≠ app then rules else nameFirst g rules)
    (p.folders.map FolderRule.view)

/-- What a grant comes to: nothing, where its giver can give nothing. A denial counts. -/
def counts (org : Org) (p : Project) (level : Level) (giver pre : GoString) : Option Level :=
  let h := honor org p level giver pre
  if h ≠ .none ∨ level = .none then some h else none

/-- The app's grant on the project, as far as it counts. -/
def projectGrant (org : Org) (p : Project) (app : GoString) : Option Level :=
  (p.perms app).bind fun level => counts org p level (p.grantedBy app) []

/-- What the grant in a rule comes to, of an app the rule names. -/
def ViewRule.standing (org : Org) (p : Project) (app : GoString) (rule : ViewRule) :
    Option Level :=
  (rule.perms app).bind fun level => counts org p level (rule.grantedBy app) rule.pre

/-- The rule, saying what the app has under it. -/
def ViewRule.settle (org : Org) (p : Project) (app : GoString) (rule : ViewRule) : ViewRule :=
  let naming (level : Option Level) : ViewRule :=
    { rule with perms := Function.update rule.perms app level }
  match rule.standing org p app with
  | some h => naming (some h)
  | none =>
    match projectGrant org p app with
    | none => naming (some .none)
    | some level =>
      let would := if rule.default = .unset then level else rule.default
      let capped := honor org p would (p.grantedBy app) rule.pre
      naming (if capped ≠ would then some capped else none)

/-- The app reads some folder by a grant of its own. -/
def reaches (org : Org) (p : Project) (app : GoString) : Bool :=
  (joinedRules p app).any fun rule =>
    ((rule.standing org p app).map fun h => atLeast h .read).getD false

/-- The rules of the view. -/
def settledRules (org : Org) (p : Project) (app : GoString) : List ViewRule :=
  (joinedRules p app).map (ViewRule.settle org p app)

/-- `honoredGrants`. -/
def honoredGrants (org : Org) (p : Project) (app : GoString) : View :=
  let rules := settledRules org p app
  if projectGrant org p app = none ∧ reaches org p app then
    { perms := Function.update p.perms app (some .read)
      folders := rules ++ [{ pre := [], perms := fun e => if e = app then some .none else none }] }
  else { perms := Function.update p.perms app (projectGrant org p app), folders := rules }

/-- `folderLevel`, in an app's view. -/
def View.folderLevel (v : View) (app filePath : GoString) (base : Level) : Level :=
  if base = .none ∨ base = .unset then .none
  else match longestPrefix ViewRule.pre v.folders filePath with
    | none => base
    | some rule =>
      match rule.perms app with
      | some l => l
      | none => if rule.default = .unset then base else rule.default

/-- `pathPermOf`, of an app. -/
def appLevel (org : Org) (p : Project) (app filePath : GoString) : Level :=
  let v := honoredGrants org p app
  let base := projectPermWithRole v.perms p.level app (org.roleIn app)
  if base = .admin ∨ v.folders = [] then base else v.folderLevel app filePath base

/-! ### Levels -/

@[simp] theorem isAppPrincipal_appPrincipal (id : GoString) :
    isAppPrincipal (appPrincipal id) = true :=
  hasPrefix_iff.mpr (List.prefix_append _ _)

theorem roleIn_appPrincipal (org : Org) (id : GoString) :
    org.roleIn (appPrincipal id) = if org.apps (appPrincipal id) then .app else .none := by
  simp [Org.roleIn]

/-- What an app has on a project it was given a level on: never the people's. -/
def appBase (level : Level) : Level := if level = .admin then .write else level

theorem projectPermWithRole_app {perms : GoString → Option Level} {level : Level}
    {app : GoString} {l : Level} (h : perms app = some l) (hset : l ≠ .unset) :
    projectPermWithRole perms level app .app = appBase l := by
  simp only [projectPermWithRole, h]
  cases l <;> simp_all [appBase]

theorem permRank_lowerOf (a b : Level) :
    permRank (lowerOf a b) ≤ permRank a ∧ permRank (lowerOf a b) ≤ permRank b := by
  cases a <;> cases b <;> decide

theorem ceilingOf_ne_unset (l : Level) : ceilingOf l ≠ .unset := by cases l <;> decide

theorem lowerOf_ne_unset {a b : Level} (ha : a ≠ .unset) (hb : b ≠ .unset) :
    lowerOf a b ≠ .unset := by
  unfold lowerOf
  split <;> assumption

/-- A level that was lowered is no administrator's. -/
theorem appBase_lowerOf {a b : Level} (h : lowerOf a b ≠ a) :
    appBase (lowerOf a b) = lowerOf a b := by
  revert h
  cases a <;> cases b <;> decide

theorem permRank_appBase (l : Level) : permRank (appBase l) ≤ permRank l := by
  cases l <;> decide

section Honor

variable {org : Org} {p : Project} {level : Level} {giver pre : GoString}

theorem grantCeiling_ne_unset : grantCeiling org p giver pre ≠ .unset := by
  unfold grantCeiling
  split
  · simp
  · exact ceilingOf_ne_unset _

theorem honor_ne_unset (h : level ≠ .unset) : honor org p level giver pre ≠ .unset := by
  unfold honor
  split
  · exact h
  · exact lowerOf_ne_unset h grantCeiling_ne_unset

theorem appBase_honor (h : honor org p level giver pre ≠ level) :
    appBase (honor org p level giver pre) = honor org p level giver pre := by
  unfold honor at h ⊢
  split at h
  · exact absurd rfl h
  · rename_i hne
    rw [if_neg hne]
    exact appBase_lowerOf h

theorem counts_eq_some {h : Level} (hc : counts org p level giver pre = some h) :
    honor org p level giver pre = h ∧ (h ≠ .none ∨ level = .none) := by
  simp only [counts] at hc
  split_ifs at hc with hne
  obtain rfl := Option.some.inj hc
  exact ⟨rfl, hne⟩

theorem counts_eq_none_iff :
    counts org p level giver pre = none ↔ honor org p level giver pre = .none ∧ level ≠ .none := by
  simp [counts]

end Honor

/-! ### The joined rules -/

@[simp] theorem nameApp_pre (rule : ViewRule) (g : AppFolderGrant) :
    (rule.nameApp g).pre = rule.pre := by
  unfold ViewRule.nameApp
  split <;> rfl

@[simp] theorem nameApp_default (rule : ViewRule) (g : AppFolderGrant) :
    (rule.nameApp g).default = rule.default := by
  unfold ViewRule.nameApp
  split <;> rfl

/-- Of two grants to one app the first is kept. -/
theorem nameApp_nameApp (rule : ViewRule) {g g' : AppFolderGrant} (h : g'.app = g.app) :
    (rule.nameApp g).nameApp g' = rule.nameApp g := by
  have hnamed : ((rule.nameApp g).perms g'.app).isSome = true := by
    rw [h]
    unfold ViewRule.nameApp
    split
    · assumption
    · simp
  rw [ViewRule.nameApp.eq_def (rule.nameApp g), if_pos hnamed]

/-- A grant changes the rule of its own prefix and no other. -/
theorem find?_nameFirst (g : AppFolderGrant) (rules : List ViewRule) (P : GoString) :
    (nameFirst g rules).find? (fun r => decide (r.pre = P)) =
      if g.pre = P then
        some (((rules.find? fun r => decide (r.pre = P)).getD { pre := P }).nameApp g)
      else rules.find? fun r => decide (r.pre = P) := by
  induction rules with
  | nil =>
    split
    · rename_i hP
      subst hP
      simp [nameFirst]
    · rename_i hP
      simp [nameFirst, hP]
  | cons rule rules ih =>
    rw [nameFirst]
    by_cases hrule : rule.pre = g.pre
    · rw [if_pos hrule]
      by_cases hP : g.pre = P
      · simp [hrule, hP]
      · simp [hrule, hP]
    · rw [if_neg hrule, List.find?_cons, ih, List.find?_cons]
      by_cases hP : rule.pre = P
      · have hgP : g.pre ≠ P := fun h => hrule (hP.trans h.symm)
        simp [hP, hgP]
      · simp [hP]

/-- The rule of a prefix. -/
def Project.ruleAt (p : Project) (P : GoString) : Option FolderRule :=
  p.folders.find? fun r => decide (r.pre = P)

/-- The app's own grant on a folder. -/
def Project.appFolderAt (p : Project) (app P : GoString) : Option AppFolderGrant :=
  p.appFolders.find? fun g => decide (g.app = app ∧ g.pre = P)

/-- The rule of a prefix, as the app's own grant there leaves it. -/
def Project.viewAt (p : Project) (app P : GoString) : Option ViewRule :=
  match p.appFolderAt app P with
  | none => (p.ruleAt P).map FolderRule.view
  | some g => some ((((p.ruleAt P).map FolderRule.view).getD { pre := P }).nameApp g)

/-- **One prefix of the joined rules at a time.** -/
theorem find?_joinedRules (p : Project) (app P : GoString) :
    (joinedRules p app).find? (fun r => decide (r.pre = P)) = p.viewAt app P := by
  have hfold (gs : List AppFolderGrant) (rules : List ViewRule) :
      (gs.foldl (fun rules g => if g.app ≠ app then rules else nameFirst g rules) rules).find?
          (fun r => decide (r.pre = P)) =
        match gs.find? fun g => decide (g.app = app ∧ g.pre = P) with
        | none => rules.find? fun r => decide (r.pre = P)
        | some g =>
          some (((rules.find? fun r => decide (r.pre = P)).getD { pre := P }).nameApp g) := by
    induction gs generalizing rules with
    | nil => rfl
    | cons g gs ih =>
      rw [List.foldl_cons, ih, List.find?_cons]
      by_cases happ : g.app = app
      · rw [if_neg (not_not.mpr happ)]
        by_cases hP : g.pre = P
        · -- the first grant at the prefix names the app, and those behind it find it named
          simp only [happ, hP, and_self, decide_true]
          rw [find?_nameFirst, if_pos hP]
          cases hgs : gs.find? fun g => decide (g.app = app ∧ g.pre = P) with
          | none => rfl
          | some g' =>
            have hg' : g'.app = app ∧ g'.pre = P := by simpa using List.find?_some hgs
            simp only [Option.getD_some]
            rw [nameApp_nameApp _ (hg'.1.trans happ.symm)]
        · simp only [happ, hP, and_false, decide_false]
          rw [find?_nameFirst, if_neg hP]
      · simp only [happ, false_and, decide_false, ne_eq, not_false_eq_true, if_true]
  rw [joinedRules, hfold, Project.viewAt, Project.appFolderAt, Project.ruleAt, List.find?_map]
  rfl

/-! ### The grants one by one -/

/-- Where an app may hold a grant: on the project, in the rule of a prefix, or on a folder. -/
inductive GrantPlace where
  | project
  | rule (pre : GoString)
  | folder (pre : GoString)
  deriving DecidableEq

/-- The prefix a grant covers. -/
def GrantPlace.pre : GrantPlace → GoString
  | .project => []
  | .rule pre => pre
  | .folder pre => pre

/-- The level and the giver of the grant an app holds at a place. -/
def Project.grantAt (p : Project) (app : GoString) : GrantPlace → Option (Level × GoString)
  | .project => (p.perms app).map fun l => (l, p.grantedBy app)
  | .rule P => (p.ruleAt P).bind fun r => (r.perms app).map fun l => (l, r.grantedBy app)
  | .folder P => (p.appFolderAt app P).map fun g => (g.level, g.giver)

/-- A rule that does not name the app. -/
def FolderRule.unname (app : GoString) (rule : FolderRule) : FolderRule :=
  { rule with perms := Function.update rule.perms app none }

/-- The project with the grant of a place deleted. -/
def Project.drop (p : Project) (app : GoString) : GrantPlace → Project
  | .project =>
    { p with
      perms := Function.update p.perms app none
      perms_set := fun email => by
        rw [Function.update_apply]
        split
        · simp
        · exact p.perms_set email }
  | .rule P =>
    { p with
      folders := p.folders.map fun r => if r.pre = P then r.unname app else r
      rules_set := fun rule hrule email => by
        obtain ⟨r, hr, rfl⟩ := List.mem_map.mp hrule
        split
        · simp only [FolderRule.unname, Function.update_apply]
          split
          · simp
          · exact p.rules_set r hr email
        · exact p.rules_set r hr email
      rules_nodup := by
        have hpre : (fun r : FolderRule => r.pre) ∘
            (fun r => if r.pre = P then r.unname app else r) = fun r => r.pre := by
          funext r
          simp only [Function.comp]
          split <;> rfl
        rw [List.map_map, hpre]
        exact p.rules_nodup }
  | .folder P =>
    { p with
      appFolders := p.appFolders.filter fun g => decide (¬ (g.app = app ∧ g.pre = P))
      grants_nodup := p.grants_nodup.sublist (List.filter_sublist.map _) }

/-! ### What an app has -/

/-- The level a rule gives everybody, unset where no rule stands. -/
def Project.defaultAt (p : Project) (P : GoString) : Level :=
  ((p.ruleAt P).map (·.default)).getD .unset

/-- The grant an app holds on a folder: what the rule says of it, else the folder's own. -/
def Project.namedAt (p : Project) (app P : GoString) : Option (Level × GoString) :=
  (p.grantAt app (.rule P)).or (p.grantAt app (.folder P))

/-- What the project grant gives an app under a prefix. -/
def unnamedAt (org : Org) (p : Project) (app P : GoString) : Level :=
  match projectGrant org p app with
  | none => .none
  | some level =>
    if p.defaultAt P = .unset then appBase (honor org p level (p.grantedBy app) P)
    else honor org p (p.defaultAt P) (p.grantedBy app) P

/-- What an app has where a prefix decides: its grant there as far as it counts, else what the
project grant gives. -/
def worthAt (org : Org) (p : Project) (app P : GoString) : Level :=
  ((p.namedAt app P).bind fun e => counts org p e.1 e.2 P).getD (unnamedAt org p app P)

/-- The prefixes that may decide for an app: of the rules, and of its own grants. -/
def Project.prefixes (p : Project) (app : GoString) : Set GoString :=
  {P | p.ruleAt P ≠ none ∨ p.appFolderAt app P ≠ none}

theorem ruleAt_pre {p : Project} {P : GoString} {rule : FolderRule} (h : p.ruleAt P = some rule) :
    rule.pre = P := by
  simpa using List.find?_some h

theorem appFolderAt_spec {p : Project} {app P : GoString} {g : AppFolderGrant}
    (h : p.appFolderAt app P = some g) : g ∈ p.appFolders ∧ g.app = app ∧ g.pre = P :=
  ⟨List.mem_of_find?_eq_some h, by simpa using List.find?_some h⟩

theorem ruleAt_nil (p : Project) : p.ruleAt [] = none := by
  rw [Project.ruleAt, List.find?_eq_none]
  intro rule _
  obtain ⟨folder, hpre, -⟩ := rule.safe
  simp [hpre]

theorem appFolderAt_nil (p : Project) (app : GoString) : p.appFolderAt app [] = none := by
  rw [Project.appFolderAt, List.find?_eq_none]
  intro g _
  obtain ⟨_, hnorm⟩ := g.normalized
  obtain ⟨folder, hpre, -⟩ := normPrefix_spec hnorm
  simp [hpre]

/-- What the view says of a prefix is what the project says. -/
theorem viewAt_spec {p : Project} {app P : GoString} {rule : ViewRule}
    (h : p.viewAt app P = some rule) :
    rule.pre = P ∧ rule.default = p.defaultAt P ∧
      (rule.perms app).map (fun l => (l, rule.grantedBy app)) = p.namedAt app P := by
  unfold Project.viewAt at h
  unfold Project.defaultAt Project.namedAt Project.grantAt
  cases hg : p.appFolderAt app P with
  | none =>
    rw [hg] at h
    obtain ⟨r, hr, rfl⟩ := Option.map_eq_some_iff.mp h
    simp [hg, hr, FolderRule.view, ruleAt_pre hr]
  | some g =>
    obtain ⟨-, happ, hpre⟩ := appFolderAt_spec hg
    rw [hg] at h
    obtain rfl := Option.some.inj h
    cases hr : p.ruleAt P with
    | none => simp [ViewRule.nameApp, happ, hg, hr]
    | some r =>
      cases hl : r.perms app with
      | none => simp [ViewRule.nameApp, FolderRule.view, happ, hg, hr, hl, ruleAt_pre hr]
      | some l => simp [ViewRule.nameApp, FolderRule.view, happ, hr, hl, ruleAt_pre hr]

theorem mem_prefixes_iff {p : Project} {app P : GoString} :
    P ∈ p.prefixes app ↔ ∃ rule, p.viewAt app P = some rule := by
  simp only [Project.prefixes, Project.viewAt, Set.mem_ofPred_eq]
  cases p.appFolderAt app P <;> cases p.ruleAt P <;> simp

theorem namedAt_set {p : Project} {app P : GoString} {level : Level} {giver : GoString}
    (h : p.namedAt app P = some (level, giver)) : level ≠ .unset := by
  rcases Option.or_eq_some_iff.mp h with h | ⟨-, h⟩
  · obtain ⟨rule, hrule, h⟩ := Option.bind_eq_some_iff.mp h
    obtain ⟨l, hl, h⟩ := Option.map_eq_some_iff.mp h
    obtain rfl : l = level := congrArg Prod.fst h
    intro hu
    exact p.rules_set rule (List.mem_of_find?_eq_some hrule) app (hu ▸ hl)
  · obtain ⟨g, -, h⟩ := Option.map_eq_some_iff.mp h
    obtain rfl : g.level = level := congrArg Prod.fst h
    exact g.level_set

section View

variable {org : Org} {p : Project} {app : GoString}

@[simp] theorem settle_pre (rule : ViewRule) : (rule.settle org p app).pre = rule.pre := by
  unfold ViewRule.settle
  split
  · rfl
  · split <;> rfl

@[simp] theorem settle_default (rule : ViewRule) :
    (rule.settle org p app).default = rule.default := by
  unfold ViewRule.settle
  split
  · rfl
  · split <;> rfl

theorem standing_viewAt {P : GoString} {rule : ViewRule} (h : p.viewAt app P = some rule) :
    rule.standing org p app = (p.namedAt app P).bind fun e => counts org p e.1 e.2 P := by
  obtain ⟨hpre, -, hnamed⟩ := viewAt_spec h
  rw [← hnamed, ViewRule.standing, hpre]
  cases rule.perms app <;> rfl

/-- **A rule of the view gives the app what its prefix is worth.** -/
theorem settle_level {P : GoString} {rule : ViewRule} (h : p.viewAt app P = some rule)
    {base : Level} (hbase : ∀ level, projectGrant org p app = some level → base = appBase level) :
    (match (rule.settle org p app).perms app with
      | some l => l
      | none => if (rule.settle org p app).default = .unset then base
          else (rule.settle org p app).default) = worthAt org p app P := by
  obtain ⟨hpre, hdefault, -⟩ := viewAt_spec h
  rw [settle_default, worthAt, ← standing_viewAt h, hdefault]
  unfold ViewRule.settle
  cases rule.standing org p app with
  | some l => simp
  | none =>
    rw [Option.getD_none, unnamedAt]
    cases hgrant : projectGrant org p app with
    | none => simp
    | some level =>
      rw [hdefault, hpre]
      by_cases hunset : p.defaultAt P = .unset
      · by_cases hcap : honor org p level (p.grantedBy app) P = level
        · simp [hunset, hcap, hbase level hgrant]
        · simp [hunset, hcap, appBase_honor hcap]
      · by_cases hcap : honor org p (p.defaultAt P) (p.grantedBy app) P = p.defaultAt P
        · simp [hunset, hcap]
        · simp [hunset, hcap]

theorem find?_settle (P : GoString) :
    (settledRules org p app).find? (fun r => decide (r.pre = P)) =
      (p.viewAt app P).map (ViewRule.settle org p app) := by
  rw [settledRules, List.find?_map, ← find?_joinedRules]
  congr 2
  funext rule
  simp

theorem standsAt_settle (org : Org) (p : Project) (app : GoString) :
    standsAt ViewRule.pre (settledRules org p app) = p.prefixes app := by
  ext P
  rw [mem_standsAt_iff, find?_settle, mem_prefixes_iff]
  simp

/-- The app's grant on the project is a level, unless the project is closed to it. -/
theorem projectGrant_spec {level : Level} (h : projectGrant org p app = some level) :
    level ≠ .unset ∧ (p.perms app ≠ some .none → level ≠ .none) := by
  obtain ⟨l, hl, h⟩ := Option.bind_eq_some_iff.mp h
  obtain ⟨rfl, hne⟩ := counts_eq_some h
  refine ⟨honor_ne_unset fun hu => p.perms_set app (hu ▸ hl), fun hopen => ?_⟩
  exact hne.resolve_right fun hnone => hopen (hnone ▸ hl)

/-- An app that reads nothing by a grant of its own has nothing where one of them decides. -/
theorem worthAt_of_not_reaches {P : GoString} {rule : ViewRule} (h : p.viewAt app P = some rule)
    (hgrant : projectGrant org p app = none) (hreach : reaches org p app = false) :
    worthAt org p app P = .none := by
  rw [worthAt, ← standing_viewAt h, unnamedAt, hgrant]
  cases hst : rule.standing org p app with
  | none => rfl
  | some l =>
    have hmem : rule ∈ joinedRules p app :=
      List.mem_of_find?_eq_some ((find?_joinedRules p app P).trans h)
    have hread : atLeast l .read = false := by
      simpa [hst] using List.any_eq_false.mp hreach rule hmem
    have hset : l ≠ .unset := by
      rw [standing_viewAt h] at hst
      obtain ⟨e, he, hc⟩ := Option.bind_eq_some_iff.mp hst
      obtain ⟨rfl, -⟩ := counts_eq_some hc
      exact honor_ne_unset (namedAt_set he)
    cases l <;> first | rfl | exact absurd rfl hset | exact absurd hread (by decide)

/-- What the project gives an app before any folder is asked. -/
def projectBase (org : Org) (p : Project) (app : GoString) : Level :=
  ((projectGrant org p app).map appBase).getD .none

/-- A level of the view, under a base that lets the app in. -/
theorem View.folderLevel_eq {v : View} {x : GoString} {base : Level} (hne : base ≠ .none)
    (hset : base ≠ .unset) :
    v.folderLevel app x base =
      match longestPrefix ViewRule.pre v.folders x with
      | none => base
      | some rule =>
        match rule.perms app with
        | some l => l
        | none => if rule.default = .unset then base else rule.default := by
  rw [View.folderLevel, if_neg (by simp [hne, hset])]

theorem appBase_spec {level : Level} (hset : level ≠ .unset) (hne : level ≠ .none) :
    appBase level ≠ .admin ∧ appBase level ≠ .none ∧ appBase level ≠ .unset := by
  cases level <;> simp_all [appBase]

theorem longest_or_uncovered (org : Org) (p : Project) (app x : GoString) :
    (∃ P, Longest (p.prefixes app) x P) ∨ ∀ P ∈ p.prefixes app, ¬ P <+: x := by
  rw [← standsAt_settle org]
  cases h : longestPrefix ViewRule.pre (settledRules org p app) x with
  | none => exact .inr (longestPrefix_eq_none_iff.mp h)
  | some rule => exact .inl ⟨rule.pre, longest_of_longestPrefix h⟩

/-- **Where no prefix covers the path an app has what the project gives it, and otherwise what the
longest prefix is worth.** -/
theorem appLevel_eq (hrole : org.roleIn app = .app) (hopen : p.perms app ≠ some .none)
    (x : GoString) :
    appLevel org p app x =
      match longestPrefix ViewRule.pre (settledRules org p app) x with
      | none => projectBase org p app
      | some rule => worthAt org p app rule.pre := by
  have hworth {base : Level}
      (hbase : ∀ level, projectGrant org p app = some level → base = appBase level)
      {rule : ViewRule} (h : longestPrefix ViewRule.pre (settledRules org p app) x = some rule) :
      (match rule.perms app with
        | some l => l
        | none => if rule.default = .unset then base else rule.default) =
          worthAt org p app rule.pre := by
    have hfind := find?_of_longestPrefix h
    rw [find?_settle] at hfind
    obtain ⟨r, hr, rfl⟩ := Option.map_eq_some_iff.mp hfind
    exact settle_level hr hbase
  cases hgrant : projectGrant org p app with
  | some level =>
    obtain ⟨hset, hne⟩ := projectGrant_spec hgrant
    obtain ⟨hadmin, hnone, hunset⟩ := appBase_spec hset (hne hopen)
    have hv : honoredGrants org p app =
        { perms := Function.update p.perms app (some level)
          folders := settledRules org p app } := by
      simp [honoredGrants, hgrant]
    have hbase : projectPermWithRole (Function.update p.perms app (some level)) p.level app .app =
        appBase level := projectPermWithRole_app (Function.update_self ..) hset
    rw [appLevel, hv, hrole, hbase, projectBase, hgrant]
    dsimp only
    rw [View.folderLevel_eq hnone hunset]
    by_cases hnil : settledRules org p app = []
    · rw [if_pos (Or.inr hnil), hnil]
      rfl
    · rw [if_neg (by simp only [hadmin, hnil, or_self, not_false_eq_true])]
      cases h : longestPrefix ViewRule.pre (settledRules org p app) x with
      | none => rfl
      | some rule =>
        exact hworth (fun l hl => by rw [Option.some.inj (hgrant.symm.trans hl)]) h
  | none =>
    cases hreach : reaches org p app with
    | true =>
      have hv : honoredGrants org p app =
          { perms := Function.update p.perms app (some .read)
            folders := settledRules org p app ++
              [{ pre := [], perms := fun e => if e = app then some .none else none }] } := by
        simp [honoredGrants, hgrant, hreach]
      have hbase : projectPermWithRole (Function.update p.perms app (some .read)) p.level app .app =
          .read := projectPermWithRole_app (Function.update_self ..) (by decide)
      rw [appLevel, hv, hrole, hbase, projectBase, hgrant, if_neg (by simp),
        View.folderLevel_eq (by decide) (by decide), longestPrefix_append_nil rfl]
      cases h : longestPrefix ViewRule.pre (settledRules org p app) x with
      | none => simp
      | some rule => exact hworth (by simp [hgrant]) h
    | false =>
      have hv : honoredGrants org p app =
          { perms := Function.update p.perms app none
            folders := settledRules org p app } := by
        simp [honoredGrants, hgrant, hreach]
      have hlevel : appLevel org p app x = .none := by
        simp [appLevel, hv, hrole, projectPermWithRole, View.folderLevel]
      rw [hlevel, projectBase, hgrant]
      cases h : longestPrefix ViewRule.pre (settledRules org p app) x with
      | none => rfl
      | some rule =>
        have hfind := find?_of_longestPrefix h
        rw [find?_settle] at hfind
        obtain ⟨r, hr, -⟩ := Option.map_eq_some_iff.mp hfind
        exact (worthAt_of_not_reaches hr hgrant hreach).symm

theorem appLevel_of_longest (hrole : org.roleIn app = .app) (hopen : p.perms app ≠ some .none)
    {x P : GoString} (h : Longest (p.prefixes app) x P) :
    appLevel org p app x = worthAt org p app P := by
  rw [appLevel_eq hrole hopen]
  rw [← standsAt_settle org] at h
  cases hr : longestPrefix ViewRule.pre (settledRules org p app) x with
  | none => exact absurd h.2.1 (longestPrefix_eq_none_iff.mp hr P h.1)
  | some rule => rw [h.unique (longest_of_longestPrefix hr)]

theorem appLevel_of_uncovered (hrole : org.roleIn app = .app) (hopen : p.perms app ≠ some .none)
    {x : GoString} (h : ∀ P ∈ p.prefixes app, ¬ P <+: x) :
    appLevel org p app x = projectBase org p app := by
  rw [appLevel_eq hrole hopen]
  rw [← standsAt_settle org] at h
  rw [longestPrefix_eq_none_iff.mpr h]

/-- An app that is not registered, or that the project is closed to, has nothing. -/
theorem appLevel_of_closed (h : org.roleIn app = .none ∨
    org.roleIn app = .app ∧ p.perms app = some .none) (x : GoString) :
    appLevel org p app x = .none := by
  have hbase : projectPermWithRole (honoredGrants org p app).perms p.level app (org.roleIn app) =
      .none := by
    rcases h with h | ⟨h, hclosed⟩
    · rw [h, projectPermWithRole]
    · have hgrant : projectGrant org p app = some .none := by
        simp [projectGrant, hclosed, counts, honor]
      rw [h]
      simp [projectPermWithRole, honoredGrants, hgrant]
  rw [appLevel, hbase]
  simp [View.folderLevel]

end View

end Beardrive
