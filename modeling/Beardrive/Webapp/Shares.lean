import Beardrive.Webapp.AppGrants
import Beardrive.Webapp.Moves

/-!
# What a share link serves

Whoever has a share link reads one file, without an account. The link stops working when its
creator leaves the organization, or may no longer read what it publishes. It follows the file when
the file moves.

## Two paths

The hub asks for the creator's level at the path the link was minted for. What it serves is the
path the moves lead to. A file that is moved into a folder its creator may not read is served from
there, for as long as the creator may read the place it was moved from.

## Main definitions

* `handleShared` — the answer to a request for a link
* `Journey` — the paths a file has been at, by the moves of an index
* `Strayed` — a file that moves have carried to where the creator of its link may not read

## Main results

* `resolveShare_eq_some_iff` — a link resolves to where a journey ends
* `shared_readable_iff` — when nothing is served that the creator may not read
-/

namespace Beardrive

/-! ### Journeys -/

/-- The first thing that happened to a path after a time. -/
def MoveIndex.firstAfter (idx : MoveIndex) (p : GoString) (since : Time) : Option PathEvent :=
  (idx p).find? fun e => since.before e.at_

/-- The paths that a file, which was at `p` at a time, has been at: the last of them is `q`, since
another time. A file does not come back to a path. -/
inductive Journey (idx : MoveIndex) (p : GoString) (since : Time) :
    List GoString → GoString → Time → Prop
  | start : Journey idx p since [p] p since
  | move {seen : List GoString} {q : GoString} {t : Time} {e : PathEvent} :
      Journey idx p since seen q t → idx.firstAfter q t = some e → e.to_ ≠ [] → e.to_ ∉ seen →
        Journey idx p since (seen ++ [e.to_]) e.to_ e.at_

section

variable {idx : MoveIndex} {files : GoString → Option HubFileInfo} {p q : GoString}
  {since t : Time} {seen : List GoString}

/-- The walk is where the journey is, with as many steps left as the journey leaves it. -/
theorem Journey.followFile (h : Journey idx p since seen q t) {n : ℕ}
    (hn : n + seen.length = maxChain + 1) :
    followFile idx files p since = followFrom idx files n seen q t := by
  induction h generalizing n with
  | start =>
    obtain rfl : n = maxChain := by simpa using hn
    rfl
  | @move seen q t e _ hfirst hne hnew ih =>
    rw [List.length_append, List.length_singleton] at hn
    rw [ih (n := n + 1) (by omega), followFrom]
    simp only [MoveIndex.firstAfter] at hfirst
    rw [hfirst]
    simp only [not_or.mpr ⟨hne, hnew⟩, if_false]

/-- A walk that finds the file ends a journey. -/
theorem Journey.of_live (h : Journey idx p since seen q t) {n : ℕ}
    (hn : n + seen.length = maxChain + 1) (hlive : (followFrom idx files n seen q t).live = true) :
    ∃ seen' t', Journey idx p since seen' (followFrom idx files n seen q t).last t' ∧
      seen'.length ≤ maxChain ∧
        idx.firstAfter (followFrom idx files n seen q t).last t' = none ∧
          (files (followFrom idx files n seen q t).last).isSome = true := by
  induction n generalizing seen q t with
  | zero => cases hlive
  | succ n ih =>
    rw [followFrom] at hlive ⊢
    cases hfirst : (idx q).find? fun e => t.before e.at_ with
    | none =>
      simp only [hfirst] at hlive
      exact ⟨seen, t, h, by omega, hfirst, hlive⟩
    | some e =>
      simp only [hfirst] at hlive ⊢
      by_cases hto : e.to_ = [] ∨ e.to_ ∈ seen
      · rw [if_pos hto] at hlive
        cases hlive
      · rw [if_neg hto] at hlive ⊢
        obtain ⟨hne, hnew⟩ := not_or.mp hto
        refine ih (h.move hfirst hne hnew) ?_ hlive
        rw [List.length_append, List.length_singleton]
        omega

/-- **A link resolves to a path exactly when a journey of the file ends there** and the file is
listed. -/
theorem resolveShare_eq_some_iff : resolveShare idx files p since = some q ↔
    ∃ seen t, Journey idx p since seen q t ∧ seen.length ≤ maxChain ∧
      idx.firstAfter q t = none ∧ (files q).isSome = true := by
  unfold resolveShare
  constructor
  · intro h
    split_ifs at h with hlive
    cases h
    exact Journey.start.of_live (n := maxChain) rfl hlive
  · rintro ⟨seen, t, hjourney, hlen, hrest, hfile⟩
    obtain ⟨n, hn⟩ : ∃ n, n + 1 + seen.length = maxChain + 1 :=
      ⟨maxChain - seen.length, by omega⟩
    rw [MoveIndex.firstAfter] at hrest
    rw [hjourney.followFile hn, followFrom, hrest]
    simp only [hfile, if_true]

end

/-! ### A request for a link -/

/-- A link: what it was minted for, by whom and when. -/
structure Share where
  path : GoString
  creator : GoString := []
  created : Time := {}

/-- What the hub consults for a request. There is a directory of organizations and there are
accounts, unless it serves a single volume; the project has an organization, unless that was
cleared; the journals can be read, unless the store fails. -/
structure ShareHub where
  dir : Bool := true
  auth : Bool := true
  org : Option Org
  project : Option Project
  shares : GoString → Option Share
  journals : Option (List (List Op))
  limited : Bool := false
  checkRead : ℤ → Bool := fun _ => true
  content : GoString → HubFileInfo → Option GoString

/-- An answer: an error and its text, or a file's content. -/
inductive SharedAnswer where
  | error (status : ℕ) (text : String)
  | content (path body : GoString)
  deriving DecidableEq, Repr

/-- `projectPermFor`. -/
def projectPermFor (org : Org) (p : Project) (email : GoString) : Level :=
  let role := org.roleIn email
  let perms := if role = .app then (honoredGrants org p email).perms else p.perms
  projectPermWithRole perms p.level email role

section

variable (normEmail : GoString → GoString)

/-- `shareCreatorStillBelongs`. -/
def ShareHub.shareCreatorStillBelongs (hub : ShareHub) (sh : Share) : Bool :=
  if !hub.dir || sh.creator == [] then true
  else
    match hub.org with
    | none => false
    | some org => org.role (normEmail sh.creator) != .none

/-- `shareStillReadable`. -/
def ShareHub.shareStillReadable (hub : ShareHub) (sh : Share) : Bool :=
  if !hub.dir || !hub.auth || sh.creator == [] then true
  else
    match hub.project with
    | none => true
    | some p =>
      if p.folders.isEmpty then true
      else
        match hub.org with
        | none => false
        | some org =>
          let creator := normEmail sh.creator
          atLeast (folderLevel p.folders creator sh.path (projectPermFor org p creator)) .read

/-- The answer to a token that was never minted, and to a link that no longer works. -/
def SharedAnswer.gone : SharedAnswer := .error 404 "this link does not exist or was revoked"

/-- `handleShared`. -/
def ShareHub.handleShared (hub : ShareHub) (token : GoString) : SharedAnswer :=
  if hub.limited then .error 429 "too many requests — slow down"
  else
    match hub.shares token with
    | none => .gone
    | some sh =>
      if !hub.shareCreatorStillBelongs normEmail sh then .gone
      else if !hub.shareStillReadable normEmail sh then .gone
      else
        match hub.project, hub.journals with
        | none, _ => .gone
        | some _, none => .error 502 "content temporarily unavailable"
        | some _, some journals =>
          let ops := byPathOrder journals
          match resolveShare (buildMoveIndex ops) (foldFiles ops) sh.path sh.created with
          | none => .error 404 "the shared file no longer exists"
          | some sp =>
            let fi := (foldFiles ops sp).getD {}
            if !hub.checkRead fi.size then
              .error 429 ("This link has exceeded its transfer limit for now. " ++
                "Ask whoever shared it to get in touch with us.")
            else
              match hub.content sp fi with
              | none => .error 502 "content temporarily unavailable"
              | some body => .content sp body

/-- The folder level of a link's creator at a path. Without a directory or accounts everybody is an
administrator. -/
def ShareHub.creatorLevel (hub : ShareHub) (p : Project) (sh : Share) (filePath : GoString) :
    Level :=
  if !hub.dir || !hub.auth then .admin
  else
    match hub.org with
    | none => .none
    | some org =>
      folderLevel p.folders (normEmail sh.creator) filePath
        (projectPermFor org p (normEmail sh.creator))

/-- A link that works has a file that moves have carried, since it was minted, into a folder whose
rule leaves its creator less than read. -/
def ShareHub.Strayed (hub : ShareHub) (p : Project) (sh : Share) : Prop :=
  hub.dir = true ∧ hub.auth = true ∧ hub.limited = false ∧
    hub.shareCreatorStillBelongs normEmail sh = true ∧
    hub.shareStillReadable normEmail sh = true ∧
    ∃ org journals, hub.org = some org ∧ hub.journals = some journals ∧
      ∃ seen dest t, Journey (buildMoveIndex (byPathOrder journals)) sh.path sh.created seen dest t ∧
        seen.length ≤ maxChain ∧
        (buildMoveIndex (byPathOrder journals)).firstAfter dest t = none ∧
        (∃ fi, foldFiles (byPathOrder journals) dest = some fi ∧ hub.checkRead fi.size = true ∧
          (hub.content dest fi).isSome = true) ∧
        ∃ rule, ruleFor p.folders dest = some rule ∧
          atLeast (ruleLevel rule (normEmail sh.creator)
            (projectPermFor org p (normEmail sh.creator))) .read = false

end

/-! ### What is served -/

section

variable {normEmail : GoString → GoString} {hub : ShareHub} {token sp body : GoString} {sh : Share}
  {p : Project}

theorem folderLevel_of_open {folders : List FolderRule} {email filePath : GoString} {base : Level}
    (hnone : base ≠ .none) (hunset : base ≠ .unset) :
    folderLevel folders email filePath base =
      match ruleFor folders filePath with
      | none => base
      | some rule => ruleLevel rule email base := by
  unfold folderLevel
  exact if_neg (not_or.mpr ⟨hnone, hunset⟩)

theorem atLeast_read {level : Level} (hnone : level ≠ .none) (hunset : level ≠ .unset) :
    atLeast level .read = true := by
  cases level with
  | unset => exact absurd rfl hunset
  | none => exact absurd rfl hnone
  | read => rfl
  | write => rfl
  | admin => rfl

/-- Who may read a path is let into the project. -/
theorem base_of_folderLevel {folders : List FolderRule} {email filePath : GoString} {base : Level}
    (h : atLeast (folderLevel folders email filePath base) .read = true) :
    base ≠ .none ∧ base ≠ .unset := by
  refine ⟨fun hbase => ?_, fun hbase => ?_⟩
  · rw [folderLevel, if_pos (.inl hbase)] at h
    cases h
  · rw [folderLevel, if_pos (.inr hbase)] at h
    cases h

/-- Everything a request passes before content is served. -/
theorem handleShared_eq_content (hshare : hub.shares token = some sh)
    (hproject : hub.project = some p) :
    hub.handleShared normEmail token = .content sp body ↔
      hub.limited = false ∧ hub.shareCreatorStillBelongs normEmail sh = true ∧
        hub.shareStillReadable normEmail sh = true ∧
        ∃ journals, hub.journals = some journals ∧
          resolveShare (buildMoveIndex (byPathOrder journals)) (foldFiles (byPathOrder journals))
            sh.path sh.created = some sp ∧
          hub.checkRead ((foldFiles (byPathOrder journals) sp).getD {}).size = true ∧
          hub.content sp ((foldFiles (byPathOrder journals) sp).getD {}) = some body := by
  unfold ShareHub.handleShared
  cases hlimited : hub.limited
  case true => simp
  cases hbelongs : hub.shareCreatorStillBelongs normEmail sh
  case false => simp [hshare, hbelongs, SharedAnswer.gone]
  cases hreadable : hub.shareStillReadable normEmail sh
  case false => simp [hshare, hbelongs, hreadable, SharedAnswer.gone]
  cases hjournals : hub.journals with
  | none => simp [hshare, hbelongs, hreadable, hproject]
  | some journals =>
    simp only [hshare, hbelongs, hreadable, hproject, Bool.false_eq_true, Bool.not_true, if_false,
      true_and, Option.some.injEq, exists_eq_left']
    cases hresolve : resolveShare (buildMoveIndex (byPathOrder journals))
      (foldFiles (byPathOrder journals)) sh.path sh.created with
    | none => simp
    | some q =>
      simp only [Option.some.injEq]
      constructor
      · intro h
        split_ifs at h with hquota
        rw [Bool.not_eq_true, Bool.not_eq_false'] at hquota
        cases hcontent : hub.content q ((foldFiles (byPathOrder journals) q).getD {}) with
        | none => simp [hcontent] at h
        | some b =>
          simp only [hcontent, SharedAnswer.content.injEq] at h
          obtain ⟨rfl, rfl⟩ := h
          exact ⟨rfl, hquota, hcontent⟩
      · rintro ⟨rfl, hquota, hcontent⟩
        simp [hquota, hcontent]

/-- **Nothing is served that the creator of the link may not read, exactly when no move has carried
the file, since the link was minted, into a folder whose rule leaves its creator less than read.** -/
theorem shared_readable_iff (normEmail : GoString → GoString) (hub : ShareHub) (token : GoString)
    (sh : Share) (p : Project) (hshare : hub.shares token = some sh)
    (hproject : hub.project = some p) (hfolders : p.folders ≠ []) (hcreator : sh.creator ≠ []) :
    (∀ sp body, hub.handleShared normEmail token = .content sp body →
      atLeast (hub.creatorLevel normEmail p sh sp) .read = true) ↔
        ¬ hub.Strayed normEmail p sh := by
  have hnamed : (sh.creator == []) = false := beq_eq_false_iff_ne.mpr hcreator
  have hrules : p.folders.isEmpty = false := by simpa using hfolders
  have hopen {org : Org} (hdir : hub.dir = true) (hauth : hub.auth = true)
      (horg : hub.org = some org) (hreadable : hub.shareStillReadable normEmail sh = true) :
      projectPermFor org p (normEmail sh.creator) ≠ .none ∧
        projectPermFor org p (normEmail sh.creator) ≠ .unset := by
    have hlevel : atLeast (folderLevel p.folders (normEmail sh.creator) sh.path
        (projectPermFor org p (normEmail sh.creator))) .read = true := by
      simpa [ShareHub.shareStillReadable, hdir, hauth, hnamed, hproject, hrules, horg]
        using hreadable
    exact base_of_folderLevel hlevel
  constructor
  · rintro h ⟨hdir, hauth, hlimited, hbelongs, hreadable, org, journals, horg, hjournals, seen,
      dest, t, hjourney, hlen, hrest, ⟨fi, hfi, hquota, hcontent⟩, rule, hrule, hdenied⟩
    obtain ⟨body, hbody⟩ := Option.isSome_iff_exists.mp hcontent
    have hfile : (foldFiles (byPathOrder journals) dest).isSome = true := by
      rw [hfi]
      rfl
    have hresolve := resolveShare_eq_some_iff.mpr ⟨seen, t, hjourney, hlen, hrest, hfile⟩
    have hserved := (handleShared_eq_content hshare hproject).mpr
      ⟨hlimited, hbelongs, hreadable, journals, hjournals, hresolve, by rw [hfi]; exact hquota,
        by rw [hfi]; exact hbody⟩
    have hlevel := h dest body hserved
    obtain ⟨hnone, hunset⟩ := hopen hdir hauth horg hreadable
    simp only [ShareHub.creatorLevel, hdir, hauth, horg, Bool.not_true, Bool.or_self,
      Bool.false_eq_true, if_false, folderLevel_of_open hnone hunset, hrule] at hlevel
    rw [hdenied] at hlevel
    cases hlevel
  · intro hstays sp body hserved
    by_contra hdenied
    obtain ⟨hlimited, hbelongs, hreadable, journals, hjournals, hresolve, hquota, hcontent⟩ :=
      (handleShared_eq_content hshare hproject).mp hserved
    obtain ⟨seen, t, hjourney, hlen, hrest, hfile⟩ := resolveShare_eq_some_iff.mp hresolve
    obtain ⟨fi, hfi⟩ := Option.isSome_iff_exists.mp hfile
    have hmodel : hub.dir = true ∧ hub.auth = true := by
      by_contra hmodel
      refine hdenied ?_
      have hfree : (!hub.dir || !hub.auth) = true := by
        cases hdir : hub.dir <;> cases hauth : hub.auth <;> simp_all
      rw [ShareHub.creatorLevel, if_pos hfree]
      rfl
    obtain ⟨hdir, hauth⟩ := hmodel
    cases horg : hub.org with
    | none => simp [ShareHub.shareCreatorStillBelongs, hdir, hnamed, horg] at hbelongs
    | some org =>
      obtain ⟨hnone, hunset⟩ := hopen hdir hauth horg hreadable
      simp only [ShareHub.creatorLevel, hdir, hauth, horg, Bool.not_true, Bool.or_self,
        Bool.false_eq_true, if_false, folderLevel_of_open hnone hunset] at hdenied
      rw [hfi, Option.getD_some] at hquota hcontent
      have hthere : (hub.content sp fi).isSome = true := by
        rw [hcontent]
        rfl
      cases hrule : ruleFor p.folders sp with
      | none =>
        rw [hrule] at hdenied
        exact hdenied (atLeast_read hnone hunset)
      | some rule =>
        rw [hrule, Bool.not_eq_true] at hdenied
        exact hstays ⟨hdir, hauth, hlimited, hbelongs, hreadable, org, journals, horg, hjournals,
          seen, sp, t, hjourney, hlen, hrest, ⟨fi, hfi, hquota, hthere⟩, rule, hrule, hdenied⟩

end

/-- A folder that is closed to everybody. -/
def closedRule : FolderRule where
  pre := ascii "closed/"
  default := .none
  normalized := ⟨ascii "closed", by decide⟩

theorem noPerms_set : ∀ _ : GoString, (none : Option Level) ≠ some .unset := by simp

theorem noGrants_nodup :
    (([] : List AppFolderGrant).map fun g => (g.pre, g.app)).Nodup := by simp

/-- Its project, and an organization of one member. -/
def closedProject : Project where
  folders := [closedRule]
  perms_set := noPerms_set
  rules_set := by simp [closedRule]
  rules_nodup := by simp
  grants_nodup := noGrants_nodup

def soleMember : Org where
  role email := if email = ascii "a@b.c" then .member else .none
  apps _ := false
  role_ne_app email := by split <;> simp

/-- A page is shared, and a minute after noon it is moved to another path. -/
def movedPage (dest : String) : ShareHub where
  org := some soleMember
  project := some closedProject
  shares _ := some
    { path := ascii "f", creator := ascii "a@b.c"
      created := { year := 2026, hour := 12, valid := validCivil_noon } }
  journals :=
    let page : Op :=
      { seq := 1, lamport := 1, device := ascii "a",
        time := { year := 2026, hour := 11, valid := validCivil_eleven },
        kind := .put, path := ascii "f", blob := contentOf 0x61 }
    let there : Op :=
      { page with seq := 2, lamport := 2, time := { year := 2026, hour := 12, minute := 1 },
                  path := ascii dest }
    let gone : Op :=
      { there with seq := 3, lamport := 3, path := ascii "f", kind := .delete, blob := [] }
    some [[page, there, gone]]
  content _ fi := some fi.blob

/-- It is served from where it is, which its creator may read. -/
theorem moved_page_not_strayed : ¬ (movedPage "open/f").Strayed id closedProject
    { path := ascii "f", creator := ascii "a@b.c", created := { year := 2026, hour := 12 } } := by
  refine (shared_readable_iff id (movedPage "open/f") (ascii "t") _ closedProject rfl rfl
    (by simp [closedProject]) (by decide)).mp fun sp body hserved => ?_
  have hanswer : (movedPage "open/f").handleShared id (ascii "t") =
      .content (ascii "open/f") (contentOf 0x61) := by decide +kernel
  obtain ⟨rfl, -⟩ := SharedAnswer.content.inj (hanswer.symm.trans hserved)
  decide +kernel

/-- A page that has been moved into the closed folder is served from there. -/
theorem moved_page_served_from_closed : ¬ ∀ (hub : ShareHub) (token : GoString) (sh : Share)
    (p : Project), hub.shares token = some sh → hub.project = some p → p.folders ≠ [] →
      sh.creator ≠ [] → ∀ sp body, hub.handleShared id token = .content sp body →
        atLeast (hub.creatorLevel id p sh sp) .read = true := by
  intro h
  have hserved : (movedPage "closed/f").handleShared id (ascii "t") =
      .content (ascii "closed/f") (contentOf 0x61) := by decide +kernel
  have hread := h (movedPage "closed/f") (ascii "t") _ closedProject rfl rfl
    (by simp [closedProject]) (by decide) _ _ hserved
  exact absurd hread (by decide +kernel)

end Beardrive
