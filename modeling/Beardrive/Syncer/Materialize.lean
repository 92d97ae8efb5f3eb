import Beardrive.Syncer.Conflict
import Mathlib.Logic.Function.Basic

/-!
# Materializing

The last step of a cycle brings the folder to the merged state. It writes what the cache does not
have as the state has it, and unlinks what the cache has and the state does not, and leaves every
file alone that has changed since the scan. What is done at a path is decided by the entry that
stands there and by the cache; the folder is its entries by their paths, directories apart.

A folder this account may not write is the exception. The scan journals nothing there, so the
project's version is put back over a local edit, which is copied beside the file first.

## Main definitions

* `Disk`, `FileSystem` — the entries of a folder, and what the file system answers
* `materializeFile`, `materializeSymlink` — one path of the merged state
* `materialize` — the two loops over the merged state and over the cache
* `MaterializeEnv.replaces` — whether one path is written, where this account may write it

## Main results

* `materializeFile_cases` — what materializing a path can do
* `materializeFile_replaces` — a path is written exactly when its entry and the cache say so
-/

namespace Beardrive

/-! ### The folder -/

/-- The entries of a folder by their paths. -/
abbrev Disk := GoString → Option Node

/-- `safeMode`: the permission bits, but for the write bits of everyone but the owner. -/
def safeMode (m : UInt32) : UInt32 := m &&& 0o777 &&& ~~~0o022

/-- What the file system answers. -/
structure FileSystem where
  /-- What is found behind a link, and its content. -/
  through : GoString → Option (FileInfo × Option GoString) := fun _ => none
  /-- The size and the time of an entry that is neither a file nor a link. -/
  infoOf : GoString → FileInfo := fun _ => {}
  /-- Whether an entry can be put at a path. -/
  takes : GoString → Bool := fun _ => true
  /-- The time it is put there. -/
  written : GoString → Time := fun _ => {}
  /-- Whether the entry at a path can be unlinked. -/
  removes : GoString → Bool := fun _ => true
  /-- `UnderRoot`: no directory on the way leads out of the folder. -/
  underRoot : GoString → Bool := fun _ => true

/-- What materializing goes by. -/
structure MaterializeEnv extends FileSystem where
  hash : Hash
  blobs : Blobs
  scope : WriteScope
  filter : Filter

/-- What materializing changes: the folder, the cache, the events of the next turn, the files put
back, and the paths counted as materialized. -/
structure MaterializeState where
  disk : Disk
  cache : Cache
  cacheDirty : Bool := false
  inbound : List (GoString × Bool) := []
  reverted : List GoString := []
  changed : List GoString := []

/-- `Readlink`. -/
def readlink : Option Node → Option GoString
  | some (.symlink _ target true) => some target
  | _ => none

/-- Whether an entry is a symbolic link. -/
def isSymlink : Option Node → Bool
  | some (.symlink ..) => true
  | _ => false

/-- `cachedPathMatches`: an entry has the type and the fingerprint the cache has. -/
def cachedPathMatches (d : Option Node) (c : CachedFile) : Bool :=
  if c.link ≠ [] then
    match d with
    | some (.symlink info target readable) =>
      readable && target == c.link && info.size == c.size && info.mtimeNS == c.mtimeNS
    | _ => false
  else
    match d with
    | some (.file info _ _) => info.size == c.size && info.mtimeNS == c.mtimeNS
    | _ => false

namespace MaterializeEnv

variable (env : MaterializeEnv)

/-- `Stat`. -/
def stat (s : MaterializeState) (rel : GoString) : Option FileInfo :=
  match s.disk rel with
  | some (.file info _ _) => some info
  | some (.symlink ..) => (env.through rel).map Prod.fst
  | some _ => some (env.infoOf rel)
  | none => none

/-- The content at a path, as far as it can be read. -/
def read (s : MaterializeState) (rel : GoString) : Option GoString :=
  match s.disk rel with
  | some (.file _ content readable) => if readable then some content else none
  | some (.symlink ..) => (env.through rel).bind Prod.snd
  | _ => none

/-- `hashFile`. -/
def hashFile (s : MaterializeState) (rel : GoString) : Option GoString :=
  (env.read s rel).map env.hash.sum

/-! ### Files that may not be written -/

/-- `readOnlyDrifted`. -/
def readOnlyDrifted (s : MaterializeState) (rel : GoString) (c : CachedFile) : Bool :=
  env.scope.readOnlyPath rel && !underAny rel env.scope.denied &&
    match env.stat s rel with
    | none => true
    | some fi => fi.size != c.size || fi.mtimeNS != c.mtimeNS

end MaterializeEnv

/-- `filepath.Ext`, of a name. -/
def nameExt (name : GoString) : GoString :=
  let tail := (name.reverse.takeWhile (· ≠ 0x2E)).reverse
  if tail.length = name.length then [] else 0x2E :: tail

/-- The path beside a file where its local edit is kept. -/
def localCopyPath (rel : GoString) : GoString :=
  (splitDir rel).1 ++ (trimSuffix (splitDir rel).2 (nameExt (splitDir rel).2) ++
    ascii " (local, not synced)" ++ nameExt (splitDir rel).2)

namespace MaterializeEnv

variable (env : MaterializeEnv)

/-- `keepLocalCopy`: a copy that is there already is not made again. Nothing comes of it where the
file cannot be read or the copy cannot be written. -/
def keepLocalCopy (s : MaterializeState) (rel : GoString) : Option MaterializeState :=
  match env.read s rel with
  | none => none
  | some mine =>
    if env.hashFile s (localCopyPath rel) == some (env.hash.sum mine) then some s
    else if !env.takes (localCopyPath rel) then none
    else
      let info : FileInfo := { size := mine.length, mtime := env.written (localCopyPath rel) }
      match s.disk (localCopyPath rel) with
      | some (.symlink ..) => some s -- the copy is written through the link
      | some (.file old _ _) => some { s with
          disk := Function.update s.disk (localCopyPath rel)
            (some (.file { info with mode := old.mode } mine true)) }
      | _ => some { s with
          disk := Function.update s.disk (localCopyPath rel) (some (.file info mine true)) }

/-! ### One path -/

/-- Put an entry at a path: the cache has it from then on, and the next turn is told. -/
def place (s : MaterializeState) (rel : GoString) (node : Node) (c : CachedFile) :
    MaterializeState :=
  { s with
    disk := Function.update s.disk rel (some node)
    cache := s.cache.insert rel c
    cacheDirty := true
    inbound := s.inbound ++ [(rel, false)] }

/-- `materializeSymlink`, and whether it wrote. -/
def materializeSymlink (s : MaterializeState) (rel target : GoString) : MaterializeState × Bool :=
  let c := s.cache.lookup rel
  let writable := !env.scope.readOnlyPath rel
  let info : FileInfo := { size := target.length, mtime := env.written rel, mode := 0o777 }
  let put :=
    if !env.takes rel then (s, false)
    else (place s rel (.symlink info target true)
      { link := target, size := info.size, mtimeNS := info.mtimeNS }, true)
  if c.any fun c => writable && !cachedPathMatches (s.disk rel) c then (s, false)
  else if c.any fun c => writable && c.link != [] && readlink (s.disk rel) == some target then
    (s, false)
  else
    match s.disk rel with
    | some (.symlink info cur readable) =>
      if readable && cur == target then
        ({ s with
            cache := s.cache.insert rel { link := target, size := info.size, mtimeNS := info.mtimeNS }
            cacheDirty := true }, false)
      else if c.isNone then (s, false)
      else put
    | some _ => if c.isNone then (s, false) else put
    | none => put

/-- What is done with the file that stands at a path before it is written over, if it may be. -/
def setAside (s : MaterializeState) (rel blob : GoString) : Option MaterializeState :=
  match env.stat s rel with
  | none => some s
  | some fi =>
    match s.cache.lookup rel with
    | some c =>
      if c.link == [] && (fi.size != c.size || fi.mtimeNS != c.mtimeNS) then
        if !env.scope.readOnlyPath rel then none -- the next scan commits it
        else (env.keepLocalCopy s rel).map fun s => { s with reverted := s.reverted ++ [rel] }
      else some s
    | none => if env.hashFile s rel == some blob then some s else none

/-- `materializeFile`, and whether it wrote. -/
def materializeFile (s : MaterializeState) (rel : GoString) (want : FileState) :
    MaterializeState × Bool :=
  if want.link ≠ [] then env.materializeSymlink s rel want.link
  else
    let mode := safeMode want.mode
    let c := s.cache.lookup rel
    if c.any fun c => c.blob == want.blob && c.mode == mode && !env.readOnlyDrifted s rel c then
      (s, false)
    else if c.any fun c => !env.scope.readOnlyPath rel && !cachedPathMatches (s.disk rel) c then
      (s, false)
    else if c.isNone && isSymlink (s.disk rel) then (s, false)
    else
      match env.setAside s rel want.blob with
      | none => (s, false)
      | some s =>
        if !env.blobs.has want.blob || !env.takes rel then (s, false)
        else
          let content := (env.blobs.open_ want.blob).getD []
          let info : FileInfo :=
            { size := content.length, mtime := env.written rel
              mode := if mode = 0 then 0o644 else mode }
          (place s rel (.file info content true)
            { blob := want.blob, size := info.size, mode := mode, mtimeNS := info.mtimeNS }, true)

/-- A path that was written is counted. -/
def counted (r : MaterializeState × Bool) (rel : GoString) : MaterializeState :=
  if r.2 then { r.1 with changed := r.1.changed ++ [rel] } else r.1

/-! ### The loops -/

/-- The first loop, at a path of the merged state. -/
def visit (target : State) (s : MaterializeState) (rel : GoString) : MaterializeState :=
  match target rel with
  | none => s
  | some want =>
    if neverSync rel then s
    else if want.link == [] && (s.cache.lookup rel).any fun c =>
        c.link == [] && c.blob == want.blob && c.mode == safeMode want.mode &&
          !env.scope.readOnlyPath rel then s
    else if env.filter.skip rel then s
    else counted (env.materializeFile s rel want) rel

/-- The cache has a path no longer. -/
def forgetEntry (s : MaterializeState) (rel : GoString) : MaterializeState :=
  { s with cache := s.cache.erase rel, cacheDirty := true }

/-- The second loop, at a key of the cache. -/
def unlink (target : State) (s : MaterializeState) (rel : GoString) : MaterializeState :=
  match target rel, s.cache.lookup rel with
  | none, some c =>
    if neverSync rel || env.filter.skip rel || !env.underRoot rel then forgetEntry s rel
    else
      match env.stat s rel with
      | some fi =>
        if fi.size != c.size || fi.mtimeNS != c.mtimeNS then s
        else if !env.removes rel then s
        else
          let s := forgetEntry s rel
          { s with
            disk := Function.update s.disk rel none
            inbound := s.inbound ++ [(rel, true)]
            changed := s.changed ++ [rel] }
      | none =>
        let s := forgetEntry s rel
        { s with changed := s.changed ++ [rel] }
  | _, _ => s

/-- `materialize`; the paths of the merged state and the keys of the cache come in the order of a Go
map, which is any. -/
def materialize (target : State) (paths : List GoString) (keyOrder : List GoString → List GoString)
    (s : MaterializeState) : MaterializeState :=
  let s := paths.foldl (env.visit target) s
  (keyOrder s.cache.keys).foldl (env.unlink target) s

/-! ### What is done at one path -/

/-- A local edit may have been copied aside: nothing else has changed, and nothing at all where this
account may write. -/
structure Aside (s : MaterializeState) (rel : GoString) (s' : MaterializeState) : Prop where
  disk : ∀ p, env.scope.readOnlyPath rel = false ∨ p ≠ localCopyPath rel → s'.disk p = s.disk p
  cache : s'.cache = s.cache
  inbound : s'.inbound = s.inbound
  changed : s'.changed = s.changed

variable {env}

theorem Aside.refl (s : MaterializeState) (rel : GoString) : env.Aside s rel s where
  disk _ _ := rfl
  cache := rfl
  inbound := rfl
  changed := rfl

theorem aside_of_keepLocalCopy {s s' : MaterializeState} {rel : GoString}
    (hro : env.scope.readOnlyPath rel = true) (h : env.keepLocalCopy s rel = some s') :
    env.Aside s rel { s' with reverted := s'.reverted ++ [rel] } := by
  have hdisk (node : Node) : env.Aside s rel { s with
      disk := Function.update s.disk (localCopyPath rel) (some node)
      reverted := s.reverted ++ [rel] } :=
    ⟨fun p hp => Function.update_of_ne (hp.resolve_left (by simp [hro])) _ _, rfl, rfl, rfl⟩
  unfold keepLocalCopy at h
  split at h
  · cases h
  · dsimp only at h
    split_ifs at h
    · obtain rfl := Option.some.inj h
      exact ⟨fun _ _ => rfl, rfl, rfl, rfl⟩
    · split at h <;> obtain rfl := Option.some.inj h
      · exact ⟨fun _ _ => rfl, rfl, rfl, rfl⟩
      · exact hdisk _
      · exact hdisk _

theorem aside_of_setAside {s s' : MaterializeState} {rel blob : GoString}
    (h : env.setAside s rel blob = some s') : env.Aside s rel s' := by
  unfold setAside at h
  split at h
  · exact Option.some.inj h ▸ .refl s rel
  · split at h
    · split_ifs at h with _ hro
      · rw [Bool.not_eq_true, Bool.not_eq_false'] at hro
        obtain ⟨t, ht, rfl⟩ := Option.map_eq_some_iff.mp h
        exact aside_of_keepLocalCopy hro ht
      · exact Option.some.inj h ▸ .refl s rel
    · split_ifs at h
      exact Option.some.inj h ▸ .refl s rel

/-- What materializing a path leaves: its entry as it is, a link that stands there already in the
cache, or a new entry. -/
inductive Placed (s : MaterializeState) (rel : GoString) (want : FileState) :
    MaterializeState × Bool → Prop
  | left (s' : MaterializeState) (aside : env.Aside s rel s') : Placed s rel want (s', false)
  | adopted (info : FileInfo) (stands : s.disk rel = some (.symlink info want.link true)) :
      Placed s rel want ({ s with
        cache := s.cache.insert rel
          { link := want.link, size := info.size, mtimeNS := info.mtimeNS }
        cacheDirty := true }, false)
  | placed (s' : MaterializeState) (aside : env.Aside s rel s') (node : Node) (c : CachedFile) :
      Placed s rel want (place s' rel node c, true)

theorem materializeSymlink_cases (s : MaterializeState) (rel : GoString) (want : FileState) :
    env.Placed s rel want (env.materializeSymlink s rel want.link) := by
  have hput (node : Node) (c : CachedFile) : env.Placed s rel want
      (if !env.takes rel then (s, false) else (place s rel node c, true)) := by
    split
    · exact .left s (.refl s rel)
    · exact .placed s (.refl s rel) node c
  unfold materializeSymlink
  dsimp only
  split
  · exact .left s (.refl s rel)
  split
  · exact .left s (.refl s rel)
  split
  · rename_i info cur readable hdisk
    split
    · rename_i hcur
      rw [Bool.and_eq_true, beq_iff_eq] at hcur
      obtain ⟨rfl, rfl⟩ := hcur
      exact .adopted info hdisk
    · split
      · exact .left s (.refl s rel)
      · exact hput _ _
  · split
    · exact .left s (.refl s rel)
    · exact hput _ _
  · exact hput _ _

/-- **What materializing a path can do.** -/
theorem materializeFile_cases (s : MaterializeState) (rel : GoString) (want : FileState) :
    env.Placed s rel want (env.materializeFile s rel want) := by
  unfold materializeFile
  split
  · exact materializeSymlink_cases s rel want
  dsimp only
  split
  · exact .left s (.refl s rel)
  split
  · exact .left s (.refl s rel)
  split
  · exact .left s (.refl s rel)
  split
  · exact .left s (.refl s rel)
  · rename_i s' haside
    split
    · exact .left s' (aside_of_setAside haside)
    · exact .placed s' (aside_of_setAside haside) _ _

/-! ### Whether a path is written -/

variable (env) in
/-- Whether materializing writes a path this account may write, by the entry that stands there and
the one in the cache. -/
def replaces (rel : GoString) (d : Option Node) (c : Option CachedFile) (want : FileState) : Bool :=
  env.takes rel &&
    if want.link ≠ [] then
      match c with
      | some c => cachedPathMatches d c && readlink d != some want.link
      | none => d.isNone
    else
      env.blobs.has want.blob &&
        match c with
        | some c => !(c.blob == want.blob && c.mode == safeMode want.mode) && cachedPathMatches d c
        | none =>
          match d with
          | none => true
          | some (.file _ content readable) => readable && env.hash.sum content == want.blob
          | _ => false

/-- An entry that is as the cache has it is of the type the cache has. -/
theorem cachedPathMatches_iff {d : Option Node} {c : CachedFile} : cachedPathMatches d c = true ↔
    (c.link ≠ [] ∧ ∃ info, d = some (.symlink info c.link true) ∧
        info.size = c.size ∧ info.mtimeNS = c.mtimeNS) ∨
      c.link = [] ∧ ∃ info content readable, d = some (.file info content readable) ∧
        info.size = c.size ∧ info.mtimeNS = c.mtimeNS := by
  unfold cachedPathMatches
  by_cases hlink : c.link = []
  · rw [if_neg (not_not.mpr hlink)]
    rcases d with _ | (_ | _ | _ | _) <;> simp [hlink]
  · rw [if_pos hlink]
    rcases d with _ | (_ | ⟨info, target, readable⟩ | _ | _)
    case some.symlink =>
      simp only [Bool.and_eq_true, beq_iff_eq, hlink, ne_eq, not_false_eq_true, true_and,
        Option.some.injEq, Node.symlink.injEq, false_and, or_false]
      constructor
      · rintro ⟨⟨⟨rfl, rfl⟩, hsize⟩, htime⟩
        exact ⟨info, ⟨rfl, rfl, rfl⟩, hsize, htime⟩
      · rintro ⟨_, ⟨rfl, rfl, rfl⟩, hsize, htime⟩
        exact ⟨⟨⟨rfl, rfl⟩, hsize⟩, htime⟩
    all_goals simp [hlink]

theorem materializeSymlink_replaces {s : MaterializeState} {rel : GoString} {want : FileState}
    (hro : env.scope.readOnlyPath rel = false) (hlink : want.link ≠ []) :
    (env.materializeSymlink s rel want.link).2 =
      env.replaces rel (s.disk rel) (s.cache.lookup rel) want := by
  have hput (node : Node) (c : CachedFile) :
      (if (!env.takes rel) = true then (s, false) else (place s rel node c, true)).2
        = env.takes rel := by
    cases env.takes rel <;> rfl
  unfold materializeSymlink replaces
  rw [if_pos hlink, hro]
  dsimp only
  cases s.cache.lookup rel with
  | none =>
    rw [if_neg (by simp), if_neg (by simp)]
    split
    · rename_i info cur readable hdisk
      rw [hdisk]
      split <;> simp
    · rename_i node hnode hdisk
      rw [hdisk]
      simp
    · rename_i hdisk
      rw [hput, hdisk]
      simp
  | some c =>
    cases hmatch : cachedPathMatches (s.disk rel) c with
    | false =>
      rw [if_pos (by simp [hmatch])]
      simp [hmatch]
    | true =>
      rw [if_neg (by simp [hmatch])]
      rcases cachedPathMatches_iff.mp hmatch with ⟨hc, info, hdisk, -, -⟩ | ⟨hc, hfile⟩
      · by_cases hsame : c.link = want.link
        · rw [if_pos (by simp [hdisk, readlink, hsame, hlink])]
          simp [hdisk, readlink, hsame]
        · rw [if_neg (by simp [hdisk, readlink, hsame])]
          simp only [hdisk]
          rw [if_neg (by simp [hsame]), if_neg (by simp), hput, ← hdisk, hmatch]
          simp [hdisk, readlink, hsame]
      · obtain ⟨info, content, readable, hdisk, -, -⟩ := hfile
        rw [if_neg (by simp [hc])]
        simp only [hdisk]
        rw [if_neg (by simp), hput, ← hdisk, hmatch]
        simp [hdisk, readlink]

/-- A writable file that is as the cache has it is written over. -/
theorem setAside_of_matches {s : MaterializeState} {rel blob : GoString} {c : CachedFile}
    (hc : s.cache.lookup rel = some c) (hmatch : cachedPathMatches (s.disk rel) c = true) :
    env.setAside s rel blob = some s := by
  unfold setAside
  rcases cachedPathMatches_iff.mp hmatch with ⟨hlink, info, hdisk, -, -⟩ | ⟨-, info, content,
    readable, hdisk, hsize, htime⟩
  · split
    · rfl
    · rw [hc]
      dsimp only
      rw [if_neg (by simp [hlink])]
  · simp [stat, hdisk, hc, hsize, htime]

/-- **A path is written exactly when its entry and the cache say so**, where this account may
write it. -/
theorem materializeFile_replaces {s : MaterializeState} {rel : GoString}
    (hro : env.scope.readOnlyPath rel = false) (want : FileState) :
    (env.materializeFile s rel want).2 =
      env.replaces rel (s.disk rel) (s.cache.lookup rel) want := by
  by_cases hlink : want.link = []
  case neg => rw [materializeFile, if_pos hlink, materializeSymlink_replaces hro hlink]
  unfold materializeFile replaces
  rw [if_neg (not_not.mpr hlink), if_neg (not_not.mpr hlink)]
  dsimp only
  cases hc : s.cache.lookup rel with
  | none =>
    rw [if_neg (by simp), if_neg (by simp)]
    rcases hdisk : s.disk rel with _ | (⟨info, content, readable⟩ | _ | _ | _)
    · have haside : env.setAside s rel want.blob = some s := by
        simp [setAside, stat, hdisk]
      rw [if_neg (by simp [isSymlink]), haside]
      dsimp only
      cases env.takes rel <;> cases env.blobs.has want.blob <;> rfl
    · rw [if_neg (by simp [isSymlink])]
      have haside : env.setAside s rel want.blob =
          if readable && env.hash.sum content == want.blob then some s else none := by
        cases readable <;> simp [setAside, stat, hdisk, hc, hashFile, read]
      rw [haside]
      dsimp only
      cases h : readable && env.hash.sum content == want.blob with
      | false => simp
      | true =>
        rw [if_pos rfl]
        cases env.takes rel <;> cases env.blobs.has want.blob <;> rfl
    · simp [isSymlink]
    · simp [isSymlink, setAside, stat, hdisk, hc, hashFile, read]
    · simp [isSymlink, setAside, stat, hdisk, hc, hashFile, read]
  | some c =>
    have hdrift : env.readOnlyDrifted s rel c = false := by simp [readOnlyDrifted, hro]
    cases hsame : c.blob == want.blob && c.mode == safeMode want.mode with
    | true =>
      rw [if_pos (by simp [hsame, hdrift])]
      simp only [hsame, Bool.not_true, Bool.false_and, Bool.and_false]
    | false =>
      rw [if_neg (by simp [hsame])]
      cases hmatch : cachedPathMatches (s.disk rel) c with
      | false =>
        rw [if_pos (by simp [hro, hmatch])]
        simp only [hmatch, Bool.and_false]
      | true =>
        rw [if_neg (by simp [hmatch]), if_neg (by simp), setAside_of_matches hc hmatch]
        simp only [hsame, hmatch]
        cases env.takes rel <;> cases env.blobs.has want.blob <;> rfl

end MaterializeEnv

end Beardrive
