import Beardrive.Config.Reserved
import Beardrive.Lib.GoTime
import Beardrive.Syncer.Ignore

/-!
# Folders and the walk over them

A folder is a tree of entries as `Lstat` reports them: nothing in it is reached through a
symbolic link. `walkFolder` visits the entries the way the scan does, with the verdict of the
sync predicate on each, and does not enter a directory the predicate prunes.

## Names are well formed

A directory lists every name once, and a name is a plain segment without a separator. That is a
field of `Folder`, so a path determines at most one entry and `lookup` needs no side condition.

## Main definitions

* `Node`, `Folder`, `Folder.lookup` — a snapshot and the entry at a path
* `Folder.lstat` — what a single path answers
* `verdict`, `walkNode`, `walkFolder` — the predicate and the walk

## Main results

* `visit_mem_walkFolder_iff` — what the walk visits: the entries whose directories it all enters
-/

namespace Beardrive

/-- What `Lstat` tells of an entry. The modification time is in UTC. -/
structure FileInfo where
  size : ℤ := 0
  mtime : Time := {}
  mode : UInt32 := 0o644
  deriving DecidableEq, Repr

/-- The modification time as the state cache keeps it. -/
def FileInfo.mtimeNS (info : FileInfo) : ℤ := info.mtime.unixNano

/-- An entry on disk. Contents and targets that cannot be read are marked so. -/
inductive Node where
  | file (info : FileInfo) (content : GoString) (readable : Bool)
  | symlink (info : FileInfo) (target : GoString) (readable : Bool)
  | other
  | dir (readable : Bool) (entries : List (GoString × Node))

/-- A regular file or a symbolic link. -/
def Node.isFile : Node → Bool
  | .file .. | .symlink .. => true
  | _ => false

/-- A map may be gone through in the order its keys are written in. -/
theorem keyOrder_id (keys : List GoString) : (id keys).Perm keys := .refl keys

/-- A name a directory can list. -/
def validName (name : GoString) : Bool := decide (Plain name) && !name.contains slash

mutual

/-- Every directory of a tree lists valid names, each once. -/
def Node.wellFormed : Node → Bool
  | .dir _ entries => wellFormedEntries entries
  | _ => true

/-- The same for the entries of one directory. -/
def wellFormedEntries : List (GoString × Node) → Bool
  | [] => true
  | (name, n) :: entries =>
    validName name && !(entries.map Prod.fst).contains name && n.wellFormed &&
      wellFormedEntries entries

end

mutual

/-- Every directory of a tree can be read. -/
def Node.allReadable : Node → Bool
  | .dir readable entries => readable && allReadableEntries entries
  | _ => true

/-- The same for the entries of one directory. -/
def allReadableEntries : List (GoString × Node) → Bool
  | [] => true
  | (_, n) :: entries => n.allReadable && allReadableEntries entries

end

/-- The entry a sequence of names leads to. -/
def lookupEntries : List GoString → List (GoString × Node) → Option Node
  | [], _ => none
  | [name], entries => entries.lookup name
  | name :: names, entries =>
    match entries.lookup name with
    | some (.dir _ entries) => lookupEntries names entries
    | _ => none

theorem wellFormedEntries_nil : wellFormedEntries [] = true := rfl

/-- A working folder: its top directory. Below a symbolic link `Lstat` may fail other than by
finding nothing, and a directory that cannot be listed may let nobody through: `closed` has those
paths and those directories. -/
structure Folder where
  readable : Bool := true
  entries : List (GoString × Node) := []
  wellFormed : wellFormedEntries entries = true := by
    first | exact wellFormedEntries_nil | decide
  closed : GoString → Bool := fun _ => false

/-- What `Lstat` answers. -/
inductive Lstat where
  | found (n : Node)
  | missing
  | failed

/-- `Lstat`, from the directory `dir` on. Nothing is found below a regular file, and that is not
`fs.ErrNotExist`. -/
def lstatEntries (closed : GoString → Bool) (dir : List GoString) :
    List GoString → List (GoString × Node) → Lstat
  | [], _ => .missing
  | [name], entries =>
    match entries.lookup name with
    | some n => .found n
    | none => .missing
  | name :: names, entries =>
    match entries.lookup name with
    | some (.dir readable sub) =>
      if !readable && closed (joinSlash (dir ++ [name])) then .failed
      else lstatEntries closed (dir ++ [name]) names sub
    | some (.symlink ..) =>
      if closed (joinSlash (dir ++ name :: names)) then .failed else .missing
    | some _ => .failed
    | none => .missing

/-- `Lstat` in a folder. -/
def Folder.lstat (folder : Folder) (names : List GoString) : Lstat :=
  if !folder.readable && folder.closed [] then .failed
  else lstatEntries folder.closed [] names folder.entries

/-- The entry at a path. -/
def Folder.lookup (folder : Folder) (rel : GoString) : Option Node :=
  lookupEntries (segments rel) folder.entries

/-- Whether a regular file or a symbolic link stands at a path. -/
def Folder.holds (folder : Folder) (rel : GoString) : Bool := (folder.lookup rel).any Node.isFile

/-- No directory of a folder fails to be read. -/
def Folder.allReadable (folder : Folder) : Bool :=
  folder.readable && allReadableEntries folder.entries

/-! ### The walk -/

/-- What the sync predicate decides about one entry. -/
inductive Verdict where
  | descend
  | pruneDir
  | nested
  | skipFile
  | sync
  | symlink
  deriving DecidableEq, Repr

/-- Whether the walk leaves a file alone, whatever its type. -/
def skippedFile (f : Filter) (rel : GoString) : Bool :=
  !safePath rel || reservedPath rel || f.skipUp rel

/-- The verdict on the entry `names` leads to. -/
def verdict (f : Filter) (names : List GoString) : Node → Verdict
  | .dir .. =>
    if names.getLast?.any reservedDir || f.pruneDir (joinSlash names) then .pruneDir
    else if f.isMount (joinSlash names) then .nested
    else .descend
  | .file .. => if skippedFile f (joinSlash names) then .skipFile else .sync
  | .symlink .. => if skippedFile f (joinSlash names) then .skipFile else .symlink
  | .other => .skipFile

/-- What the walk tells its caller: an entry with its verdict, or a directory it could not read. -/
inductive WalkEvent where
  | visit (names : List GoString) (node : Node) (v : Verdict)
  | failed (names : List GoString)

mutual

/-- Visit an entry and, where the verdict is to descend, what it contains. -/
def walkNode (f : Filter) (names : List GoString) : Node → List WalkEvent
  | .dir readable entries =>
    .visit names (.dir readable entries) (verdict f names (.dir readable entries)) ::
      if verdict f names (.dir readable entries) = .descend then
        if readable then walkEntries f names entries else [.failed names]
      else []
  | .file info content readable =>
    [.visit names (.file info content readable) (verdict f names (.file info content readable))]
  | .symlink info target readable =>
    [.visit names (.symlink info target readable)
      (verdict f names (.symlink info target readable))]
  | .other => [.visit names .other (verdict f names .other)]

/-- Visit the entries of a directory. -/
def walkEntries (f : Filter) (dir : List GoString) : List (GoString × Node) → List WalkEvent
  | [] => []
  | (name, n) :: entries => walkNode f (dir ++ [name]) n ++ walkEntries f dir entries

end

/-- Whether a watched path lies beyond a boundary the walk would have stopped at: the nearest
directory that decides is asked first. -/
def targetUnderNestedMount (f : Filter) (folder : Folder) (names : List GoString) : Bool :=
  let dirs := names.dropLast.inits.tail.reverse
  let decided := dirs.find? fun dir =>
    match folder.lstat dir with
    | .found (.dir ..) =>
      dir.getLast?.any reservedDir || f.pruneDir (joinSlash dir) || f.isMount (joinSlash dir)
    | _ => true
  match decided with
  | none => false
  | some dir =>
    match folder.lstat dir with
    | .found (.dir ..) | .found (.symlink ..) => true
    | _ => false

/-- The walk below one watched path. A path that is merely missing is no error. -/
def walkRoot (f : Filter) (folder : Folder) (names : List GoString) : List WalkEvent :=
  if targetUnderNestedMount f folder names then []
  else match folder.lstat names with
    | .found n => walkNode f names n
    | .missing => []
    | .failed => [.failed names]

/-- The walk: over the whole folder, or over the watched paths alone. -/
def walkFolder (f : Filter) (folder : Folder) : Option (List GoString) → List WalkEvent
  | none => if folder.readable then walkEntries f [] folder.entries else [.failed []]
  | some roots => roots.eraseDups.flatMap fun root => walkRoot f folder (segments root)

/-! ### Well-formed names -/

theorem wellFormedEntries_cons {name : GoString} {n : Node} {entries : List (GoString × Node)} :
    wellFormedEntries ((name, n) :: entries) = true ↔
      validName name = true ∧ name ∉ entries.map Prod.fst ∧ n.wellFormed = true ∧
        wellFormedEntries entries = true := by
  simp only [wellFormedEntries, Bool.and_eq_true, Bool.not_eq_true', List.contains_eq_mem,
    decide_eq_false_iff_not, and_assoc]

theorem lookup_of_mem {entries : List (GoString × Node)} (h : wellFormedEntries entries = true)
    {name : GoString} {n : Node} (hmem : (name, n) ∈ entries) : entries.lookup name = some n := by
  induction entries with
  | nil => simp at hmem
  | cons e entries ih =>
    obtain ⟨name', n'⟩ := e
    obtain ⟨-, hnew, -, hrest⟩ := wellFormedEntries_cons.mp h
    rcases List.mem_cons.mp hmem with heq | htail
    · obtain ⟨rfl, rfl⟩ := Prod.mk.inj heq
      simp
    · have hne : (name == name') = false :=
        beq_eq_false_iff_ne.mpr fun h => hnew (List.mem_map.mpr ⟨_, htail, h⟩)
      rw [List.lookup_cons, hne]
      exact ih hrest htail

theorem mem_of_lookup {entries : List (GoString × Node)} {name : GoString} {n : Node}
    (h : entries.lookup name = some n) : (name, n) ∈ entries := by
  induction entries with
  | nil => simp at h
  | cons e entries ih =>
    obtain ⟨name', n'⟩ := e
    rw [List.lookup_cons] at h
    by_cases hn : name = name'
    · subst hn
      simp only [beq_self_eq_true, Option.some.injEq] at h
      simp [h]
    · rw [beq_eq_false_iff_ne.mpr hn] at h
      exact List.mem_cons_of_mem _ (ih h)

theorem wellFormed_of_mem {entries : List (GoString × Node)} (h : wellFormedEntries entries = true)
    {name : GoString} {n : Node} (hmem : (name, n) ∈ entries) :
    validName name = true ∧ n.wellFormed = true := by
  induction entries with
  | nil => simp at hmem
  | cons e entries ih =>
    obtain ⟨name', n'⟩ := e
    obtain ⟨hname, -, hn, hrest⟩ := wellFormedEntries_cons.mp h
    rcases List.mem_cons.mp hmem with heq | hmem
    · obtain ⟨rfl, rfl⟩ := Prod.mk.inj heq
      exact ⟨hname, hn⟩
    · exact ih hrest hmem

theorem allReadable_of_mem {entries : List (GoString × Node)}
    (h : allReadableEntries entries = true) {name : GoString} {n : Node}
    (hmem : (name, n) ∈ entries) : n.allReadable = true := by
  induction entries with
  | nil => simp at hmem
  | cons e entries ih =>
    obtain ⟨name', n'⟩ := e
    rw [allReadableEntries, Bool.and_eq_true] at h
    rcases List.mem_cons.mp hmem with heq | htail
    · exact (Prod.mk.inj heq).2 ▸ h.1
    · exact ih h.2 htail

theorem validName_iff {name : GoString} :
    validName name = true ↔ Plain name ∧ slash ∉ name := by
  simp [validName]

/-! ### What a path leads to -/

theorem lookupEntries_cons_cons {name : GoString} {names : List GoString} (hne : names ≠ [])
    (entries : List (GoString × Node)) :
    lookupEntries (name :: names) entries =
      match entries.lookup name with
      | some (.dir _ entries) => lookupEntries names entries
      | _ => none := by
  cases names with
  | nil => exact absurd rfl hne
  | cons => rfl

/-- The names on the way to an entry of a well-formed tree are valid. -/
theorem validName_of_lookupEntries {entries : List (GoString × Node)} {names : List GoString}
    {n : Node} (hwf : wellFormedEntries entries = true) (h : lookupEntries names entries = some n) :
    ∀ name ∈ names, validName name = true := by
  induction names generalizing entries with
  | nil => simp
  | cons name names ih =>
    by_cases hne : names = []
    · subst hne
      simpa using (wellFormed_of_mem hwf (mem_of_lookup h)).1
    · rw [lookupEntries_cons_cons hne] at h
      split at h
      · rename_i readable sub hlook
        obtain ⟨hname, hsub⟩ := wellFormed_of_mem hwf (mem_of_lookup hlook)
        rw [Node.wellFormed] at hsub
        exact List.forall_mem_cons.mpr ⟨hname, ih hsub h⟩
      · simp at h

theorem segments_of_lookupEntries {entries : List (GoString × Node)} {names : List GoString}
    {n : Node} (hwf : wellFormedEntries entries = true) (h : lookupEntries names entries = some n) :
    segments (joinSlash names) = names := by
  refine segments_joinSlash (fun name hname => ?_) ?_
  · exact (validName_iff.mp (validName_of_lookupEntries hwf h name hname)).2
  · rintro rfl
    simp [lookupEntries] at h

/-- Every proper beginning of the way to an entry of a readable tree leads to a directory. -/
theorem lookupEntries_append {entries : List (GoString × Node)}
    (hread : allReadableEntries entries = true) {init last : List GoString} {n : Node}
    (hinit : init ≠ []) (hlast : last ≠ []) (h : lookupEntries (init ++ last) entries = some n) :
    ∃ sub, lookupEntries init entries = some (.dir true sub) := by
  induction init generalizing entries with
  | nil => exact absurd rfl hinit
  | cons name init ih =>
    rw [List.cons_append, lookupEntries_cons_cons (by simp [hlast])] at h
    split at h
    · rename_i readable sub hlook
      have hdir := allReadable_of_mem hread (mem_of_lookup hlook)
      rw [Node.allReadable, Bool.and_eq_true] at hdir
      by_cases hne : init = []
      · subst hne
        exact ⟨sub, by rw [← hdir.1]; exact hlook⟩
      · rw [lookupEntries_cons_cons hne, hlook]
        exact ih hdir.2 hne h
    · simp at h

/-! ### What the walk visits -/

/-- The walk enters a directory it can read and whose verdict is to descend. -/
def Entered (f : Filter) (names : List GoString) (n : Node) : Prop :=
  verdict f names n = .descend ∧ ∃ entries, n = .dir true entries

/-- Every directory between `dir` and the end of `names` is entered. -/
def Reached (f : Filter) (dir : List GoString) (entries : List (GoString × Node))
    (names : List GoString) : Prop :=
  ∀ init last, names = init ++ last → init ≠ [] → last ≠ [] →
    ∃ n, lookupEntries init entries = some n ∧ Entered f (dir ++ init) n

theorem reached_singleton (f : Filter) (dir : List GoString) (entries : List (GoString × Node))
    (name : GoString) : Reached f dir entries [name] := by
  intro init last h hinit hlast
  have := congrArg List.length h
  have hi := List.length_pos_iff.mpr hinit
  have hl := List.length_pos_iff.mpr hlast
  simp only [List.length_singleton, List.length_append] at this
  omega

/-- Reaching behind a first name is entering it and reaching the rest. -/
theorem reached_cons {f : Filter} {dir : List GoString} {entries : List (GoString × Node)}
    {name : GoString} {names : List GoString} (hne : names ≠ []) :
    Reached f dir entries (name :: names) ↔
      ∃ sub, entries.lookup name = some (.dir true sub) ∧
        verdict f (dir ++ [name]) (.dir true sub) = .descend ∧
        Reached f (dir ++ [name]) sub names := by
  constructor
  · intro h
    obtain ⟨n, hlook, hv, sub, rfl⟩ := h [name] names rfl (by simp) hne
    refine ⟨sub, hlook, hv, fun init last heq hinit hlast => ?_⟩
    obtain ⟨n, hn, hent⟩ := h (name :: init) last (by simp [heq]) (by simp) hlast
    refine ⟨n, ?_, by simpa using hent⟩
    have hlook' : entries.lookup name = some (.dir true sub) := hlook
    rwa [lookupEntries_cons_cons hinit, hlook'] at hn
  · rintro ⟨sub, hlook, hv, hreach⟩ init last heq hinit hlast
    cases init with
    | nil => exact absurd rfl hinit
    | cons name' init =>
      obtain ⟨rfl, htail⟩ : name = name' ∧ names = init ++ last := by simpa using heq
      cases init with
      | nil => exact ⟨_, hlook, hv, sub, rfl⟩
      | cons name' init =>
        obtain ⟨n, hn, hent⟩ := hreach (name' :: init) last htail (by simp) hlast
        refine ⟨n, ?_, by simpa using hent⟩
        rw [lookupEntries_cons_cons (by simp), hlook]
        exact hn

theorem mem_walkEntries_iff {f : Filter} {dir : List GoString} {e : WalkEvent}
    {entries : List (GoString × Node)} :
    e ∈ walkEntries f dir entries ↔
      ∃ name n, (name, n) ∈ entries ∧ e ∈ walkNode f (dir ++ [name]) n := by
  induction entries with
  | nil => simp [walkEntries]
  | cons entry entries ih =>
    obtain ⟨name, n⟩ := entry
    simp only [walkEntries, List.mem_append, ih, List.mem_cons, Prod.mk.injEq]
    constructor
    · rintro (h | ⟨name', n', hmem, h⟩)
      · exact ⟨name, n, .inl ⟨rfl, rfl⟩, h⟩
      · exact ⟨name', n', .inr hmem, h⟩
    · rintro ⟨name', n', ⟨rfl, rfl⟩ | hmem, h⟩
      · exact .inl h
      · exact .inr ⟨name', n', hmem, h⟩

/-- An event of a subtree is the visit of its root or comes from below a directory it enters. -/
theorem mem_walkNode_iff {f : Filter} {names : List GoString} {n : Node} {e : WalkEvent} :
    e ∈ walkNode f names n ↔ e = .visit names n (verdict f names n) ∨
      (verdict f names n = .descend ∧
        ((∃ entries, n = .dir true entries ∧ e ∈ walkEntries f names entries) ∨
          (∃ entries, n = .dir false entries ∧ e = .failed names))) := by
  cases n with
  | dir readable entries =>
    simp only [walkNode, List.mem_cons]
    by_cases hv : verdict f names (.dir readable entries) = .descend
    · cases readable <;> simp [hv]
    · simp [hv]
  | file info content readable => simp [walkNode]
  | symlink info target readable => simp [walkNode]
  | other => simp [walkNode]

/-- The names of the entry an event is about. -/
def WalkEvent.names : WalkEvent → List GoString
  | .visit names _ _ => names
  | .failed names => names

mutual

theorem names_of_mem_walkNode (f : Filter) (names : List GoString) : ∀ (n : Node) (e : WalkEvent),
    e ∈ walkNode f names n → ∃ rest, e.names = names ++ rest
  | .dir readable entries, e, h => by
    rcases mem_walkNode_iff.mp h with rfl | ⟨-, ⟨entries', heq, h⟩ | ⟨entries', -, rfl⟩⟩
    · exact ⟨[], by simp [WalkEvent.names]⟩
    · obtain ⟨-, rfl⟩ := Node.dir.inj heq
      obtain ⟨name, rest, hrest⟩ := names_of_mem_walkEntries f names entries e ‹_›
      exact ⟨name :: rest, hrest⟩
    · exact ⟨[], by simp [WalkEvent.names]⟩
  | .file .., e, h => ⟨[], by simp_all [walkNode, WalkEvent.names]⟩
  | .symlink .., e, h => ⟨[], by simp_all [walkNode, WalkEvent.names]⟩
  | .other, e, h => ⟨[], by simp_all [walkNode, WalkEvent.names]⟩

theorem names_of_mem_walkEntries (f : Filter) (dir : List GoString) :
    ∀ (entries : List (GoString × Node)) (e : WalkEvent), e ∈ walkEntries f dir entries →
      ∃ name rest, e.names = dir ++ name :: rest
  | [], e, h => by simp [walkEntries] at h
  | (name, n) :: entries, e, h => by
    rcases List.mem_append.mp h with h | h
    · obtain ⟨rest, hrest⟩ := names_of_mem_walkNode f (dir ++ [name]) n e h
      exact ⟨name, rest, by simpa using hrest⟩
    · exact names_of_mem_walkEntries f dir entries e h

end

mutual

theorem verdict_of_mem_walkNode (f : Filter) (names : List GoString) :
    ∀ (n : Node) {names' : List GoString} {n' : Node} {v : Verdict},
      .visit names' n' v ∈ walkNode f names n → v = verdict f names' n'
  | .dir readable entries, _, _, _, h => by
    rcases mem_walkNode_iff.mp h with heq | ⟨-, ⟨sub, hsub, hin⟩ | ⟨sub, -, heq⟩⟩
    · obtain ⟨rfl, rfl, rfl⟩ := WalkEvent.visit.inj heq
      rfl
    · obtain ⟨-, rfl⟩ := Node.dir.inj hsub
      exact verdict_of_mem_walkEntries f names entries hin
    · exact absurd heq (by simp)
  | .file .., _, _, _, h => by
    obtain ⟨rfl, rfl, rfl⟩ := WalkEvent.visit.inj (by simpa [walkNode] using h)
    rfl
  | .symlink .., _, _, _, h => by
    obtain ⟨rfl, rfl, rfl⟩ := WalkEvent.visit.inj (by simpa [walkNode] using h)
    rfl
  | .other, _, _, _, h => by
    obtain ⟨rfl, rfl, rfl⟩ := WalkEvent.visit.inj (by simpa [walkNode] using h)
    rfl

theorem verdict_of_mem_walkEntries (f : Filter) (dir : List GoString) :
    ∀ (entries : List (GoString × Node)) {names' : List GoString} {n' : Node} {v : Verdict},
      .visit names' n' v ∈ walkEntries f dir entries → v = verdict f names' n'
  | [], _, _, _, h => by simp [walkEntries] at h
  | (name, n) :: entries, _, _, _, h => by
    rcases List.mem_append.mp h with h | h
    · exact verdict_of_mem_walkNode f (dir ++ [name]) n h
    · exact verdict_of_mem_walkEntries f dir entries h

end

mutual

theorem failed_not_mem_walkNode (f : Filter) (names : List GoString) :
    ∀ (n : Node) {names' : List GoString}, n.allReadable = true →
      .failed names' ∉ walkNode f names n
  | .dir readable entries, _, hread => by
    rw [Node.allReadable, Bool.and_eq_true] at hread
    rw [mem_walkNode_iff]
    rintro (heq | ⟨-, ⟨sub, hsub, hin⟩ | ⟨sub, hsub, -⟩⟩)
    · exact absurd heq (by simp)
    · obtain ⟨-, rfl⟩ := Node.dir.inj hsub
      exact failed_not_mem_walkEntries f names entries hread.2 hin
    · rw [hread.1] at hsub
      exact absurd (Node.dir.inj hsub).1 (by simp)
  | .file .., _, _ => by simp [walkNode]
  | .symlink .., _, _ => by simp [walkNode]
  | .other, _, _ => by simp [walkNode]

theorem failed_not_mem_walkEntries (f : Filter) (dir : List GoString) :
    ∀ (entries : List (GoString × Node)) {names' : List GoString},
      allReadableEntries entries = true → .failed names' ∉ walkEntries f dir entries
  | [], _, _ => by simp [walkEntries]
  | (name, n) :: entries, _, hread => by
    rw [allReadableEntries, Bool.and_eq_true] at hread
    intro h
    rcases List.mem_append.mp h with h | h
    · exact failed_not_mem_walkNode f (dir ++ [name]) n hread.1 h
    · exact failed_not_mem_walkEntries f dir entries hread.2 h

end

/-- Every verdict of a walk, bounded or not, is that of the predicate. -/
theorem verdict_of_mem_walkFolder {f : Filter} {folder : Folder} {roots : Option (List GoString)}
    {names : List GoString} {n : Node} {v : Verdict}
    (h : .visit names n v ∈ walkFolder f folder roots) : v = verdict f names n := by
  cases roots with
  | none =>
    rw [walkFolder] at h
    split at h
    · exact verdict_of_mem_walkEntries f [] _ h
    · simp at h
  | some roots =>
    rw [walkFolder, List.mem_flatMap] at h
    obtain ⟨root, -, h⟩ := h
    rw [walkRoot] at h
    split at h
    · simp at h
    · split at h
      · exact verdict_of_mem_walkNode f _ _ h
      · simp at h
      · simp at h

/-- **What the walk visits below a directory.** An entry is visited when every directory on the
way to it is entered. -/
theorem visit_mem_walkEntries_iff {f : Filter} (dir : List GoString)
    {entries : List (GoString × Node)} (hwf : wellFormedEntries entries = true)
    {names : List GoString} {n : Node} {v : Verdict} :
    .visit (dir ++ names) n v ∈ walkEntries f dir entries ↔
      lookupEntries names entries = some n ∧ v = verdict f (dir ++ names) n ∧
        Reached f dir entries names := by
  induction names generalizing dir entries with
  | nil =>
    constructor
    · intro h
      obtain ⟨name, rest, hrest⟩ := names_of_mem_walkEntries f dir entries _ h
      simp [WalkEvent.names] at hrest
    · simp [lookupEntries]
  | cons name names ih =>
    rw [mem_walkEntries_iff]
    -- the event comes from the subtree its first name leads to
    have hsub : (∃ name' n', (name', n') ∈ entries ∧
        .visit (dir ++ name :: names) n v ∈ walkNode f (dir ++ [name']) n') ↔
          ∃ n', entries.lookup name = some n' ∧
            .visit (dir ++ name :: names) n v ∈ walkNode f (dir ++ [name]) n' := by
      constructor
      · rintro ⟨name', n', hmem, h⟩
        obtain ⟨rest, hrest⟩ := names_of_mem_walkNode f _ n' _ h
        have heq : name :: names = name' :: rest := by simpa [WalkEvent.names] using hrest
        obtain rfl := (List.cons.inj heq).1
        exact ⟨n', lookup_of_mem hwf hmem, h⟩
      · rintro ⟨n', hlook, h⟩
        exact ⟨name, n', mem_of_lookup hlook, h⟩
    rw [hsub]
    cases names with
    | nil =>
      constructor
      · rintro ⟨n', hlook, h⟩
        rcases mem_walkNode_iff.mp h with heq | ⟨-, ⟨sub, rfl, hin⟩ | ⟨sub, -, heq⟩⟩
        · obtain ⟨-, rfl, rfl⟩ := WalkEvent.visit.inj heq
          exact ⟨hlook, rfl, reached_singleton f dir entries name⟩
        · obtain ⟨name', rest, hrest⟩ := names_of_mem_walkEntries f _ sub _ hin
          simp [WalkEvent.names] at hrest
        · exact absurd heq (by simp)
      · rintro ⟨hlook, rfl, -⟩
        exact ⟨n, hlook, mem_walkNode_iff.mpr (.inl rfl)⟩
    | cons name' names =>
      rw [lookupEntries_cons_cons (by simp), reached_cons (by simp)]
      have happ : dir ++ name :: name' :: names = (dir ++ [name]) ++ name' :: names := by simp
      have hwf' {sub : List (GoString × Node)} {readable : Bool}
          (hlook : entries.lookup name = some (.dir readable sub)) :
          wellFormedEntries sub = true := by
        simpa [Node.wellFormed] using (wellFormed_of_mem hwf (mem_of_lookup hlook)).2
      constructor
      · rintro ⟨n', hlook, h⟩
        rcases mem_walkNode_iff.mp h with heq | ⟨hv, ⟨sub, rfl, hin⟩ | ⟨sub, -, heq⟩⟩
        · simp at heq
        · rw [happ] at hin ⊢
          obtain ⟨h1, h2, h3⟩ := (ih _ (hwf' hlook)).mp hin
          exact ⟨by rw [hlook]; exact h1, h2, sub, hlook, hv, h3⟩
        · exact absurd heq (by simp)
      · rintro ⟨hn, hverdict, sub, hlook, hv, hreach⟩
        rw [hlook] at hn
        refine ⟨_, hlook, mem_walkNode_iff.mpr (.inr ⟨hv, .inl ⟨sub, rfl, ?_⟩⟩)⟩
        rw [happ] at hverdict ⊢
        exact (ih _ (hwf' hlook)).mpr ⟨hn, hverdict, hreach⟩

/-- **What a full walk visits.** -/
theorem visit_mem_walkFolder_iff {f : Filter} {folder : Folder} (hread : folder.readable = true)
    {names : List GoString} {n : Node} {v : Verdict} :
    .visit names n v ∈ walkFolder f folder none ↔
      lookupEntries names folder.entries = some n ∧ v = verdict f names n ∧
        Reached f [] folder.entries names := by
  rw [walkFolder, if_pos hread]
  exact visit_mem_walkEntries_iff [] folder.wellFormed

/-- The directories a path lies in, as the beginnings of its segments. -/
theorem mem_ancestors_iff {rel dir : GoString} : dir ∈ ancestors rel ↔
    ∃ init last, segments rel = init ++ last ∧ init ≠ [] ∧ last ≠ [] ∧ dir = joinSlash init := by
  simp only [ancestors, List.mem_reverse, List.mem_map]
  have htail : ∀ (l : List GoString) (init : List GoString),
      init ∈ l.inits.tail ↔ init ≠ [] ∧ init <+: l := by
    intro l init
    cases l with
    | nil => simp
    | cons a l =>
      cases init with
      | nil => simp
      | cons b init => simp [List.cons_prefix_cons, and_comm, eq_comm]
  constructor
  · rintro ⟨init, hinit, rfl⟩
    obtain ⟨hne, last, hlast⟩ := (htail _ _).mp hinit
    refine ⟨init, last ++ [(segments rel).getLast (segments_ne_nil rel)], ?_, hne, by simp, rfl⟩
    rw [← List.append_assoc, hlast, List.dropLast_append_getLast]
  · rintro ⟨init, last, heq, hne, hlast, rfl⟩
    refine ⟨init, (htail _ _).mpr ⟨hne, last.dropLast, ?_⟩, rfl⟩
    rw [heq, List.dropLast_append_of_ne_nil hlast]

/-- A verdict to sync is one on a file that nothing excludes. -/
theorem verdict_syncs_iff {f : Filter} {names : List GoString} {n : Node} :
    (verdict f names n = .sync ∨ verdict f names n = .symlink) ↔
      n.isFile = true ∧ skippedFile f (joinSlash names) = false := by
  cases n with
  | file info content readable =>
    cases h : skippedFile f (joinSlash names) <;> simp [verdict, Node.isFile, h]
  | symlink info target readable =>
    cases h : skippedFile f (joinSlash names) <;> simp [verdict, Node.isFile, h]
  | other => simp [verdict, Node.isFile]
  | dir readable entries =>
    simp only [verdict, Node.isFile, Bool.false_eq_true, false_and, iff_false]
    split_ifs <;> simp

/-- A readable directory is entered when it is not reserved, not pruned and not a mount. -/
theorem verdict_dir_eq_descend_iff {f : Filter} {names : List GoString} {readable : Bool}
    {entries : List (GoString × Node)} : verdict f names (.dir readable entries) = .descend ↔
      names.getLast?.any reservedDir = false ∧ f.pruneDir (joinSlash names) = false ∧
        f.isMount (joinSlash names) = false := by
  simp only [verdict]
  split_ifs with h1 h2
  · simp only [Bool.or_eq_true] at h1
    rcases h1 with h1 | h1 <;> simp [h1]
  · simp [h2]
  · rw [Bool.or_eq_true, not_or, Bool.not_eq_true, Bool.not_eq_true] at h1
    simp [h1, h2]

end Beardrive
