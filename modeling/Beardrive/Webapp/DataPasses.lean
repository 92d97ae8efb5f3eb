import Beardrive.Lib.Runs
import Beardrive.Webapp.DataIndex
import Mathlib.Algebra.Order.Ring.Int

/-!
# Passes over the data index

Every hub process brings the index of a project up to its fold, in passes, and they share the rows
and one fence. A change lowers the flag that says the index is complete, and moves the fence; a
pass reads the fence before its fold and raises the flag only if the fence has not moved.

That is enough for a fold that is read after the fence. But a pass takes the snapshot its process
has cached, which may be older. And it looks for the paths that have ended among the rows its
process knows of, which are not all there are: another process may have written a row before, or
write one, from an older fold, after.

## Main definitions

* `DataHub`, `DataHub.step` — the index, the fence, and the passes of any number of processes
* `DataHub.Careful` — what a step must not do

## Main results

* `complete_reflects` — after careful steps, an index that is called complete is
-/

namespace Beardrive

/-! ### Passes -/

/-- What a process knows of a row. -/
structure DataKnown where
  win : OpKey
  deleted : Bool
  deriving DecidableEq

/-- What a pass goes by: the fence it read, the changes that had lowered the flag by then, and the
ops its snapshot was folded from. -/
structure DataFold where
  gen : ℤ
  required : List Op
  snap : List Op
  deriving DecidableEq

/-- Where a pass is: it has read the fence; its snapshot is loading; it has a snapshot; it writes
rows of files, and has paths to write and paths that are gone left; it reads the journals for the
deletes of those; it has rows left that bury them. The flags say that no file was missed, and that
the table refused a row. -/
inductive DataPass where
  | idle
  | fenced (gen : ℤ) (required : List Op)
  | loads (gen : ℤ) (required start : List Op)
  | folded (f : DataFold)
  | writes (f : DataFold) (puts gone : List GoString) (complete refused : Bool)
  | lists (f : DataFold) (gone : List GoString) (complete : Bool) (start : List Op)
  | buries (f : DataFold) (rows : List DataRow) (complete refused : Bool)
  deriving DecidableEq

/-- The fold a pass has compared with the index. -/
def DataPass.looked : DataPass → Option DataFold
  | .writes f _ _ _ _ | .lists f _ _ _ | .buries f _ _ _ => some f
  | _ => none

/-- The ops of a project, and the changes that have lowered the flag; the fence, the flag and the
rows; of every process, the ops its snapshot was folded from, what it knows of the rows, and its
pass; and what raised the flag. -/
structure DataHub (η : Type*) where
  stored : List Op := []
  lowered : List Op := []
  gen : ℤ
  complete : Bool := false
  rows : GoString → Option DataRow := fun _ => none
  snap : η → Option (List Op) := fun _ => none
  known : η → Option (GoString → Option DataKnown) := fun _ => none
  pass : η → DataPass := fun _ => .idle
  raised : Option DataFold := none

/-- What can happen: an op is stored, or its change lowers the flag; a process rebuilds its
snapshot for somebody else; a pass begins, and goes on; it fails, or its process ends. -/
inductive DataEvent (η : Type*) where
  | store (op : Op)
  | lower (changes : List Op)
  | rebuild (i : η) (ops : List Op)
  | begin_ (i : η)
  | cached (i : η)
  | load (i : η)
  | loaded (i : η) (ops : List Op)
  | look (i : η)
  | slice (i : η) (paths missed : List GoString)
  | reload (i : η)
  | relist (i : η)
  | listed (i : η) (ops : List Op)
  | bury (i : η) (n : ℕ)
  | finish (i : η)
  | fail (i : η)
  | failWrite (i : η) (reloads : Bool)
  | restart (i : η)

/-- `DataIndex.known`. -/
def knownOf (rows : GoString → Option DataRow) (p : GoString) : Option DataKnown :=
  (rows p).map fun row => ⟨row.win, row.deleted⟩

/-- What is known once a row is written. -/
def learn (known : GoString → Option DataKnown) (row : DataRow) : GoString → Option DataKnown :=
  Function.update known row.path (some ⟨row.win, row.deleted⟩)

/-- The files a pass has to write: data, and not known with the same key. -/
def dataPuts (known : GoString → Option DataKnown) (snap : List Op) : List GoString :=
  (pathsOf snap).filter fun p => (filesOf snap p).any fun fi =>
    isDataFile p fi && !(known p).any fun k => k.win = (fi.winOp p).key

/-- The paths among these that are known as data and are data no longer. -/
def dataGone (known : GoString → Option DataKnown) (snap : List Op) (paths : List GoString) :
    List GoString :=
  paths.filter fun p =>
    (known p).any (fun k => !k.deleted) && !(filesOf snap p).any (isDataFile p)

/-- The greatest delete of a path. -/
def lastDelete (ops : List Op) (p : GoString) : Option Op :=
  greatest less (fun op => op.kind = .delete && op.path = p) ops

/-- The row that buries a path: of the link in its place, or of its last delete. A path that has
neither has a newer row. -/
def buriedRow (snap ops : List Op) (p : GoString) : Option DataRow :=
  match filesOf snap p with
  | some fi => some (fi.endedRow p)
  | none => (lastDelete ops p).map Op.deleteRow

section

variable (env : DataEnv) {η : Type*} [DecidableEq η]

/-- A pass goes on. -/
def DataHub.set (s : DataHub η) (i : η) (pass : DataPass) : DataHub η :=
  { s with pass := Function.update s.pass i pass }

/-- What a process knows, once it has asked. -/
def DataHub.knows (s : DataHub η) (i : η) : GoString → Option DataKnown :=
  (s.known i).getD (knownOf s.rows)

/-- `DataIndex.lower`. -/
def DataHub.lower (s : DataHub η) (changes : List Op) : DataHub η :=
  { s with lowered := s.lowered ++ changes, gen := s.gen + 1, complete := false }

/-- `dataWriteKnown`: the rows are written, each over an older one, and known if none of them is
refused. -/
def DataHub.write (s : DataHub η) (i : η) (l : List DataRow) : DataHub η :=
  { s with
    rows := Upsert.upserts DataRow.path DataRow.win s.rows l
    known :=
      if Upsert.refusals DataRow.path DataRow.win s.rows l = 0 then
        Function.update s.known i ((s.known i).map fun known => l.foldl learn known)
      else s.known }

/-- Some row of these is refused. -/
def DataHub.refuses (s : DataHub η) (l : List DataRow) : Bool :=
  Upsert.refusals DataRow.path DataRow.win s.rows l ≠ 0

/-- The rows of some files of a snapshot. -/
def DataEnv.putRows (snap : List Op) (paths : List GoString) : List DataRow :=
  paths.filterMap fun p => (filesOf snap p).map (env.putRow p)

/-- One step, where it is possible. -/
def DataHub.step (s : DataHub η) : DataEvent η → Option (DataHub η)
  | .store op => some { s with stored := s.stored ++ [op] }
  | .lower changes => if changes ⊆ s.stored then some (s.lower changes) else none
  | .rebuild i ops =>
    if ops ⊆ s.stored then some { s with snap := Function.update s.snap i (some ops) } else none
  | .begin_ i =>
    match s.pass i with
    | .idle => some (s.set i (.fenced s.gen s.lowered))
    | _ => none
  | .cached i =>
    -- It is fresh, or it is served because the load failed.
    match s.pass i, s.snap i with
    | .fenced gen required, some snap => some (s.set i (.folded ⟨gen, required, snap⟩))
    | _, _ => none
  | .load i =>
    match s.pass i with
    | .fenced gen required => some (s.set i (.loads gen required s.stored))
    | _ => none
  | .loaded i ops =>
    match s.pass i with
    | .loads gen required start =>
      if start ⊆ ops ∧ ops ⊆ s.stored then
        some { s.set i (.folded ⟨gen, required, ops⟩) with
          snap := Function.update s.snap i (some ops) }
      else none
    | _ => none
  | .look i =>
    match s.pass i with
    | .folded f =>
      some { s.set i (.writes f (dataPuts (s.knows i) f.snap)
          (dataGone (s.knows i) f.snap (pathsOf s.stored)) true false) with
        known := Function.update s.known i (some (s.knows i)) }
    | _ => none
  | .slice i paths missed =>
    match s.pass i with
    | .writes f puts gone complete false =>
      if paths ++ missed ⊆ puts then
        some ((s.write i (env.putRows f.snap paths)).set i
          (.writes f (puts.filter (· ∉ paths ++ missed)) gone (complete && missed.isEmpty)
            (s.refuses (env.putRows f.snap paths))))
      else none
    | _ => none
  | .reload i =>
    match s.pass i with
    | .writes f puts gone complete true =>
      some { s.set i (.writes f puts gone complete false) with
        known := Function.update s.known i (some (knownOf s.rows)) }
    | .buries f rows complete true =>
      some { s.set i (.buries f rows complete false) with
        known := Function.update s.known i (some (knownOf s.rows)) }
    | _ => none
  | .relist i =>
    match s.pass i with
    | .writes f [] gone complete false => some (s.set i (.lists f gone complete s.stored))
    | _ => none
  | .listed i ops =>
    match s.pass i with
    | .lists f gone complete start =>
      if start ⊆ ops ∧ ops ⊆ s.stored then
        some (s.set i (.buries f (gone.filterMap (buriedRow f.snap ops)) complete false))
      else none
    | _ => none
  | .bury i n =>
    match s.pass i with
    | .buries f rows complete refused =>
      some ((s.write i (rows.take n)).set i
        (.buries f (rows.drop n) complete (refused || s.refuses (rows.take n))))
    | _ => none
  | .finish i =>
    match s.pass i with
    | .buries f [] complete false =>
      if !complete then some ((s.lower []).set i .idle)
      else if f.gen = s.gen then
        some { s.set i .idle with complete := true, raised := some f }
      else some (s.set i .idle)
    | _ => none
  | .fail i => some (s.set i .idle)
  | .failWrite i reloads =>
    match s.pass i with
    | .writes _ _ _ _ _ | .buries _ _ _ _ =>
      some { s.set i .idle with
        known := Function.update s.known i (if reloads then some (knownOf s.rows) else none) }
    | _ => none
  | .restart i =>
    some { s.set i .idle with
      snap := Function.update s.snap i none, known := Function.update s.known i none }

/-- A step of any kind. -/
def DataHub.Next (s s' : DataHub η) : Prop := ∃ ev, s.step env ev = some s'

/-- A fold has been compared with the index since the fence last moved. -/
def DataHub.Compared (s : DataHub η) (f : DataFold) : Prop :=
  f.gen = s.gen ∧ ((∃ i, (s.pass i).looked = some f) ∨ s.raised = some f)

/-- What a step must not do: store an op that the index does not keep apart from another; hand a
pass a cached snapshot without the changes that had lowered the flag; compare a fold with the index
while the process does not know of a row that the fold has ended; and write the row of a file that
a fold which has been compared has ended. -/
def DataHub.Careful (s : DataHub η) : DataEvent η → Prop
  | .store op => ∀ o ∈ s.stored, o.carried = true → op.carried = true → o.path = op.path →
      KeyedApart env o op
  | .cached i => ∀ gen required snap, s.pass i = .fenced gen required → s.snap i = some snap →
      required ⊆ snap
  | .look i => ∀ f p op row, s.pass i = .folded f → carriedOp f.snap p = some op →
      op.isData = false → s.rows p = some row → row.deleted = false → row.win < op.winKey →
      (s.knows i p).any (fun k => !k.deleted) = true
  | .slice i paths _ => ∀ f puts gone complete, s.pass i = .writes f puts gone complete false →
      ∀ row ∈ env.putRows f.snap paths, Upsert.Lands DataRow.path DataRow.win s.rows row →
        ∀ f' op, s.Compared f' → carriedOp f'.snap row.path = some op → op.isData = false →
          op.winKey ≤ row.win
  | _ => True

/-- A careful step. -/
def DataHub.CarefulNext (s s' : DataHub η) : Prop :=
  ∃ ev, s.Careful env ev ∧ s.step env ev = some s'

/-! ### What the passes rely on -/

omit [DecidableEq η]

/-- A fence that was read: it has not moved only if no change has lowered the flag since. -/
structure DataHub.Fenced (s : DataHub η) (gen : ℤ) (required : List Op) : Prop where
  le : gen ≤ s.gen
  all : gen = s.gen → s.lowered ⊆ required
  stored : required ⊆ s.stored

/-- A fold that has all that had lowered the flag when the fence was read. -/
structure DataHub.FoldsAll (s : DataHub η) (f : DataFold) : Prop where
  fenced : s.Fenced f.gen f.required
  required : f.required ⊆ f.snap
  stored : f.snap ⊆ s.stored

/-- A row that buries a path is one a stored op leaves, and buries what the snapshot has there. -/
structure Buries (snap stored : List Op) (row : DataRow) : Prop where
  deleted : row.deleted = true
  origin : ∃ op ∈ stored, op.carried = true ∧ row = env.rowOf op
  covers : ∀ op, carriedOp snap row.path = some op → op.isData = false ∧ op.winKey ≤ row.win

/-- What a pass knows. -/
def DataHub.Fits (s : DataHub η) : DataPass → Prop
  | .idle => True
  | .fenced gen required => s.Fenced gen required
  | .loads gen required start => s.Fenced gen required ∧ required ⊆ start ∧ start ⊆ s.stored
  | .folded f => s.FoldsAll f
  | .writes f puts gone complete _ => s.FoldsAll f ∧
      (∀ p ∈ puts, ∃ fi, filesOf f.snap p = some fi ∧ isDataFile p fi = true) ∧
      (∀ p ∈ gone, (filesOf f.snap p).any (isDataFile p) = false) ∧
        (f.gen = s.gen → complete = true → CaughtUp s.rows f.snap (puts ++ gone))
  | .lists f gone complete start => s.FoldsAll f ∧
      (∀ p ∈ gone, (filesOf f.snap p).any (isDataFile p) = false) ∧ f.snap ⊆ start ∧
        start ⊆ s.stored ∧ (f.gen = s.gen → complete = true → CaughtUp s.rows f.snap gone)
  | .buries f rows complete _ => s.FoldsAll f ∧ (∀ row ∈ rows, Buries env f.snap s.stored row) ∧
      (f.gen = s.gen → complete = true → CaughtUp s.rows f.snap (rows.map (·.path)))

/-- What a process knows of a row, the table has, or something newer. -/
def Known (known : GoString → Option DataKnown) (rows : GoString → Option DataRow) : Prop :=
  ∀ p k, known p = some k → ∃ row, rows p = some row ∧ k.win ≤ row.win

/-- The invariant of the index. -/
structure DataHub.Sound (s : DataHub η) : Prop where
  keyed : Keyed env s.stored
  indexed : Indexed env s.rows s.stored
  lowered : s.lowered ⊆ s.stored
  snap : ∀ i ops, s.snap i = some ops → ops ⊆ s.stored
  known : ∀ i known, s.known i = some known → Known known s.rows
  pass : ∀ i, s.Fits env (s.pass i)
  raised : s.complete = true → ∃ f, s.raised = some f ∧ f.gen = s.gen ∧ s.FoldsAll f ∧
    CaughtUp s.rows f.snap []

variable {env}

theorem known_knownOf (rows : GoString → Option DataRow) : Known (knownOf rows) rows := by
  intro p k hk
  obtain ⟨row, hrow, rfl⟩ := Option.map_eq_some_iff.mp hk
  exact ⟨row, hrow, le_rfl⟩

theorem DataHub.Sound.knows {s : DataHub η} (h : s.Sound env) (i : η) :
    Known (s.knows i) s.rows := by
  unfold DataHub.knows
  cases hknown : s.known i with
  | none => exact known_knownOf s.rows
  | some known => exact h.known i known hknown

/-- What is deleted is carried. -/
theorem Op.carried_of_delete {op : Op} (h : op.kind = .delete) : op.carried = true := by
  simp [Op.carried, h]

/-- What the op that decides a path says of its file. -/
theorem any_filesOf {ops : List Op} {p : GoString} {op : Op} (h : carriedOp ops p = some op) :
    (filesOf ops p).any (isDataFile p) = op.isData := by
  obtain ⟨-, -, rfl, -⟩ := carriedOp_spec h
  rw [filesOf_eq, h, Option.bind_some, Op.isData]

/-- The rows of a process grow. -/
theorem Known.upserts {known : GoString → Option DataKnown} {rows : GoString → Option DataRow}
    (h : Known known rows) (l : List DataRow) :
    Known known (Upsert.upserts DataRow.path DataRow.win rows l) := by
  intro p k hk
  obtain ⟨old, hold, hle⟩ := h p k hk
  obtain ⟨new, hnew, hle'⟩ := Upsert.upserts_grows DataRow.path DataRow.win hold l
  exact ⟨new, hnew, hle.trans hle'⟩

/-- What was written is known. -/
theorem Known.foldl_learn {known : GoString → Option DataKnown} {rows : GoString → Option DataRow}
    (h : Known known rows) {l : List DataRow}
    (hl : ∀ row ∈ l, ∃ new, rows row.path = some new ∧ row.win ≤ new.win) :
    Known (l.foldl learn known) rows := by
  induction l generalizing known with
  | nil => exact h
  | cons row l ih =>
    refine ih (fun p k hk => ?_) fun r hr => hl r (List.mem_cons_of_mem _ hr)
    by_cases hp : p = row.path
    · subst hp
      rw [learn, Function.update_self] at hk
      obtain rfl := Option.some.inj hk
      exact hl row (by simp)
    · rw [learn, Function.update_of_ne hp] at hk
      exact h p k hk

/-- Rows written over older ones leave the index as far as it was, if none of them is of data that
an op, which the index was not behind, has ended. -/
theorem Caught.upserts {rows : GoString → Option DataRow} {op : Op} (h : Caught rows op)
    {l : List DataRow} (hl : ∀ row ∈ l, row.path = op.path → row.deleted = false →
      op.isData = false → Upsert.Lands DataRow.path DataRow.win rows row →
        op.winKey ≤ row.win) :
    Caught (Upsert.upserts DataRow.path DataRow.win rows l) op := by
  unfold Caught at h ⊢
  split
  · rename_i hdata
    rw [if_pos hdata] at h
    obtain ⟨old, hold, hle⟩ := h
    obtain ⟨new, hnew, hle'⟩ := Upsert.upserts_grows DataRow.path DataRow.win hold l
    exact ⟨new, hnew, hle.trans hle'⟩
  · rename_i hdata
    rw [if_neg hdata] at h
    intro row hrow hlive
    rcases Upsert.upserts_origin hrow with hold | ⟨hmem, hpath, hlands⟩
    · exact h row hold hlive
    · exact hl row hmem hpath hlive (by simpa using hdata) hlands

theorem Indexed.upserts {rows : GoString → Option DataRow} {stored : List Op}
    (h : Indexed env rows stored) {l : List DataRow}
    (hl : ∀ row ∈ l, ∃ op ∈ stored, op.carried = true ∧ row = env.rowOf op) :
    Indexed env (Upsert.upserts DataRow.path DataRow.win rows l) stored := by
  intro p row hrow
  rcases Upsert.upserts_origin hrow with hold | ⟨hmem, hpath, -⟩
  · exact h p row hold
  · obtain ⟨op, hop, hcar, rfl⟩ := hl row hmem
    exact ⟨op, hop, hcar, (rowOf_path env op).symm.trans hpath, rfl⟩

/-! ### What the others leave of a pass -/

theorem DataHub.Fenced.mono {s s' : DataHub η} {gen : ℤ} {required : List Op}
    (h : s.Fenced gen required) (hstored : s.stored ⊆ s'.stored) (hgen : s.gen ≤ s'.gen)
    (hsame : s.gen = s'.gen → s'.lowered ⊆ s.lowered) : s'.Fenced gen required where
  le := h.le.trans hgen
  all heq := by
    have hs : s.gen = s'.gen := le_antisymm hgen (heq ▸ h.le)
    exact List.Subset.trans (hsame hs) (h.all (heq.trans hs.symm))
  stored := List.Subset.trans h.stored hstored

theorem DataHub.FoldsAll.mono {s s' : DataHub η} {f : DataFold} (h : s.FoldsAll f)
    (hstored : s.stored ⊆ s'.stored) (hgen : s.gen ≤ s'.gen)
    (hsame : s.gen = s'.gen → s'.lowered ⊆ s.lowered) : s'.FoldsAll f where
  fenced := h.fenced.mono hstored hgen hsame
  required := h.required
  stored := List.Subset.trans h.stored hstored

theorem Buries.mono {snap stored stored' : List Op} {row : DataRow}
    (h : Buries env snap stored row) (hstored : stored ⊆ stored') :
    Buries env snap stored' row where
  deleted := h.deleted
  origin := by
    obtain ⟨op, hop, hrest⟩ := h.origin
    exact ⟨op, hstored hop, hrest⟩
  covers := h.covers

/-- What a pass knows stays true while ops are stored, the fence moves on, and what is written
keeps the index as far as it was for a fold the fence has not moved past. -/
theorem DataHub.Fits.mono {s s' : DataHub η} {pass : DataPass} (h : s.Fits env pass)
    (hstored : s.stored ⊆ s'.stored) (hgen : s.gen ≤ s'.gen)
    (hsame : s.gen = s'.gen → s'.lowered ⊆ s.lowered)
    (hrows : s.gen = s'.gen → ∀ f left, pass.looked = some f → f.gen = s.gen →
      CaughtUp s.rows f.snap left → CaughtUp s'.rows f.snap left) : s'.Fits env pass := by
  have hcaught {f : DataFold} {complete : Bool} {left : List GoString} (hf : s.FoldsAll f)
      (hlooked : pass.looked = some f)
      (hold : f.gen = s.gen → complete = true → CaughtUp s.rows f.snap left) :
      f.gen = s'.gen → complete = true → CaughtUp s'.rows f.snap left := by
    intro heq hcomplete
    have hs : s.gen = s'.gen := le_antisymm hgen (heq ▸ hf.fenced.le)
    exact hrows hs f left hlooked (heq.trans hs.symm) (hold (heq.trans hs.symm) hcomplete)
  cases pass with
  | idle => trivial
  | fenced gen required => exact DataHub.Fenced.mono h hstored hgen hsame
  | loads gen required start =>
    exact ⟨h.1.mono hstored hgen hsame, h.2.1, List.Subset.trans h.2.2 hstored⟩
  | folded f => exact DataHub.FoldsAll.mono h hstored hgen hsame
  | writes f puts gone complete refused =>
    exact ⟨h.1.mono hstored hgen hsame, h.2.1, h.2.2.1, hcaught h.1 rfl h.2.2.2⟩
  | lists f gone complete start =>
    obtain ⟨hf, hgone, hstart, hstored', hold⟩ := h
    exact ⟨hf.mono hstored hgen hsame, hgone, hstart, List.Subset.trans hstored' hstored,
      hcaught hf rfl hold⟩
  | buries f rows complete refused =>
    exact ⟨h.1.mono hstored hgen hsame, fun row hrow => (h.2.1 row hrow).mono hstored,
      hcaught h.1 rfl h.2.2⟩

/-- A fold, and the flag it raised, stay good where what is written keeps the index as far as it
was. -/
theorem DataHub.Sound.raised_mono {s s' : DataHub η} (h : s.Sound env)
    (hstored : s.stored ⊆ s'.stored) (hgen : s.gen = s'.gen) (hlowered : s'.lowered ⊆ s.lowered)
    (hcomplete : s'.complete = true → s.complete = true) (hraised : s'.raised = s.raised)
    (hrows : ∀ f, s.raised = some f → f.gen = s.gen → CaughtUp s.rows f.snap [] →
      CaughtUp s'.rows f.snap []) :
    s'.complete = true → ∃ f, s'.raised = some f ∧ f.gen = s'.gen ∧ s'.FoldsAll f ∧
      CaughtUp s'.rows f.snap [] := by
  intro hc
  obtain ⟨f, hf, hfgen, hfold, hcaught⟩ := h.raised (hcomplete hc)
  exact ⟨f, hraised.trans hf, hfgen.trans hgen,
    hfold.mono hstored hgen.le fun _ => hlowered, hrows f hf hfgen hcaught⟩

/-! ### One step -/

/-- What a process caches, knows and does is its own. -/
theorem DataHub.Sound.frame {s : DataHub η} (h : s.Sound env) {snap : η → Option (List Op)}
    {known : η → Option (GoString → Option DataKnown)} {pass : η → DataPass}
    (hsnap : ∀ i ops, snap i = some ops → ops ⊆ s.stored)
    (hknown : ∀ i k, known i = some k → Known k s.rows) (hpass : ∀ i, s.Fits env (pass i)) :
    ({ s with snap, known, pass } : DataHub η).Sound env where
  keyed := h.keyed
  indexed := h.indexed
  lowered := h.lowered
  snap := hsnap
  known := hknown
  pass i := (hpass i).mono (List.Subset.refl _) le_rfl (fun _ => List.Subset.refl _)
    fun _ _ _ _ _ hcaught => hcaught
  raised := h.raised_mono (List.Subset.refl _) rfl (List.Subset.refl _) id rfl
    fun _ _ _ hcaught => hcaught

/-- An op is stored. -/
theorem DataHub.Sound.store {s : DataHub η} (h : s.Sound env) {op : Op}
    (hop : ∀ o ∈ s.stored, o.carried = true → op.carried = true → o.path = op.path →
      KeyedApart env o op) : ({ s with stored := s.stored ++ [op] } : DataHub η).Sound env := by
  have hsub : s.stored ⊆ s.stored ++ [op] := List.subset_append_left _ _
  refine
    { h with
      keyed := h.keyed.append hop
      indexed := fun p row hrow => ?_
      lowered := List.Subset.trans h.lowered hsub
      snap := fun i ops hops => List.Subset.trans (h.snap i ops hops) hsub
      pass := fun i => (h.pass i).mono hsub le_rfl (fun _ => List.Subset.refl _)
        fun _ _ _ _ _ hcaught => hcaught
      raised := h.raised_mono hsub rfl (List.Subset.refl _) id rfl fun _ _ _ hcaught => hcaught }
  obtain ⟨o, ho, hrest⟩ := h.indexed p row hrow
  exact ⟨o, hsub ho, hrest⟩

/-- **The flag is lowered, and the fence moves past every pass.** -/
theorem DataHub.Sound.lower {s : DataHub η} (h : s.Sound env) {changes : List Op}
    (hchanges : changes ⊆ s.stored) : (s.lower changes).Sound env where
  keyed := h.keyed
  indexed := h.indexed
  lowered := List.append_subset.mpr ⟨h.lowered, hchanges⟩
  snap := h.snap
  known := h.known
  pass i := by
    have hlt : s.gen < (s.lower changes).gen := Int.lt_succ s.gen
    exact (h.pass i).mono (List.Subset.refl _) hlt.le (fun heq => absurd heq hlt.ne)
      fun heq => absurd heq hlt.ne
  raised hc := absurd hc (by simp [DataHub.lower])

variable [DecidableEq η]

/-- What every process knows of its pass, when one of them goes on. -/
theorem DataHub.Sound.fits_update {s : DataHub η} (h : s.Sound env) {i : η}
    {pass : DataPass} (hpass : s.Fits env pass) (j : η) :
    s.Fits env (Function.update s.pass i pass j) := by
  by_cases hj : j = i
  · subst hj
    rw [Function.update_self]
    exact hpass
  · rw [Function.update_of_ne hj]
    exact h.pass j

/-- A pass goes on. -/
theorem DataHub.Sound.set {s : DataHub η} (h : s.Sound env) {i : η} {pass : DataPass}
    (hpass : s.Fits env pass) : (s.set i pass).Sound env :=
  h.frame h.snap h.known (h.fits_update hpass)

/-- A process learns what the table has. -/
theorem DataHub.Sound.known_update {s : DataHub η} (h : s.Sound env) (i : η)
    (known : Option (GoString → Option DataKnown)) (hknown : ∀ k, known = some k → Known k s.rows)
    (j : η) (k : GoString → Option DataKnown) (hk : Function.update s.known i known j = some k) :
    Known k s.rows := by
  by_cases hj : j = i
  · subst hj
    rw [Function.update_self] at hk
    exact hknown k hk
  · rw [Function.update_of_ne hj] at hk
    exact h.known j k hk

theorem DataHub.Sound.snap_update {s : DataHub η} (h : s.Sound env) {i : η}
    {snap : Option (List Op)} (hsnap : ∀ ops, snap = some ops → ops ⊆ s.stored)
    (j : η) (ops : List Op) (hops : Function.update s.snap i snap j = some ops) :
    ops ⊆ s.stored := by
  by_cases hj : j = i
  · subst hj
    rw [Function.update_self] at hops
    exact hsnap ops hops
  · rw [Function.update_of_ne hj] at hops
    exact h.snap j ops hops

omit [DecidableEq η] in
/-- **The rows a fold has none of are those it knows to be gone**, where its process knows of every
older row it has ended. -/
theorem DataHub.Sound.looks {s : DataHub η} (h : s.Sound env) {i : η} {f : DataFold}
    (hpass : s.pass i = .folded f) (hcare : s.Careful env (.look i)) :
    s.Fits env (.writes f (dataPuts (s.knows i) f.snap)
      (dataGone (s.knows i) f.snap (pathsOf s.stored)) true false) := by
  have hfold := h.pass i
  rw [hpass] at hfold
  refine ⟨hfold, fun p hp => ?_, fun p hp => ?_, fun _ _ p hp op hop => ?_⟩
  · obtain ⟨fi, hfi, hput⟩ := (Option.any_eq_true _ _).mp (List.mem_filter.mp hp).2
    exact ⟨fi, hfi, (Bool.and_eq_true_iff.mp hput).1⟩
  · have hgone := (List.mem_filter.mp hp).2
    simpa using (Bool.and_eq_true_iff.mp hgone).2
  · rw [List.mem_append, not_or] at hp
    have hfi := any_filesOf hop
    obtain ⟨hmem, -, rfl, -⟩ := carriedOp_spec hop
    unfold Caught
    split
    · rename_i hdata
      -- The file is known with its key, or it would be written.
      rw [filesOf_eq, hop, Option.bind_some] at hfi
      obtain ⟨fi, hop_fi, hisData⟩ : ∃ fi, op.fileInfo = some fi ∧ isDataFile op.path fi = true :=
        (Option.any_eq_true _ _).mp hdata
      have hputs := hp.1
      simp only [dataPuts, List.mem_filter, not_and, filesOf_eq, hop, Option.bind_some, hop_fi,
        Option.any_some, hisData, Bool.true_and, Bool.not_eq_true', Bool.not_eq_false] at hputs
      obtain ⟨k, hk, hwin⟩ := (Option.any_eq_true _ _).mp (hputs (mem_pathsOf.mpr ⟨op, hmem, rfl⟩))
      obtain ⟨row, hrow, hle⟩ := h.knows i _ _ hk
      have hkey : op.winKey = k.win := by
        simp only [Op.winKey, hop_fi]
        exact (of_decide_eq_true hwin).symm
      exact ⟨row, hrow, hkey ▸ hle⟩
    · rename_i hdata
      intro row hrow hlive
      by_contra hlt
      have hknown := hcare f op.path op row hpass hop (by simpa using hdata) hrow hlive
        (not_le.mp hlt)
      obtain ⟨o, ho, -, hopath, -⟩ := h.indexed _ _ hrow
      refine hp.2 (List.mem_filter.mpr ⟨mem_pathsOf.mpr ⟨o, ho, hopath⟩, ?_⟩)
      rw [hknown, hfi]
      simpa using hdata

/-- Rows are written, and the index stays as far as it was for every fold that counts. -/
theorem DataHub.Sound.write {s : DataHub η} (h : s.Sound env) {i : η} {l : List DataRow}
    (hl : ∀ row ∈ l, ∃ op ∈ s.stored, op.carried = true ∧ row = env.rowOf op)
    (hcare : ∀ row ∈ l, row.deleted = false →
      Upsert.Lands DataRow.path DataRow.win s.rows row → ∀ f op, s.Compared f →
        carriedOp f.snap row.path = some op → op.isData = false → op.winKey ≤ row.win) :
    (s.write i l).Sound env := by
  have hrows (f : DataFold) (hf : s.Compared f) (left : List GoString)
      (hcaught : CaughtUp s.rows f.snap left) :
      CaughtUp (Upsert.upserts DataRow.path DataRow.win s.rows l) f.snap left := by
    intro p hp op hop
    refine (hcaught p hp op hop).upserts fun row hrow hpath hlive hdata hlands => ?_
    refine hcare row hrow hlive hlands f op hf ?_ hdata
    rw [hpath, (carriedOp_spec hop).2.2.1]
    exact hop
  refine
    { h with
      indexed := h.indexed.upserts hl
      known := fun j known hknown => ?_
      pass := fun j => (h.pass j).mono (List.Subset.refl _) le_rfl
        (fun _ => List.Subset.refl _) fun _ f left hlooked hgen =>
          hrows f ⟨hgen, .inl ⟨j, hlooked⟩⟩ left
      raised := h.raised_mono (List.Subset.refl _) rfl (List.Subset.refl _) id rfl
        fun f hf hgen => hrows f ⟨hgen, .inr hf⟩ [] }
  simp only [DataHub.write] at hknown
  split at hknown
  · by_cases hj : j = i
    · subst hj
      rw [Function.update_self] at hknown
      obtain ⟨old, hold, rfl⟩ := Option.map_eq_some_iff.mp hknown
      exact ((h.known j old hold).upserts l).foldl_learn fun row hrow =>
        Upsert.upserts_covers DataRow.path DataRow.win s.rows hrow
    · rw [Function.update_of_ne hj] at hknown
      exact (h.known j known hknown).upserts l
  · exact (h.known j known hknown).upserts l

omit [DecidableEq η] in
/-- The rows of files come from ops of the snapshot. -/
theorem mem_putRows {snap : List Op} {paths : List GoString} {row : DataRow}
    (h : row ∈ env.putRows snap paths) (hdata : ∀ p ∈ paths, ∃ fi, filesOf snap p = some fi ∧
      isDataFile p fi = true) :
    ∃ op, carriedOp snap row.path = some op ∧ row.path ∈ paths ∧ op.isData = true ∧
      row = env.rowOf op := by
  obtain ⟨p, hp, hrow⟩ := List.mem_filterMap.mp h
  obtain ⟨fi, hfi, hisData⟩ := hdata p hp
  rw [hfi, Option.map_some] at hrow
  obtain rfl := Option.some.inj hrow
  rw [filesOf_eq] at hfi
  obtain ⟨op, hop, hop_fi⟩ := Option.bind_eq_some_iff.mp hfi
  obtain ⟨-, -, rfl, -⟩ := carriedOp_spec hop
  have hrowOf : env.rowOf op = env.putRow op.path fi := by
    simp [DataEnv.rowOf, hop_fi, hisData]
  rw [← hrowOf, rowOf_path]
  exact ⟨op, hop, hp, by simp [Op.isData, hop_fi, hisData], rfl⟩

omit [DecidableEq η] in
/-- What has no file that is data is left by an op that leaves no data. -/
theorem isData_of_any_filesOf {snap : List Op} {p : GoString} {op : Op}
    (h : (filesOf snap p).any (isDataFile p) = false) (hop : carriedOp snap p = some op) :
    op.isData = false := by
  rw [← any_filesOf hop, h]

/-- **A slice of files is written.** -/
theorem DataHub.Sound.slice {s : DataHub η} (h : s.Sound env) {i : η} {f : DataFold}
    {puts gone paths missed : List GoString} {complete : Bool}
    (hpass : s.pass i = .writes f puts gone complete false) (hsub : paths ++ missed ⊆ puts)
    (hcare : s.Careful env (.slice i paths missed)) :
    ((s.write i (env.putRows f.snap paths)).set i
      (.writes f (puts.filter (· ∉ paths ++ missed)) gone (complete && missed.isEmpty)
        (s.refuses (env.putRows f.snap paths)))).Sound env := by
  have hfits := h.pass i
  rw [hpass] at hfits
  obtain ⟨hfold, hputs, hgone, hold⟩ := hfits
  have hpaths : ∀ p ∈ paths, ∃ fi, filesOf f.snap p = some fi ∧ isDataFile p fi = true :=
    fun p hp => hputs p (hsub (List.mem_append_left _ hp))
  have hcareRows := hcare f puts gone complete hpass
  have hwrite : (s.write i (env.putRows f.snap paths)).Sound env := by
    refine h.write (fun row hrow => ?_) fun row hrow _ hlands => hcareRows row hrow hlands
    obtain ⟨op, hop, -, -, heq⟩ := mem_putRows hrow hpaths
    obtain ⟨hmem, hcar, -⟩ := carriedOp_spec hop
    exact ⟨op, hfold.stored hmem, hcar, heq⟩
  have hfits' := hwrite.pass i
  rw [show (s.write i (env.putRows f.snap paths)).pass i = _ from hpass] at hfits'
  obtain ⟨hfold', -, -, hold'⟩ := hfits'
  refine hwrite.set ⟨hfold', fun p hp => hputs p (List.mem_filter.mp hp).1, hgone,
    fun hgen hcomplete p hp op hop => ?_⟩
  rw [Bool.and_eq_true, List.isEmpty_iff] at hcomplete
  obtain ⟨hcomplete, rfl⟩ := hcomplete
  rw [List.mem_append, not_or, List.append_nil] at hp
  by_cases hwritten : p ∈ paths
  · -- The file of this slice has its row, or a newer one.
    obtain ⟨fi, hfi, hisData⟩ := hpaths p hwritten
    have hrow : env.putRow p fi ∈ env.putRows f.snap paths :=
      List.mem_filterMap.mpr ⟨p, hwritten, by rw [hfi, Option.map_some]⟩
    have hpath : (env.putRow p fi).path = p := by
      simp only [DataEnv.putRow]
      split <;> rfl
    obtain ⟨o, ho, -, hdata, heq⟩ := mem_putRows hrow hpaths
    rw [hpath] at ho
    obtain rfl := Option.some.inj (hop.symm.trans ho)
    obtain ⟨new, hnew, hle⟩ :=
      Upsert.upserts_covers DataRow.path DataRow.win s.rows hrow
    rw [heq, rowOf_path] at hnew
    rw [heq, rowOf_win] at hle
    rw [Caught, if_pos hdata]
    exact ⟨new, hnew, hle⟩
  · refine hold' hgen hcomplete p (fun hmem => ?_) op hop
    rcases List.mem_append.mp hmem with hmem | hmem
    · exact hp.1 (List.mem_filter.mpr ⟨hmem, by simpa using hwritten⟩)
    · exact hp.2 hmem

omit [DecidableEq η] in
/-- **What has ended is buried by rows that are as new as its end.** -/
theorem buries_buriedRow {snap stored ops : List Op} {p : GoString} {row : DataRow}
    (hsnap : snap ⊆ ops) (hops : ops ⊆ stored)
    (hnot : (filesOf snap p).any (isDataFile p) = false) (h : buriedRow snap ops p = some row) :
    row.path = p ∧ Buries env snap stored row := by
  unfold buriedRow at h
  split at h
  · rename_i fi hfi
    obtain rfl := Option.some.inj h
    rw [hfi, Option.any_some] at hnot
    obtain ⟨op, hop, hop_fi⟩ : ∃ op, carriedOp snap p = some op ∧ op.fileInfo = some fi :=
      Option.bind_eq_some_iff.mp (filesOf_eq snap p ▸ hfi)
    obtain ⟨hmem, hcar, rfl, -⟩ := carriedOp_spec hop
    have hrow : fi.endedRow op.path = env.rowOf op := by simp [DataEnv.rowOf, hop_fi, hnot]
    refine ⟨rfl, rfl, ⟨op, hops (hsnap hmem), hcar, hrow⟩, fun o ho => ?_⟩
    obtain rfl := Option.some.inj (hop.symm.trans ho)
    refine ⟨by simp [Op.isData, hop_fi, hnot], ?_⟩
    rw [hrow, rowOf_win]
  · rename_i hfi
    obtain ⟨d, hd, rfl⟩ := Option.map_eq_some_iff.mp h
    have hless : ∀ a b, less a b = true ↔ a.key < b.key := fun _ _ => less_iff
    obtain ⟨hmem, hkeep, hmax⟩ := greatest_eq_some hless hd
    simp only [Bool.and_eq_true, decide_eq_true_eq] at hkeep
    obtain ⟨hkind, rfl⟩ := hkeep
    have hd_fi : d.fileInfo = none := by simp only [Op.fileInfo, hkind]
    have hrow : d.deleteRow = env.rowOf d := by simp only [DataEnv.rowOf, hd_fi]
    refine ⟨rfl, rfl, ⟨d, hops hmem, Op.carried_of_delete hkind, hrow⟩, fun o ho => ?_⟩
    -- The path ended in a delete in the snapshot, and the journals have that one too.
    rw [filesOf_eq, show carriedOp snap d.path = some o from ho, Option.bind_some] at hfi
    obtain ⟨homem, -, hopath, -⟩ := carriedOp_spec ho
    have hokind : o.kind = .delete := by
      cases hkind : o.kind with
      | delete => rfl
      | put =>
        simp only [Op.fileInfo, hkind] at hfi
        split at hfi <;> cases hfi
    have hle := hmax o (hsnap homem) (by simp only [hokind, hopath, Op.deleteRow]; simp)
    refine ⟨by simp [Op.isData, hfi], ?_⟩
    simp only [Op.winKey, hfi]
    exact hle

omit [DecidableEq η] in
/-- What is not buried has not ended. -/
theorem carriedOp_of_buriedRow {snap ops : List Op} {p : GoString} (hsnap : snap ⊆ ops)
    (h : buriedRow snap ops p = none) : carriedOp snap p = none := by
  unfold buriedRow at h
  split at h
  · cases h
  · rename_i hfi
    have hnone := greatest_eq_none_iff.mp (Option.map_eq_none_iff.mp h)
    cases hop : carriedOp snap p with
    | none => rfl
    | some op =>
      rw [filesOf_eq, hop, Option.bind_some] at hfi
      obtain ⟨hmem, -, rfl, -⟩ := carriedOp_spec hop
      cases hkind : op.kind with
      | delete =>
        have hno := hnone op (hsnap hmem)
        simp [hkind] at hno
      | put =>
        simp only [Op.fileInfo, hkind] at hfi
        split at hfi <;> cases hfi

/-- **The journals are read, and every path that is gone has its row, or a newer one.** -/
theorem DataHub.Sound.listed {s : DataHub η} (h : s.Sound env) {i : η} {f : DataFold}
    {gone : List GoString} {complete : Bool} {start ops : List Op}
    (hpass : s.pass i = .lists f gone complete start) (hstart : start ⊆ ops)
    (hops : ops ⊆ s.stored) :
    (s.set i (.buries f (gone.filterMap (buriedRow f.snap ops)) complete false)).Sound env := by
  have hfits := h.pass i
  rw [hpass] at hfits
  obtain ⟨hfold, hgone, hsnap, -, hold⟩ := hfits
  have hsnap := List.Subset.trans hsnap hstart
  refine h.set ⟨hfold, fun row hrow => ?_, fun hgen hcomplete p hp op hop => ?_⟩
  · obtain ⟨p, hp, hrow⟩ := List.mem_filterMap.mp hrow
    exact (buries_buriedRow hsnap hops (hgone p hp) hrow).2
  · refine hold hgen hcomplete p (fun hmem => ?_) op hop
    cases hrow : buriedRow f.snap ops p with
    | none =>
      rw [carriedOp_of_buriedRow hsnap hrow] at hop
      cases hop
    | some row =>
      refine hp (List.mem_map.mpr ⟨row, List.mem_filterMap.mpr ⟨p, hmem, hrow⟩, ?_⟩)
      exact (@buries_buriedRow env _ _ _ _ _ hsnap hops (hgone p hmem) hrow).1

/-- **Some of the rows that bury paths are written.** -/
theorem DataHub.Sound.bury {s : DataHub η} (h : s.Sound env) {i : η} {f : DataFold}
    {rows : List DataRow} {complete refused refused' : Bool} {n : ℕ}
    (hpass : s.pass i = .buries f rows complete refused) :
    ((s.write i (rows.take n)).set i (.buries f (rows.drop n) complete refused')).Sound env := by
  have hfits := h.pass i
  rw [hpass] at hfits
  obtain ⟨-, hrows, -⟩ := hfits
  have htake : ∀ row ∈ rows.take n, Buries env f.snap s.stored row :=
    fun row hrow => hrows row (List.mem_of_mem_take hrow)
  have hwrite : (s.write i (rows.take n)).Sound env := by
    refine h.write (fun row hrow => (htake row hrow).origin) fun row hrow hlive => ?_
    rw [(htake row hrow).deleted] at hlive
    cases hlive
  have hfits' := hwrite.pass i
  rw [show (s.write i (rows.take n)).pass i = _ from hpass] at hfits'
  obtain ⟨hfold', hrows', hold'⟩ := hfits'
  refine hwrite.set ⟨hfold', fun row hrow => hrows' row (List.mem_of_mem_drop hrow),
    fun hgen hcomplete p hp op hop => ?_⟩
  by_cases hmem : p ∈ (rows.take n).map (·.path)
  · obtain ⟨row, hrow, rfl⟩ := List.mem_map.mp hmem
    obtain ⟨hdata, hle⟩ := (htake row hrow).covers op hop
    obtain ⟨new, hnew, hle'⟩ := Upsert.upserts_covers DataRow.path DataRow.win s.rows hrow
    obtain ⟨-, -, hpath, -⟩ := carriedOp_spec hop
    rw [Caught, if_neg (by simp [hdata]), hpath]
    intro row' hrow' _
    obtain rfl := Option.some.inj (hnew.symm.trans hrow')
    exact hle.trans hle'
  · refine hold' hgen hcomplete p (fun hall => ?_) op hop
    rw [← List.take_append_drop n rows, List.map_append, List.mem_append] at hall
    exact hall.elim hmem hp

/-- **The flag is raised where the fence has not moved**, and then the index is behind nothing. -/
theorem DataHub.Sound.finish {s s' : DataHub η} {i : η} (h : s.Sound env)
    (hs : s.step env (.finish i) = some s') : s'.Sound env := by
  simp only [DataHub.step] at hs
  split at hs
  case h_2 => cases hs
  rename_i f complete hpass
  have hfits := h.pass i
  rw [hpass] at hfits
  obtain ⟨hfold, -, hcaught⟩ := hfits
  have hidle : (s.set i .idle).Sound env := h.set trivial
  split at hs
  · cases hs
    exact (h.lower (List.nil_subset _)).set trivial
  · rename_i hcomplete
    split at hs
    · rename_i hgen
      cases hs
      refine
        { hidle with
          pass := fun j => (hidle.pass j).mono (List.Subset.refl _) le_rfl
            (fun _ => List.Subset.refl _) fun _ _ _ _ _ hcaught => hcaught
          raised := fun _ => ⟨f, rfl, hgen, ?_, hcaught hgen (by simpa using hcomplete)⟩ }
      exact hfold.mono (List.Subset.refl _) le_rfl fun _ => List.Subset.refl _
    · cases hs
      exact hidle

/-- **A careful step keeps the invariant.** -/
theorem DataHub.Sound.step {s s' : DataHub η} (h : s.Sound env)
    (hs : s.CarefulNext env s') : s'.Sound env := by
  obtain ⟨ev, hcare, hs⟩ := hs
  cases ev with
  | store op =>
    cases hs
    exact h.store hcare
  | lower changes =>
    simp only [DataHub.step] at hs
    split at hs
    · rename_i hchanges
      cases hs
      exact h.lower hchanges
    · cases hs
  | rebuild i ops =>
    simp only [DataHub.step] at hs
    split at hs
    · rename_i hops
      cases hs
      refine h.frame (h.snap_update fun ops' hops' => ?_) h.known h.pass
      exact Option.some.inj hops' ▸ hops
    · cases hs
  | begin_ i =>
    simp only [DataHub.step] at hs
    split at hs
    case h_2 => cases hs
    cases hs
    exact h.set ⟨le_rfl, fun _ => List.Subset.refl _, h.lowered⟩
  | cached i =>
    simp only [DataHub.step] at hs
    split at hs
    case h_2 => cases hs
    rename_i gen required snap hpass hsnap
    have hfits := h.pass i
    rw [hpass] at hfits
    cases hs
    exact h.set ⟨hfits, hcare gen required snap hpass hsnap, h.snap i snap hsnap⟩
  | load i =>
    simp only [DataHub.step] at hs
    split at hs
    case h_2 => cases hs
    rename_i gen required hpass
    have hfits := h.pass i
    rw [hpass] at hfits
    cases hs
    exact h.set ⟨hfits, hfits.stored, List.Subset.refl _⟩
  | loaded i ops =>
    simp only [DataHub.step] at hs
    split at hs
    case h_2 => cases hs
    rename_i gen required start hpass
    have hfits := h.pass i
    rw [hpass] at hfits
    split at hs
    · rename_i hops
      cases hs
      refine h.frame (h.snap_update fun ops' hops' => Option.some.inj hops' ▸ hops.2) h.known
        (h.fits_update ?_)
      exact ⟨hfits.1, List.Subset.trans hfits.2.1 hops.1, hops.2⟩
    · cases hs
  | look i =>
    simp only [DataHub.step] at hs
    split at hs
    case h_2 => cases hs
    rename_i f hpass
    cases hs
    refine h.frame h.snap (h.known_update i _ fun known hknown => ?_)
      (h.fits_update (h.looks hpass hcare))
    exact Option.some.inj hknown ▸ h.knows i
  | slice i paths missed =>
    simp only [DataHub.step] at hs
    split at hs
    case h_2 => cases hs
    rename_i f puts gone complete hpass
    split at hs
    · rename_i hsub
      cases hs
      exact h.slice hpass hsub hcare
    · cases hs
  | reload i =>
    have hknown := h.known_update i (some (knownOf s.rows))
      fun _ hknown => Option.some.inj hknown ▸ known_knownOf s.rows
    simp only [DataHub.step] at hs
    split at hs
    case h_3 => cases hs
    all_goals
      rename_i hpass
      have hfits := h.pass i
      rw [hpass] at hfits
      cases hs
      exact h.frame h.snap hknown (h.fits_update hfits)
  | relist i =>
    simp only [DataHub.step] at hs
    split at hs
    case h_2 => cases hs
    rename_i f gone complete hpass
    have hfits := h.pass i
    rw [hpass] at hfits
    obtain ⟨hfold, -, hgone, hcaught⟩ := hfits
    cases hs
    exact h.set ⟨hfold, hgone, hfold.stored, List.Subset.refl _, hcaught⟩
  | listed i ops =>
    simp only [DataHub.step] at hs
    split at hs
    case h_2 => cases hs
    rename_i f gone complete start hpass
    split at hs
    · rename_i hops
      cases hs
      exact h.listed hpass hops.1 hops.2
    · cases hs
  | bury i n =>
    simp only [DataHub.step] at hs
    split at hs
    case h_2 => cases hs
    rename_i f rows complete refused hpass
    cases hs
    exact h.bury hpass
  | finish i => exact h.finish hs
  | fail i =>
    cases hs
    exact h.set trivial
  | failWrite i reloads =>
    have hknown := h.known_update i
      (if reloads then some (knownOf s.rows) else none) fun known hknown => by
        split at hknown
        · exact Option.some.inj hknown ▸ known_knownOf s.rows
        · cases hknown
    simp only [DataHub.step] at hs
    split at hs
    case h_3 => cases hs
    all_goals
      cases hs
      exact h.frame h.snap hknown (h.fits_update trivial)
  | restart i =>
    cases hs
    exact h.frame (h.snap_update fun _ hops => absurd hops (by simp))
      (h.known_update i _ fun _ hknown => absurd hknown (by simp)) (h.fits_update trivial)

/-! ### Runs -/

omit [DecidableEq η] in
/-- An index that has just been started. -/
theorem DataHub.sound_init (gen : ℤ) : ({ gen } : DataHub η).Sound env where
  keyed _ ha := absurd ha (by simp)
  indexed _ _ hrow := absurd hrow (by simp)
  lowered := List.Subset.refl _
  snap _ _ hops := absurd hops (by simp)
  known _ _ hknown := absurd hknown (by simp)
  pass _ := trivial
  raised hc := absurd hc (by simp)

variable (env)

/-- **An index that is called complete, is**: after careful steps of any number of processes, its
rows are those of a fold that has every change which had lowered the flag when the fence was read
by the pass that raised it, and so every change that has lowered it at all; and that pass had
folded them. -/
theorem complete_reflects {gen : ℤ} {s : DataHub η}
    (h : Relation.ReflTransGen (DataHub.CarefulNext env) { gen } s) (hc : s.complete = true) :
    ∃ f all, s.raised = some f ∧ s.lowered ⊆ f.required ∧ f.required ⊆ f.snap ∧
      f.snap ⊆ all ∧ all ⊆ s.stored ∧ Reflects env s.rows all := by
  have hsound := Runs.invariant h (fun _ _ => DataHub.Sound.step) (DataHub.sound_init gen)
  obtain ⟨f, hf, hgen, hfold, hcaught⟩ := hsound.raised hc
  obtain ⟨all, hsnap, hstored, hreflects⟩ :=
    reflects_of_caughtUp hsound.keyed hsound.indexed hfold.stored hcaught
  exact ⟨f, all, hf, hfold.fenced.all hgen, hfold.required, hsnap, hstored, hreflects⟩

end

/-! ### Runs on given events -/

/-- No file has a document. -/
def blankDocs : DataEnv where
  doc _ _ := (none, [])

/-- A put of a file that is data. -/
def jsonPut : Op where
  seq := 1
  lamport := 1
  kind := .put
  path := ascii "f.json"
  blob := contentOf 0x61

theorem eq_jsonPut {ops : List Op} (h : ops ⊆ [jsonPut]) {p : GoString} {op : Op}
    (hop : carriedOp ops p = some op) : op = jsonPut :=
  List.mem_singleton.mp (h (carriedOp_spec hop).1)

/-- A file is stored, lowers the flag, and is indexed. -/
theorem complete_reflects_put : ∃ s : DataHub Unit, s.complete = true ∧
    s.stored = [jsonPut] ∧ ∃ f all, s.raised = some f ∧ s.lowered ⊆ f.required ∧
      f.required ⊆ f.snap ∧ f.snap ⊆ all ∧ all ⊆ s.stored ∧ Reflects blankDocs s.rows all := by
  have hrun : ∃ s : DataHub Unit,
      Relation.ReflTransGen (DataHub.CarefulNext blankDocs) { gen := 0 } s ∧
        s.complete = true ∧ s.stored = [jsonPut] := by
    refine ⟨_, .head ⟨.store jsonPut, ?_, Runs.possible (by decide +kernel)⟩ <|
      .head ⟨.lower [jsonPut], trivial, Runs.possible (by decide +kernel)⟩ <|
      .head ⟨.begin_ (), trivial, Runs.possible (by decide +kernel)⟩ <|
      .head ⟨.load (), trivial, Runs.possible (by decide +kernel)⟩ <|
      .head ⟨.loaded () [jsonPut], trivial, Runs.possible (by decide +kernel)⟩ <|
      .head ⟨.look (), ?_, Runs.possible (by decide +kernel)⟩ <|
      .head ⟨.slice () [ascii "f.json"] [], ?_, Runs.possible (by decide +kernel)⟩ <|
      .head ⟨.relist (), trivial, Runs.possible (by decide +kernel)⟩ <|
      .head ⟨.listed () [jsonPut], trivial, Runs.possible (by decide +kernel)⟩ <|
      .single ⟨.finish (), trivial, Runs.possible (by decide +kernel)⟩,
      by decide +kernel, by decide +kernel⟩
    · intro o ho
      cases ho
    · intro f p op row _ _ _ hrow
      cases hrow
    · intro f puts gone complete hpass row _ _ f' op hf' hop hdata
      have hf : f'.snap ⊆ [jsonPut] := by
        rcases hf'.2 with ⟨⟨⟩, hlooked⟩ | hraised
        · cases hlooked.symm.trans
            (by decide +kernel : _ = some (⟨1, [jsonPut], [jsonPut]⟩ : DataFold))
          exact List.Subset.refl _
        · cases hraised.symm.trans (by decide +kernel : _ = none)
      rw [eq_jsonPut hf hop] at hdata
      exact absurd hdata (by decide +kernel)
  obtain ⟨s, hs, hc, hstored⟩ := hrun
  exact ⟨s, hc, hstored, complete_reflects blankDocs hs hc⟩

/-- A process that is handed the snapshot it cached before a file was stored calls the index
complete without it. -/
theorem complete_over_old_snapshot : ¬ ∀ s : DataHub Unit,
    Relation.ReflTransGen (DataHub.Next blankDocs) { gen := 0 } s → s.complete = true →
      ∃ f all, s.raised = some f ∧ f.required ⊆ all ∧ all ⊆ s.stored ∧
        Reflects blankDocs s.rows all := by
  intro h
  have hrun : ∃ s : DataHub Unit,
      Relation.ReflTransGen (DataHub.Next blankDocs) { gen := 0 } s ∧ s.complete = true ∧
        s.stored = [jsonPut] ∧ s.raised = some ⟨1, [jsonPut], []⟩ ∧
          s.rows (ascii "f.json") = none := by
    refine ⟨_, .head ⟨.rebuild () [], Runs.possible (by decide +kernel)⟩ <|
      -- Another process stores the file, and lowers the flag.
      .head ⟨.store jsonPut, Runs.possible (by decide +kernel)⟩ <|
      .head ⟨.lower [jsonPut], Runs.possible (by decide +kernel)⟩ <|
      .head ⟨.begin_ (), Runs.possible (by decide +kernel)⟩ <|
      .head ⟨.cached (), Runs.possible (by decide +kernel)⟩ <|
      .head ⟨.look (), Runs.possible (by decide +kernel)⟩ <|
      .head ⟨.relist (), Runs.possible (by decide +kernel)⟩ <|
      .head ⟨.listed () [jsonPut], Runs.possible (by decide +kernel)⟩ <|
      .single ⟨.finish (), Runs.possible (by decide +kernel)⟩,
      by decide +kernel, by decide +kernel, by decide +kernel, by decide +kernel⟩
  obtain ⟨s, hs, hc, hstored, hraised, hrow⟩ := hrun
  obtain ⟨f, all, hf, hrequired, hall, hreflects⟩ := h s hs hc
  cases hraised.symm.trans hf
  obtain ⟨op, hop⟩ := exists_carriedOp (hrequired (List.mem_singleton_self jsonPut)) (by decide)
  obtain rfl := eq_jsonPut (hstored ▸ hall) hop
  obtain ⟨fi, hfi, hisData⟩ : ∃ fi, jsonPut.fileInfo = some fi ∧
      isDataFile jsonPut.path fi = true := (Option.any_eq_true _ _).mp (by decide +kernel)
  have hfile : filesOf all jsonPut.path = some fi := by
    rw [filesOf_eq, hop, Option.bind_some, hfi]
  have hput := (hreflects jsonPut.path).1 fi hfile hisData
  rw [show s.rows jsonPut.path = none from hrow] at hput
  cases hput

end Beardrive
