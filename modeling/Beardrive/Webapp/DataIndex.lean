import Beardrive.Lib.Greatest
import Beardrive.Lib.Upsert
import Beardrive.Webapp.ByPathOrder

/-!
# The rows of the data index

The data index keeps a row for every path that has been data: JSON, or Markdown for its
frontmatter. A row is keyed on the op that won its path, so that what a fold older than the row
says of the path is refused. A path that is data no longer keeps a row that says so, keyed on the
op that ended it.

The key is read off the file the fold lists, and a link is listed without blob and size. So the
keys order ops as the replay does as long as no two of them agree in clock, instant, device and
number, which no honest device lets happen.

## Main definitions

* `filesOf`, `DataFileInfo.winOp` — the fold with all the index reads of it
* `DataEnv.putRow`, `DataFileInfo.endedRow`, `Op.deleteRow` — the rows a pass writes
* `KeyedApart` — the index orders two ops as the replay does, and tells them apart
* `Reflects`, `CaughtUp` — the rows are those of a fold; they are at least as new

## Main results

* `reflects_of_caughtUp` — rows that are as new as a fold, and came from ops, are those of a fold
  that has the ops of the first one
-/

namespace Beardrive

/-! ### Files -/

/-- `FileInfo`, with what the index reads: provenance, and the key of the op behind it. -/
structure DataFileInfo extends HubFileInfo where
  time : Time
  user : GoString
  author : GoString
  lamport : ℤ
  seq : ℤ
  deviceID : GoString
  deriving DecidableEq

/-- What an op leaves of the listing. -/
def foldDataFile (files : GoString → Option DataFileInfo) (op : Op) :
    GoString → Option DataFileInfo :=
  match op.kind with
  | .put =>
    if op.link ≠ [] then
      Function.update files op.path (some
        { link := op.link, time := op.time, user := op.user, author := op.author
          lamport := op.lamport, seq := op.seq, deviceID := op.device, mode := op.mode })
    else if !isBlobSHA op.blob then files
    else
      Function.update files op.path (some
        { blob := op.blob, size := op.size, time := op.time, user := op.user, author := op.author
          lamport := op.lamport, seq := op.seq, deviceID := op.device, mode := op.mode })
  | .delete => Function.update files op.path none

/-- `foldFiles`, of the ops in replay order. -/
def filesOf (ops : List Op) : GoString → Option DataFileInfo :=
  (sortOps ops).foldl foldDataFile fun _ => none

/-- `FileInfo.winOp`: the op behind a file, as far as `less` reads it. -/
def DataFileInfo.winOp (fi : DataFileInfo) (path : GoString) : Op where
  lamport := fi.lamport
  time := fi.time
  device := fi.deviceID
  seq := fi.seq
  kind := .put
  path := path
  blob := fi.blob
  size := fi.size
  mode := fi.mode

/-- `strings.ToLower`, of what is ASCII. -/
def toLowerASCII (s : GoString) : GoString :=
  s.map fun c => if 0x41 ≤ c ∧ c ≤ 0x5A then c + 0x20 else c

/-- What follows the last dot of a path, or all of it. -/
def afterLastDot (path : GoString) : GoString := (path.reverse.takeWhile (· ≠ 0x2E)).reverse

/-- `isDataFile`: JSON, or Markdown, and not a link. -/
def isDataFile (path : GoString) (fi : DataFileInfo) : Bool :=
  if fi.link ≠ [] ∨ isBlobSHA fi.blob = false then false
  else
    let ext := toLowerASCII (afterLastDot path)
    ext = ascii "json" || ext = ascii "md"

/-! ### Rows -/

/-- A `dataRow`. -/
structure DataRow where
  path : GoString
  win : OpKey
  sha : GoString := []
  changedAt : Time
  changedBy : GoString
  doc : Option GoString := none
  err : GoString := []
  deleted : Bool := false
  deriving DecidableEq

/-- What the documents are: `decodeData` of the content a blob names, or the error it reports. -/
structure DataEnv where
  doc : GoString → GoString → Option GoString × GoString

/-- `dataMaxFile`: 2 MiB. -/
def dataMaxFile : ℤ := 2097152

/-- `firstNonEmpty`. -/
def firstNonEmpty (a b : GoString) : GoString := if a ≠ [] then a else b

/-- The row of a file that is data. -/
def DataEnv.putRow (env : DataEnv) (path : GoString) (fi : DataFileInfo) : DataRow :=
  let row : DataRow :=
    { path, win := (fi.winOp path).key, sha := fi.blob, changedAt := fi.time
      changedBy := firstNonEmpty fi.user fi.author }
  if dataMaxFile < fi.size then
    { row with err := ascii "larger than the 2 MiB a file may index" }
  else { row with doc := (env.doc path fi.blob).1, err := (env.doc path fi.blob).2 }

/-- The row of a path whose file is data no longer. -/
def DataFileInfo.endedRow (fi : DataFileInfo) (path : GoString) : DataRow where
  path := path
  win := (fi.winOp path).key
  changedAt := fi.time
  changedBy := firstNonEmpty fi.user fi.author
  deleted := true

/-- The row of a path whose file is gone, by the delete that ended it. -/
def Op.deleteRow (op : Op) : DataRow where
  path := op.path
  win := op.key
  changedAt := op.time
  changedBy := firstNonEmpty op.user op.author
  deleted := true

/-! ### The op behind a row -/

/-- The file a put leaves. -/
def Op.fileInfo (op : Op) : Option DataFileInfo :=
  match op.kind with
  | .put =>
    if op.link ≠ [] then
      some { link := op.link, time := op.time, user := op.user, author := op.author
             lamport := op.lamport, seq := op.seq, deviceID := op.device, mode := op.mode }
    else
      some { blob := op.blob, size := op.size, time := op.time, user := op.user
             author := op.author, lamport := op.lamport, seq := op.seq, deviceID := op.device
             mode := op.mode }
  | .delete => none

/-- The key of an op in the index. -/
def Op.winKey (op : Op) : OpKey :=
  match op.fileInfo with
  | some fi => (fi.winOp op.path).key
  | none => op.key

/-- An op leaves data. -/
def Op.isData (op : Op) : Bool := op.fileInfo.any (isDataFile op.path)

/-- The row an op leaves. -/
def DataEnv.rowOf (env : DataEnv) (op : Op) : DataRow :=
  match op.fileInfo with
  | some fi => if isDataFile op.path fi then env.putRow op.path fi else fi.endedRow op.path
  | none => op.deleteRow

/-- The op that decides what the hub lists a path with. -/
def carriedOp (ops : List Op) (p : GoString) : Option Op := lastOp (ops.filter Op.carried) p

theorem foldDataFile_carried {op : Op} (h : op.carried = true)
    (files : GoString → Option DataFileInfo) :
    foldDataFile files op = Function.update files op.path op.fileInfo := by
  cases hkind : op.kind with
  | delete => simp [foldDataFile, Op.fileInfo, hkind]
  | put =>
    by_cases hlink : op.link = []
    · have hblob : isBlobSHA op.blob = true := by simpa [Op.carried, hkind, hlink] using h
      simp [foldDataFile, Op.fileInfo, hkind, hlink, hblob]
    · simp [foldDataFile, Op.fileInfo, hkind, hlink]

theorem foldDataFile_not_carried {op : Op} (h : op.carried = false)
    (files : GoString → Option DataFileInfo) : foldDataFile files op = files := by
  simp only [Op.carried, Bool.or_eq_false_iff, decide_eq_false_iff_not, not_not] at h
  obtain ⟨⟨hkind, hlink⟩, hblob⟩ := h
  cases hk : op.kind with
  | delete => exact absurd hk hkind
  | put => simp [foldDataFile, hk, hlink, hblob]

theorem foldl_foldDataFile (ops : List Op) : (ops.foldl foldDataFile fun _ => none) =
    LastWriter.fold Op.path Op.fileInfo (ops.filter Op.carried) := by
  induction ops using List.reverseRecOn with
  | nil => rfl
  | append_singleton ops op ih =>
    rw [List.foldl_append, List.foldl_cons, List.foldl_nil, ih, List.filter_append]
    cases h : op.carried with
    | true =>
      rw [foldDataFile_carried h, List.filter_cons_of_pos h, List.filter_nil,
        LastWriter.fold_append_singleton]
    | false =>
      rw [foldDataFile_not_carried h, List.filter_cons_of_neg (by simp [h]), List.filter_nil,
        List.append_nil]

/-- **What a path is listed with is the file of the op that decides it.** -/
theorem filesOf_eq (ops : List Op) (p : GoString) :
    filesOf ops p = (carriedOp ops p).bind Op.fileInfo := by
  rw [filesOf, foldl_foldDataFile, LastWriter.fold_apply, carriedOp, lastOp, sortOps_eq,
    sortOps_eq, LastWriter.sort_filter]

/-- The fold with all its fields is the listing of the hub. -/
theorem filesOf_map_toHubFileInfo (ops : List Op) (p : GoString) :
    (filesOf ops p).map DataFileInfo.toHubFileInfo = liveVersion ops p := by
  rw [filesOf_eq, liveVersion_eq, carriedOp]
  cases lastOp (ops.filter Op.carried) p with
  | none => rfl
  | some op =>
    cases hkind : op.kind with
    | delete => simp [Op.fileInfo, hkind]
    | put => by_cases hlink : op.link = [] <;> simp [Op.fileInfo, FileState.listed, hkind, hlink]

/-- The deciding op is carried, names the path, and is exceeded by no other that does. -/
theorem carriedOp_spec {ops : List Op} {p : GoString} {op : Op} (h : carriedOp ops p = some op) :
    op ∈ ops ∧ op.carried = true ∧ op.path = p ∧
      ∀ o ∈ ops, o.carried = true → o.path = p → o.key ≤ op.key := by
  obtain ⟨hmem, hpath, hmax⟩ := wins_of_lastOp h
  rw [List.mem_filter] at hmem
  exact ⟨hmem.1, hmem.2, hpath, fun o ho hcar => hmax o (List.mem_filter.mpr ⟨ho, hcar⟩)⟩

theorem exists_carriedOp {ops : List Op} {op : Op} (h : op ∈ ops) (hcar : op.carried = true) :
    ∃ w, carriedOp ops op.path = some w := by
  cases hw : carriedOp ops op.path with
  | none => exact absurd rfl (lastOp_eq_none_iff.mp hw op (List.mem_filter.mpr ⟨h, hcar⟩))
  | some w => exact ⟨w, rfl⟩

/-! ### Keys -/

variable (env : DataEnv)

@[simp] theorem rowOf_path (op : Op) : (env.rowOf op).path = op.path := by
  cases hfi : op.fileInfo with
  | none => simp [DataEnv.rowOf, hfi, Op.deleteRow]
  | some fi =>
    cases hdata : isDataFile op.path fi with
    | false => simp [DataEnv.rowOf, hfi, hdata, DataFileInfo.endedRow]
    | true =>
      simp only [DataEnv.rowOf, hfi, hdata, if_true, DataEnv.putRow]
      split <;> rfl

@[simp] theorem putRow_win (path : GoString) (fi : DataFileInfo) :
    (env.putRow path fi).win = (fi.winOp path).key := by
  simp only [DataEnv.putRow]
  split <;> rfl

@[simp] theorem putRow_deleted (path : GoString) (fi : DataFileInfo) :
    (env.putRow path fi).deleted = false := by
  simp only [DataEnv.putRow]
  split <;> rfl

@[simp] theorem rowOf_win (op : Op) : (env.rowOf op).win = op.winKey := by
  cases hfi : op.fileInfo with
  | none => simp [DataEnv.rowOf, Op.winKey, hfi, Op.deleteRow]
  | some fi =>
    cases hdata : isDataFile op.path fi <;>
      simp [DataEnv.rowOf, Op.winKey, hfi, hdata, DataFileInfo.endedRow]

@[simp] theorem rowOf_deleted (op : Op) : (env.rowOf op).deleted = !op.isData := by
  cases hfi : op.fileInfo with
  | none => simp [DataEnv.rowOf, Op.isData, hfi, Op.deleteRow]
  | some fi =>
    cases hdata : isDataFile op.path fi <;>
      simp [DataEnv.rowOf, Op.isData, hfi, hdata, DataFileInfo.endedRow]

/-- The index orders two ops as the replay does, and gives two that tie the same row. -/
structure KeyedApart (a b : Op) : Prop where
  lt : less a b = true → a.winKey < b.winKey
  gt : less b a = true → b.winKey < a.winKey
  tied : Tied a b → env.rowOf a = env.rowOf b

/-- The ops of every path are keyed apart. -/
def Keyed (stored : List Op) : Prop :=
  ∀ a ∈ stored, ∀ b ∈ stored, a.carried = true → b.carried = true → a.path = b.path →
    KeyedApart env a b

/-- When, by whom and as which of its ops an op was made. -/
def Op.turn (op : Op) : ℤ × ℤ × GoString × ℤ := (op.lamport, op.time.ns, op.device, op.seq)

/-- What the key of an op begins with. -/
theorem winKey_turn (op : Op) : ∃ rest, op.winKey =
    toLex (op.lamport, toLex (op.time.ns, toLex (op.device, toLex (op.seq, rest)))) := by
  cases hfi : op.fileInfo with
  | none =>
    have hwin : op.winKey = op.key := by simp only [Op.winKey, hfi]
    exact ⟨_, hwin⟩
  | some fi =>
    have hturn : fi.lamport = op.lamport ∧ fi.time = op.time ∧ fi.deviceID = op.device ∧
        fi.seq = op.seq := by
      cases hkind : op.kind with
      | delete => simp [Op.fileInfo, hkind] at hfi
      | put =>
        simp only [Op.fileInfo, hkind] at hfi
        split at hfi <;>
        · obtain rfl := Option.some.inj hfi
          exact ⟨rfl, rfl, rfl, rfl⟩
    have hwin : op.winKey = (fi.winOp op.path).key := by simp only [Op.winKey, hfi]
    obtain ⟨hl, ht, hd, hs⟩ := hturn
    rw [← hl, ← ht, ← hd, ← hs]
    exact ⟨_, hwin⟩

/-- Ops of different turns are ordered by their turns. -/
theorem winKey_lt_iff {a b : Op} (h : a.turn ≠ b.turn) : a.winKey < b.winKey ↔ a.key < b.key := by
  obtain ⟨resta, ha⟩ := winKey_turn a
  obtain ⟨restb, hb⟩ := winKey_turn b
  simp only [Op.turn, ne_eq, Prod.mk.injEq, not_and] at h
  simp only [ha, hb, Op.key, Prod.Lex.toLex_lt_toLex]
  constructor <;>
  · rintro (h1 | ⟨h1, h2 | ⟨h2, h3 | ⟨h3, h4 | ⟨h4, -⟩⟩⟩⟩)
    · exact .inl h1
    · exact .inr ⟨h1, .inl h2⟩
    · exact .inr ⟨h1, .inr ⟨h2, .inl h3⟩⟩
    · exact .inr ⟨h1, .inr ⟨h2, .inr ⟨h3, .inl h4⟩⟩⟩
    · exact absurd h4 (h h1 h2 h3)

/-- **Ops of different turns are keyed apart.** -/
theorem keyedApart_of_turn_ne {a b : Op} (h : a.turn ≠ b.turn) : KeyedApart env a b where
  lt hlt := (winKey_lt_iff h).mpr (less_iff.mp hlt)
  gt hlt := (winKey_lt_iff (Ne.symm h)).mpr (less_iff.mp hlt)
  tied htied := by
    obtain ⟨hl, ht, hd, hs, -⟩ := tied_iff.mp htied
    exact absurd (by simp only [Op.turn, hl, ht, hd, hs]) h

variable {env}

theorem KeyedApart.refl (a : Op) : KeyedApart env a a where
  lt h := absurd h (by simp [less_irrefl])
  gt h := absurd h (by simp [less_irrefl])
  tied _ := rfl

theorem KeyedApart.symm {a b : Op} (h : KeyedApart env a b) : KeyedApart env b a where
  lt := h.gt
  gt := h.lt
  tied ht := (h.tied ht.symm).symm

theorem KeyedApart.winKey_le {a b : Op} (h : KeyedApart env a b) (hle : a.key ≤ b.key) :
    a.winKey ≤ b.winKey := by
  rcases hle.lt_or_eq with hlt | heq
  · exact (h.lt (less_iff.mpr hlt)).le
  · have hrow := congrArg DataRow.win (h.tied heq)
    rw [rowOf_win, rowOf_win] at hrow
    exact hrow.le

/-- Where the keys of the index are the same, so are the rows. -/
theorem KeyedApart.rowOf_eq {a b : Op} (h : KeyedApart env a b) (heq : a.winKey = b.winKey) :
    env.rowOf a = env.rowOf b := by
  refine h.tied (le_antisymm (not_lt.mp fun hlt => ?_) (not_lt.mp fun hlt => ?_))
  · exact absurd heq (h.gt (less_iff.mpr hlt)).ne'
  · exact absurd heq (h.lt (less_iff.mpr hlt)).ne

/-- One op more. -/
theorem Keyed.append {stored : List Op} (h : Keyed env stored) {op : Op}
    (hop : ∀ o ∈ stored, o.carried = true → op.carried = true → o.path = op.path →
      KeyedApart env o op) : Keyed env (stored ++ [op]) := by
  intro a ha b hb hcara hcarb hpath
  rw [List.mem_append, List.mem_singleton] at ha hb
  rcases ha with ha | rfl <;> rcases hb with hb | rfl
  · exact h a ha b hb hcara hcarb hpath
  · exact hop a ha hcara hcarb hpath
  · exact (hop b hb hcarb hcara hpath.symm).symm
  · exact .refl _

/-! ### Rows and folds -/

variable (env)

/-- The rows are those of a fold: a file that is data has its row, and no other path has one that
is not of an end. -/
def Reflects (rows : GoString → Option DataRow) (ops : List Op) : Prop :=
  ∀ p, (∀ fi, filesOf ops p = some fi → isDataFile p fi = true →
      rows p = some (env.putRow p fi)) ∧
    ((∀ fi, filesOf ops p = some fi → isDataFile p fi = false) →
      ∀ row, rows p = some row → row.deleted = true)

/-- Every row is one that a stored op leaves. -/
def Indexed (rows : GoString → Option DataRow) (stored : List Op) : Prop :=
  ∀ p row, rows p = some row → ∃ op ∈ stored, op.carried = true ∧ op.path = p ∧ row = env.rowOf op

/-- The index is not behind an op: it has a row that is as new, or, of an op that leaves no data,
no older row of data. -/
def Caught (rows : GoString → Option DataRow) (op : Op) : Prop :=
  if op.isData then ∃ row, rows op.path = some row ∧ op.winKey ≤ row.win
  else ∀ row, rows op.path = some row → row.deleted = false → op.winKey ≤ row.win

/-- The index is behind the fold at none but the paths that are left. -/
def CaughtUp (rows : GoString → Option DataRow) (ops : List Op) (left : List GoString) : Prop :=
  ∀ p ∉ left, ∀ op, carriedOp ops p = some op → Caught rows op

variable {env}

/-- What the row of a path has to be, by the op that decides it. -/
theorem reflects_of_carriedOp {rows : GoString → Option DataRow} {ops : List Op}
    (h : ∀ p, (∀ op, carriedOp ops p = some op → op.isData = true → rows p = some (env.rowOf op)) ∧
      ((∀ op, carriedOp ops p = some op → op.isData = false) →
        ∀ row, rows p = some row → row.deleted = true)) : Reflects env rows ops := by
  intro p
  obtain ⟨hdata, hnone⟩ := h p
  rw [filesOf_eq]
  cases hop : carriedOp ops p with
  | none => exact ⟨fun fi hfi => absurd hfi (by simp), fun _ => hnone fun op h => by
      rw [hop] at h; cases h⟩
  | some op =>
    have hpath : op.path = p := (carriedOp_spec hop).2.2.1
    subst hpath
    rw [Option.bind_some]
    constructor
    · intro fi hfi hisData
      have hrow := hdata op hop (by simp [Op.isData, hfi, hisData])
      simpa [DataEnv.rowOf, hfi, hisData] using hrow
    · intro hnot
      refine hnone fun o ho => ?_
      obtain rfl := Option.some.inj (hop.symm.trans ho)
      cases hfi : op.fileInfo with
      | none => simp [Op.isData, hfi]
      | some fi => simp [Op.isData, hfi, hnot fi hfi]

/-- **Rows that are not behind a fold, and come from ops, are those of a fold that has the ops of
the first one**: at every path, all it has, and all that its row is as new as. -/
theorem reflects_of_caughtUp {rows : GoString → Option DataRow} {stored ops : List Op}
    (hkeyed : Keyed env stored) (hrows : Indexed env rows stored) (hops : ops ⊆ stored)
    (h : CaughtUp rows ops []) : ∃ all, ops ⊆ all ∧ all ⊆ stored ∧ Reflects env rows all := by
  let all := stored.filter fun op => op ∈ ops ∨ (rows op.path).any (op.winKey ≤ ·.win)
  have hall {op : Op} : op ∈ all ↔
      op ∈ stored ∧ (op ∈ ops ∨ ∃ row, rows op.path = some row ∧ op.winKey ≤ row.win) := by
    simp [all, Option.any_eq_true]
  have hsub : all ⊆ stored := fun op hop => (hall.mp hop).1
  have hopsAll : ops ⊆ all := fun op hop => hall.mpr ⟨hops hop, .inl hop⟩
  -- What decides a path in the larger fold is what its row came from, or what decides it in the
  -- smaller one.
  have hdecides {a : Op} {p : GoString} (ha : carriedOp all p = some a) :
      (a.isData = true → rows p = some (env.rowOf a)) ∧
        (a.isData = false → ∀ row, rows p = some row → row.deleted = true) := by
    obtain ⟨hmem, hcar, rfl, hmax⟩ := carriedOp_spec ha
    have hrow {row : DataRow} (hp : rows a.path = some row) :
        row.win ≤ a.winKey ∧ (a.winKey ≤ row.win → row = env.rowOf a) := by
      obtain ⟨o, ho, hocar, hopath, rfl⟩ := hrows _ _ hp
      have hoall : o ∈ all := hall.mpr ⟨ho, .inr ⟨_, hopath ▸ hp, (rowOf_win env o).ge⟩⟩
      have hkey := hkeyed o ho a (hsub hmem) hocar hcar hopath
      have hle := hkey.winKey_le (hmax o hoall hocar hopath)
      rw [rowOf_win]
      exact ⟨hle, fun hge => hkey.rowOf_eq (hle.antisymm hge)⟩
    rcases (hall.mp hmem).2 with hold | ⟨row, hp, hle⟩
    · obtain ⟨b, hb⟩ := exists_carriedOp hold hcar
      obtain ⟨hbmem, hbcar, hbpath, hbmax⟩ := carriedOp_spec hb
      have hkey := hkeyed a (hsub hmem) b (hops hbmem) hcar hbcar hbpath.symm
      have htied : Tied a b :=
        le_antisymm (hbmax a hold hcar rfl) (hmax b (hopsAll hbmem) hbcar hbpath)
      have hsame := hkey.tied htied
      have hwin : a.winKey = b.winKey := by
        rw [← rowOf_win env a, hsame, rowOf_win]
      have hdata : a.isData = b.isData := by
        have hdel := congrArg DataRow.deleted hsame
        simpa using hdel
      have hcaught := h a.path (by simp) b hb
      rw [Caught, hbpath, ← hwin, ← hdata] at hcaught
      constructor
      · intro hd
        rw [if_pos hd] at hcaught
        obtain ⟨row, hp, hle⟩ := hcaught
        rw [hp, (hrow hp).2 hle]
      · intro hd row hp
        rw [if_neg (by simp [hd])] at hcaught
        by_contra hlive
        have heq := (hrow hp).2 (hcaught row hp (by simpa using hlive))
        rw [heq, rowOf_deleted, hd] at hlive
        exact hlive rfl
    · have heq := (hrow hp).2 hle
      subst heq
      refine ⟨fun _ => hp, fun hd row' hp' => ?_⟩
      rw [hp] at hp'
      obtain rfl := Option.some.inj hp'
      rw [rowOf_deleted, hd]
      rfl
  refine ⟨all, hopsAll, hsub, reflects_of_carriedOp fun p => ?_⟩
  constructor
  · intro a ha
    exact (hdecides ha).1
  · intro hnot row hp
    obtain ⟨o, ho, hocar, hopath, heq⟩ := hrows p row hp
    have hoall : o ∈ all :=
      hall.mpr ⟨ho, .inr ⟨row, hopath ▸ hp, by rw [heq, rowOf_win]⟩⟩
    obtain ⟨a, ha⟩ := exists_carriedOp hoall hocar
    rw [hopath] at ha
    exact (hdecides ha).2 (hnot a ha) row hp

end Beardrive
