import Beardrive.Webapp.Moves
import Mathlib.Data.List.Dedup

/-!
# The history of a file

Content is addressed by its hash, and an address has no owner: whoever names one is served what is
there. So a tool that is given a sha first looks for it in the history of the file it is about, and
that history is what the caller may see of the file and of what was moved to it.

A sha may be shortened. It is then looked for among the versions, but only among those of the first
page of the history, which holds a hundred. A sha in full is not looked for at all.

## Main definitions

* `chainSegments` — a file and the files that were moved to it, each while it was the file
* `ProjectView` — what a caller sees of a project
* `ProjectView.matched`, `ProjectView.historyPage` — the whole history of a file, and its first page
* `resolveSHA`, `mcpRead` — the version a sha names, and reading it
* `ProjectView.PutAt` — a visible put, at the file or at what was moved to it

## Main results

* `chainSegments_moved` — a chain leads back over moves
* `resolveSHA_ok_iff` — which version is answered
* `sha_names_own` — when a sha reaches versions of its file alone, and all of them
-/

namespace Beardrive

/-! ### The chain of a file -/

/-- The instant a file changed its address. -/
def PathEvent.hop (e : PathEvent) : Time :=
  if e.to_ ≠ [] ∧ e.toAt.isZero = false ∧ e.toAt.before e.at_ then e.toAt else e.at_

/-- A path, and when it was the file that is asked about. A zero time is open. -/
structure Segment where
  path : GoString
  from_ : Time := {}
  to_ : Time := {}

/-- A hop into a path. -/
structure Inbound where
  from_ : GoString
  hop : Time

/-- `inboundIndex`: what moved into each path, of the files the ops name. -/
def inboundIndex (ops : List Op) (idx : MoveIndex) (p : GoString) : List Inbound :=
  (pathsOf ops).flatMap fun src =>
    ((idx src).filter fun e => e.to_ ≠ [] && e.to_ = p).map fun e => ⟨src, e.hop⟩

/-- The loop of `chainFrom`. Where two files claim to be the ancestor, or none does, it stops. -/
def chainFrom (into : GoString → List Inbound) :
    ℕ → List GoString → GoString → Time → List Segment
  | 0, _, _, _ => []
  | n + 1, seen, cur, upper =>
    match into cur with
    | [anc] =>
      if anc.from_ ∈ seen then [{ path := cur, to_ := upper }]
      else { path := cur, from_ := anc.hop, to_ := upper } ::
        chainFrom into n (anc.from_ :: seen) anc.from_ anc.hop
    | _ => [{ path := cur, to_ := upper }]

/-- `chainSegments`. -/
def chainSegments (ops : List Op) (idx : MoveIndex) (p : GoString) : List Segment :=
  chainFrom (inboundIndex ops idx) maxChain [p] p {}

/-- `inSegments`. -/
def inSegments (segs : List Segment) (p : GoString) (at_ : Time) : Bool :=
  segs.any fun s => s.path = p && !(!s.from_.isZero && at_.before s.from_) &&
    !(!s.to_.isZero && !at_.before s.to_)

theorem moved_of_inbound {ops : List Op} {idx : MoveIndex} {p : GoString} {anc : Inbound}
    (h : anc ∈ inboundIndex ops idx p) : Moved idx anc.from_ p := by
  obtain ⟨src, -, hanc⟩ := List.mem_flatMap.mp h
  obtain ⟨e, he, rfl⟩ := List.mem_map.mp hanc
  obtain ⟨hmem, hto⟩ := List.mem_filter.mp he
  simp only [ne_eq, Bool.and_eq_true, decide_eq_true_eq] at hto
  exact ⟨e, hmem, hto.2, hto.2 ▸ hto.1⟩

theorem chainFrom_moved {ops : List Op} {idx : MoveIndex} (n : ℕ) (seen : List GoString)
    (cur : GoString) (upper : Time) {s : Segment}
    (h : s ∈ chainFrom (inboundIndex ops idx) n seen cur upper) :
    Relation.ReflTransGen (Moved idx) s.path cur := by
  induction n generalizing seen cur upper with
  | zero => cases h
  | succ n ih =>
    rw [chainFrom] at h
    split at h
    · rename_i anc hanc
      split at h
      · rw [List.mem_singleton.mp h]
      · rcases List.mem_cons.mp h with rfl | h
        · exact .refl
        · exact (ih _ _ _ h).tail (moved_of_inbound (hanc ▸ List.mem_singleton.mpr rfl))
    · rw [List.mem_singleton.mp h]

/-- **A chain leads back over moves**: every path of it was moved to the file. -/
theorem chainSegments_moved {ops : List Op} {idx : MoveIndex} {p q : GoString} {at_ : Time}
    (h : inSegments (chainSegments ops idx p) q at_ = true) :
    Relation.ReflTransGen (Moved idx) q p := by
  obtain ⟨s, hs, hin⟩ := List.any_eq_true.mp h
  simp only [Bool.and_eq_true, decide_eq_true_eq] at hin
  exact hin.1.1 ▸ chainFrom_moved _ _ _ _ hs

/-! ### The feed -/

/-- The order of the feed: the newest first, and in the order of replay turned round where the
times are equal. -/
def histLess (a b : Op) : Bool :=
  if !a.time.equal b.time then b.time.before a.time else less b a

/-- The order of the feed is an order of keys. -/
theorem histLess_iff {a b : Op} : histLess a b = true ↔
    toLex (b.time.ns, b.key) < toLex (a.time.ns, a.key) := by
  rw [histLess, Prod.Lex.toLex_lt_toLex]
  by_cases h : a.time.ns = b.time.ns
  · simp [Time.equal, h, less_iff]
  · simp [Time.equal, Time.before, h, Ne.symm h]

theorem not_histLess_iff {a b : Op} : histLess a b = false ↔
    toLex (a.time.ns, a.key) ≤ toLex (b.time.ns, b.key) := by
  rw [← Bool.not_eq_true, histLess_iff, not_lt]

/-- A sort of the feed. Which of two ops that neither precedes the other comes first is open. -/
structure FeedSort where
  sort : List Op → List Op
  perm : ∀ l, (sort l).Perm l
  sorted : ∀ l, (sort l).Pairwise fun a b => histLess b a = false

/-- Insertion is one. -/
def FeedSort.insertion : FeedSort where
  sort l := l.insertionSort fun a b => histLess b a = false
  perm l := List.perm_insertionSort _ l
  sorted l := by
    have : Std.Total fun a b : Op => histLess b a = false :=
      ⟨fun a b => by simp only [not_histLess_iff]; exact le_total _ _⟩
    have : IsTrans Op fun a b => histLess b a = false :=
      ⟨fun a b c hab hbc => not_histLess_iff.mpr
        ((not_histLess_iff.mp hbc).trans (not_histLess_iff.mp hab))⟩
    exact List.pairwise_insertionSort _ l

/-- What a caller sees of a project: the journals its listing was made from, the journals as they
are, and what it may read. -/
structure ProjectView where
  listed : List Op
  ops : List Op
  canRead : GoString → Bool

namespace ProjectView

variable (v : ProjectView)

/-- `visibleIn`. -/
def files (p : GoString) : Option HubFileInfo :=
  if v.canRead p then liveVersion v.listed p else none

/-- `hasPrefixIn`. -/
def hasPrefixIn (pre : GoString) : Bool :=
  (pathsOf v.listed).any fun p => (v.files p).isSome && hasPrefix p pre

/-- The moves of the project. -/
def moves : MoveIndex := buildMoveIndex (sortOps v.ops)

/-- The ops of a file's history, in the order of replay. The empty path stands for all files. -/
def matched (path : GoString) : List Op :=
  (sortOps v.ops).filter fun op => v.canRead op.path &&
    (path = [] || inSegments (chainSegments (sortOps v.ops) v.moves path) op.path op.time)

/-- The default size of a page. -/
def pageSize : ℕ := 100

/-- What `handleHistory` answers without a cursor. -/
def historyPage (S : FeedSort) (path : GoString) : List Op :=
  (S.sort (v.matched path)).take pageSize

/-- A put that is visible, at the file or at what was moved to it, of a blob. -/
def PutAt (path b : GoString) : Prop :=
  ∃ op ∈ v.ops, op.kind = .put ∧ v.canRead op.path = true ∧ op.blob = b ∧
    Relation.ReflTransGen (Moved v.moves) op.path path

theorem mem_matched {S : FeedSort} {path : GoString} {op : Op} (h : op ∈ v.historyPage S path) :
    op ∈ v.matched path :=
  (S.perm _).mem_iff.mp (List.mem_of_mem_take h)

/-- What is put in the history of a file is put where its chain leads back to. -/
theorem putAt_of_mem {path : GoString} {op : Op} (hpath : path ≠ []) (h : op ∈ v.matched path)
    (hput : op.kind = .put) : v.PutAt path op.blob := by
  obtain ⟨hmem, hmatch⟩ := List.mem_filter.mp h
  simp only [hpath, decide_false, Bool.false_or, Bool.and_eq_true] at hmatch
  exact ⟨op, mem_sortOps.mp hmem, hput, hmatch.1, rfl, chainSegments_moved hmatch.2⟩

end ProjectView

/-! ### The version a sha names -/

/-- Why a sha is refused. -/
inductive ShaError where
  | required
  | tooShort (want : GoString)
  | noHistory (path : GoString)
  | absent (path want : GoString)
  | ambiguous (want : GoString) (n : ℕ)
  deriving DecidableEq

section

variable (toLower : GoString → GoString) (S : FeedSort) (v : ProjectView)

/-- The content of an op that a shortened sha may stand for. -/
def startsWith (want : GoString) (b : GoString) : Bool := b ≠ [] && hasPrefix b want

/-- The versions among some ops that a shortened sha may stand for. -/
def seenIn (ops : List Op) (want : GoString) : List GoString :=
  ((ops.map Op.blob).filter (startsWith want)).dedup

/-- `resolveSHA`. -/
def resolveSHA (path want : GoString) : Except ShaError GoString :=
  let want := trimSpace want
  if want = [] then .error .required
  else if want.length = 64 then .ok want
  else if want.length < 6 then .error (.tooShort want)
  else
    let want := toLower want
    let entries := v.historyPage S path
    if entries = [] then .error (.noHistory path)
    else match seenIn entries want with
      | [] => .error (.absent path want)
      | [full] => .ok full
      | seen => .error (.ambiguous want seen.length)

theorem mem_seenIn {ops : List Op} {want b : GoString} :
    b ∈ seenIn ops want ↔ ∃ op ∈ ops, op.blob = b ∧ startsWith want b = true := by
  simp only [seenIn, List.mem_dedup, List.mem_filter, List.mem_map]
  constructor
  · rintro ⟨⟨op, hop, rfl⟩, hstarts⟩
    exact ⟨op, hop, rfl, hstarts⟩
  · rintro ⟨op, hop, rfl, hstarts⟩
    exact ⟨⟨op, hop, rfl⟩, hstarts⟩

/-- A version of the history that a sha may stand for. -/
def Version (ops : List Op) (want b : GoString) : Prop :=
  ∃ op ∈ ops, op.blob = b ∧ startsWith want b = true

theorem version_iff {ops : List Op} {want b : GoString} :
    Version ops want b ↔ b ∈ seenIn ops want := mem_seenIn.symm

/-- None, one or several: the versions that a shortened sha may stand for. -/
theorem seenIn_cases (ops : List Op) (want : GoString) :
    (seenIn ops want = [] ∧ ∀ b, ¬ Version ops want b) ∨
      (∃ b, seenIn ops want = [b] ∧ Version ops want b ∧ ∀ b', Version ops want b' → b' = b) ∨
      ∃ b b' rest, seenIn ops want = b :: b' :: rest ∧ Version ops want b ∧ Version ops want b' ∧
        b ≠ b' := by
  have hnodup : (seenIn ops want).Nodup := List.nodup_dedup _
  simp only [version_iff]
  rcases hseen : seenIn ops want with _ | ⟨b, _ | ⟨b', rest⟩⟩
  · exact .inl ⟨rfl, fun b hb => by cases hb⟩
  · exact .inr (.inl ⟨b, rfl, List.mem_singleton_self b, fun b' hb' => List.mem_singleton.mp hb'⟩)
  · rw [hseen] at hnodup
    refine .inr (.inr ⟨b, b', rest, rfl, List.mem_cons_self, by simp, ?_⟩)
    rintro rfl
    exact (List.nodup_cons.mp hnodup).1 List.mem_cons_self

variable {toLower S v}

/-- A shortened sha is answered when the page has one version that it may stand for. -/
theorem resolveSHA_short {path want : GoString} (hlong : 6 ≤ (trimSpace want).length)
    (hshort : (trimSpace want).length ≠ 64) :
    resolveSHA toLower S v path want =
      if v.historyPage S path = [] then .error (.noHistory path)
      else match seenIn (v.historyPage S path) (toLower (trimSpace want)) with
        | [] => .error (.absent path (toLower (trimSpace want)))
        | [full] => .ok full
        | seen => .error (.ambiguous (toLower (trimSpace want)) seen.length) := by
  have hne : trimSpace want ≠ [] := fun h => by simp [h] at hlong
  rw [resolveSHA]
  simp only [hne, hshort, not_lt.mpr hlong, ↓reduceIte]

/-- A sha in full is answered as it is. -/
theorem resolveSHA_full {path want : GoString} (h : (trimSpace want).length = 64) :
    resolveSHA toLower S v path want = .ok (trimSpace want) := by
  have hne : trimSpace want ≠ [] := fun hnil => by simp [hnil] at h
  rw [resolveSHA]
  simp only [hne, h, ↓reduceIte]

/-- The answer to a shortened sha, by the versions on the page. -/
theorem resolveSHA_cases (path : GoString) {want : GoString} (hlong : 6 ≤ (trimSpace want).length)
    (hshort : (trimSpace want).length ≠ 64) :
    ((∀ b, ¬ Version (v.historyPage S path) (toLower (trimSpace want)) b) ∧
        (resolveSHA toLower S v path want = .error (.absent path (toLower (trimSpace want))) ∨
          resolveSHA toLower S v path want = .error (.noHistory path))) ∨
      (∃ b, Version (v.historyPage S path) (toLower (trimSpace want)) b ∧
        (∀ b', Version (v.historyPage S path) (toLower (trimSpace want)) b' → b' = b) ∧
        resolveSHA toLower S v path want = .ok b) ∨
      ∃ b b' n, Version (v.historyPage S path) (toLower (trimSpace want)) b ∧
        Version (v.historyPage S path) (toLower (trimSpace want)) b' ∧ b ≠ b' ∧
        resolveSHA toLower S v path want = .error (.ambiguous (toLower (trimSpace want)) n) := by
  rw [resolveSHA_short hlong hshort]
  by_cases hempty : v.historyPage S path = []
  · refine .inl ⟨fun b ⟨op, hop, _⟩ => ?_, .inr (if_pos hempty)⟩
    rw [hempty] at hop
    cases hop
  · rw [if_neg hempty]
    rcases seenIn_cases (v.historyPage S path) (toLower (trimSpace want)) with
      ⟨hseen, hnone⟩ | ⟨b, hseen, hb, honly⟩ | ⟨b, b', rest, hseen, hb, hb', hne⟩
    · exact .inl ⟨hnone, .inl (by rw [hseen])⟩
    · exact .inr (.inl ⟨b, hb, honly, by rw [hseen]⟩)
    · exact .inr (.inr ⟨b, b', _, hb, hb', hne, by rw [hseen]⟩)

/-- **Which version is answered**: a sha in full as it is, and a shortened one of at least six
characters when the page has one version that it may stand for. -/
theorem resolveSHA_ok_iff {path want b : GoString} : resolveSHA toLower S v path want = .ok b ↔
    if (trimSpace want).length = 64 then b = trimSpace want
    else 6 ≤ (trimSpace want).length ∧
      Version (v.historyPage S path) (toLower (trimSpace want)) b ∧
      ∀ b', Version (v.historyPage S path) (toLower (trimSpace want)) b' → b' = b := by
  split_ifs with h
  · rw [resolveSHA_full h, Except.ok.injEq, eq_comm]
  · by_cases hlong : 6 ≤ (trimSpace want).length
    · rcases @resolveSHA_cases toLower S v path _ hlong h with
        ⟨hnone, hres | hres⟩ | ⟨b₁, hb₁, honly, hres⟩ | ⟨b₁, b₂, n, hb₁, hb₂, hne, hres⟩
      · simp [hres, hnone]
      · simp [hres, hnone]
      · rw [hres, Except.ok.injEq]
        exact ⟨fun heq => heq ▸ ⟨hlong, hb₁, honly⟩, fun ⟨_, hb, _⟩ => (honly b hb).symm⟩
      · rw [hres]
        exact ⟨nofun, fun ⟨_, _, honly⟩ => absurd ((honly b₁ hb₁).trans (honly b₂ hb₂).symm) hne⟩
    · simp only [hlong, false_and, iff_false]
      rw [resolveSHA]
      simp only [h, not_le.mp hlong, ↓reduceIte]
      split_ifs <;> simp

end

/-! ### Reading a version -/

/-- `splitMCPPath`: the first segment of a virtual path, and the rest. -/
def splitMCPPath (p : GoString) : GoString × GoString :=
  let p := trimSpace p
  let p := if hasPrefix p [slash] then p.tail else p
  if slash ∈ p then
    (p.takeWhile (· ≠ slash), trimSlashes (p.dropWhile (· ≠ slash)).tail)
  else (p, [])

/-- Why a read is refused. -/
inductive ReadError where
  | notAFile
  | noSuchProject (token : GoString)
  | folder (path : GoString)
  | noSuchFile (path : GoString)
  | sha (e : ShaError)
  | unavailable
  deriving DecidableEq

/-- `splitGranted`: the project of a virtual path, when the caller was granted one of that name or
id, and the path in it. -/
def splitGranted {α : Type*} (projects : GoString → Option α) (path : GoString) :
    Except ReadError (α × GoString) :=
  let (project, rest) := splitMCPPath path
  if project = [] ∨ rest = [] then .error .notAFile
  else match projects project with
    | none => .error (.noSuchProject project)
    | some v => .ok (v, rest)

section

variable (storage : GoString → Option GoString)

/-- `Open`: the content of a listed file. A link has none, and what is no sha names none. -/
def openFile (fi : HubFileInfo) : Option GoString :=
  if fi.link ≠ [] then none else if isBlobSHA fi.blob then storage fi.blob else none

variable (toLower : GoString → GoString) (S : FeedSort) (projects : GoString → Option ProjectView)

/-- `mcpRead`, up to how the bytes are shown: the blob that is read, and its bytes. -/
def mcpRead (path sha : GoString) : Except ReadError (GoString × GoString) :=
  match splitGranted projects path with
  | .error e => .error e
  | .ok (v, rest) =>
    match v.files rest with
    | none =>
      if v.hasPrefixIn (rest ++ [slash]) then .error (.folder path) else .error (.noSuchFile path)
    | some fi =>
      let asked := if sha = [] then .ok fi
        else (resolveSHA toLower S v rest sha).map fun full => { fi with blob := full, size := 0 }
      match asked with
      | .error e => .error (.sha e)
      | .ok fi =>
        match openFile storage fi with
        | none => .error .unavailable
        | some data => .ok (fi.blob, data)

end

namespace ProjectView

variable (toLower : GoString → GoString) (S : FeedSort) (v : ProjectView)

/-- What a sha is answered when it is looked for in the whole history of its file: the one version
that starts with it, or a refusal. -/
structure ResolvesRight (path want : GoString) : Prop where
  answers : ∀ b, resolveSHA toLower S v path want = .ok b ↔
    Version (v.matched path) (toLower (trimSpace want)) b ∧
      ∀ b', Version (v.matched path) (toLower (trimSpace want)) b' → b' = b
  absent : (∀ b, ¬ Version (v.matched path) (toLower (trimSpace want)) b) →
    resolveSHA toLower S v path want = .error (.absent path (toLower (trimSpace want))) ∨
      resolveSHA toLower S v path want = .error (.noHistory path)
  ambiguous : ∀ b b', Version (v.matched path) (toLower (trimSpace want)) b →
    Version (v.matched path) (toLower (trimSpace want)) b' → b ≠ b' →
    ∃ n, resolveSHA toLower S v path want = .error (.ambiguous (toLower (trimSpace want)) n)

/-- The first page tells what the whole history does: it has every version that starts with the
sha, or two of them. A sha in full is the one version that starts with it. -/
def PageTells (path want : GoString) : Prop :=
  if (trimSpace want).length = 64 then
    Version (v.matched path) (toLower (trimSpace want)) (trimSpace want) ∧
      ∀ b, Version (v.matched path) (toLower (trimSpace want)) b → b = trimSpace want
  else
    (∀ b, Version (v.matched path) (toLower (trimSpace want)) b →
      Version (v.historyPage S path) (toLower (trimSpace want)) b) ∨
    ∃ b b', Version (v.historyPage S path) (toLower (trimSpace want)) b ∧
      Version (v.historyPage S path) (toLower (trimSpace want)) b' ∧ b ≠ b'

/-- A blob that a sha reaches although no put on the page names it: one named in full, or the one
version that starts with it where only deletes name it. -/
def Strays (path want b : GoString) : Prop :=
  if (trimSpace want).length = 64 then b = trimSpace want
  else 6 ≤ (trimSpace want).length ∧
    Version (v.historyPage S path) (toLower (trimSpace want)) b ∧
    ∀ op ∈ v.historyPage S path, startsWith (toLower (trimSpace want)) op.blob = true →
      op.blob = b ∧ op.kind = .delete

variable {toLower S v}

theorem version_of_page {path want b : GoString} (h : Version (v.historyPage S path) want b) :
    Version (v.matched path) want b := by
  obtain ⟨op, hop, hb⟩ := h
  exact ⟨op, mem_matched v hop, hb⟩

/-- What is refused as absent, and rightly, is not in the history. -/
theorem ResolvesRight.none {path want : GoString} (h : v.ResolvesRight toLower S path want)
    (hok : ∀ b, resolveSHA toLower S v path want ≠ .ok b)
    (hambiguous : ∀ n, resolveSHA toLower S v path want ≠
      .error (.ambiguous (toLower (trimSpace want)) n)) (b : GoString) :
    ¬ Version (v.matched path) (toLower (trimSpace want)) b := by
  intro hb
  by_cases honly : ∀ b', Version (v.matched path) (toLower (trimSpace want)) b' → b' = b
  · exact hok b ((h.answers b).mpr ⟨hb, honly⟩)
  · push Not at honly
    obtain ⟨b', hb', hne⟩ := honly
    obtain ⟨n, hn⟩ := h.ambiguous b' b hb' hb hne
    exact hambiguous n hn

/-- **A sha is answered right when the page tells**, and only then. -/
theorem resolvesRight_iff {path want : GoString} (hlong : 6 ≤ (trimSpace want).length) :
    v.ResolvesRight toLower S path want ↔ v.PageTells toLower S path want := by
  rw [PageTells]
  split_ifs with h
  · have hres := @resolveSHA_full toLower S v path _ h
    constructor
    · intro hright
      exact (hright.answers _).mp hres
    · rintro ⟨hmem, honly⟩
      refine ⟨fun b => ?_, fun hnone => absurd hmem (hnone _), fun b b' hb hb' hne =>
        absurd ((honly b hb).trans (honly b' hb').symm) hne⟩
      rw [hres, Except.ok.injEq]
      exact ⟨fun heq => heq ▸ ⟨hmem, honly⟩, fun hb => (honly b hb.1).symm⟩
  · rcases @resolveSHA_cases toLower S v path _ hlong h with
      ⟨hnone, hres⟩ | ⟨b₁, hb₁, honly, hres⟩ | ⟨b₁, b₂, n, hb₁, hb₂, hne, hres⟩
    · have hok : ∀ b, resolveSHA toLower S v path want ≠ .ok b := fun b => by
        rcases hres with hres | hres <;> simp [hres]
      constructor
      · intro hright
        refine .inl fun b hb => absurd hb (hright.none hok (fun n => ?_) b)
        rcases hres with hres | hres <;> simp [hres]
      · rintro (hall | ⟨b, -, hb, -⟩)
        · have hno := fun b hb => hnone b (hall b hb)
          exact ⟨fun b => ⟨fun heq => absurd heq (hok b), fun hb => absurd hb.1 (hno b)⟩,
            fun _ => hres, fun b _ hb => absurd hb (hno b)⟩
        · exact absurd hb (hnone b)
    · constructor
      · intro hright
        refine .inl fun b hb => ?_
        rw [((hright.answers b₁).mp hres).2 b hb]
        exact hb₁
      · rintro (hall | ⟨b, b', hb, hb', hne⟩)
        · refine ⟨fun b => ?_, fun hno => absurd (version_of_page hb₁) (hno b₁),
            fun b b' hb hb' hne => absurd ?_ hne⟩
          · rw [hres, Except.ok.injEq]
            refine ⟨fun heq => heq ▸ ⟨version_of_page hb₁, fun b' hb' => honly b' (hall b' hb')⟩,
              fun hb => (honly b (hall b hb.1)).symm⟩
          · rw [honly b (hall b hb), honly b' (hall b' hb')]
        · exact absurd ((honly b hb).trans (honly b' hb').symm) hne
    · have hmem₁ := version_of_page hb₁
      have hmem₂ := version_of_page hb₂
      refine iff_of_true ⟨fun b => ?_, fun hno => absurd hmem₁ (hno b₁), fun _ _ _ _ _ => ⟨n, hres⟩⟩
        (.inr ⟨b₁, b₂, hb₁, hb₂, hne⟩)
      rw [hres]
      exact ⟨nofun, fun ⟨_, honly⟩ => absurd ((honly b₁ hmem₁).trans (honly b₂ hmem₂).symm) hne⟩

/-- What a shortened sha resolves to is named by a put of the page, or strays. -/
theorem putAt_or_strays {path want b : GoString} (hpath : path ≠ [])
    (h : resolveSHA toLower S v path want = .ok b) :
    v.PutAt path b ∨ v.Strays toLower S path want b := by
  rw [resolveSHA_ok_iff] at h
  rw [Strays]
  split_ifs at h ⊢ with hfull
  · exact .inr h
  · obtain ⟨hlong, hb, honly⟩ := h
    by_cases hput : ∃ op ∈ v.historyPage S path, op.blob = b ∧ op.kind = .put
    · obtain ⟨op, hop, rfl, hkind⟩ := hput
      exact .inl (v.putAt_of_mem hpath (mem_matched v hop) hkind)
    · push Not at hput
      refine .inr ⟨hlong, hb, fun op hop hstarts => ?_⟩
      have heq := honly op.blob ⟨op, hop, rfl, hstarts⟩
      refine ⟨heq, ?_⟩
      cases hkind : op.kind with
      | put => exact absurd hkind (hput op hop heq)
      | delete => rfl

/-- A sha resolves to what strays. -/
theorem resolveSHA_of_strays {path want b : GoString} (h : v.Strays toLower S path want b) :
    resolveSHA toLower S v path want = .ok b := by
  rw [Strays] at h
  rw [resolveSHA_ok_iff]
  split_ifs at h ⊢ with hfull
  · exact h
  · obtain ⟨hlong, hb, honly⟩ := h
    refine ⟨hlong, hb, fun b' ⟨op, hop, heq, hstarts⟩ => ?_⟩
    rw [← heq]
    exact (honly op hop (heq ▸ hstarts)).1

end ProjectView

/-! ### Confinement -/

section

variable {storage : GoString → Option GoString} {toLower : GoString → GoString} {S : FeedSort}
  {projects : GoString → Option ProjectView} {path rest sha : GoString} {v : ProjectView}

/-- What a read of a past version answers. -/
theorem mcpRead_ok_iff (hsplit : splitGranted projects path = .ok (v, rest)) (hsha : sha ≠ [])
    {b data : GoString} : mcpRead storage toLower S projects path sha = .ok (b, data) ↔
      ∃ fi, v.files rest = some fi ∧ resolveSHA toLower S v rest sha = .ok b ∧
        openFile storage { fi with blob := b, size := 0 } = some data := by
  rw [mcpRead, hsplit]
  simp only [if_neg hsha]
  cases hfi : v.files rest with
  | none =>
    simp only [reduceCtorEq, false_and, exists_false, iff_false]
    split_ifs <;> simp
  | some fi =>
    simp only [Option.some.injEq, exists_eq_left']
    cases hres : resolveSHA toLower S v rest sha with
    | error e => simp [Except.map]
    | ok full =>
      simp only [Except.map, Except.ok.injEq]
      cases hopen : openFile storage { fi with blob := full, size := 0 } with
      | none =>
        simp only [reduceCtorEq, false_iff, not_and]
        rintro rfl
        simp [hopen]
      | some bytes =>
        simp only [Except.ok.injEq, Prod.mk.injEq]
        constructor
        · rintro ⟨rfl, rfl⟩
          exact ⟨rfl, hopen⟩
        · rintro ⟨rfl, hdata⟩
          exact ⟨rfl, Option.some.inj (hopen.symm.trans hdata)⟩

theorem rest_ne_nil (hsplit : splitGranted projects path = .ok (v, rest)) : rest ≠ [] := by
  rw [splitGranted] at hsplit
  simp only at hsplit
  split_ifs at hsplit with h
  split at hsplit
  · cases hsplit
  · cases hsplit
    exact (not_or.mp h).2

/-- **A sha reaches versions of its file alone** when what strays was put there too or cannot be
opened, and only then; and it is answered out of the whole history when the first page tells, and
only then. -/
theorem sha_names_own (hsplit : splitGranted projects path = .ok (v, rest)) (hsha : sha ≠ []) :
    ((∀ b data, mcpRead storage toLower S projects path sha = .ok (b, data) →
        storage b = some data ∧ v.PutAt rest b) ↔
      ∀ fi b, v.files rest = some fi →
        (openFile storage { fi with blob := b, size := 0 }).isSome →
        v.Strays toLower S rest sha b → v.PutAt rest b) ∧
    (6 ≤ (trimSpace sha).length →
      (v.ResolvesRight toLower S rest sha ↔ v.PageTells toLower S rest sha)) := by
  refine ⟨⟨fun hown fi b hfi hopen hstrays => ?_, fun hstray b data hread => ?_⟩,
    ProjectView.resolvesRight_iff⟩
  · obtain ⟨data, hdata⟩ := Option.isSome_iff_exists.mp hopen
    exact (hown b data ((mcpRead_ok_iff hsplit hsha).mpr
      ⟨fi, hfi, ProjectView.resolveSHA_of_strays hstrays, hdata⟩)).2
  · obtain ⟨fi, hfi, hres, hopen⟩ := (mcpRead_ok_iff hsplit hsha).mp hread
    refine ⟨?_, ?_⟩
    · rw [openFile] at hopen
      split_ifs at hopen
      exact hopen
    · rcases ProjectView.putAt_or_strays (rest_ne_nil hsplit) hres with hput | hstrays
      · exact hput
      · exact hstray fi b hfi (Option.isSome_iff_exists.mpr ⟨data, hopen⟩) hstrays

end

/-- A put of a file. -/
def putOf (lamport : ℤ) (path blob : GoString) : Op :=
  { lamport, kind := .put, path, blob, size := 1 }

/-- Two files, the second of them hidden. -/
def oneHidden : ProjectView where
  listed := [putOf 1 (ascii "f") (contentOf 0x61), putOf 2 (ascii "g") (contentOf 0x62)]
  ops := [putOf 1 (ascii "f") (contentOf 0x61), putOf 2 (ascii "g") (contentOf 0x62)]
  canRead p := p ≠ ascii "g"

/-- One project, of the name `p`. -/
def onlyProject (name : GoString) : Option ProjectView :=
  if name = ascii "p" then some oneHidden else none

theorem historyPage_oneHidden : oneHidden.historyPage .insertion (ascii "f") =
    [putOf 1 (ascii "f") (contentOf 0x61)] := by decide

/-- The shortened sha of a version is read. -/
theorem short_sha_found :
    (∀ b data, mcpRead some id .insertion onlyProject (ascii "/p/f") (ascii "aaaaaa") =
        .ok (b, data) → some b = some data ∧ oneHidden.PutAt (ascii "f") b) ∧
      oneHidden.ResolvesRight id .insertion (ascii "f") (ascii "aaaaaa") := by
  have hnames := @sha_names_own some id .insertion onlyProject (ascii "/p/f") (ascii "f")
    (ascii "aaaaaa") oneHidden rfl (by decide)
  have htrim : trimSpace (ascii "aaaaaa") = ascii "aaaaaa" := by decide
  refine ⟨hnames.1.mpr fun fi b _ _ hstrays => ?_, (hnames.2 (by decide)).mpr ?_⟩
  · rw [ProjectView.Strays, if_neg (by decide), historyPage_oneHidden, htrim] at hstrays
    have hdelete := (hstrays.2.2 _ List.mem_cons_self (by decide)).2
    cases hdelete
  · rw [ProjectView.PageTells, if_neg (by decide)]
    refine .inl fun b ⟨op, hop, hb⟩ => ⟨op, ?_, hb⟩
    have hall : oneHidden.matched (ascii "f") =
        oneHidden.historyPage .insertion (ascii "f") := by decide
    exact hall ▸ hop

/-- The content of a hidden file is read by its sha, through a file that never held it. -/
theorem hidden_content_read : ¬ ∀ (storage : GoString → Option GoString)
    (toLower : GoString → GoString) (S : FeedSort) (projects : GoString → Option ProjectView)
    (path rest sha : GoString) (v : ProjectView),
    splitGranted projects path = .ok (v, rest) → sha ≠ [] →
      (∀ b data, mcpRead storage toLower S projects path sha = .ok (b, data) →
        storage b = some data ∧ v.PutAt rest b) ∧
      (6 ≤ (trimSpace sha).length → v.ResolvesRight toLower S rest sha) := by
  intro h
  have hread := (h some id .insertion onlyProject (ascii "/p/f") (ascii "f") (contentOf 0x62)
    oneHidden rfl (by decide)).1 (contentOf 0x62) (contentOf 0x62) (by decide)
  obtain ⟨op, hop, -, hvisible, hblob, -⟩ := hread.2
  revert hvisible hblob
  rcases List.mem_cons.mp hop with rfl | hop
  · decide
  · rw [List.mem_singleton.mp hop]
    decide

end Beardrive
