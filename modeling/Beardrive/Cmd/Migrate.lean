import Beardrive.Lib.Runs
import Beardrive.Webapp.StorePuts
import Mathlib.Data.List.AList

/-!
# Export and import

An export walks the store of a project by four prefixes, one after another, and copies every object
under each into a tar archive, while devices go on pushing. An import takes an archive member by
member and asks at the end whether it was complete: every content a journal names has a member,
and every manifest brings its chunks.

## The order of the prefixes

A device uploads chunks, then the manifest, then the journal. The export reads journals first, so
whatever they name is in the store when the other classes are listed. But it lists chunks before
manifests, so a manifest that is new when the manifests are listed can name chunks that were not
there when the chunks were. The import refuses the archive for it.

## Manifests that do not decode

A manifest counts as content of its file when it is a member at all, also when nothing can be read
off it. An archive with such a manifest is taken, and the file behind it is lost.

## Main definitions

* `importStore` — the import of an archive
* `Migration` — a project that devices push to, and an export of it
* `WholeMembers` — every file of an imported journal can be read on the target

## Main results

* `importStore_of_exported` — a finished export without a late manifest is taken
* `wholeMembers_iff` — a taken archive is whole exactly when the manifests that count decode
* `export_can_be_imported` — both
-/

namespace Beardrive

/-! ### The keys of an archive -/

/-- `manifestName`: the member every export starts with. -/
def exportManifestName : GoString := ascii "beardrive-export.json"

/-- What a key of the store layout is. -/
inductive KeyClass where
  | journal
  | blob (sha : GoString)
  | chunk (sha : GoString)
  | manifest (sha : GoString)
  deriving DecidableEq, Repr

/-- A byte of `[A-Za-z0-9._-]`. -/
def journalNameByte (b : UInt8) : Bool :=
  (0x41 ≤ b && b ≤ 0x5A) || (0x61 ≤ b && b ≤ 0x7A) || (0x30 ≤ b && b ≤ 0x39) || b == 0x2E ||
    b == 0x5F || b == 0x2D

/-- `journalKeyRe`. -/
def journalKeyRe (key : GoString) : Bool :=
  let device := trimSuffix (key.drop 8) (ascii ".jsonl")
  isJournalKey key && hasSuffix (key.drop 8) (ascii ".jsonl") && device != [] &&
    device.all journalNameByte

/-- The class of a key, by the four expressions of the layout. -/
def keyClass (key : GoString) : Option KeyClass :=
  if journalKeyRe key then some .journal
  else if isManifestKey key && isBlobSHA (key.drop 10) then some (.manifest (key.drop 10))
  else if hasPrefix key (ascii "blobs/") && isBlobSHA (key.drop 6) then some (.blob (key.drop 6))
  else if hasPrefix key (ascii "chunks/") && isBlobSHA (key.drop 7) then some (.chunk (key.drop 7))
  else none

/-- Where a blob and a manifest are stored. -/
def blobKey (sha : GoString) : GoString := ascii "blobs/" ++ sha

def manifestKey (sha : GoString) : GoString := ascii "manifests/" ++ sha

/-! ### The import -/

/-- One member of an archive. -/
structure Member where
  name : GoString
  dir : Bool := false
  body : GoString
  deriving DecidableEq, Repr

/-- Why an import stops. -/
inductive ImportError where
  | tooLarge
  | corrupt (key got : GoString)
  | unexpected (key : GoString)
  | noJournals
  | missingChunk (manifest chunk : GoString)
  | missingContent (path blob : GoString)
  deriving DecidableEq, Repr

/-- What the import has of the members so far: the target, the names that have content, the
contents a journal names and for which path, the chunks, and the chunks the manifests name. -/
structure Importing where
  target : AList fun _ : GoString => GoString := ∅
  content : List GoString := []
  referenced : List (GoString × GoString) := []
  chunks : List GoString := []
  manChunks : List (GoString × GoString) := []
  journals : ℕ := 0

/-- The contents the put ops of a journal name, each with its path. -/
def putBlobs (body : GoString) : List (GoString × GoString) :=
  ((parse body).filter fun op => op.kind = .put && op.blob != []).map fun op => (op.blob, op.path)

/-- The members the import passes over. -/
def Member.skipped (m : Member) : Bool := m.name == exportManifestName || m.dir

/-- One member. A member is spooled, up to `maxBlob` bytes, before anything is stored. -/
def importMember (env : StoreEnv) (maxBlob : ℕ) (s : Importing) (m : Member) :
    Except ImportError Importing :=
  if m.skipped then .ok s
  else
    match keyClass m.name with
    | none => .error (.unexpected m.name)
    | some .journal =>
      if maxBlob < m.body.length then .error .tooLarge
      else .ok { s with target := s.target.insert m.name m.body,
                        referenced := s.referenced ++ putBlobs m.body, journals := s.journals + 1 }
    | some (.manifest sha) =>
      if maxBlob < m.body.length then .error .tooLarge
      else .ok { s with target := s.target.insert m.name m.body, content := s.content ++ [sha],
                        manChunks := s.manChunks ++
                          ((env.chunksOf m.body).getD []).map fun h => (sha, h) }
    | some (.blob sha) =>
      if maxBlob < m.body.length then .error .tooLarge
      else if env.sum m.body ≠ sha then .error (.corrupt m.name (env.sum m.body))
      else .ok { s with target := s.target.insert m.name m.body, content := s.content ++ [sha] }
    | some (.chunk sha) =>
      if maxBlob < m.body.length then .error .tooLarge
      else if env.sum m.body ≠ sha then .error (.corrupt m.name (env.sum m.body))
      else .ok { s with target := s.target.insert m.name m.body, chunks := s.chunks ++ [sha] }

/-- The loop over the members. -/
def importMembers (env : StoreEnv) (maxBlob : ℕ) (s : Importing) :
    List Member → Except ImportError Importing
  | [] => .ok s
  | m :: members =>
    match importMember env maxBlob s m with
    | .error e => .error e
    | .ok s => importMembers env maxBlob s members

/-- `importStore`: the target it leaves, unless it refuses the archive. -/
def importStore (env : StoreEnv) (maxBlob : ℕ) (allowIncomplete : Bool) (members : List Member) :
    Except ImportError (AList fun _ : GoString => GoString) :=
  match importMembers env maxBlob {} members with
  | .error e => .error e
  | .ok s =>
    if s.journals = 0 then .error .noJournals
    else if allowIncomplete then .ok s.target
    else
      match s.manChunks.find? fun c => !s.chunks.contains c.2 with
      | some (manifest, chunk) => .error (.missingChunk manifest chunk)
      | none =>
        match s.referenced.find? fun r => !s.content.contains r.1 with
        | some (blob, path) => .error (.missingContent path blob)
        | none => .ok s.target

/-! ### The export -/

/-- The prefixes of an export, in its order. -/
def exportPrefixes : List GoString :=
  [ascii "journal/", ascii "blobs/", ascii "chunks/", ascii "manifests/"]

/-- An export on its way: the prefixes it has still to list, what is left of the last listing with
the sizes it gave, and the archive so far, after its first member. -/
structure Exporter where
  left : List GoString := exportPrefixes
  queue : List (GoString × ℕ) := []
  archive : List Member := []

/-- The project, and the export, which is gone once it has failed. -/
structure Migration where
  store : AList fun _ : GoString => GoString := ∅
  exporter : Option Exporter := none

/-- What devices upload, and the steps of the export. A listing comes in any order. -/
inductive MigrateEvent where
  | blob (body : GoString)
  | chunk (body : GoString)
  | manifest (sha body : GoString)
  | journal (key body : GoString)
  | start
  | list (keys : List GoString)
  | get
  deriving DecidableEq, Repr

/-- Whether content can be had under one of the two keys of a file. -/
def Migration.holds (s : Migration) (sha : GoString) : Bool :=
  (s.store.lookup (blobKey sha)).isSome || (s.store.lookup (manifestKey sha)).isSome

/-- What the export copies under a prefix. -/
def Migration.listing (s : Migration) (pre : GoString) : List GoString :=
  s.store.keys.filter fun key => hasPrefix key pre && (keyClass key).isSome

/-- The export copies the next object of its listing; the archive writer takes no other size than
the one that was listed. -/
def Migration.copy (s : Migration) (e : Exporter) : Option Exporter :=
  match e.queue with
  | [] => none
  | (key, size) :: queue =>
    match s.store.lookup key with
    | none => none
    | some body =>
      if body.length ≠ size then none
      else some { e with queue, archive := e.archive ++ [{ name := key, body }] }

/-- One step. A device uploads content under its own hash, a manifest after its chunks, and a
journal after all it names. -/
def Migration.step (env : StoreEnv) (s : Migration) : MigrateEvent → Option Migration
  | .blob body =>
    if isBlobSHA (env.sum body) then
      some { s with store := s.store.insert (blobKey (env.sum body)) body }
    else none
  | .chunk body =>
    if isBlobSHA (env.sum body) then
      some { s with store := s.store.insert (chunkKey (env.sum body)) body }
    else none
  | .manifest sha body =>
    match env.chunksOf body with
    | none => none
    | some names =>
      if isBlobSHA sha && names.all fun h => (s.store.lookup (chunkKey h)).isSome then
        some { s with store := s.store.insert (manifestKey sha) body }
      else none
  | .journal key body =>
    if isJournalKey key && (putBlobs body).all fun r => s.holds r.1 then
      some { s with store := s.store.insert key body }
    else none
  | .start => some { s with exporter := some {} }
  | .list keys =>
    match s.exporter with
    | none => none
    | some e =>
      match e.queue, e.left with
      | [], pre :: left =>
        if keys.isPerm (s.listing pre) then
          some { s with exporter := some { e with
            left, queue := keys.map fun key => (key, ((s.store.lookup key).getD []).length) } }
        else none
      | _, _ => none
  | .get =>
    match s.exporter with
    | none => none
    | some e => if e.queue = [] then none else some { s with exporter := s.copy e }

/-- The archive of an export that has finished. -/
def Migration.exported (s : Migration) : Option (List Member) :=
  s.exporter.bind fun e => if e.left = [] ∧ e.queue = [] then some e.archive else none

/-! ### Keys -/

theorem isManifestKey_manifestKey (sha : GoString) : isManifestKey (manifestKey sha) = true :=
  hasPrefix_iff.mpr ⟨sha, rfl⟩

/-- Where keys with different first bytes start. -/
theorem not_hasPrefix {p q : GoString} (x : GoString) (hp : p ≠ []) (hq : q ≠ [])
    (hne : p.head? ≠ q.head?) : hasPrefix (p ++ x) q = false := by
  rw [hasPrefix_eq_false_iff]
  rintro ⟨rest, hrest⟩
  have hhead := congrArg List.head? hrest
  rw [List.head?_append_of_ne_nil _ hq, List.head?_append_of_ne_nil _ hp] at hhead
  exact hne hhead.symm

theorem keyClass_blobKey (sha : GoString) :
    keyClass (blobKey sha) = if isBlobSHA sha then some (.blob sha) else none := by
  have hj : isJournalKey (blobKey sha) = false :=
    not_hasPrefix sha (by decide) (by decide) (by decide)
  have hm : isManifestKey (blobKey sha) = false :=
    not_hasPrefix sha (by decide) (by decide) (by decide)
  have hb : hasPrefix (blobKey sha) (ascii "blobs/") = true := hasPrefix_iff.mpr ⟨sha, rfl⟩
  have hc : hasPrefix (blobKey sha) (ascii "chunks/") = false :=
    not_hasPrefix sha (by decide) (by decide) (by decide)
  have hdrop : (blobKey sha).drop 6 = sha := rfl
  simp [keyClass, journalKeyRe, hj, hm, hb, hc, hdrop]

theorem keyClass_chunkKey (sha : GoString) :
    keyClass (chunkKey sha) = if isBlobSHA sha then some (.chunk sha) else none := by
  have hj : isJournalKey (chunkKey sha) = false :=
    not_hasPrefix sha (by decide) (by decide) (by decide)
  have hm : isManifestKey (chunkKey sha) = false :=
    not_hasPrefix sha (by decide) (by decide) (by decide)
  have hb : hasPrefix (chunkKey sha) (ascii "blobs/") = false :=
    not_hasPrefix sha (by decide) (by decide) (by decide)
  have hc : hasPrefix (chunkKey sha) (ascii "chunks/") = true := hasPrefix_iff.mpr ⟨sha, rfl⟩
  have hdrop : (chunkKey sha).drop 7 = sha := rfl
  simp [keyClass, journalKeyRe, hj, hm, hb, hc, hdrop]

theorem keyClass_manifestKey (sha : GoString) :
    keyClass (manifestKey sha) = if isBlobSHA sha then some (.manifest sha) else none := by
  have hj : isJournalKey (manifestKey sha) = false :=
    not_hasPrefix sha (by decide) (by decide) (by decide)
  have hb : hasPrefix (manifestKey sha) (ascii "blobs/") = false :=
    not_hasPrefix sha (by decide) (by decide) (by decide)
  have hc : hasPrefix (manifestKey sha) (ascii "chunks/") = false :=
    not_hasPrefix sha (by decide) (by decide) (by decide)
  have hdrop : (manifestKey sha).drop 10 = sha := rfl
  simp [keyClass, journalKeyRe, hj, isManifestKey_manifestKey, hb, hc, hdrop]

/-- A key is the one its class says. -/
theorem key_of_keyClass {key : GoString} {c : KeyClass} (h : keyClass key = some c) :
    match c with
    | .journal => isJournalKey key = true
    | .blob sha => key = blobKey sha ∧ isBlobSHA sha = true
    | .chunk sha => key = chunkKey sha ∧ isBlobSHA sha = true
    | .manifest sha => key = manifestKey sha ∧ isBlobSHA sha = true := by
  unfold keyClass at h
  split_ifs at h with hj hm hb hc
  · cases h
    simp only [journalKeyRe, Bool.and_eq_true] at hj
    exact hj.1.1.1
  · cases h
    rw [Bool.and_eq_true, isManifestKey, hasPrefix_iff] at hm
    obtain ⟨⟨rest, rfl⟩, hsha⟩ := hm
    exact ⟨rfl, hsha⟩
  · cases h
    rw [Bool.and_eq_true, hasPrefix_iff] at hb
    obtain ⟨⟨rest, rfl⟩, hsha⟩ := hb
    exact ⟨rfl, hsha⟩
  · cases h
    rw [Bool.and_eq_true, hasPrefix_iff] at hc
    obtain ⟨⟨rest, rfl⟩, hsha⟩ := hc
    exact ⟨rfl, hsha⟩

/-- The prefix a key of a class is listed under. -/
def KeyClass.pre : KeyClass → GoString
  | .journal => ascii "journal/"
  | .blob _ => ascii "blobs/"
  | .chunk _ => ascii "chunks/"
  | .manifest _ => ascii "manifests/"

/-- A key is listed under the prefix of its class alone. -/
theorem hasPrefix_iff_pre {key pre : GoString} {c : KeyClass} (h : keyClass key = some c)
    (hpre : pre ∈ exportPrefixes) : hasPrefix key pre = true ↔ pre = c.pre := by
  have hown : c.pre <+: key := by
    have hkey := key_of_keyClass h
    cases c with
    | journal => exact hasPrefix_iff.mp hkey
    | blob sha => exact ⟨sha, hkey.1.symm⟩
    | chunk sha => exact ⟨sha, hkey.1.symm⟩
    | manifest sha => exact ⟨sha, hkey.1.symm⟩
  have hmem : c.pre ∈ exportPrefixes := by cases c <;> simp [KeyClass.pre, exportPrefixes]
  have hapart : ∀ p ∈ exportPrefixes, ∀ q ∈ exportPrefixes, p <+: q → p = q := by decide
  constructor
  · intro hp
    rcases List.prefix_or_prefix_of_prefix (hasPrefix_iff.mp hp) hown with hle | hle
    · exact hapart pre hpre c.pre hmem hle
    · exact (hapart c.pre hmem pre hpre hle).symm
  · rintro rfl
    exact hasPrefix_iff.mpr hown

/-! ### What an import does -/

/-- A member that counts, and its class. -/
def Member.Is (m : Member) (c : KeyClass) : Prop := m.skipped = false ∧ keyClass m.name = some c

/-- A member the import takes: it is of the layout, not too large, and content hashes to its
name. -/
def Member.Fine (env : StoreEnv) (maxBlob : ℕ) (m : Member) : Prop :=
  m.skipped = true ∨ ∃ c, keyClass m.name = some c ∧ m.body.length ≤ maxBlob ∧
    ∀ sha, c = .blob sha ∨ c = .chunk sha → env.sum m.body = sha

/-- What the last member of a name holds. -/
def lastBody : List Member → GoString → Option GoString
  | [], _ => none
  | m :: members, key =>
    (lastBody members key).or (if m.skipped = false ∧ m.name = key then some m.body else none)

/-- What an import of some members adds to what it has. -/
structure Imported (env : StoreEnv) (maxBlob : ℕ) (s s' : Importing) (members : List Member) :
    Prop where
  fine : ∀ m ∈ members, m.Fine env maxBlob
  target : ∀ key, s'.target.lookup key = (lastBody members key).or (s.target.lookup key)
  content : ∀ sha, sha ∈ s'.content ↔
    sha ∈ s.content ∨ ∃ m ∈ members, m.Is (.blob sha) ∨ m.Is (.manifest sha)
  chunks : ∀ sha, sha ∈ s'.chunks ↔ sha ∈ s.chunks ∨ ∃ m ∈ members, m.Is (.chunk sha)
  referenced : ∀ r, r ∈ s'.referenced ↔
    r ∈ s.referenced ∨ ∃ m ∈ members, m.Is .journal ∧ r ∈ putBlobs m.body
  manChunks : ∀ sha h, (sha, h) ∈ s'.manChunks ↔
    (sha, h) ∈ s.manChunks ∨
      ∃ m ∈ members, m.Is (.manifest sha) ∧ h ∈ (env.chunksOf m.body).getD []
  journals : s'.journals = 0 ↔ s.journals = 0 ∧ ∀ m ∈ members, ¬ m.Is .journal

section

variable {env : StoreEnv} {maxBlob : ℕ} {s s' s'' : Importing} {m : Member} {members : List Member}

theorem Imported.nil : Imported env maxBlob s s [] where
  fine := by simp
  target _ := rfl
  content := by simp
  chunks := by simp
  referenced := by simp
  manChunks := by simp
  journals := by simp

theorem Imported.cons (h : Imported env maxBlob s s' [m])
    (h' : Imported env maxBlob s' s'' members) : Imported env maxBlob s s'' (m :: members) where
  fine := List.forall_mem_cons.mpr ⟨h.fine m List.mem_cons_self, h'.fine⟩
  target key := by
    rw [h'.target, h.target, lastBody, lastBody, lastBody, Option.none_or, Option.or_assoc]
  content sha := by rw [h'.content, h.content]; simp [or_assoc]
  chunks sha := by rw [h'.chunks, h.chunks]; simp [or_assoc]
  referenced r := by rw [h'.referenced, h.referenced]; simp [or_assoc]
  manChunks sha h₁ := by rw [h'.manChunks, h.manChunks]; simp [or_assoc]
  journals := by rw [h'.journals, h.journals]; simp [and_assoc]

theorem lookup_insert_or {t : AList fun _ : GoString => GoString} (key name body : GoString) :
    (t.insert name body).lookup key = (if name = key then some body else none).or (t.lookup key) := by
  by_cases h : name = key
  · subst h
    simp [AList.lookup_insert]
  · simp [h, AList.lookup_insert_ne (Ne.symm h)]

theorem Member.is_iff {c c' : KeyClass} (hskip : m.skipped = false)
    (hclass : keyClass m.name = some c) : m.Is c' ↔ c' = c := by
  simp [Member.Is, hskip, hclass, eq_comm]

theorem imported_one (h : importMember env maxBlob s m = .ok s') :
    Imported env maxBlob s s' [m] := by
  unfold importMember at h
  cases hskip : m.skipped
  · rw [hskip, if_neg (by simp)] at h
    have htarget (key : GoString) : (s.target.insert m.name m.body).lookup key =
        (lastBody [m] key).or (s.target.lookup key) := by
      rw [lookup_insert_or]
      simp [lastBody, hskip]
    cases hclass : keyClass m.name with
    | none => simp [hclass] at h
    | some c =>
      have his : ∀ c', m.Is c' ↔ c' = c := fun c' => Member.is_iff hskip hclass
      have hfine (hle : m.body.length ≤ maxBlob)
          (hsum : ∀ sha, c = .blob sha ∨ c = .chunk sha → env.sum m.body = sha) :
          ∀ m' ∈ [m], m'.Fine env maxBlob :=
        List.forall_mem_singleton.mpr (.inr ⟨c, hclass, hle, hsum⟩)
      cases c with
      | journal =>
        simp only [hclass] at h
        split_ifs at h with hlarge
        cases h
        refine ⟨hfine (by omega) (by simp), htarget, ?_, ?_, ?_, ?_, ?_⟩
        all_goals simp [his]
      | manifest sha =>
        simp only [hclass] at h
        split_ifs at h with hlarge
        cases h
        refine ⟨hfine (by omega) (by simp), htarget, ?_, ?_, ?_, fun sha' h => ?_, ?_⟩
        case refine_4 =>
          simp only [List.mem_append, List.mem_map, Prod.mk.injEq, List.mem_singleton, his,
            KeyClass.manifest.injEq, exists_eq_left]
          refine or_congr_right ⟨?_, ?_⟩
          · rintro ⟨h', hh, rfl, rfl⟩
            exact ⟨rfl, hh⟩
          · rintro ⟨rfl, hh⟩
            exact ⟨h, hh, rfl, rfl⟩
        all_goals simp [his]
      | blob sha =>
        simp only [hclass] at h
        split_ifs at h with hlarge hsum
        cases h
        rw [not_not] at hsum
        refine ⟨hfine (by omega) (by simp [hsum]), htarget, ?_, ?_, ?_, ?_, ?_⟩
        all_goals simp [his]
      | chunk sha =>
        simp only [hclass] at h
        split_ifs at h with hlarge hsum
        cases h
        rw [not_not] at hsum
        refine ⟨hfine (by omega) (by simp [hsum]), htarget, ?_, ?_, ?_, ?_, ?_⟩
        all_goals simp [his]
  · rw [hskip, if_pos rfl, Except.ok.injEq] at h
    subst h
    refine ⟨List.forall_mem_singleton.mpr (.inl hskip), fun key => ?_, ?_, ?_, ?_, ?_, ?_⟩
    · simp [lastBody, hskip]
    all_goals simp [Member.Is, hskip]

theorem imported_of_importMembers (h : importMembers env maxBlob s members = .ok s') :
    Imported env maxBlob s s' members := by
  induction members generalizing s with
  | nil =>
    cases h
    exact .nil
  | cons m members ih =>
    rw [importMembers] at h
    cases hm : importMember env maxBlob s m with
    | error e => simp [hm] at h
    | ok s₁ =>
      simp only [hm] at h
      exact (imported_one hm).cons (ih h)

theorem importMember_ok (s : Importing) (h : m.Fine env maxBlob) :
    ∃ s', importMember env maxBlob s m = .ok s' := by
  unfold importMember
  by_cases hskip : m.skipped = true
  · exact ⟨s, if_pos hskip⟩
  obtain ⟨c, hclass, hle, hsum⟩ := h.resolve_left hskip
  rw [if_neg hskip]
  have hsmall : ¬ maxBlob < m.body.length := by omega
  cases c with
  | journal => simp [hclass, hsmall]
  | manifest sha => simp [hclass, hsmall]
  | blob sha => simp [hclass, hsmall, hsum sha (.inl rfl)]
  | chunk sha => simp [hclass, hsmall, hsum sha (.inr rfl)]

/-- An import gets through members that are fine. -/
theorem importMembers_ok (s : Importing) (h : ∀ m ∈ members, m.Fine env maxBlob) :
    ∃ s', importMembers env maxBlob s members = .ok s' := by
  induction members generalizing s with
  | nil => exact ⟨s, rfl⟩
  | cons m members ih =>
    obtain ⟨hm, hmembers⟩ := List.forall_mem_cons.mp h
    obtain ⟨s₁, hs₁⟩ := importMember_ok s hm
    obtain ⟨s', hs'⟩ := ih s₁ hmembers
    exact ⟨s', by rw [importMembers, hs₁]; exact hs'⟩

theorem exists_of_lastBody {key body : GoString} (h : lastBody members key = some body) :
    ∃ m ∈ members, m.skipped = false ∧ m.name = key ∧ m.body = body := by
  induction members with
  | nil => cases h
  | cons m members ih =>
    rw [lastBody] at h
    rcases Option.or_eq_some_iff.mp h with h | ⟨-, h⟩
    · obtain ⟨m', hm', hfound⟩ := ih h
      exact ⟨m', List.mem_cons_of_mem _ hm', hfound⟩
    · split_ifs at h with hm
      cases h
      exact ⟨m, List.mem_cons_self, hm.1, hm.2, rfl⟩

theorem lastBody_isSome (hm : m ∈ members) (hskip : m.skipped = false) :
    (lastBody members m.name).isSome := by
  induction members with
  | nil => cases hm
  | cons m' members ih =>
    rw [lastBody, Option.isSome_or, Bool.or_eq_true]
    rcases List.mem_cons.mp hm with rfl | hm
    · exact .inr (by simp [hskip])
    · exact .inl (ih hm)

/-- Where names are not repeated, every member is the last of its name. -/
theorem lastBody_of_nodup (h : (members.map (·.name)).Nodup) (hm : m ∈ members)
    (hskip : m.skipped = false) : lastBody members m.name = some m.body := by
  obtain ⟨body, hbody⟩ := Option.isSome_iff_exists.mp (lastBody_isSome hm hskip)
  obtain ⟨m', hm', -, hname, rfl⟩ := exists_of_lastBody hbody
  rw [hbody, List.inj_on_of_nodup_map h hm' hm hname]

end

/-! ### What a taken archive leaves -/

section

variable {env : StoreEnv} {maxBlob : ℕ} {members : List Member}
  {target : AList fun _ : GoString => GoString}

/-- A file can be read: its blob is there and hashes to its name, or a manifest that decodes and
every chunk it names. -/
def WholeFile (env : StoreEnv) (target : AList fun _ : GoString => GoString) (sha : GoString) :
    Prop :=
  (∃ b, target.lookup (blobKey sha) = some b ∧ env.sum b = sha) ∨
    ∃ b names, target.lookup (manifestKey sha) = some b ∧ env.chunksOf b = some names ∧
      ∀ h ∈ names, (target.lookup (chunkKey h)).isSome

/-- Every file an imported journal puts can be read. -/
def WholeMembers (env : StoreEnv) (members : List Member)
    (target : AList fun _ : GoString => GoString) : Prop :=
  ∀ m ∈ members, m.Is .journal → ∀ r ∈ putBlobs m.body, WholeFile env target r.1

/-- Every file an imported journal puts has a blob in the archive, or the last manifest under its
name decodes. -/
def ManifestsDecode (env : StoreEnv) (members : List Member) : Prop :=
  ∀ m ∈ members, m.Is .journal → ∀ r ∈ putBlobs m.body,
    (lastBody members (blobKey r.1)).isSome ∨
      ((lastBody members (manifestKey r.1)).bind env.chunksOf).isSome

theorem importStore_eq_ok : importStore env maxBlob false members = .ok target ↔
    ∃ s, importMembers env maxBlob {} members = .ok s ∧ s.journals ≠ 0 ∧
      (∀ c ∈ s.manChunks, c.2 ∈ s.chunks) ∧ (∀ r ∈ s.referenced, r.1 ∈ s.content) ∧
      s.target = target := by
  unfold importStore
  cases hs : importMembers env maxBlob {} members with
  | error e => simp
  | ok s =>
    by_cases hj : s.journals = 0
    · simp [hj]
    simp only [hj, Bool.false_eq_true, if_false, Except.ok.injEq, exists_eq_left', ne_eq,
      not_false_eq_true, true_and]
    cases hchunk : s.manChunks.find? fun c => !s.chunks.contains c.2 with
    | some c =>
      have hmem := List.mem_of_find?_eq_some hchunk
      have hmiss := List.find?_some hchunk
      simp only [Bool.not_eq_true', List.contains_eq_mem, decide_eq_false_iff_not] at hmiss
      exact iff_of_false (by simp) fun h => hmiss (h.1 c hmem)
    | none =>
      have hall : ∀ c ∈ s.manChunks, c.2 ∈ s.chunks := by
        simpa using List.find?_eq_none.mp hchunk
      rw [and_iff_right hall]
      cases href : s.referenced.find? fun r => !s.content.contains r.1 with
      | some r =>
        have hmem := List.mem_of_find?_eq_some href
        have hmiss := List.find?_some href
        simp only [Bool.not_eq_true', List.contains_eq_mem, decide_eq_false_iff_not] at hmiss
        exact iff_of_false (by simp) fun h => hmiss (h.1 r hmem)
      | none =>
        have hcontent : ∀ r ∈ s.referenced, r.1 ∈ s.content := fun r hr => by
          simpa using List.find?_eq_none.mp href r hr
        rw [and_iff_right hcontent]
        simp

/-- A key of a class that members are imported under is of that class. -/
theorem Member.Fine.keyClass {m : Member} (h : m.Fine env maxBlob) (hskip : m.skipped = false) :
    ∃ c, keyClass m.name = some c ∧
      ∀ sha, c = .blob sha ∨ c = .chunk sha → env.sum m.body = sha := by
  rcases h with h | ⟨c, hc, -, hsum⟩
  · rw [hskip] at h
    cases h
  · exact ⟨c, hc, hsum⟩

/-- **A taken archive is whole exactly when the manifests that count decode.** -/
theorem wholeMembers_iff (h : importStore env maxBlob false members = .ok target) :
    WholeMembers env members target ↔ ManifestsDecode env members := by
  obtain ⟨s, hs, -, hchunks, -, rfl⟩ := importStore_eq_ok.mp h
  have himp := imported_of_importMembers hs
  have hlookup : ∀ key, s.target.lookup key = lastBody members key := fun key => by
    rw [himp.target key]
    exact Option.or_none
  refine forall₂_congr fun m hm => forall₂_congr fun hj r => forall_congr' fun hr => ?_
  simp only [WholeFile, hlookup]
  constructor
  · rintro (⟨b, hb, -⟩ | ⟨b, names, hb, hnames, -⟩)
    · exact .inl (by rw [hb]; rfl)
    · exact .inr (by rw [hb, Option.bind_some, hnames]; rfl)
  · rintro (hblob | hman)
    · obtain ⟨b, hb⟩ := Option.isSome_iff_exists.mp hblob
      obtain ⟨m', hm', hskip, hname, rfl⟩ := exists_of_lastBody hb
      obtain ⟨c, hc, hsum⟩ := (himp.fine m' hm').keyClass hskip
      rw [hname, keyClass_blobKey] at hc
      split_ifs at hc
      cases hc
      exact .inl ⟨m'.body, hb, hsum _ (.inl rfl)⟩
    · obtain ⟨names, hnames⟩ := Option.isSome_iff_exists.mp hman
      obtain ⟨b, hb, hnames⟩ := Option.bind_eq_some_iff.mp hnames
      obtain ⟨m', hm', hskip, hname, rfl⟩ := exists_of_lastBody hb
      obtain ⟨c, hc, -⟩ := (himp.fine m' hm').keyClass hskip
      have hclass := hc
      rw [hname, keyClass_manifestKey] at hc
      split_ifs at hc
      cases hc
      refine .inr ⟨m'.body, names, hb, hnames, fun hash hhash => ?_⟩
      have hmem := (himp.manChunks r.1 hash).mpr (.inr ⟨m', hm', ⟨hskip, hclass⟩, by
        rw [hnames]
        exact hhash⟩)
      rcases (himp.chunks hash).mp (hchunks _ hmem) with hnone | ⟨m'', hm'', hskip', hc'⟩
      · cases hnone
      · rw [← (key_of_keyClass hc').1]
        exact lastBody_isSome hm'' hskip'

/-- An archive without holes is taken, and its members are what the target holds. -/
theorem importStore_of_complete (hfine : ∀ m ∈ members, m.Fine env maxBlob)
    (hjournal : ∃ m ∈ members, m.Is .journal)
    (hrefs : ∀ m ∈ members, m.Is .journal → ∀ r ∈ putBlobs m.body,
      ∃ m' ∈ members, m'.Is (.blob r.1) ∨ m'.Is (.manifest r.1))
    (hman : ∀ m ∈ members, ∀ sha, m.Is (.manifest sha) → ∀ h ∈ (env.chunksOf m.body).getD [],
      ∃ m' ∈ members, m'.Is (.chunk h)) :
    ∃ target, importStore env maxBlob false members = .ok target ∧
      ∀ key, target.lookup key = lastBody members key := by
  obtain ⟨s, hs⟩ := importMembers_ok {} hfine
  have himp := imported_of_importMembers hs
  refine ⟨s.target, importStore_eq_ok.mpr ⟨s, hs, fun hzero => ?_, fun c hc => ?_, fun r hr => ?_,
    rfl⟩, fun key => (himp.target key).trans Option.or_none⟩
  · obtain ⟨m, hm, hj⟩ := hjournal
    exact (himp.journals.mp hzero).2 m hm hj
  · obtain ⟨sha, hash⟩ := c
    rcases (himp.manChunks sha hash).mp hc with hnone | ⟨m, hm, hsha, hhash⟩
    · cases hnone
    · exact (himp.chunks hash).mpr (.inr (hman m hm sha hsha hash hhash))
  · rcases (himp.referenced r).mp hr with hnone | ⟨m, hm, hj, hr⟩
    · cases hnone
    · exact (himp.content r.1).mpr (.inr (hrefs m hm hj r hr))

end

/-! ### The export over a store that grows -/

/-- What devices have uploaded: content under its own hash, and journals after what they name. -/
structure Uploads (env : StoreEnv) (store : AList fun _ : GoString => GoString) : Prop where
  blob : ∀ sha b, store.lookup (blobKey sha) = some b → isBlobSHA sha = true ∧ env.sum b = sha
  chunk : ∀ sha b, store.lookup (chunkKey sha) = some b → isBlobSHA sha = true ∧ env.sum b = sha
  manifest : ∀ sha b, store.lookup (manifestKey sha) = some b → isBlobSHA sha = true
  journal : ∀ key b, isJournalKey key = true → store.lookup key = some b → ∀ r ∈ putBlobs b,
    (store.lookup (blobKey r.1)).isSome ∨ (store.lookup (manifestKey r.1)).isSome

/-- What an export has copied or is about to. -/
def Exporter.names (e : Exporter) : List GoString := e.archive.map (·.name) ++ e.queue.map (·.1)

/-- A key is in the archive, or in the queue, or it is stored and its prefix has still to be
listed. -/
def Exporter.Coming (e : Exporter) (store : AList fun _ : GoString => GoString)
    (pre key : GoString) : Prop :=
  (pre ∈ e.left ∧ (store.lookup key).isSome) ∨ key ∈ e.names

/-- What an export on its way keeps. -/
structure Exporting (env : StoreEnv) (maxBlob : ℕ)
    (store : AList fun _ : GoString => GoString) (e : Exporter) : Prop where
  suffix : e.left <:+ exportPrefixes
  nodup : e.names.Nodup
  listed : ∀ key ∈ e.names, ∃ c, keyClass key = some c ∧ c.pre ∉ e.left
  early : ∀ q ∈ e.queue, keyClass q.1 = some .journal → e.left = exportPrefixes.tail
  refs : ∀ m ∈ e.archive, keyClass m.name = some .journal → ∀ r ∈ putBlobs m.body,
    e.Coming store (ascii "blobs/") (blobKey r.1) ∨
      e.Coming store (ascii "manifests/") (manifestKey r.1)
  fine : ∀ m ∈ e.archive, m.skipped = false ∧ m.Fine env maxBlob
  manifests : ∀ m ∈ e.archive, ∀ sha, keyClass m.name = some (.manifest sha) →
    ∀ h ∈ (env.chunksOf m.body).getD [], ∃ m' ∈ e.archive, m'.name = chunkKey h
  journal : e.left ≠ exportPrefixes → ∃ key ∈ e.names, keyClass key = some .journal

section

variable {env : StoreEnv} {maxBlob : ℕ} {store store' : AList fun _ : GoString => GoString}
  {e : Exporter}

theorem blobKey_injective : Function.Injective blobKey := fun _ _ h => List.append_cancel_left h

theorem chunkKey_injective : Function.Injective chunkKey := fun _ _ h => List.append_cancel_left h

theorem manifestKey_injective : Function.Injective manifestKey := fun _ _ h =>
  List.append_cancel_left h

theorem ne_of_head_ne {a b : GoString} (h : a.head? ≠ b.head?) : a ≠ b := fun heq =>
  h (congrArg List.head? heq)

theorem isJournalKey_eq_false {pre : GoString} (x : GoString) (hpre : pre ≠ [])
    (h : pre.head? ≠ some 0x6A) : isJournalKey (pre ++ x) = false :=
  not_hasPrefix x hpre (by decide) h

/-- What is stored stays, whatever is written. -/
theorem isSome_insert {key k : GoString} (b : GoString) (h : (store.lookup key).isSome) :
    ((store.insert k b).lookup key).isSome := by
  rw [lookup_insert_or, Option.isSome_or, h, Bool.or_true]

theorem Uploads.insert {k body : GoString} (h : Uploads env store)
    (hblob : ∀ sha, k = blobKey sha → isBlobSHA sha = true ∧ env.sum body = sha)
    (hchunk : ∀ sha, k = chunkKey sha → isBlobSHA sha = true ∧ env.sum body = sha)
    (hman : ∀ sha, k = manifestKey sha → isBlobSHA sha = true)
    (hjournal : isJournalKey k = true → ∀ r ∈ putBlobs body,
      (store.lookup (blobKey r.1)).isSome ∨ (store.lookup (manifestKey r.1)).isSome) :
    Uploads env (store.insert k body) := by
  have hcases {key b : GoString} (hb : (store.insert k body).lookup key = some b) :
      (k = key ∧ b = body) ∨ store.lookup key = some b := by
    rw [lookup_insert_or] at hb
    rcases Option.or_eq_some_iff.mp hb with hb | ⟨-, hb⟩
    · split_ifs at hb with heq
      exact .inl ⟨heq, (Option.some.inj hb).symm⟩
    · exact .inr hb
  refine ⟨fun sha b hb => ?_, fun sha b hb => ?_, fun sha b hb => ?_, fun key b hkey hb r hr => ?_⟩
  · rcases hcases hb with ⟨hk, rfl⟩ | hb
    · exact hblob sha hk
    · exact h.blob sha b hb
  · rcases hcases hb with ⟨hk, rfl⟩ | hb
    · exact hchunk sha hk
    · exact h.chunk sha b hb
  · rcases hcases hb with ⟨hk, rfl⟩ | hb
    · exact hman sha hk
    · exact h.manifest sha b hb
  · have hsome : (store.lookup (blobKey r.1)).isSome ∨ (store.lookup (manifestKey r.1)).isSome := by
      rcases hcases hb with ⟨rfl, rfl⟩ | hb
      · exact hjournal hkey r hr
      · exact h.journal key b hkey hb r hr
    exact hsome.imp (isSome_insert _) (isSome_insert _)

theorem Exporting.insert {k : GoString} (h : Exporting env maxBlob store e) (body : GoString) :
    Exporting env maxBlob (store.insert k body) e := by
  refine { h with refs := fun m hm hj r hr => (h.refs m hm hj r hr).imp ?_ ?_ }
  · exact Or.imp_left fun hstored => ⟨hstored.1, isSome_insert _ hstored.2⟩
  · exact Or.imp_left fun hstored => ⟨hstored.1, isSome_insert _ hstored.2⟩

theorem exporting_start (store : AList fun _ : GoString => GoString) :
    Exporting env maxBlob store {} where
  suffix := List.suffix_refl _
  nodup := List.nodup_nil
  listed := by simp [Exporter.names]
  early := by simp
  refs := by simp
  fine := by simp
  manifests := by simp
  journal h := absurd rfl h

end

/-! ### The steps of an export -/

section

variable {env : StoreEnv} {maxBlob : ℕ} {s : Migration} {e : Exporter}

theorem mem_listing {pre key : GoString} :
    key ∈ s.listing pre ↔
      (s.store.lookup key).isSome ∧ hasPrefix key pre = true ∧ (keyClass key).isSome := by
  rw [Migration.listing, List.mem_filter, ← AList.mem_keys, Bool.and_eq_true, AList.lookup_isSome]

/-- What follows a prefix of an export. -/
theorem Exporting.prefixes {pre : GoString} {left : List GoString}
    (h : Exporting env maxBlob s.store e) (hleft : e.left = pre :: left) :
    pre ∈ exportPrefixes ∧ pre ∉ left ∧
      (pre = ascii "journal/" → e.left = exportPrefixes ∧ left = exportPrefixes.tail) := by
  have hsuffix : pre :: left <:+ exportPrefixes := hleft ▸ h.suffix
  have hall : ∀ l ∈ exportPrefixes.tails, l.head? = some (ascii "journal/") →
      l = exportPrefixes := by decide
  refine ⟨hsuffix.subset List.mem_cons_self, ?_, fun hj => ?_⟩
  · have hnodup : exportPrefixes.Nodup := by decide
    exact (List.nodup_cons.mp (hnodup.sublist hsuffix.sublist)).1
  · have hwhole := hall _ ((List.mem_tails _ _).mpr hsuffix) (by rw [hj]; rfl)
    exact ⟨hleft.trans hwhole, by rw [← hwhole]; rfl⟩

/-- A key that was coming is so after the next listing, which has it if it is stored. -/
theorem Exporter.Coming.list {pre p key : GoString} {left keys : List GoString} {c : KeyClass}
    (h : e.Coming s.store p key) (hqueue : e.queue = []) (hleft : e.left = pre :: left)
    (hkeys : keys.Perm (s.listing pre)) (sizes : GoString → ℕ)
    (hclass : (s.store.lookup key).isSome → keyClass key = some c) (hp : c.pre = p) :
    { e with left, queue := keys.map fun key => (key, sizes key) : Exporter }.Coming s.store p
      key := by
  subst hp
  rcases h with ⟨hmem, hstored⟩ | hname
  · rw [hleft] at hmem
    rcases List.mem_cons.mp hmem with hpre | hmem
    · have hc := hclass hstored
      have hpre' : c.pre ∈ exportPrefixes := by cases c <;> simp [KeyClass.pre, exportPrefixes]
      have hlisted : key ∈ s.listing pre := mem_listing.mpr
        ⟨hstored, hpre ▸ (hasPrefix_iff_pre hc hpre').mpr rfl, by rw [hc]; rfl⟩
      refine .inr (List.mem_append_right _ ?_)
      rw [List.map_map]
      exact List.mem_map.mpr ⟨key, hkeys.mem_iff.mpr hlisted, rfl⟩
    · exact .inl ⟨hmem, hstored⟩
  · rw [Exporter.names, hqueue, List.map_nil, List.append_nil] at hname
    exact .inr (List.mem_append_left _ hname)

/-- The next prefix is listed. -/
theorem Exporting.list {pre : GoString} {left keys : List GoString}
    (h : Exporting env maxBlob s.store e) (hup : Uploads env s.store) (hqueue : e.queue = [])
    (hleft : e.left = pre :: left) (hkeys : keys.Perm (s.listing pre)) (sizes : GoString → ℕ)
    (hfirst : e.left = exportPrefixes → s.listing (ascii "journal/") ≠ []) :
    Exporting env maxBlob s.store
      { e with left, queue := keys.map fun key => (key, sizes key) } := by
  obtain ⟨hpre, hnew, hjournal⟩ := h.prefixes hleft
  have hnames : e.names = e.archive.map (·.name) := by
    rw [Exporter.names, hqueue, List.map_nil, List.append_nil]
  have hnames' : { e with left, queue := keys.map fun key => (key, sizes key) : Exporter }.names =
      e.archive.map (·.name) ++ keys := by
    simp [Exporter.names, Function.comp_def]
  have hclass : ∀ key ∈ keys, ∃ c, keyClass key = some c ∧ c.pre = pre := fun key hkey => by
    obtain ⟨-, hhas, hsome⟩ := mem_listing.mp (hkeys.mem_iff.mp hkey)
    obtain ⟨c, hc⟩ := Option.isSome_iff_exists.mp hsome
    exact ⟨c, hc, ((hasPrefix_iff_pre hc hpre).mp hhas).symm⟩
  refine ⟨(List.suffix_cons pre left).trans (hleft ▸ h.suffix), ?_, fun key hkey => ?_,
    fun q hq hj => ?_, fun m hm hj r hr => ?_, h.fine, h.manifests, fun _ => ?_⟩
  · rw [hnames', List.nodup_append']
    refine ⟨hnames ▸ h.nodup, hkeys.nodup_iff.mpr ((AList.keys_nodup _).filter _),
      fun key harch hkey => ?_⟩
    obtain ⟨c, hc, hleft'⟩ := h.listed key (hnames ▸ harch)
    obtain ⟨c', hc', hpre'⟩ := hclass key hkey
    obtain rfl : c = c' := Option.some.inj (hc.symm.trans hc')
    exact hleft' (by rw [hleft, hpre']; exact List.mem_cons_self)
  · rw [hnames', List.mem_append] at hkey
    rcases hkey with harch | hkey
    · obtain ⟨c, hc, hleft'⟩ := h.listed key (hnames ▸ harch)
      exact ⟨c, hc, fun hmem => hleft' (by rw [hleft]; exact List.mem_cons_of_mem _ hmem)⟩
    · obtain ⟨c, hc, hpre'⟩ := hclass key hkey
      exact ⟨c, hc, hpre'.symm ▸ hnew⟩
  · obtain ⟨key, hkey, rfl⟩ := List.mem_map.mp hq
    obtain ⟨c, hc, hpre'⟩ := hclass key hkey
    obtain rfl : c = .journal := Option.some.inj (hc.symm.trans hj)
    exact (hjournal hpre'.symm).2
  · refine (h.refs m hm hj r hr).imp (fun hcoming => ?_) (fun hcoming => ?_)
    · refine hcoming.list (c := .blob r.1) hqueue hleft hkeys sizes (fun hsome => ?_) rfl
      obtain ⟨b, hb⟩ := Option.isSome_iff_exists.mp hsome
      rw [keyClass_blobKey, if_pos (hup.blob r.1 b hb).1]
    · refine hcoming.list (c := .manifest r.1) hqueue hleft hkeys sizes (fun hsome => ?_) rfl
      obtain ⟨b, hb⟩ := Option.isSome_iff_exists.mp hsome
      rw [keyClass_manifestKey, if_pos (hup.manifest r.1 b hb)]
  · rw [hnames']
    by_cases hstart : e.left = exportPrefixes
    · obtain ⟨key, hkey⟩ := List.exists_mem_of_ne_nil _ (hfirst hstart)
      have hpre' : pre = ascii "journal/" := by
        have hhead := congrArg List.head? (hleft.symm.trans hstart)
        exact Option.some.inj hhead
      subst hpre'
      obtain ⟨c, hc, hcpre⟩ := hclass key (hkeys.mem_iff.mpr hkey)
      have hj : c = .journal := by
        cases c with
        | journal => rfl
        | blob sha => exact absurd hcpre (by decide : ascii "blobs/" ≠ ascii "journal/")
        | chunk sha => exact absurd hcpre (by decide : ascii "chunks/" ≠ ascii "journal/")
        | manifest sha => exact absurd hcpre (by decide : ascii "manifests/" ≠ ascii "journal/")
      exact ⟨key, List.mem_append_right _ (hkeys.mem_iff.mpr hkey), hj ▸ hc⟩
    · obtain ⟨key, hkey, hj⟩ := h.journal hstart
      exact ⟨key, List.mem_append_left _ (hnames ▸ hkey), hj⟩

/-- The next object is copied. -/
theorem Exporting.get {key body : GoString} {size : ℕ} {queue : List (GoString × ℕ)}
    (h : Exporting env maxBlob s.store e) (hup : Uploads env s.store)
    (hqueue : e.queue = (key, size) :: queue) (hbody : s.store.lookup key = some body)
    (hle : body.length ≤ maxBlob)
    (hchunks : isManifestKey key = true → ∀ h ∈ (env.chunksOf body).getD [],
      ∃ m ∈ e.archive, m.name = chunkKey h) :
    Exporting env maxBlob s.store
      { e with queue, archive := e.archive ++ [{ name := key, body }] } := by
  have hnames : { e with queue, archive := e.archive ++ [{ name := key, body }] : Exporter }.names =
      e.names := by
    simp [Exporter.names, hqueue]
  obtain ⟨c, hc, -⟩ := h.listed key (by simp [Exporter.names, hqueue])
  have hcoming {p k : GoString} (hk : e.Coming s.store p k) :
      { e with queue, archive := e.archive ++ [{ name := key, body }] : Exporter }.Coming s.store
        p k := by
    rw [Exporter.Coming, hnames]
    exact hk
  refine ⟨h.suffix, hnames ▸ h.nodup, hnames ▸ h.listed, fun q hq => ?_, fun m hm hj r hr => ?_,
    fun m hm => ?_, fun m hm sha hsha hash hhash => ?_, hnames ▸ h.journal⟩
  · exact h.early q (hqueue ▸ List.mem_cons_of_mem _ hq)
  · rcases List.mem_append.mp hm with hm | hm
    · exact (h.refs m hm hj r hr).imp hcoming hcoming
    · obtain rfl := List.mem_singleton.mp hm
      have hleft := h.early (key, size) (hqueue ▸ List.mem_cons_self) hj
      have hstored := hup.journal key body (key_of_keyClass hj) hbody r hr
      refine hstored.imp (fun hsome => .inl ⟨?_, hsome⟩) (fun hsome => .inl ⟨?_, hsome⟩)
      · simp [hleft, exportPrefixes]
      · simp [hleft, exportPrefixes]
  · rcases List.mem_append.mp hm with hm | hm
    · exact h.fine m hm
    · obtain rfl := List.mem_singleton.mp hm
      have hne : key ≠ exportManifestName := by
        rintro rfl
        exact absurd hc (by rw [show keyClass exportManifestName = none by decide]; simp)
      refine ⟨by simp [Member.skipped, hne], .inr ⟨c, hc, hle, fun sha hsha => ?_⟩⟩
      rcases hsha with rfl | rfl
      · obtain ⟨hkey, -⟩ := key_of_keyClass hc
        exact (hup.blob sha body (hkey ▸ hbody)).2
      · obtain ⟨hkey, -⟩ := key_of_keyClass hc
        exact (hup.chunk sha body (hkey ▸ hbody)).2
  · rcases List.mem_append.mp hm with hm | hm
    · obtain ⟨m', hm', hname⟩ := h.manifests m hm sha hsha hash hhash
      exact ⟨m', List.mem_append_left _ hm', hname⟩
    · obtain rfl := List.mem_singleton.mp hm
      have hman : isManifestKey key = true := by
        have hkey : key = manifestKey sha := (key_of_keyClass hsha).1
        exact hkey ▸ isManifestKey_manifestKey sha
      obtain ⟨m', hm', hname⟩ := hchunks hman hash hhash
      exact ⟨m', List.mem_append_left _ hm', hname⟩

end

/-! ### Runs -/

/-- The journals are not listed before there is one. What is copied is no larger than an import
spools, and a manifest names only chunks the archive has already. -/
def Migration.Careful (env : StoreEnv) (maxBlob : ℕ) (s : Migration) : MigrateEvent → Prop
  | .list _ => ∀ e ∈ s.exporter, e.left = exportPrefixes → s.listing (ascii "journal/") ≠ []
  | .get => ∀ e ∈ s.exporter, ∀ q ∈ e.queue.head?, ∀ body ∈ s.store.lookup q.1,
      body.length ≤ maxBlob ∧ (isManifestKey q.1 = true →
        ∀ h ∈ (env.chunksOf body).getD [], ∃ m ∈ e.archive, m.name = chunkKey h)
  | _ => True

instance (env : StoreEnv) (maxBlob : ℕ) (s : Migration) :
    (ev : MigrateEvent) → Decidable (s.Careful env maxBlob ev)
  | .list _ => inferInstanceAs (Decidable (∀ e ∈ s.exporter, e.left = exportPrefixes →
      s.listing (ascii "journal/") ≠ []))
  | .get => inferInstanceAs (Decidable (∀ e ∈ s.exporter, ∀ q ∈ e.queue.head?,
      ∀ body ∈ s.store.lookup q.1, body.length ≤ maxBlob ∧ (isManifestKey q.1 = true →
        ∀ h ∈ (env.chunksOf body).getD [], ∃ m ∈ e.archive, m.name = chunkKey h)))
  | .blob _ => .isTrue trivial
  | .chunk _ => .isTrue trivial
  | .manifest _ _ => .isTrue trivial
  | .journal _ _ => .isTrue trivial
  | .start => .isTrue trivial

/-- A careful step. -/
def Migration.CarefulNext (env : StoreEnv) (maxBlob : ℕ) (s s' : Migration) : Prop :=
  ∃ ev, s.Careful env maxBlob ev ∧ s.step env ev = some s'

/-- A step. -/
def Migration.Next (env : StoreEnv) (s s' : Migration) : Prop := ∃ ev, s.step env ev = some s'

/-- What holds of the store, and of an export on its way. -/
def Migration.Sound (env : StoreEnv) (maxBlob : ℕ) (s : Migration) : Prop :=
  Uploads env s.store ∧ ∀ e, s.exporter = some e → Exporting env maxBlob s.store e

section

variable {env : StoreEnv} {maxBlob : ℕ} {s s' : Migration} {members : List Member}

/-- What a device uploads keeps both. -/
theorem Migration.Sound.push {k body : GoString} (h : s.Sound env maxBlob)
    (hblob : ∀ sha, k = blobKey sha → isBlobSHA sha = true ∧ env.sum body = sha)
    (hchunk : ∀ sha, k = chunkKey sha → isBlobSHA sha = true ∧ env.sum body = sha)
    (hman : ∀ sha, k = manifestKey sha → isBlobSHA sha = true)
    (hjournal : isJournalKey k = true → ∀ r ∈ putBlobs body,
      (s.store.lookup (blobKey r.1)).isSome ∨ (s.store.lookup (manifestKey r.1)).isSome) :
    ({ s with store := s.store.insert k body } : Migration).Sound env maxBlob :=
  ⟨h.1.insert hblob hchunk hman hjournal, fun e he => (h.2 e he).insert body⟩

theorem Migration.Sound.step {ev : MigrateEvent} (h : s.Sound env maxBlob)
    (careful : s.Careful env maxBlob ev) (hstep : s.step env ev = some s') :
    s'.Sound env maxBlob := by
  cases ev with
  | blob body =>
    simp only [Migration.step] at hstep
    split_ifs at hstep with hsha
    cases hstep
    refine h.push (fun sha hk => ?_) (fun sha hk => ?_) (fun sha hk => ?_) fun hj => ?_
    · obtain rfl := blobKey_injective hk
      exact ⟨hsha, rfl⟩
    · exact absurd hk (ne_of_head_ne (by simp [blobKey, chunkKey, ascii]))
    · exact absurd hk (ne_of_head_ne (by simp [blobKey, manifestKey, ascii]))
    · rw [blobKey, isJournalKey_eq_false _ (by decide) (by decide)] at hj
      cases hj
  | chunk body =>
    simp only [Migration.step] at hstep
    split_ifs at hstep with hsha
    cases hstep
    refine h.push (fun sha hk => ?_) (fun sha hk => ?_) (fun sha hk => ?_) fun hj => ?_
    · exact absurd hk (ne_of_head_ne (by simp [blobKey, chunkKey, ascii]))
    · obtain rfl := chunkKey_injective hk
      exact ⟨hsha, rfl⟩
    · exact absurd hk (ne_of_head_ne (by simp [chunkKey, manifestKey, ascii]))
    · rw [chunkKey, isJournalKey_eq_false _ (by decide) (by decide)] at hj
      cases hj
  | manifest sha body =>
    simp only [Migration.step] at hstep
    cases hnames : env.chunksOf body with
    | none => simp [hnames] at hstep
    | some names =>
      simp only [hnames] at hstep
      split_ifs at hstep with hcan
      cases hstep
      refine h.push (fun sha' hk => ?_) (fun sha' hk => ?_) (fun sha' hk => ?_) fun hj => ?_
      · exact absurd hk (ne_of_head_ne (by simp [blobKey, manifestKey, ascii]))
      · exact absurd hk (ne_of_head_ne (by simp [chunkKey, manifestKey, ascii]))
      · obtain rfl := manifestKey_injective hk
        exact (Bool.and_eq_true _ _ ▸ hcan).1
      · rw [manifestKey, isJournalKey_eq_false _ (by decide) (by decide)] at hj
        cases hj
  | journal key body =>
    simp only [Migration.step] at hstep
    split_ifs at hstep with hcan
    cases hstep
    rw [Bool.and_eq_true, List.all_eq_true] at hcan
    obtain ⟨hkey, hall⟩ := hcan
    have hapart {pre : GoString} (x : GoString) (hk : key = pre ++ x) (hpre : pre ≠ [])
        (hne : pre.head? ≠ some 0x6A) : False := by
      rw [hk, isJournalKey_eq_false x hpre hne] at hkey
      cases hkey
    refine h.push (fun sha hk => ?_) (fun sha hk => ?_) (fun sha hk => ?_) fun _ r hr => ?_
    · exact (hapart sha hk (by decide) (by decide)).elim
    · exact (hapart sha hk (by decide) (by decide)).elim
    · exact (hapart sha hk (by decide) (by decide)).elim
    · exact (Bool.or_eq_true _ _).mp (hall r hr)
  | start =>
    cases hstep
    refine ⟨h.1, fun e he => ?_⟩
    cases he
    exact exporting_start s.store
  | list keys =>
    simp only [Migration.step] at hstep
    cases hexp : s.exporter with
    | none => simp [hexp] at hstep
    | some e =>
      cases hqueue : e.queue with
      | cons q queue => simp [hexp, hqueue] at hstep
      | nil =>
        cases hleft : e.left with
        | nil => simp [hexp, hqueue, hleft] at hstep
        | cons pre left =>
          simp only [hexp, hqueue, hleft] at hstep
          split_ifs at hstep with hkeys
          cases hstep
          refine ⟨h.1, fun e' he' => ?_⟩
          cases he'
          exact (h.2 e hexp).list h.1 hqueue hleft (List.isPerm_iff.mp hkeys) _ (careful e hexp)
  | get =>
    simp only [Migration.step] at hstep
    cases hexp : s.exporter with
    | none => simp [hexp] at hstep
    | some e =>
      simp only [hexp] at hstep
      split_ifs at hstep with hempty
      cases hstep
      refine ⟨h.1, fun e' (he' : s.copy e = some e') => ?_⟩
      cases hqueue : e.queue with
      | nil => exact absurd hqueue hempty
      | cons q queue =>
        obtain ⟨key, size⟩ := q
        simp only [Migration.copy, hqueue] at he'
        cases hbody : s.store.lookup key with
        | none => simp [hbody] at he'
        | some body =>
          simp only [hbody] at he'
          split_ifs at he' with hsize
          cases he'
          obtain ⟨hle, hchunks⟩ := careful e hexp (key, size) (by rw [hqueue]; rfl) body hbody
          exact (h.2 e hexp).get h.1 hqueue hbody hle hchunks

theorem Migration.sound_init : ({} : Migration).Sound env maxBlob := by
  have hnone : ∀ key : GoString, (∅ : AList fun _ : GoString => GoString).lookup key = none :=
    AList.lookup_empty
  refine ⟨⟨?_, ?_, ?_, ?_⟩, nofun⟩
  all_goals simp [hnone]

/-- A finished export of a careful run is taken, and the journals the target has are its own. -/
theorem importStore_of_exported (h : s.Sound env maxBlob) (hdone : s.exported = some members) :
    ∃ target, importStore env maxBlob false members = .ok target ∧
      ∀ key body, keyClass key = some .journal →
        (target.lookup key = some body ↔ ({ name := key, body } : Member) ∈ members) := by
  obtain ⟨e, hexp, hdone⟩ := Option.bind_eq_some_iff.mp hdone
  split_ifs at hdone with hends
  cases hdone
  obtain ⟨hleft, hqueue⟩ := hends
  have hinv := h.2 e hexp
  have hnames : e.names = e.archive.map (·.name) := by
    rw [Exporter.names, hqueue, List.map_nil, List.append_nil]
  have hskip : ∀ m ∈ e.archive, m.skipped = false := fun m hm => (hinv.fine m hm).1
  have hmember {key : GoString} {c : KeyClass} (hkey : key ∈ e.names)
      (hc : keyClass key = some c) : ∃ m ∈ e.archive, m.Is c := by
    obtain ⟨m, hm, rfl⟩ := List.mem_map.mp (hnames ▸ hkey)
    exact ⟨m, hm, hskip m hm, hc⟩
  have hcame {p key : GoString} (hkey : e.Coming s.store p key) : key ∈ e.names :=
    hkey.resolve_left fun hstill => by rw [hleft] at hstill; exact absurd hstill.1 (by simp)
  have hsha {key : GoString} (hkey : key ∈ e.names) : ∃ c, keyClass key = some c :=
    (hinv.listed key hkey).imp fun _ => And.left
  have hjournal : ∃ m ∈ e.archive, m.Is .journal := by
    obtain ⟨key, hkey, hc⟩ := hinv.journal (by rw [hleft]; decide)
    exact hmember hkey hc
  have hrefs : ∀ m ∈ e.archive, m.Is .journal → ∀ r ∈ putBlobs m.body,
      ∃ m' ∈ e.archive, m'.Is (.blob r.1) ∨ m'.Is (.manifest r.1) := by
    intro m hm hj r hr
    rcases hinv.refs m hm hj.2 r hr with hcoming | hcoming
    · obtain ⟨c, hc⟩ := hsha (hcame hcoming)
      have hblob := hc
      rw [keyClass_blobKey] at hblob
      split_ifs at hblob
      cases hblob
      obtain ⟨m', hm', his⟩ := hmember (hcame hcoming) hc
      exact ⟨m', hm', .inl his⟩
    · obtain ⟨c, hc⟩ := hsha (hcame hcoming)
      have hman := hc
      rw [keyClass_manifestKey] at hman
      split_ifs at hman
      cases hman
      obtain ⟨m', hm', his⟩ := hmember (hcame hcoming) hc
      exact ⟨m', hm', .inr his⟩
  have hmanifests : ∀ m ∈ e.archive, ∀ sha, m.Is (.manifest sha) →
      ∀ h ∈ (env.chunksOf m.body).getD [], ∃ m' ∈ e.archive, m'.Is (.chunk h) := by
    intro m hm sha hsha' hash hhash
    obtain ⟨m', hm', hname⟩ := hinv.manifests m hm sha hsha'.2 hash hhash
    have hlisted : m'.name ∈ e.names := hnames ▸ List.mem_map_of_mem hm'
    obtain ⟨c, hc⟩ := hsha hlisted
    have hchunk := hc
    rw [hname, keyClass_chunkKey] at hchunk
    split_ifs at hchunk
    cases hchunk
    exact ⟨m', hm', hskip m' hm', hc⟩
  obtain ⟨target, htarget, hlookup⟩ :=
    importStore_of_complete (fun m hm => (hinv.fine m hm).2) hjournal hrefs hmanifests
  refine ⟨target, htarget, fun key body hkey => ?_⟩
  rw [hlookup]
  constructor
  · intro hbody
    obtain ⟨m, hm, hm', rfl, rfl⟩ := exists_of_lastBody hbody
    have hdir : m.dir = false := by
      rw [Member.skipped, Bool.or_eq_false_iff] at hm'
      exact hm'.2
    obtain ⟨name, dir, body⟩ := m
    obtain rfl : dir = false := hdir
    exact hm
  · intro hm
    exact lastBody_of_nodup (hnames ▸ hinv.nodup) hm (hskip _ hm)

end

/-- **An export can be imported.** Over careful steps a finished export is taken, and leaves its
own journals on the target; and an archive that is taken is whole exactly when the manifests that
count as content decode. -/
theorem export_can_be_imported (env : StoreEnv) (maxBlob : ℕ) :
    (∀ s : Migration, Relation.ReflTransGen (Migration.CarefulNext env maxBlob) {} s →
      ∀ members, s.exported = some members →
        ∃ target, importStore env maxBlob false members = .ok target ∧
          ∀ key body, keyClass key = some .journal →
            (target.lookup key = some body ↔ ({ name := key, body } : Member) ∈ members)) ∧
    ∀ members target, importStore env maxBlob false members = .ok target →
      (WholeMembers env members target ↔ ManifestsDecode env members) := by
  refine ⟨fun s h members hdone => ?_, fun members target => wholeMembers_iff⟩
  have hsound : s.Sound env maxBlob := Runs.invariant h
    (fun _ _ hs ⟨_, careful, hstep⟩ => hs.step careful hstep) Migration.sound_init
  exact importStore_of_exported hsound hdone

/-- The content hash of no bytes. -/
def emptySum : GoString :=
  ascii "e3b0c44298fc1c149afbf4c8996fb92427ae41e4649b934ca495991b7852b855"

/-- A manifest of one empty chunk, and a journal that puts an empty file. -/
def emptyManifest : GoString := ascii "\x7b\"chunks\":[\x7b\"h\":\"" ++ emptySum ++
  ascii "\",\"n\":0\x7d]\x7d"

def emptyFileJournal : GoString :=
  ascii "\x7b\"kind\":\"put\",\"path\":\"a\",\"blob\":\"" ++ emptySum ++ ascii "\"\x7d\n"

/-- No bytes are hashed here, and no other manifest is read. -/
def emptyFileEnv : StoreEnv where
  sum _ := emptySum
  chunksOf b := if b = emptyManifest then some [emptySum] else none

theorem putBlobs_emptyFileJournal : putBlobs emptyFileJournal = [(emptySum, ascii "a")] := by
  decide +kernel

/-- The empty file is pushed, and then exported. -/
def emptyFileExport : List MigrateEvent :=
  [.blob [], .journal (ascii "journal/a.jsonl") emptyFileJournal, .start,
    .list [ascii "journal/a.jsonl"], .get, .list [blobKey emptySum], .get, .list [], .list []]

/-- A manifest and its chunk come when the chunks have been listed. -/
def lateManifest : List MigrateEvent :=
  [.journal (ascii "journal/a.jsonl") [], .start, .list [ascii "journal/a.jsonl"], .get, .list [],
    .list [], .chunk [], .manifest emptySum emptyManifest, .list [manifestKey emptySum], .get]

/-- A step, if it is careful. -/
def Migration.carefulStep (env : StoreEnv) (maxBlob : ℕ) (s : Migration) (ev : MigrateEvent) :
    Option Migration :=
  if s.Careful env maxBlob ev then s.step env ev else none

theorem Migration.carefulStep_eq_some {env : StoreEnv} {maxBlob : ℕ} {s s' : Migration}
    {ev : MigrateEvent} (h : s.carefulStep env maxBlob ev = some s') :
    s.Careful env maxBlob ev ∧ s.step env ev = some s' := by
  unfold carefulStep at h
  split_ifs at h with hcareful
  exact ⟨hcareful, h⟩

/-- The exported empty file, and what is in the archive. -/
def emptyFileMembers : List Member :=
  [{ name := ascii "journal/a.jsonl", body := emptyFileJournal },
    { name := blobKey emptySum, body := [] }]

theorem empty_file_migrates : ∃ target, importStore emptyFileEnv 268435456 false emptyFileMembers =
      .ok target ∧
    target.lookup (ascii "journal/a.jsonl") = some emptyFileJournal ∧
    WholeMembers emptyFileEnv emptyFileMembers target := by
  obtain ⟨hexport, himport⟩ := export_can_be_imported emptyFileEnv 268435456
  have hrun : Relation.ReflTransGen (Migration.CarefulNext emptyFileEnv 268435456) {} _ :=
    Runs.of_events (fun _ ev _ hev => ⟨ev, Migration.carefulStep_eq_some hev⟩)
      (Runs.possible (o := emptyFileExport.foldlM
        (Migration.carefulStep emptyFileEnv 268435456) {}) (by decide +kernel))
  obtain ⟨target, htarget, hjournals⟩ := hexport _ hrun emptyFileMembers (by decide +kernel)
  refine ⟨target, htarget, (hjournals _ _ (by decide +kernel)).mpr (by decide +kernel), ?_⟩
  refine (himport _ target htarget).mpr fun m hm hj r hr => .inl ?_
  have hmem : m = ⟨ascii "journal/a.jsonl", false, emptyFileJournal⟩ := by
    rcases List.mem_cons.mp hm with hm | hm
    · exact hm
    · obtain rfl := List.mem_singleton.mp hm
      exact absurd hj.2 (by decide +kernel)
  subst hmem
  rw [putBlobs_emptyFileJournal, List.mem_singleton] at hr
  subst hr
  decide +kernel

theorem exists_ok {ε α : Type*} {r : Except ε α} (h : r.toOption.isSome = true) :
    ∃ a, r = .ok a := by
  cases r with
  | error e => cases h
  | ok a => exact ⟨a, rfl⟩

/-- The archive of the late manifest is refused, and an archive with a manifest that does not
decode is taken. -/
theorem export_not_imported :
    (¬ ∀ s : Migration, Relation.ReflTransGen (Migration.Next emptyFileEnv) {} s →
      ∀ members, s.exported = some members →
        ∃ target, importStore emptyFileEnv 268435456 false members = .ok target ∧
          ∀ key body, keyClass key = some .journal →
            (target.lookup key = some body ↔ ({ name := key, body } : Member) ∈ members)) ∧
    ¬ ∀ members target, importStore emptyFileEnv 268435456 false members = .ok target →
      WholeMembers emptyFileEnv members target := by
  refine ⟨fun h => ?_, fun h => ?_⟩
  · have hrun : Relation.ReflTransGen (Migration.Next emptyFileEnv) {} _ :=
      Runs.of_events (fun _ ev _ hev => ⟨ev, hev⟩) (Runs.possible
        (o := lateManifest.foldlM (Migration.step emptyFileEnv) {}) (by decide +kernel))
    obtain ⟨target, htarget, -⟩ := h _ hrun _ (Runs.possible (by decide +kernel))
    have hok := (congrArg (fun r => r.toOption.isSome) htarget).trans (Eq.refl true)
    exact absurd hok (by decide +kernel)
  · let journalMember : Member := ⟨ascii "journal/a.jsonl", false, emptyFileJournal⟩
    let members : List Member := [journalMember, ⟨manifestKey emptySum, false, ascii "\x7b"⟩]
    obtain ⟨target, htarget⟩ := exists_ok (r := importStore emptyFileEnv 268435456 false members)
      (by decide +kernel)
    have hdecode := (wholeMembers_iff htarget).mp (h members target htarget) journalMember
      List.mem_cons_self ⟨rfl, by decide +kernel⟩ (emptySum, ascii "a")
      (by rw [putBlobs_emptyFileJournal]; exact List.mem_cons_self)
    exact absurd hdecode (by decide +kernel)

end Beardrive
