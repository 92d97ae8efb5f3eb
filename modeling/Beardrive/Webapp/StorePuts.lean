import Beardrive.Lib.Runs
import Beardrive.Webapp.CommitBase
import Beardrive.Webapp.StorePut

/-!
# Concurrent pushes to the store

A PUT to the store looks at what is stored under its key, decides, and writes. A journal has to
keep the ops that are stored, and a manifest is written once, after the chunks it names. The look
and the write are two steps, and between them the hub holds no lock: what another request writes
under the same key in the meantime is not looked at again, and is replaced.

Nothing else undermines the two promises. Chunks never go away, so a manifest that was found whole
stays whole; and a body that carries what was stored carries what was stored before.

## Main definitions

* `PutRequest`, `PutStore` — a request on its way, and what is stored
* `PutStep` — one step of one request
* `Unpassed` — no other request wrote what the body lacks since the request looked

## Main results

* `put_keeps_iff` — when a write keeps what is stored
* `stored_kept` — if no request is passed, journals only grow and manifests stay
-/

namespace Beardrive

/-! ### The requests -/

/-- What the hub computes from the bytes of a body: the sha256 in hexadecimal, and the chunks a
manifest names, if it decodes. -/
structure StoreEnv where
  sum : GoString → GoString
  chunksOf : GoString → Option (List GoString)

/-- The key of a journal. -/
def isJournalKey (key : GoString) : Bool := hasPrefix key (ascii "journal/")

/-- The key of a manifest. -/
def isManifestKey (key : GoString) : Bool := hasPrefix key (ascii "manifests/")

/-- Where a chunk is stored. -/
def chunkKey (h : GoString) : GoString := ascii "chunks/" ++ h

/-- How far a request is: it looks whether its key is taken, or has found that it is; it looks for
the chunks that are left of those a manifest names; or it may write. -/
inductive PutStage where
  | checking
  | present
  | chunks (left : List GoString)
  | cleared
  deriving DecidableEq

/-- A PUT on its way, and what others have written under its key since it last looked there. -/
structure PutRequest where
  key : GoString
  body : GoString
  stage : PutStage
  missed : List GoString := []

/-- What the body alone decides: the name of content, the ops of a journal, and the chunks of a
manifest. -/
def StoreEnv.requestOf (env : StoreEnv) (key body : GoString) : Option PutRequest :=
  if hasPrefix key (ascii "blobs/") && key.drop 6 ≠ env.sum body then none
  else if hasPrefix key (ascii "chunks/") && key.drop 7 ≠ env.sum body then none
  else if isJournalKey key then
    (journalOps body).map fun _ => { key, body, stage := .checking }
  else if isManifestKey key then
    match env.chunksOf body with
    | none => none
    | some names => if names.all isBlobSHA then some { key, body, stage := .chunks names } else none
  else some { key, body, stage := .cleared }

/-- The objects of a project, and the requests on their way. -/
structure PutStore (ι : Type*) where
  objects : GoString → Option GoString
  request : ι → Option PutRequest

section

variable {ι : Type*} [DecidableEq ι]

/-- A request goes on, or ends. -/
def PutStore.set (s : PutStore ι) (i : ι) (r : Option PutRequest) : PutStore ι :=
  { s with request := Function.update s.request i r }

/-- Somebody else writes under the key of a request. -/
def PutRequest.pass (r : PutRequest) (key body : GoString) : PutRequest :=
  if r.key = key then { r with missed := r.missed ++ [body] } else r

/-- A request writes, and is acknowledged. -/
def PutStore.write (s : PutStore ι) (i : ι) (r : PutRequest) : PutStore ι where
  objects := Function.update s.objects r.key (some r.body)
  request := Function.update (fun j => (s.request j).map (·.pass r.key r.body)) i none

@[simp] theorem PutStore.set_request_self (s : PutStore ι) (i : ι) (r : Option PutRequest) :
    (s.set i r).request i = r :=
  Function.update_self _ _ _

theorem PutStore.set_request_of_ne (s : PutStore ι) {i j : ι} (r : Option PutRequest) (h : j ≠ i) :
    (s.set i r).request j = s.request j :=
  Function.update_of_ne h _ _

@[simp] theorem PutStore.write_objects_self (s : PutStore ι) (i : ι) (r : PutRequest) :
    (s.write i r).objects r.key = some r.body :=
  Function.update_self _ _ _

@[simp] theorem PutStore.write_request_self (s : PutStore ι) (i : ι) (r : PutRequest) :
    (s.write i r).request i = none := by
  simp [write]

theorem PutStore.write_request_of_ne (s : PutStore ι) {i j : ι} (r : PutRequest) (h : j ≠ i) :
    (s.write i r).request j = (s.request j).map (·.pass r.key r.body) := by
  simp [write, Function.update_of_ne h]

/-- `handleStorePut`: one step of one request, where the writes are of a kind. -/
inductive PutStep (env : StoreEnv) (Good : PutRequest → Prop) (s : PutStore ι) :
    PutStore ι → Prop
  | begin (i : ι) (key body : GoString) (r : PutRequest) (idle : s.request i = none)
      (admitted : env.requestOf key body = some r) : PutStep env Good s (s.set i (some r))
  | firstPush (i : ι) (r : PutRequest) (hr : s.request i = some r) (stage : r.stage = .checking)
      (absent : s.objects r.key = none) :
    PutStep env Good s (s.set i (some { r with stage := .cleared, missed := [] }))
  | found (i : ι) (r : PutRequest) (hr : s.request i = some r) (stage : r.stage = .checking)
      (held : s.objects r.key ≠ none) :
    PutStep env Good s (s.set i (some { r with stage := .present }))
  | keeps (i : ι) (r : PutRequest) (stored : GoString) (hr : s.request i = some r)
      (stage : r.stage = .present) (journal : isJournalKey r.key = true)
      (got : s.objects r.key = some stored)
      (kept : journalKeepsItsOps (parse stored) (parse r.body) = true) :
    PutStep env Good s (s.set i (some { r with stage := .cleared, missed := [] }))
  | chunk (i : ι) (r : PutRequest) (h : GoString) (left : List GoString)
      (hr : s.request i = some r) (stage : r.stage = .chunks (h :: left))
      (held : s.objects (chunkKey h) ≠ none) :
    PutStep env Good s (s.set i (some { r with stage := .chunks left }))
  | free (i : ι) (r : PutRequest) (hr : s.request i = some r) (stage : r.stage = .chunks [])
      (absent : s.objects r.key = none) :
    PutStep env Good s (s.set i (some { r with stage := .cleared, missed := [] }))
  | taken (i : ι) (r : PutRequest) (hr : s.request i = some r) (stage : r.stage = .chunks [])
      (held : s.objects r.key ≠ none) :
    PutStep env Good s (s.set i (some { r with stage := .present }))
  | same (i : ι) (r : PutRequest) (hr : s.request i = some r) (stage : r.stage = .present)
      (manifest : isManifestKey r.key = true) (got : s.objects r.key = some r.body) :
    PutStep env Good s (s.set i none)
  | put (i : ι) (r : PutRequest) (hr : s.request i = some r) (stage : r.stage = .cleared)
      (good : Good r) : PutStep env Good s (s.write i r)
  | refuse (i : ι) : PutStep env Good s (s.set i none)

/-- Since the request looked, nobody has written ops under its key that the body lacks, or another
manifest. -/
def Unpassed (r : PutRequest) : Prop :=
  (isJournalKey r.key = true →
    ∀ b ∈ r.missed, journalKeepsItsOps (parse b) (parse r.body) = true) ∧
  (isManifestKey r.key = true → ∀ b ∈ r.missed, b = r.body)

/-! ### What is stored -/

/-- The sequence numbers of a stored journal. -/
def storedSeqs (objects : GoString → Option GoString) (key : GoString) : Set ℤ :=
  {n | ∃ b, objects key = some b ∧ ∃ op ∈ parse b, op.seq = n}

/-- Every manifest names chunks that are stored. -/
def Whole (env : StoreEnv) (objects : GoString → Option GoString) : Prop :=
  ∀ key b names, isManifestKey key = true → objects key = some b → env.chunksOf b = some names →
    ∀ h ∈ names, objects (chunkKey h) ≠ none

/-- Journals have kept their ops, manifests their bytes, and nothing has gone. -/
structure Kept (objects objects' : GoString → Option GoString) : Prop where
  journal : ∀ key, isJournalKey key = true → storedSeqs objects key ⊆ storedSeqs objects' key
  manifest : ∀ key b, isManifestKey key = true → objects key = some b → objects' key = some b
  stored : ∀ key, objects key ≠ none → objects' key ≠ none

theorem Kept.refl (objects : GoString → Option GoString) : Kept objects objects :=
  ⟨fun _ _ => subset_rfl, fun _ _ _ h => h, fun _ h => h⟩

theorem Kept.trans {a b c : GoString → Option GoString} (h : Kept a b) (h' : Kept b c) :
    Kept a c :=
  ⟨fun key hkey => (h.journal key hkey).trans (h'.journal key hkey),
    fun key x hkey hx => h'.manifest key x hkey (h.manifest key x hkey hx),
    fun key hkey => h'.stored key (h.stored key hkey)⟩

theorem journalKeepsItsOps_iff {stored ops : List Op} :
    journalKeepsItsOps stored ops = true ↔ ∀ op ∈ stored, ∃ o ∈ ops, o.seq = op.seq := by
  simp [journalKeepsItsOps]

/-- A journal and a manifest never have the same key. -/
theorem not_isManifestKey {key : GoString} (h : isJournalKey key = true) :
    isManifestKey key = false := by
  rw [Bool.eq_false_iff]
  intro hm
  obtain ⟨a, ha⟩ := List.isPrefixOf_iff_prefix.mp h
  obtain ⟨b, hb⟩ := List.isPrefixOf_iff_prefix.mp hm
  have hhead := congrArg List.head? (ha.trans hb.symm)
  exact absurd hhead (by simp [ascii])

/-! ### One step -/

/-- What a request on its way has found out, and what has been written behind its back. -/
structure PutRequest.Sound (env : StoreEnv) (objects : GoString → Option GoString)
    (r : PutRequest) : Prop where
  chunks : isManifestKey r.key = true → ∀ names, env.chunksOf r.body = some names → ∀ h ∈ names,
    objects (chunkKey h) ≠ none ∨ ∃ left, r.stage = .chunks left ∧ h ∈ left
  journal : isJournalKey r.key = true → r.stage = .cleared → ∀ b, objects r.key = some b →
    b ∈ r.missed ∨ journalKeepsItsOps (parse b) (parse r.body) = true
  manifest : isManifestKey r.key = true → r.stage = .cleared → ∀ b, objects r.key = some b →
    b ∈ r.missed
  passed : isJournalKey r.key = true → ∀ b ∈ r.missed, ∀ op ∈ parse b,
    op.seq ∈ storedSeqs objects r.key
  replaced : isManifestKey r.key = true → ∀ b ∈ r.missed, objects r.key = some b

/-- Manifests are whole, and requests know what they have looked at. -/
structure PutStore.Sound (env : StoreEnv) (s : PutStore ι) : Prop where
  whole : Whole env s.objects
  request : ∀ i r, s.request i = some r → r.Sound env s.objects

/-- A store with no request on its way. -/
def PutStore.Quiet (env : StoreEnv) (s : PutStore ι) : Prop :=
  (∀ i, s.request i = none) ∧ Whole env s.objects

omit [DecidableEq ι] in
theorem PutStore.Quiet.sound {env : StoreEnv} {s : PutStore ι} (h : s.Quiet env) : s.Sound env where
  whole := h.2
  request i r hr := absurd ((h.1 i).symm.trans hr) (by simp)

theorem PutStore.Sound.set {env : StoreEnv} {s : PutStore ι} (h : s.Sound env) (i : ι)
    {r : Option PutRequest} (hr : ∀ r', r = some r' → r'.Sound env s.objects) :
    (s.set i r).Sound env where
  whole := h.whole
  request j r' hj := by
    by_cases hji : j = i
    · subst hji
      exact hr r' ((s.set_request_self j r).symm.trans hj)
    · exact h.request j r' ((s.set_request_of_ne r hji).symm.trans hj)

theorem StoreEnv.requestOf_sound {env : StoreEnv} {objects : GoString → Option GoString}
    {key body : GoString} {r : PutRequest} (h : env.requestOf key body = some r) :
    r.Sound env objects := by
  rw [requestOf] at h
  split at h
  · cases h
  split at h
  · cases h
  split at h
  · rename_i hkey
    obtain ⟨ops, -, rfl⟩ := Option.map_eq_some_iff.mp h
    have hm := not_isManifestKey hkey
    exact ⟨fun h' => absurd h' (by simp [hm]), fun _ hs => by simp at hs, fun _ hs => by simp at hs,
      fun _ b hb => by simp at hb, fun _ b hb => by simp at hb⟩
  split at h
  · split at h
    · cases h
    · rename_i hj hm _ names hnames
      split at h
      · cases h
        refine ⟨fun _ names' hnames' h hh => .inr ⟨names, rfl, ?_⟩, fun h' => absurd h' hj,
          fun _ hs => by simp at hs, fun _ b hb => by simp at hb, fun _ b hb => by simp at hb⟩
        exact Option.some.inj (hnames.symm.trans hnames') ▸ hh
      · cases h
  · rename_i hj hm
    cases h
    exact ⟨fun h' => absurd h' hm, fun h' => absurd h' hj, fun h' => absurd h' hm,
      fun _ b hb => by simp at hb, fun _ b hb => by simp at hb⟩

/-- **The write of a request that nobody has passed keeps what is stored.** -/
theorem kept_of_unpassed {env : StoreEnv} {objects : GoString → Option GoString} {r : PutRequest}
    (h : r.Sound env objects) (hstage : r.stage = .cleared) (hr : Unpassed r) :
    Kept objects (Function.update objects r.key (some r.body)) where
  journal key hkey := by
    rintro n ⟨b, hb, op, hop, rfl⟩
    by_cases hk : key = r.key
    · subst hk
      have hkeeps : journalKeepsItsOps (parse b) (parse r.body) = true :=
        (h.journal hkey hstage b hb).elim (hr.1 hkey b) id
      obtain ⟨o, ho, hseq⟩ := journalKeepsItsOps_iff.mp hkeeps op hop
      exact ⟨r.body, Function.update_self _ _ _, o, ho, hseq⟩
    · exact ⟨b, (Function.update_of_ne hk _ _).trans hb, op, hop, rfl⟩
  manifest key b hkey hb := by
    by_cases hk : key = r.key
    · subst hk
      rw [Function.update_self, hr.2 hkey b (h.manifest hkey hstage b hb)]
    · exact (Function.update_of_ne hk _ _).trans hb
  stored key hkey := by
    by_cases hk : key = r.key
    · subst hk
      rw [Function.update_self]
      exact Option.some_ne_none _
    · rw [Function.update_of_ne hk]
      exact hkey

/-- The others know that they have been passed. -/
theorem PutRequest.Sound.pass {env : StoreEnv} {objects : GoString → Option GoString}
    {r' : PutRequest} (h : r'.Sound env objects) {key body : GoString}
    (hkept : Kept objects (Function.update objects key (some body))) :
    (r'.pass key body).Sound env (Function.update objects key (some body)) := by
  have hold (hkey : isJournalKey r'.key = true) : ∀ b ∈ r'.missed, ∀ op ∈ parse b,
      op.seq ∈ storedSeqs (Function.update objects key (some body)) r'.key :=
    fun b hb op hop => hkept.journal r'.key hkey (h.passed hkey b hb op hop)
  by_cases hk : r'.key = key
  · subst hk
    rw [PutRequest.pass, if_pos rfl]
    refine ⟨fun hm names hnames c hc => (h.chunks hm names hnames c hc).imp (hkept.stored _) id,
      fun _ _ b hb => .inl ?_, fun _ _ b hb => ?_, fun hkey b hb op hop => ?_, fun hm b hb => ?_⟩
    · rw [Function.update_self] at hb
      simp [Option.some.inj hb]
    · rw [Function.update_self] at hb
      simp [Option.some.inj hb]
    · rcases List.mem_append.mp hb with hb | hb
      · exact hold hkey b hb op hop
      · rw [List.mem_singleton.mp hb] at hop
        exact ⟨body, Function.update_self _ _ _, op, hop, rfl⟩
    · rcases List.mem_append.mp hb with hb | hb
      · exact hkept.manifest _ b hm (h.replaced hm b hb)
      · rw [List.mem_singleton.mp hb]
        exact Function.update_self _ _ _
  · rw [PutRequest.pass, if_neg hk]
    refine ⟨fun hm names hnames c hc => (h.chunks hm names hnames c hc).imp (hkept.stored _) id,
      fun hkey hs b hb => ?_, fun hm hs b hb => ?_, hold, fun hm b hb => ?_⟩
    · exact h.journal hkey hs b ((Function.update_of_ne hk _ _).symm.trans hb)
    · exact h.manifest hm hs b ((Function.update_of_ne hk _ _).symm.trans hb)
    · exact (Function.update_of_ne hk _ _).trans (h.replaced hm b hb)

/-- A manifest is written when its chunks have been found. -/
theorem Whole.write {env : StoreEnv} {objects : GoString → Option GoString} {r : PutRequest}
    (hw : Whole env objects) (h : r.Sound env objects) (hstage : r.stage = .cleared)
    (hkept : Kept objects (Function.update objects r.key (some r.body))) :
    Whole env (Function.update objects r.key (some r.body)) := by
  intro key b names hkey hb hnames c hc
  refine hkept.stored _ ?_
  by_cases hk : key = r.key
  · subst hk
    rw [Function.update_self] at hb
    obtain rfl := Option.some.inj hb
    rcases h.chunks hkey names hnames c hc with hheld | ⟨left, hleft, -⟩
    · exact hheld
    · rw [hstage] at hleft
      cases hleft
  · exact hw key b names hkey ((Function.update_of_ne hk _ _).symm.trans hb) hnames c hc

theorem PutStore.Sound.write {env : StoreEnv} {s : PutStore ι} (h : s.Sound env) {i : ι}
    {r : PutRequest} (hi : s.request i = some r) (hstage : r.stage = .cleared) (hr : Unpassed r) :
    (s.write i r).Sound env where
  whole := h.whole.write (h.request i r hi) hstage (kept_of_unpassed (h.request i r hi) hstage hr)
  request j r' hj := by
    have hkept := kept_of_unpassed (h.request i r hi) hstage hr
    by_cases hji : j = i
    · subst hji
      exact absurd ((s.write_request_self j r).symm.trans hj) (by simp)
    · obtain ⟨r₀, hr₀, rfl⟩ := Option.map_eq_some_iff.mp
        ((s.write_request_of_ne r hji).symm.trans hj)
      exact (h.request j r₀ hr₀).pass hkept

/-- One step keeps the invariant. -/
theorem PutStep.sound {env : StoreEnv} {s s' : PutStore ι} (h : s.Sound env)
    (hstep : PutStep env Unpassed s s') : s'.Sound env := by
  cases hstep with
  | begin i key body r idle admitted =>
    exact h.set i fun r' hr' => Option.some.inj hr' ▸ env.requestOf_sound admitted
  | firstPush i r hr stage absent =>
    refine h.set i fun r' hr' => Option.some.inj hr' ▸ ?_
    exact ⟨fun hm names hnames c hc => ((h.request i r hr).chunks hm names hnames c hc).imp id
        fun ⟨left, hleft, _⟩ => absurd (stage.symm.trans hleft) (by simp),
      fun _ _ b hb => absurd (absent.symm.trans hb) (by simp),
      fun _ _ b hb => absurd (absent.symm.trans hb) (by simp),
      fun _ b hb => by simp at hb, fun _ b hb => by simp at hb⟩
  | found i r hr stage held =>
    refine h.set i fun r' hr' => Option.some.inj hr' ▸ ?_
    have hold := h.request i r hr
    exact ⟨fun hm names hnames c hc => (hold.chunks hm names hnames c hc).imp id
        fun ⟨left, hleft, _⟩ => absurd (stage.symm.trans hleft) (by simp),
      fun _ hs => by simp at hs, fun _ hs => by simp at hs, hold.passed, hold.replaced⟩
  | keeps i r stored hr stage journal got kept =>
    refine h.set i fun r' hr' => Option.some.inj hr' ▸ ?_
    have hm := not_isManifestKey journal
    exact ⟨fun h' => absurd h' (by simp [hm]),
      fun _ _ b hb => .inr (Option.some.inj (got.symm.trans hb) ▸ kept),
      fun h' => absurd h' (by simp [hm]), fun _ b hb => by simp at hb, fun _ b hb => by simp at hb⟩
  | chunk i r c left hr stage held =>
    refine h.set i fun r' hr' => Option.some.inj hr' ▸ ?_
    have hold := h.request i r hr
    refine ⟨fun hm names hnames d hd => ?_, fun _ hs => by simp at hs, fun _ hs => by simp at hs,
      hold.passed, hold.replaced⟩
    rcases hold.chunks hm names hnames d hd with hheld | ⟨left', hleft, hmem⟩
    · exact .inl hheld
    · rw [stage] at hleft
      obtain rfl := PutStage.chunks.inj hleft
      rcases List.mem_cons.mp hmem with rfl | hmem
      · exact .inl held
      · exact .inr ⟨left, rfl, hmem⟩
  | free i r hr stage absent =>
    refine h.set i fun r' hr' => Option.some.inj hr' ▸ ?_
    refine ⟨fun hm names hnames c hc => ((h.request i r hr).chunks hm names hnames c hc).imp id ?_,
      fun _ _ b hb => absurd (absent.symm.trans hb) (by simp),
      fun _ _ b hb => absurd (absent.symm.trans hb) (by simp),
      fun _ b hb => by simp at hb, fun _ b hb => by simp at hb⟩
    rintro ⟨left, hleft, hmem⟩
    rw [stage] at hleft
    obtain rfl := PutStage.chunks.inj hleft
    cases hmem
  | taken i r hr stage held =>
    refine h.set i fun r' hr' => Option.some.inj hr' ▸ ?_
    have hold := h.request i r hr
    refine ⟨fun hm names hnames c hc => (hold.chunks hm names hnames c hc).imp id ?_,
      fun _ hs => by simp at hs, fun _ hs => by simp at hs, hold.passed, hold.replaced⟩
    rintro ⟨left, hleft, hmem⟩
    rw [stage] at hleft
    obtain rfl := PutStage.chunks.inj hleft
    cases hmem
  | same i r hr stage manifest got => exact h.set i fun r' hr' => by cases hr'
  | put i r hr stage good => exact h.write hr stage good
  | refuse i => exact h.set i fun r' hr' => by cases hr'

/-- One step keeps what is stored. -/
theorem PutStep.kept {env : StoreEnv} {s s' : PutStore ι} (h : s.Sound env)
    (hstep : PutStep env Unpassed s s') : Kept s.objects s'.objects := by
  cases hstep with
  | put i r hr stage good => exact kept_of_unpassed (h.request i r hr) stage good
  | _ => exact .refl _

/-! ### Every run -/

/-- **Where no request has been passed so far, the next write keeps what is stored exactly when its
request has not been passed either.** -/
theorem put_keeps_iff {env : StoreEnv} {s₀ s : PutStore ι} (h₀ : s₀.Quiet env)
    (hs : Relation.ReflTransGen (PutStep env Unpassed) s₀ s) {i : ι} {r : PutRequest}
    (hr : s.request i = some r) (hstage : r.stage = .cleared) :
    Kept s.objects (s.write i r).objects ↔ Unpassed r := by
  have hsound := (Runs.invariant hs (fun _ _ => PutStep.sound) h₀.sound).request i r hr
  refine ⟨fun h => ⟨fun hkey b hb => journalKeepsItsOps_iff.mpr fun op hop => ?_, fun hm b hb => ?_⟩,
    kept_of_unpassed hsound hstage⟩
  · obtain ⟨body, hbody, o, ho, hseq⟩ := h.journal r.key hkey (hsound.passed hkey b hb op hop)
    obtain rfl := Option.some.inj ((Function.update_self r.key _ s.objects).symm.trans hbody)
    exact ⟨o, ho, hseq⟩
  · have hbody := h.manifest r.key b hm (hsound.replaced hm b hb)
    exact Option.some.inj (hbody.symm.trans (Function.update_self r.key _ s.objects))

/-- **If no request writes that has been passed, journals only grow and manifests stay as they are
and whole**, over every interleaving. -/
theorem stored_kept {env : StoreEnv} {s₀ s s' : PutStore ι} (h₀ : s₀.Quiet env)
    (hs : Relation.ReflTransGen (PutStep env Unpassed) s₀ s)
    (hs' : Relation.ReflTransGen (PutStep env Unpassed) s s') :
    (∀ key, isJournalKey key = true → storedSeqs s.objects key ⊆ storedSeqs s'.objects key) ∧
      ∀ key b, isManifestKey key = true → s.objects key = some b → s'.objects key = some b ∧
        ∀ names, env.chunksOf b = some names → ∀ h ∈ names, s'.objects (chunkKey h) ≠ none := by
  have hsound := Runs.invariant hs (fun _ _ => PutStep.sound) h₀.sound
  have hsound' := Runs.invariant hs' (fun _ _ => PutStep.sound) hsound
  have hkept : Kept s.objects s'.objects :=
    @Runs.kept _ _ _ (fun s s' : PutStore ι => Kept s.objects s'.objects) _ _ hs'
      (fun s => .refl s.objects) (fun _ _ _ => Kept.trans) (fun _ _ => PutStep.sound)
      (fun _ _ => PutStep.kept) hsound
  refine ⟨hkept.journal, fun key b hkey hb => ⟨hkept.manifest key b hkey hb, fun names hnames => ?_⟩⟩
  exact hsound'.whole key b names hkey (hkept.manifest key b hkey hb) hnames

end

/-! ### Two pushes of one device -/

/-- The journal of a device that has made so many changes. -/
def journalOf (n : ℕ) : GoString :=
  (marshal ((List.range n).map fun k =>
    { seq := k + 1, lamport := k + 1, device := ascii "dev", kind := .put, path := ascii "f",
      blob := contentOf 0x61 })).getD []

/-- A push of it, that has found nothing stored. -/
def pushOf (n : ℕ) (stage : PutStage) (missed : List GoString) : PutRequest where
  key := ascii "journal/dev.jsonl"
  body := journalOf n
  stage
  missed

/-- A hub that computes nothing of a body. -/
def plainEnv : StoreEnv where
  sum := id
  chunksOf _ := none

/-- A store with nothing in it. -/
def emptyStore : PutStore Bool := ⟨fun _ => none, fun _ => none⟩

/-- The store when a push has looked. -/
def PutStore.looked (s : PutStore Bool) (i : Bool) (n : ℕ) : PutStore Bool :=
  (s.set i (some (pushOf n .checking []))).set i (some (pushOf n .cleared []))

theorem emptyStore_quiet : emptyStore.Quiet plainEnv :=
  ⟨fun _ => rfl, fun _ _ _ _ hb => by cases hb⟩

/-- A push of one change or of two finds nothing stored. -/
theorem looked_of_empty {Good : PutRequest → Prop} {s : PutStore Bool} {i : Bool} {n : ℕ}
    (hn : (journalOps (journalOf n)).isSome = true) (idle : s.request i = none)
    (absent : s.objects (ascii "journal/dev.jsonl") = none) :
    Relation.ReflTransGen (PutStep plainEnv Good) s (s.looked i n) := by
  obtain ⟨ops, hops⟩ := Option.isSome_iff_exists.mp hn
  have hblob : hasPrefix (ascii "journal/dev.jsonl") (ascii "blobs/") = false := by decide
  have hchunk : hasPrefix (ascii "journal/dev.jsonl") (ascii "chunks/") = false := by decide
  have hkey : isJournalKey (ascii "journal/dev.jsonl") = true := by decide
  have hrequest : plainEnv.requestOf (ascii "journal/dev.jsonl") (journalOf n) =
      some (pushOf n .checking []) := by
    rw [StoreEnv.requestOf, hblob, hchunk, hkey, hops]
    rfl
  refine .tail (.single (.begin i _ _ _ idle hrequest)) ?_
  exact .firstPush i (pushOf n .checking []) (s.set_request_self i _) rfl absent

theorem journalOps_one : (journalOps (journalOf 1)).isSome = true := by decide +kernel

theorem journalOps_two : (journalOps (journalOf 2)).isSome = true := by decide +kernel

/-- The journal is stored, and keeps the ops it had. -/
theorem stored_kept_first :
    (∀ key, isJournalKey key = true →
      storedSeqs (emptyStore.looked true 1).objects key ⊆
        storedSeqs ((emptyStore.looked true 1).write true (pushOf 1 .cleared [])).objects key) ∧
    ∀ key b, isManifestKey key = true → (emptyStore.looked true 1).objects key = some b →
      ((emptyStore.looked true 1).write true (pushOf 1 .cleared [])).objects key = some b ∧
        ∀ names, plainEnv.chunksOf b = some names → ∀ h ∈ names,
          ((emptyStore.looked true 1).write true (pushOf 1 .cleared [])).objects (chunkKey h) ≠ none :=
  stored_kept emptyStore_quiet (looked_of_empty journalOps_one rfl rfl)
    (.single (.put true _ (PutStore.set_request_self _ _ _) rfl
      ⟨fun _ b hb => by simp [pushOf] at hb, fun _ b hb => by simp [pushOf] at hb⟩))

/-- Two pushes of one device look before either writes: the later write takes the newer op out of
the journal. -/
theorem stored_lost : ¬ ∀ (env : StoreEnv) (s₀ s s' : PutStore Bool), s₀.Quiet env →
    Relation.ReflTransGen (PutStep env fun _ => True) s₀ s →
      Relation.ReflTransGen (PutStep env fun _ => True) s s' →
        ∀ key, isJournalKey key = true → storedSeqs s.objects key ⊆ storedSeqs s'.objects key := by
  intro h
  have hone : (parse (journalOf 1)).map (·.seq) = [1] := by decide +kernel
  have htwo : (parse (journalOf 2)).map (·.seq) = [1, 2] := by decide +kernel
  let both := (emptyStore.looked true 1).looked false 2
  have hboth : Relation.ReflTransGen (PutStep plainEnv fun _ => True) emptyStore both :=
    (looked_of_empty journalOps_one rfl rfl).trans (looked_of_empty journalOps_two rfl rfl)
  have hnewer : PutStep plainEnv (fun _ => True) both (both.write false (pushOf 2 .cleared [])) :=
    .put false _ (PutStore.set_request_self _ _ _) rfl trivial
  have holder : PutStep plainEnv (fun _ => True) (both.write false (pushOf 2 .cleared []))
      ((both.write false (pushOf 2 .cleared [])).write true (pushOf 1 .cleared [journalOf 2])) :=
    .put true _ rfl rfl trivial
  have hsub := h plainEnv emptyStore _ _ emptyStore_quiet (.tail hboth hnewer) (.single holder)
    (ascii "journal/dev.jsonl") (by decide)
  have hmem : (2 : ℤ) ∈ (parse (journalOf 2)).map (·.seq) := by simp [htwo]
  obtain ⟨op, hop, hseq⟩ := List.mem_map.mp hmem
  obtain ⟨b, hb, o, ho, hoseq⟩ := hsub
    ⟨journalOf 2, PutStore.write_objects_self _ _ (pushOf 2 _ _), op, hop, hseq⟩
  obtain rfl := Option.some.inj
    ((PutStore.write_objects_self _ _ (pushOf 1 .cleared [journalOf 2])).symm.trans hb)
  have hlost : (2 : ℤ) ∈ (parse (journalOf 1)).map (·.seq) := List.mem_map.mpr ⟨o, ho, hoseq⟩
  simp [hone] at hlost

end Beardrive
