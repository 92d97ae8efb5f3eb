import Beardrive.Lib.GoString
import Beardrive.Lib.Runs

/-!
# Blobs that may still be replaced

A blob is stored under the sha256 of its bytes, but where storage can presign, nobody checks what
is put through a URL, and a URL takes any number of bodies until it expires. So the hub hashes a
blob whenever it serves it, and stops only when no URL for it can still be live: a URL is minted
only while the blob is absent, so it is dead when the blob is older than a URL lives, with an
allowance for the clocks of two machines.

The age is that of the first version the process has seen. A body that is put between the read
that was hashed and the look at the clock is then as old as the one it replaced, and the blob is
sealed over it.

## Main definitions

* `BlobStore`, `BlobStore.step` — a blob, the URLs for it and the reads of it
* `BlobStore.Careful` — what is stored when a blob is sealed is what was hashed

## Main results

* `served_hash` — after careful steps, what was served has the hash it was asked by
-/

namespace Beardrive

/-! ### The blob -/

/-- The sha256 in hexadecimal, the name of the blob, how long a URL lives, and whether storage can
presign. -/
structure BlobEnv where
  sum : GoString → GoString
  sha : GoString
  ttl : ℤ
  signs : Bool

/-- `skewAllowance`, in nanoseconds. -/
def skewAllowance : ℤ := 3600 * 1000000000

/-- `maxSpooledBody`, the largest body that is kept while it is checked, or assembled from
chunks. -/
def maxSpooledBody : ℕ := 268435456

/-- Where a read is: `verify` has begun, has read a body, has found that it hashes to the name, and
has the age of the blob; the body is kept; there was no check, or it is passed; or the body has to
come, or has come, out of chunks. -/
inductive BlobRead (η : Type*) where
  | idle
  | opened (hub : η)
  | got (hub : η) (body : GoString)
  | hashed (hub : η) (body : GoString)
  | dated (hub : η) (body : GoString) (modified : Option ℤ)
  | kept (hub : η) (body : GoString)
  | passed
  | assembles
  | assembled (body : GoString)

/-- The clock of storage; the object, with the time of its last write; when the URLs for it
expire; what each hub process has sealed, and the first time it has seen; the reads; and what was
served. -/
structure BlobStore (ι η : Type*) where
  now : ℤ := 0
  object : Option (GoString × ℤ) := none
  urls : List ℤ := []
  isSealed : η → Bool := fun _ => false
  blobMod : η → Option ℤ := fun _ => none
  read : ι → BlobRead η := fun _ => .idle
  served : List GoString := []

/-- What can happen: time passes; a URL is minted, and used; the hub relays a body it has hashed;
and a read goes on. -/
inductive BlobEvent (ι η : Type*) where
  | tick (t : ℕ)
  | mint
  | put (expires : ℤ) (body : GoString)
  | relay (body : GoString)
  | begin_ (i : ι) (hub : η)
  | verify (i : ι) (answers : Bool)
  | hash (i : ι)
  | stat (i : ι) (answers : Bool)
  | maybeSeal (i : ι) (skew : ℤ)
  | keep (i : ι)
  | get (i : ι) (answers : Bool)
  | assemble (i : ι) (body : GoString)
  | backfill (i : ι)
  | serve (i : ι)
  | fail (i : ι)

section

variable (env : BlobEnv) {ι η : Type*} [DecidableEq ι] [DecidableEq η]

/-- A read goes on. -/
def BlobStore.set (s : BlobStore ι η) (i : ι) (r : BlobRead η) : BlobStore ι η :=
  { s with read := Function.update s.read i r }

/-- A read ends with a body. -/
def BlobStore.answer (s : BlobStore ι η) (i : ι) (body : GoString) : BlobStore ι η :=
  { s.set i .idle with served := s.served ++ [body] }

/-- The object is old enough for no URL to be live: `time.Since(mod) > sealAfter`, by a clock that
is ahead of that of storage. -/
def BlobEnv.old (now skew modified : ℤ) : Bool := env.ttl + skewAllowance < now + skew - modified

/-- One step, where it is possible. -/
def BlobStore.step (s : BlobStore ι η) : BlobEvent ι η → Option (BlobStore ι η)
  | .tick t => some { s with now := s.now + t }
  | .mint =>
    -- Both doors refuse to sign a key that exists.
    if env.signs && s.object.isNone then some { s with urls := (s.now + env.ttl) :: s.urls }
    else none
  | .put expires body =>
    if expires ∈ s.urls ∧ s.now ≤ expires then some { s with object := some (body, s.now) }
    else none
  | .relay body =>
    if env.sum body = env.sha then some { s with object := some (body, s.now) } else none
  | .begin_ i hub =>
    match s.read i with
    | .idle => some (s.set i (.opened hub))
    | _ => none
  | .verify i answers =>
    match s.read i with
    | .opened hub =>
      if !env.signs || s.isSealed hub then some (s.set i .passed)
      else match s.object.filter fun _ => answers with
        | some (body, _) => some (s.set i (.got hub body))
        | none => some (s.set i .assembles)
    | _ => none
  | .hash i =>
    match s.read i with
    | .got hub body =>
      some (s.set i (if env.sum body = env.sha then .hashed hub body else .assembles))
    | _ => none
  | .stat i answers =>
    match s.read i with
    | .hashed hub body =>
      match s.blobMod hub with
      | some modified => some (s.set i (.dated hub body (some modified)))
      | none =>
        match s.object.filter fun _ => answers with
        | some (_, modified) => some
            { s.set i (.dated hub body (some modified)) with
              blobMod := Function.update s.blobMod hub (some modified) }
        | none => some (s.set i (.dated hub body none))
    | _ => none
  | .maybeSeal i skew =>
    if skew ≤ skewAllowance then
      match s.read i with
      | .dated hub body modified =>
        if modified.any (env.old s.now skew) then
          some { s.set i (.kept hub body) with
            isSealed := Function.update s.isSealed hub true
            blobMod := Function.update s.blobMod hub none }
        else some (s.set i (.kept hub body))
      | _ => none
    else none
  | .keep i =>
    match s.read i with
    | .kept hub body =>
      if maxSpooledBody < body.length then
        some (s.set i (if s.isSealed hub then .passed else .idle))
      else some (s.answer i body)
    | _ => none
  | .get i answers =>
    match s.read i with
    | .passed =>
      match s.object.filter fun _ => answers with
      | some (body, _) => some (s.answer i body)
      | none => some (s.set i .assembles)
    | _ => none
  | .assemble i body =>
    match s.read i with
    | .assembles =>
      if env.sum body = env.sha ∧ body.length ≤ maxSpooledBody then
        some (s.set i (.assembled body))
      else none
    | _ => none
  | .backfill i =>
    match s.read i with
    | .assembled body => some { s with object := some (body, s.now) }
    | _ => none
  | .serve i =>
    match s.read i with
    | .assembled body => some (s.answer i body)
    | _ => none
  | .fail i => some (s.set i .idle)

/-- A step of any kind. -/
def BlobStore.Next (s s' : BlobStore ι η) : Prop := ∃ ev, s.step env ev = some s'

/-- Where a read seals the blob, what is stored is what it has hashed. -/
def BlobStore.Careful (s : BlobStore ι η) : BlobEvent ι η → Prop
  | .maybeSeal i skew => ∀ hub body modified, s.read i = .dated hub body (some modified) →
      env.old s.now skew modified = true → ∃ m, s.object = some (body, m)
  | _ => True

/-- A careful step. -/
def BlobStore.CarefulNext (s s' : BlobStore ι η) : Prop :=
  ∃ ev, s.Careful env ev ∧ s.step env ev = some s'

/-! ### What the hub relies on -/

omit [DecidableEq ι] [DecidableEq η]

/-- Nobody but the hub can write the object any more, and it hashes to its name. -/
structure Trusted (object : Option (GoString × ℤ)) (urls : List ℤ) (now : ℤ) : Prop where
  hash : ∀ body m, object = some (body, m) → env.sum body = env.sha
  dead : ∀ e ∈ urls, e < now
  present : object ≠ none ∨ env.signs = false

/-- Every URL for the blob was minted before this time. -/
def MintedBefore (object : Option (GoString × ℤ)) (urls : List ℤ) (m : ℤ) : Prop :=
  object ≠ none ∧ ∀ e ∈ urls, e ≤ m + env.ttl

/-- What a read knows. -/
def BlobStore.Fits (s : BlobStore ι η) : BlobRead η → Prop
  | .hashed _ body | .kept _ body | .assembled body => env.sum body = env.sha
  | .dated _ body modified =>
    env.sum body = env.sha ∧ ∀ m, modified = some m → MintedBefore env s.object s.urls m
  | .passed => Trusted env s.object s.urls s.now
  | _ => True

/-- The invariant of a blob. -/
structure BlobStore.Sound (s : BlobStore ι η) : Prop where
  absent : s.object = none → ∀ e ∈ s.urls, e ≤ s.now + env.ttl
  present : ∀ body m, s.object = some (body, m) →
    m ≤ s.now ∧ MintedBefore env s.object s.urls m
  mods : ∀ hub m, s.blobMod hub = some m → MintedBefore env s.object s.urls m
  trusted : ∀ hub, s.isSealed hub = true → Trusted env s.object s.urls s.now
  unsigned : env.signs = false → Trusted env s.object s.urls s.now
  reads : ∀ i, s.Fits env (s.read i)
  served : ∀ body ∈ s.served, env.sum body = env.sha

variable {env}

/-- What a read knows stays true where trust and the minting of URLs do. -/
theorem BlobStore.Fits.mono {s s' : BlobStore ι η} {r : BlobRead η} (h : s.Fits env r)
    (ht : Trusted env s.object s.urls s.now → Trusted env s'.object s'.urls s'.now)
    (hm : ∀ m, MintedBefore env s.object s.urls m → MintedBefore env s'.object s'.urls m) :
    s'.Fits env r := by
  cases r with
  | dated hub body modified => exact ⟨h.1, fun m hmod => hm m (h.2 m hmod)⟩
  | passed => exact ht h
  | hashed hub body => exact h
  | kept hub body => exact h
  | assembled body => exact h
  | _ => trivial

/-- The object, the URLs and the clock change in a way that keeps trust. -/
theorem BlobStore.Sound.mono {s : BlobStore ι η} (h : s.Sound env)
    {object : Option (GoString × ℤ)} {urls : List ℤ} {now : ℤ}
    (absent : object = none → ∀ e ∈ urls, e ≤ now + env.ttl)
    (present : ∀ body m, object = some (body, m) → m ≤ now ∧ MintedBefore env object urls m)
    (ht : Trusted env s.object s.urls s.now → Trusted env object urls now)
    (hm : ∀ m, MintedBefore env s.object s.urls m → MintedBefore env object urls m) :
    ({ s with object, urls, now } : BlobStore ι η).Sound env where
  absent := absent
  present := present
  mods hub m hmod := hm m (h.mods hub m hmod)
  trusted hub hsealed := ht (h.trusted hub hsealed)
  unsigned hsigns := ht (h.unsigned hsigns)
  reads i := (h.reads i).mono ht hm
  served := h.served

/-- A body is written; where the blob is trusted, it hashes to the name. -/
theorem BlobStore.Sound.write {s : BlobStore ι η} (h : s.Sound env) {body : GoString}
    (hbody : Trusted env s.object s.urls s.now → env.sum body = env.sha) :
    ({ s with object := some (body, s.now) } : BlobStore ι η).Sound env := by
  have hminted : ∀ e ∈ s.urls, e ≤ s.now + env.ttl := by
    intro e he
    cases hobj : s.object with
    | none => exact h.absent hobj e he
    | some o =>
      obtain ⟨hm, hminted⟩ := h.present o.1 o.2 hobj
      exact Int.le_trans (hminted.2 e he) (Int.add_le_add_right hm _)
  refine h.mono (fun hno => absurd hno (by simp)) (fun body' m hobj => ?_) (fun ht => ?_)
    fun m hm => ⟨by simp, hm.2⟩
  · cases hobj
    exact ⟨Int.le_refl _, by simp, hminted⟩
  · refine ⟨fun body' m hobj => ?_, ht.dead, .inl (by simp)⟩
    cases hobj
    exact hbody ht

/-! ### One step -/

variable [DecidableEq ι] [DecidableEq η]

omit [DecidableEq η] in
/-- A read goes on, with what it has come to know. -/
theorem BlobStore.Sound.set {s : BlobStore ι η} (h : s.Sound env) {i : ι} {r : BlobRead η}
    (hr : s.Fits env r) : (s.set i r).Sound env := by
  refine { h with reads := fun j => ?_ }
  show s.Fits env (Function.update s.read i r j)
  by_cases hji : j = i
  · subst hji
    rwa [Function.update_self]
  · rw [Function.update_of_ne hji]
    exact h.reads j

omit [DecidableEq η] in
/-- A read ends with a body that hashes to the name. -/
theorem BlobStore.Sound.answer {s : BlobStore ι η} (h : s.Sound env) {i : ι} {body : GoString}
    (hbody : env.sum body = env.sha) : (s.answer i body).Sound env := by
  refine { h.set (i := i) (r := .idle) trivial with served := fun b hb => ?_ }
  rcases List.mem_append.mp hb with hb | hb
  · exact h.served b hb
  · rwa [List.mem_singleton.mp hb]

omit [DecidableEq ι] [DecidableEq η] in
/-- **When the object is old, every URL for it is dead**, as far as the clocks agree. -/
theorem MintedBefore.dead {object : Option (GoString × ℤ)} {urls : List ℤ} {m now skew : ℤ}
    (h : MintedBefore env object urls m) (hskew : skew ≤ skewAllowance)
    (hold : env.old now skew m = true) : ∀ e ∈ urls, e < now := by
  intro e he
  have hlt : env.ttl + skewAllowance < now + skew - m := of_decide_eq_true hold
  calc e ≤ m + env.ttl := h.2 e he
    _ < now := by omega

/-- A blob is sealed over what was hashed. -/
theorem BlobStore.Sound.maybeSeal {s s' : BlobStore ι η} (h : s.Sound env) {i : ι} {skew : ℤ}
    (careful : s.Careful env (.maybeSeal i skew)) (hs : s.step env (.maybeSeal i skew) = some s') :
    s'.Sound env := by
  simp only [BlobStore.step] at hs
  split at hs
  case isFalse => cases hs
  rename_i hskew
  split at hs
  case h_2 => cases hs
  rename_i hub body modified hread
  have hfits := h.reads i
  rw [hread] at hfits
  have hset : (s.set i (.kept hub body)).Sound env := h.set hfits.1
  split at hs
  · rename_i hany
    obtain ⟨m, hm, hold⟩ := (Option.any_eq_true _ _).mp hany
    subst hm
    have hminted := hfits.2 m rfl
    obtain ⟨m', hobj⟩ := careful hub body m hread hold
    have htrusted : Trusted env s.object s.urls s.now :=
      { hash := fun b m hb => by
          cases hobj.symm.trans hb
          exact hfits.1
        dead := hminted.dead hskew hold
        present := .inl hminted.1 }
    cases hs
    refine { hset with mods := fun hub' m hmod => ?_, trusted := fun _ _ => htrusted }
    by_cases hhub : hub' = hub
    · subst hhub
      simp at hmod
    · exact h.mods hub' m (by simpa [hhub] using hmod)
  · cases hs
    exact hset

/-- The age of a blob is that of the first version the process has seen. -/
theorem BlobStore.Sound.stat {s s' : BlobStore ι η} (h : s.Sound env) {i : ι} {answers : Bool}
    (hs : s.step env (.stat i answers) = some s') : s'.Sound env := by
  simp only [BlobStore.step] at hs
  split at hs
  case h_2 => cases hs
  rename_i hub body hread
  have hfits := h.reads i
  rw [hread] at hfits
  split at hs
  · rename_i modified hmod
    cases hs
    refine h.set (r := .dated hub body (some modified)) ⟨hfits, fun m hm => ?_⟩
    cases hm
    exact h.mods hub modified hmod
  · split at hs
    · rename_i body' modified hobj
      obtain ⟨hobj, -⟩ := Option.filter_eq_some_iff.mp hobj
      have hminted := (h.present body' modified hobj).2
      cases hs
      have hset := h.set (i := i) (r := .dated hub body (some modified)) ⟨hfits, fun m hm =>
        Option.some.inj hm ▸ hminted⟩
      refine { hset with mods := fun hub' m hmod => ?_ }
      by_cases hhub : hub' = hub
      · subst hhub
        simp only [Function.update_self, Option.some.injEq] at hmod
        exact hmod ▸ hminted
      · exact h.mods hub' m (by simpa [hhub] using hmod)
    · cases hs
      exact h.set (r := .dated hub body none) ⟨hfits, fun m hm => absurd hm (by simp)⟩

/-- **A careful step keeps the invariant of a blob.** -/
theorem BlobStore.Sound.step {s s' : BlobStore ι η} (h : s.Sound env)
    (hs : s.CarefulNext env s') : s'.Sound env := by
  obtain ⟨ev, careful, hs⟩ := hs
  cases ev with
  | tick t =>
    cases hs
    have hnow : s.now ≤ s.now + t := Int.le_add_of_nonneg_right (Int.natCast_nonneg t)
    exact h.mono (fun hno e he => Int.le_trans (h.absent hno e he) (Int.add_le_add_right hnow _))
      (fun body m hobj => ⟨Int.le_trans (h.present body m hobj).1 hnow, (h.present body m hobj).2⟩)
      (fun ht => { ht with dead := fun e he => Int.lt_of_lt_of_le (ht.dead e he) hnow })
      fun m hm => hm
  | mint =>
    simp only [BlobStore.step] at hs
    split at hs
    case isFalse => cases hs
    rename_i hmint
    rw [Bool.and_eq_true, Option.isNone_iff_eq_none] at hmint
    obtain ⟨hsigns, hno⟩ := hmint
    cases hs
    refine h.mono (fun _ e he => ?_) (fun body m hobj => absurd (hno.symm.trans hobj) (by simp))
      (fun ht => ?_) fun m hm => absurd hno hm.1
    · rcases List.mem_cons.mp he with rfl | he
      · exact Int.le_refl _
      · exact h.absent hno e he
    · rcases ht.present with hobj | hsigns'
      · exact absurd hno hobj
      · exact absurd (hsigns.symm.trans hsigns') (by simp)
  | put expires body =>
    simp only [BlobStore.step] at hs
    split at hs
    case isFalse => cases hs
    rename_i hlive
    cases hs
    exact h.write fun ht => absurd (ht.dead expires hlive.1) (Int.not_lt.mpr hlive.2)
  | relay body =>
    simp only [BlobStore.step] at hs
    split at hs
    case isFalse => cases hs
    rename_i hbody
    cases hs
    exact h.write fun _ => hbody
  | begin_ i hub =>
    simp only [BlobStore.step] at hs
    split at hs
    case h_2 => cases hs
    cases hs
    exact h.set trivial
  | verify i answers =>
    simp only [BlobStore.step] at hs
    split at hs
    case h_2 => cases hs
    rename_i hub hread
    split at hs
    · rename_i htrusted
      cases hs
      refine h.set ?_
      rcases (Bool.or_eq_true _ _).mp htrusted with hsigns | hsealed
      · exact h.unsigned (by simpa using hsigns)
      · exact h.trusted hub hsealed
    · split at hs <;> cases hs <;> exact h.set trivial
  | hash i =>
    simp only [BlobStore.step] at hs
    split at hs
    case h_2 => cases hs
    rename_i hub body hread
    cases hs
    refine h.set ?_
    split
    · assumption
    · trivial
  | stat i answers => exact h.stat hs
  | maybeSeal i skew => exact h.maybeSeal careful hs
  | keep i =>
    simp only [BlobStore.step] at hs
    split at hs
    case h_2 => cases hs
    rename_i hub body hread
    have hfits := h.reads i
    rw [hread] at hfits
    split at hs
    · cases hs
      refine h.set ?_
      split
      · rename_i hsealed
        exact h.trusted hub hsealed
      · trivial
    · cases hs
      exact h.answer hfits
  | get i answers =>
    simp only [BlobStore.step] at hs
    split at hs
    case h_2 => cases hs
    rename_i hread
    have hfits := h.reads i
    rw [hread] at hfits
    split at hs
    · rename_i body m hobj
      cases hs
      exact h.answer (hfits.hash body m (Option.filter_eq_some_iff.mp hobj).1)
    · cases hs
      exact h.set trivial
  | assemble i body =>
    simp only [BlobStore.step] at hs
    split at hs
    case h_2 => cases hs
    split at hs
    case isFalse => cases hs
    rename_i hbody
    cases hs
    exact h.set hbody.1
  | backfill i =>
    simp only [BlobStore.step] at hs
    split at hs
    case h_2 => cases hs
    rename_i body hread
    have hfits := h.reads i
    rw [hread] at hfits
    cases hs
    exact h.write fun _ => hfits
  | serve i =>
    simp only [BlobStore.step] at hs
    split at hs
    case h_2 => cases hs
    rename_i body hread
    have hfits := h.reads i
    rw [hread] at hfits
    cases hs
    exact h.answer hfits
  | fail i =>
    cases hs
    exact h.set trivial

/-! ### Runs -/

omit [DecidableEq ι] [DecidableEq η] in
/-- A blob that is not there. -/
theorem BlobStore.sound_init : ({} : BlobStore ι η).Sound env where
  absent _ _ he := absurd he (by simp)
  present _ _ hobj := absurd hobj (by simp)
  mods _ _ hmod := absurd hmod (by simp)
  trusted _ hsealed := absurd hsealed (by simp)
  unsigned hsigns :=
    ⟨fun _ _ hobj => absurd hobj (by simp), fun _ he => absurd he (by simp), .inr hsigns⟩
  reads _ := trivial
  served _ hb := absurd hb (by simp)

variable (env)

/-- **What is served has the hash it was asked by**, after careful steps of any reads on any hub
processes. -/
theorem served_hash {s : BlobStore ι η}
    (h : Relation.ReflTransGen (BlobStore.CarefulNext env) {} s) :
    ∀ body ∈ s.served, env.sum body = env.sha :=
  (Runs.invariant h (fun _ _ => BlobStore.Sound.step) BlobStore.sound_init).served

end

/-! ### Runs on given events -/

/-- A blob whose name is its bytes, and URLs that live for a short time. -/
def shortEnv : BlobEnv where
  sum := id
  sha := ascii "a"
  ttl := 10
  signs := true

/-- A body is put through a URL, grows old, is sealed, and is served. -/
theorem served_hash_sealed : ∃ s : BlobStore Unit Unit,
    s.served = [ascii "a", ascii "a"] ∧ s.isSealed () = true ∧
      ∀ body ∈ s.served, shortEnv.sum body = shortEnv.sha := by
  have hrun : ∃ s : BlobStore Unit Unit,
      Relation.ReflTransGen (BlobStore.CarefulNext shortEnv) {} s ∧
        s.served = [ascii "a", ascii "a"] ∧ s.isSealed () = true := by
    refine ⟨_, .head ⟨.mint, trivial, Runs.possible (by decide +kernel)⟩ <|
      .head ⟨.put 10 (ascii "a"), trivial, Runs.possible (by decide +kernel)⟩ <|
      .head ⟨.tick 3600000000011, trivial, Runs.possible (by decide +kernel)⟩ <|
      .head ⟨.begin_ () (), trivial, Runs.possible (by decide +kernel)⟩ <|
      .head ⟨.verify () true, trivial, Runs.possible (by decide +kernel)⟩ <|
      .head ⟨.hash (), trivial, Runs.possible (by decide +kernel)⟩ <|
      .head ⟨.stat () true, trivial, Runs.possible (by decide +kernel)⟩ <|
      .head ⟨.maybeSeal () 0, ?_, Runs.possible (by decide +kernel)⟩ <|
      .head ⟨.keep (), trivial, Runs.possible (by decide +kernel)⟩ <|
      .head ⟨.begin_ () (), trivial, Runs.possible (by decide +kernel)⟩ <|
      .head ⟨.verify () true, trivial, Runs.possible (by decide +kernel)⟩ <|
      .single ⟨.get () true, trivial, Runs.possible (by decide +kernel)⟩, ?_, ?_⟩
    · intro hub body modified hread _
      cases hread
      exact ⟨0, rfl⟩
    · decide +kernel
    · decide +kernel
  obtain ⟨s, hs, hserved, hsealed⟩ := hrun
  exact ⟨s, hserved, hsealed, served_hash shortEnv hs⟩

/-- A body that is replaced while the one before it is hashed may be sealed, and served. -/
theorem served_replaced : ¬ ∀ s : BlobStore Unit Unit,
    Relation.ReflTransGen (BlobStore.Next shortEnv) {} s →
      ∀ body ∈ s.served, shortEnv.sum body = shortEnv.sha := by
  intro h
  have hrun : ∃ s : BlobStore Unit Unit,
      Relation.ReflTransGen (BlobStore.Next shortEnv) {} s ∧
        s.served = [ascii "a", ascii "a", ascii "b"] := by
    refine ⟨_, .head ⟨.mint, Runs.possible (by decide +kernel)⟩ <|
      .head ⟨.put 10 (ascii "a"), Runs.possible (by decide +kernel)⟩ <|
      -- The first read remembers when the object was written.
      .head ⟨.begin_ () (), Runs.possible (by decide +kernel)⟩ <|
      .head ⟨.verify () true, Runs.possible (by decide +kernel)⟩ <|
      .head ⟨.hash (), Runs.possible (by decide +kernel)⟩ <|
      .head ⟨.stat () true, Runs.possible (by decide +kernel)⟩ <|
      .head ⟨.maybeSeal () 0, Runs.possible (by decide +kernel)⟩ <|
      .head ⟨.keep (), Runs.possible (by decide +kernel)⟩ <|
      -- The second one takes its time, and the object is replaced meanwhile.
      .head ⟨.begin_ () (), Runs.possible (by decide +kernel)⟩ <|
      .head ⟨.verify () true, Runs.possible (by decide +kernel)⟩ <|
      .head ⟨.put 10 (ascii "b"), Runs.possible (by decide +kernel)⟩ <|
      .head ⟨.tick 3600000000011, Runs.possible (by decide +kernel)⟩ <|
      .head ⟨.hash (), Runs.possible (by decide +kernel)⟩ <|
      .head ⟨.stat () true, Runs.possible (by decide +kernel)⟩ <|
      .head ⟨.maybeSeal () 0, Runs.possible (by decide +kernel)⟩ <|
      .head ⟨.keep (), Runs.possible (by decide +kernel)⟩ <|
      -- The third one finds the blob sealed.
      .head ⟨.begin_ () (), Runs.possible (by decide +kernel)⟩ <|
      .head ⟨.verify () true, Runs.possible (by decide +kernel)⟩ <|
      .single ⟨.get () true, Runs.possible (by decide +kernel)⟩, by decide +kernel⟩
  obtain ⟨s, hs, hserved⟩ := hrun
  have hb := h s hs (ascii "b") (by simp [hserved])
  exact absurd hb (by decide)

end Beardrive
