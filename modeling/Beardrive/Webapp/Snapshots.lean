import Beardrive.Lib.Runs
import Mathlib.Algebra.Order.Ring.Int

/-!
# Snapshots

A hub process keeps one snapshot of a project and rebuilds it from storage. A read that has to see
every push accepted so far asks for a snapshot that covers as many pushes as were counted when it
asked; one mutex is held while such a read loads. A rebuild in the background holds it only to
begin and to install. What it loaded is dropped where a rebuild that began later is in place.

A load that fails does not always fail the read: where there is a snapshot, the read is served
that one, and it may lack pushes. And where snapshots are not kept for any time at all, watchers
are told at once, since whoever reads next loads.

## Main definitions

* `Volume`, `Volume.step` — a volume and what can happen to it
* `VolumeCall.Answered` — what a read is served

## Main results

* `reads_after_pushes` — a snapshot a read loads, or finds, has every push accepted before it
-/

namespace Beardrive

/-! ### The volume -/

variable {P : Type*} [DecidableEq P]

/-- A rebuild on its way: its generation, how many pushes it was counted to cover, and what was
stored when it began. -/
structure Rebuild (P : Type*) where
  gen : ℕ
  acc : ℕ
  start : List P
  deriving DecidableEq

/-- A call of `current` or `snapshot`: how many pushes its snapshot has to cover, and which were
accepted, and which stored, when it began. -/
structure VolumeCall (P : Type*) where
  current : Bool
  want : ℕ
  accepted : List P
  stored : List P
  deriving DecidableEq

/-- What a call returns: a snapshot, the last one because the load failed, or an error. -/
inductive Answer (P : Type*) where
  | served (files : List P)
  | stale (files : List P)
  | failed
  deriving DecidableEq

/-- The snapshot a call returns. -/
def Answer.files {P : Type*} : Answer P → Option (List P)
  | .served files | .stale files => some files
  | .failed => none

/-- Where `rebuildLoop` is, with the changes whose callbacks it has gathered. -/
inductive RebuildLoop (P : Type*) where
  | idle
  | gather (batch : List P)
  | begins (batch : List P)
  | loads (batch : List P) (r : Rebuild P)
  | loaded (batch : List P) (r : Rebuild P) (files : List P)
  | failed (batch : List P)
  | tells (batch : List P)
  deriving DecidableEq

/-- A `volume`. A snapshot is the pushes it includes, and a callback the push it was registered
for. `counted` are the pushes that the counter `accepted` counts, in its order. -/
structure Volume (P : Type*) where
  refresh : ℤ
  now : ℤ := 0
  stored : List P := []
  accepted : List P := []
  counted : List P := []
  snap : Option (List P) := none
  at_ : Option ℤ := none
  gen : ℕ := 0
  snapGen : ℕ := 0
  staleThrough : ℕ := 0
  covers : ℕ := 0
  bgDone : List P := []
  loop : RebuildLoop P := .idle
  waiting : List (VolumeCall P) := []
  holder : Option (VolumeCall P × Rebuild P) := none
  answers : List (VolumeCall P × Answer P) := []
  told : List (P × Option (List P)) := []

/-- What can happen: time passes; a push is stored, counted, and announced; a call begins, takes
the mutex, and its load ends; the loop goes on, and its load ends. -/
inductive VolumeEvent (P : Type*) where
  | tick (t : ℕ)
  | store (p : P)
  | beginRefresh (p : P)
  | refreshThen (p : P)
  | invalidate
  | ask (current : Bool)
  | enter (c : VolumeCall P)
  | load (files : List P)
  | loadFails
  | loop
  | loopLoad (files : List P)
  | loopLoadFails

/-- `volume.install`. A fold that has not changed is installed over itself. -/
def Volume.install (s : Volume P) (files : List P) (r : Rebuild P) : Volume P :=
  if r.gen < s.snapGen then s
  else { s with
    snapGen := r.gen, covers := r.acc, snap := some files
    at_ := if r.gen ≤ s.staleThrough then none else some s.now }

/-- The snapshot is not older than the refresh window. -/
def Volume.fresh (s : Volume P) : Bool := s.at_.any fun t => s.now - t < s.refresh

/-- One step, where it is possible. -/
def Volume.step (s : Volume P) : VolumeEvent P → Option (Volume P)
  | .tick t => some { s with now := s.now + t }
  | .store p => some { s with stored := p :: s.stored }
  | .beginRefresh p =>
    if p ∈ s.stored then
      some { s with accepted := p :: s.accepted, counted := s.counted ++ [p] }
    else none
  | .refreshThen p =>
    if p ∈ s.stored then
      -- Every read rebuilds anyway.
      if s.refresh ≤ 0 then
        some { s with accepted := p :: s.accepted, told := s.told ++ [(p, s.snap)] }
      else some { s with
        accepted := p :: s.accepted, counted := s.counted ++ [p], bgDone := s.bgDone ++ [p]
        loop := if s.loop = .idle then .gather [] else s.loop }
    else none
  | .invalidate =>
    if s.holder = none then some { s with at_ := none, staleThrough := s.gen } else none
  | .ask current =>
    some { s with waiting :=
      ⟨current, if current then s.counted.length else 0, s.accepted, s.stored⟩ :: s.waiting }
  | .enter c =>
    if c ∈ s.waiting ∧ s.holder = none then
      match s.snap.filter fun _ => s.fresh && c.want ≤ s.covers with
      | some files => some { s with
          waiting := s.waiting.erase c, answers := s.answers ++ [(c, .served files)] }
      | none => some { s with
          waiting := s.waiting.erase c, gen := s.gen + 1
          holder := some (c, ⟨s.gen + 1, s.counted.length, s.stored⟩) }
    else none
  | .load files =>
    match s.holder with
    | some (c, r) =>
      if r.start ⊆ files ∧ files ⊆ s.stored then
        let t := s.install files r
        some { t with
          holder := none
          answers := t.answers ++ [(c, match t.snap with | some f => .served f | none => .failed)] }
      else none
    | none => none
  | .loadFails =>
    match s.holder with
    | some (c, _) => some { s with
        holder := none
        -- Serve stale rather than fail.
        answers := s.answers ++ [(c, match s.snap with | some f => .stale f | none => .failed)] }
    | none => none
  | .loop =>
    match s.loop with
    | .idle => none
    | .gather batch =>
      let batch := batch ++ s.bgDone
      some { s with bgDone := [], loop := if batch = [] then .idle else .begins batch }
    | .begins batch =>
      if s.holder = none then
        some { s with
          gen := s.gen + 1
          loop := .loads batch ⟨s.gen + 1, s.counted.length, s.stored⟩ }
      else none
    | .loads _ _ => none
    | .loaded batch r files =>
      if s.holder = none then some { s.install files r with loop := .tells batch } else none
    | .failed batch =>
      if s.holder = none then some { s with at_ := none, loop := .gather batch } else none
    | .tells [] => some { s with loop := .gather [] }
    | .tells (p :: batch) =>
      some { s with loop := .tells batch, told := s.told ++ [(p, s.snap)] }
  | .loopLoad files =>
    match s.loop with
    | .loads batch r =>
      if r.start ⊆ files ∧ files ⊆ s.stored then
        some { s with loop := .loaded batch r files }
      else none
    | _ => none
  | .loopLoadFails =>
    match s.loop with
    | .loads batch _ => some { s with loop := .failed batch }
    | _ => none

/-- One step of any kind. -/
def Volume.Next (s s' : Volume P) : Prop := ∃ ev, s.step ev = some s'

/-! ### What is asked of a volume -/

/-- A call of `current` that is served what it loaded, or found in place, has every push accepted
before it began; and where snapshots are not kept, any call has every push stored before. -/
def VolumeCall.Answered (refresh : ℤ) (c : VolumeCall P) : Answer P → Prop
  | .served files =>
    (c.current = true → c.accepted ⊆ files) ∧ (refresh ≤ 0 → c.stored ⊆ files)
  | _ => True

/-- A call knows how many pushes it asks for. -/
structure VolumeCall.Sound (refresh : ℤ) (counted stored : List P) (c : VolumeCall P) : Prop where
  want : c.want ≤ counted.length
  accepted : c.accepted ⊆ stored
  stored : c.stored ⊆ stored
  counts : 0 < refresh → c.current = true → c.accepted ⊆ counted.take c.want

/-- A rebuild loads what was counted when it began. -/
structure Rebuild.Sound (gen : ℕ) (counted : List P) (r : Rebuild P) : Prop where
  gen : r.gen ≤ gen
  acc : r.acc ≤ counted.length
  counted : counted.take r.acc ⊆ r.start

/-- A call that holds the mutex has the newest generation, and loads what was stored before it
began. -/
structure HoldsMutex (gen snapGen : ℕ) (counted : List P) (c : VolumeCall P) (r : Rebuild P) :
    Prop where
  rebuild : r.Sound gen counted
  newest : r.gen = gen
  newer : snapGen < gen
  accepted : c.accepted ⊆ r.start
  stored : c.stored ⊆ r.start

/-- What the loop waits for is in place, and in what is about to replace it. -/
structure Has (snap : Option (List P)) (holder : Option (VolumeCall P × Rebuild P))
    (batch : List P) : Prop where
  snap : batch ⊆ snap.getD []
  holder : ∀ c r, holder = some (c, r) → batch ⊆ r.start

/-- A rebuild in the background has what its batch waits for, and so has everything newer. -/
structure Rebuilding (gen snapGen : ℕ) (counted : List P) (snap : Option (List P))
    (holder : Option (VolumeCall P × Rebuild P)) (batch : List P) (r : Rebuild P) : Prop where
  rebuild : r.Sound gen counted
  has : batch ⊆ r.start
  newer : r.gen < snapGen → batch ⊆ snap.getD []
  holder : ∀ c r', holder = some (c, r') → r.gen < r'.gen ∧ batch ⊆ r'.start

/-- What the loop knows, wherever it is. -/
def Volume.LoopSound (s : Volume P) : RebuildLoop P → Prop
  | .idle => True
  | .gather batch | .begins batch | .failed batch => batch ⊆ s.stored
  | .loads batch r =>
    batch ⊆ s.stored ∧ Rebuilding s.gen s.snapGen s.counted s.snap s.holder batch r
  | .loaded batch r files =>
    batch ⊆ s.stored ∧ Rebuilding s.gen s.snapGen s.counted s.snap s.holder batch r ∧
      r.start ⊆ files
  | .tells batch => batch ⊆ s.stored ∧ Has s.snap s.holder batch

/-- The invariant of a volume. -/
structure Volume.Sound (s : Volume P) : Prop where
  clock : ∀ t, s.at_ = some t → t ≤ s.now
  accepted : s.accepted ⊆ s.stored
  counted : s.counted ⊆ s.stored
  counts : 0 < s.refresh → s.accepted ⊆ s.counted
  gen : s.snapGen ≤ s.gen
  covers : s.covers ≤ s.counted.length ∧ s.counted.take s.covers ⊆ s.snap.getD []
  bgDone : s.bgDone ⊆ s.stored
  waiting : ∀ c ∈ s.waiting, c.Sound s.refresh s.counted s.stored
  holder : ∀ c r, s.holder = some (c, r) → HoldsMutex s.gen s.snapGen s.counted c r
  loop : s.LoopSound s.loop
  answers : ∀ a ∈ s.answers, a.1.Answered s.refresh a.2
  told : 0 < s.refresh → ∀ t ∈ s.told, t.1 ∈ t.2.getD []

/-! ### What a push leaves as it is -/

section

omit [DecidableEq P]

theorem take_counted {counted counted' : List P} (h : counted <+: counted') {n : ℕ}
    (hn : n ≤ counted.length) : counted'.take n = counted.take n := by
  obtain ⟨l, rfl⟩ := h
  exact List.take_append_of_le_length hn

theorem VolumeCall.Sound.grows {refresh : ℤ} {counted counted' stored stored' : List P}
    {c : VolumeCall P} (h : c.Sound refresh counted stored) (hc : counted <+: counted')
    (hs : stored ⊆ stored') : c.Sound refresh counted' stored' where
  want := h.want.trans hc.length_le
  accepted := List.Subset.trans h.accepted hs
  stored := List.Subset.trans h.stored hs
  counts hr hcur := by
    rw [take_counted hc h.want]
    exact h.counts hr hcur

theorem Rebuild.Sound.grows {gen gen' : ℕ} {counted counted' : List P} {r : Rebuild P}
    (h : r.Sound gen counted) (hg : gen ≤ gen') (hc : counted <+: counted') :
    r.Sound gen' counted' where
  gen := h.gen.trans hg
  acc := h.acc.trans hc.length_le
  counted := by
    rw [take_counted hc h.acc]
    exact h.counted

theorem Volume.Sound.covers_grows {s : Volume P} (h : s.Sound) {counted : List P}
    (hc : s.counted <+: counted) :
    s.covers ≤ counted.length ∧ counted.take s.covers ⊆ s.snap.getD [] := by
  rw [take_counted hc h.covers.1]
  exact ⟨h.covers.1.trans hc.length_le, h.covers.2⟩

theorem Volume.Sound.holder_grows {s : Volume P} (h : s.Sound) {counted : List P}
    (hc : s.counted <+: counted) (c : VolumeCall P) (r : Rebuild P)
    (hholder : s.holder = some (c, r)) : HoldsMutex s.gen s.snapGen counted c r :=
  { h.holder c r hholder with rebuild := (h.holder c r hholder).rebuild.grows le_rfl hc }

/-- A rebuild that is dropped or installed later than another one is as good as before. -/
theorem Rebuilding.grows {gen gen' snapGen snapGen' : ℕ} {counted counted' : List P}
    {snap snap' : Option (List P)} {holder holder' : Option (VolumeCall P × Rebuild P)}
    {batch : List P} {r : Rebuild P} (h : Rebuilding gen snapGen counted snap holder batch r)
    (hg : gen ≤ gen') (hc : counted <+: counted')
    (newer : r.gen < snapGen' → batch ⊆ snap'.getD [])
    (hholder : ∀ c r', holder' = some (c, r') → r.gen < r'.gen ∧ batch ⊆ r'.start) :
    Rebuilding gen' snapGen' counted' snap' holder' batch r where
  rebuild := h.rebuild.grows hg hc
  has := h.has
  newer := newer
  holder := hholder

/-- What the loop knows stays true where every rebuild in the foreground has it, too. -/
theorem Volume.LoopSound.grows {s s' : Volume P} {l : RebuildLoop P} (h : s.LoopSound l)
    (hs : s.stored ⊆ s'.stored) (hc : s.counted <+: s'.counted) (hg : s.gen ≤ s'.gen)
    (hsnap : ∀ batch r, batch ⊆ s.stored →
      Rebuilding s.gen s.snapGen s.counted s.snap s.holder batch r → r.gen < s'.snapGen →
      batch ⊆ s'.snap.getD [])
    (hholder : ∀ batch r, batch ⊆ s.stored →
      Rebuilding s.gen s.snapGen s.counted s.snap s.holder batch r →
      ∀ c r', s'.holder = some (c, r') → r.gen < r'.gen ∧ batch ⊆ r'.start)
    (hhas : ∀ batch, batch ⊆ s.stored → Has s.snap s.holder batch → Has s'.snap s'.holder batch) :
    s'.LoopSound l := by
  have hr : ∀ {batch r}, batch ⊆ s.stored →
      Rebuilding s.gen s.snapGen s.counted s.snap s.holder batch r →
      Rebuilding s'.gen s'.snapGen s'.counted s'.snap s'.holder batch r := fun hb hr =>
    hr.grows hg hc (hsnap _ _ hb hr) (hholder _ _ hb hr)
  cases l with
  | idle => trivial
  | gather batch => exact List.Subset.trans h hs
  | begins batch => exact List.Subset.trans h hs
  | failed batch => exact List.Subset.trans h hs
  | loads batch r => exact ⟨List.Subset.trans h.1 hs, hr h.1 h.2⟩
  | loaded batch r files => exact ⟨List.Subset.trans h.1 hs, hr h.1 h.2.1, h.2.2⟩
  | tells batch => exact ⟨List.Subset.trans h.1 hs, hhas batch h.1 h.2⟩

/-- A push is nothing the loop depends on. -/
theorem Volume.LoopSound.push {s s' : Volume P} {l : RebuildLoop P} (h : s.LoopSound l)
    (hs : s.stored ⊆ s'.stored) (hc : s.counted <+: s'.counted) (hg : s'.gen = s.gen)
    (hsnapGen : s'.snapGen = s.snapGen) (hsnap : s'.snap = s.snap)
    (hholder : ∀ x, s'.holder = some x → s.holder = some x) : s'.LoopSound l :=
  h.grows hs hc hg.ge (fun _ _ _ hr hlt => hsnap ▸ hr.newer (hsnapGen ▸ hlt))
    (fun _ _ _ hr c r' hh => hr.holder c r' (hholder _ hh))
    fun _ _ hh => ⟨hsnap ▸ hh.snap, fun c r hx => hh.holder c r (hholder _ hx)⟩

/-- **A read that begins to load has everything the loop waits for.** -/
theorem Volume.LoopSound.enter {s s' : Volume P} {l : RebuildLoop P} (h : s.LoopSound l)
    (hs : s'.stored = s.stored) (hc : s'.counted = s.counted) (hg : s'.gen = s.gen + 1)
    (hsnapGen : s'.snapGen = s.snapGen) (hsnap : s'.snap = s.snap) {c : VolumeCall P}
    (hholder : s'.holder = some (c, ⟨s.gen + 1, s.counted.length, s.stored⟩)) :
    s'.LoopSound l := by
  refine h.grows (hs ▸ List.Subset.refl _) (hc ▸ List.prefix_rfl) (hg ▸ Nat.le_succ _)
    (fun _ _ _ hr hlt => hsnap ▸ hr.newer (hsnapGen ▸ hlt)) ?_ fun batch hb hh => ?_
  · intro batch r hb hr c' r' hh
    cases hholder.symm.trans hh
    exact ⟨Nat.lt_succ_of_le hr.rebuild.gen, hb⟩
  · refine ⟨hsnap ▸ hh.snap, fun c' r' hx => ?_⟩
    cases hholder.symm.trans hx
    exact hb

/-- **What a read has loaded has everything the loop waits for.** -/
theorem Volume.LoopSound.load {s s' : Volume P} {l : RebuildLoop P} (h : s.LoopSound l)
    (hs : s'.stored = s.stored) (hc : s'.counted = s.counted) (hg : s'.gen = s.gen)
    {c : VolumeCall P} {r : Rebuild P} {files : List P} (hholder : s.holder = some (c, r))
    (hfiles : r.start ⊆ files) (hsnap : s'.snap = some files) (hno : s'.holder = none) :
    s'.LoopSound l := by
  refine h.grows (hs ▸ List.Subset.refl _) (hc ▸ List.prefix_rfl) hg.ge ?_
    (fun _ _ _ _ c' r' hx => absurd (hno.symm.trans hx) (by simp)) fun batch hb hh => ?_
  · intro batch r' _ hr _
    rw [hsnap]
    exact List.Subset.trans (hr.holder c r hholder).2 hfiles
  · refine ⟨?_, fun c' r' hx => absurd (hno.symm.trans hx) (by simp)⟩
    rw [hsnap]
    exact List.Subset.trans (hh.holder c r hholder) hfiles

end

/-! ### One step -/

omit [DecidableEq P] in
/-- A rebuild that is not older than the snapshot replaces it. -/
theorem Volume.install_eq {s : Volume P} {files : List P} {r : Rebuild P}
    (h : s.snapGen ≤ r.gen) : s.install files r =
      { s with
        snapGen := r.gen, covers := r.acc, snap := some files
        at_ := if r.gen ≤ s.staleThrough then none else some s.now } :=
  if_neg (not_lt.mpr h)

omit [DecidableEq P] in
theorem Volume.install_eq_self {s : Volume P} {files : List P} {r : Rebuild P}
    (h : r.gen < s.snapGen) : s.install files r = s :=
  if_pos h

omit [DecidableEq P] in
theorem Volume.snapGen_le_install (s : Volume P) (files : List P) (r : Rebuild P) :
    s.snapGen ≤ (s.install files r).snapGen := by
  by_cases h : r.gen < s.snapGen
  · rw [install_eq_self h]
  · rw [install_eq (not_lt.mp h)]
    exact not_lt.mp h

omit [DecidableEq P] in
/-- **A snapshot that is found in place covers what was counted.** -/
theorem Volume.Sound.answered {s : Volume P} (h : s.Sound) {c : VolumeCall P} {files : List P}
    (hc : c ∈ s.waiting) (hsnap : s.snap = some files) (hfresh : s.fresh = true)
    (hwant : c.want ≤ s.covers) : c.Answered s.refresh (.served files) := by
  have hpos : 0 < s.refresh := by
    obtain ⟨t, ht, hlt⟩ := (Option.any_eq_true _ _).mp hfresh
    have := h.clock t ht
    have := of_decide_eq_true hlt
    omega
  refine ⟨fun hcur => ?_, fun hle => absurd hpos (not_lt.mpr hle)⟩
  have hcovers := h.covers.2
  rw [hsnap, Option.getD_some] at hcovers
  calc c.accepted ⊆ s.counted.take c.want := (h.waiting c hc).counts hpos hcur
    _ ⊆ s.counted.take s.covers := (List.take_prefix_take_left hwant).subset
    _ ⊆ files := hcovers

/-- A call takes the mutex. -/
theorem Volume.Sound.enter {s s' : Volume P} (h : s.Sound) {c : VolumeCall P}
    (hs : s.step (.enter c) = some s') : s'.Sound := by
  simp only [Volume.step] at hs
  split at hs
  case isFalse => cases hs
  rename_i hc
  have hwaiting : ∀ c' ∈ s.waiting.erase c, c'.Sound s.refresh s.counted s.stored :=
    fun c' hc' => h.waiting c' (List.mem_of_mem_erase hc')
  split at hs
  · rename_i files hfiles
    obtain ⟨hsnap, hfresh⟩ := Option.filter_eq_some_iff.mp hfiles
    rw [Bool.and_eq_true, decide_eq_true_eq] at hfresh
    cases hs
    refine { h with waiting := hwaiting, answers := fun a ha => ?_ }
    rcases List.mem_append.mp ha with ha | ha
    · exact h.answers a ha
    · rw [List.mem_singleton.mp ha]
      exact h.answered hc.1 hsnap hfresh.1 hfresh.2
  · cases hs
    refine { h with
      gen := h.gen.trans (Nat.le_succ _), waiting := hwaiting, holder := ?_
      loop := h.loop.enter rfl rfl rfl rfl rfl rfl }
    rintro c' r hx
    cases Option.some.inj hx
    exact
      { rebuild := ⟨le_rfl, le_rfl, by simpa using h.counted⟩
        newest := rfl
        newer := Nat.lt_succ_of_le h.gen
        accepted := (h.waiting c hc.1).accepted
        stored := (h.waiting c hc.1).stored }

/-- The load of a call is done. -/
theorem Volume.Sound.load {s s' : Volume P} (h : s.Sound) {files : List P}
    (hs : s.step (.load files) = some s') : s'.Sound := by
  simp only [Volume.step] at hs
  split at hs
  case h_2 => cases hs
  rename_i c r hholder
  split at hs
  case isFalse => cases hs
  rename_i hfiles
  have hr := h.holder c r hholder
  rw [install_eq (hr.newest ▸ hr.newer.le)] at hs
  cases hs
  refine { h with
    clock := ?_, gen := hr.rebuild.gen, holder := fun _ _ hx => absurd hx (by simp)
    covers := ⟨hr.rebuild.acc, List.Subset.trans hr.rebuild.counted hfiles.1⟩
    loop := h.loop.load rfl rfl rfl hholder hfiles.1 rfl rfl, answers := fun a ha => ?_ }
  · intro t ht
    split at ht
    · cases ht
    · exact (Option.some.inj ht).ge
  · rcases List.mem_append.mp ha with ha | ha
    · exact h.answers a ha
    · rw [List.mem_singleton.mp ha]
      exact ⟨fun _ => List.Subset.trans hr.accepted hfiles.1,
        fun _ => List.Subset.trans hr.stored hfiles.1⟩

/-- The load of a call has failed. -/
theorem Volume.Sound.loadFails {s s' : Volume P} (h : s.Sound)
    (hs : s.step .loadFails = some s') : s'.Sound := by
  simp only [Volume.step] at hs
  split at hs
  case h_2 => cases hs
  rename_i c r hholder
  cases hs
  refine { h with
    holder := fun _ _ hx => absurd hx (by simp)
    loop := h.loop.push (List.Subset.refl _) List.prefix_rfl rfl rfl rfl (by simp)
    answers := fun a ha => ?_ }
  rcases List.mem_append.mp ha with ha | ha
  · exact h.answers a ha
  · rw [List.mem_singleton.mp ha]
    cases s.snap <;> trivial

/-- The loop goes on. -/
theorem Volume.Sound.loop_step {s s' : Volume P} (h : s.Sound)
    (hs : s.step .loop = some s') : s'.Sound := by
  have hloop := h.loop
  simp only [Volume.step] at hs
  cases hl : s.loop with
  | idle =>
    rw [hl] at hs
    cases hs
  | gather batch =>
    rw [hl] at hs hloop
    cases hs
    have hbatch : batch ++ s.bgDone ⊆ s.stored := List.append_subset.mpr ⟨hloop, h.bgDone⟩
    refine { h with bgDone := List.nil_subset _, loop := ?_ }
    by_cases hnil : batch ++ s.bgDone = []
    · simp only [hnil, ↓reduceIte]
      trivial
    · simp only [hnil, ↓reduceIte]
      exact hbatch
  | begins batch =>
    rw [hl] at hloop
    simp only [hl] at hs
    split at hs
    case isFalse => cases hs
    rename_i hno
    cases hs
    exact { h with
      gen := h.gen.trans (Nat.le_succ _)
      holder := fun _ _ hx => absurd (hno.symm.trans hx) (by simp)
      loop := ⟨hloop,
        { rebuild := ⟨le_rfl, le_rfl, by simpa using h.counted⟩
          has := hloop
          newer := fun hlt => absurd (h.gen.trans (Nat.le_succ _)) (not_le.mpr hlt)
          holder := fun _ _ hx => absurd (hno.symm.trans hx) (by simp) }⟩ }
  | loads batch r =>
    rw [hl] at hs
    cases hs
  | loaded batch r files =>
    rw [hl] at hloop
    simp only [hl] at hs
    split at hs
    case isFalse => cases hs
    rename_i hno
    cases hs
    obtain ⟨hbatch, hr, hfiles⟩ := hloop
    by_cases hlt : r.gen < s.snapGen
    · rw [install_eq_self hlt]
      exact { h with loop := ⟨hbatch, hr.newer hlt,
        fun _ _ hx => absurd (hno.symm.trans hx) (by simp)⟩ }
    · rw [install_eq (not_lt.mp hlt)]
      refine { h with
        clock := ?_, gen := hr.rebuild.gen
        covers := ⟨hr.rebuild.acc, List.Subset.trans hr.rebuild.counted hfiles⟩
        holder := fun _ _ hx => absurd (hno.symm.trans hx) (by simp)
        loop := ⟨hbatch, List.Subset.trans hr.has hfiles,
          fun _ _ hx => absurd (hno.symm.trans hx) (by simp)⟩ }
      intro t ht
      split at ht
      · cases ht
      · exact (Option.some.inj ht).ge
  | failed batch =>
    rw [hl] at hloop
    simp only [hl] at hs
    split at hs
    case isFalse => cases hs
    cases hs
    exact { h with clock := fun _ ht => absurd ht (by simp), loop := hloop }
  | tells batch =>
    rw [hl] at hs hloop
    cases batch with
    | nil =>
      cases hs
      exact { h with loop := List.nil_subset _ }
    | cons p batch =>
      cases hs
      obtain ⟨hstored, hhas⟩ := hloop
      refine { h with
        loop := ⟨(List.cons_subset.mp hstored).2,
          (List.cons_subset.mp hhas.snap).2, fun c r hx =>
            (List.cons_subset.mp (hhas.holder c r hx)).2⟩
        told := fun hpos t ht => ?_ }
      rcases List.mem_append.mp ht with ht | ht
      · exact h.told hpos t ht
      · rw [List.mem_singleton.mp ht]
        exact (List.cons_subset.mp hhas.snap).1

omit [DecidableEq P] in
/-- A push is counted. -/
theorem Volume.Sound.count {s : Volume P} (h : s.Sound) {p : P} (hp : p ∈ s.stored) :
    ({ s with accepted := p :: s.accepted, counted := s.counted ++ [p] } : Volume P).Sound :=
  have hc : s.counted <+: s.counted ++ [p] := List.prefix_append _ _
  { h with
    accepted := List.cons_subset.mpr ⟨hp, h.accepted⟩
    counted := List.append_subset.mpr ⟨h.counted, List.cons_subset.mpr ⟨hp, List.nil_subset _⟩⟩
    counts := fun hpos => List.cons_subset.mpr
      ⟨List.mem_append_right _ List.mem_cons_self, List.Subset.trans (h.counts hpos) hc.subset⟩
    covers := h.covers_grows hc
    waiting := fun c hc' => (h.waiting c hc').grows hc (List.Subset.refl _)
    holder := h.holder_grows hc
    loop := h.loop.push (List.Subset.refl _) hc rfl rfl rfl fun _ hx => hx }

/-- A push is announced. -/
theorem Volume.Sound.refreshThen {s s' : Volume P} (h : s.Sound) {p : P}
    (hs : s.step (.refreshThen p) = some s') : s'.Sound := by
  simp only [Volume.step] at hs
  split at hs
  case isFalse => cases hs
  rename_i hp
  split at hs
  · rename_i hle
    cases hs
    exact { h with
      accepted := List.cons_subset.mpr ⟨hp, h.accepted⟩
      counts := fun hpos => absurd hpos (not_lt.mpr hle)
      told := fun hpos => absurd hpos (not_lt.mpr hle) }
  · cases hs
    have hcount := h.count hp
    refine { hcount with
      bgDone := List.append_subset.mpr ⟨h.bgDone, List.cons_subset.mpr ⟨hp, List.nil_subset _⟩⟩
      loop := ?_ }
    by_cases hidle : s.loop = .idle
    · simp only [hidle, ↓reduceIte]
      exact List.nil_subset _
    · simp only [hidle, ↓reduceIte]
      exact hcount.loop

/-- **A step keeps the invariant of a volume.** -/
theorem Volume.Sound.step {s s' : Volume P} (h : s.Sound) (hs : s.Next s') : s'.Sound := by
  obtain ⟨ev, hs⟩ := hs
  cases ev with
  | tick t =>
    cases hs
    exact { h with clock := fun u hu => (h.clock u hu).trans (by simp) }
  | store p =>
    cases hs
    have hp : s.stored ⊆ p :: s.stored := List.subset_cons_self _ _
    exact { h with
      accepted := List.Subset.trans h.accepted hp
      counted := List.Subset.trans h.counted hp
      bgDone := List.Subset.trans h.bgDone hp
      waiting := fun c hc => (h.waiting c hc).grows List.prefix_rfl hp
      loop := h.loop.push hp List.prefix_rfl rfl rfl rfl fun _ hx => hx }
  | beginRefresh p =>
    simp only [Volume.step] at hs
    split at hs
    case isFalse => cases hs
    rename_i hp
    cases hs
    exact h.count hp
  | refreshThen p => exact h.refreshThen hs
  | invalidate =>
    simp only [Volume.step] at hs
    split at hs
    case isFalse => cases hs
    cases hs
    exact { h with clock := fun _ ht => absurd ht (by simp) }
  | ask current =>
    cases hs
    refine { h with waiting := fun c hc => ?_ }
    rcases List.mem_cons.mp hc with rfl | hc
    · refine ⟨?_, h.accepted, List.Subset.refl _, fun hpos hcur => ?_⟩
      · cases current <;> simp
      · simpa [show current = true from hcur] using h.counts hpos
    · exact h.waiting c hc
  | enter c => exact h.enter hs
  | load files => exact h.load hs
  | loadFails => exact h.loadFails hs
  | loop => exact h.loop_step hs
  | loopLoad files =>
    have hloop := h.loop
    simp only [Volume.step] at hs
    split at hs
    case h_2 => cases hs
    rename_i batch r hl
    rw [hl] at hloop
    split at hs
    case isFalse => cases hs
    rename_i hfiles
    cases hs
    exact { h with loop := ⟨hloop.1, hloop.2, hfiles.1⟩ }
  | loopLoadFails =>
    have hloop := h.loop
    simp only [Volume.step] at hs
    split at hs
    case h_2 => cases hs
    rename_i batch r hl
    rw [hl] at hloop
    cases hs
    exact { h with loop := hloop.1 }

/-- **The generation of the snapshot in place never decreases.** Only an install changes it. -/
theorem Volume.snapGen_le_step {s s' : Volume P} (hs : s.Next s') : s.snapGen ≤ s'.snapGen := by
  obtain ⟨ev, hs⟩ := hs
  have hinstall := s.snapGen_le_install
  cases ev <;> grind [Volume.step]

omit [DecidableEq P] in
@[simp] theorem Volume.refresh_install (s : Volume P) (files : List P) (r : Rebuild P) :
    (s.install files r).refresh = s.refresh := by
  by_cases h : r.gen < s.snapGen
  · rw [install_eq_self h]
  · rw [install_eq (not_lt.mp h)]

theorem Volume.refresh_step {s s' : Volume P} (hs : s.Next s') : s'.refresh = s.refresh := by
  obtain ⟨ev, hs⟩ := hs
  have hinstall := s.refresh_install
  cases ev <;> grind [Volume.step]

/-! ### Runs -/

omit [DecidableEq P] in
theorem Volume.sound_init (refresh : ℤ) : ({ refresh } : Volume P).Sound where
  clock _ ht := absurd ht (by simp)
  accepted := List.Subset.refl _
  counted := List.Subset.refl _
  counts _ := List.Subset.refl _
  gen := le_rfl
  covers := ⟨le_rfl, List.Subset.refl _⟩
  bgDone := List.Subset.refl _
  waiting _ hc := absurd hc (by simp)
  holder _ _ hx := absurd hx (by simp)
  loop := trivial
  answers _ ha := absurd ha (by simp)
  told _ _ ht := absurd ht (by simp)

/-- **A read has every push that was accepted before it**, where it is served what it loaded or
what it found. The generation in place only grows, and where snapshots are kept, watchers are told
of a push when it is in the snapshot. -/
theorem reads_after_pushes (refresh : ℤ) {s s' : Volume P}
    (h : Relation.ReflTransGen Volume.Next { refresh } s)
    (h' : Relation.ReflTransGen Volume.Next s s') :
    s.snapGen ≤ s'.snapGen ∧ (∀ a ∈ s'.answers, a.1.Answered refresh a.2) ∧
      (0 < refresh → ∀ t ∈ s'.told, t.1 ∈ t.2.getD []) := by
  have hrefresh : s'.refresh = refresh :=
    @Runs.invariant _ _ (fun t => t.refresh = refresh) _ _ (h.trans h')
      (fun _ _ hs hstep => (Volume.refresh_step hstep).trans hs) rfl
  have hsound : s'.Sound :=
    Runs.invariant (h.trans h') (fun _ _ => Volume.Sound.step) (Volume.sound_init refresh)
  have hgen : s.snapGen ≤ s'.snapGen :=
    @Runs.kept _ _ (fun _ => True) (fun s s' => s.snapGen ≤ s'.snapGen) _ _ h' (fun _ => le_rfl)
      (fun _ _ _ => le_trans) (fun _ _ _ _ => trivial)
      (fun _ _ _ => Volume.snapGen_le_step) trivial
  exact ⟨hgen, hrefresh ▸ hsound.answers, hrefresh ▸ hsound.told⟩

/-- A push is stored, its watchers are told, and a read finds it. -/
theorem read_after_push : ∃ s : Volume ℕ,
    s.answers = [(⟨true, 1, [7], [7]⟩, .served [7])] ∧ s.told = [(7, some [7])] ∧
      (∀ a ∈ s.answers, a.1.Answered 1 a.2) ∧ ((0 : ℤ) < 1 → ∀ t ∈ s.told, t.1 ∈ t.2.getD []) := by
  have hrun : ∃ s : Volume ℕ, Relation.ReflTransGen Volume.Next { refresh := 1 } s ∧
      s.answers = [(⟨true, 1, [7], [7]⟩, .served [7])] ∧ s.told = [(7, some [7])] := by
    refine ⟨_, .head ⟨.store 7, rfl⟩ <| .head ⟨.refreshThen 7, rfl⟩ <| .head ⟨.loop, rfl⟩ <|
      .head ⟨.loop, rfl⟩ <| .head ⟨.loopLoad [7], rfl⟩ <| .head ⟨.loop, rfl⟩ <|
      .head ⟨.loop, rfl⟩ <| .head ⟨.ask true, rfl⟩ <|
      .single ⟨.enter ⟨true, 1, [7], [7]⟩, rfl⟩, rfl, rfl⟩
  obtain ⟨s, hs, hanswers, htold⟩ := hrun
  exact ⟨s, hanswers, htold, (reads_after_pushes 1 .refl hs).2⟩

/-- A read whose load fails may be served a snapshot without a push accepted before it; and where
snapshots are not kept, watchers are told of a push before it is in any snapshot. -/
theorem read_may_be_stale :
    (¬ ∀ s : Volume ℕ, Relation.ReflTransGen Volume.Next { refresh := 1 } s →
      ∀ a ∈ s.answers, a.1.current = true → ∀ files, a.2.files = some files →
        a.1.accepted ⊆ files) ∧
    ¬ ∀ s : Volume ℕ, Relation.ReflTransGen Volume.Next { refresh := 0 } s →
      ∀ t ∈ s.told, t.1 ∈ t.2.getD [] := by
  constructor
  · intro h
    have hrun : ∃ s : Volume ℕ, Relation.ReflTransGen Volume.Next { refresh := 1 } s ∧
        (⟨true, 1, [7], [7]⟩, .stale []) ∈ s.answers := by
      refine ⟨_, .head ⟨.ask false, rfl⟩ <| .head ⟨.enter ⟨false, 0, [], []⟩, rfl⟩ <|
        .head ⟨.load [], rfl⟩ <| .head ⟨.store 7, rfl⟩ <| .head ⟨.refreshThen 7, rfl⟩ <|
        .head ⟨.ask true, rfl⟩ <| .head ⟨.enter ⟨true, 1, [7], [7]⟩, rfl⟩ <|
        .single ⟨.loadFails, rfl⟩, ?_⟩
      exact List.mem_append_right _ (List.mem_singleton.mpr rfl)
    obtain ⟨s, hs, ha⟩ := hrun
    have hsub := h s hs _ ha rfl [] rfl
    exact absurd (hsub List.mem_cons_self) (by simp)
  · intro h
    have hrun : ∃ s : Volume ℕ, Relation.ReflTransGen Volume.Next { refresh := 0 } s ∧
        s.told = [(7, none)] :=
      ⟨_, .head ⟨.store 7, rfl⟩ <| .single ⟨.refreshThen 7, rfl⟩, rfl⟩
    obtain ⟨s, hs, htold⟩ := hrun
    have hmem := h s hs (7, none) (by simp [htold])
    exact absurd hmem (by simp)

end Beardrive
