import Beardrive.Webapp.CommitBase

/-!
# The hub's own journal

Several hub processes append batches to one journal. Each attempt reads the journal at a version,
reads all journals there are, numbers its batch behind the greatest number it has read of the
hub's own, and writes the journal back if nobody has written it since. A write that goes through
was therefore numbered from the journal it extends, whatever has happened meanwhile to others.

The clocks are taken from all journals, the members' own included, which may hold any. They
saturate, so a batch that finds the greatest clock stored shares it; below that, the batch comes
behind everything it was stamped against.

## Main definitions

* `Ack` — an append that was acknowledged: the attempt, and the line it wrote
* `HubLog` — every interleaving, with the appends acknowledged so far

## Main results

* `placed_of_stamp` — no field of a stamped op wraps
* `Numbered.step` — what one step keeps of the journal
* `acknowledged_once` — every acknowledged batch is in the journal, in one piece and once
-/

namespace Beardrive

/-! ### Numbering a batch -/

theorem seq_of_mem_stampFrom {device : HubDevice} {now : Time} {lam seq : ℤ} {ops : List Op}
    {u : Op} (h : u ∈ stampFrom device now lam seq ops) :
    seq < u.seq ∧ u.seq ≤ seq + ops.length := by
  induction ops generalizing lam seq with
  | nil => cases h
  | cons op ops ih =>
    rw [List.length_cons]
    rcases List.mem_cons.mp h with rfl | h
    · have hseq : (op.placed device now (nextLamport lam) (seq + 1)).seq = seq + 1 := rfl
      omega
    · have := ih h
      omega

theorem stampFrom_increasing (device : HubDevice) (now : Time) (lam seq : ℤ) (ops : List Op) :
    (stampFrom device now lam seq ops).Pairwise fun a b => a.seq < b.seq := by
  induction ops generalizing lam seq with
  | nil => exact .nil
  | cons op ops ih =>
    exact .cons (fun u hu => (seq_of_mem_stampFrom hu).1) (ih (nextLamport lam) (seq + 1))

theorem nextLamport_le {cur : ℤ} (h : cur ≤ maxInt64) : nextLamport cur ≤ maxInt64 := by
  rw [nextLamport]
  split <;> omega

theorem lamport_le_of_mem_stampFrom {device : HubDevice} {now : Time} {lam seq : ℤ} {ops : List Op}
    (hlam : lam ≤ maxInt64) {u : Op} (h : u ∈ stampFrom device now lam seq ops) :
    u.lamport ≤ maxInt64 := by
  induction ops generalizing lam seq with
  | nil => cases h
  | cons op ops ih =>
    rcases List.mem_cons.mp h with rfl | h
    · exact nextLamport_le hlam
    · exact ih (nextLamport_le hlam) h

theorem size_of_mem_stampFrom {device : HubDevice} {now : Time} {lam seq : ℤ} {ops : List Op}
    {u : Op} (h : u ∈ stampFrom device now lam seq ops) : ∃ op ∈ ops, op.size = u.size := by
  induction ops generalizing lam seq with
  | nil => cases h
  | cons op ops ih =>
    rcases List.mem_cons.mp h with rfl | h
    · exact ⟨op, List.mem_cons_self, rfl⟩
    · obtain ⟨o, ho, hsize⟩ := ih h
      exact ⟨o, List.mem_cons_of_mem _ ho, hsize⟩

theorem storedLamport_nonneg (sourced : List SourcedOp) : 0 ≤ storedLamport sourced := by
  induction sourced using List.reverseRecOn with
  | nil => exact le_rfl
  | append_singleton sourced so ih =>
    rw [storedLamport, List.foldl_append]
    exact ih.trans (le_max_left _ _)

theorem storedLamport_le {sourced : List SourcedOp}
    (h : ∀ so ∈ sourced, so.op.lamport ≤ maxInt64) : storedLamport sourced ≤ maxInt64 := by
  have hlt : storedLamport sourced < maxInt64 + 1 :=
    storedLamport_lt (by decide) fun so hso => Int.lt_add_one_of_le (h so hso)
  omega

theorem storedSeq_append_singleton (device : HubDevice) (sourced : List SourcedOp)
    (so : SourcedOp) : storedSeq device (sourced ++ [so]) =
      if so.origin = device.id then max (storedSeq device sourced) so.op.seq
      else storedSeq device sourced := by
  rw [storedSeq, List.foldl_append]
  rfl

theorem storedSeq_nonneg (device : HubDevice) (sourced : List SourcedOp) :
    0 ≤ storedSeq device sourced := by
  induction sourced using List.reverseRecOn with
  | nil => exact le_rfl
  | append_singleton sourced so ih =>
    rw [storedSeq_append_singleton]
    split
    · exact ih.trans (le_max_left _ _)
    · exact ih

theorem seq_le_storedSeq {device : HubDevice} {sourced : List SourcedOp} {so : SourcedOp}
    (h : so ∈ sourced) (horigin : so.origin = device.id) :
    so.op.seq ≤ storedSeq device sourced := by
  induction sourced using List.reverseRecOn with
  | nil => cases h
  | append_singleton sourced last ih =>
    rw [storedSeq_append_singleton]
    rcases List.mem_append.mp h with h | h
    · split
      · exact (ih h).trans (le_max_left _ _)
      · exact ih h
    · rw [← List.mem_singleton.mp h, if_pos horigin]
      exact le_max_right _ _

/-- What stamping makes of a batch, in numbers. -/
structure Placed (device : HubDevice) (sourced : List SourcedOp) (stamped : List Op) : Prop where
  increasing : stamped.Pairwise fun a b => a.seq < b.seq
  seq : ∀ u ∈ stamped, storedSeq device sourced < u.seq ∧ u.seq ≤ maxInt64
  lamport : ∀ u ∈ stamped, 0 < u.lamport ∧ u.lamport ≤ maxInt64
  fits : ∀ u ∈ stamped, u.Fits

/-- **No field of a stamped op wraps.** -/
theorem placed_of_stamp {device : HubDevice} {now : Time} {sourced : List SourcedOp}
    {ops stamped : List Op} (hsourced : ∀ so ∈ sourced, so.op.Fits) (hops : ∀ op ∈ ops, op.Fits)
    (h : stamp device now sourced ops = some stamped) : Placed device sourced stamped := by
  rw [stamp] at h
  split at h
  · cases h
  rename_i hroom
  obtain rfl := Option.some.inj h
  have hmax : maxInt64 = 2 ^ 63 - 1 := rfl
  have hlam : storedLamport sourced ≤ maxInt64 := storedLamport_le fun so hso => by
    have := (hsourced so hso).lamport.2
    omega
  have hseq : ∀ u ∈ stampFrom device now (storedLamport sourced) (storedSeq device sourced) ops,
      storedSeq device sourced < u.seq ∧ u.seq ≤ maxInt64 := by
    intro u hu
    obtain ⟨hlt, hle⟩ := seq_of_mem_stampFrom hu
    exact ⟨hlt, by omega⟩
  have hlamport : ∀ u ∈ stampFrom device now (storedLamport sourced) (storedSeq device sourced) ops,
      0 < u.lamport ∧ u.lamport ≤ maxInt64 := by
    intro u hu
    have hpos : 0 < nextLamport (storedLamport sourced) := by
      have := storedLamport_nonneg sourced
      rw [nextLamport]
      split <;> omega
    exact ⟨hpos.trans_le (lamport_of_mem_stampFrom hu), lamport_le_of_mem_stampFrom hlam hu⟩
  refine ⟨stampFrom_increasing device now _ _ ops, hseq, hlamport, fun u hu => ⟨?_, ?_, ?_⟩⟩
  · have := hseq u hu
    have := storedSeq_nonneg device sourced
    omega
  · have := hlamport u hu
    omega
  · obtain ⟨op, hop, hsize⟩ := size_of_mem_stampFrom hu
    exact hsize ▸ (hops op hop).size

/-! ### The line of a batch -/

/-- An op that is read has the number and the clock it was written with. -/
theorem place_of_decoded {op o : Op} (hfits : op.Fits) (h : op.decoded = some o) :
    o.seq = op.seq ∧ o.lamport = op.lamport := by
  obtain ⟨line, hline, -⟩ := Option.bind_eq_some_iff.mp h
  have hkind : Kind.ofText op.wire.kind = some op.kind := Kind.ofText_text op.kind
  rw [decoded_eq_wire hfits hline, PathRaw.op, hkind, Option.map_some] at h
  obtain rfl := Option.some.inj h
  exact ⟨rfl, rfl⟩

/-- The ops of a line are read one by one. -/
theorem forall₂_decoded {ops batch : List Op} (h : batch.map some = ops.map Op.decoded) :
    List.Forall₂ (fun o op => op.decoded = some o) batch ops := by
  have hself : List.Forall₂ (fun (x y : Option Op) => y = x) (batch.map some) (ops.map Op.decoded) := by
    rw [h]
    exact List.forall₂_same.mpr fun _ _ => rfl
  simpa [List.forall₂_map_left_iff, List.forall₂_map_right_iff] using hself

theorem seqs_of_decoded {ops batch : List Op} (hfits : ∀ op ∈ ops, op.Fits)
    (h : batch.map some = ops.map Op.decoded) : batch.map (·.seq) = ops.map (·.seq) := by
  have hread := forall₂_decoded h
  clear h
  induction hread with
  | nil => rfl
  | cons hdecoded _ ih =>
    rw [List.map_cons, List.map_cons, (place_of_decoded (hfits _ List.mem_cons_self) hdecoded).1,
      ih fun op hop => hfits op (List.mem_cons_of_mem _ hop)]

theorem exists_of_mem_decoded {ops batch : List Op} (h : batch.map some = ops.map Op.decoded)
    {u : Op} (hu : u ∈ batch) : ∃ op ∈ ops, op.decoded = some u := by
  have hmem : some u ∈ ops.map Op.decoded := h ▸ List.mem_map_of_mem hu
  obtain ⟨op, hop, hdecoded⟩ := List.mem_map.mp hmem
  exact ⟨op, hop, hdecoded⟩

/-- A journal whose last line is whole. -/
def EndsLine (data : GoString) : Prop := data = [] ∨ ∃ front, data = front ++ [0x0A]

theorem EndsLine.append {a b : GoString} (ha : EndsLine a) (hb : EndsLine b) :
    EndsLine (a ++ b) := by
  rcases hb with rfl | ⟨front, rfl⟩
  · rwa [List.append_nil]
  · exact .inr ⟨a ++ front, (List.append_assoc _ _ _).symm⟩

theorem parse_append_of_endsLine {a : GoString} (ha : EndsLine a) (b : GoString) :
    parse (a ++ b) = parse a ++ parse b := by
  rcases ha with rfl | ⟨front, rfl⟩
  · rfl
  · rw [List.append_assoc, List.singleton_append, parse_line_break, parse_line_break, parse_nil,
      List.append_nil]

theorem endsLine_of_marshal {ops : List Op} {line : GoString} (h : marshal ops = some line) :
    EndsLine line := by
  induction ops generalizing line with
  | nil => exact .inl (Option.some.inj h).symm
  | cons op ops ih =>
    simp only [marshal, Option.bind_eq_bind, Option.bind_eq_some_iff, Option.pure_def,
      Option.some.injEq] at h
    obtain ⟨text, -, rest, hrest, rfl⟩ := h
    have hone : EndsLine (text ++ [0x0A]) := .inr ⟨text, rfl⟩
    have := hone.append (ih hrest)
    rwa [List.append_assoc, List.singleton_append] at this

/-! ### What was acknowledged -/

/-- An append that was acknowledged: what it was stamped against, and what it wrote. -/
structure Ack where
  attempt : Attempt
  line : GoString

/-- The ops of the append, as every reader has them. -/
def Ack.batch (k : Ack) : List Op := parse k.line

section

variable {ι : Type*} [DecidableEq ι] {device : HubDevice} {s s' : Hubs ι} {acks : List Ack}

/-- The ops on their way are made of machine integers. -/
def Hubs.Typed (s : Hubs ι) : Prop := ∀ i a, s.attempt i = some a → ∀ op ∈ a.write.ops, op.Fits

/-- The journal an attempt writes back, and the version it has then. -/
def Hubs.written (device : HubDevice) (s : Hubs ι) (i : ι) (a : Attempt) (line : GoString) :
    Hubs ι :=
  { s.set i none with
    journals := s.journals.put device.id (a.existing ++ line), version := s.version + 1 }

/-- Every interleaving from a journal that is not there yet. A write that goes through is
acknowledged, or its answer is lost. -/
inductive HubLog (device : HubDevice) : Hubs ι → List Ack → Prop
  | start (s : Hubs ι) (idle : ∀ i, s.attempt i = none) (new : s.journals.body device.id = []) :
    HubLog device s []
  | step {s s' : Hubs ι} {acks : List Ack} (hs : HubLog device s acks) (h : HubStep device s s')
      (typed : s'.Typed) : HubLog device s' acks
  | acked {s : Hubs ι} {acks : List Ack} (hs : HubLog device s acks) (i : ι) (a : Attempt)
      (line : GoString) (ha : s.attempt i = some a) (hline : a.line = some line)
      (current : a.version = s.version) :
    HubLog device (s.written device i a line) (acks ++ [⟨a, line⟩])
  | push {s : Hubs ι} {acks : List Ack} (hs : HubLog device s acks) (d body : GoString)
      (member : d ≠ device.id) : HubLog device (s.push d body) acks

/-- What an attempt that can still go through has read of the hub's own journal, and where its line
comes from. -/
structure Attempt.Reads (device : HubDevice) (s : Hubs ι) (a : Attempt) : Prop where
  version : a.version ≤ s.version
  existing : a.version = s.version → a.existing = s.journals.body device.id
  seen : a.version = s.version → ∀ x, a.knows device.id = some x → x = s.journals.body device.id
  decided : ∀ line, a.line = some line → (∃ l, a.listing = some l ∧ ∀ k ∈ l, (a.got k).isSome) ∧
    ∃ now, a.next device now = some line
  typed : ∀ op ∈ a.write.ops, op.Fits

/-- Where the line of an append comes from. -/
structure Ack.Stamped (device : HubDevice) (k : Ack) : Prop where
  next : ∃ now, k.attempt.next device now = some k.line
  typed : ∀ op ∈ k.attempt.write.ops, op.Fits

/-- The journal is whole lines, numbered upwards, and made of blocks of which those of the
acknowledged appends are some. -/
structure Numbered (device : HubDevice) (s : Hubs ι) (acks : List Ack) : Prop where
  ends : EndsLine (s.journals.body device.id)
  increasing : (parse (s.journals.body device.id)).Pairwise fun a b => a.seq < b.seq
  blocks : ∃ blocks : List (List Op), parse (s.journals.body device.id) = blocks.flatten ∧
    (acks.map Ack.batch).Sublist blocks
  reads : ∀ i a, s.attempt i = some a → a.Reads device s
  stamped : ∀ k ∈ acks, k.Stamped device

omit [DecidableEq ι] in
theorem fits_of_mem_sourced {a : Attempt} {so : SourcedOp} (h : so ∈ a.sourced) : so.op.Fits := by
  obtain ⟨k, -, hk⟩ := List.mem_flatMap.mp h
  obtain ⟨op, hop, rfl⟩ := List.mem_map.mp hk
  exact fits_of_mem_parse hop

/-- **The ops of a line are those of the write**, numbered from what the attempt has read. -/
theorem stamped_of_next {a : Attempt} {now : Time} {line : GoString}
    (htyped : ∀ op ∈ a.write.ops, op.Fits) (h : a.next device now = some line) :
    ∃ stamped, stamp device now a.sourced a.write.ops = some stamped ∧
      Placed device a.sourced stamped ∧
        (parse line).map some = stamped.map Op.decoded ∧ EndsLine line := by
  rw [Attempt.next] at h
  split at h
  · obtain ⟨stamped, hstamp, hmarshal⟩ := Option.bind_eq_some_iff.mp h
    have hspec := placed_of_stamp (fun _ => fits_of_mem_sourced) htyped hstamp
    exact ⟨stamped, hstamp, hspec, parse_marshal hspec.fits hmarshal, endsLine_of_marshal hmarshal⟩
  · cases h

omit [DecidableEq ι] in
/-- An attempt that has read everything has read the journal it extends. -/
theorem Attempt.Reads.seq_le {a : Attempt} (h : a.Reads device s) (hv : a.version = s.version)
    {line : GoString} (hline : a.line = some line) :
    ∀ o ∈ parse (s.journals.body device.id), o.seq ≤ storedSeq device a.sourced := by
  intro o ho
  obtain ⟨⟨l, hl, hgot⟩, -⟩ := h.decided line hline
  by_cases hmem : device.id ∈ l
  · obtain ⟨x, hx⟩ := Option.isSome_iff_exists.mp (hgot device.id hmem)
    have hbody := h.seen hv x ((knows_of_listed hl hmem).trans hx)
    have hso : (⟨o, device.id⟩ : SourcedOp) ∈ a.sourced := by
      rw [sourced, hl, Option.getD_some, sourcedOps]
      refine List.mem_flatMap.mpr ⟨device.id, hmem, List.mem_map.mpr ⟨o, ?_, rfl⟩⟩
      rw [hx, Option.getD_some, hbody]
      exact ho
    exact seq_le_storedSeq hso rfl
  · have hbody := h.seen hv [] (knows_of_not_listed hl hmem)
    rw [← hbody] at ho
    cases ho

/-! ### One step -/

omit [DecidableEq ι] in
/-- What an attempt knows does not depend on the others. -/
theorem Attempt.Reads.congr {a : Attempt} (h : a.Reads device s)
    (hbody : s'.journals.body device.id = s.journals.body device.id)
    (hversion : s'.version = s.version) : a.Reads device s' where
  version := hversion ▸ h.version
  existing hv := hbody ▸ h.existing (hv.trans hversion)
  seen hv := hbody ▸ h.seen (hv.trans hversion)
  decided := h.decided
  typed := h.typed

theorem Numbered.set (h : Numbered device s acks) (i : ι) {a : Option Attempt}
    (ha : ∀ a', a = some a' → a'.Reads device s) : Numbered device (s.set i a) acks where
  ends := h.ends
  increasing := h.increasing
  blocks := h.blocks
  stamped := h.stamped
  reads j a' hj := by
    by_cases hji : j = i
    · subst hji
      exact (ha a' ((s.set_attempt_self j a).symm.trans hj)).congr rfl rfl
    · exact (h.reads j a' ((s.set_attempt_of_ne a hji).symm.trans hj)).congr rfl rfl

omit [DecidableEq ι] in
theorem reads_reread (w : Write) (tries : ℕ) (htyped : ∀ op ∈ w.ops, op.Fits) :
    (s.reread device w tries).Reads device s where
  version := le_rfl
  existing _ := rfl
  seen _ x hx := by cases hx
  decided line hline := by cases hline
  typed := htyped

/-- **A line that is written extends the numbers.** -/
theorem Numbered.written (h : Numbered device s acks) {i : ι} {a : Attempt} {line : GoString}
    (ha : s.attempt i = some a) (hline : a.line = some line) (hv : a.version = s.version) :
    Numbered device (s.written device i a line) acks ∧
      Numbered device (s.written device i a line) (acks ++ [⟨a, line⟩]) := by
  have hreads := h.reads i a ha
  obtain ⟨-, now, hnext⟩ := hreads.decided line hline
  obtain ⟨stamped, -, hspec, hbatch, hends⟩ := stamped_of_next hreads.typed hnext
  have hbody : (s.written device i a line).journals.body device.id =
      s.journals.body device.id ++ line := by
    rw [Hubs.written, Journals.put_body_self, hreads.existing hv]
  have hparse : parse ((s.written device i a line).journals.body device.id) =
      parse (s.journals.body device.id) ++ parse line := by
    rw [hbody, parse_append_of_endsLine h.ends]
  have hseqs := seqs_of_decoded hspec.fits hbatch
  have hincreasing : (parse ((s.written device i a line).journals.body device.id)).Pairwise
      fun a b => a.seq < b.seq := by
    rw [hparse]
    refine List.pairwise_append.mpr ⟨h.increasing, ?_, fun o ho u hu => ?_⟩
    · have hline' : ((parse line).map (·.seq)).Pairwise (· < ·) :=
        hseqs ▸ List.pairwise_map.mpr hspec.increasing
      exact List.pairwise_map.mp hline'
    · have hmem : u.seq ∈ stamped.map (·.seq) := hseqs ▸ List.mem_map_of_mem hu
      obtain ⟨v, hv', hveq⟩ := List.mem_map.mp hmem
      have hle := hreads.seq_le hv hline o ho
      have hlt := (hspec.seq v hv').1
      omega
  have hothers : ∀ j a', (s.written device i a line).attempt j = some a' →
      a'.Reads device (s.written device i a line) := by
    intro j a' hj
    by_cases hji : j = i
    · subst hji
      exact absurd ((s.set_attempt_self j none).symm.trans hj) (by simp)
    · have hold := h.reads j a' ((s.set_attempt_of_ne none hji).symm.trans hj)
      have hlt : a'.version < (s.written device i a line).version := Nat.lt_succ_of_le hold.version
      exact ⟨hlt.le, fun hv' => absurd hv' hlt.ne, fun hv' => absurd hv' hlt.ne, hold.decided,
        hold.typed⟩
  obtain ⟨blocks, hblocks, hsub⟩ := h.blocks
  have hflat : parse ((s.written device i a line).journals.body device.id) =
      (blocks ++ [parse line]).flatten := by
    rw [hparse, hblocks, List.flatten_append, List.flatten_singleton]
  have hends' : EndsLine ((s.written device i a line).journals.body device.id) :=
    hbody ▸ h.ends.append hends
  refine ⟨⟨hends', hincreasing, ⟨_, hflat, hsub.trans (List.sublist_append_left _ _)⟩, hothers,
    h.stamped⟩, hends', hincreasing, ⟨_, hflat, ?_⟩, hothers, fun k hk => ?_⟩
  · rw [List.map_append]
    exact hsub.append (.refl _)
  · rcases List.mem_append.mp hk with hk | hk
    · exact h.stamped k hk
    · rw [List.mem_singleton.mp hk]
      exact ⟨⟨now, hnext⟩, hreads.typed⟩

/-- One step of one process. -/
theorem Numbered.step (h : Numbered device s acks) (hstep : HubStep device s s')
    (htyped : s'.Typed) : Numbered device s' acks := by
  cases hstep with
  | begin i w idle =>
    refine h.set i fun a' ha' => ?_
    obtain rfl := Option.some.inj ha'
    exact reads_reread w 0 (htyped i _ (s.set_attempt_self i _))
  | list i a ha new open_ =>
    refine h.set i fun a' ha' => ?_
    obtain rfl := Option.some.inj ha'
    have hold := h.reads i a ha
    refine ⟨hold.version, hold.existing, fun hv x hx => ?_, fun line hline => ?_, hold.typed⟩
    · by_cases hk : device.id ∈ s.journals.keys
      · rw [knows_of_listed rfl hk] at hx
        cases hx
      · rw [knows_of_not_listed rfl hk] at hx
        rw [← Option.some.inj hx, s.journals.absent device.id hk]
    · exact absurd (open_.symm.trans hline) (by simp)
  | fetch i a k ha open_ listed new =>
    refine h.set i fun a' ha' => ?_
    obtain rfl := Option.some.inj ha'
    have hold := h.reads i a ha
    obtain ⟨l, hl, hkl⟩ := listed
    refine ⟨hold.version, hold.existing, fun hv x hx => ?_, fun line hline => ?_, hold.typed⟩
    · simp only [Attempt.knows, hl] at hx
      by_cases hd : device.id ∈ l
      · rw [if_pos hd] at hx
        by_cases hdk : device.id = k
        · rw [hdk, Function.update_self] at hx
          rw [hdk, ← Option.some.inj hx]
        · rw [Function.update_of_ne hdk] at hx
          exact hold.seen hv x ((knows_of_listed hl hd).trans hx)
      · rw [if_neg hd] at hx
        exact hold.seen hv x ((knows_of_not_listed hl hd).trans hx)
    · exact absurd (open_.symm.trans hline) (by simp)
  | next i a now line ha read open_ decided =>
    refine h.set i fun a' ha' => ?_
    obtain rfl := Option.some.inj ha'
    have hold := h.reads i a ha
    refine ⟨hold.version, hold.existing, hold.seen, fun line' hline => ?_, hold.typed⟩
    exact ⟨read, now, Option.some.inj hline ▸ decided⟩
  | putIf i w s' hw =>
    obtain ⟨a, line, ha, -, hline, hv, rfl⟩ := hw
    exact (h.written ha hline hv).1
  | retry i a ha decided moved left =>
    refine h.set i fun a' ha' => ?_
    obtain rfl := Option.some.inj ha'
    exact reads_reread a.write (a.tries + 1) (h.reads i a ha).typed
  | giveUp i => exact h.set i fun a' ha' => by cases ha'

omit [DecidableEq ι] in
theorem Numbered.push (h : Numbered device s acks) {d : GoString} (body : GoString)
    (hd : d ≠ device.id) : Numbered device (s.push d body) acks := by
  have hbody : (s.push d body).journals.body device.id = s.journals.body device.id :=
    s.journals.put_body_of_ne body hd.symm
  exact ⟨hbody ▸ h.ends, hbody ▸ h.increasing, hbody ▸ h.blocks,
    fun i a ha => (h.reads i a ha).congr hbody rfl, h.stamped⟩

/-! ### Every run -/

theorem HubLog.numbered (h : HubLog device s acks) : Numbered device s acks := by
  induction h with
  | start s idle new =>
    refine ⟨.inl new, new ▸ List.Pairwise.nil, ⟨[], by rw [new]; rfl, .refl _⟩, fun i a ha => ?_,
      fun k hk => by cases hk⟩
    exact absurd ((idle i).symm.trans ha) (by simp)
  | step _ hstep typed ih => exact ih.step hstep typed
  | acked _ i a line ha hline current ih => exact (ih.written ha hline current).2
  | push _ d body member ih => exact ih.push body member

/-- **Every acknowledged batch is in the journal, in one piece and once**: the journal is a sequence
of blocks, the acknowledged batches are some of them in the order they were acknowledged, and the
sequence numbers of the whole increase strictly. A batch is the ops of its write, stamped; no number
and no clock of it is beyond 64 bits; **and while the clocks it was stamped against have room, it
comes behind every op of theirs.** -/
theorem acknowledged_once (h : HubLog device s acks) :
    (parse (s.journals.body device.id)).Pairwise (fun a b => a.seq < b.seq) ∧
    (∃ blocks : List (List Op), parse (s.journals.body device.id) = blocks.flatten ∧
      (acks.map Ack.batch).Sublist blocks) ∧
    ∀ k ∈ acks,
      (∃ now stamped, stamp device now k.attempt.sourced k.attempt.write.ops = some stamped ∧
        k.batch.map some = stamped.map Op.decoded) ∧
      (∀ u ∈ k.batch, 0 < u.seq ∧ u.seq ≤ maxInt64 ∧ 0 < u.lamport ∧ u.lamport ≤ maxInt64) ∧
      ((∀ so ∈ k.attempt.sourced, so.op.lamport < maxInt64) →
        ∀ u ∈ k.batch, ∀ so ∈ k.attempt.sourced, less so.op u = true) := by
  have hs := h.numbered
  refine ⟨hs.increasing, hs.blocks, fun k hk => ?_⟩
  obtain ⟨⟨now, hnext⟩, htyped⟩ := hs.stamped k hk
  obtain ⟨stamped, hstamp, hspec, hbatch, -⟩ := stamped_of_next htyped hnext
  have hplace : ∀ u ∈ k.batch, ∃ v ∈ stamped, u.seq = v.seq ∧ u.lamport = v.lamport := by
    intro u hu
    obtain ⟨v, hv, hdecoded⟩ := exists_of_mem_decoded hbatch hu
    exact ⟨v, hv, place_of_decoded (hspec.fits v hv) hdecoded⟩
  refine ⟨⟨now, stamped, hstamp, hbatch⟩, fun u hu => ?_, fun hroom u hu so hso => ?_⟩
  · obtain ⟨v, hv, hseq, hlamport⟩ := hplace u hu
    have := hspec.seq v hv
    have := hspec.lamport v hv
    have := storedSeq_nonneg device k.attempt.sourced
    omega
  · obtain ⟨v, hv, -, hlamport⟩ := hplace u hu
    have hlt := lamport_lt_of_stamp hstamp hroom v hv so hso
    exact less_of_lamport (hlamport ▸ hlt)

end

/-- One process, and a write of machine integers. -/
theorem typed_of_unit {s : Hubs Unit} {a : Attempt} (h : ∀ op ∈ a.write.ops, op.Fits) :
    (s.set () (some a)).Typed := by
  intro i a' ha
  exact Option.some.inj ((s.set_attempt_self () (some a)).symm.trans ha) ▸ h

/-- One process appends beside a member's journal, and is acknowledged. -/
theorem acknowledged_once_alone : ∃ (s : Hubs Unit) (k : Ack),
    HubLog { id := ascii "hub" } s [k] ∧
    (parse (s.journals.body (ascii "hub"))).Pairwise (fun a b => a.seq < b.seq) ∧
    (∃ blocks : List (List Op), parse (s.journals.body (ascii "hub")) = blocks.flatten ∧
      ([k].map Ack.batch).Sublist blocks) ∧
    ∀ k' ∈ [k],
      (∃ now stamped, stamp { id := ascii "hub" } now k'.attempt.sourced k'.attempt.write.ops =
        some stamped ∧ k'.batch.map some = stamped.map Op.decoded) ∧
      (∀ u ∈ k'.batch, 0 < u.seq ∧ u.seq ≤ maxInt64 ∧ 0 < u.lamport ∧ u.lamport ≤ maxInt64) ∧
      ((∀ so ∈ k'.attempt.sourced, so.op.lamport < maxInt64) →
        ∀ u ∈ k'.batch, ∀ so ∈ k'.attempt.sourced, less so.op u = true) := by
  let device : HubDevice := { id := ascii "hub" }
  let j := oneMember (writtenBy 1 (contentOf 0x61))
  let w := onBase (contentOf 0x61) (contentOf 0x62)
  let s₀ : Hubs Unit := { journals := j, version := 0, attempt := fun _ => none }
  let a₁ := s₀.reread device w 0
  let a₂ : Attempt := { a₁ with listing := some j.keys, got := fun _ => none }
  let a₃ : Attempt :=
    { a₂ with got := Function.update a₂.got (ascii "dev") (some (j.body (ascii "dev"))) }
  have hfits : ∀ op ∈ w.ops, op.Fits :=
    List.forall_mem_singleton.mpr ⟨by decide, by decide, by decide⟩
  have hread : ∀ k ∈ j.keys, (a₃.got k).isSome := by decide +kernel
  have hnext : (a₃.next device {}).isSome = true := by decide +kernel
  obtain ⟨line, hline⟩ := Option.isSome_iff_exists.mp hnext
  have h₁ : HubLog device (s₀.set () (some a₁)) [] :=
    .step (.start s₀ (fun _ => rfl) (by decide)) (.begin () w rfl) (typed_of_unit hfits)
  have h₂ := h₁.step (.list () a₁ (s₀.set_attempt_self () _) rfl rfl) (typed_of_unit hfits)
  have h₃ := h₂.step (.fetch () a₂ (ascii "dev") (Hubs.set_attempt_self _ () _) rfl
    ⟨j.keys, rfl, List.mem_singleton_self _⟩ rfl) (typed_of_unit hfits)
  have h₄ := h₃.step (.next () a₃ {} line (Hubs.set_attempt_self _ () _) ⟨j.keys, rfl, hread⟩ rfl
    hline) (typed_of_unit hfits)
  have h₅ := h₄.acked () { a₃ with line := some line } line (Hubs.set_attempt_self _ () _) rfl rfl
  exact ⟨_, _, h₅, acknowledged_once h₅⟩

end Beardrive
