import Beardrive.Journal.Log
import Beardrive.Journal.Order

/-!
# What the wire format keeps

A journal is replayed from what its lines decode to, so every field the replay reads has to come
through the text. A path does: where it is not valid UTF-8 it travels byte for byte beside the
field that loses it. The target of a symbolic link is folded too, and has no such field.

## Main definitions

* `Op.Texts` — an op whose other strings are valid UTF-8
* `Op.Agrees` — two ops the replay does not tell apart

## Main results

* `decoded_agrees_iff` — a line keeps its op exactly when the link is valid and the time is whole
* `parse_marshal_agrees_iff` — the same of a journal, and of its replay
-/

namespace Beardrive

/-- The strings of an op besides its path and its link are valid UTF-8. -/
structure Op.Texts (op : Op) : Prop where
  device : validUTF8 op.device = true
  deviceName : validUTF8 op.deviceName = true
  author : validUTF8 op.author = true
  user : validUTF8 op.user = true
  userName : validUTF8 op.userName = true
  blob : validUTF8 op.blob = true
  note : validUTF8 op.note = true
  session : validUTF8 op.session = true

/-- Two ops agree on everything the replay reads, and on the instant they were committed. -/
structure Op.Agrees (a b : Op) : Prop where
  seq : a.seq = b.seq
  lamport : a.lamport = b.lamport
  time : a.time.ns = b.time.ns
  device : a.device = b.device
  kind : a.kind = b.kind
  path : a.path = b.path
  blob : a.blob = b.blob
  size : a.size = b.size
  mode : a.mode = b.mode
  link : a.link = b.link

/-- A time whose zone is a whole number of minutes east of UTC, the only ones RFC 3339 spells. -/
def Time.WholeMinute (t : Time) : Prop := t.offset % 60 = 0

instance (t : Time) : Decidable t.WholeMinute := inferInstanceAs (Decidable (_ = _))

/-! ### One line -/

theorem lossy_eq (s : GoString) : lossy s = toValid s := by
  unfold lossy
  split_ifs with h
  · exact (toValid_eq_self_iff.mpr h).symm
  · exact (toValid_eq s).symm

theorem ns_toMinute_eq_iff (t : Time) : t.toMinute.ns = t.ns ↔ t.WholeMinute := by
  have hns : t.toMinute.ns = t.ns ↔ 60 * t.offset.tdiv 60 = t.offset := by
    simp only [Time.ns, Time.seconds, Time.toMinute]
    omega
  rw [hns, Time.WholeMinute, ← Int.dvd_iff_emod_eq_zero]
  exact ⟨fun h => ⟨_, h.symm⟩, Int.mul_tdiv_cancel'⟩

theorem validUTF8_base64Encode (s : GoString) : validUTF8 (base64Encode s) = true :=
  validUTF8_of_ascii (lt_of_mem_base64Encode s)

/-- **The path of a line is the path it was written for**, whatever bytes it holds. -/
theorem resolve_wire (op : Op) : op.wire.resolve = op.path := by
  unfold PathRaw.resolve Op.wire
  dsimp only
  by_cases h : validUTF8 op.path = true
  · rw [if_pos h, toValid_eq_self_iff.mpr h]
    rfl
  · have hne : base64Encode op.path ≠ [] := by
      intro hnil
      have hdecode := base64Decode_base64Encode op.path
      rw [hnil] at hdecode
      have hpath : [] = op.path := Option.some.inj hdecode
      exact h (hpath ▸ rfl)
    rw [if_neg h, toValid_eq_self_iff.mpr (validUTF8_base64Encode op.path),
      base64Decode_base64Encode]
    exact if_pos ⟨hne, lossy_eq op.path⟩

/-- **A line keeps what the replay reads of its op exactly when the link is valid UTF-8**, and the
instant exactly when the zone is one that is spelled. -/
theorem decoded_agrees_iff {op : Op} (hfits : op.Fits) (htexts : op.Texts) {line : GoString}
    (hline : op.marshalJSON = some line) :
    (∃ o, op.decoded = some o ∧ op.Agrees o) ↔
      validUTF8 op.link = true ∧ op.time.WholeMinute := by
  have hkind : Kind.ofText op.wire.kind = some op.kind := Kind.ofText_text op.kind
  rw [decoded_eq_wire hfits hline, PathRaw.op, hkind, Option.map_some]
  constructor
  · rintro ⟨o, ho, hagrees⟩
    obtain rfl := Option.some.inj ho
    exact ⟨toValid_eq_self_iff.mp hagrees.link.symm,
      (ns_toMinute_eq_iff op.time).mp hagrees.time.symm⟩
  · rintro ⟨hlink, htime⟩
    exact ⟨_, rfl, rfl, rfl, ((ns_toMinute_eq_iff op.time).mpr htime).symm,
      (toValid_eq_self_iff.mpr htexts.device).symm, rfl, (resolve_wire op).symm,
      (toValid_eq_self_iff.mpr htexts.blob).symm, rfl, rfl, (toValid_eq_self_iff.mpr hlink).symm⟩

/-! ### A whole journal -/

theorem Op.Agrees.key {a b : Op} (h : a.Agrees b) : a.key = b.key := by
  rw [Op.key, Op.key, h.lamport, h.time, h.device, h.seq, h.kind, h.path, h.blob, h.size, h.mode]

theorem Op.Agrees.effect {a b : Op} (h : a.Agrees b) : a.effect = b.effect := by
  simp only [Op.effect, h.kind, h.blob, h.size, h.mode, h.link]

/-- Ops that agree one by one replay to the same state. -/
theorem replay_eq_of_agrees {ops ops' : List Op} (h : List.Forall₂ Op.Agrees ops ops') :
    replay ops = replay ops' := by
  rw [replay_eq, replay_eq]
  refine LastWriter.lastWriter_congr (h.imp fun a b hab => ⟨hab.path, hab.effect, hab.key⟩)

theorem marshalJSON_of_marshal {ops : List Op} {data : GoString} (hdata : marshal ops = some data) :
    ∀ op ∈ ops, ∃ line, op.marshalJSON = some line := by
  induction ops generalizing data with
  | nil => simp
  | cons op ops ih =>
    simp only [marshal, Option.bind_eq_bind, Option.bind_eq_some_iff, Option.pure_def,
      Option.some.injEq] at hdata
    obtain ⟨line, hline, rest, hrest, -⟩ := hdata
    exact List.forall_mem_cons.mpr ⟨⟨line, hline⟩, ih hrest⟩

/-- **A journal keeps its ops exactly when every link is valid UTF-8** and every zone is one that
is spelled. -/
theorem forall₂_agrees_iff {ops : List Op} (hfits : ∀ op ∈ ops, op.Fits)
    (htexts : ∀ op ∈ ops, op.Texts) {data : GoString} (hdata : marshal ops = some data) :
    List.Forall₂ Op.Agrees ops (parse data) ↔
      ∀ op ∈ ops, validUTF8 op.link = true ∧ op.time.WholeMinute := by
  have hsome : List.Forall₂ Op.Agrees ops (parse data) ↔
      List.Forall₂ (fun (op : Op) d => ∃ o, d = some o ∧ op.Agrees o) ops
        ((parse data).map some) := by
    simp [List.forall₂_map_right_iff]
  rw [hsome, parse_marshal hfits hdata, List.forall₂_map_right_iff, List.forall₂_same]
  refine forall₂_congr fun op hop => ?_
  obtain ⟨line, hline⟩ := marshalJSON_of_marshal hdata op hop
  exact decoded_agrees_iff (hfits op hop) (htexts op hop) hline

/-- **A journal keeps its ops, and its replay, exactly when every link is valid UTF-8** and every
zone is one that is spelled. -/
theorem parse_marshal_agrees_iff {ops : List Op} (hfits : ∀ op ∈ ops, op.Fits)
    (htexts : ∀ op ∈ ops, op.Texts) {data : GoString} (hdata : marshal ops = some data) :
    (List.Forall₂ Op.Agrees ops (parse data) ∧ replay (parse data) = replay ops) ↔
      ∀ op ∈ ops, validUTF8 op.link = true ∧ op.time.WholeMinute := by
  rw [← forall₂_agrees_iff hfits htexts hdata, and_iff_left_iff_imp]
  exact fun h => (replay_eq_of_agrees h).symm

/-- A journal of one op with a plain link keeps it. -/
theorem parse_marshal_agrees_plain :
    (List.Forall₂ Op.Agrees [firstOp] (parse firstLine) ∧
      replay (parse firstLine) = replay [firstOp]) ↔
        ∀ op ∈ [firstOp], validUTF8 op.link = true ∧ op.time.WholeMinute := by
  have hfits : ∀ op ∈ [firstOp], op.Fits :=
    List.forall_mem_singleton.mpr ⟨by decide, by decide, by decide⟩
  have htexts : ∀ op ∈ [firstOp], op.Texts := List.forall_mem_singleton.mpr
    ⟨by decide, by decide, by decide, by decide, by decide, by decide, by decide, by decide⟩
  exact parse_marshal_agrees_iff hfits htexts (by decide +kernel)

/-- A link whose target is no UTF-8: one byte. -/
def rawLinkOp : Op :=
  { seq := 1, lamport := 1, device := ascii "d", kind := .put, path := ascii "f", link := [0xFF] }

/-- The target of a link that is no UTF-8 comes back another. -/
theorem parse_marshal_raw_link : ¬ ∀ (ops : List Op) (data : GoString), (∀ op ∈ ops, op.Fits) →
    (∀ op ∈ ops, op.Texts) → (∀ op ∈ ops, op.time.WholeMinute) → marshal ops = some data →
      List.Forall₂ Op.Agrees ops (parse data) ∧ replay (parse data) = replay ops := by
  intro h
  have hfits : ∀ op ∈ [rawLinkOp], op.Fits :=
    List.forall_mem_singleton.mpr ⟨by decide, by decide, by decide⟩
  have htexts : ∀ op ∈ [rawLinkOp], op.Texts := List.forall_mem_singleton.mpr
    ⟨by decide, by decide, by decide, by decide, by decide, by decide, by decide, by decide⟩
  have hwhole : ∀ op ∈ [rawLinkOp], op.time.WholeMinute :=
    List.forall_mem_singleton.mpr (by decide)
  obtain ⟨data, hdata⟩ : ∃ data, marshal [rawLinkOp] = some data :=
    Option.isSome_iff_exists.mp (by decide +kernel)
  have hkept := (forall₂_agrees_iff hfits htexts hdata).mp (h _ data hfits htexts hwhole hdata).1
  exact absurd (hkept rawLinkOp (List.mem_singleton_self _)).1 (by decide)

end Beardrive
