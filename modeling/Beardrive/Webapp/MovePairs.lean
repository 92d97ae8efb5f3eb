import Beardrive.Lib.Groups
import Beardrive.Lib.SoleMatch
import Beardrive.Webapp.Moves

/-!
# The pairing of moves

The hub folds the ops of a project grouped by path. Neither the listing nor the index of moves can
tell the difference from the order of replay: the listing of a path reads the ops of the path, and
so do the halves of moves, while the pairing counts candidates and does not read their order.

The pairing is one-to-one, and pairs a delete with the first put of another path, by one device and
with the content that was deleted. It is meant to pair halves that are close in time. But the
difference of two times is cut off at 64 bits, and the least number of 64 bits is its own negation:
a put that is 2^63 nanoseconds or more before a delete, some 292 years, counts as close. A put
without a time is that old.

## Main definitions

* `FullFileInfo`, `foldInfos` — the listing, with every field
* `MoveScan.partner` — the create a delete is paired with
* `PairsRight` — what the pairing is meant to be
* `FarHalves` — a put that is too long before a delete, and nothing else to pair either with

## Main results

* `grouped_as_sorted` — grouping by path changes neither the listing nor the index
* `grouping_and_pairs` — nor does it change the pairing, which is what it is meant to be except
  for far halves
-/

namespace Beardrive

/-! ### The listing -/

/-- `FileInfo`, with every field. -/
structure FullFileInfo where
  blob : GoString := []
  size : ℤ := 0
  time : Time
  link : GoString := []
  user : GoString
  userName : GoString
  author : GoString
  device : GoString
  lamport : ℤ
  seq : ℤ
  deviceID : GoString
  mode : UInt32
  deriving DecidableEq

/-- What an op leaves of the listing. -/
def foldInfo (files : GoString → Option FullFileInfo) (op : Op) : GoString → Option FullFileInfo :=
  match op.kind with
  | .put =>
    if op.link ≠ [] then
      Function.update files op.path (some
        { link := op.link, time := op.time, user := op.user, userName := op.userName
          author := op.author, device := op.deviceName, lamport := op.lamport, seq := op.seq
          deviceID := op.device, mode := op.mode })
    else if !isBlobSHA op.blob then files
    else
      Function.update files op.path (some
        { blob := op.blob, size := op.size, time := op.time, user := op.user
          userName := op.userName, author := op.author, device := op.deviceName
          lamport := op.lamport, seq := op.seq, deviceID := op.device, mode := op.mode })
  | .delete => Function.update files op.path none

/-- `foldFiles`, with every field. -/
def foldInfos (ops : List Op) : GoString → Option FullFileInfo := ops.foldl foldInfo fun _ => none

theorem foldInfo_of_ne (files : GoString → Option FullFileInfo) {op : Op} {p : GoString}
    (h : op.path ≠ p) : foldInfo files op p = files p := by
  cases hkind : op.kind with
  | put =>
    simp only [foldInfo, hkind]
    split_ifs
    · exact Function.update_of_ne h.symm _ _
    · rfl
    · exact Function.update_of_ne h.symm _ _
  | delete =>
    simp only [foldInfo, hkind]
    exact Function.update_of_ne h.symm _ _

theorem foldInfo_congr {files files' : GoString → Option FullFileInfo} {op : Op} {p : GoString}
    (h : files p = files' p) : foldInfo files op p = foldInfo files' op p := by
  cases hkind : op.kind with
  | put =>
    simp only [foldInfo, hkind]
    split_ifs
    · simp only [Function.update_apply, h]
    · exact h
    · simp only [Function.update_apply, h]
  | delete => simp only [foldInfo, hkind, Function.update_apply, h]

/-- A path is listed by its own ops. -/
theorem foldInfos_filter (ops : List Op) (p : GoString) :
    foldInfos (ops.filter fun op => op.path = p) p = foldInfos ops p := by
  have h := @foldl_group _ _ _ foldInfo (fun files => files p) fun op => op.path = p
  exact h (fun files _ hne => foldInfo_of_ne files (of_decide_eq_false hne))
    (fun _ _ _ _ heq => foldInfo_congr heq) ops _

/-! ### The halves -/

/-- The walk over the ops. -/
def moveScan (ops : List Op) : MoveScan := ops.foldl MoveScan.step {}

/-- What the walk knows of a path. -/
def MoveScan.view (p : GoString) (s : MoveScan) :
    List Half × List Half × Option GoString × Bool :=
  (s.creates.filter fun c => c.path = p, s.deletes.filter fun d => d.path = p, s.live p, s.ever p)

theorem MoveScan.view_step_of_ne (s : MoveScan) {op : Op} {p : GoString} (h : op.path ≠ p) :
    (s.step op).view p = s.view p := by
  cases hkind : op.kind with
  | put =>
    cases hblob : isBlobSHA op.blob with
    | false => simp [step, hkind, hblob]
    | true =>
      cases hever : s.ever op.path with
      | true => simp [step, view, hkind, hblob, hever, h.symm]
      | false => simp [step, view, hkind, hblob, hever, h, h.symm]
  | delete =>
    cases hheld : s.live op.path with
    | none => simp [step, hkind, hheld]
    | some blob => simp [step, view, hkind, hheld, h, h.symm]

theorem MoveScan.view_step_congr {s t : MoveScan} {op : Op} {p : GoString} (hp : op.path = p)
    (h : s.view p = t.view p) : (s.step op).view p = (t.step op).view p := by
  subst hp
  obtain ⟨hcreates, hdeletes, hlive, hever⟩ :
      (s.creates.filter fun c => c.path = op.path) = t.creates.filter (fun c => c.path = op.path) ∧
      (s.deletes.filter fun d => d.path = op.path) = t.deletes.filter (fun d => d.path = op.path) ∧
      s.live op.path = t.live op.path ∧ s.ever op.path = t.ever op.path := by
    simpa [view] using h
  rw [step, step]
  cases op.kind with
  | put =>
    cases isBlobSHA op.blob with
    | false => exact h
    | true =>
      cases hs : s.ever op.path with
      | true => simp [view, hcreates, hdeletes, ← hever, hs]
      | false => simp [view, hcreates, hdeletes, ← hever, hs]
  | delete =>
    cases hs : s.live op.path with
    | none => simpa [← hlive, hs] using h
    | some blob => simp [view, hcreates, hdeletes, ← hlive, hs, hever]

/-- **Of a path, the walk knows what the ops of the path say.** -/
theorem view_moveScan (ops : List Op) (p : GoString) :
    (moveScan (ops.filter fun op => op.path = p)).view p = (moveScan ops).view p := by
  have h := @foldl_group _ _ _ MoveScan.step (MoveScan.view p) fun op => op.path = p
  exact h (fun s _ hne => s.view_step_of_ne (of_decide_eq_false hne))
    (fun _ _ _ heq => MoveScan.view_step_congr (of_decide_eq_true heq)) ops _

/-- Ops with the same groups have the same halves. -/
theorem halves_of_groups {ops ops' : List Op}
    (h : ∀ p, (ops.filter fun op => op.path = p) = ops'.filter fun op => op.path = p) :
    (moveScan ops).creates.Perm (moveScan ops').creates ∧
      (moveScan ops).deletes.Perm (moveScan ops').deletes ∧
      ∀ p, ((moveScan ops).deletes.filter fun d => d.path = p) =
        (moveScan ops').deletes.filter fun d => d.path = p := by
  have hview (p : GoString) : (moveScan ops).view p = (moveScan ops').view p := by
    rw [← view_moveScan, h, view_moveScan]
  have hdeletes (p : GoString) := congrArg (fun v => v.2.1) (hview p)
  exact ⟨perm_of_groups fun p => congrArg Prod.fst (hview p), perm_of_groups hdeletes, hdeletes⟩

/-! ### The pairing -/

/-- What the pairing asks of a create and a delete: one device, one content, two paths, and close in
time. -/
def mayPair (c d : Half) : Bool := c.key = d.key && c.pairs d

/-- The create a delete is paired with. -/
def MoveScan.partner (s : MoveScan) (d : Half) : Option Half :=
  SoleMatch.partner mayPair s.creates s.deletes d

theorem MoveScan.event_eq (s : MoveScan) (d : Half) : s.event d =
    match s.partner d with
    | some c => { at_ := d.at_, to_ := c.path, toAt := c.at_ }
    | none => { at_ := d.at_ } := by
  have hdeletes (c : Half) : (s.deletes.filter fun d' => d'.key = c.key && c.pairs d') =
      s.deletes.filter (mayPair c) := by
    refine List.filter_congr fun d' _ => ?_
    rw [mayPair, Bool.decide_congr (eq_comm (a := d'.key))]
  have hcreates : (s.creates.filter fun c => c.key = d.key && c.pairs d) =
      s.creates.filter fun c => mayPair c d := rfl
  rw [event, partner, SoleMatch.partner, hcreates]
  cases hsole : s.creates.filter fun c => mayPair c d with
  | nil => rfl
  | cons c rest =>
    cases rest with
    | nil =>
      simp only [hdeletes]
      split_ifs <;> rfl
    | cons c' rest => rfl

/-- Ops with the same groups have the same index. -/
theorem buildMoveIndex_of_groups {ops ops' : List Op}
    (h : ∀ p, (ops.filter fun op => op.path = p) = ops'.filter fun op => op.path = p) :
    buildMoveIndex ops = buildMoveIndex ops' := by
  obtain ⟨hcreates, hdeletes, hgroups⟩ := halves_of_groups h
  have hevent : (moveScan ops).event = (moveScan ops').event := by
    funext d
    rw [MoveScan.event_eq, MoveScan.event_eq, MoveScan.partner, MoveScan.partner,
      SoleMatch.partner_perm hcreates hdeletes]
  funext p
  change (((moveScan ops).deletes.filter fun d => d.path = p).map
    (moveScan ops).event).insertionSort _ = (((moveScan ops').deletes.filter fun d =>
      d.path = p).map (moveScan ops').event).insertionSort _
  rw [hgroups, hevent]

/-- The groups of the ops the hub folds are those of the order of replay. -/
theorem filter_byPathOrder_eq (journals : List (List Op)) (p : GoString) :
    ((byPathOrder journals).filter fun op => op.path = p) =
      (sortOps journals.flatten).filter fun op => op.path = p := by
  rw [filter_byPathOrder, sortOps_eq, sortOps_eq, LastWriter.sort_filter]

/-- **Grouping by path changes neither the listing nor the index of moves.** -/
theorem grouped_as_sorted (journals : List (List Op)) :
    foldInfos (byPathOrder journals) = foldInfos (sortOps journals.flatten) ∧
      buildMoveIndex (byPathOrder journals) = buildMoveIndex (sortOps journals.flatten) := by
  refine ⟨funext fun p => ?_, buildMoveIndex_of_groups (filter_byPathOrder_eq journals)⟩
  rw [← foldInfos_filter, filter_byPathOrder_eq, foldInfos_filter]

/-! ### What the halves are -/

/-- What the walk has seen. -/
structure MoveScan.Sound (ops : List Op) (s : MoveScan) : Prop where
  creates : ∀ c ∈ s.creates, isBlobSHA c.blob = true ∧
    ∃ op ∈ ops, op.kind = .put ∧ c = ⟨op.path, op.blob, op.device, op.time⟩
  deletes : ∀ d ∈ s.deletes, isBlobSHA d.blob = true ∧
    ∃ op ∈ ops, op.kind = .delete ∧ d = ⟨op.path, d.blob, op.device, op.time⟩
  live : ∀ p b, s.live p = some b → isBlobSHA b = true
  nodup : (s.creates.map Half.path).Nodup
  ever : ∀ p, s.ever p = true ↔ p ∈ s.creates.map Half.path

/-- Every op keeps it. -/
theorem MoveScan.Sound.step {ops : List Op} {s : MoveScan} (h : s.Sound ops) (op : Op) :
    (s.step op).Sound (ops ++ [op]) := by
  have hmono {q : Op → Prop} (hq : ∃ o ∈ ops, q o) : ∃ o ∈ ops ++ [op], q o := by
    obtain ⟨o, ho, hqo⟩ := hq
    exact ⟨o, List.mem_append_left _ ho, hqo⟩
  have hlast : op ∈ ops ++ [op] := List.mem_append_right _ (List.mem_singleton_self op)
  have hcreates : ∀ c ∈ s.creates, isBlobSHA c.blob = true ∧
      ∃ o ∈ ops ++ [op], o.kind = .put ∧ c = ⟨o.path, o.blob, o.device, o.time⟩ :=
    fun c hc => ⟨(h.creates c hc).1, hmono (h.creates c hc).2⟩
  have hdeletes : ∀ d ∈ s.deletes, isBlobSHA d.blob = true ∧
      ∃ o ∈ ops ++ [op], o.kind = .delete ∧ d = ⟨o.path, d.blob, o.device, o.time⟩ :=
    fun d hd => ⟨(h.deletes d hd).1, hmono (h.deletes d hd).2⟩
  cases hkind : op.kind with
  | put =>
    cases hblob : isBlobSHA op.blob with
    | false =>
      have hstep : s.step op = s := by simp [MoveScan.step, hkind, hblob]
      rw [hstep]
      exact ⟨hcreates, hdeletes, h.live, h.nodup, h.ever⟩
    | true =>
      have hlive : ∀ p b, Function.update s.live op.path (some op.blob) p = some b →
          isBlobSHA b = true := by
        intro p b hb
        by_cases hp : p = op.path
        · rw [hp, Function.update_self] at hb
          exact Option.some.inj hb ▸ hblob
        · rw [Function.update_of_ne hp] at hb
          exact h.live p b hb
      cases hever : s.ever op.path with
      | true =>
        have hstep : s.step op = { s with
            ever := Function.update s.ever op.path true
            live := Function.update s.live op.path (some op.blob) } := by
          simp [MoveScan.step, hkind, hblob, hever]
        rw [hstep]
        refine ⟨hcreates, hdeletes, hlive, h.nodup, fun p => ?_⟩
        by_cases hp : p = op.path
        · simp [hp, ← h.ever, hever]
        · simpa [Function.update_of_ne hp] using h.ever p
      | false =>
        have hstep : s.step op = { s with
            creates := s.creates ++ [⟨op.path, op.blob, op.device, op.time⟩]
            ever := Function.update s.ever op.path true
            live := Function.update s.live op.path (some op.blob) } := by
          simp [MoveScan.step, hkind, hblob, hever]
        have hnew : op.path ∉ s.creates.map Half.path := by
          rw [← h.ever, hever]
          exact Bool.false_ne_true
        rw [hstep]
        refine ⟨fun c hc => ?_, hdeletes, hlive, ?_, fun p => ?_⟩
        · rcases List.mem_append.mp hc with hc | hc
          · exact hcreates c hc
          · rw [List.mem_singleton.mp hc]
            exact ⟨hblob, op, hlast, hkind, rfl⟩
        · rw [List.map_append]
          refine List.Nodup.append h.nodup (List.nodup_singleton _) ?_
          rwa [List.map_singleton, List.disjoint_singleton]
        · by_cases hp : p = op.path
          · simp [hp]
          · simpa [Function.update_of_ne hp, hp] using h.ever p
  | delete =>
    cases hheld : s.live op.path with
    | none =>
      have hstep : s.step op = s := by simp [MoveScan.step, hkind, hheld]
      rw [hstep]
      exact ⟨hcreates, hdeletes, h.live, h.nodup, h.ever⟩
    | some blob =>
      have hstep : s.step op = { s with
          live := Function.update s.live op.path none
          deletes := s.deletes ++ [⟨op.path, blob, op.device, op.time⟩] } := by
        simp [MoveScan.step, hkind, hheld]
      rw [hstep]
      refine ⟨hcreates, fun d hd => ?_, fun p b hb => ?_, h.nodup, h.ever⟩
      · rcases List.mem_append.mp hd with hd | hd
        · exact hdeletes d hd
        · rw [List.mem_singleton.mp hd]
          exact ⟨h.live _ _ hheld, op, hlast, hkind, rfl⟩
      · change Function.update s.live op.path none p = some b at hb
        by_cases hp : p = op.path
        · simp [hp] at hb
        · rw [Function.update_of_ne hp] at hb
          exact h.live p b hb

theorem sound_moveScan (ops : List Op) : (moveScan ops).Sound ops := by
  induction ops using List.reverseRecOn with
  | nil => exact ⟨by simp [moveScan], by simp [moveScan], by simp [moveScan], by simp [moveScan],
      by simp [moveScan]⟩
  | append_singleton ops op ih =>
    rw [moveScan, List.foldl_append]
    exact ih.step op

/-- One key is one device and one content: content is named by 64 bytes. -/
theorem key_eq_iff {c d : Half} (hc : isBlobSHA c.blob = true) (hd : isBlobSHA d.blob = true) :
    c.key = d.key ↔ c.dev = d.dev ∧ c.blob = d.blob := by
  have hlength : ∀ {b : GoString}, isBlobSHA b = true → b.length = 64 := by
    intro b hb
    simp only [isBlobSHA, Bool.and_eq_true, beq_iff_eq] at hb
    exact hb.1
  constructor
  · intro h
    have hboth := List.append_inj' h (by simp [hlength hc, hlength hd])
    exact ⟨hboth.1, (List.cons.inj hboth.2).2⟩
  · rintro ⟨hdev, hblob⟩
    rw [Half.key, Half.key, hdev, hblob]

/-- **Two halves may be one move** when they are at most the window apart, or when the first is
2^63 nanoseconds or more before the second. -/
theorem pairs_iff {c d : Half} : c.pairs d = true ↔ c.path ≠ d.path ∧
    (((c.at_.ns - d.at_.ns).natAbs : ℤ) ≤ moveWindow ∨ c.at_.ns + 2 ^ 63 ≤ d.at_.ns) := by
  have habs : absDuration (c.at_.sub d.at_) ≤ moveWindow ↔
      ((c.at_.ns - d.at_.ns).natAbs : ℤ) ≤ moveWindow ∨ c.at_.ns + 2 ^ 63 ≤ d.at_.ns := by
    rw [Time.sub, maxInt64, moveWindow]
    generalize c.at_.ns = x
    generalize d.at_.ns = y
    by_cases hfar : x + 2 ^ 63 ≤ y
    · have hsub : max (-2 ^ 63) (min (2 ^ 63 - 1) (x - y)) = (-2 ^ 63 : ℤ) := by omega
      rw [hsub]
      exact iff_of_true (by decide) (.inr hfar)
    · by_cases hneg : x < y
      · have hsub : max (-2 ^ 63) (min (2 ^ 63 - 1) (x - y)) = x - y := by omega
        have hbmod : (-(x - y)).bmod (2 ^ 64) = y - x := by
          rw [Int.bmod_def]
          omega
        rw [hsub, absDuration, if_pos (by omega), hbmod]
        omega
      · have hsub : max (-2 ^ 63) (min (2 ^ 63 - 1) (x - y)) = min (2 ^ 63 - 1) (x - y) := by
          omega
        rw [hsub, absDuration, if_neg (by omega)]
        omega
  rw [Half.pairs, Bool.and_eq_true, decide_eq_true_eq, decide_eq_true_eq, habs]

/-! ### What the pairing is meant to be -/

/-- **The pairing is what it is meant to be**: the index has an event for each delete, with what it
is paired with. Two deletes are never paired with puts of one path. A delete is paired with a put by
the device that deleted, of the content that was deleted, at another path and within the window. -/
structure PairsRight (ops : List Op) : Prop where
  index : ∀ p, (buildMoveIndex ops p).Perm
    (((moveScan ops).deletes.filter fun d => d.path = p).map fun d =>
      match (moveScan ops).partner d with
      | some c => { at_ := d.at_, to_ := c.path, toAt := c.at_ }
      | none => { at_ := d.at_ })
  one_delete : ∀ (i j : ℕ) (d d' c c' : Half), (moveScan ops).deletes[i]? = some d →
    (moveScan ops).deletes[j]? = some d' → (moveScan ops).partner d = some c →
      (moveScan ops).partner d' = some c' → c.path = c'.path → i = j
  device : ∀ d ∈ (moveScan ops).deletes, ∀ c, (moveScan ops).partner d = some c → c.dev = d.dev
  content : ∀ d ∈ (moveScan ops).deletes, ∀ c, (moveScan ops).partner d = some c → c.blob = d.blob
  apart : ∀ d ∈ (moveScan ops).deletes, ∀ c, (moveScan ops).partner d = some c → c.path ≠ d.path
  window : ∀ d ∈ (moveScan ops).deletes, ∀ c, (moveScan ops).partner d = some c →
    ((c.at_.ns - d.at_.ns).natAbs : ℤ) ≤ moveWindow

/-- Two halves of one device and one content at two paths, the put 2^63 nanoseconds or more before
the delete. Neither may be paired with anything else. -/
def FarHalves (creates deletes : List Half) : Prop :=
  ∃ c ∈ creates, ∃ d ∈ deletes, c.dev = d.dev ∧ c.blob = d.blob ∧ c.path ≠ d.path ∧
    c.at_.ns + 2 ^ 63 ≤ d.at_.ns ∧
    (∀ c' ∈ creates, c'.dev = d.dev → c'.blob = d.blob → c'.pairs d = true → c' = c) ∧
    (deletes.filter fun d' => c.dev = d'.dev && (c.blob = d'.blob && c.pairs d')).length = 1

theorem FarHalves.perm {creates creates' deletes deletes' : List Half}
    (hc : creates.Perm creates') (hd : deletes.Perm deletes') (h : FarHalves creates deletes) :
    FarHalves creates' deletes' := by
  obtain ⟨c, hcmem, d, hdmem, hdev, hblob, hpath, hfar, honly, hone⟩ := h
  exact ⟨c, hc.mem_iff.mp hcmem, d, hd.mem_iff.mp hdmem, hdev, hblob, hpath, hfar,
    fun c' hc' => honly c' (hc.mem_iff.mpr hc'), (hd.filter _).length_eq ▸ hone⟩

theorem mayPair_iff {ops : List Op} {c d : Half} (hc : c ∈ (moveScan ops).creates)
    (hd : d ∈ (moveScan ops).deletes) :
    mayPair c d = true ↔ c.dev = d.dev ∧ c.blob = d.blob ∧ c.pairs d = true := by
  rw [mayPair, Bool.and_eq_true, decide_eq_true_eq,
    key_eq_iff ((sound_moveScan ops).creates c hc).1 ((sound_moveScan ops).deletes d hd).1, and_assoc]

/-- What a delete is paired with: its only candidate, of which it is the only one. -/
theorem partner_eq_some_iff {ops : List Op} {c d : Half} (hd : d ∈ (moveScan ops).deletes) :
    (moveScan ops).partner d = some c ↔ c ∈ (moveScan ops).creates ∧
      (c.dev = d.dev ∧ c.blob = d.blob ∧ c.pairs d = true) ∧
      (∀ c' ∈ (moveScan ops).creates, c'.dev = d.dev → c'.blob = d.blob → c'.pairs d = true →
        c' = c) ∧
      ((moveScan ops).deletes.filter fun d' =>
        c.dev = d'.dev && (c.blob = d'.blob && c.pairs d')).length = 1 := by
  rw [MoveScan.partner,
    SoleMatch.partner_eq_some_iff_of_nodup (sound_moveScan ops).nodup.of_map]
  refine and_congr_right fun hc => and_congr (mayPair_iff hc hd) (and_congr ?_ ?_)
  · refine forall₂_congr fun c' hc' => ?_
    rw [mayPair_iff hc' hd, and_imp, and_imp]
  · have hfilter : (moveScan ops).deletes.filter (mayPair c) = (moveScan ops).deletes.filter
        fun d' => c.dev = d'.dev && (c.blob = d'.blob && c.pairs d') := by
      refine List.filter_congr fun d' hd' => ?_
      rw [Bool.eq_iff_iff, mayPair_iff hc hd']
      simp
    rw [hfilter]

/-- **The pairing is what it is meant to be**, except for far halves. -/
theorem pairsRight_iff (ops : List Op) :
    PairsRight ops ↔ ¬ FarHalves (moveScan ops).creates (moveScan ops).deletes := by
  constructor
  · rintro h ⟨c, hc, d, hd, hdev, hblob, hpath, hfar, honly, hone⟩
    have hpairs : c.pairs d = true := pairs_iff.mpr ⟨hpath, .inr hfar⟩
    have hclose := h.window d hd c
      ((partner_eq_some_iff hd).mpr ⟨hc, ⟨hdev, hblob, hpairs⟩, honly, hone⟩)
    rw [moveWindow] at hclose
    omega
  · intro h
    have hpath {c c' : Half} (hc : c ∈ (moveScan ops).creates) (hc' : c' ∈ (moveScan ops).creates)
        (hpath : c.path = c'.path) : c = c' :=
      List.inj_on_of_nodup_map (sound_moveScan ops).nodup hc hc' hpath
    refine ⟨fun p => ?_, ?_, fun d hd c hc => ((partner_eq_some_iff hd).mp hc).2.1.1,
      fun d hd c hc => ((partner_eq_some_iff hd).mp hc).2.1.2.1, fun d hd c hc =>
      (pairs_iff.mp ((partner_eq_some_iff hd).mp hc).2.1.2.2).1, fun d hd c hc => ?_⟩
    · refine (List.perm_insertionSort _ _).trans (List.Perm.of_eq ?_)
      exact List.map_congr_left fun d _ => MoveScan.event_eq _ d
    · intro i j d d' c c' hi hj hc hc' heq
      obtain rfl := hpath (SoleMatch.mem_of_partner hc).1 (SoleMatch.mem_of_partner hc').1 heq
      exact SoleMatch.eq_of_partner hi hj hc hc'
    · obtain ⟨hmem, ⟨hdev, hblob, hpairs⟩, honly, hone⟩ := (partner_eq_some_iff hd).mp hc
      obtain ⟨hne, hclose | hfar⟩ := pairs_iff.mp hpairs
      · exact hclose
      · exact absurd ⟨c, hmem, d, hd, hdev, hblob, hne, hfar, honly, hone⟩ h

/-- **Grouping by path changes neither the listing nor the index of moves, and the pairing is
one-to-one, by one device, of one content, of two paths and within the window**, exactly where no
put is 2^63 nanoseconds or more before the only delete it may be paired with. -/
theorem grouping_and_pairs (journals : List (List Op)) :
    (foldInfos (byPathOrder journals) = foldInfos (sortOps journals.flatten) ∧
      buildMoveIndex (byPathOrder journals) = buildMoveIndex (sortOps journals.flatten)) ∧
    (PairsRight (byPathOrder journals) ↔ ¬ FarHalves (moveScan (sortOps journals.flatten)).creates
      (moveScan (sortOps journals.flatten)).deletes) ∧
    (PairsRight (sortOps journals.flatten) ↔ ¬ FarHalves
      (moveScan (sortOps journals.flatten)).creates
      (moveScan (sortOps journals.flatten)).deletes) := by
  obtain ⟨hcreates, hdeletes, -⟩ := halves_of_groups (filter_byPathOrder_eq journals)
  refine ⟨grouped_as_sorted journals, ?_, pairsRight_iff _⟩
  rw [pairsRight_iff]
  exact not_congr ⟨FarHalves.perm hcreates hdeletes, FarHalves.perm hcreates.symm hdeletes.symm⟩

/-- A file is written and deleted in 2026, and another one with its content has no time. -/
def timelessCopy : List Op :=
  [{ seq := 1, lamport := 1, time := { year := 2026 }, device := ascii "d", kind := .put
     path := ascii "a", blob := contentOf 0x61 },
    { seq := 2, lamport := 2, time := { year := 2026 }, device := ascii "d", kind := .delete
      path := ascii "a" },
    { seq := 3, lamport := 3, device := ascii "d", kind := .put, path := ascii "b"
      blob := contentOf 0x61 }]

/-- The delete is paired with a put of 2025 years before. -/
theorem timeless_pairs : ¬ ∀ journals : List (List Op), PairsRight (sortOps journals.flatten) := by
  intro h
  have hright := h [timelessCopy]
  have hpair : ∃ d ∈ (moveScan (sortOps [timelessCopy].flatten)).deletes, ∃ c,
      (moveScan (sortOps [timelessCopy].flatten)).partner d = some c ∧
        c.at_.ns + 2 ^ 63 ≤ d.at_.ns := by
    refine ⟨⟨ascii "a", contentOf 0x61, ascii "d", { year := 2026 }⟩, ?_,
      ⟨ascii "b", contentOf 0x61, ascii "d", {}⟩, ?_, ?_⟩
    · decide +kernel
    · decide +kernel
    · decide +kernel
  obtain ⟨d, hd, c, hc, hfar⟩ := hpair
  have hclose := hright.window d hd c hc
  rw [moveWindow] at hclose
  omega

end Beardrive
