import Beardrive.Webapp.FileHistory
import Beardrive.Webapp.MovePairs

/-!
# The versions a file has of its own

The history of a path that a file was moved to begins at the hop: the earlier of the two halves of
the move. The put that created the path is not before it, and what the hub replays behind that put
are further versions of the file. But the segment of the path is cut by the clock, and the replay
does not go by the clock. A put behind the creating one whose device has a slow clock is before the
hop by that clock, and the history of the file leaves it out.

The pairing is one-to-one, so there is one hop into a path at most, and the chain does not come
back to the path it began with: the hop decides alone.

## Main definitions

* `versionsAt` — the puts at a path, from the one that created it on
* `HasOwnVersions` — they are in the history of the path

## Main results

* `length_inboundIndex_le` — there is one hop into a path at most
* `inSegments_own_iff` — which ops of a path are in its own history
* `own_versions_iff` — when all versions are
-/

namespace Beardrive

/-! ### Hops into a path -/

theorem length_flatMap_map {α β γ : Type*} (l : List α) (f : α → List β) (g : α → β → γ) :
    (l.flatMap fun a => (f a).map (g a)).length = (l.flatMap f).length := by
  induction l with
  | nil => rfl
  | cons a l ih =>
    rw [List.flatMap_cons, List.flatMap_cons, List.length_append, List.length_append, ih,
      List.length_map]

/-- A move into a path is of the one put that created it. -/
theorem exists_partner_of_event {ops : List Op} {d : Half} {p : GoString} (hp : p ≠ [])
    (h : ((moveScan ops).event d).to_ = p) :
    ∃ c, (moveScan ops).partner d = some c ∧ c.path = p := by
  rw [MoveScan.event_eq] at h
  split at h
  · rename_i c hc
    exact ⟨c, hc, h⟩
  · exact absurd h.symm hp

/-- At most one delete is a move into a path. -/
theorem length_movedTo_le (ops : List Op) {p : GoString} (hp : p ≠ []) :
    ((moveScan ops).deletes.filter fun d => ((moveScan ops).event d).to_ = p).length ≤ 1 := by
  by_cases hnone : ((moveScan ops).deletes.filter fun d =>
      ((moveScan ops).event d).to_ = p) = []
  · rw [hnone]
    exact Nat.zero_le 1
  · obtain ⟨d, hd⟩ := List.exists_mem_of_ne_nil _ hnone
    obtain ⟨c, hc, hpath⟩ := exists_partner_of_event hp (of_decide_eq_true (List.mem_filter.mp hd).2)
    have hone := @SoleMatch.length_filter_partner_le _ _ mayPair (moveScan ops).creates
      (moveScan ops).deletes c _
    refine le_trans (List.monotone_filter_right _ fun d' hd' => ?_).length_le hone
    obtain ⟨c', hc', hpath'⟩ := exists_partner_of_event hp (of_decide_eq_true hd')
    have hsame : c' = c := List.inj_on_of_nodup_map (sound_moveScan ops).nodup
      (SoleMatch.mem_of_partner hc').1 (SoleMatch.mem_of_partner hc).1 (hpath'.trans hpath.symm)
    exact decide_eq_true (hsame ▸ hc')

/-- **There is one hop into a path at most.** -/
theorem length_inboundIndex_le (ops : List Op) (p : GoString) :
    (inboundIndex ops (buildMoveIndex ops) p).length ≤ 1 := by
  by_cases hp : p = []
  · have hnone : inboundIndex ops (buildMoveIndex ops) p = [] := by
      refine List.flatMap_eq_nil_iff.mpr fun src _ => ?_
      rw [List.map_eq_nil_iff, List.filter_eq_nil_iff]
      intro e _ he
      simp only [ne_eq, Bool.and_eq_true, decide_eq_true_eq] at he
      exact he.1 (he.2.trans hp)
    rw [hnone]
    exact Nat.zero_le 1
  · have hgroup (src : GoString) : ((buildMoveIndex ops src).filter fun e =>
        e.to_ ≠ [] && e.to_ = p).length = (((moveScan ops).deletes.filter fun d =>
          ((moveScan ops).event d).to_ = p).filter fun d => d.path = src).length := by
      have hperm : (buildMoveIndex ops src).Perm
          (((moveScan ops).deletes.filter fun d => d.path = src).map (moveScan ops).event) :=
        List.perm_insertionSort _ _
      have hmoved : (moveScan ops).deletes.filter
          ((fun e : PathEvent => e.to_ ≠ [] && e.to_ = p) ∘ (moveScan ops).event) =
          (moveScan ops).deletes.filter fun d => ((moveScan ops).event d).to_ = p := by
        refine List.filter_congr fun d _ => ?_
        by_cases hto : ((moveScan ops).event d).to_ = p
        · simp [hto, hp]
        · simp [hto]
      rw [(hperm.filter _).length_eq, List.filter_map, List.length_map, List.filter_comm, hmoved]
    have hlengths : (inboundIndex ops (buildMoveIndex ops) p).length =
        ((pathsOf ops).flatMap fun src => ((moveScan ops).deletes.filter fun d =>
          ((moveScan ops).event d).to_ = p).filter fun d => d.path = src).length := by
      rw [inboundIndex, length_flatMap_map, List.length_flatMap, List.length_flatMap]
      exact congrArg List.sum (List.map_congr_left fun src _ => hgroup src)
    rw [hlengths]
    exact (length_groups_le (nodup_pathsOf ops) _).trans (length_movedTo_le ops hp)

/-! ### The chain of a path -/

/-- A chain does not come back to a path it has seen. -/
theorem path_of_mem_chainFrom {into : GoString → List Inbound} (n : ℕ) {seen : List GoString}
    {cur : GoString} {upper : Time} {s : Segment} (h : s ∈ chainFrom into n seen cur upper) :
    s.path = cur ∨ s.path ∉ seen := by
  induction n generalizing seen cur upper with
  | zero => cases h
  | succ n ih =>
    rw [chainFrom] at h
    split at h
    · rename_i anc hanc
      split_ifs at h with hseen
      · exact .inl (congrArg Segment.path (List.mem_singleton.mp h))
      · rcases List.mem_cons.mp h with rfl | h
        · exact .inl rfl
        · rcases ih h with heq | hnew
          · exact .inr (heq ▸ hseen)
          · exact .inr fun hmem => hnew (List.mem_cons_of_mem _ hmem)
    · exact .inl (congrArg Segment.path (List.mem_singleton.mp h))

/-- A file is not moved to its own path. -/
theorem inbound_ne {ops : List Op} {p : GoString} {anc : Inbound}
    (h : anc ∈ inboundIndex ops (buildMoveIndex ops) p) : anc.from_ ≠ p := by
  obtain ⟨src, -, hsrc⟩ := List.mem_flatMap.mp h
  obtain ⟨e, he, rfl⟩ := List.mem_map.mp hsrc
  obtain ⟨hmem, hto⟩ := List.mem_filter.mp he
  simp only [ne_eq, Bool.and_eq_true, decide_eq_true_eq] at hto
  have hperm : (buildMoveIndex ops src).Perm
      (((moveScan ops).deletes.filter fun d => d.path = src).map (moveScan ops).event) :=
    List.perm_insertionSort _ _
  obtain ⟨d, hd, rfl⟩ := List.mem_map.mp (hperm.mem_iff.mp hmem)
  obtain ⟨c, hc, hpath⟩ := exists_partner_of_event (fun hp => hto.1 (hto.2.trans hp)) hto.2
  have hdpath := of_decide_eq_true (List.mem_filter.mp hd).2
  have hmay := (SoleMatch.mem_of_partner hc).2
  rw [mayPair, Bool.and_eq_true, pairs_iff] at hmay
  rintro hsame
  exact hmay.2.1 (hpath.trans (hsame.symm.trans hdpath.symm))

/-- **An op of a path is in the history of the path** when no hop into the path is after it. -/
theorem inSegments_own_iff (ops : List Op) (p : GoString) (at_ : Time) :
    inSegments (chainSegments ops (buildMoveIndex ops) p) p at_ = true ↔
      ∀ anc ∈ inboundIndex ops (buildMoveIndex ops) p,
        anc.hop.isZero = true ∨ at_.before anc.hop = false := by
  have hopen : ({} : Time).isZero = true := by decide
  have hle := length_inboundIndex_le ops p
  rw [chainSegments, maxChain, chainFrom]
  cases hinto : inboundIndex ops (buildMoveIndex ops) p with
  | nil => simp [inSegments, hopen]
  | cons anc rest =>
    have hrest : rest = [] := by
      rw [hinto, List.length_cons] at hle
      exact List.length_eq_zero_iff.mp (by omega)
    subst hrest
    have hne : anc.from_ ≠ p := inbound_ne (hinto ▸ List.mem_singleton_self anc)
    have hothers : ∀ s ∈ chainFrom (inboundIndex ops (buildMoveIndex ops)) 63 [anc.from_, p]
        anc.from_ anc.hop, s.path ≠ p := by
      intro s hs hpath
      rcases path_of_mem_chainFrom 63 hs with heq | hnew
      · exact hne (heq.symm.trans hpath)
      · exact hnew (by simp [hpath])
    simp only [List.mem_singleton, hne, if_false]
    rw [inSegments, List.any_cons, Bool.or_eq_true, List.any_eq_true]
    have hlater : ¬ ∃ s ∈ chainFrom (inboundIndex ops (buildMoveIndex ops)) 63 [anc.from_, p]
        anc.from_ anc.hop, (s.path = p && !(!s.from_.isZero && at_.before s.from_) &&
          !(!s.to_.isZero && !at_.before s.to_)) = true := by
      rintro ⟨s, hs, hin⟩
      simp only [Bool.and_eq_true, decide_eq_true_eq] at hin
      exact hothers s hs hin.1.1
    rw [or_iff_left hlater]
    cases hzero : anc.hop.isZero <;> cases hbefore : at_.before anc.hop <;>
      simp [hopen, hzero, hbefore]

/-! ### The versions -/

/-- A put that names content. -/
def Op.namesContent (op : Op) : Bool := op.kind = .put && isBlobSHA op.blob

/-- The puts at a path, from the one that created it on, in the order of replay. -/
def versionsAt (ops : List Op) (p : GoString) : List Op :=
  ((ops.filter fun op => op.path = p).dropWhile fun op => !op.namesContent).filter
    fun op => op.kind = .put

/-- The history of a path has every put at it from the one that created it on; and where nothing
was moved to the path, every op at it. -/
def HasOwnVersions (ops : List Op) (p : GoString) : Prop :=
  (∀ op ∈ versionsAt ops p,
    inSegments (chainSegments ops (buildMoveIndex ops) p) op.path op.time = true) ∧
  (inboundIndex ops (buildMoveIndex ops) p = [] → ∀ op ∈ ops, op.path = p →
    inSegments (chainSegments ops (buildMoveIndex ops) p) op.path op.time = true)

/-- **A history has the versions of its own file** exactly when no put at the path, from the one
that created it on, is by its own clock before the hop into the path. -/
theorem own_versions_iff (journals : List (List Op)) (p : GoString) :
    HasOwnVersions (sortOps journals.flatten) p ↔
      ∀ anc ∈ inboundIndex (sortOps journals.flatten) (buildMoveIndex (sortOps journals.flatten)) p,
        ∀ op ∈ versionsAt (sortOps journals.flatten) p,
          anc.hop.isZero = true ∨ op.time.before anc.hop = false := by
  generalize sortOps journals.flatten = ops
  have hpath : ∀ op ∈ versionsAt ops p, op.path = p := by
    intro op hop
    have hmem := (List.dropWhile_sublist _).subset (List.mem_of_mem_filter hop)
    exact of_decide_eq_true (List.mem_filter.mp hmem).2
  have hown : (∀ op ∈ versionsAt ops p,
      inSegments (chainSegments ops (buildMoveIndex ops) p) op.path op.time = true) ↔
        ∀ anc ∈ inboundIndex ops (buildMoveIndex ops) p, ∀ op ∈ versionsAt ops p,
          anc.hop.isZero = true ∨ op.time.before anc.hop = false := by
    constructor
    · intro h anc hanc op hop
      have hin := h op hop
      rw [hpath op hop] at hin
      exact (inSegments_own_iff ops p op.time).mp hin anc hanc
    · intro h op hop
      rw [hpath op hop]
      exact (inSegments_own_iff ops p op.time).mpr fun anc hanc => h anc hanc op hop
  rw [HasOwnVersions, hown]
  refine and_iff_left fun hnone op _ heq => ?_
  rw [heq]
  refine (inSegments_own_iff ops p op.time).mpr fun anc hanc => ?_
  rw [hnone] at hanc
  cases hanc

/-- A file is moved at noon, and a device whose clock is an hour slow writes to it after that. -/
def slowClock : List (List Op) :=
  let noon : Op :=
    { seq := 1, lamport := 1, device := ascii "d"
      time := { year := 2026, hour := 12, valid := validCivil_noon }
      kind := .put, path := ascii "a", blob := contentOf 0x61 }
  [[noon, { noon with seq := 2, lamport := 2, path := ascii "b" },
      { noon with seq := 3, lamport := 3, kind := .delete, blob := [] }],
    [{ noon with
        lamport := 4, device := ascii "e", path := ascii "b"
        time := { year := 2026, hour := 11, valid := validCivil_eleven }
        blob := contentOf 0x62 }]]

/-- What the file holds is not in its history. -/
theorem slow_version_left_out : ¬ ∀ (journals : List (List Op)) (p : GoString),
    (foldFiles (sortOps journals.flatten) p).isSome = true →
      HasOwnVersions (sortOps journals.flatten) p := by
  intro h
  have hown := (h slowClock (ascii "b") (by decide +kernel)).1
  have hmem : ∃ op ∈ versionsAt (sortOps slowClock.flatten) (ascii "b"),
      inSegments (chainSegments (sortOps slowClock.flatten)
        (buildMoveIndex (sortOps slowClock.flatten)) (ascii "b")) op.path op.time = false := by
    decide +kernel
  obtain ⟨op, hop, hout⟩ := hmem
  rw [hown op hop] at hout
  cases hout

end Beardrive
