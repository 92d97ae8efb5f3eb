import Mathlib.Data.List.Forall2

/-!
# Patterns with gaps

A pattern is a list of tests with gaps among them. It matches a list when the tests hold of entries
of the list one after the other, a gap standing for any number of entries, including none. Patterns
of segments and patterns of characters are of this kind. Nothing here refers to any particular
pattern.

A pattern with one gap at most is matched by position: the tests in front of the gap count from the
front of the list, those behind it from its end.

## Main definitions

* `gapMatch` — a pattern matches a list

## Main results

* `gapMatch_iff_of_no_gap`, `gapMatch_iff_of_one_gap` — matching by position
-/

namespace Beardrive

variable {α β : Type*} (R : β → α → Prop)

/-- A pattern matches a list; `none` is a gap. -/
def gapMatch : List (Option β) → List α → Prop
  | [], ss => ss = []
  | none :: p, ss => ∃ k ≤ ss.length, gapMatch p (ss.drop k)
  | some _ :: _, [] => False
  | some b :: p, a :: ss => R b a ∧ gapMatch p ss

/-- Whether it does can be tried out. -/
instance decidableGapMatch [∀ b a, Decidable (R b a)] [DecidableEq α] :
    ∀ (p : List (Option β)) (ss : List α), Decidable (gapMatch R p ss)
  | [], ss => inferInstanceAs (Decidable (ss = []))
  | none :: p, ss =>
    haveI (k : ℕ) := decidableGapMatch p (ss.drop k)
    decidable_of_iff ((List.range (ss.length + 1)).any fun k =>
        decide (gapMatch R p (ss.drop k))) <| by
      simp only [List.any_eq_true, List.mem_range, Nat.lt_succ_iff, decide_eq_true_eq, gapMatch]
  | some _ :: _, [] => inferInstanceAs (Decidable False)
  | some b :: p, a :: ss =>
    haveI := decidableGapMatch p ss
    inferInstanceAs (Decidable (R b a ∧ gapMatch R p ss))

variable {R}

/-- **Without a gap the tests are those of the entries.** -/
theorem gapMatch_map_some {p : List β} {ss : List α} :
    gapMatch R (p.map some) ss ↔ List.Forall₂ R p ss := by
  induction p generalizing ss with
  | nil => exact List.forall₂_nil_left_iff.symm
  | cons b p ih =>
    cases ss with
    | nil => exact iff_of_false id nofun
    | cons a ss =>
      rw [List.map_cons, gapMatch, List.forall₂_cons, ih]

/-- **With one gap** the tests in front of it are those of the first entries, and the tests behind
it those of the last. -/
theorem gapMatch_append_gap {p q : List β} {ss : List α} :
    gapMatch R (p.map some ++ none :: q.map some) ss ↔ p.length + q.length ≤ ss.length ∧
      List.Forall₂ R p (ss.take p.length) ∧
      List.Forall₂ R q (ss.drop (ss.length - q.length)) := by
  induction p generalizing ss with
  | nil =>
    rw [List.map_nil, List.nil_append, gapMatch]
    constructor
    · rintro ⟨k, hk, h⟩
      have hall := gapMatch_map_some.mp h
      have hlen := hall.length_eq
      rw [List.length_drop] at hlen
      refine ⟨by simp only [List.length_nil]; omega, List.Forall₂.nil, ?_⟩
      rwa [show ss.length - q.length = k by omega]
    · rintro ⟨hlen, -, h⟩
      exact ⟨ss.length - q.length, Nat.sub_le _ _, gapMatch_map_some.mpr h⟩
  | cons b p ih =>
    cases ss with
    | nil =>
      refine iff_of_false id fun h => ?_
      simp only [List.length_cons, List.length_nil] at h
      omega
    | cons a ss =>
      rw [List.map_cons, List.cons_append, gapMatch, ih, List.length_cons, List.length_cons,
        List.take_succ_cons, List.forall₂_cons]
      have hdrop (hle : p.length + q.length ≤ ss.length) :
          (a :: ss).drop (ss.length + 1 - q.length) = ss.drop (ss.length - q.length) := by
        rw [show ss.length + 1 - q.length = ss.length - q.length + 1 by omega, List.drop_succ_cons]
      constructor
      · rintro ⟨hab, hlen, hp, hq⟩
        exact ⟨by omega, ⟨hab, hp⟩, by rwa [hdrop hlen]⟩
      · rintro ⟨hlen, ⟨hab, hp⟩, hq⟩
        have hlen' : p.length + q.length ≤ ss.length := by omega
        exact ⟨hab, hlen', hp, by rwa [hdrop hlen'] at hq⟩

/-! ### By position -/

theorem forall₂_iff_getElem? {p : List β} {ss : List α} :
    List.Forall₂ R p ss ↔ p.length = ss.length ∧
      ∀ (i : ℕ) (b : β), p[i]? = some b → ∃ a, ss[i]? = some a ∧ R b a := by
  rw [List.forall₂_iff_get]
  refine and_congr_right fun hlen => ⟨fun h i b hb => ?_, fun h i hi hi' => ?_⟩
  · obtain ⟨hi, rfl⟩ := List.getElem?_eq_some_iff.mp hb
    exact ⟨ss[i], List.getElem?_eq_getElem (hlen ▸ hi), h i hi (hlen ▸ hi)⟩
  · obtain ⟨a, ha, hab⟩ := h i p[i] (List.getElem?_eq_getElem hi)
    rw [List.getElem?_eq_getElem hi', Option.some.injEq] at ha
    rw [← ha] at hab
    exact hab

variable {P : List (Option β)} {ss : List α}

theorem exists_map_some (h : none ∉ P) : ∃ p : List β, P = p.map some := by
  induction P with
  | nil => exact ⟨[], rfl⟩
  | cons o P ih =>
    rw [List.mem_cons, not_or] at h
    obtain ⟨p, rfl⟩ := ih h.2
    cases o with
    | none => exact absurd rfl h.1
    | some b => exact ⟨b :: p, rfl⟩

/-- **A pattern without gaps** is matched by position. -/
theorem gapMatch_iff_of_no_gap (h : none ∉ P) :
    gapMatch R P ss ↔ ss.length = P.length ∧
      ∀ (i : ℕ) (b : β), P[i]? = some (some b) → ∃ a, ss[i]? = some a ∧ R b a := by
  obtain ⟨p, rfl⟩ := exists_map_some h
  rw [gapMatch_map_some, forall₂_iff_getElem?, List.length_map, eq_comm]
  simp only [List.getElem?_map, Option.map_eq_some_iff, Option.some.injEq, exists_eq_right]

/-- **A pattern with one gap** is matched by position: behind the gap from the end. -/
theorem gapMatch_iff_of_one_gap {k : ℕ} (hk : P[k]? = some none)
    (hone : ∀ i : ℕ, P[i]? = some none → i = k) :
    gapMatch R P ss ↔ P.length ≤ ss.length + 1 ∧ ∀ (i : ℕ) (b : β), P[i]? = some (some b) →
      ∃ a, ss[if i < k then i else ss.length + i - P.length]? = some a ∧ R b a := by
  obtain ⟨hlt, hnone⟩ := List.getElem?_eq_some_iff.mp hk
  have hfront : none ∉ P.take k := by
    intro hmem
    obtain ⟨i, hi⟩ := List.mem_iff_getElem?.mp hmem
    rw [List.getElem?_take] at hi
    split_ifs at hi with hik
    exact absurd (hone i hi) (by omega)
  have hback : none ∉ P.drop (k + 1) := by
    intro hmem
    obtain ⟨i, hi⟩ := List.mem_iff_getElem?.mp hmem
    rw [List.getElem?_drop] at hi
    exact absurd (hone _ hi) (by omega)
  obtain ⟨p, hp⟩ := exists_map_some hfront
  obtain ⟨q, hq⟩ := exists_map_some hback
  have hP : P = p.map some ++ none :: q.map some := by
    rw [← hp, ← hq, ← hnone, List.getElem_cons_drop, List.take_append_drop]
  have hpk : p.length = k := by
    have h := congrArg List.length hp
    rw [List.length_take, List.length_map] at h
    omega
  have hlen : P.length = p.length + q.length + 1 := by
    rw [hP, List.length_append, List.length_map, List.length_cons, List.length_map]
    omega
  have hat (i : ℕ) (b : β) : P[i]? = some (some b) ↔
      i < k ∧ p[i]? = some b ∨ k < i ∧ q[i - k - 1]? = some b := by
    rw [hP]
    rcases Nat.lt_trichotomy i k with hi | rfl | hi
    · rw [List.getElem?_append_left (by rw [List.length_map]; omega), List.getElem?_map]
      simp only [Option.map_eq_some_iff, Option.some.injEq, exists_eq_right, hi, true_and]
      exact ⟨.inl, fun h => h.resolve_right fun h => by omega⟩
    · rw [List.getElem?_append_right (by rw [List.length_map]; omega), List.length_map, hpk,
        Nat.sub_self, List.getElem?_cons_zero]
      exact iff_of_false nofun fun h => h.elim (fun h => absurd h.1 (Nat.lt_irrefl _))
        fun h => absurd h.1 (Nat.lt_irrefl _)
    · rw [List.getElem?_append_right (by rw [List.length_map]; omega), List.length_map, hpk,
        show i - k = i - k - 1 + 1 by omega, List.getElem?_cons_succ, List.getElem?_map]
      simp only [Option.map_eq_some_iff, Option.some.injEq, exists_eq_right, hi, true_and]
      exact ⟨.inr, fun h => h.resolve_left fun h => by omega⟩
  rw [hP, gapMatch_append_gap, ← hP, forall₂_iff_getElem?, forall₂_iff_getElem?, List.length_take,
    List.length_drop, hpk]
  constructor
  · rintro ⟨hle, ⟨-, hp'⟩, -, hq'⟩
    refine ⟨by omega, fun i b hb => ?_⟩
    rcases (hat i b).mp hb with ⟨hi, hb⟩ | ⟨hi, hb⟩
    · obtain ⟨a, ha, hab⟩ := hp' i b hb
      rw [List.getElem?_take, if_pos hi] at ha
      exact ⟨a, by rwa [if_pos hi], hab⟩
    · obtain ⟨a, ha, hab⟩ := hq' _ b hb
      have hbound := (List.getElem?_eq_some_iff.mp hb).1
      rw [List.getElem?_drop, show ss.length - q.length + (i - k - 1) = ss.length + i - P.length by
        omega] at ha
      exact ⟨a, by rwa [if_neg (by omega)], hab⟩
  · rintro ⟨hle, h⟩
    refine ⟨by omega, ⟨by omega, fun i b hb => ?_⟩, by omega, fun j b hb => ?_⟩
    · have hi := (List.getElem?_eq_some_iff.mp hb).1
      obtain ⟨a, ha, hab⟩ := h i b ((hat i b).mpr (.inl ⟨by omega, hb⟩))
      rw [if_pos (by omega)] at ha
      exact ⟨a, by rwa [List.getElem?_take, if_pos (by omega)], hab⟩
    · have hj := (List.getElem?_eq_some_iff.mp hb).1
      obtain ⟨a, ha, hab⟩ := h (k + 1 + j) b ((hat _ b).mpr (.inr ⟨by omega, by
        rwa [show k + 1 + j - k - 1 = j by omega]⟩))
      rw [if_neg (by omega)] at ha
      refine ⟨a, ?_, hab⟩
      rwa [List.getElem?_drop, show ss.length - q.length + j = ss.length + (k + 1 + j) - P.length by
        omega]

end Beardrive
