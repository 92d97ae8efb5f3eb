import Mathlib.Data.List.Basic
import Mathlib.Data.Nat.Notation

/-!
# Occurrences in a list

A list is cut at the occurrences of another, from left to right, each occurrence ending before the
next is looked for. To replace them is to put something else between the pieces. Nothing here refers
to any particular kind of list.

## Main definitions

* `pieces` — what stands between the occurrences
* `count`, `replaceFirst`, `replaceAll` — counting and replacing them
* `Replaced` — what it is to replace every occurrence, from left to right

## Main results

* `replaced_replaceAll` — every occurrence is replaced, and everything else is kept
* `replaceFirst_eq` — of one occurrence, the first is all
-/

namespace Beardrive

namespace Occurrences

variable {α : Type*} {old new s r : List α}

/-! ### What replacing is -/

/-- Every occurrence is replaced, from left to right: the first that there is, and those after its
end. -/
inductive Replaced (old new : List α) : ℕ → List α → List α → Prop
  | none {s : List α} : ¬ old <:+: s → Replaced old new 0 s s
  | first {n : ℕ} {p rest r : List α} :
      (∀ t u, p ++ old ++ rest = t ++ old ++ u → p.length ≤ t.length) →
      Replaced old new n rest r → Replaced old new (n + 1) (p ++ old ++ rest) (p ++ new ++ r)

/-- An element that begins no occurrence is kept in front. -/
theorem Replaced.cons {n : ℕ} {c : α} (h : Replaced old new n s r) (hc : ¬ old <+: c :: s) :
    Replaced old new n (c :: s) (c :: r) := by
  cases h with
  | none hnone =>
    exact .none fun h => (List.infix_cons_iff.mp h).elim hc hnone
  | @first n p rest r hfirst hrest =>
    refine Replaced.first (p := c :: p) (fun t u htu => ?_) hrest
    cases t with
    | nil => exact absurd ⟨u, htu.symm⟩ hc
    | cons d t =>
      have hrest := (List.cons.inj htu).2
      simpa using hfirst t u hrest

/-! ### Putting pieces together -/

theorem intercalate_cons_of_ne_nil (sep p : List α) {rest : List (List α)} (h : rest ≠ []) :
    sep.intercalate (p :: rest) = p ++ sep ++ sep.intercalate rest := by
  obtain ⟨q, rest, rfl⟩ := List.exists_cons_of_ne_nil h
  simp [List.intercalate]

theorem intercalate_modifyHead (sep : List α) (c : α) {ps : List (List α)} (h : ps ≠ []) :
    sep.intercalate (ps.modifyHead (c :: ·)) = c :: sep.intercalate ps := by
  obtain ⟨p, rest, rfl⟩ := List.exists_cons_of_ne_nil h
  cases rest with
  | nil => simp [List.intercalate]
  | cons q rest => simp [List.intercalate]

/-- What follows the occurrence a list begins with. -/
theorem eq_append_drop {c : α} (hold : old ≠ []) (h : old <+: c :: s) :
    c :: s = old ++ s.drop (old.length - 1) := by
  obtain ⟨d, old, rfl⟩ := List.exists_cons_of_ne_nil hold
  obtain ⟨hd, t, rfl⟩ := List.cons_prefix_cons.mp h
  simp [hd]

/-! ### Cutting -/

variable [DecidableEq α]

/-- The pieces of a list of which the first elements are dropped, as many as are left of an
occurrence. -/
def cut (old : List α) : ℕ → List α → List (List α)
  | _, [] => [[]]
  | n + 1, _ :: s => cut old n s
  | 0, c :: s =>
    if old <+: c :: s then [] :: cut old (old.length - 1) s
    else (cut old 0 s).modifyHead (c :: ·)

/-- What stands between the occurrences. -/
def pieces (old s : List α) : List (List α) := cut old 0 s

/-- How many occurrences there are. -/
def count (old s : List α) : ℕ := (pieces old s).length - 1

/-- Every occurrence is replaced. -/
def replaceAll (s old new : List α) : List α := new.intercalate (pieces old s)

/-- The first occurrence is replaced. -/
def replaceFirst (s old new : List α) : List α :=
  match pieces old s with
  | p :: q :: rest => p ++ new ++ old.intercalate (q :: rest)
  | _ => s

theorem cut_ne_nil (old : List α) (n : ℕ) (s : List α) : cut old n s ≠ [] := by
  induction s generalizing n with
  | nil => cases n <;> simp [cut]
  | cons c s ih =>
    cases n with
    | zero =>
      rw [cut]
      split_ifs
      · simp
      · obtain ⟨p, rest, hcut⟩ := List.exists_cons_of_ne_nil (ih 0)
        simp [hcut]
    | succ n => exact ih n

theorem replaced_cut (new : List α) (hold : old ≠ []) (n : ℕ) (s : List α) :
    Replaced old new ((cut old n s).length - 1) (s.drop n) (new.intercalate (cut old n s)) := by
  induction s generalizing n with
  | nil =>
    have hnone : ¬ old <:+: [] := fun h => hold (List.infix_nil.mp h)
    cases n <;> simpa [cut, List.intercalate] using Replaced.none hnone
  | cons c s ih =>
    cases n with
    | succ n => exact ih n
    | zero =>
      rw [cut, List.drop_zero]
      split_ifs with hpre
      · have hne := cut_ne_nil old (old.length - 1) s
        have hlen : ([] :: cut old (old.length - 1) s).length - 1 =
            (cut old (old.length - 1) s).length - 1 + 1 := by
          have := List.length_pos_iff.mpr hne
          simp only [List.length_cons]
          omega
        rw [intercalate_cons_of_ne_nil _ _ hne, hlen, eq_append_drop hold hpre]
        exact Replaced.first (p := []) (fun _ _ _ => Nat.zero_le _) (ih _)
      · have hne := cut_ne_nil old 0 s
        rw [intercalate_modifyHead _ _ hne, List.length_modifyHead]
        exact (ih 0).cons hpre

/-- **Every occurrence is replaced, and everything else is kept.** -/
theorem replaced_replaceAll (new : List α) (hold : old ≠ []) (s : List α) :
    Replaced old new (count old s) s (replaceAll s old new) := replaced_cut new hold 0 s

/-- Of one occurrence, the first is all. -/
theorem replaceFirst_eq (new : List α) (h : count old s = 1) :
    replaceFirst s old new = replaceAll s old new := by
  rw [replaceFirst, replaceAll]
  rw [count] at h
  rcases hps : pieces old s with _ | ⟨p, _ | ⟨q, _ | ⟨q', rest⟩⟩⟩
  · simp [hps] at h
  · simp [hps] at h
  · simp [List.intercalate]
  · simp [hps] at h

end Occurrences

end Beardrive
