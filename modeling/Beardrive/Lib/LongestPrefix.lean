import Beardrive.Lib.GoString
import Beardrive.Lib.Greatest

/-!
# The longest prefix of a name

Rules that stand each at a prefix, and the one a name is looked up in: the rule of the longest
prefix of the name, the first of them where several stand at it. Nothing here refers to any
particular program.

A table of rules is asked in two steps. `Longest` says which prefix decides, and depends on the
set of prefixes alone; the rule is then the first that stands there.

## Main definitions

* `Longest` — the longest of a set of prefixes of a name
* `longestPrefix` — the rule of a name

## Main results

* `longestPrefix_of_longest`, `longestPrefix_eq_none_iff` — the two steps
-/

namespace Beardrive

/-- `P` is the longest prefix of `x` among `S`. -/
def Longest (S : Set GoString) (x P : GoString) : Prop :=
  P ∈ S ∧ P <+: x ∧ ∀ Q ∈ S, Q <+: x → Q.length ≤ P.length

theorem Longest.unique {S : Set GoString} {x P Q : GoString} (hP : Longest S x P)
    (hQ : Longest S x Q) : P = Q := by
  have hle := hQ.2.2 P hP.1 hP.2.1
  exact (List.prefix_of_prefix_length_le hP.2.1 hQ.2.1 hle).eq_of_length_le (hP.2.2 Q hQ.1 hQ.2.1)

/-- Every prefix of the set that `x` starts with is one of its longest. -/
theorem Longest.prefix_of_mem {S : Set GoString} {x P Q : GoString} (hP : Longest S x P)
    (hQ : Q ∈ S) (hx : Q <+: x) : Q <+: P :=
  List.prefix_of_prefix_length_le hx hP.2.1 (hP.2.2 Q hQ hx)

theorem Longest.self {S : Set GoString} {P : GoString} (h : P ∈ S) : Longest S P P :=
  ⟨h, List.prefix_refl P, fun _ _ hQ => hQ.length_le⟩

/-- Below the longest prefix of a name nothing else decides. -/
theorem Longest.of_between {S : Set GoString} {x y P : GoString} (h : Longest S x P)
    (hP : P <+: y) (hy : y <+: x) : Longest S y P :=
  ⟨h.1, hP, fun Q hQ hQy => h.2.2 Q hQ (hQy.trans hy)⟩

section Rules

variable {ρ : Type*} (pre : ρ → GoString)

/-- The rule of a name: the first of those at its longest prefix. -/
def longestPrefix (rules : List ρ) (x : GoString) : Option ρ :=
  greatest (fun b r => decide ((pre b).length < (pre r).length)) (fun r => hasPrefix x (pre r)) rules

/-- The prefixes rules stand at. -/
def standsAt (rules : List ρ) : Set GoString := {P | ∃ r ∈ rules, pre r = P}

variable {pre} {rules : List ρ} {x : GoString}

theorem longestPrefix_append_singleton (r : ρ) :
    longestPrefix pre (rules ++ [r]) x =
      if hasPrefix x (pre r) then
        match longestPrefix pre rules x with
        | none => some r
        | some b => if decide ((pre b).length < (pre r).length) then some r else some b
      else longestPrefix pre rules x :=
  greatest_append_singleton _ _ _ _

theorem mem_standsAt_iff {P : GoString} :
    P ∈ standsAt pre rules ↔ ∃ r, rules.find? (fun a => decide (pre a = P)) = some r := by
  constructor
  · rintro ⟨r, hr, rfl⟩
    rw [← Option.isSome_iff_exists, List.find?_isSome]
    exact ⟨r, hr, by simp⟩
  · rintro ⟨r, hr⟩
    exact ⟨r, List.mem_of_find?_eq_some hr, by simpa using List.find?_some hr⟩

theorem longestPrefix_eq_none_iff :
    longestPrefix pre rules x = none ↔ ∀ P ∈ standsAt pre rules, ¬ P <+: x := by
  rw [longestPrefix, greatest_eq_none_iff]
  simp only [hasPrefix_eq_false_iff]
  constructor
  · rintro h _ ⟨r, hr, rfl⟩
    exact h r hr
  · exact fun h r hr => h _ ⟨r, hr, rfl⟩

private theorem length_lt_iff (a b : ρ) :
    decide ((pre a).length < (pre b).length) = true ↔ (pre a).length < (pre b).length :=
  decide_eq_true_iff

theorem longest_of_longestPrefix {r : ρ} (h : longestPrefix pre rules x = some r) :
    Longest (standsAt pre rules) x (pre r) := by
  obtain ⟨hmem, hpre, hmax⟩ := greatest_eq_some length_lt_iff h
  refine ⟨⟨r, hmem, rfl⟩, hasPrefix_iff.mp hpre, ?_⟩
  rintro _ ⟨a, ha, rfl⟩ hax
  exact hmax a ha (hasPrefix_iff.mpr hax)

/-- The rule of a name is the first at its prefix. -/
theorem find?_of_longestPrefix {r : ρ} (h : longestPrefix pre rules x = some r) :
    rules.find? (fun a => decide (pre a = pre r)) = some r := by
  have hfirst := find?_of_greatest length_lt_iff h
  have hr := (longest_of_longestPrefix h).2.1
  rw [← hfirst]
  congr 1
  funext a
  rw [Bool.eq_iff_iff]
  simp only [decide_eq_true_eq, Bool.and_eq_true, hasPrefix_iff]
  constructor
  · intro ha
    exact ⟨ha ▸ hr, by rw [ha]⟩
  · rintro ⟨hax, hlen⟩
    exact (List.prefix_of_prefix_length_le hax hr hlen.le).eq_of_length hlen

/-- **A name is looked up at its longest prefix.** -/
theorem longestPrefix_of_longest {P : GoString} (h : Longest (standsAt pre rules) x P) :
    longestPrefix pre rules x = rules.find? fun a => decide (pre a = P) := by
  cases hr : longestPrefix pre rules x with
  | none => exact absurd h.2.1 (longestPrefix_eq_none_iff.mp hr P h.1)
  | some r =>
    rw [h.unique (longest_of_longestPrefix hr)]
    exact (find?_of_longestPrefix hr).symm

/-- Two names that start with the same prefixes have the same rule. -/
theorem longestPrefix_congr {y : GoString} (h : ∀ r ∈ rules, pre r <+: x ↔ pre r <+: y) :
    longestPrefix pre rules x = longestPrefix pre rules y :=
  greatest_congr fun r hr => Bool.eq_iff_iff.mpr (by simpa using h r hr)

/-- A rule on the empty prefix, behind the others, has the names no other covers. -/
theorem longestPrefix_append_nil {r : ρ} (h : pre r = []) :
    longestPrefix pre (rules ++ [r]) x = (longestPrefix pre rules x).or (some r) := by
  rw [longestPrefix_append_singleton, h]
  cases longestPrefix pre rules x <;> simp

theorem longestPrefix_map {σ : Type*} {pre' : σ → GoString} {f : ρ → σ}
    (hf : ∀ r, pre' (f r) = pre r) :
    longestPrefix pre' (rules.map f) x = (longestPrefix pre rules x).map f := by
  induction rules using List.reverseRecOn with
  | nil => rfl
  | append_singleton rules r ih =>
    rw [List.map_append, List.map_singleton, longestPrefix_append_singleton, ih,
      longestPrefix_append_singleton]
    simp only [hf]
    split
    · cases longestPrefix pre rules x with
      | none => rfl
      | some b =>
        simp only [Option.map_some, hf]
        split <;> rfl
    · rfl

end Rules

end Beardrive
