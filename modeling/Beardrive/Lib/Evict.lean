import Beardrive.Lib.Greatest

/-!
# Eviction by last use

Entries that weigh something share a limit. While all of them together are over it, the one that
was used longest ago goes, among those that may go at all. Every round may look at the entries in
an order of its own. Nothing here refers to any particular program.

## Main definitions

* `oldest` — the entry that goes next
* `evict` — what stays, what it weighs, and what has gone
* `Evicts` — what is to be expected of the two

## Main results

* `evicts_evict` — as many rounds as there are entries are enough
* `evict_perm` — where no two uses are of one tick, the orders of the rounds make no difference
-/

namespace Beardrive

namespace Evict

variable {α : Type*} {mayGo : α → Bool} {used : α → ℕ} {weight : α → ℤ}

/-- The entry used longest ago, among those that may go. -/
def oldest (mayGo : α → Bool) (used : α → ℕ) (l : List α) : Option α :=
  greatest (fun a b => used b < used a) mayGo l

/-- Entries went in the order of their last uses, each while what was left was over the limit, and
no longer ago used than any that could have gone and stayed; and they went until the rest fits or
must stay. -/
structure Evicts (mayGo : α → Bool) (used : α → ℕ) (weight : α → ℤ) (limit : ℤ) (l : List α)
    (total : ℤ) (r : List α × ℤ × List α) : Prop where
  parts : l.Perm (r.2.2 ++ r.1)
  kept : r.1.Sublist l
  weighs : r.2.1 = total - (r.2.2.map weight).sum
  allowed : ∀ v ∈ r.2.2, mayGo v = true
  ordered : r.2.2.Pairwise fun a b => used a ≤ used b
  older : ∀ v ∈ r.2.2, ∀ a ∈ r.1, mayGo a = true → used v ≤ used a
  needed : ∀ front v back, r.2.2 = front ++ v :: back → limit < total - (front.map weight).sum
  fits : r.2.1 ≤ limit ∨ ∀ a ∈ r.1, mayGo a = false

/-- Nothing goes. -/
theorem Evicts.of_nothing {limit total : ℤ} {l : List α}
    (h : total ≤ limit ∨ ∀ a ∈ l, mayGo a = false) :
    Evicts mayGo used weight limit l total (l, total, []) where
  parts := .refl _
  kept := .refl _
  weighs := by simp
  allowed v hv := absurd hv List.not_mem_nil
  ordered := .nil
  older v hv := absurd hv List.not_mem_nil
  needed front v back h := by simp at h
  fits := h

theorem oldest_eq_none {l : List α} (h : oldest mayGo used l = none) :
    ∀ a ∈ l, mayGo a = false :=
  greatest_eq_none_iff.mp h

theorem oldest_eq_some {l : List α} {v : α} (h : oldest mayGo used l = some v) :
    v ∈ l ∧ mayGo v = true ∧ ∀ a ∈ l, mayGo a = true → used v ≤ used a := by
  have hlt (a b : α) : decide (used b < used a) = true ↔
      OrderDual.toDual (used a) < OrderDual.toDual (used b) := by
    rw [decide_eq_true_iff, OrderDual.toDual_lt_toDual]
  exact greatest_eq_some hlt h

/-- The entry that goes next does not depend on the order of the list. -/
theorem oldest_perm {l l' : List α} (h : l.Perm l')
    (hinj : ∀ a ∈ l, ∀ b ∈ l, mayGo a = true → mayGo b = true → used a = used b → a = b) :
    oldest mayGo used l = oldest mayGo used l' := by
  cases hl : oldest mayGo used l with
  | none =>
    refine (greatest_eq_none_iff.mpr fun a ha => ?_).symm
    exact oldest_eq_none hl a (h.mem_iff.mpr ha)
  | some v =>
    obtain ⟨hv, hvgo, hvleast⟩ := oldest_eq_some hl
    cases hl' : oldest mayGo used l' with
    | none =>
      have hno := oldest_eq_none hl' v (h.mem_iff.mp hv)
      rw [hvgo] at hno
      cases hno
    | some w =>
      obtain ⟨hw, hwgo, hwleast⟩ := oldest_eq_some hl'
      have hsame : used v = used w := le_antisymm (hvleast w (h.mem_iff.mpr hw) hwgo)
        (hwleast v (h.mem_iff.mp hv) hvgo)
      rw [hinj v hv w (h.mem_iff.mpr hw) hvgo hwgo hsame]

variable [DecidableEq α]

/-- What stays, what it weighs, and what has gone, after so many rounds. -/
def evict (mayGo : α → Bool) (used : α → ℕ) (weight : α → ℤ) (limit : ℤ)
    (order : ℕ → List α → List α) : ℕ → List α → ℤ → List α × ℤ × List α
  | 0, l, total => (l, total, [])
  | n + 1, l, total =>
    if limit < total then
      match oldest mayGo used (order n l) with
      | none => (l, total, [])
      | some v =>
        let rest := evict mayGo used weight limit order n (l.erase v) (total - weight v)
        (rest.1, rest.2.1, v :: rest.2.2)
    else (l, total, [])

/-- An entry that may go goes first, and the rest follows. -/
theorem Evicts.cons {limit total : ℤ} {l : List α} {v : α} {r : List α × ℤ × List α}
    (hlimit : limit < total) (hmem : v ∈ l) (hgo : mayGo v = true)
    (hleast : ∀ a ∈ l, mayGo a = true → used v ≤ used a)
    (h : Evicts mayGo used weight limit (l.erase v) (total - weight v) r) :
    Evicts mayGo used weight limit l total (r.1, r.2.1, v :: r.2.2) where
  parts := (List.perm_cons_erase hmem).trans (h.parts.cons v)
  kept := h.kept.trans List.erase_sublist
  weighs := by
    rw [h.weighs, List.map_cons, List.sum_cons]
    omega
  allowed a ha := by
    rcases List.mem_cons.mp ha with rfl | ha
    · exact hgo
    · exact h.allowed a ha
  ordered := by
    refine .cons (fun a ha => ?_) h.ordered
    have hin : a ∈ l.erase v := h.parts.mem_iff.mpr (List.mem_append_left _ ha)
    exact hleast a (List.mem_of_mem_erase hin) (h.allowed a ha)
  older a ha b hb hbgo := by
    rcases List.mem_cons.mp ha with rfl | ha
    · exact hleast b (List.mem_of_mem_erase (h.kept.subset hb)) hbgo
    · exact h.older a ha b hb hbgo
  needed front a back heq := by
    cases front with
    | nil => simpa using hlimit
    | cons b front =>
      obtain ⟨rfl, htail⟩ : v = b ∧ r.2.2 = front ++ a :: back := List.cons.inj heq
      have hneeded := h.needed front a back htail
      rw [List.map_cons, List.sum_cons]
      omega
  fits := h.fits

/-- **As many rounds as there are entries are enough.** -/
theorem evicts_evict {limit : ℤ} {order : ℕ → List α → List α}
    (horder : ∀ n l, (order n l).Perm l) {n : ℕ} {l : List α} {total : ℤ} (hn : l.length ≤ n) :
    Evicts mayGo used weight limit l total (evict mayGo used weight limit order n l total) := by
  induction n generalizing l total with
  | zero =>
    obtain rfl := List.eq_nil_of_length_eq_zero (Nat.le_zero.mp hn)
    exact .of_nothing (.inr fun a ha => absurd ha List.not_mem_nil)
  | succ n ih =>
    rw [evict]
    split_ifs with hlimit
    · cases hold : oldest mayGo used (order n l) with
      | none =>
        refine .of_nothing (.inr fun a ha => ?_)
        exact oldest_eq_none hold a ((horder n l).mem_iff.mpr ha)
      | some v =>
        obtain ⟨hmem, hgo, hleast⟩ := oldest_eq_some hold
        have hv : v ∈ l := (horder n l).mem_iff.mp hmem
        have hlength : (l.erase v).length ≤ n := by
          rw [List.length_erase_of_mem hv]
          omega
        exact .cons hlimit hv hgo (fun a ha => hleast a ((horder n l).mem_iff.mpr ha)) (ih hlength)
    · exact .of_nothing (.inl (Int.not_lt.mp hlimit))

/-- **The orders of the rounds make no difference** where no two entries were used at one tick. -/
theorem evict_perm {limit : ℤ} {order order' : ℕ → List α → List α}
    (horder : ∀ n l, (order n l).Perm l) (horder' : ∀ n l, (order' n l).Perm l) {n : ℕ}
    {l l' : List α} (total : ℤ) (h : l.Perm l')
    (hinj : ∀ a ∈ l, ∀ b ∈ l, mayGo a = true → mayGo b = true → used a = used b → a = b) :
    (evict mayGo used weight limit order n l total).1.Perm
        (evict mayGo used weight limit order' n l' total).1 ∧
      (evict mayGo used weight limit order n l total).2 =
        (evict mayGo used weight limit order' n l' total).2 := by
  induction n generalizing l l' total with
  | zero => exact ⟨h, rfl⟩
  | succ n ih =>
    have hold : oldest mayGo used (order n l) = oldest mayGo used (order' n l') := by
      refine oldest_perm ((horder n l).trans (h.trans (horder' n l').symm)) fun a ha b hb => ?_
      exact hinj a ((horder n l).mem_iff.mp ha) b ((horder n l).mem_iff.mp hb)
    rw [evict, evict, hold]
    split_ifs
    · cases oldest mayGo used (order' n l') with
      | none => exact ⟨h, rfl⟩
      | some v =>
        have hrest := ih (total - weight v) (h.erase v) fun a ha b hb =>
          hinj a (List.mem_of_mem_erase ha) b (List.mem_of_mem_erase hb)
        dsimp only
        exact ⟨hrest.1, by rw [hrest.2]⟩
    · exact ⟨h, rfl⟩

end Evict

end Beardrive
