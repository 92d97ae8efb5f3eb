import Mathlib.Data.List.Induction
import Mathlib.Data.List.Perm.Basic
import Mathlib.Data.List.Sort
import Mathlib.Logic.Function.Basic
import Mathlib.Order.Defs.LinearOrder

/-!
# Last writer wins

Entries carry a slot, an effect on that slot and a sort key. Folding the entries in key order
leaves in each slot the effect of the last entry for it. Nothing here refers to any particular
program: keys are any linear order, slots any type with decidable equality.

## Winners

Two entries may share a key, and then a stable sort keeps them in the order they came in. So the
content of a slot is not a function of the *set* of entries unless every entry that is greatest
for the slot has the same effect. `Winner` names those entries, and
`lastWriter_perm_iff` says that this is exactly the condition.

## Main definitions

* `lastWriter` — the fold
* `Winner` — an entry that no other entry for its slot exceeds

## Main results

* `exists_winner_lastWriter` — a slot holds the effect of one of its winners
* `lastWriter_perm_iff` — independence of the input order, exactly
-/

namespace Beardrive

namespace LastWriter

variable {α κ σ β : Type*} [DecidableEq κ]

/-- Fold the entries in list order, each overwriting its slot. -/
def fold (slot : α → κ) (effect : α → Option σ) (l : List α) : κ → Option σ :=
  l.foldl (fun m a => Function.update m (slot a) (effect a)) fun _ => none

/-- The last entry of a list for a slot. -/
def last? (slot : α → κ) (l : List α) (k : κ) : Option α :=
  (l.filter fun a => slot a = k).getLast?

/-- The entries for one slot that no other entry for it exceeds. -/
def Winner [LinearOrder β] (slot : α → κ) (key : α → β) (l : List α) (k : κ) (a : α) : Prop :=
  a ∈ l ∧ slot a = k ∧ ∀ b ∈ l, slot b = k → key b ≤ key a

/-! ### The fold, one slot at a time -/

@[simp] theorem fold_nil (slot : α → κ) (effect : α → Option σ) (k : κ) :
    fold slot effect [] k = none := rfl

theorem fold_append_singleton (slot : α → κ) (effect : α → Option σ) (l : List α) (a : α) :
    fold slot effect (l ++ [a])
      = Function.update (fold slot effect l) (slot a) (effect a) := by
  simp [fold]

/-- A slot holds the effect of the last entry for it. -/
theorem fold_apply (slot : α → κ) (effect : α → Option σ) (l : List α) (k : κ) :
    fold slot effect l k = (last? slot l k).bind effect := by
  induction l using List.reverseRecOn with
  | nil => rfl
  | append_singleton l a ih =>
    rw [fold_append_singleton, Function.update_apply, last?, List.filter_append]
    by_cases h : k = slot a
    · simp [h]
    · have h' : ¬ slot a = k := fun h' => h h'.symm
      simp only [if_neg h, ih, List.filter_cons, decide_eq_true_eq, if_neg h', List.filter_nil,
        List.append_nil]
      rfl

theorem last?_mem {slot : α → κ} {l : List α} {k : κ} {a : α} (h : last? slot l k = some a) :
    a ∈ l ∧ slot a = k := by
  simpa using List.mem_filter.mp (List.mem_of_getLast? h)

theorem last?_eq_none {slot : α → κ} {l : List α} {k : κ} :
    last? slot l k = none ↔ ∀ a ∈ l, slot a ≠ k := by
  simp [last?]

/-! ### Sorting first -/

section Sorted

variable [LinearOrder β] (slot : α → κ) (effect : α → Option σ) (key : α → β)

/-- The entries in key order; entries that share a key stay in the order they came in. -/
def sort (l : List α) : List α := l.insertionSort fun a b => key a ≤ key b

theorem sort_perm (l : List α) : (sort key l).Perm l := List.perm_insertionSort _ _

@[simp] theorem mem_sort {l : List α} {a : α} : a ∈ sort key l ↔ a ∈ l := (sort_perm key l).mem_iff

private instance sortTotal : Std.Total fun a b : α => key a ≤ key b :=
  ⟨fun a b => le_total (key a) (key b)⟩

private instance sortTrans : IsTrans α fun a b => key a ≤ key b := ⟨fun _ _ _ => le_trans⟩

theorem sort_pairwise (l : List α) : (sort key l).Pairwise fun a b => key a ≤ key b :=
  List.pairwise_insertionSort _ l

theorem sort_sublist {l s : List α} (hs : s.Pairwise fun a b => key a ≤ key b)
    (h : s.Sublist l) : s.Sublist (sort key l) :=
  List.sublist_insertionSort hs h

/-- Entries are put in key order, then folded. -/
def lastWriter (l : List α) : κ → Option σ := fold slot effect (sort key l)

variable {slot key}

/-- The last entry for a slot of a sorted list is one of its winners. -/
theorem winner_of_last?_sort {l : List α} {k : κ} {a : α}
    (h : last? slot (sort key l) k = some a) : Winner slot key l k a := by
  obtain ⟨hmem, hslot⟩ := last?_mem h
  refine ⟨(mem_sort key).mp hmem, hslot, fun b hb hbk => ?_⟩
  obtain ⟨init, hinit⟩ := List.getLast?_eq_some_iff.mp h
  have hsorted : (init ++ [a]).Pairwise fun a b => key a ≤ key b :=
    hinit ▸ (sort_pairwise key l).filter _
  have hb' : b ∈ init ++ [a] := by
    rw [← hinit]
    simpa [hbk] using hb
  rcases List.mem_append.mp hb' with hb' | hb'
  · exact (List.pairwise_append.mp hsorted).2.2 b hb' a (List.mem_singleton_self a)
  · rw [List.mem_singleton.mp hb']

variable {effect}

theorem lastWriter_eq_none {l : List α} {k : κ} (h : ∀ a ∈ l, slot a ≠ k) :
    lastWriter slot effect key l k = none := by
  rw [lastWriter, fold_apply, last?_eq_none.mpr fun a ha => h a ((mem_sort key).mp ha)]
  rfl

/-- A fold reads of its entries only their slots, effects and keys. -/
theorem lastWriter_map {γ : Type*} (slot : γ → κ) (effect : γ → Option σ) (key : γ → β) (f : α → γ)
    (l : List α) : lastWriter slot effect key (l.map f)
      = lastWriter (slot ∘ f) (effect ∘ f) (key ∘ f) l := by
  have hsort : (sort (key ∘ f) l).map f = sort key (l.map f) :=
    List.map_insertionSort _ _ f l fun _ _ _ _ => Iff.rfl
  rw [lastWriter, lastWriter, ← hsort]
  funext k
  simp only [fold, List.foldl_map, Function.comp]

theorem lastWriter_congr {l l' : List α} (h : List.Forall₂ (fun a b => slot a = slot b ∧
    effect a = effect b ∧ key a = key b) l l') :
    lastWriter slot effect key l = lastWriter slot effect key l' := by
  have hmap : l.map (fun a => (slot a, effect a, key a))
      = l'.map fun a => (slot a, effect a, key a) := by
    induction h with
    | nil => rfl
    | cons hab _ ih => rw [List.map_cons, List.map_cons, ih, hab.1, hab.2.1, hab.2.2]
  have hfold := congrArg (lastWriter Prod.fst (fun t => t.2.1) fun t => t.2.2) hmap
  rwa [lastWriter_map, lastWriter_map] at hfold

/-- **A slot that has an entry holds the effect of one of its winners.** -/
theorem exists_winner_lastWriter {l : List α} {k : κ} {b : α} (hb : b ∈ l) (hbk : slot b = k) :
    ∃ a, Winner slot key l k a ∧ lastWriter slot effect key l k = effect a := by
  rw [lastWriter, fold_apply]
  cases h : last? slot (sort key l) k with
  | none => exact absurd hbk (last?_eq_none.mp h b ((mem_sort key).mpr hb))
  | some a => exact ⟨a, winner_of_last?_sort h, rfl⟩

/-- A slot whose winners agree holds what they agree on. -/
theorem lastWriter_eq_of_winner {l : List α} {k : κ} {a : α} (ha : Winner slot key l k a)
    (h : ∀ b, Winner slot key l k b → effect b = effect a) :
    lastWriter slot effect key l k = effect a := by
  obtain ⟨b, hb, heq⟩ : ∃ b, Winner slot key l k b ∧ lastWriter slot effect key l k = effect b :=
    exists_winner_lastWriter ha.1 ha.2.1
  exact heq.trans (h b hb)

omit [DecidableEq κ] in
theorem Winner.perm {l l' : List α} {k : κ} {a : α} (hp : l'.Perm l)
    (h : Winner slot key l k a) : Winner slot key l' k a :=
  ⟨hp.mem_iff.mpr h.1, h.2.1, fun b hb => h.2.2 b (hp.mem_iff.mp hb)⟩

private theorem orderedInsert_filter {f : α → Bool} {a : α} {l : List α}
    (hl : l.Pairwise fun a b => key a ≤ key b) :
    (l.orderedInsert (fun a b => key a ≤ key b) a).filter f =
      if f a then (l.filter f).orderedInsert (fun a b => key a ≤ key b) a else l.filter f := by
  induction l with
  | nil => cases h : f a <;> simp [h]
  | cons b l ih =>
    obtain ⟨hb, hl⟩ := List.pairwise_cons.mp hl
    rw [List.orderedInsert_cons]
    by_cases hab : key a ≤ key b
    · rw [if_pos hab, List.filter_cons]
      split
      · -- nothing that is left comes before the entry
        cases hrest : (b :: l).filter f with
        | nil => rfl
        | cons c rest =>
          have hc : c ∈ b :: l := (List.mem_filter.mp (hrest ▸ List.mem_cons_self)).1
          have hac : key a ≤ key c := by
            rcases List.mem_cons.mp hc with rfl | hc
            · exact hab
            · exact hab.trans (hb c hc)
          rw [List.orderedInsert_cons, if_pos hac]
      · rfl
    · rw [if_neg hab, List.filter_cons, ih hl]
      by_cases hfb : f b = true
      · rw [if_pos hfb, List.filter_cons_of_pos hfb]
        split
        · rw [List.orderedInsert_cons, if_neg hab]
        · rfl
      · rw [if_neg hfb, List.filter_cons_of_neg hfb]

/-- Sorting what counts is leaving out the rest of what is sorted. -/
theorem sort_filter (f : α → Bool) (l : List α) :
    sort key (l.filter f) = (sort key l).filter f := by
  induction l with
  | nil => rfl
  | cons a l ih =>
    have hsorted : (l.insertionSort fun a b => key a ≤ key b).Pairwise fun a b => key a ≤ key b :=
      sort_pairwise key l
    unfold sort at ih ⊢
    rw [List.insertionSort_cons, orderedInsert_filter hsorted, ← ih, List.filter_cons]
    split <;> rfl

theorem sort_of_pairwise {l : List α} (h : l.Pairwise fun a b => key a ≤ key b) :
    sort key l = l :=
  h.insertionSort_eq

private theorem orderedInsert_append_of_gt {a : α} {l l' : List α} (h : ∀ b ∈ l, key b < key a) :
    (l ++ l').orderedInsert (fun a b => key a ≤ key b) a =
      l ++ l'.orderedInsert (fun a b => key a ≤ key b) a := by
  induction l with
  | nil => rfl
  | cons b l ih =>
    have hb : ¬ key a ≤ key b := (h b List.mem_cons_self).not_ge
    rw [List.cons_append, List.orderedInsert_cons, if_neg hb,
      ih fun c hc => h c (List.mem_cons_of_mem _ hc)]
    rfl

private theorem orderedInsert_append_of_lt {a : α} {l l' : List α} (h : ∀ b ∈ l', key a < key b) :
    (l ++ l').orderedInsert (fun a b => key a ≤ key b) a =
      l.orderedInsert (fun a b => key a ≤ key b) a ++ l' := by
  induction l with
  | nil =>
    cases l' with
    | nil => rfl
    | cons b l' => exact List.orderedInsert_cons_of_le _ _ (h b List.mem_cons_self).le
  | cons b l ih =>
    rw [List.cons_append, List.orderedInsert_cons, List.orderedInsert_cons, ih]
    split <;> rfl

/-- Entries that exceed all others come last, wherever they stood. -/
theorem sort_between {front mid back : List α}
    (h : ∀ a ∈ front ++ back, ∀ b ∈ mid, key a < key b) :
    sort key (front ++ mid ++ back) = sort key (front ++ back) ++ sort key mid := by
  induction front with
  | nil =>
    induction mid with
    | nil => simp [sort]
    | cons b mid ih =>
      have hrest := ih fun a ha c hc => h a ha c (List.mem_cons_of_mem _ hc)
      simp only [List.nil_append, List.cons_append, sort, List.insertionSort_cons] at hrest ⊢
      rw [hrest]
      exact orderedInsert_append_of_gt fun a ha =>
        h a ((mem_sort key).mp ha) b List.mem_cons_self
  | cons a front ih =>
    have hrest := ih fun c hc b hb => h c (List.mem_cons_of_mem _ hc) b hb
    simp only [List.cons_append, sort, List.insertionSort_cons] at hrest ⊢
    rw [hrest]
    exact orderedInsert_append_of_lt fun b hb =>
      h a List.mem_cons_self b ((mem_sort key).mp hb)

/-- The sort is stable: entries of one slot that share a key stay as they were. -/
theorem filter_sort (l : List α) (k : κ) (x : β) :
    (sort key l).filter (fun b => slot b = k ∧ key b = x)
      = l.filter fun b => slot b = k ∧ key b = x := by
  have hpair : (l.filter fun b => slot b = k ∧ key b = x).Pairwise fun a b => key a ≤ key b := by
    refine List.Pairwise.imp_of_mem (fun ha hb _ => ?_) (List.pairwise_of_forall fun _ _ => trivial)
    simp only [List.mem_filter, decide_eq_true_eq] at ha hb
    rw [ha.2.2, hb.2.2]
  have hsub := (sort_sublist key hpair List.filter_sublist).filter fun b => slot b = k ∧ key b = x
  rw [List.filter_filter] at hsub
  simp only [Bool.and_self] at hsub
  exact (hsub.eq_of_length (((sort_perm key l).filter _).length_eq).symm).symm

/-- **The last entry for a slot, in key order**: a winner, and of the winners that share its key
the one that came last. -/
theorem last?_sort_eq_some_iff {l : List α} {k : κ} {a : α} :
    last? slot (sort key l) k = some a ↔ Winner slot key l k a ∧
      (l.filter fun b => slot b = k ∧ key b = key a).getLast? = some a := by
  have hlast {c : α} (h : last? slot (sort key l) k = some c) :
      (l.filter fun b => slot b = k ∧ key b = key c).getLast? = some c := by
    obtain ⟨init, hinit⟩ := List.getLast?_eq_some_iff.mp h
    have hc := (last?_mem h).2
    rw [← filter_sort, show (fun b => decide (slot b = k ∧ key b = key c))
      = fun b => decide (key b = key c) && decide (slot b = k) from by
        funext b; simp [Bool.and_comm], ← List.filter_filter, hinit, List.filter_append]
    simp
  refine ⟨fun h => ⟨winner_of_last?_sort h, hlast h⟩, fun ⟨ha, hfilter⟩ => ?_⟩
  obtain ⟨c, hc⟩ : ∃ c, last? slot (sort key l) k = some c := by
    rw [← Option.ne_none_iff_exists', Ne, last?_eq_none]
    exact fun h => h a ((mem_sort key).mpr ha.1) ha.2.1
  have hwin := winner_of_last?_sort hc
  have hkey : key c = key a :=
    le_antisymm (ha.2.2 c hwin.1 hwin.2.1) (hwin.2.2 a ha.1 ha.2.1)
  have hfilter' := hlast hc
  rw [hkey, hfilter] at hfilter'
  rw [hc, hfilter']

/-- A winner that comes last in the input comes last for its slot. -/
theorem last?_sort_append_winner {l : List α} {k : κ} {a : α}
    (ha : Winner slot key (l ++ [a]) k a) : last? slot (sort key (l ++ [a])) k = some a := by
  refine last?_sort_eq_some_iff.mpr ⟨ha, ?_⟩
  rw [List.filter_append]
  simp [ha.2.1]

/-- **The fold is independent of the input order exactly when the winners of every slot agree.** -/
theorem lastWriter_perm_iff {l : List α} :
    (∀ l' : List α, l'.Perm l → lastWriter slot effect key l' = lastWriter slot effect key l) ↔
      ∀ k a b, Winner slot key l k a → Winner slot key l k b → effect a = effect b := by
  classical
  constructor
  · intro h k a b ha hb
    have at_end {c : α} (hc : Winner slot key l k c) :
        lastWriter slot effect key l k = effect c := by
      have hp : (l.erase c ++ [c]).Perm l :=
        (List.perm_append_comm.trans (List.perm_cons_erase hc.1).symm)
      rw [← h _ hp, lastWriter, fold_apply, last?_sort_append_winner (hc.perm hp)]
      rfl
    rw [← at_end ha, at_end hb]
  · intro h l' hp
    funext k
    by_cases hk : ∃ b ∈ l, slot b = k
    · obtain ⟨b, hb, hbk⟩ := hk
      obtain ⟨a, ha, heq⟩ : ∃ a, Winner slot key l k a ∧
          lastWriter slot effect key l k = effect a := exists_winner_lastWriter hb hbk
      rw [heq, lastWriter_eq_of_winner (ha.perm hp) fun c hc => h k c a (hc.perm hp.symm) ha]
    · rw [lastWriter_eq_none fun a ha hak => hk ⟨a, hp.mem_iff.mp ha, hak⟩,
        lastWriter_eq_none fun a ha hak => hk ⟨a, ha, hak⟩]

end Sorted

end LastWriter

end Beardrive
