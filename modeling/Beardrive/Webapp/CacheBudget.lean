import Beardrive.Lib.Evict
import Beardrive.Lib.Table

/-!
# The memory budget of a hub

The caches of all projects share one budget: what every cache holds is charged, and when the total
is over the limit the caches of the other projects are given up, those used longest ago first. A
charge stamps its cache with a generation, and a cache that is given up is named with the
generation it was charged at.

## Main definitions

* `CacheBudget`, `CacheBudget.charge`, `CacheBudget.touch` — the budget
* `CacheBudget.Balanced` — the total is what the entries say, no two were used at one tick, and
  either it fits or it is all of one project

## Main results

* `CacheBudget.Balanced.charge`, `CacheBudget.Balanced.touch` — the budget stays balanced
* `CacheBudget.Balanced.charge_gives_up` — who is given up, whatever the order of the map
* `CacheBudget.over_limit` — in every run, the total is over the limit only for one source
-/

namespace Beardrive

/-! ### The budget -/

/-- A `cacheKind`. -/
inductive CacheKind where
  | journalCache
  | historyCache
  deriving DecidableEq, Repr

/-- A `budgetKey`: a cache of a source. -/
structure BudgetKey (σ : Type*) where
  src : σ
  kind : CacheKind
  deriving DecidableEq, Repr

/-- A `budgetEntry`: what a cache is charged, when it was used last, and at which charge. -/
structure BudgetEntry where
  bytes : ℤ := 0
  used : ℕ := 0
  gen : ℕ := 0
  deriving DecidableEq, Repr

/-- A cache the budget has given up, `evicted`. -/
structure Evicted (σ : Type*) where
  key : BudgetKey σ
  gen : ℕ
  deriving DecidableEq, Repr

/-- The `cacheBudget`. -/
structure CacheBudget (σ : Type*) where
  limit : ℤ
  entries : List (BudgetKey σ × BudgetEntry) := []
  total : ℤ := 0
  tick : ℕ := 0

/-- In what order each round of a charge goes through the entries. -/
structure MapOrder (α : Type*) where
  order : ℕ → List α → List α
  perm : ∀ n l, (order n l).Perm l

namespace CacheBudget

variable {σ : Type*} [DecidableEq σ]

/-- Whether an entry may go when a source is charged. -/
def victim (src : σ) (x : BudgetKey σ × BudgetEntry) : Bool := x.1.src ≠ src && 0 < x.2.bytes

/-- `touch`: a cache is marked as used. -/
def touch (b : CacheBudget σ) (key : BudgetKey σ) : CacheBudget σ :=
  if key ∈ b.entries.map Prod.fst then
    { b with
      entries := b.entries.map fun x =>
        if x.1 = key then (x.1, { x.2 with used := b.tick + 1 }) else x
      tick := b.tick + 1 }
  else b

/-- The entries with one that was charged just now. -/
def recharged (b : CacheBudget σ) (key : BudgetKey σ) (bytes : ℤ) :
    List (BudgetKey σ × BudgetEntry) :=
  (key, { bytes, used := b.tick + 1, gen := b.tick + 1 }) :: Table.erase b.entries key

/-- The total with that charge. -/
def retotal (b : CacheBudget σ) (key : BudgetKey σ) (bytes : ℤ) : ℤ :=
  b.total + (bytes - ((b.entries.lookup key).getD {}).bytes)

/-- The rounds of a charge: what stays, what it weighs, and what has gone. -/
def rounds (b : CacheBudget σ) (o : MapOrder (BudgetKey σ × BudgetEntry)) (key : BudgetKey σ)
    (bytes : ℤ) :
    List (BudgetKey σ × BudgetEntry) × ℤ × List (BudgetKey σ × BudgetEntry) :=
  Evict.evict (victim key.src) (fun x => x.2.used) (fun x => x.2.bytes) b.limit o.order
    (b.recharged key bytes).length (b.recharged key bytes) (b.retotal key bytes)

/-- `charge`: a cache holds so many bytes now, and caches of other sources go. The generation of
the charge is the tick it leaves. -/
def charge (b : CacheBudget σ) (o : MapOrder (BudgetKey σ × BudgetEntry)) (key : BudgetKey σ)
    (bytes : ℤ) : CacheBudget σ × List (Evicted σ) :=
  let r := b.rounds o key bytes
  ({ b with entries := r.1, total := r.2.1, tick := b.tick + 1 },
    r.2.2.map fun x => { key := x.1, gen := x.2.gen })

/-! ### Balance -/

/-- The books are in order: the total is what the entries say; every use is of a tick of its own;
and the entries fit, or all that weighs anything is of one source. -/
structure Balanced (b : CacheBudget σ) : Prop where
  nodup : (b.entries.map Prod.fst).Nodup
  total : b.total = (b.entries.map fun x => x.2.bytes).sum
  nonneg : ∀ x ∈ b.entries, 0 ≤ x.2.bytes
  used : ∀ x ∈ b.entries, x.2.used ≤ b.tick
  gen : ∀ x ∈ b.entries, x.2.gen ≤ b.tick
  apart : ∀ x ∈ b.entries, ∀ y ∈ b.entries, x.2.used = y.2.used → x = y
  fits : b.total ≤ b.limit ∨ ∀ x ∈ b.entries, ∀ y ∈ b.entries,
    0 < x.2.bytes → 0 < y.2.bytes → x.1.src = y.1.src

variable {b : CacheBudget σ} {o : MapOrder (BudgetKey σ × BudgetEntry)} {key : BudgetKey σ}
  {bytes : ℤ}

omit [DecidableEq σ] in
theorem balanced_empty {limit : ℤ} : Balanced ({ limit } : CacheBudget σ) where
  nodup := .nil
  total := rfl
  nonneg _ hx := absurd hx List.not_mem_nil
  used _ hx := absurd hx List.not_mem_nil
  gen _ hx := absurd hx List.not_mem_nil
  apart _ hx := absurd hx List.not_mem_nil
  fits := .inr fun _ hx => absurd hx List.not_mem_nil

theorem mem_recharged {x : BudgetKey σ × BudgetEntry} :
    x ∈ b.recharged key bytes ↔
      x = (key, { bytes, used := b.tick + 1, gen := b.tick + 1 }) ∨
        x ∈ b.entries ∧ x.1 ≠ key := by
  rw [recharged, List.mem_cons, Table.erase, List.mem_filter, decide_eq_true_eq]

/-- What an entry weighs leaves the sum with it. -/
theorem sum_erase {l : List (BudgetKey σ × BudgetEntry)} (key : BudgetKey σ)
    (h : (l.map Prod.fst).Nodup) :
    (l.map fun x => x.2.bytes).sum = ((l.lookup key).getD {}).bytes +
      ((Table.erase l key).map fun x => x.2.bytes).sum := by
  induction l with
  | nil => rfl
  | cons x l ih =>
    obtain ⟨k, e⟩ := x
    rw [List.map_cons, List.nodup_cons] at h
    rw [List.map_cons, List.sum_cons, ih h.2, Table.erase, Table.erase, List.filter_cons,
      List.lookup_cons]
    by_cases hk : k = key
    · subst hk
      have hnone : l.lookup k = none := by
        refine List.lookup_eq_none_iff.mpr fun x hx => ?_
        refine bne_iff_ne.mpr ?_
        rintro rfl
        exact h.1 (List.mem_map.mpr ⟨x, hx, rfl⟩)
      rw [hnone, if_neg (by simp), beq_self_eq_true]
      show _ + (0 + _) = _
      rw [zero_add, Option.getD_some]
    · rw [if_pos (by simpa using hk), List.map_cons, List.sum_cons,
        beq_eq_false_iff_ne.mpr (Ne.symm hk)]
      show e.bytes + (_ + _) = _ + (e.bytes + _)
      rw [add_left_comm]

theorem Balanced.nodup_recharged (h : b.Balanced) :
    ((b.recharged key bytes).map Prod.fst).Nodup := by
  rw [recharged, List.map_cons, List.nodup_cons]
  refine ⟨fun hmem => ?_, h.nodup.sublist (List.filter_sublist.map _)⟩
  obtain ⟨x, hx, hkey⟩ := List.mem_map.mp hmem
  rw [Table.erase, List.mem_filter, decide_eq_true_eq] at hx
  exact hx.2 hkey

theorem Balanced.retotal (h : b.Balanced) :
    b.retotal key bytes = ((b.recharged key bytes).map fun x => x.2.bytes).sum := by
  rw [CacheBudget.retotal, h.total, sum_erase key h.nodup, recharged, List.map_cons,
    List.sum_cons]
  dsimp only
  omega

/-- The rounds do what is to be expected of them. -/
theorem evicts_rounds (b : CacheBudget σ) (o : MapOrder (BudgetKey σ × BudgetEntry))
    (key : BudgetKey σ) (bytes : ℤ) :
    Evict.Evicts (victim key.src) (fun x => x.2.used) (fun x => x.2.bytes) b.limit
      (b.recharged key bytes) (b.retotal key bytes) (b.rounds o key bytes) :=
  Evict.evicts_evict o.perm le_rfl

theorem Balanced.apart_recharged (h : b.Balanced) :
    ∀ x ∈ b.recharged key bytes, ∀ y ∈ b.recharged key bytes, x.2.used = y.2.used → x = y := by
  intro x hx y hy hused
  rcases mem_recharged.mp hx with rfl | hx <;> rcases mem_recharged.mp hy with rfl | hy
  · rfl
  · have hle := h.used y hy.1
    dsimp only at hused
    omega
  · have hle := h.used x hx.1
    dsimp only at hused
    omega
  · exact h.apart x hx.1 y hy.1 hused

/-- **A charge keeps the books in order.** -/
theorem Balanced.charge (h : b.Balanced) (hbytes : 0 ≤ bytes) :
    (b.charge o key bytes).1.Balanced := by
  have hrounds := evicts_rounds b o key bytes
  have hin : ∀ x ∈ (b.rounds o key bytes).1, x ∈ b.recharged key bytes := fun x hx =>
    hrounds.kept.subset hx
  refine ⟨h.nodup_recharged.sublist (hrounds.kept.map _), ?_, ?_, ?_, ?_, ?_, ?_⟩
  · show (b.rounds o key bytes).2.1 = _
    rw [hrounds.weighs, h.retotal, (hrounds.parts.map _).sum_eq, List.map_append, List.sum_append]
    exact add_sub_cancel_left _ _
  · intro x hx
    rcases mem_recharged.mp (hin x hx) with rfl | ⟨hx, -⟩
    · exact hbytes
    · exact h.nonneg x hx
  · intro x hx
    rcases mem_recharged.mp (hin x hx) with rfl | ⟨hx, -⟩
    · exact le_rfl
    · exact (h.used x hx).trans (Nat.le_succ _)
  · intro x hx
    rcases mem_recharged.mp (hin x hx) with rfl | ⟨hx, -⟩
    · exact le_rfl
    · exact (h.gen x hx).trans (Nat.le_succ _)
  · exact fun x hx y hy => h.apart_recharged x (hin x hx) y (hin y hy)
  · refine hrounds.fits.imp id fun hstay x hx y hy hxpos hypos => ?_
    have hsrc {z : BudgetKey σ × BudgetEntry} (hz : z ∈ (b.rounds o key bytes).1)
        (hpos : 0 < z.2.bytes) : z.1.src = key.src := by
      have hno := hstay z hz
      rw [victim, Bool.and_eq_false_iff, decide_eq_false_iff_not, decide_eq_false_iff_not,
        not_not] at hno
      exact hno.resolve_right (not_not_intro hpos)
    rw [hsrc hx hxpos, hsrc hy hypos]

/-- **A use keeps the books in order.** -/
theorem Balanced.touch (h : b.Balanced) : (b.touch key).Balanced := by
  rw [CacheBudget.touch]
  split_ifs with hkey
  · have hold {y : BudgetKey σ × BudgetEntry} (hy : y ∈ b.entries.map fun x =>
        if x.1 = key then (x.1, { x.2 with used := b.tick + 1 }) else x) :
        ∃ x ∈ b.entries, y.1 = x.1 ∧ y.2.bytes = x.2.bytes ∧ y.2.gen = x.2.gen ∧
          ((x.1 = key ∧ y.2.used = b.tick + 1) ∨ (x.1 ≠ key ∧ y = x)) := by
      obtain ⟨x, hx, rfl⟩ := List.mem_map.mp hy
      refine ⟨x, hx, ?_⟩
      split_ifs with hk
      · exact ⟨rfl, rfl, rfl, .inl ⟨hk, rfl⟩⟩
      · exact ⟨rfl, rfl, rfl, .inr ⟨hk, rfl⟩⟩
    have hfst : (b.entries.map fun x =>
        if x.1 = key then (x.1, { x.2 with used := b.tick + 1 }) else x).map Prod.fst
          = b.entries.map Prod.fst := by
      rw [List.map_map]
      refine List.map_congr_left fun x _ => ?_
      show (if x.1 = key then (x.1, _) else x).1 = x.1
      split_ifs <;> rfl
    refine ⟨hfst ▸ h.nodup, ?_, ?_, ?_, ?_, ?_, ?_⟩
    · show b.total = _
      rw [h.total, List.map_map]
      refine congrArg List.sum (List.map_congr_left fun x _ => ?_)
      show x.2.bytes = (if x.1 = key then (x.1, _) else x).2.bytes
      split_ifs <;> rfl
    · intro y hy
      obtain ⟨x, hx, -, hbytes, -⟩ := hold hy
      rw [hbytes]
      exact h.nonneg x hx
    · intro y hy
      obtain ⟨x, hx, -, -, -, ⟨-, hused⟩ | ⟨-, rfl⟩⟩ := hold hy
      · exact hused.le
      · exact (h.used _ hx).trans (Nat.le_succ _)
    · intro y hy
      obtain ⟨x, hx, -, -, hgen, -⟩ := hold hy
      rw [hgen]
      exact (h.gen x hx).trans (Nat.le_succ _)
    · intro y hy y' hy' hsame
      obtain ⟨x, hx, hk, hb, hg, hcase⟩ := hold hy
      obtain ⟨x', hx', hk', hb', hg', hcase'⟩ := hold hy'
      rcases hcase with ⟨hkey, hused⟩ | ⟨hkey, rfl⟩ <;>
        rcases hcase' with ⟨hkey', hused'⟩ | ⟨hkey', rfl⟩
      · have hxx : x = x' := List.inj_on_of_nodup_map h.nodup hx hx' (hkey.trans hkey'.symm)
        subst hxx
        obtain ⟨k, ⟨bytes, used, gen⟩⟩ := y
        obtain ⟨k', ⟨bytes', used', gen'⟩⟩ := y'
        dsimp only at hk hb hg hk' hb' hg' hsame
        subst hk hb hg hk' hb' hg' hsame
        rfl
      · have hle := h.used _ hx'
        omega
      · have hle := h.used _ hx
        omega
      · exact h.apart _ hx _ hx' hsame
    · refine h.fits.imp id fun hone y hy y' hy' hpos hpos' => ?_
      obtain ⟨x, hx, hk, hb, -⟩ := hold hy
      obtain ⟨x', hx', hk', hb', -⟩ := hold hy'
      rw [hk, hk']
      exact hone x hx x' hx' (hb ▸ hpos) (hb' ▸ hpos')
  · exact h

/-! ### Who is given up -/

/-- What a charge gives up: entries of other sources that weigh something, those used longest ago
first and before any such entry that stays, and none more than the limit asks for. -/
structure GivesUp (b : CacheBudget σ) (key : BudgetKey σ) (bytes : ℤ)
    (gone stay : List (BudgetKey σ × BudgetEntry)) : Prop where
  parts : (b.recharged key bytes).Perm (gone ++ stay)
  others : ∀ x ∈ gone, x ∈ b.entries ∧ x.1.src ≠ key.src ∧ 0 < x.2.bytes
  ordered : gone.Pairwise fun x y => x.2.used < y.2.used
  older : ∀ x ∈ gone, ∀ y ∈ stay, y.1.src ≠ key.src → 0 < y.2.bytes → x.2.used < y.2.used
  needed : ∀ front x back, gone = front ++ x :: back →
    b.limit < b.retotal key bytes - (front.map fun x => x.2.bytes).sum

theorem victim_iff {src : σ} {x : BudgetKey σ × BudgetEntry} :
    victim src x = true ↔ x.1.src ≠ src ∧ 0 < x.2.bytes := by
  rw [victim, Bool.and_eq_true, decide_eq_true_iff, decide_eq_true_iff]

theorem Balanced.givesUp (h : b.Balanced) :
    b.GivesUp key bytes (b.rounds o key bytes).2.2 (b.rounds o key bytes).1 := by
  have hrounds := evicts_rounds b o key bytes
  have hnodup : ((b.rounds o key bytes).2.2 ++ (b.rounds o key bytes).1).Nodup :=
    hrounds.parts.nodup_iff.mp (List.Nodup.of_map _ h.nodup_recharged)
  have hin {x : BudgetKey σ × BudgetEntry}
      (hx : x ∈ (b.rounds o key bytes).2.2 ++ (b.rounds o key bytes).1) :
      x ∈ b.recharged key bytes := hrounds.parts.mem_iff.mpr hx
  -- no two entries were used at one tick, so that an entry used no later was used before
  have hbefore {x y : BudgetKey σ × BudgetEntry}
      (hx : x ∈ (b.rounds o key bytes).2.2 ++ (b.rounds o key bytes).1)
      (hy : y ∈ (b.rounds o key bytes).2.2 ++ (b.rounds o key bytes).1) (hne : x ≠ y)
      (hle : x.2.used ≤ y.2.used) : x.2.used < y.2.used :=
    lt_of_le_of_ne hle fun hsame => hne (h.apart_recharged x (hin hx) y (hin hy) hsame)
  refine ⟨hrounds.parts, fun x hx => ?_, ?_, fun x hx y hy hsrc hpos => ?_, hrounds.needed⟩
  · have hvictim := victim_iff.mp (hrounds.allowed x hx)
    rcases mem_recharged.mp (hin (List.mem_append_left _ hx)) with rfl | ⟨hold, -⟩
    · exact absurd rfl hvictim.1
    · exact ⟨hold, hvictim⟩
  · have hboth := hrounds.ordered.and (List.nodup_append.mp hnodup).1
    refine hboth.imp_of_mem fun hx hy hxy => ?_
    exact hbefore (List.mem_append_left _ hx) (List.mem_append_left _ hy) hxy.2 hxy.1
  · refine hbefore (List.mem_append_left _ hx) (List.mem_append_right _ hy) ?_
      (hrounds.older x hx y hy (victim_iff.mpr ⟨hsrc, hpos⟩))
    exact (List.nodup_append.mp hnodup).2.2 x hx y hy

/-- The order of the map makes no difference to the rounds. -/
theorem Balanced.rounds_perm (h : b.Balanced) (o o' : MapOrder (BudgetKey σ × BudgetEntry)) :
    (b.rounds o' key bytes).1.Perm (b.rounds o key bytes).1 ∧
      (b.rounds o' key bytes).2 = (b.rounds o key bytes).2 :=
  Evict.evict_perm o'.perm o.perm _ (.refl _) fun x hx y hy _ _ => h.apart_recharged x hx y hy

/-- **A charge gives up the caches used longest ago, no more than it has to, and the order in which
a map is gone through makes no difference** to who they are, to what stays and to the total. -/
theorem Balanced.charge_gives_up (h : b.Balanced) (o o' : MapOrder (BudgetKey σ × BudgetEntry))
    (key : BudgetKey σ) (bytes : ℤ) :
    ∃ gone : List (BudgetKey σ × BudgetEntry),
      (b.charge o key bytes).2 = gone.map (fun x => ⟨x.1, x.2.gen⟩) ∧
        b.GivesUp key bytes gone (b.charge o key bytes).1.entries ∧
        (b.charge o' key bytes).2 = (b.charge o key bytes).2 ∧
        (b.charge o' key bytes).1.entries.Perm (b.charge o key bytes).1.entries ∧
        (b.charge o' key bytes).1.total = (b.charge o key bytes).1.total := by
  obtain ⟨hstay, hrest⟩ := h.rounds_perm o o'
  refine ⟨(b.rounds o key bytes).2.2, rfl, h.givesUp, ?_, hstay, ?_⟩
  · show (b.rounds o' key bytes).2.2.map _ = (b.rounds o key bytes).2.2.map _
    rw [hrest]
  · show (b.rounds o' key bytes).2.1 = (b.rounds o key bytes).2.1
    rw [hrest]

/-! ### Runs -/

/-- `held`: what the caches of a source are charged. -/
def held (b : CacheBudget σ) (src : σ) : ℤ :=
  ((b.entries.filter fun x => decide (x.1.src = src)).map fun x => x.2.bytes).sum

omit [DecidableEq σ] in
/-- Entries that weigh nothing can be left out of a sum. -/
theorem sum_filter {keep : BudgetKey σ × BudgetEntry → Bool} {l : List (BudgetKey σ × BudgetEntry)}
    (h : ∀ x ∈ l, keep x = false → x.2.bytes = 0) :
    ((l.filter keep).map fun x => x.2.bytes).sum = (l.map fun x => x.2.bytes).sum := by
  induction l with
  | nil => rfl
  | cons x l ih =>
    have hrest := ih fun y hy => h y (List.mem_cons_of_mem _ hy)
    rw [List.filter_cons, List.map_cons, List.sum_cons]
    split_ifs with hkeep
    · rw [List.map_cons, List.sum_cons, hrest]
    · rw [hrest, h x List.mem_cons_self (Bool.eq_false_iff.mpr hkeep), zero_add]

/-- Over the limit, a source that holds anything holds all there is. -/
theorem Balanced.held_eq_total {src : σ} (h : b.Balanced) (hover : b.limit < b.total)
    (hheld : b.held src ≠ 0) : b.held src = b.total := by
  have hone := h.fits.resolve_left hover.not_ge
  obtain ⟨x, hx, hsrc, hpos⟩ : ∃ x ∈ b.entries, x.1.src = src ∧ 0 < x.2.bytes := by
    by_contra hnone
    push Not at hnone
    refine hheld (List.sum_eq_zero fun n hn => ?_)
    obtain ⟨x, hx, rfl⟩ := List.mem_map.mp hn
    rw [List.mem_filter, decide_eq_true_iff] at hx
    exact le_antisymm (hnone x hx.1 hx.2) (h.nonneg x hx.1)
  rw [held, h.total]
  refine sum_filter fun y hy hother => ?_
  rw [decide_eq_false_iff_not] at hother
  by_contra hne
  have hypos : 0 < y.2.bytes := lt_of_le_of_ne (h.nonneg y hy) (Ne.symm hne)
  exact hother ((hone y hy x hx hypos hpos).trans hsrc)

/-- A call of the budget. -/
inductive Step : CacheBudget σ → CacheBudget σ → Prop
  | charge (b : CacheBudget σ) (o : MapOrder (BudgetKey σ × BudgetEntry)) (key : BudgetKey σ)
    (bytes : ℤ) (hbytes : 0 ≤ bytes) : Step b (b.charge o key bytes).1
  | touch (b : CacheBudget σ) (key : BudgetKey σ) : Step b (b.touch key)

theorem Balanced.step {b' : CacheBudget σ} (h : b.Balanced) (hstep : b.Step b') :
    b'.Balanced := by
  cases hstep with
  | charge o key bytes hbytes => exact h.charge hbytes
  | touch key => exact h.touch

theorem Balanced.run {b' : CacheBudget σ} (h : b.Balanced)
    (hrun : Relation.ReflTransGen Step b b') : b'.Balanced := by
  induction hrun with
  | refl => exact h
  | tail _ hstep ih => exact ih.step hstep

/-- **In every run** from an empty budget, the total is over the limit only for one source, which
then holds all of it. -/
theorem over_limit {limit : ℤ} {src : σ}
    (hrun : Relation.ReflTransGen Step ({ limit } : CacheBudget σ) b) (hover : b.limit < b.total)
    (hheld : b.held src ≠ 0) : b.held src = b.total :=
  (balanced_empty.run hrun).held_eq_total hover hheld

end CacheBudget

end Beardrive
