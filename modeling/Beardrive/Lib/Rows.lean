import Mathlib.Data.List.AList
import Mathlib.Tactic.SplitIfs

/-!
# Tables of rows

A table keeps one row for each key. A key of two parts is the key of a child row: the first part
names its parent. What a query selects, what an `INSERT` adds and what a parent's children are is
told by the row that is looked up under a key. Nothing here refers to any particular system.

## Main definitions

* `Rows.pick` — the rows a query selects, and what it makes of them
* `Rows.children` — the children of a parent
* `Rows.insertRow`, `Rows.insertRows` — rows that are added, under keys no row has

## Main results

* `lookup_pick`, `lookup_children` — what a query finds under a key
* `insertRows_eq_some` — distinct new keys are taken, and nothing else changes
-/

namespace Beardrive

namespace Rows

variable {κ α β γ δ : Type*}

/-! ### Selecting -/

/-- What a query makes of one row. -/
def pickRow (f : κ → γ → Option δ) (row : Sigma fun _ : κ => γ) : Option (Sigma fun _ : κ => δ) :=
  (f row.1 row.2).map (⟨row.1, ·⟩)

theorem keys_pickRow (f : κ → γ → Option δ) (rows : List (Sigma fun _ : κ => γ)) :
    (rows.filterMap (pickRow f)).keys.Sublist rows.keys := by
  induction rows with
  | nil => exact .slnil
  | cons row rows ih =>
    rw [List.keys_cons]
    cases h : f row.1 row.2 with
    | none =>
      rw [List.filterMap_cons_none (by rw [pickRow, h]; rfl)]
      exact ih.cons _
    | some v =>
      rw [List.filterMap_cons_some (by rw [pickRow, h]; rfl), List.keys_cons]
      exact ih.cons_cons _

/-- The rows a query selects, and what it makes of them. -/
def pick (f : κ → γ → Option δ) (t : AList fun _ : κ => γ) : AList fun _ : κ => δ :=
  ⟨t.entries.filterMap (pickRow f), (keys_pickRow f t.entries).nodup t.nodupKeys⟩

/-- What a query makes of one child of a parent. -/
def childRow [DecidableEq α] (a : α) (row : Sigma fun _ : α × β => γ) :
    Option (Sigma fun _ : β => γ) :=
  if row.1.1 = a then some ⟨row.1.2, row.2⟩ else none

theorem mem_childRow [DecidableEq α] {a : α} {rows : List (Sigma fun _ : α × β => γ)} {b : β}
    {v : γ} : ⟨b, v⟩ ∈ rows.filterMap (childRow a) ↔ ⟨(a, b), v⟩ ∈ rows := by
  rw [List.mem_filterMap]
  constructor
  · rintro ⟨⟨⟨a', b'⟩, v'⟩, hrow, heq⟩
    rw [childRow, Option.ite_none_right_eq_some] at heq
    obtain ⟨rfl, heq⟩ := heq
    cases heq
    exact hrow
  · exact fun h => ⟨_, h, if_pos rfl⟩

theorem nodup_childRow [DecidableEq α] (a : α) {rows : List (Sigma fun _ : α × β => γ)}
    (h : rows.keys.Nodup) : (rows.filterMap (childRow a)).keys.Nodup := by
  induction rows with
  | nil => exact List.nodup_nil
  | cons row rows ih =>
    rw [List.keys_cons, List.nodup_cons] at h
    by_cases ha : row.1.1 = a
    · rw [List.filterMap_cons_some (by rw [childRow, if_pos ha]), List.keys_cons, List.nodup_cons]
      refine ⟨fun hmem => h.1 ?_, ih h.2⟩
      obtain ⟨v, hv⟩ := List.exists_of_mem_keys hmem
      have hrow := List.mem_keys_of_mem (mem_childRow.mp hv)
      rwa [← ha] at hrow
    · rw [List.filterMap_cons_none (by rw [childRow, if_neg ha])]
      exact ih h.2

/-- The children of a parent. -/
def children [DecidableEq α] (t : AList fun _ : α × β => γ) (a : α) : AList fun _ : β => γ :=
  ⟨t.entries.filterMap (childRow a), nodup_childRow a t.nodupKeys⟩

section

variable [DecidableEq κ] [DecidableEq α] [DecidableEq β]

/-- Two tables find the same under a key when they have the same rows with it. -/
theorem lookup_eq {t : AList fun _ : κ => γ} {k : κ} {o : Option γ}
    (h : ∀ v, o = some v ↔ ⟨k, v⟩ ∈ t.entries) : t.lookup k = o := by
  cases o with
  | some v => exact AList.mem_lookup_iff.mpr ((h v).mp rfl)
  | none =>
    refine Option.eq_none_iff_forall_not_mem.mpr fun v hv => ?_
    cases (h v).mpr (AList.mem_lookup_iff.mp hv)

/-- **A query finds under a key what it makes of the row with it.** -/
theorem lookup_pick (f : κ → γ → Option δ) (t : AList fun _ : κ => γ) (k : κ) :
    (pick f t).lookup k = (t.lookup k).bind (f k) := by
  refine lookup_eq fun v => ?_
  rw [Option.bind_eq_some_iff]
  change _ ↔ _ ∈ t.entries.filterMap (pickRow f)
  rw [List.mem_filterMap]
  constructor
  · rintro ⟨w, hw, hv⟩
    exact ⟨_, AList.mem_lookup_iff.mp hw, by rw [pickRow, hv]; rfl⟩
  · rintro ⟨⟨k', w⟩, hrow, heq⟩
    obtain ⟨v', hv, heq⟩ := Option.map_eq_some_iff.mp heq
    cases heq
    exact ⟨w, AList.mem_lookup_iff.mpr hrow, hv⟩

/-- **A child is found under the key it has below its parent.** -/
theorem lookup_children (t : AList fun _ : α × β => γ) (a : α) (b : β) :
    (children t a).lookup b = t.lookup (a, b) :=
  lookup_eq fun _ => AList.mem_lookup_iff.trans mem_childRow.symm

/-- The rows whose keys pass. -/
def keep (p : κ → Bool) (t : AList fun _ : κ => γ) : AList fun _ : κ => γ :=
  pick (fun k v => if p k then some v else none) t

theorem lookup_keep (p : κ → Bool) (t : AList fun _ : κ => γ) (k : κ) :
    (keep p t).lookup k = if p k then t.lookup k else none := by
  rw [keep, lookup_pick]
  cases t.lookup k with
  | none => exact (ite_self _).symm
  | some v => rfl

/-! ### The rows below one parent -/

theorem lookup_keep_self {a : α} (t : AList fun _ : α × β => γ) (b : β) :
    (keep (·.1 ≠ a) t).lookup (a, b) = none := by
  rw [lookup_keep]
  simp

theorem lookup_keep_ne {a a' : α} (h : a' ≠ a) (t : AList fun _ : α × β => γ) (b : β) :
    (keep (·.1 ≠ a) t).lookup (a', b) = t.lookup (a', b) := by
  rw [lookup_keep]
  simp [h]

theorem lookup_insert_other {a a' : α} (h : a' ≠ a) (t : AList fun _ : α × β => γ) (b b' : β)
    (v : γ) : (t.insert (a, b') v).lookup (a', b) = t.lookup (a', b) :=
  AList.lookup_insert_ne fun heq => h (Prod.mk.inj heq).1

theorem lookup_erase_other {a a' : α} (h : a' ≠ a) (t : AList fun _ : α × β => γ) (b b' : β) :
    (t.erase (a, b')).lookup (a', b) = t.lookup (a', b) :=
  AList.lookup_erase_ne fun heq => h (Prod.mk.inj heq).1

/-! ### Adding -/

/-- A row is added, unless its key is taken. -/
def insertRow (t : AList fun _ : κ => γ) (row : κ × γ) : Option (AList fun _ : κ => γ) :=
  if (t.lookup row.1).isSome then none else some (t.insert row.1 row.2)

/-- Rows are added one after another. -/
def insertRows (t : AList fun _ : κ => γ) (rows : List (κ × γ)) :
    Option (AList fun _ : κ => γ) :=
  rows.foldlM insertRow t

theorem insertRows_append (t : AList fun _ : κ => γ) (rows rows' : List (κ × γ)) :
    insertRows t (rows ++ rows') = (insertRows t rows).bind (insertRows · rows') :=
  List.foldlM_append

/-- Rows that are added leave the other keys as they were. -/
theorem lookup_of_insertRows {rows : List (κ × γ)} {t t' : AList fun _ : κ => γ}
    (h : insertRows t rows = some t') {k : κ} (hk : k ∉ rows.map (·.1)) :
    t'.lookup k = t.lookup k := by
  induction rows generalizing t with
  | nil =>
    cases h
    rfl
  | cons row rows ih =>
    rw [List.map_cons, List.mem_cons, not_or] at hk
    rw [insertRows, List.foldlM_cons, Option.bind_eq_bind, Option.bind_eq_some_iff] at h
    obtain ⟨t₁, hrow, hrest⟩ := h
    rw [insertRow, Option.ite_none_left_eq_some] at hrow
    obtain ⟨-, hrow⟩ := hrow
    cases hrow
    rw [ih hrest hk.2, AList.lookup_insert_ne hk.1]

/-- **Rows with distinct new keys are added, and nothing else changes.** -/
theorem insertRows_eq_some {rows : List (κ × γ)} {t : AList fun _ : κ => γ}
    (hdistinct : (rows.map (·.1)).Nodup) (hnew : ∀ row ∈ rows, t.lookup row.1 = none) :
    ∃ t', insertRows t rows = some t' ∧ (∀ row ∈ rows, t'.lookup row.1 = some row.2) ∧
      ∀ k, k ∉ rows.map (·.1) → t'.lookup k = t.lookup k := by
  induction rows generalizing t with
  | nil => exact ⟨t, rfl, by simp, fun _ _ => rfl⟩
  | cons row rows ih =>
    rw [List.map_cons, List.nodup_cons] at hdistinct
    have hother : ∀ row' ∈ rows, row'.1 ≠ row.1 := fun row' hrow' heq =>
      hdistinct.1 (heq ▸ List.mem_map_of_mem hrow')
    obtain ⟨t', ht', hrows, hrest⟩ := ih (t := t.insert row.1 row.2) hdistinct.2
      fun row' hrow' => by
        rw [AList.lookup_insert_ne (hother row' hrow')]
        exact hnew row' (List.mem_cons_of_mem _ hrow')
    refine ⟨t', ?_, ?_, ?_⟩
    · rw [insertRows, List.foldlM_cons, insertRow, hnew row List.mem_cons_self]
      exact ht'
    · intro row' hrow'
      rcases List.mem_cons.mp hrow' with rfl | hrow'
      · rw [hrest _ hdistinct.1, AList.lookup_insert]
      · exact hrows row' hrow'
    · intro k hk
      rw [List.map_cons, List.mem_cons, not_or] at hk
      rw [hrest k hk.2, AList.lookup_insert_ne hk.1]

end

end Rows

end Beardrive
