import Beardrive.Journal.Order

/-!
# Replacing one journal of many

The state of a project is the replay of several journals, collected one after another. What a path
holds is decided by one op of each, so replacing one journal changes the path in some company
exactly when it replaces that op by one that stands elsewhere in the order or folds to another
state.

## Main definitions

* `later` — of two ops, the one that is replayed later, the second where they tie
* `SameOutcome` — ops that stand in the same place and fold to the same state

## Main results

* `lastOp_append` — the last op of two journals
* `replay_replace_iff` — a path is the same in all company exactly when the outcome is
-/

namespace Beardrive

/-! ### The last op of several journals -/

/-- Of two ops, the one that is replayed later: the second, where they tie. -/
def later : Option Op → Option Op → Option Op
  | none, y => y
  | x, none => x
  | some a, some b => if less b a then some a else some b

@[simp] theorem later_none_left (y : Option Op) : later none y = y := rfl

@[simp] theorem later_none_right (x : Option Op) : later x none = x := by cases x <;> rfl

/-- **The last op of two journals** is the later of theirs. -/
theorem lastOp_append (l l' : List Op) (p : GoString) :
    lastOp (l ++ l') p = later (lastOp l p) (lastOp l' p) := by
  cases hl : lastOp l p with
  | none =>
    have hnone := lastOp_eq_none_iff.mp hl
    have hfilter (x : OpKey) : (l.filter fun o => o.path = p ∧ o.key = x) = [] :=
      List.filter_eq_nil_iff.mpr fun o ho => by simp [hnone o ho]
    cases hl' : lastOp l' p with
    | none =>
      refine lastOp_eq_none_iff.mpr fun op hop => ?_
      exact (List.mem_append.mp hop).elim (hnone op) (lastOp_eq_none_iff.mp hl' op)
    | some b =>
      obtain ⟨hwin, hlast⟩ := lastOp_eq_some_iff.mp hl'
      refine lastOp_eq_some_iff.mpr ⟨⟨List.mem_append_right _ hwin.1, hwin.2.1,
        fun o ho hop => ?_⟩, by rw [List.filter_append, hfilter, List.nil_append, hlast]⟩
      exact (List.mem_append.mp ho).elim (fun ho => absurd hop (hnone o ho)) fun ho =>
        hwin.2.2 o ho hop
  | some a =>
    obtain ⟨hwin, hlast⟩ := lastOp_eq_some_iff.mp hl
    cases hl' : lastOp l' p with
    | none =>
      have hnone := lastOp_eq_none_iff.mp hl'
      have hfilter : (l'.filter fun o => o.path = p ∧ o.key = a.key) = [] :=
        List.filter_eq_nil_iff.mpr fun o ho => by simp [hnone o ho]
      refine lastOp_eq_some_iff.mpr ⟨⟨List.mem_append_left _ hwin.1, hwin.2.1,
        fun o ho hop => ?_⟩, by rw [List.filter_append, hfilter, List.append_nil, hlast]⟩
      exact (List.mem_append.mp ho).elim (fun ho => hwin.2.2 o ho hop) fun ho =>
        absurd hop (hnone o ho)
    | some b =>
      obtain ⟨hwin', hlast'⟩ := lastOp_eq_some_iff.mp hl'
      by_cases hlt : less b a = true
      · have hkey := less_iff.mp hlt
        have hfilter : (l'.filter fun o => o.path = p ∧ o.key = a.key) = [] := by
          refine List.filter_eq_nil_iff.mpr fun o ho => ?_
          simp only [decide_eq_true_eq, not_and]
          exact fun hop heq => absurd (hwin'.2.2 o ho hop) (heq ▸ hkey.not_ge)
        rw [later, if_pos hlt]
        refine lastOp_eq_some_iff.mpr ⟨⟨List.mem_append_left _ hwin.1, hwin.2.1,
          fun o ho hop => ?_⟩, by rw [List.filter_append, hfilter, List.append_nil, hlast]⟩
        exact (List.mem_append.mp ho).elim (fun ho => hwin.2.2 o ho hop) fun ho =>
          (hwin'.2.2 o ho hop).trans hkey.le
      · have hkey := not_less_iff.mp (Bool.eq_false_iff.mpr hlt)
        rw [later, if_neg hlt]
        refine lastOp_eq_some_iff.mpr ⟨⟨List.mem_append_right _ hwin'.1, hwin'.2.1,
          fun o ho hop => ?_⟩, by rw [List.filter_append, List.getLast?_append, hlast']; rfl⟩
        exact (List.mem_append.mp ho).elim (fun ho => (hwin.2.2 o ho hop).trans hkey) fun ho =>
          hwin'.2.2 o ho hop

/-! ### The place of an op in the order -/

/-- The clock, the instant, the device and the sequence number: what honest ops are ordered by. -/
def Op.rank (op : Op) : ℤ ×ₗ ℤ ×ₗ GoString ×ₗ ℤ :=
  toLex (op.lamport, toLex (op.time.ns, toLex (op.device, op.seq)))

theorem Op.rank_eq_iff {a b : Op} : a.rank = b.rank ↔
    a.lamport = b.lamport ∧ a.time.ns = b.time.ns ∧ a.device = b.device ∧ a.seq = b.seq := by
  simp [Op.rank]

theorem less_of_rank {a b : Op} (h : a.rank < b.rank) : less a b = true := by
  simp only [Op.rank, Prod.Lex.toLex_lt_toLex] at h
  simp only [less, Time.equal, Time.before, beq_iff_eq]
  rcases h with h | ⟨h1, h | ⟨h2, h | ⟨h3, h⟩⟩⟩
  · simp [h.ne, h]
  · simp [h1, h.ne, h]
  · simp [h1, h2, h.ne, h]
  · simp [h1, h2, h3, h.ne, h]

theorem rank_le_of_key_le {a b : Op} (h : a.key ≤ b.key) : a.rank ≤ b.rank := by
  by_contra hlt
  exact absurd (less_iff.mp (less_of_rank (not_le.mp hlt))) h.not_gt

/-- In one place, deletes come before puts. -/
theorem less_of_kind {a b : Op} (h : a.rank = b.rank) (ha : a.kind = .delete) (hb : b.kind = .put) :
    less a b = true := by
  obtain ⟨h1, h2, h3, h4⟩ := Op.rank_eq_iff.mp h
  have hkind : Kind.delete.text < Kind.put.text := by decide
  simp [less, Time.equal, h1, h2, h3, h4, ha, hb, hkind]

/-- Puts of one path that stand in one place and fold to one state tie. -/
theorem key_eq_of_effect {a b : Op} (hrank : a.rank = b.rank) (hpath : a.path = b.path)
    (heffect : a.effect = b.effect) (hput : a.kind = .put) : a.key = b.key := by
  obtain ⟨h1, h2, h3, h4⟩ := Op.rank_eq_iff.mp hrank
  cases hb : b.kind with
  | delete => simp [Op.effect, hput, hb] at heffect
  | put =>
    simp only [Op.effect, hput, hb, Option.some.injEq, FileState.mk.injEq] at heffect
    obtain ⟨hblob, hsize, hmode, -⟩ := heffect
    exact tied_iff.mpr ⟨h1, h2, h3, h4, hput.trans hb.symm, hpath, hblob, hsize, hmode⟩

/-! ### One outcome -/

/-- Two ops stand in the same place of the order and fold to the same state, or there is none on
either side. -/
def SameOutcome : Option Op → Option Op → Prop
  | none, none => True
  | some a, some b => a.rank = b.rank ∧ a.effect = b.effect
  | _, _ => False

instance : ∀ x y : Option Op, Decidable (SameOutcome x y)
  | none, none => isTrue trivial
  | some a, some b => inferInstanceAs (Decidable (a.rank = b.rank ∧ a.effect = b.effect))
  | none, some _ => isFalse id
  | some _, none => isFalse id

theorem SameOutcome.refl (x : Option Op) : SameOutcome x x := by
  cases x with
  | none => trivial
  | some a => exact ⟨rfl, rfl⟩

theorem SameOutcome.symm {x y : Option Op} (h : SameOutcome x y) : SameOutcome y x := by
  cases x <;> cases y
  · trivial
  · exact h
  · exact h
  · exact ⟨h.1.symm, h.2.symm⟩

theorem SameOutcome.effect {x y : Option Op} (h : SameOutcome x y) :
    x.bind Op.effect = y.bind Op.effect := by
  cases x <;> cases y
  · rfl
  · exact h.elim
  · exact h.elim
  · exact h.2

/-- What stands between two ops of one outcome has that outcome, if they do not tie. -/
theorem SameOutcome.between {a b o : Op} (h : SameOutcome (some a) (some b))
    (hpath : a.path = b.path) (hne : a.key ≠ b.key) (hao : a.key ≤ o.key) (hob : o.key ≤ b.key) :
    o.rank = b.rank ∧ o.effect = b.effect := by
  have hrank : o.rank = b.rank :=
    le_antisymm (rank_le_of_key_le hob) (h.1 ▸ rank_le_of_key_le hao)
  refine ⟨hrank, ?_⟩
  cases ha : a.kind with
  | put => exact absurd (key_eq_of_effect h.1 hpath h.2 ha) hne
  | delete =>
    have hb : b.kind = .delete := by
      have heffect := h.2
      cases hb : b.kind with
      | put => simp [Op.effect, ha, hb] at heffect
      | delete => rfl
    cases ho : o.kind with
    | put => exact absurd (less_iff.mp (less_of_kind hrank.symm hb ho)) hob.not_gt
    | delete => rw [Op.effect_delete ho, Op.effect_delete hb]

/-- An op collected before leaves two ops of one outcome so. -/
theorem SameOutcome.later_left {a b : Option Op} {p : GoString} (h : SameOutcome a b)
    (ha : ∀ o, a = some o → o.path = p) (hb : ∀ o, b = some o → o.path = p) (x : Option Op) :
    SameOutcome (later x a) (later x b) := by
  rcases x with _ | o
  · exact h
  rcases a with _ | a <;> rcases b with _ | b
  · exact .refl _
  · exact h.elim
  · exact h.elim
  have hpath : a.path = b.path := (ha a rfl).trans (hb b rfl).symm
  by_cases hao : less a o = true <;> by_cases hbo : less b o = true
  · simpa only [later, if_pos hao, if_pos hbo] using SameOutcome.refl _
  · simp only [later, if_pos hao, if_neg hbo]
    have hlt := less_iff.mp hao
    have hle := not_less_iff.mp (Bool.eq_false_iff.mpr hbo)
    exact h.between hpath (hlt.trans_le hle).ne hlt.le hle
  · simp only [later, if_neg hao, if_pos hbo]
    have hlt := less_iff.mp hbo
    have hle := not_less_iff.mp (Bool.eq_false_iff.mpr hao)
    obtain ⟨hrank, heffect⟩ := h.symm.between hpath.symm (hlt.trans_le hle).ne hlt.le hle
    exact ⟨hrank.symm, heffect.symm⟩
  · simpa only [later, if_neg hao, if_neg hbo] using h

/-- And so does one collected behind. -/
theorem SameOutcome.later_right {a b : Option Op} {p : GoString} (h : SameOutcome a b)
    (ha : ∀ o, a = some o → o.path = p) (hb : ∀ o, b = some o → o.path = p) (x : Option Op) :
    SameOutcome (later a x) (later b x) := by
  rcases x with _ | o
  · simpa only [later_none_right] using h
  rcases a with _ | a <;> rcases b with _ | b
  · exact .refl _
  · exact h.elim
  · exact h.elim
  have hpath : a.path = b.path := (ha a rfl).trans (hb b rfl).symm
  by_cases hao : less o a = true <;> by_cases hbo : less o b = true
  · simpa only [later, if_pos hao, if_pos hbo] using h
  · simp only [later, if_pos hao, if_neg hbo]
    have hlt := less_iff.mp hao
    have hle := not_less_iff.mp (Bool.eq_false_iff.mpr hbo)
    obtain ⟨hrank, heffect⟩ := h.symm.between hpath.symm (hle.trans_lt hlt).ne hle hlt.le
    exact ⟨hrank.symm, heffect.symm⟩
  · simp only [later, if_neg hao, if_pos hbo]
    have hlt := less_iff.mp hbo
    have hle := not_less_iff.mp (Bool.eq_false_iff.mpr hao)
    exact h.between hpath (hle.trans_lt hlt).ne hle hlt.le
  · simpa only [later, if_neg hao, if_neg hbo] using SameOutcome.refl _

/-! ### One journal in the company of others -/

theorem path_of_lastOp {ops : List Op} {p : GoString} (op : Op) (h : lastOp ops p = some op) :
    op.path = p := (wins_of_lastOp h).2.1

/-- Journals of one outcome at a path are the same there in all company. -/
theorem replay_replace {mid mid' : List Op} {p : GoString}
    (h : SameOutcome (lastOp mid p) (lastOp mid' p)) (front back : List Op) :
    replay (front ++ mid ++ back) p = replay (front ++ mid' ++ back) p := by
  rw [replay_eq_lastOp, replay_eq_lastOp, lastOp_append, lastOp_append, lastOp_append,
    lastOp_append]
  refine ((h.later_left path_of_lastOp path_of_lastOp _).later_right (p := p) ?_ ?_ _).effect
  · rw [← lastOp_append]
    exact path_of_lastOp
  · rw [← lastOp_append]
    exact path_of_lastOp

/-- The op of a journal is what its path holds beside an op it exceeds. -/
theorem replay_cons_of_less {ops : List Op} {p : GoString} {w o : Op} (hw : lastOp ops p = some w)
    (ho : o.path = p) (h : less w o = false) : replay (o :: ops) p = w.effect := by
  have hone : lastOp [o] p = some o :=
    lastOp_eq_some_iff.mpr ⟨⟨by simp, ho, by simp⟩, by simp [ho]⟩
  rw [replay_eq_lastOp, ← List.singleton_append, lastOp_append, hone, hw, later, if_neg (by simp [h])]
  rfl

/-- And not beside one that exceeds it. -/
theorem replay_cons_of_exceeds {ops : List Op} {p : GoString} {w o : Op}
    (hw : lastOp ops p = some w) (ho : o.path = p) (h : less w o = true) :
    replay (o :: ops) p = o.effect := by
  have hone : lastOp [o] p = some o :=
    lastOp_eq_some_iff.mpr ⟨⟨by simp, ho, by simp⟩, by simp [ho]⟩
  rw [replay_eq_lastOp, ← List.singleton_append, lastOp_append, hone, hw, later, if_pos h]
  rfl

/-- An op of the same clock, instant, device and sequence number as another. -/
def Op.beside (op : Op) (kind : Kind) : Op :=
  { kind, path := op.path, seq := op.seq, lamport := op.lamport, time := op.time,
    device := op.device }

@[simp] theorem Op.rank_beside (op : Op) (kind : Kind) : (op.beside kind).rank = op.rank := rfl

/-- A journal with an op for a path is told apart from one without. -/
private theorem not_some_none {mid mid' : List Op} {p : GoString}
    (h : ∀ front, replay (front ++ mid) p = replay (front ++ mid') p) {w : Op}
    (hw : lastOp mid p = some w) : lastOp mid' p ≠ none := by
  intro hnone
  let o : Op := { kind := .put, path := p, lamport := w.lamport - 1 }
  have hnot : less w o = false := less_asymm (less_of_lamport (show w.lamport - 1 < _ by omega))
  have heffect : w.effect = none := by
    have := h []
    rwa [List.nil_append, List.nil_append, replay_eq_lastOp, replay_eq_lastOp, hw, hnone] at this
  have hput : replay (o :: mid') p = o.effect := by
    have hone : lastOp [o] p = some o :=
      lastOp_eq_some_iff.mpr ⟨⟨by simp, rfl, by simp⟩, by simp [o]⟩
    rw [replay_eq_lastOp, ← List.singleton_append, lastOp_append, hone, hnone]
    rfl
  have := h [o]
  rw [List.singleton_append, List.singleton_append, replay_cons_of_less hw rfl hnot, heffect,
    hput] at this
  cases this

/-- Journals whose ops for a path stand in different places are told apart. -/
private theorem not_rank_lt {mid mid' : List Op} {p : GoString}
    (h : ∀ front, replay (front ++ mid) p = replay (front ++ mid') p) {w w' : Op}
    (hw : lastOp mid p = some w) (hw' : lastOp mid' p = some w') : ¬ w.rank < w'.rank := by
  intro hlt
  have heffect : w.effect = w'.effect := by
    have := h []
    rwa [List.nil_append, List.nil_append, replay_eq_lastOp, replay_eq_lastOp, hw, hw'] at this
  cases hk : w.kind with
  | delete =>
    -- a put in the place of the lesser delete shows there, and not beside the greater
    have hpath : (w.beside .put).path = p := path_of_lastOp w hw
    have hnot : less w' (w.beside .put) = false := less_asymm (less_of_rank hlt)
    have := h [w.beside .put]
    rw [List.singleton_append, List.singleton_append,
      replay_cons_of_exceeds hw hpath (less_of_kind rfl hk rfl),
      replay_cons_of_less hw' hpath hnot, ← heffect, Op.effect_delete hk] at this
    cases this
  | put =>
    -- a delete in the place of the greater put shows beside the lesser
    have hk' : w'.kind = .put := by
      cases hk' : w'.kind with
      | put => rfl
      | delete => rw [Op.effect_put hk, Op.effect_delete hk'] at heffect; cases heffect
    have hpath : (w'.beside .delete).path = p := path_of_lastOp w' hw'
    have hnot : less w' (w'.beside .delete) = false := less_asymm (less_of_kind rfl rfl hk')
    have := h [w'.beside .delete]
    rw [List.singleton_append, List.singleton_append,
      replay_cons_of_exceeds hw hpath (less_of_rank hlt), replay_cons_of_less hw' hpath hnot,
      Op.effect_put hk'] at this
    cases this

/-- **One journal may stand for another at a path, whatever is collected with it, exactly when
the outcome of both is the same there.** -/
theorem replay_replace_iff {mid mid' : List Op} {p : GoString} :
    (∀ front back, replay (front ++ mid ++ back) p = replay (front ++ mid' ++ back) p) ↔
      SameOutcome (lastOp mid p) (lastOp mid' p) := by
  refine ⟨fun hall => ?_, replay_replace⟩
  have h : ∀ front, replay (front ++ mid) p = replay (front ++ mid') p := fun front => by
    simpa using hall front []
  have h' : ∀ front, replay (front ++ mid') p = replay (front ++ mid) p := fun front =>
    (h front).symm
  cases hw : lastOp mid p with
  | none =>
    cases hw' : lastOp mid' p with
    | none => trivial
    | some w' => exact absurd hw (not_some_none h' hw')
  | some w =>
    cases hw' : lastOp mid' p with
    | none => exact absurd hw' (not_some_none h hw)
    | some w' =>
      refine ⟨le_antisymm (not_lt.mp (not_rank_lt h' hw' hw)) (not_lt.mp (not_rank_lt h hw hw')), ?_⟩
      have := h []
      rwa [List.nil_append, List.nil_append, replay_eq_lastOp, replay_eq_lastOp, hw, hw'] at this

end Beardrive
