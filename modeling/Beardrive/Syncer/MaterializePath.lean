import Beardrive.Syncer.Materialize

/-!
# Materializing, one path at a time

What a cycle does at a path depends on no other: the loops come by a path of the merged state once,
and what they do elsewhere leaves its entry, its place in the cache and what is told of it alone.
The one exception is a folder this account may not write, where a local edit is copied to another
path of the same folder.

So a path this account may write is either left undisturbed, or written and told to the next turn,
and which of the two is decided by the entry that stands there and the one in the cache.

## Main definitions

* `Undisturbed`, `Untouched` — nothing has been done at a path

## Main results

* `Placed.untouched`, `unlink_untouched` — what is done at one path leaves the others alone
* `materialize_self` — what the loops do at a path of the merged state
-/

namespace Beardrive

namespace MaterializeEnv

variable {env : MaterializeEnv}

/-! ### One path among the others -/

/-- Nothing has been done at a path, except that the cache may have come to have the link that
stands there. -/
structure Undisturbed (p : GoString) (s s' : MaterializeState) : Prop where
  disk : s'.disk p = s.disk p
  inbound : ∀ deleted, (p, deleted) ∈ s'.inbound ↔ (p, deleted) ∈ s.inbound
  changed : p ∈ s'.changed ↔ p ∈ s.changed
  cache : s'.cache.lookup p = s.cache.lookup p ∨
    ∃ info target, s.disk p = some (.symlink info target true) ∧
      s'.cache.lookup p = some { link := target, size := info.size, mtimeNS := info.mtimeNS }

theorem Undisturbed.refl (p : GoString) (s : MaterializeState) : Undisturbed p s s :=
  ⟨rfl, fun _ => .rfl, .rfl, .inl rfl⟩

theorem Undisturbed.trans {p : GoString} {s s' s'' : MaterializeState} (h : Undisturbed p s s')
    (h' : Undisturbed p s' s'') : Undisturbed p s s'' where
  disk := h'.disk.trans h.disk
  inbound deleted := (h'.inbound deleted).trans (h.inbound deleted)
  changed := h'.changed.trans h.changed
  cache := by
    rcases h'.cache with hsame | ⟨info, target, hdisk, hcache⟩
    · rw [hsame]
      exact h.cache
    · exact .inr ⟨info, target, h.disk ▸ hdisk, hcache⟩

/-- Not even the cache has changed at a path. -/
structure Untouched (p : GoString) (s s' : MaterializeState) : Prop where
  undisturbed : Undisturbed p s s'
  lookup : s'.cache.lookup p = s.cache.lookup p

theorem Untouched.refl (p : GoString) (s : MaterializeState) : Untouched p s s :=
  ⟨.refl p s, rfl⟩

theorem Untouched.trans {p : GoString} {s s' s'' : MaterializeState} (h : Untouched p s s')
    (h' : Untouched p s' s'') : Untouched p s s'' :=
  ⟨h.undisturbed.trans h'.undisturbed, h'.lookup.trans h.lookup⟩

theorem untouched_of_eq {p : GoString} {s s' : MaterializeState} (hdisk : s'.disk p = s.disk p)
    (hcache : s'.cache.lookup p = s.cache.lookup p)
    (hinbound : ∀ deleted, (p, deleted) ∈ s'.inbound ↔ (p, deleted) ∈ s.inbound)
    (hchanged : p ∈ s'.changed ↔ p ∈ s.changed) : Untouched p s s' :=
  ⟨⟨hdisk, hinbound, hchanged, .inl hcache⟩, hcache⟩

theorem Aside.untouched {s s' : MaterializeState} {p q : GoString} (h : env.Aside s q s')
    (hp : env.scope.readOnlyPath q = false ∨ p ≠ localCopyPath q) : Untouched p s s' :=
  untouched_of_eq (h.disk p hp) (by rw [h.cache]) (by rw [h.inbound]; simp) (by rw [h.changed])

/-- **Materializing a path leaves the others alone**, but for the copy of a file that may not be
written. -/
theorem Placed.untouched {s : MaterializeState} {p q : GoString} {want : FileState}
    {r : MaterializeState × Bool} (h : env.Placed s q want r) (hne : p ≠ q)
    (hp : env.scope.readOnlyPath q = false ∨ p ≠ localCopyPath q) : Untouched p s r.1 := by
  cases h with
  | left s' haside => exact haside.untouched hp
  | adopted info hstands =>
    exact untouched_of_eq rfl (AList.lookup_insert_ne hne) (fun _ => .rfl) .rfl
  | placed s' haside node c =>
    refine (haside.untouched hp).trans (untouched_of_eq ?_ ?_ (fun deleted => ?_) .rfl)
    · exact Function.update_of_ne hne _ _
    · exact AList.lookup_insert_ne hne
    · simp [place, hne]

theorem Placed.lookup_of_ne {s : MaterializeState} {p q : GoString} {want : FileState}
    {r : MaterializeState × Bool} (h : env.Placed s q want r) (hne : p ≠ q) :
    r.1.cache.lookup p = s.cache.lookup p := by
  cases h with
  | left s' haside => rw [haside.cache]
  | adopted info hstands => exact AList.lookup_insert_ne hne
  | placed s' haside node c =>
    rw [← haside.cache]
    exact AList.lookup_insert_ne hne

/-- A path this account may write is left undisturbed unless it is written. -/
theorem Placed.undisturbed {s : MaterializeState} {p : GoString} {want : FileState}
    {r : MaterializeState × Bool} (h : env.Placed s p want r)
    (hro : env.scope.readOnlyPath p = false) (hleft : r.2 = false) : Undisturbed p s r.1 := by
  cases h with
  | left s' haside => exact (haside.untouched (.inl hro)).undisturbed
  | adopted info hstands =>
    exact ⟨rfl, fun _ => .rfl, .rfl, .inr ⟨info, want.link, hstands, AList.lookup_insert ..⟩⟩
  | placed s' haside node c => cases hleft

/-- What is written is told. -/
theorem Placed.told {s : MaterializeState} {p : GoString} {want : FileState}
    {r : MaterializeState × Bool} (h : env.Placed s p want r) (hwrote : r.2 = true) :
    (p, false) ∈ r.1.inbound := by
  cases h with
  | left s' haside => cases hwrote
  | adopted info hstands => cases hwrote
  | placed s' haside node c => simp [place]

theorem Placed.inbound {s : MaterializeState} {p : GoString} {want : FileState}
    {r : MaterializeState × Bool} (h : env.Placed s p want r) : s.inbound ⊆ r.1.inbound := by
  cases h with
  | left s' haside => rw [haside.inbound]; exact List.Subset.refl _
  | adopted info hstands => exact List.Subset.refl _
  | placed s' haside node c =>
    rw [place, haside.inbound]
    exact List.subset_append_left _ _

theorem counted_inbound (r : MaterializeState × Bool) (rel : GoString) :
    (counted r rel).inbound = r.1.inbound := by
  unfold counted
  split <;> rfl

theorem counted_of_not {r : MaterializeState × Bool} (h : r.2 = false) (rel : GoString) :
    counted r rel = r.1 := if_neg (by simp [h])

/-- **Materializing a path leaves it undisturbed, or writes it and tells so**, where this account
may write it. -/
theorem materializeFile_self {s : MaterializeState} {p : GoString}
    (hro : env.scope.readOnlyPath p = false) (want : FileState) :
    (Undisturbed p s (counted (env.materializeFile s p want) p) ∧
      env.replaces p (s.disk p) (s.cache.lookup p) want = false) ∨
    ((p, false) ∈ (counted (env.materializeFile s p want) p).inbound ∧
      env.replaces p (s.disk p) (s.cache.lookup p) want = true) := by
  have hplaced : env.Placed s p want (env.materializeFile s p want) := materializeFile_cases s p want
  rw [← materializeFile_replaces hro]
  cases hwrote : (env.materializeFile s p want).2 with
  | false =>
    rw [counted_of_not hwrote]
    exact .inl ⟨hplaced.undisturbed hro hwrote, rfl⟩
  | true =>
    rw [counted_inbound]
    exact .inr ⟨hplaced.told hwrote, rfl⟩

theorem counted_untouched {p q : GoString} (hne : p ≠ q) (r : MaterializeState × Bool) :
    Untouched p r.1 (counted r q) := by
  unfold counted
  split
  · exact untouched_of_eq rfl rfl (fun _ => .rfl) (by simp [hne])
  · exact .refl p r.1

/-! ### The loops at one path -/

variable {target : State}

theorem visit_untouched {p q : GoString} (s : MaterializeState) (hne : p ≠ q)
    (hp : env.scope.readOnlyPath q = false ∨ p ≠ localCopyPath q) :
    Untouched p s (env.visit target s q) := by
  unfold visit
  split
  · exact .refl p s
  · split
    · exact .refl p s
    split
    · exact .refl p s
    split
    · exact .refl p s
    · exact ((materializeFile_cases s q _).untouched hne hp).trans (counted_untouched hne _)

theorem visit_lookup_of_ne {p q : GoString} (s : MaterializeState) (hne : p ≠ q) :
    (env.visit target s q).cache.lookup p = s.cache.lookup p := by
  unfold visit
  split
  · rfl
  · split_ifs
    · rfl
    · rfl
    · rfl
    · exact (counted_untouched hne _).lookup.trans
        ((materializeFile_cases s q _).lookup_of_ne hne)

theorem visit_inbound (s : MaterializeState) (q : GoString) :
    s.inbound ⊆ (env.visit target s q).inbound := by
  unfold visit
  split
  · exact List.Subset.refl _
  · split_ifs
    · exact List.Subset.refl _
    · exact List.Subset.refl _
    · exact List.Subset.refl _
    · rw [counted_inbound]
      exact (materializeFile_cases s q _).inbound

theorem foldl_visit_untouched {p : GoString} {paths : List GoString} (hnot : p ∉ paths)
    (hp : ∀ q ∈ paths, env.scope.readOnlyPath q = false ∨ p ≠ localCopyPath q)
    (s : MaterializeState) : Untouched p s (paths.foldl (env.visit target) s) := by
  refine List.foldlRecOn (motive := Untouched p s) paths _ (.refl p s) fun s' h q hq => ?_
  exact h.trans (visit_untouched s' (fun heq => hnot (heq ▸ hq)) (hp q hq))

theorem foldl_visit_inbound (paths : List GoString) (s : MaterializeState) :
    s.inbound ⊆ (paths.foldl (env.visit target) s).inbound :=
  List.foldlRecOn (motive := fun t : MaterializeState => s.inbound ⊆ t.inbound) paths _
    (List.Subset.refl _) fun t h q _ => List.Subset.trans h (visit_inbound t q)

/-- Unlinking leaves alone what the merged state has, and every other path. -/
theorem unlink_untouched {p : GoString} (s : MaterializeState) (q : GoString)
    (hp : (target p).isSome ∨ p ≠ q) : Untouched p s (env.unlink target s q) := by
  unfold unlink
  split
  · rename_i htarget hc
    have hne : p ≠ q := by
      rcases hp with hp | hp
      · rintro rfl
        rw [htarget] at hp
        cases hp
      · exact hp
    have herase : (forgetEntry s q).cache.lookup p = s.cache.lookup p := AList.lookup_erase_ne hne
    split
    · exact untouched_of_eq rfl herase (fun _ => .rfl) .rfl
    split
    · split
      · exact .refl p s
      split
      · exact .refl p s
      · exact untouched_of_eq (Function.update_of_ne hne _ _) herase
          (fun deleted => by simp [forgetEntry, hne]) (by simp [forgetEntry, hne])
    · exact untouched_of_eq rfl herase (fun _ => .rfl) (by simp [forgetEntry, hne])
  · exact .refl p s

theorem unlink_lookup_none {p : GoString} {s : MaterializeState} (q : GoString)
    (h : s.cache.lookup p = none) : (env.unlink target s q).cache.lookup p = none := by
  by_cases hpq : p = q
  · subst hpq
    unfold unlink
    rw [h]
    split
    · rename_i hnone
      cases hnone
    · exact h
  · exact (unlink_untouched s q (.inr hpq)).lookup.trans h

theorem unlink_inbound (s : MaterializeState) (q : GoString) :
    s.inbound ⊆ (env.unlink target s q).inbound := by
  unfold unlink
  split
  · split
    · exact List.Subset.refl _
    split
    · split
      · exact List.Subset.refl _
      split
      · exact List.Subset.refl _
      · exact List.subset_append_left _ _
    · exact List.Subset.refl _
  · exact List.Subset.refl _

variable (env) in
/-- Whether the folder is brought to the state at a path at all. -/
def carries (rel : GoString) : Bool := !neverSync rel && !env.filter.skip rel

/-- A visit does nothing at its path that materializing it would not, where the path is carried. -/
theorem visit_self {s : MaterializeState} {p : GoString} {want : FileState}
    (hro : env.scope.readOnlyPath p = false) (hwant : target p = some want) :
    (Undisturbed p s (env.visit target s p) ∧
      (env.carries p = false ∨ env.replaces p (s.disk p) (s.cache.lookup p) want = false)) ∨
    ((p, false) ∈ (env.visit target s p).inbound ∧ env.carries p = true ∧
      env.replaces p (s.disk p) (s.cache.lookup p) want = true) := by
  unfold visit carries
  rw [hwant]
  dsimp only
  cases hnever : neverSync p with
  | true => exact .inl ⟨.refl p s, .inl (by simp)⟩
  | false =>
    rw [if_neg (by simp)]
    split
    · rename_i hquick
      refine .inl ⟨.refl p s, .inr ?_⟩
      rw [Bool.and_eq_true, beq_iff_eq] at hquick
      obtain ⟨hlink, hquick⟩ := hquick
      cases hc : s.cache.lookup p with
      | none =>
        rw [hc] at hquick
        cases hquick
      | some c =>
        rw [hc, Option.any_some] at hquick
        simp only [Bool.and_eq_true, beq_iff_eq] at hquick
        obtain ⟨⟨⟨-, hblob⟩, hmode⟩, -⟩ := hquick
        simp [replaces, hlink, hblob, hmode]
    · cases hskip : env.filter.skip p with
      | true => exact .inl ⟨.refl p s, .inl (by simp)⟩
      | false =>
        rw [if_neg (by simp)]
        exact (materializeFile_self hro want).imp (fun h => ⟨h.1, .inr h.2⟩)
          fun h => ⟨h.1, by simp, h.2⟩

theorem materialize_inbound (paths : List GoString) (keyOrder : List GoString → List GoString)
    (s : MaterializeState) : s.inbound ⊆ (env.materialize target paths keyOrder s).inbound := by
  refine List.foldlRecOn (motive := fun t : MaterializeState => s.inbound ⊆ t.inbound) _ _
    (foldl_visit_inbound paths s) fun t h q _ => ?_
  exact List.Subset.trans h (unlink_inbound t q)

/-- **A path the state has is left undisturbed, or written and told**, by the entry that stands
there and the one in the cache, as long as this account may write it. -/
theorem materialize_self {s : MaterializeState} {p : GoString} {want : FileState}
    {paths : List GoString} (keyOrder : List GoString → List GoString) (hnodup : paths.Nodup)
    (hmem : p ∈ paths) (hwant : target p = some want) (hro : env.scope.readOnlyPath p = false)
    (hcopy : ∀ q ∈ paths, env.scope.readOnlyPath q = false ∨ p ≠ localCopyPath q) :
    (Undisturbed p s (env.materialize target paths keyOrder s) ∧
      (env.carries p = false ∨ env.replaces p (s.disk p) (s.cache.lookup p) want = false)) ∨
    ((p, false) ∈ (env.materialize target paths keyOrder s).inbound ∧ env.carries p = true ∧
      env.replaces p (s.disk p) (s.cache.lookup p) want = true) := by
  obtain ⟨pre, post, rfl⟩ := List.append_of_mem hmem
  obtain ⟨-, hpost, hdisj⟩ := List.nodup_append.mp hnodup
  have hpre : p ∉ pre := fun h => hdisj p h p List.mem_cons_self rfl
  have hfront : Untouched p s (pre.foldl (env.visit target) s) :=
    foldl_visit_untouched hpre (fun q hq => hcopy q (List.mem_append_left _ hq)) s
  have hback (t : MaterializeState) : Untouched p t (post.foldl (env.visit target) t) :=
    foldl_visit_untouched (List.nodup_cons.mp hpost).1 (fun q hq => hcopy q (by simp [hq])) t
  have hunlinks (t : MaterializeState) (keys : List GoString) :
      Untouched p t (keys.foldl (env.unlink target) t) :=
    List.foldlRecOn (motive := Untouched p t) keys _ (.refl p t) fun t' h q _ =>
      h.trans (unlink_untouched t' q (.inl (by simp [hwant])))
  unfold materialize
  rw [List.foldl_append, List.foldl_cons]
  dsimp only
  set s₁ := pre.foldl (env.visit target) s
  have hself := visit_self (s := s₁) hro hwant
  rw [hfront.undisturbed.disk, hfront.lookup] at hself
  refine hself.imp (fun ⟨hquiet, hcond⟩ => ⟨?_, hcond⟩) fun ⟨htold, hcond⟩ => ⟨?_, hcond⟩
  · exact ((hfront.undisturbed.trans hquiet).trans (hback _).undisturbed).trans
      (hunlinks _ _).undisturbed
  · exact ((hunlinks _ _).undisturbed.inbound false).mpr
      (((hback _).undisturbed.inbound false).mpr htold)

/-- A path neither the state nor the cache has is not in the cache afterwards. -/
theorem materialize_lookup_none {s : MaterializeState} {p : GoString} {paths : List GoString}
    (keyOrder : List GoString → List GoString) (hnot : p ∉ paths)
    (hc : s.cache.lookup p = none) :
    (env.materialize target paths keyOrder s).cache.lookup p = none := by
  have hvisits : (paths.foldl (env.visit target) s).cache.lookup p = none :=
    List.foldlRecOn (motive := fun t : MaterializeState => t.cache.lookup p = none) paths _ hc
      fun t h q hq => (visit_lookup_of_ne t (ne_of_mem_of_not_mem hq hnot).symm).trans h
  exact List.foldlRecOn (motive := fun t : MaterializeState => t.cache.lookup p = none) _ _
    hvisits fun t h q _ => unlink_lookup_none q h

end MaterializeEnv

end Beardrive
