import Beardrive.Webapp.CommitBase
import Beardrive.Webapp.StorePut

/-!
# The listing of the hub and the replay of the devices

The hub lists the files of a project with a fold of its own. It groups the ops of all journals by
path, sorts each group, and keeps for a path what its last op left. The grouping changes nothing:
only the ops of one path decide what it holds, and a stable sort of a group is the group of a
stable sort.

The fold itself differs from replay in two places, both on purpose. A put that names no content is
passed over, so the path keeps its earlier version; and a link is listed with its target and its
mode alone. An honest device journals neither kind of put, but any line a journal can carry may be
one.

## Main definitions

* `byPathOrder` — the ops the hub folds, path by path
* `Op.carried`, `FileState.listed` — the ops the hub does not pass over, and how a state is listed
* `FileState.asListed` — a state with all its fields, as the listing would have it

## Main results

* `foldFiles_byPathOrder` — grouping by path changes nothing
* `listing_eq_replay` — the listing is the replay of the carried ops, and when it is the replay of
  all of them
-/

namespace Beardrive

/-! ### Grouping by path -/

/-- The paths of the ops, in the order they are first named. -/
def pathsOf (ops : List Op) : List GoString :=
  ops.foldl (fun paths op => if op.path ∈ paths then paths else paths ++ [op.path]) []

/-- `byPathOrder`: every op of the journals, grouped by path, each group in replay order. -/
def byPathOrder (journals : List (List Op)) : List Op :=
  (pathsOf journals.flatten).flatMap fun p =>
    sortOps (journals.flatten.filter fun op => op.path = p)

theorem pathsOf_append_singleton (ops : List Op) (op : Op) :
    pathsOf (ops ++ [op]) =
      if op.path ∈ pathsOf ops then pathsOf ops else pathsOf ops ++ [op.path] := by
  rw [pathsOf, List.foldl_append]
  rfl

theorem nodup_pathsOf (ops : List Op) : (pathsOf ops).Nodup := by
  induction ops using List.reverseRecOn with
  | nil => exact List.nodup_nil
  | append_singleton ops op ih =>
    rw [pathsOf_append_singleton]
    split
    · exact ih
    · exact List.nodup_append.mpr ⟨ih, List.nodup_singleton _, by
        intro p hp q hq hpq
        exact absurd (List.mem_singleton.mp hq ▸ hpq ▸ hp) ‹_›⟩

theorem mem_pathsOf {ops : List Op} {p : GoString} : p ∈ pathsOf ops ↔ ∃ op ∈ ops, op.path = p := by
  induction ops using List.reverseRecOn with
  | nil => simp [pathsOf]
  | append_singleton ops op ih =>
    rw [pathsOf_append_singleton]
    split
    · rename_i hmem
      rw [ih]
      constructor
      · rintro ⟨o, ho, hop⟩
        exact ⟨o, List.mem_append_left _ ho, hop⟩
      · rintro ⟨o, ho, hop⟩
        rcases List.mem_append.mp ho with ho | ho
        · exact ⟨o, ho, hop⟩
        · rw [List.mem_singleton.mp ho] at hop
          exact ih.mp (hop ▸ hmem)
    · rw [List.mem_append, ih, List.mem_singleton]
      constructor
      · rintro (⟨o, ho, hop⟩ | rfl)
        · exact ⟨o, List.mem_append_left _ ho, hop⟩
        · exact ⟨op, by simp, rfl⟩
      · rintro ⟨o, ho, hop⟩
        rcases List.mem_append.mp ho with ho | ho
        · exact .inl ⟨o, ho, hop⟩
        · exact .inr (List.mem_singleton.mp ho ▸ hop.symm)

theorem mem_sortOps {ops : List Op} {op : Op} : op ∈ sortOps ops ↔ op ∈ ops := by
  rw [sortOps_eq, LastWriter.mem_sort]

/-- In the group of another path there is nothing for a path. -/
theorem filter_group_of_ne (ops : List Op) {p q : GoString} (h : q ≠ p) :
    (sortOps (ops.filter fun op => op.path = q)).filter (fun op => op.path = p) = [] := by
  refine List.filter_eq_nil_iff.mpr fun op hop => ?_
  have hq : op.path = q := by simpa using (List.mem_filter.mp (mem_sortOps.mp hop)).2
  simp [hq, h]

theorem filter_group_self (ops : List Op) (p : GoString) :
    (sortOps (ops.filter fun op => op.path = p)).filter (fun op => op.path = p) =
      sortOps (ops.filter fun op => op.path = p) := by
  refine List.filter_eq_self.mpr fun op hop => ?_
  exact (List.mem_filter.mp (mem_sortOps.mp hop)).2

/-- One group of several has all there is for its path. -/
theorem filter_groups (ops : List Op) {p : GoString} {paths : List GoString} (hnd : paths.Nodup)
    (hp : p ∈ paths) :
    (paths.flatMap fun q => sortOps (ops.filter fun op => op.path = q)).filter
      (fun op => op.path = p) = sortOps (ops.filter fun op => op.path = p) := by
  induction paths with
  | nil => cases hp
  | cons q paths ih =>
    obtain ⟨hq, hnd⟩ := List.nodup_cons.mp hnd
    rw [List.flatMap_cons, List.filter_append]
    rcases List.mem_cons.mp hp with rfl | hp
    · have hrest : (paths.flatMap fun q => sortOps (ops.filter fun op => op.path = q)).filter
          (fun op => op.path = p) = [] := by
        rw [List.filter_flatMap]
        refine List.flatMap_eq_nil_iff.mpr fun r hr => filter_group_of_ne ops ?_
        rintro rfl
        exact hq hr
      rw [filter_group_self, hrest, List.append_nil]
    · have hne : q ≠ p := by
        rintro rfl
        exact hq hp
      rw [filter_group_of_ne ops hne, List.nil_append, ih hnd hp]

theorem filter_byPathOrder (journals : List (List Op)) (p : GoString) :
    (byPathOrder journals).filter (fun op => op.path = p) =
      sortOps (journals.flatten.filter fun op => op.path = p) := by
  by_cases hp : p ∈ pathsOf journals.flatten
  · exact filter_groups _ (nodup_pathsOf _) hp
  · have hnone : (journals.flatten.filter fun op => op.path = p) = [] := by
      refine List.filter_eq_nil_iff.mpr fun op hop => ?_
      simpa using fun h : op.path = p => hp (mem_pathsOf.mpr ⟨op, hop, h⟩)
    rw [hnone, byPathOrder, List.filter_flatMap]
    refine List.flatMap_eq_nil_iff.mpr fun q hq => filter_group_of_ne _ ?_
    rintro rfl
    exact hp hq

/-- **Grouping by path changes nothing of the listing.** -/
theorem foldFiles_byPathOrder (journals : List (List Op)) (p : GoString) :
    foldFiles (byPathOrder journals) p = liveVersion journals.flatten p := by
  rw [← foldFiles_filter, filter_byPathOrder, sortOps_eq, LastWriter.sort_filter,
    foldFiles_filter, liveVersion, sortOps_eq]

/-! ### The fold -/

/-- Whether the hub does not pass over an op. -/
def Op.carried (op : Op) : Bool := op.kind = .delete || op.link ≠ [] || isBlobSHA op.blob

/-- How the hub lists a state: of a link, the target and the mode. -/
def FileState.listed (s : FileState) : HubFileInfo :=
  if s.link ≠ [] then { link := s.link, mode := s.mode }
  else { blob := s.blob, size := s.size, mode := s.mode }

/-- A state with its blob, size, mode and link target. -/
def FileState.asListed (s : FileState) : HubFileInfo where
  blob := s.blob
  size := s.size
  link := s.link
  mode := s.mode

theorem foldFile_carried {op : Op} (h : op.carried = true) (files : GoString → Option HubFileInfo) :
    foldFile files op = Function.update files op.path (op.effect.map FileState.listed) := by
  cases hkind : op.kind with
  | delete => simp [foldFile, hkind]
  | put =>
    by_cases hlink : op.link = []
    · have hblob : isBlobSHA op.blob = true := by simpa [Op.carried, hkind, hlink] using h
      simp [foldFile, hkind, hlink, hblob, FileState.listed]
    · simp [foldFile, hkind, hlink, FileState.listed]

theorem foldFile_not_carried {op : Op} (h : op.carried = false)
    (files : GoString → Option HubFileInfo) : foldFile files op = files := by
  simp only [Op.carried, Bool.or_eq_false_iff, decide_eq_false_iff_not, not_not] at h
  obtain ⟨⟨hkind, hlink⟩, hblob⟩ := h
  cases hk : op.kind with
  | delete => exact absurd hk hkind
  | put => simp [foldFile, hk, hlink, hblob]

/-- The listing is a fold of the carried ops. -/
theorem foldFiles_eq (ops : List Op) : foldFiles ops =
    LastWriter.fold Op.path (fun op => op.effect.map FileState.listed) (ops.filter Op.carried) := by
  induction ops using List.reverseRecOn with
  | nil => rfl
  | append_singleton ops op ih =>
    rw [foldFiles, List.foldl_append, List.foldl_cons, List.foldl_nil, ← foldFiles, ih,
      List.filter_append]
    cases h : op.carried with
    | true =>
      rw [foldFile_carried h, List.filter_cons_of_pos h, List.filter_nil,
        LastWriter.fold_append_singleton]
    | false =>
      rw [foldFile_not_carried h, List.filter_cons_of_neg (by simp [h]), List.filter_nil,
        List.append_nil]

/-- What a path is listed with is decided by the last op the hub carries for it. -/
theorem liveVersion_eq (all : List Op) (p : GoString) :
    liveVersion all p = (lastOp (all.filter Op.carried) p).bind
      fun op => op.effect.map FileState.listed := by
  rw [liveVersion, foldFiles_eq, LastWriter.fold_apply, lastOp, sortOps_eq, sortOps_eq,
    LastWriter.sort_filter]

theorem liveVersion_eq_replay (all : List Op) (p : GoString) :
    liveVersion all p = (replay (all.filter Op.carried) p).map FileState.listed := by
  rw [liveVersion_eq, replay_eq_lastOp]
  cases lastOp (all.filter Op.carried) p <;> rfl

/-! ### Where the hub and the devices agree -/

/-- A put that is listed as it is replayed: a link with no content, or a blob. -/
def Op.plain (op : Op) : Bool :=
  if op.link ≠ [] then op.blob = [] && op.size = 0 else isBlobSHA op.blob

theorem Op.plain_of_delete_or {op : Op} (h : op.kind = .put → op.plain = true) :
    op.carried = true := by
  cases hkind : op.kind with
  | delete => simp [Op.carried, hkind]
  | put =>
    have hplain := h hkind
    by_cases hlink : op.link = []
    · simpa [Op.plain, Op.carried, hkind, hlink] using hplain
    · simp [Op.carried, hkind, hlink]

/-- The last op of a path is the last that is carried, if it is carried. -/
theorem lastOp_filter_carried {all : List Op} {p : GoString} {op : Op}
    (h : lastOp all p = some op) (hop : op.carried = true) :
    lastOp (all.filter Op.carried) p = some op := by
  rw [lastOp, sortOps_eq, LastWriter.last?] at h ⊢
  obtain ⟨front, hfront⟩ := List.getLast?_eq_some_iff.mp h
  rw [LastWriter.sort_filter, List.filter_comm, hfront, List.filter_append,
    List.filter_cons_of_pos hop, List.filter_nil, List.getLast?_concat]

/-- A carried put is listed as it is replayed when it is plain. -/
theorem listed_eq_iff {op : Op} (h : op.carried = true) :
    op.effect.map FileState.listed = op.effect.map FileState.asListed ↔
      (op.kind = .put → op.plain = true) := by
  cases hkind : op.kind with
  | delete => simp [hkind]
  | put =>
    by_cases hlink : op.link = []
    · have hblob : isBlobSHA op.blob = true := by simpa [Op.carried, hkind, hlink] using h
      simp [hkind, hlink, hblob, FileState.listed, FileState.asListed, Op.plain]
    · simp only [Op.effect_put hkind, Option.map_some, FileState.listed, FileState.asListed, hlink,
        ne_eq, not_false_eq_true, if_true, Option.some.injEq, HubFileInfo.mk.injEq, and_true,
        Op.plain, Bool.and_eq_true, decide_eq_true_eq, forall_const]
      exact and_congr eq_comm eq_comm

/-- What is listed is a link or names content. -/
theorem listed_of_carried {op : Op} {fi : HubFileInfo} (h : op.carried = true)
    (hfi : op.effect.map FileState.listed = some fi) :
    fi.link ≠ [] ∨ isBlobSHA fi.blob = true := by
  cases hkind : op.kind with
  | delete => simp [hkind] at hfi
  | put =>
    by_cases hlink : op.link = []
    · have hblob : isBlobSHA op.blob = true := by simpa [Op.carried, hkind, hlink] using h
      simp only [Op.effect_put hkind, Option.map_some, FileState.listed, hlink, ne_eq,
        not_true_eq_false, if_false, Option.some.injEq] at hfi
      exact .inr (hfi ▸ hblob)
    · simp only [Op.effect_put hkind, Option.map_some, FileState.listed, ne_eq, hlink,
        not_false_eq_true, if_true, Option.some.injEq] at hfi
      exact .inl (hfi ▸ hlink)

theorem liveVersion_eq_asListed_iff (all : List Op) (p : GoString) :
    liveVersion all p = (replay all p).map FileState.asListed ↔
      ∀ op, lastOp all p = some op → op.kind = .put → op.plain = true := by
  rw [liveVersion_eq, replay_eq_lastOp]
  cases hlast : lastOp all p with
  | none =>
    have hnone : lastOp (all.filter Op.carried) p = none :=
      lastOp_eq_none_iff.mpr fun op hop =>
        lastOp_eq_none_iff.mp hlast op (List.mem_filter.mp hop).1
    simp [hnone]
  | some op =>
    cases hop : op.carried with
    | true =>
      rw [lastOp_filter_carried hlast hop]
      simpa using listed_eq_iff hop
    | false =>
      have hnot : ¬ (op.kind = .put → op.plain = true) := fun h => by
        rw [Op.plain_of_delete_or h] at hop
        cases hop
      have hop' := hop
      simp only [Op.carried, Bool.or_eq_false_iff, decide_eq_false_iff_not, not_not] at hop'
      obtain ⟨⟨hkind, hlink⟩, hblob⟩ := hop'
      have hput : op.kind = .put := by cases hk : op.kind with
        | put => rfl
        | delete => exact absurd hk hkind
      refine iff_of_false (fun heq => ?_) fun h => hnot (h op rfl)
      -- the devices hold a file with no content, and the hub lists none such
      cases hcar : lastOp (all.filter Op.carried) p with
      | none => simp [hcar, hput] at heq
      | some o =>
        have ho : o.carried = true :=
          (List.mem_filter.mp (wins_of_lastOp hcar).1).2
        simp only [hcar, Option.bind_some, Op.effect_put hput, Option.map_some] at heq
        rcases listed_of_carried ho heq with h | h
        · exact h hlink
        · simp [FileState.asListed, hblob] at h

/-- **The listing of the hub is the replay of the ops it carries**, each state listed without the
content a link has none of; **and it is the replay of all ops, field by field, exactly at the paths
whose last op is a delete, a link with neither blob nor size, or a put that names its content.** -/
theorem listing_eq_replay (journals : List (List Op)) (p : GoString) :
    foldFiles (byPathOrder journals) p =
        (replay (journals.flatten.filter Op.carried) p).map FileState.listed ∧
      (foldFiles (byPathOrder journals) p = (replay journals.flatten p).map FileState.asListed ↔
        ∀ op, lastOp journals.flatten p = some op → op.kind = .put → op.plain = true) := by
  rw [foldFiles_byPathOrder]
  exact ⟨liveVersion_eq_replay _ p, liveVersion_eq_asListed_iff _ p⟩

/-- A journal of one put that names no content. -/
def namelessJournal : GoString :=
  ascii "\x7b\"seq\":1,\"lamport\":1,\"time\":\"0001-01-01T00:00:00Z\",\"device\":\"d\"," ++
    ascii "\"kind\":\"put\",\"path\":\"f\",\"blob\":\"x\"\x7d\n"

/-- The devices hold a file that the hub does not list. -/
theorem listing_ne_replay : ¬ ∀ (normEmail : GoString → GoString) (folders : List FolderRule)
    (caller : Caller) (body : GoString), acceptsJournal normEmail folders caller none body = true →
      ∀ p, foldFiles (byPathOrder [parse body]) p = (replay (parse body) p).map FileState.asListed := by
  intro h
  have hsame := h id [] lockedCaller namelessJournal (by decide +kernel) (ascii "f")
  exact absurd hsame (by decide +kernel)

end Beardrive
