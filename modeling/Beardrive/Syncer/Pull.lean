import Beardrive.Journal.Log

/-!
# Pulling a journal

A device holds a copy of every peer's journal, the bytes it last accepted, and takes the object of
the remote in its place when the object has grown. The new ops are those behind the last complete
line of the copy. A body that no longer starts with the copy's complete lines is read whole, as
long as it has no fewer ops.

## What is read twice

A journal may be seen cut anywhere. An op on a line that was cut right before its line break is an
op: it is returned, and it stands behind the last complete line, so the next body returns it
again. A body cut within the lines that are already held is a rewritten journal to the device,
and all of it is returned again where the cut took nothing that decodes.

## Main definitions

* `opSlot`, `opID`, `redefinesApplied`, `withdrawn` — an op against the ops already applied
* `pullJournal` — one journal of the listing
* `PullState`, `Pulls` — every sequence of pulls of one object that grows

## Main results

* `pullJournal_skips_nothing` — every op of an accepted body was held or is returned
* `pulls_return_once` — and returned once, over bodies that neither of the two cuts
-/

namespace Beardrive

/-! ### One op against another -/

/-- `opSlot`: the device and the sequence number of an op. -/
def opSlot (op : Op) : GoString := op.device ++ 0 :: formatInt op.seq

/-- `opID`: the slot and what is compared of the op. -/
def opID (op : Op) : GoString :=
  opSlot op ++ 0 :: formatInt op.lamport ++ 0 :: op.time.utcNano ++ 0 :: op.kind.text ++
    0 :: op.path ++ 0 :: op.blob ++ 0 :: formatInt op.size ++ 0 :: decimal op.mode.toNat

/-- `redefinesApplied`: the slot of an applied op holds other ops and not that one. -/
def redefinesApplied (all applied : List Op) : Bool :=
  applied.any fun op =>
    (all.map opSlot).contains (opSlot op) && !(all.map opID).contains (opID op)

/-- `withdrawn`: the applied ops whose slot is gone. -/
def withdrawn (all applied : List Op) : List Op :=
  applied.filter fun op => !(all.map opSlot).contains (opSlot op)

/-! ### One journal -/

/-- A journal up to its last line break. -/
def wholePart (data : GoString) : GoString := data.rdropWhile (· != 0x0A)

/-- Where the new ops of a body begin, for a device that holds `held`. -/
def resumeAt (held data : GoString) : ℕ :=
  if wholePart held ≠ [] ∧ wholePart held <+: data then (wholePart held).length else 0

/-- What accepting a body leaves and returns. -/
structure Pulled where
  copy : GoString
  fresh : List Op
  gone : List Op
  deriving DecidableEq

/-- One round of `pull`: the copy held, the listed size of the object and what was read of it.
`room` tells whether another peer may be admitted. Nothing is returned for a body that is passed
over. -/
def pullJournal (room : Bool) (copy : Option GoString) (size : ℤ) (data : GoString) :
    Option Pulled :=
  let held := copy.getD []
  if size ≤ held.length ∧ 0 < held.length then none
  else if copy = none ∧ room = false then none
  else if held = data then none
  else if redefinesApplied (parse data) (parse held) then none
  else if wholePart held ≠ [] ∧ ¬ wholePart held <+: data ∧
      (parse data).length < (parse (wholePart held)).length then none
  else some {
    copy := data
    fresh := parse (data.drop (resumeAt held data))
    gone := withdrawn (parse data) (parse held) }

/-- What redefines nothing: a body that has every op of the copy. -/
theorem redefinesApplied_of_subset {all applied : List Op} (h : ∀ op ∈ applied, op ∈ all) :
    redefinesApplied all applied = false := by
  rw [redefinesApplied, List.any_eq_false]
  intro op hop hredefined
  have hid : (all.map opID).contains (opID op) = true :=
    List.contains_iff_mem.mpr (List.mem_map_of_mem (h op hop))
  rw [hid] at hredefined
  simp at hredefined

theorem pullJournal_eq_some {room : Bool} {copy : Option GoString} {size : ℤ} {data : GoString}
    {r : Pulled} (h : pullJournal room copy size data = some r) :
    r.copy = data ∧ r.fresh = parse (data.drop (resumeAt (copy.getD []) data)) ∧
      r.gone = withdrawn (parse data) (parse (copy.getD [])) ∧
      redefinesApplied (parse data) (parse (copy.getD [])) = false ∧ copy.getD [] ≠ data ∧
      (wholePart (copy.getD []) <+: data ∨
        (parse (wholePart (copy.getD []))).length ≤ (parse data).length) := by
  simp only [pullJournal] at h
  split_ifs at h with h1 h2 h3 h4 h5
  obtain rfl := Option.some.inj h
  refine ⟨rfl, rfl, rfl, by simpa using h4, h3, ?_⟩
  by_cases hwhole : wholePart (copy.getD []) = []
  · rw [hwhole]
    exact .inl List.nil_prefix
  · by_cases hpre : wholePart (copy.getD []) <+: data
    · exact .inl hpre
    · exact .inr (not_lt.mp fun hlt => h5 ⟨hwhole, hpre, hlt⟩)

/-! ### Line by line -/

/-- The ops of a journal, each with the number of its line. -/
def opsAt (k : ℕ) (data : GoString) : List (ℕ × Op) :=
  ((data.splitOn 0x0A).zipIdx k).filterMap fun e => (parseLine e.1).map (Prod.mk e.2)

theorem opsAt_snd (k : ℕ) (data : GoString) : (opsAt k data).map Prod.snd = parse data := by
  have hline : (fun e : GoString × ℕ => ((parseLine e.1).map (Prod.mk e.2)).map Prod.snd) =
      parseLine ∘ Prod.fst := by
    funext e
    cases h : parseLine e.1 <;> simp [h]
  rw [opsAt, List.map_filterMap, hline, ← List.filterMap_map, List.zipIdx_map_fst, parse]

@[simp] theorem opsAt_nil (k : ℕ) : opsAt k [] = [] := rfl

theorem opsAt_line_break (k : ℕ) (a b : GoString) :
    opsAt k (a ++ 0x0A :: b) = opsAt k a ++ opsAt (k + (a.count 0x0A + 1)) b := by
  rw [opsAt, List.splitOn_append_cons_self, List.zipIdx_append, List.filterMap_append,
    length_splitOn]
  rfl

/-- Two lines of a journal have two numbers. -/
theorem nodup_opsAt (k : ℕ) (data : GoString) : ((opsAt k data).map Prod.fst).Nodup := by
  have hsub (l : List (GoString × ℕ)) :
      ((l.filterMap fun e => (parseLine e.1).map (Prod.mk e.2)).map Prod.fst).Sublist
        (l.map Prod.snd) := by
    induction l with
    | nil => exact .slnil
    | cons e l ih =>
      rw [List.filterMap_cons]
      cases parseLine e.1 with
      | none => exact ih.cons _
      | some op => exact ih.cons_cons _
  refine (hsub _).nodup ?_
  rw [List.zipIdx_map_snd]
  exact List.nodup_range'

/-- A journal is empty up to a line, or ends in a line break there. -/
theorem wholePart_cases (data : GoString) :
    wholePart data = [] ∨ ∃ init, wholePart data = init ++ [0x0A] := by
  by_cases h : wholePart data = []
  · exact .inl h
  · have hbreak := List.rdropWhile_last_not _ _ h
    simp only [bne_iff_ne, ne_eq, not_not] at hbreak
    exact .inr ⟨_, hbreak ▸ (List.dropLast_append_getLast h).symm⟩

/-- Behind complete lines a journal is read on its own. -/
theorem opsAt_wholePart_append (k : ℕ) (data t : GoString) :
    opsAt k (wholePart data ++ t) =
      opsAt k (wholePart data) ++ opsAt (k + (wholePart data).count 0x0A) t := by
  rcases wholePart_cases data with h | ⟨init, h⟩
  · simp [h]
  · rw [h, List.append_assoc, List.singleton_append, opsAt_line_break, opsAt_line_break, opsAt_nil,
      List.append_nil, List.count_append, List.count_singleton_self]

theorem wholePart_append_lastLine (data : GoString) : wholePart data ++ lastLine data = data :=
  List.rdropWhile_append_rtakeWhile

/-- A last line that gives no op may be left out. -/
theorem opsAt_wholePart {data : GoString} (h : parseLine (lastLine data) = none) (k : ℕ) :
    opsAt k (wholePart data) = opsAt k data := by
  have hlast : opsAt (k + (wholePart data).count 0x0A) (lastLine data) = [] := by
    have hparse : parse (lastLine data) = [] := by
      rw [parse_of_notMem fun hmem => by simpa using List.mem_rtakeWhile_imp hmem, h]
      rfl
    rw [← opsAt_snd (k + (wholePart data).count 0x0A)] at hparse
    exact List.map_eq_nil_iff.mp hparse
  conv_rhs => rw [← wholePart_append_lastLine data, opsAt_wholePart_append, hlast, List.append_nil]

theorem parse_wholePart_append (data t : GoString) :
    parse (wholePart data ++ t) = parse (wholePart data) ++ parse t := by
  rw [← opsAt_snd 0, opsAt_wholePart_append, List.map_append, opsAt_snd, opsAt_snd]

theorem mem_parse_of_mem_wholePart {data : GoString} {op : Op} (h : op ∈ parse (wholePart data)) :
    op ∈ parse data := by
  rw [← wholePart_append_lastLine data, parse_wholePart_append]
  exact List.mem_append_left _ h

/-! ### One pull -/

/-- **Every op of an accepted body was held or is returned.** -/
theorem pullJournal_skips_nothing {room : Bool} {copy : Option GoString} {size : ℤ}
    {data : GoString} {r : Pulled} (h : pullJournal room copy size data = some r) :
    ∀ op ∈ parse data, op ∈ parse (copy.getD []) ∨ op ∈ r.fresh := by
  obtain ⟨-, hfresh, -⟩ := pullJournal_eq_some h
  intro op hop
  rw [hfresh, resumeAt]
  split
  · rename_i hresume
    obtain ⟨t, rfl⟩ := hresume.2
    rw [parse_wholePart_append, List.mem_append] at hop
    rw [List.drop_left]
    exact hop.imp_left mem_parse_of_mem_wholePart
  · exact .inr hop

/-- The ops a pull returns, each with the number of its line. -/
def freshAt (held data : GoString) : List (ℕ × Op) :=
  opsAt ((data.take (resumeAt held data)).count 0x0A) (data.drop (resumeAt held data))

theorem freshAt_snd {room : Bool} {copy : Option GoString} {size : ℤ} {data : GoString}
    {r : Pulled} (h : pullJournal room copy size data = some r) :
    (freshAt (copy.getD []) data).map Prod.snd = r.fresh := by
  rw [(pullJournal_eq_some h).2.1, freshAt, opsAt_snd]

/-! ### Sequences of pulls -/

/-- The copy of an object, and every op that was returned from it, with the number of its line. -/
structure PullState where
  copy : Option GoString := none
  returned : List (ℕ × Op) := []

/-- One more pull. -/
def PullState.pull (st : PullState) (room : Bool) (size : ℤ) (data : GoString) : PullState :=
  match pullJournal room st.copy size data with
  | none => st
  | some r =>
    { copy := some r.copy, returned := st.returned ++ freshAt (st.copy.getD []) data }

/-- The pulls of an object that grows from version to version, each of which read the front of
one, where every body that was accepted is a `Good` one for the copy it replaced. -/
inductive Pulls (Good : GoString → GoString → Prop) : GoString → PullState → Prop where
  | start (v : GoString) : Pulls Good v {}
  | pull {v v' : GoString} {st : PullState} (room : Bool) (size : ℤ) (data : GoString)
      (h : Pulls Good v st) (hgrown : v <+: v') (hread : data <+: v')
      (hgood : (pullJournal room st.copy size data).isSome → Good (st.copy.getD []) data) :
      Pulls Good v' (st.pull room size data)

/-- What pulling promises: no line is returned twice, the device was returned what another reads
in its copy, and an accepted body is held as it is, with every op held before or returned. -/
def LosesNothing (st : PullState) : Prop :=
  (st.returned.map Prod.fst).Nodup ∧
    st.returned.map Prod.snd = parse (st.copy.getD []) ∧
      ∀ room size data r, pullJournal room st.copy size data = some r →
        r.copy = data ∧ ∀ op ∈ parse data, op ∈ parse (st.copy.getD []) ∨ op ∈ r.fresh

/-- A body whose last line gives no op unless it is complete, and that has all the complete lines
of the copy. -/
def Steady (held data : GoString) : Prop :=
  parseLine (lastLine data) = none ∧ (wholePart held).length ≤ data.length

/-- The copy is the front of a version. -/
theorem Pulls.copy_prefix {Good : GoString → GoString → Prop} {v : GoString} {st : PullState}
    (h : Pulls Good v st) : st.copy.getD [] <+: v := by
  induction h with
  | start v => exact List.nil_prefix
  | pull room size data h hgrown hread hgood ih =>
    unfold PullState.pull
    split
    · exact ih.trans hgrown
    · rename_i r hr
      rw [(pullJournal_eq_some hr).1]
      exact hread

/-- What was returned is what the copy holds, line by line. -/
theorem returned_eq {v : GoString} {st : PullState} (h : Pulls Steady v st) :
    st.returned = opsAt 0 (st.copy.getD []) ∧ parseLine (lastLine (st.copy.getD [])) = none := by
  induction h with
  | start v => exact ⟨rfl, rfl⟩
  | @pull v v' st room size data h hgrown hread hgood ih =>
    unfold PullState.pull
    split
    · exact ih
    · rename_i r hr
      obtain ⟨hlast, hlen⟩ := hgood (by simp [hr])
      obtain ⟨hreturned, hheld⟩ := ih
      have hwhole : wholePart (st.copy.getD []) <+: data := by
        have hfront : wholePart (st.copy.getD []) <+: st.copy.getD [] :=
          List.rdropWhile_prefix _ _
        exact List.prefix_of_prefix_length_le
          (hfront.trans (h.copy_prefix.trans hgrown)) hread hlen
      obtain ⟨t, ht⟩ := hwhole
      have hfresh : freshAt (st.copy.getD []) data =
          opsAt ((wholePart (st.copy.getD [])).count 0x0A) t := by
        rw [freshAt, resumeAt, ← ht]
        by_cases hnil : wholePart (st.copy.getD []) = []
        · simp [hnil]
        · rw [if_pos ⟨hnil, List.prefix_append _ _⟩, List.take_left, List.drop_left]
      rw [(pullJournal_eq_some hr).1]
      refine ⟨?_, hlast⟩
      rw [hreturned, hfresh, ← opsAt_wholePart hheld, Option.getD_some, ← ht,
        opsAt_wholePart_append, Nat.zero_add]

/-- **Over bodies that neither end in an op without a line break nor fall short of the complete
lines held, pulling loses nothing and returns nothing twice.** -/
theorem pulls_return_once {v : GoString} {st : PullState} (h : Pulls Steady v st) :
    LosesNothing st := by
  obtain ⟨hreturned, -⟩ := returned_eq h
  refine ⟨hreturned ▸ nodup_opsAt 0 _, by rw [hreturned, opsAt_snd], fun room size data r hr => ?_⟩
  exact ⟨(pullJournal_eq_some hr).1, pullJournal_skips_nothing hr⟩

/-- The line of a second op. -/
def secondLine : GoString :=
  ascii "\x7b\"seq\":2,\"lamport\":2,\"time\":\"0001-01-01T00:00:00Z\"," ++
    ascii "\"device\":\"d\",\"kind\":\"put\",\"path\":\"g\"\x7d\n"

/-- A journal that is seen line by line is returned line by line. -/
theorem pulls_return_once_two_lines :
    LosesNothing ((({} : PullState).pull true firstLine.length firstLine).pull true
      (firstLine ++ secondLine).length (firstLine ++ secondLine)) := by
  refine pulls_return_once (v := firstLine ++ secondLine) ?_
  refine .pull true _ _ (.pull true _ _ (.start firstLine) (List.prefix_refl _)
    (List.prefix_refl _) fun _ => ?_) (List.prefix_append _ _) (List.prefix_refl _) fun _ => ?_
  · exact ⟨by decide +kernel, by decide +kernel⟩
  · exact ⟨by decide +kernel, by decide +kernel⟩

/-- An op that was seen before its line break is returned again behind it. -/
theorem torn_line_returned_twice : ¬ ∀ (v : GoString) (st : PullState),
    Pulls (fun _ _ => True) v st → LosesNothing st := by
  intro h
  have hrun : Pulls (fun _ _ => True) (firstLine ++ secondLine)
      ((({} : PullState).pull true firstLine.length firstLine.dropLast).pull true
        (firstLine ++ secondLine).length (firstLine ++ secondLine)) :=
    .pull true _ _ (.pull true _ _ (.start firstLine) (List.prefix_refl _)
      (List.dropLast_prefix _) fun _ => trivial) (List.prefix_append _ _) (List.prefix_refl _)
      fun _ => trivial
  have htwice : ((({} : PullState).pull true firstLine.length firstLine.dropLast).pull true
      (firstLine ++ secondLine).length (firstLine ++ secondLine)).returned.map Prod.fst =
      [0, 0, 1] := by decide +kernel
  have hnodup := (h _ _ hrun).1
  rw [htwice] at hnodup
  exact absurd hnodup (by decide)

end Beardrive
