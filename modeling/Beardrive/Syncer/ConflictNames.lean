import Beardrive.Syncer.Conflict

/-!
# Where conflict copies meet

A copy keeps the version that lost only as long as nothing else is put at its path. The step asks
the replayed state about one thing, whether this very content is there already; it asks nothing of
the copies it is making, nor of those another device makes.

What a name is made of decides the rest: the directory of the path, what is left of the file's name
once it is cut, and a mark of the device and the second. Two versions that agree in the three are
written to one path, and the later of them is all that is kept.

## Main definitions

* `copyMark`, `copyStem` — the mark of a copy, and what is left of the name of its file
* `ConflictCall.Copies` — the copies a call makes
* `CopiesStand` — no copy overwrites a file or another copy
* `CopiesApart` — what that takes of the edits and of the replayed state

## Main results

* `conflictName_inj` — a copy's path tells the directory, the stem and the mark
* `safePath_conflictName_iff` — which paths have copies at safe paths
* `copiesStand_iff` — copies stand exactly when they are apart
* `eq_of_conflictName_eq` — names that are not cut never meet
-/

namespace Beardrive

/-! ### The parts of a name -/

/-- The device whose version lost and the second of it, as a copy is marked with them. -/
def copyMark (deviceName : GoString) (t : Time) : GoString :=
  (sanitize deviceName).take 32 ++ ascii "-" ++ t.utcStamp

/-- What is left of the name of a file in front of a mark. -/
def copyStem (p mark : GoString) : GoString := (splitDir p).2.take (238 - mark.length)

theorem conflictSuffix_eq (deviceName : GoString) (t : Time) :
    conflictSuffix deviceName t = 0x2E :: (ascii "bdrive-conflict-" ++ copyMark deviceName t) := by
  rw [conflictSuffix, clip_eq_take, copyMark]
  simp [ascii]

theorem copyName_eq (p deviceName : GoString) (t : Time) :
    copyName (splitDir p).2 deviceName t = copyStem p (copyMark deviceName t) ++
      0x2E :: (ascii "bdrive-conflict-" ++ copyMark deviceName t) := by
  rw [copyName, clip_eq_take, conflictSuffix_eq, copyStem]
  congr 2
  rw [List.length_cons, List.length_append, show (ascii "bdrive-conflict-").length = 16 from rfl]
  omega

/-- No byte of a sanitized name is a dot. -/
theorem dot_notMem_sanitize (s : GoString) : 0x2E ∉ sanitize s := by
  intro hmem
  obtain ⟨r, -, hr⟩ := List.mem_map.mp hmem
  split_ifs at hr with h
  · have hlt : r < 128 := by omega
    have hall : ∀ n : Fin 128, ((0x61 ≤ n.1 ∧ n.1 ≤ 0x7A) ∨ (0x41 ≤ n.1 ∧ n.1 ≤ 0x5A) ∨
        (0x30 ≤ n.1 ∧ n.1 ≤ 0x39) ∨ n.1 = 0x2D ∨ n.1 = 0x5F) →
          UInt8.ofNat n.1 ≠ 0x2E := by decide
    exact hall ⟨r, hlt⟩ h hr
  · exact absurd hr (by decide)

/-- Nor of a stamp. -/
theorem dot_notMem_utcStamp (t : Time) : 0x2E ∉ t.utcStamp := by
  intro hmem
  have hpadded {w n : ℕ} : 0x2E ∉ padded w n := fun h =>
    absurd (digitByte_of_mem_padded h) (by decide)
  simp only [Time.utcStamp, List.mem_append, List.mem_cons, List.append_assoc, List.cons_append,
    List.not_mem_nil, or_false, hpadded, false_or] at hmem
  rcases hmem with hmem | hmem | hmem
  · split at hmem
    · exact absurd (List.mem_singleton.mp hmem) (by decide)
    · cases hmem
  · exact absurd hmem (by decide)
  · exact absurd hmem (by decide)

theorem dot_notMem_copyMark (deviceName : GoString) (t : Time) :
    0x2E ∉ ascii "bdrive-conflict-" ++ copyMark deviceName t := by
  rw [copyMark, List.mem_append, List.mem_append, List.mem_append]
  rintro (h | (h | h) | h)
  · exact absurd h (by decide)
  · exact dot_notMem_sanitize _ (List.mem_of_mem_take h)
  · exact absurd h (by decide)
  · exact dot_notMem_utcStamp t h

/-- **The path of a copy tells the directory, the stem and the mark**, and nothing else of the
version that lost. -/
theorem conflictName_inj {p q d e : GoString} {t u : Time} :
    conflictName p d t = conflictName q e u ↔
      (splitDir p).1 = (splitDir q).1 ∧
        copyStem p (copyMark d t) = copyStem q (copyMark e u) ∧ copyMark d t = copyMark e u := by
  constructor
  · intro h
    have hsplit := congrArg splitDir h
    rw [conflictName_eq, conflictName_eq,
      splitDir_of_name p (slash_notMem_copyName (splitDir_append p).2 d t),
      splitDir_of_name q (slash_notMem_copyName (splitDir_append q).2 e u)] at hsplit
    obtain ⟨hdir, hname⟩ := Prod.mk.inj hsplit
    rw [copyName_eq, copyName_eq] at hname
    obtain ⟨hstem, hmark⟩ := append_cons_inj_of_notMem_right (dot_notMem_copyMark d t)
      (dot_notMem_copyMark e u) hname
    exact ⟨hdir, hstem, List.append_cancel_left hmark⟩
  · rintro ⟨hdir, hstem, hmark⟩
    rw [conflictName_eq, conflictName_eq, copyName_eq, copyName_eq, hdir, hstem, hmark]

/-- Marks with stamps of one length tell the device, as it is sanitized and cut, and the second. -/
theorem copyMark_inj {d e : GoString} {t u : Time}
    (hlen : t.utcStamp.length = u.utcStamp.length) :
    copyMark d t = copyMark e u ↔
      (sanitize d).take 32 = (sanitize e).take 32 ∧ t.utcStamp = u.utcStamp := by
  constructor
  · intro h
    obtain ⟨htag, hstamp⟩ := List.append_inj' h hlen
    exact ⟨List.append_cancel_right htag, hstamp⟩
  · rintro ⟨htag, hstamp⟩
    rw [copyMark, copyMark, htag, hstamp]

/-- **Names that are not cut never meet**: only clipping puts the copies of two files at one
path. -/
theorem eq_of_conflictName_eq {p q d e : GoString} {t u : Time}
    (hp : (splitDir p).2.length + (copyMark d t).length ≤ 238)
    (hq : (splitDir q).2.length + (copyMark e u).length ≤ 238)
    (h : conflictName p d t = conflictName q e u) : p = q := by
  obtain ⟨hdir, hstem, -⟩ := conflictName_inj.mp h
  rw [copyStem, copyStem, List.take_of_length_le (by omega), List.take_of_length_le (by omega)]
    at hstem
  rw [← (splitDir_append p).1, ← (splitDir_append q).1, hdir, hstem]

/-- A path lies at a copy's exactly when its directory and its name are the copy's. -/
theorem eq_conflictName_iff {p q d : GoString} {t : Time} :
    q = conflictName p d t ↔ (splitDir q).1 = (splitDir p).1 ∧ (splitDir q).2 =
      copyStem p (copyMark d t) ++ ascii ".bdrive-conflict-" ++ copyMark d t := by
  have hname : copyName (splitDir p).2 d t
      = copyStem p (copyMark d t) ++ ascii ".bdrive-conflict-" ++ copyMark d t := by
    rw [copyName_eq]
    simp [ascii]
  rw [← hname]
  constructor
  · rintro rfl
    rw [conflictName_eq, splitDir_of_name p (slash_notMem_copyName (splitDir_append p).2 d t)]
    exact ⟨rfl, rfl⟩
  · rintro ⟨hdir, hbase⟩
    rw [conflictName_eq, ← hdir, ← hbase, (splitDir_append q).1]

/-! ### Copies at safe paths -/

/-- **The path of a copy is safe** as soon as the directories of the file are plain and what is
left of the path is of safe characters. -/
theorem safePath_conflictName_iff {p d : GoString} {t : Time} :
    safePath (conflictName p d t) = true ↔
      (∀ seg ∈ (segments p).dropLast, Plain seg) ∧
        safeRunes ((splitDir p).1 ++ copyStem p (copyMark d t)) true = true := by
  obtain ⟨hp, hslash⟩ := splitDir_append p
  obtain ⟨init, hinit⟩ := exists_segments_splitDir p
  have hsegs := hinit _ hslash
  rw [hp] at hsegs
  have hcopy := slash_notMem_copyName hslash d t
  have hplain : Plain (copyName (splitDir p).2 d t) := by
    obtain ⟨mid, hsuffix⟩ := exists_conflictSuffix d t
    rw [copyName, hsuffix, ← List.append_assoc]
    refine ⟨by simp, fun heq => ?_, fun heq => ?_⟩ <;>
      exact absurd (congrArg List.getLast? heq) (by rw [List.getLast?_concat]; decide)
  have htail : safeRunes (0x2E :: (ascii "bdrive-conflict-" ++ copyMark d t)) true = true := by
    rw [← conflictSuffix_eq]
    exact safeRunes_of_printable (fun b hb =>
      printable_of_suffixByte (suffixByte_of_mem d t b hb)) true
  rw [safePath_iff, hsegs, List.dropLast_concat, conflictName_eq, hinit _ hcopy,
    List.forall_mem_append, List.forall_mem_singleton, copyName_eq, ← List.append_assoc,
    safeRunes_append_ascii (by decide), ← copyName_eq]
  constructor
  · rintro ⟨⟨hdirs, -⟩, hrunes, -⟩
    exact ⟨hdirs, hrunes⟩
  · rintro ⟨hdirs, hrunes⟩
    exact ⟨⟨hdirs, hplain⟩, hrunes, htail⟩

/-! ### The copies of a call -/

/-- A call of the conflict step. -/
structure ConflictCall where
  env : ConflictEnv
  start : ConflictState

/-- The call keeps a version that lost at a path in an op of its own. -/
def ConflictCall.Copies (call : ConflictCall) (p : GoString) (loser op : Op) : Prop :=
  ∃ s, call.env.At call.start p s ∧ call.env.outcome s.blobs p = .copied loser ∧
    op = s.nextOp call.env.stamp (call.env.now p) (copyOp p loser)

/-- The op is among those the call returns. -/
theorem ConflictCall.Copies.mem {call : ConflictCall} {p : GoString} {loser op : Op}
    (h : call.Copies p loser op) : op ∈ (call.env.conflictCopies call.start).ops := by
  obtain ⟨s, hat, hout, rfl⟩ := h
  exact mem_conflictCopies_of_mint hat (.copied loser hout)

/-- Every op a call returns that it was not given merges two versions or is a copy. -/
theorem ConflictCall.copies_of_mem {call : ConflictCall} {op : Op}
    (h : op ∈ (call.env.conflictCopies call.start).ops) (hnew : op ∉ call.start.ops) :
    op.note = mergeNote ∨ ∃ p loser, call.Copies p loser op := by
  rcases mem_conflictCopies h with hold | ⟨p, s, hat, hmint⟩
  · exact absurd hold hnew
  · cases hmint with
    | merged mine blob hout => exact .inl rfl
    | copied loser hout => exact .inr ⟨p, loser, s, hat, hout, rfl⟩

theorem ConflictCall.Copies.path_eq {call : ConflictCall} {p : GoString} {loser op : Op}
    (h : call.Copies p loser op) : op.path = conflictName p loser.deviceName loser.time := by
  obtain ⟨s, -, -, rfl⟩ := h
  rfl

theorem ConflictCall.Copies.blob_eq {call : ConflictCall} {p : GoString} {loser op : Op}
    (h : call.Copies p loser op) : op.blob = loser.blob := by
  obtain ⟨s, -, -, rfl⟩ := h
  rfl

/-- **Conflict copies overwrite nothing and never collide**: every copy of the calls is put at a
safe path, where no file of other content lives, and at the path of no copy of other content or of
another file. -/
structure CopiesStand (calls : Set ConflictCall) : Prop where
  safe : ∀ call ∈ calls, ∀ p loser op, call.Copies p loser op → safePath op.path = true
  fresh : ∀ call ∈ calls, ∀ p loser op, call.Copies p loser op → ∀ file,
    replay call.env.all op.path = some file → file.blob = op.blob
  contents : ∀ call ∈ calls, ∀ call' ∈ calls, ∀ p loser op p' loser' op',
    call.Copies p loser op → call'.Copies p' loser' op' → op.blob ≠ op'.blob → op.path ≠ op'.path
  files : ∀ call ∈ calls, ∀ call' ∈ calls, ∀ p loser op p' loser' op',
    call.Copies p loser op → call'.Copies p' loser' op' → p ≠ p' → op.path ≠ op'.path

/-- What that takes: the directories of the edited files are plain and what is left of their paths
is safe, no file of other content has the name, and versions of other content or of other files
differ in the directory, in what is left of the file's name or in the mark of device and second. -/
structure CopiesApart (calls : Set ConflictCall) : Prop where
  plain : ∀ call ∈ calls, ∀ p loser op, call.Copies p loser op →
    (∀ seg ∈ (segments p).dropLast, Plain seg) ∧
      safeRunes ((splitDir p).1 ++ copyStem p (copyMark loser.deviceName loser.time)) true = true
  unused : ∀ call ∈ calls, ∀ p loser op, call.Copies p loser op → ∀ q file,
    replay call.env.all q = some file → file.blob ≠ loser.blob →
      (splitDir q).1 = (splitDir p).1 → (splitDir q).2 ≠
        copyStem p (copyMark loser.deviceName loser.time) ++ ascii ".bdrive-conflict-" ++
          copyMark loser.deviceName loser.time
  told : ∀ call ∈ calls, ∀ call' ∈ calls, ∀ p loser op p' loser' op',
    call.Copies p loser op → call'.Copies p' loser' op' → p ≠ p' ∨ loser.blob ≠ loser'.blob →
      (splitDir p).1 = (splitDir p').1 →
      copyMark loser.deviceName loser.time = copyMark loser'.deviceName loser'.time →
      copyStem p (copyMark loser.deviceName loser.time) ≠
        copyStem p' (copyMark loser'.deviceName loser'.time)

/-! ### Copies that are apart -/

/-- Copies that differ in a part of their names are put at paths of their own. -/
theorem CopiesApart.path_ne {calls : Set ConflictCall} (h : CopiesApart calls)
    {call call' : ConflictCall} (hcall : call ∈ calls) (hcall' : call' ∈ calls)
    {p p' : GoString} {loser loser' op op' : Op} (hop : call.Copies p loser op)
    (hop' : call'.Copies p' loser' op') (hne : p ≠ p' ∨ loser.blob ≠ loser'.blob) :
    op.path ≠ op'.path := by
  intro hpath
  rw [hop.path_eq, hop'.path_eq] at hpath
  obtain ⟨hdir, hstem, hmark⟩ := conflictName_inj.mp hpath
  exact h.told call hcall call' hcall' p loser op p' loser' op' hop hop' hne hdir hmark hstem

/-- **Conflict copies stand exactly when they are apart.** -/
theorem copiesStand_iff (calls : Set ConflictCall) : CopiesStand calls ↔ CopiesApart calls := by
  constructor
  · intro h
    refine ⟨fun call hcall p loser op hop => ?_, fun call hcall p loser op hop q file hq hne => ?_,
      fun call hcall call' hcall' p loser op p' loser' op' hop hop' hne hdir hmark hstem => ?_⟩
    · have hsafe := h.safe call hcall p loser op hop
      rw [hop.path_eq] at hsafe
      exact safePath_conflictName_iff.mp hsafe
    · intro hdir hbase
      have hpath : q = op.path := hop.path_eq ▸ eq_conflictName_iff.mpr ⟨hdir, hbase⟩
      have hsame := h.fresh call hcall p loser op hop file (hpath ▸ hq)
      exact hne (hsame.trans hop.blob_eq)
    · have hpath : op.path = op'.path := by
        rw [hop.path_eq, hop'.path_eq]
        exact conflictName_inj.mpr ⟨hdir, hstem, hmark⟩
      rcases hne with hne | hne
      · exact h.files call hcall call' hcall' p loser op p' loser' op' hop hop' hne hpath
      · rw [← hop.blob_eq, ← hop'.blob_eq] at hne
        exact h.contents call hcall call' hcall' p loser op p' loser' op' hop hop' hne hpath
  · intro h
    refine ⟨fun call hcall p loser op hop => ?_, fun call hcall p loser op hop file hfile => ?_,
      fun call hcall call' hcall' p loser op p' loser' op' hop hop' hne => ?_,
      fun call hcall call' hcall' p loser op p' loser' op' hop hop' hne => ?_⟩
    · rw [hop.path_eq]
      exact safePath_conflictName_iff.mpr (h.plain call hcall p loser op hop)
    · by_contra hne
      rw [hop.blob_eq] at hne
      obtain ⟨hdir, hbase⟩ := eq_conflictName_iff.mp hop.path_eq
      exact h.unused call hcall p loser op hop op.path file hfile hne hdir hbase
    · rw [hop.blob_eq, hop'.blob_eq] at hne
      exact h.path_ne hcall hcall' hop hop' (.inr hne)
    · exact h.path_ne hcall hcall' hop hop' (.inl hne)

/-! ### Two long names -/

/-- A file name of 222 letters, the last of them its own. -/
def longName (c : UInt8) : GoString := List.replicate 221 0x61 ++ [c]

/-- The address of a version. -/
def longBlob (c : UInt8) : GoString := List.replicate 63 0x30 ++ [c]

/-- An edit of such a file. -/
def longEdit (device : GoString) (lamport : ℤ) (c : UInt8) (blob : GoString) : Op :=
  { seq := 1, lamport, device, deviceName := ascii "d", kind := .put, path := longName c, blob }

/-- Two files of one directory are edited in one second; another device's edits of both win. -/
def longNames : ConflictCall where
  env :=
    { hash := spelledHash, stamp := { device := ascii "me" }, pushed := 0, pulled := []
      own := [longEdit (ascii "me") 1 0x62 (longBlob 0x62),
        longEdit (ascii "me") 1 0x63 (longBlob 0x63)]
      all := [longEdit (ascii "me") 1 0x62 (longBlob 0x62),
        longEdit (ascii "me") 1 0x63 (longBlob 0x63),
        longEdit (ascii "you") 2 0x62 (longBlob 0x64),
        longEdit (ascii "you") 2 0x63 (longBlob 0x64)] }
  start := { lamport := 2, seq := 2, blobs := fun _ => some [] }

/-- The copy the call makes of an edit. -/
def longCopy (n : ℤ) (c : UInt8) : Op :=
  { seq := n, lamport := n, device := ascii "me", kind := .put, blob := longBlob c
    path := conflictName (longName c) (ascii "d") {}
    note := ascii "conflict copy of " ++ longName c }

/-- **Two long names meet**: both versions that lost are kept at one path. -/
theorem longNames_meet : ¬ CopiesStand {longNames} := by
  intro h
  have hops : (longNames.env.conflictCopies longNames.start).ops
      = [longCopy 3 0x63, longCopy 4 0x62] := by decide +kernel
  have hcopies : ∀ op ∈ [longCopy 3 0x63, longCopy 4 0x62],
      ∃ p loser, longNames.Copies p loser op := by
    intro op hop
    have hnote : ∀ op ∈ [longCopy 3 0x63, longCopy 4 0x62], op.note ≠ mergeNote := by
      decide +kernel
    exact (longNames.copies_of_mem (hops ▸ hop) List.not_mem_nil).resolve_left (hnote op hop)
  obtain ⟨p, loser, hc⟩ := hcopies (longCopy 3 0x63) (by simp)
  obtain ⟨p', loser', hb⟩ := hcopies (longCopy 4 0x62) (by simp)
  exact h.contents longNames rfl longNames rfl p loser _ p' loser' _ hc hb (by decide +kernel)
    (by decide +kernel)

end Beardrive
