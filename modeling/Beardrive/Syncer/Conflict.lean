import Beardrive.Config.Reserved
import Beardrive.Syncer.Merge
import Beardrive.Syncer.Reassert

/-!
# Conflict copies

A device that holds an edit it has not pushed, and finds that the replay of a path is somebody
else's op, preserves the version that lost: it merges the two where it can, and otherwise writes
the lost one beside the file, as an op at a path of its own.

The copy is named after the path, the device whose version lost and the time it was made. All three
come from ops, some of them a peer's, so the name is cut to what a filesystem takes.

## Main definitions

* `conflictName` — the path of a copy
* `Tally` — the clock and the number of a device that mints ops
* `ConflictEnv.outcome`, `conflictCopies` — what becomes of one edit, and of all of them

## Main results

* `neverSync_conflictName` — a copy of a path that is carried is carried
* `conflictStep_cases` — what one edit makes the device mint
-/

namespace Beardrive

/-! ### The name of a copy -/

/-- `clip`: a string, cut to a number of bytes. -/
def clip (s : GoString) (n : ℕ) : GoString := if n < s.length then s.take n else s

/-- `sanitize`: everything but letters, digits, hyphens and underscores is a hyphen. -/
def sanitize (s : GoString) : GoString :=
  (runes s).map fun r =>
    if (0x61 ≤ r ∧ r ≤ 0x7A) ∨ (0x41 ≤ r ∧ r ≤ 0x5A) ∨ (0x30 ≤ r ∧ r ≤ 0x39) ∨ r = 0x2D ∨ r = 0x5F
    then UInt8.ofNat r else 0x2D

/-- What is put behind the name of a file. -/
def conflictSuffix (deviceName : GoString) (t : Time) : GoString :=
  ascii ".bdrive-conflict-" ++ clip (sanitize deviceName) 32 ++ ascii "-" ++ t.utcStamp

/-- `conflictName`: the path of the copy, in the directory of the file. -/
def conflictName (p deviceName : GoString) (t : Time) : GoString :=
  (splitDir p).1 ++
    (clip (splitDir p).2 (255 - (conflictSuffix deviceName t).length) ++ conflictSuffix deviceName t)

theorem clip_eq_take (s : GoString) (n : ℕ) : clip s n = s.take n := by
  unfold clip
  split_ifs with h
  · rfl
  · exact (List.take_of_length_le (not_lt.mp h)).symm

/-- The bytes of a suffix. -/
def suffixByte (b : UInt8) : Bool :=
  (0x61 ≤ b && b ≤ 0x7A) || (0x41 ≤ b && b ≤ 0x5A) || (0x2D ≤ b && b ≤ 0x2E) ||
    (0x30 ≤ b && b ≤ 0x3A) || b == 0x5F || b == 0x2B

theorem suffixByte_of_mem_sanitize {s : GoString} : ∀ b ∈ sanitize s, suffixByte b = true := by
  intro b hb
  obtain ⟨r, -, rfl⟩ := List.mem_map.mp hb
  split_ifs with h
  · have hr : r < 128 := by omega
    have hall : ∀ n : Fin 128, ((0x61 ≤ n.1 ∧ n.1 ≤ 0x7A) ∨ (0x41 ≤ n.1 ∧ n.1 ≤ 0x5A) ∨
        (0x30 ≤ n.1 ∧ n.1 ≤ 0x39) ∨ n.1 = 0x2D ∨ n.1 = 0x5F) →
          suffixByte (UInt8.ofNat n.1) = true := by decide
    exact hall ⟨r, hr⟩ h
  · decide

theorem suffixByte_of_timeByte {b : UInt8} (h : timeByte b = true) : suffixByte b = true := by
  rcases timeByte_cases h with hdigit | rfl | rfl | rfl | rfl | rfl | rfl
  · simp only [digitByte, suffixByte, Bool.and_eq_true, Bool.or_eq_true, decide_eq_true_eq]
      at hdigit ⊢
    grind
  · decide
  · decide
  · decide
  · decide
  · decide
  · decide

theorem suffixByte_of_mem (deviceName : GoString) (t : Time) :
    ∀ b ∈ conflictSuffix deviceName t, suffixByte b = true := by
  intro b hb
  simp only [conflictSuffix, List.mem_append] at hb
  rcases hb with ((hb | hb) | hb) | hb
  · exact List.all_eq_true.mp (by decide) b hb
  · rw [clip_eq_take] at hb
    exact suffixByte_of_mem_sanitize b (List.mem_of_mem_take hb)
  · exact List.all_eq_true.mp (by decide) b hb
  · exact suffixByte_of_timeByte (timeByte_of_mem_utcStamp b hb)

theorem printable_of_suffixByte {b : UInt8} (h : suffixByte b = true) : 0x20 ≤ b ∧ b < 0x7F := by
  simp only [suffixByte, Bool.and_eq_true, Bool.or_eq_true, decide_eq_true_eq, beq_iff_eq] at h
  grind

/-- The name of a copy. -/
def copyName (base deviceName : GoString) (t : Time) : GoString :=
  clip base (255 - (conflictSuffix deviceName t).length) ++ conflictSuffix deviceName t

theorem conflictName_eq (p deviceName : GoString) (t : Time) :
    conflictName p deviceName t = (splitDir p).1 ++ copyName (splitDir p).2 deviceName t := rfl

theorem slash_notMem_copyName {b : GoString} (h : slash ∉ b) (deviceName : GoString) (t : Time) :
    slash ∉ copyName b deviceName t := by
  intro hmem
  rcases List.mem_append.mp hmem with hmem | hmem
  · rw [clip_eq_take] at hmem
    exact h (List.mem_of_mem_take hmem)
  · exact absurd (suffixByte_of_mem deviceName t slash hmem) (by decide)

/-- What a suffix begins with, and the zone it ends in. -/
theorem exists_conflictSuffix (deviceName : GoString) (t : Time) :
    ∃ mid, conflictSuffix deviceName t = ascii ".bdrive-conflict-" ++ mid ++ [0x5A] := by
  obtain ⟨s, hs⟩ : ∃ s, t.utcStamp = s ++ [0x5A] := ⟨_, rfl⟩
  exact ⟨clip (sanitize deviceName) 32 ++ ascii "-" ++ s, by simp [conflictSuffix, hs]⟩

/-! ### A copy is carried -/

/-- The runes of a name that ends in a capital Z. -/
theorem runes_concat_zone (s : GoString) : runes (s ++ [0x5A]) = runes s ++ [0x5A] :=
  runes_append_ascii (by decide) s []

theorem trimRightDots_concat_zone (s : GoString) : trimRightDots (s ++ [0x5A]) = s ++ [0x5A] :=
  List.rdropWhile_concat_neg _ _ _ (by decide)

/-- A name that ends in a capital Z folds onto none that ends in another letter. -/
theorem equalFold_concat_zone {s name : GoString}
    (h : ((runes name).map foldRune).getLast? ≠ some 0x7A) :
    equalFold (trimRightDots (s ++ [0x5A])) name = false := by
  rw [trimRightDots_concat_zone, ← Bool.not_eq_true]
  intro heq
  rw [equalFold, beq_iff_eq, runes_concat_zone] at heq
  rw [← heq, List.map_append, List.map_singleton, List.getLast?_concat] at h
  exact h (by decide)

theorem reservedDir_concat_zone (s : GoString) : reservedDir (s ++ [0x5A]) = false := by
  rw [reservedDir, List.any_eq_false]
  intro name hname
  rw [equalFold_concat_zone]
  · simp
  · revert name
    decide

/-- No agent's file ends in a capital Z. -/
theorem agentHookConfig_concat_zone (p : GoString) {s : GoString} (h : slash ∉ s ++ [0x5A]) :
    agentHookConfig ((splitDir p).1 ++ (s ++ [0x5A])) = false := by
  have hno {names : List GoString}
      (hnames : ∀ name ∈ names, ((runes name).map foldRune).getLast? ≠ some 0x7A) :
      names.any (equalFold (trimRightDots (s ++ [0x5A]))) = false := by
    rw [List.any_eq_false]
    intro name hname
    rw [equalFold_concat_zone (hnames name hname)]
    simp
  rw [agentHookConfig, splitDir_of_name p h, hno (by decide), Bool.false_or, List.any_eq_false]
  intro entry hentry
  rw [hno, Bool.and_false]
  · simp
  · revert entry
    decide

/-- What a name cut short is lowered onto, the whole name is, up to undecodable bytes. -/
theorem prefix_lower_of_take {pre : List Rune} (hpre : runeError ∉ pre) {n : ℕ} {s : GoString}
    (h : pre <+: lower (s.take n)) : pre <+: lower s := by
  obtain ⟨k, errs, heq, herrs⟩ := runes_take n s
  rw [lower, heq, List.map_append] at h
  have herr : ∀ r ∈ errs.map lowerRune, r = runeError := by
    intro r hr
    obtain ⟨e, he, rfl⟩ := List.mem_map.mp hr
    rw [herrs e he]
    decide
  have hcut : pre <+: ((runes s).take k).map lowerRune := by
    rcases List.prefix_or_prefix_of_prefix h (List.prefix_append _ _) with h' | ⟨l, rfl⟩
    · exact h'
    · rcases l with _ | ⟨r, l⟩
      · rw [List.append_nil]
      · have hr : r ∈ errs.map lowerRune := by
          have := (List.prefix_append_right_inj _).mp h
          exact this.subset List.mem_cons_self
        exact absurd (herr r hr ▸ List.mem_append_right _ List.mem_cons_self) hpre
  exact hcut.trans ((List.take_prefix k (runes s)).map lowerRune)

/-- A copy is named like a temporary file only if the file is. -/
theorem reservedName_copyName {b : GoString} (h : reservedName b = false) (deviceName : GoString)
    (t : Time) : reservedName (copyName b deviceName t) = false := by
  obtain ⟨mid, hsuffix⟩ := exists_conflictSuffix deviceName t
  rw [reservedName, Bool.or_eq_false_iff, beq_eq_false_iff_ne, ← Bool.not_eq_true,
    List.isPrefixOf_iff_prefix] at h ⊢
  rw [copyName, hsuffix, clip_eq_take]
  set n := 255 - (ascii ".bdrive-conflict-" ++ mid ++ [0x5A]).length
  constructor
  · intro heq
    rw [← List.append_assoc, lower, runes_concat_zone, List.map_append, List.map_singleton] at heq
    have := congrArg List.getLast? heq
    rw [List.getLast?_concat] at this
    exact absurd this (by decide)
  · intro hpre
    have hsplit : lower (b.take n ++ (ascii ".bdrive-conflict-" ++ mid ++ [0x5A]))
        = lower (b.take n) ++ lower (ascii ".bdrive-conflict-" ++ mid ++ [0x5A]) := by
      simp only [lower, ← List.map_append]
      congr 1
      exact runes_append_ascii (by decide) _ _
    rw [hsplit] at hpre
    have hdot : ∃ l, lower (ascii ".bdrive-conflict-" ++ mid ++ [0x5A])
        = 0x2E :: lower (ascii "bdrive-conflict") ++ l := by
      refine ⟨lower (0x2D :: (mid ++ [0x5A])), ?_⟩
      have hbytes : ascii ".bdrive-conflict-" ++ mid ++ [0x5A]
          = ascii ".bdrive-conflict" ++ 0x2D :: (mid ++ [0x5A]) := by
        simp [ascii]
      rw [hbytes, lower, runes_append_ascii (by decide), List.map_append]
      rfl
    obtain ⟨l, hl⟩ := hdot
    rw [hl] at hpre
    rcases List.prefix_or_prefix_of_prefix hpre (List.prefix_append _ _) with hname | ⟨rest, hrest⟩
    · exact h.2 (prefix_lower_of_take (by decide) hname)
    rw [← hrest, List.prefix_append_right_inj] at hpre
    rcases hname : lower (b.take n) with _ | ⟨r, name⟩
    · rw [hname, List.nil_append] at hrest
      rw [hrest] at hpre
      have := List.prefix_of_prefix_length_le hpre (List.prefix_append _ _) (by decide)
      exact absurd this (by decide)
    · rcases rest with _ | ⟨c, rest⟩
      · rw [List.append_nil] at hrest
        refine h.2 (prefix_lower_of_take (n := n) (by decide) ?_)
        rw [hrest]
      · -- a dot behind the first rune
        obtain ⟨rfl, -⟩ := List.cons_prefix_cons.mp hpre
        have hmem : 0x2E ∈ (runes (ascii ".bdrive-tmp-")).tail := by
          rw [← hrest, hname]
          simp
        exact absurd hmem (by decide)

/-- **A copy of a path that is carried is carried**, whatever the name of the device and the
time. -/
theorem neverSync_conflictName {p : GoString} (h : neverSync p = false) (deviceName : GoString)
    (t : Time) : neverSync (conflictName p deviceName t) = false := by
  obtain ⟨hp, hslash⟩ := splitDir_append p
  obtain ⟨init, hinit⟩ := exists_segments_splitDir p
  obtain ⟨mid, hsuffix⟩ := exists_conflictSuffix deviceName t
  obtain ⟨name, hname⟩ : ∃ s, copyName (splitDir p).2 deviceName t = s ++ [0x5A] :=
    ⟨_, by rw [copyName, hsuffix, ← List.append_assoc]⟩
  have hcopy := slash_notMem_copyName hslash deviceName t
  have hsegs := hinit _ hslash
  rw [hp] at hsegs
  rw [neverSync, Bool.or_eq_false_iff, Bool.not_eq_false', reservedPath, hsegs, List.any_append,
    Bool.or_eq_false_iff, Bool.or_eq_false_iff, Bool.or_eq_false_iff] at h
  obtain ⟨hsafe, ⟨⟨hdirs, -⟩, hbase⟩, -⟩ := h
  obtain ⟨hplain, hrunes⟩ := safePath_iff.mp hsafe
  rw [hsegs, List.forall_mem_append, List.forall_mem_singleton] at hplain
  rw [← hp, base_of_name p hslash hplain.2.1] at hbase
  rw [neverSync, Bool.or_eq_false_iff, Bool.not_eq_false', conflictName_eq]
  constructor
  · rw [safePath_iff, hinit _ hcopy, List.forall_mem_append, List.forall_mem_singleton]
    refine ⟨⟨hplain.1, ?_⟩, ?_⟩
    · rw [hname]
      refine ⟨by simp, fun heq => ?_, fun heq => ?_⟩ <;>
        exact absurd (congrArg List.getLast? heq) (by rw [List.getLast?_concat]; decide)
    · have hcut : (splitDir p).1 ++ copyName (splitDir p).2 deviceName t
          = p.take ((splitDir p).1.length + (255 - (conflictSuffix deviceName t).length)) ++
            conflictSuffix deviceName t := by
        have htake (k : ℕ) : ((splitDir p).1 ++ (splitDir p).2).take ((splitDir p).1.length + k)
            = (splitDir p).1 ++ (splitDir p).2.take k := List.take_length_add_append k
        rw [hp] at htake
        rw [htake, copyName, clip_eq_take, List.append_assoc]
      have htail := safeRunes_of_printable (fun b hb =>
        printable_of_suffixByte (suffixByte_of_mem deviceName t b hb)) true
      have hdot : conflictSuffix deviceName t
          = 0x2E :: (ascii "bdrive-conflict-" ++ mid ++ [0x5A]) := hsuffix
      rw [hdot] at htail
      rw [hcut, hdot]
      exact (safeRunes_append_ascii (by decide)).mpr ⟨safeRunes_take hrunes _, htail⟩
  · rw [reservedPath, hinit _ hcopy, List.any_append, hdirs, List.any_cons, List.any_nil, hname,
      reservedDir_concat_zone, agentHookConfig_concat_zone p (hname ▸ hcopy),
      base_of_name p (hname ▸ hcopy) (by simp), ← hname, reservedName_copyName hbase]
    rfl

/-! ### Minting outside a scan -/

/-- The clock of a device, the number of its last op, and what it has minted. -/
structure Tally where
  lamport : ℤ
  seq : ℤ
  ops : List Op := []

/-- The next op of a device: its place in the journal and whose it is. -/
def Tally.nextOp (s : Tally) (stamp : Stamp) (now : Time) (op : Op) : Op :=
  { op with
    seq := s.seq + 1, lamport := tickLamport s.lamport, time := now
    device := stamp.device, deviceName := stamp.deviceName, author := stamp.author
    user := stamp.user, userName := stamp.userName }

/-- Mint an op: the clock and the number move on. -/
def Tally.mint (s : Tally) (stamp : Stamp) (now : Time) (op : Op) : Tally where
  lamport := tickLamport s.lamport
  seq := s.seq + 1
  ops := s.ops ++ [s.nextOp stamp now op]

@[simp] theorem Tally.ops_mint (s : Tally) (stamp : Stamp) (now : Time) (op : Op) :
    (s.mint stamp now op).ops = s.ops ++ [s.nextOp stamp now op] := rfl

/-! ### Edits that lost -/

/-- `mergeNote`. -/
def mergeNote : GoString := ascii "merged concurrent edits"

/-- `adoptNote`. -/
def adoptNote : GoString :=
  ascii "kept as history: the project's version of this path was adopted on join"

/-- The last edit of each path that has not been pushed. A restated or an adopted op is no edit. -/
def unpushedEdits (own : List Op) (pushed : ℕ) : AList fun _ : GoString => Op :=
  (own.drop pushed).foldl (fun edits op =>
    if op.note = reassertNote ∨ op.note = adoptNote then edits.erase op.path
    else edits.insert op.path op) ∅

/-- What the conflict step of a cycle goes by: the device's own ops and how many of them are
pushed, the ops this cycle pulled, and all there are. The edits are visited in the order of a Go
map, which is any. -/
structure ConflictEnv where
  hash : Hash
  stamp : Stamp
  now : GoString → Time := fun _ => {}
  own : List Op
  pushed : ℕ
  pulled : List Op
  all : List Op
  keyOrder : List GoString → List GoString := id
  keyOrder_perm : ∀ keys, (keyOrder keys).Perm keys := by
    first | exact keyOrder_id | (intro keys; exact .refl _)

/-- What the step accumulates; a merge stores its text. -/
structure ConflictState extends Tally where
  blobs : Blobs

/-- `pulledLatest`: the last of the pulled ops of a path. -/
def ConflictEnv.theirs (env : ConflictEnv) (p : GoString) : Option Op :=
  greatest less (fun op => op.path == p) env.pulled

/-- Whether replay resolves a path to this edit. -/
def ConflictEnv.mineWon (env : ConflictEnv) (p : GoString) (mine : Op) : Bool :=
  (mine.kind == .put && (replay env.all p).any (·.blob == mine.blob)) ||
    (mine.kind == .delete && (replay env.all p).isNone)

/-- The version of a path that lost, if it is a file of other content. -/
def ConflictEnv.lost (env : ConflictEnv) (p : GoString) (mine : Op) : Option Op :=
  (if env.mineWon p mine then env.theirs p else some mine).filter fun loser =>
    loser.kind == .put && loser.blob != [] && !(replay env.all p).any (·.blob == loser.blob)

/-- What becomes of an edit. -/
inductive ConflictOutcome where
  | settled
  | merged (mine : Op) (blob : MergedBlob)
  | copied (loser : Op)

/-- Nothing is to be done for a version that did not lose, that cannot be read or that has been
copied already; the two versions are merged where they can be. -/
def ConflictEnv.outcome (env : ConflictEnv) (blobs : Blobs) (p : GoString) : ConflictOutcome :=
  match (unpushedEdits env.own env.pushed).lookup p with
  | none => .settled
  | some mine =>
    match env.lost p mine with
    | none => .settled
    | some loser =>
      if !blobs.has loser.blob then .settled
      else if (replay env.all (conflictName p loser.deviceName loser.time)).any
          (·.blob == loser.blob) then .settled
      else
        match (env.theirs p).bind fun theirs => tryMerge env.hash blobs p mine theirs env.all with
        | some merged => .merged mine merged
        | none => .copied loser

/-- The op that merges two versions. -/
def mergeOp (p : GoString) (mine : Op) (merged : MergedBlob) : Op :=
  { kind := .put, path := p, blob := merged.blob, size := merged.size, mode := mine.mode,
    note := mergeNote }

/-- The op that keeps the version that lost. -/
def copyOp (p : GoString) (loser : Op) : Op :=
  { kind := .put, path := conflictName p loser.deviceName loser.time, blob := loser.blob,
    size := loser.size, mode := loser.mode, note := ascii "conflict copy of " ++ p }

/-- The step at one path. -/
def ConflictEnv.step (env : ConflictEnv) (s : ConflictState) (p : GoString) : ConflictState :=
  match env.outcome s.blobs p with
  | .settled => s
  | .merged mine merged =>
    { s.mint env.stamp (env.now p) (mergeOp p mine merged) with blobs := merged.blobs }
  | .copied loser => { s.mint env.stamp (env.now p) (copyOp p loser) with blobs := s.blobs }

/-- `conflictCopiesWithState`. -/
def ConflictEnv.conflictCopies (env : ConflictEnv) (s : ConflictState) : ConflictState :=
  (env.keyOrder (unpushedEdits env.own env.pushed).keys).foldl env.step s

/-! ### What one edit makes of itself -/

/-- An edit that has not been pushed is an op of the device that is neither restated nor adopted. -/
theorem mem_of_unpushedEdits {own : List Op} {pushed : ℕ} {p : GoString} {mine : Op}
    (h : (unpushedEdits own pushed).lookup p = some mine) :
    mine ∈ own.drop pushed ∧ mine.path = p ∧ mine.note ≠ reassertNote ∧ mine.note ≠ adoptNote := by
  unfold unpushedEdits at h
  generalize own.drop pushed = ops at h ⊢
  induction ops using List.reverseRecOn with
  | nil => cases h
  | append_singleton ops op ih =>
    rw [List.foldl_append, List.foldl_cons, List.foldl_nil] at h
    split_ifs at h with hnote
    · by_cases hp : p = op.path
      · rw [hp, AList.lookup_erase] at h
        cases h
      · rw [AList.lookup_erase_ne hp] at h
        obtain ⟨hmem, hspec⟩ := ih h
        exact ⟨List.mem_append_left _ hmem, hspec⟩
    · by_cases hp : p = op.path
      · rw [hp, AList.lookup_insert] at h
        obtain rfl := Option.some.inj h
        rw [not_or] at hnote
        exact ⟨by simp, hp.symm, hnote⟩
      · rw [AList.lookup_insert_ne hp] at h
        obtain ⟨hmem, hspec⟩ := ih h
        exact ⟨List.mem_append_left _ hmem, hspec⟩

/-- An edit whose version is merged, or copied for losing, is one that has not been pushed. -/
theorem ConflictEnv.edit_of_outcome {env : ConflictEnv} {blobs : Blobs} {p : GoString}
    (h : env.outcome blobs p ≠ .settled) :
    ∃ mine, (unpushedEdits env.own env.pushed).lookup p = some mine := by
  unfold ConflictEnv.outcome at h
  cases hmine : (unpushedEdits env.own env.pushed).lookup p with
  | none =>
    rw [hmine] at h
    exact absurd rfl h
  | some mine => exact ⟨mine, rfl⟩

/-- An op the conflict step mints for a path, at the state it has come to. -/
inductive ConflictMint (env : ConflictEnv) (s : ConflictState) (p : GoString) : Op → Prop
  | merged (mine : Op) (blob : MergedBlob) (outcome : env.outcome s.blobs p = .merged mine blob) :
      ConflictMint env s p (s.nextOp env.stamp (env.now p) (mergeOp p mine blob))
  | copied (loser : Op) (outcome : env.outcome s.blobs p = .copied loser) :
      ConflictMint env s p (s.nextOp env.stamp (env.now p) (copyOp p loser))

/-- **One edit makes the device mint at most one op**, a merge or a copy. -/
theorem conflictStep_cases (env : ConflictEnv) (s : ConflictState) (p : GoString) :
    env.step s p = s ∨
      ∃ op, ConflictMint env s p op ∧ (env.step s p).ops = s.ops ++ [op] := by
  unfold ConflictEnv.step
  cases h : env.outcome s.blobs p with
  | settled => exact .inl rfl
  | merged mine blob => exact .inr ⟨_, .merged mine blob h, rfl⟩
  | copied loser => exact .inr ⟨_, .copied loser h, rfl⟩

/-- The states the conflict step comes through, each with the path it is at. -/
def ConflictEnv.At (env : ConflictEnv) (start : ConflictState) (p : GoString)
    (s : ConflictState) : Prop :=
  ∃ pre post, env.keyOrder (unpushedEdits env.own env.pushed).keys = pre ++ p :: post ∧
    s = pre.foldl env.step start

/-- **Every op of the conflict step** is one it had, or a merge or a copy it minted at a path. -/
theorem mem_conflictCopies {env : ConflictEnv} {start : ConflictState} {op : Op}
    (h : op ∈ (env.conflictCopies start).ops) :
    op ∈ start.ops ∨ ∃ p s, env.At start p s ∧ ConflictMint env s p op := by
  have hfold (keys : List GoString) (h : op ∈ (keys.foldl env.step start).ops) :
      op ∈ start.ops ∨ ∃ pre p post, keys = pre ++ p :: post ∧
        ConflictMint env (pre.foldl env.step start) p op := by
    induction keys using List.reverseRecOn with
    | nil => exact .inl h
    | append_singleton keys p ih =>
      rw [List.foldl_append, List.foldl_cons, List.foldl_nil] at h
      have hold (h : op ∈ (keys.foldl env.step start).ops) :
          op ∈ start.ops ∨ ∃ pre q post, keys ++ [p] = pre ++ q :: post ∧
            ConflictMint env (pre.foldl env.step start) q op :=
        (ih h).imp_right fun ⟨pre, q, post, hkeys, hop⟩ =>
          ⟨pre, q, post ++ [p], by rw [hkeys]; simp, hop⟩
      rcases conflictStep_cases env (keys.foldl env.step start) p with heq | ⟨o, hmint, hops⟩
      · rw [heq] at h
        exact hold h
      · rw [hops, List.mem_append, List.mem_singleton] at h
        rcases h with h | rfl
        · exact hold h
        · exact .inr ⟨keys, p, [], rfl, hmint⟩
  exact (hfold _ h).imp_right fun ⟨pre, p, post, hkeys, hop⟩ => ⟨p, _, ⟨pre, post, hkeys, rfl⟩, hop⟩

theorem mem_step_of_mint {env : ConflictEnv} {s : ConflictState} {p : GoString} {op : Op}
    (h : ConflictMint env s p op) : op ∈ (env.step s p).ops := by
  unfold ConflictEnv.step
  cases h with
  | merged mine blob h =>
    rw [h]
    exact List.mem_append_right _ (List.mem_singleton_self _)
  | copied loser h =>
    rw [h]
    exact List.mem_append_right _ (List.mem_singleton_self _)

/-- What is minted at a path is an op of the conflict step. -/
theorem mem_conflictCopies_of_mint {env : ConflictEnv} {start s : ConflictState} {p : GoString}
    {op : Op} (hat : env.At start p s) (hmint : ConflictMint env s p op) :
    op ∈ (env.conflictCopies start).ops := by
  obtain ⟨pre, post, hkeys, rfl⟩ := hat
  rw [ConflictEnv.conflictCopies, hkeys, List.foldl_append, List.foldl_cons]
  refine List.foldlRecOn (motive := fun t : ConflictState => op ∈ t.ops) post env.step ?_
    fun t ht q _ => ?_
  · exact mem_step_of_mint hmint
  · rcases conflictStep_cases env t q with heq | ⟨o, -, hops⟩
    · rw [heq]
      exact ht
    · rw [hops]
      exact List.mem_append_left _ ht

end Beardrive
