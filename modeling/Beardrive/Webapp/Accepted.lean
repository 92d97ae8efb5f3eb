import Beardrive.Syncer.Cycle
import Beardrive.Webapp.StorePut

/-!
# What a device journals and what the hub carries

The hub refuses a journal for one op it will not carry, and a journal only grows, so a device has to
mint no such op in the first place. The scan keeps to it: it goes by the same rule for paths, and a
copy is named so that it stays carried where its file is.

Three steps go by less. The note of a copy quotes the path, and a path may hold the zero width
joiners that a note may not. A restated op keeps the name and the session of the account whose op it
was. And a prune deletes the very paths that are not carried, if the project holds any.

## Main definitions

* `Cycle.Worded`, `Cycle.Spells` — the texts a device is given, and what its cycle may meet

## Main results

* `appended_accepted_iff` — when the hub carries all ops of a cycle
* `journal_accepted` — and of a journal
-/

namespace Beardrive

/-- What a device is given to write about itself is safe text. -/
structure Cycle.Worded (c : Cycle) : Prop where
  author : safeText c.scan.stamp.author = true
  userName : safeText c.scan.stamp.userName = true
  session : safeText c.scan.stamp.session = true
  note : safeText c.scan.stamp.note = true

/-- What a cycle may meet: what it copies is at a path that is safe text, what it restates comes from
an account and a session of safe names, and what it prunes is carried. -/
structure Cycle.Spells (c : Cycle) (s : Session) : Prop where
  copied : 1 < c.appends → ∀ p t loser, (c.conflictEnv s).At (c.conflictStart s) p t →
    (c.conflictEnv s).outcome t.blobs p = .copied loser → safeText p = true
  restated : 2 < c.appends → ∀ o ∈ c.gone, (c.reassertEnv s).standsBehind o = true →
    safeText o.userName = true ∧ safeText o.session = true
  pruned : 3 < c.appends → c.prune = true → c.shared.negated = false →
    ∀ rel, (replay (c.restated s ++ c.peers) rel).isSome → neverSync rel = false

/-! ### One op -/

theorem opGate_iff {op : Op} : opGate op = true ↔ neverSync op.path = false ∧
    safeText op.note = true ∧ safeText op.author = true ∧ safeText op.userName = true ∧
      safeText op.session = true := by
  simp only [opGate, neverSync, Bool.and_eq_true, Bool.or_eq_false_iff, Bool.not_eq_true',
    Bool.not_eq_false']
  tauto

/-- The note of a copy is safe when the path it quotes is safe text. -/
theorem safeText_copyNote (p : GoString) :
    safeText (ascii "conflict copy of " ++ p) = safeText p := by
  have hsplit : ascii "conflict copy of " ++ p = ascii "conflict copy of" ++ 0x20 :: p := by
    simp [ascii]
  rw [Bool.eq_iff_iff, hsplit, safeText, safeText, safeRunes_append_ascii (by decide)]
  have hspace : safeRunes (0x20 :: p) false = true ↔ safeRunes p false = true := by
    rw [safeRunes_iff, safeRunes_iff, runes_cons_ascii (by decide)]
    simp only [List.forall_mem_cons]
    exact ⟨fun h => ⟨h.1.2, h.2.2⟩, fun h => ⟨⟨by decide, h.1⟩, by decide, h.2⟩⟩
  rw [hspace]
  exact and_iff_right (by decide)

/-- The notes a device writes by itself, and the session of an op that has none. -/
theorem safeText_note : safeText [] = true ∧ safeText adoptNote = true ∧
    safeText mergeNote = true ∧ safeText reassertNote = true ∧ safeText (pruneOp []).note = true := by
  decide

/-- A scan mints only what is carried. -/
theorem ScanMint.carried {env : ScanEnv} {clock : ℤ} {op : Op} (h : ScanMint env clock op) :
    neverSync op.path = false := by
  cases hkind : op.kind with
  | put =>
    have hskip := h.source.path_of_put hkind
    rw [skippedFile, Bool.or_eq_false_iff] at hskip
    exact hskip.1
  | delete =>
    rcases h.source with ⟨_, _, _, _, _, hput⟩ | ⟨_, hcarried, _⟩
    · exact absurd (hput.1.symm.trans hkind) (by decide)
    · exact hcarried

/-- What a scan mints is accepted, adopted or not. -/
theorem ScanMint.accepted {c : Cycle} (hworded : c.Worded) {s : Session} {clock : ℤ} {o op : Op}
    (h : ScanMint (c.scanEnv s) clock o) (hadopts : Adopts o op) : opGate op = true := by
  have hauthor : safeText o.author = true := h.author ▸ hworded.author
  have huser : safeText o.userName = true := h.userName ▸ hworded.userName
  have hsession : safeText o.session = true := h.session ▸ hworded.session
  have hnote : safeText o.note = true := h.note ▸ hworded.note
  cases hadopts with
  | kept seq => exact opGate_iff.mpr ⟨h.carried, hnote, hauthor, huser, hsession⟩
  | demoted seq => exact opGate_iff.mpr ⟨h.carried, safeText_note.2.1, hauthor, huser, hsession⟩

/-! ### One cycle -/

/-- The journal behind the scan is accepted. -/
theorem committed_accepted {c : Cycle} {s : Session} (hworded : c.Worded)
    (hs : ∀ op ∈ s.own, opGate op = true) : ∀ op ∈ c.committed s, opGate op = true := by
  intro op hop
  rcases List.mem_append.mp hop with hop | hop
  · exact hs op hop
  · obtain ⟨o, hmint, hadopts⟩ := scanned_of_mem_localOps hop
    exact hmint.accepted hworded hadopts

/-- **The hub carries all ops of a cycle of an accepted journal exactly when the cycle spells.** -/
theorem appended_accepted_iff {c : Cycle} {s : Session} (hworded : c.Worded)
    (hs : ∀ op ∈ s.own, opGate op = true) :
    (∀ op ∈ c.appended s, opGate op = true) ↔ c.Spells s := by
  constructor
  · intro h
    refine ⟨fun hmade p t loser hat hcopied => ?_, fun hmade o ho hheld => ?_,
      fun hmade hprune hplain rel hrel => ?_⟩
    · have hmem := mem_conflictCopies_of_mint hat (.copied loser hcopied)
      have hgate := opGate_iff.mp (h _ (mem_appended_iff.mpr (.inr (.inl ⟨hmade, hmem⟩))))
      rw [← safeText_copyNote]
      exact hgate.2.1
    · obtain ⟨seq, hmem⟩ := exists_mem_reassert (c.preserved s).length ho hheld
      have hgate := opGate_iff.mp
        (h _ (mem_appended_iff.mpr (.inr (.inr (.inl ⟨hmade, hmem⟩)))))
      exact hgate.2.2.2
    · by_contra hnever
      rw [Bool.not_eq_false] at hnever
      obtain ⟨t, hmem⟩ := exists_mem_pruned hprune hplain (mem_prunedPaths.mpr ⟨hrel, .inr hnever⟩)
      have hgate := opGate_iff.mp
        (h _ (mem_appended_iff.mpr (.inr (.inr (.inr ⟨hmade, hmem⟩)))))
      exact absurd (hnever.symm.trans hgate.1) (by decide)
  · intro h op hop
    cases cycleMint_of_mem hop with
    | scanned o made scanned adopts => exact scanned.accepted hworded adopts
    | conflict p t made reached minted =>
      have hcarried {blobs : Blobs} (hsettled : (c.conflictEnv s).outcome blobs p ≠ .settled) :
          neverSync p = false := by
        obtain ⟨mine, hmine⟩ := ConflictEnv.edit_of_outcome hsettled
        obtain ⟨hmem, rfl, -⟩ := mem_of_unpushedEdits hmine
        exact (opGate_iff.mp (committed_accepted hworded hs mine (List.mem_of_mem_drop hmem))).1
      cases minted with
      | merged mine blob outcome =>
        exact opGate_iff.mpr ⟨hcarried (by rw [outcome]; simp), safeText_note.2.2.1,
          hworded.author, hworded.userName, safeText_note.1⟩
      | copied loser outcome =>
        refine opGate_iff.mpr ⟨?_, ?_, hworded.author, hworded.userName, safeText_note.1⟩
        · exact neverSync_conflictName (hcarried (by rw [outcome]; simp)) _ _
        · exact (safeText_copyNote p).trans (h.copied made p t loser reached outcome)
    | restated o seq made gone held eq =>
      obtain ⟨huser, hsession⟩ := h.restated made o gone held
      simp only [ReassertEnv.standsBehind, Bool.and_eq_true, Bool.not_eq_true',
        Bool.or_eq_false_iff] at held
      rw [eq]
      exact opGate_iff.mpr ⟨held.2.1.2, safeText_note.2.2.2.1, hworded.author, huser, hsession⟩
    | pruned rel t made prune plain excluded eq =>
      rw [eq]
      exact opGate_iff.mpr
        ⟨h.pruned made prune plain rel (mem_prunedPaths.mp excluded).1, safeText_note.2.2.2.2,
          hworded.author, hworded.userName, safeText_note.1⟩

/-! ### Every cycle -/

/-- The hub carries the journal of a device. -/
def Session.Accepted (s : Session) : Prop := ∀ op ∈ s.own, opGate op = true

/-- A cycle that spells. -/
def Session.SpeltNext (s s' : Session) : Prop :=
  ∃ c : Cycle, c.Worded ∧ c.Spells s ∧ s.step c = some s'

/-- **Every op a device has journaled is one the hub carries**, over cycles that spell, and every op
of the next cycle is exactly when that cycle spells. -/
theorem journal_accepted {s : Session} (h : Relation.ReflTransGen Session.SpeltNext {} s) :
    (∀ op ∈ s.own, opGate op = true) ∧
      ∀ c : Cycle, c.Worded → ((∀ op ∈ c.appended s, opGate op = true) ↔ c.Spells s) := by
  have hstep (s s' : Session) (hs : s.Accepted) (hnext : s.SpeltNext s') : s'.Accepted := by
    obtain ⟨c, hworded, hspells, hstep⟩ := hnext
    obtain ⟨-, -, hown, -⟩ := Session.step_eq_some hstep
    intro op hop
    rw [hown, List.mem_append] at hop
    exact hop.elim (hs op) ((appended_accepted_iff hworded hs).mpr hspells op)
  have hown : s.Accepted := Runs.invariant h hstep (by simp [Session.Accepted])
  exact ⟨hown, fun c hworded => appended_accepted_iff hworded hown⟩

/-- A device joins a project of one file it does not have. -/
def joinCycle : Cycle where
  scan := { hash := spelledHash, folder := {}, filter := {}, stamp := { device := ascii "d" } }
  peers := [peerOp 1 "x"]
  pulled := [peerOp 1 "x"]

/-- A file is edited here and at a peer, whose clock is ahead. -/
def forkCycle (p : GoString)
    (h : wellFormedEntries [(p, .file {} (ascii "y") true)] = true := by decide) : Cycle where
  scan :=
    { hash := spelledHash, filter := {}, stamp := { device := ascii "d" }
      folder := { entries := [(p, .file {} (ascii "y") true)], wellFormed := h } }
  peers := [peerOp 1 "x", { peerOp 5 "" with path := p }]
  pulled := [{ peerOp 5 "" with path := p }]

/-- A name with a zero width joiner, as Persian and the Indic scripts spell them. -/
def joinedName : GoString := ascii "a" ++ [0xE2, 0x80, 0x8C] ++ ascii "b"

private theorem joinCycle_worded : joinCycle.Worded := ⟨by decide, by decide, by decide, by decide⟩

/-- The session behind the first of the two cycles. -/
def joined : Session := (({} : Session).step joinCycle).get (by decide)

private theorem step_joinCycle : ({} : Session).step joinCycle = some joined :=
  Runs.possible (by decide)

/-- A plain name is copied. -/
theorem journal_accepted_copied : ∃ s : Session, s.own.length = 2 ∧
    (∀ op ∈ s.own, opGate op = true) ∧
      ∀ c : Cycle, c.Worded → ((∀ op ∈ c.appended s, opGate op = true) ↔ c.Spells s) := by
  have hfork : joined.step (forkCycle (ascii "f")) = some _ := Runs.possible (by decide +kernel)
  refine ⟨_, ?_, journal_accepted <|
    .head ⟨joinCycle, joinCycle_worded, ?_, step_joinCycle⟩ <|
      .single ⟨forkCycle (ascii "f"), ⟨by decide, by decide, by decide, by decide⟩, ?_, hfork⟩⟩
  · decide +kernel
  · exact (appended_accepted_iff joinCycle_worded (by decide)).mp (by decide +kernel)
  · exact (appended_accepted_iff ⟨by decide, by decide, by decide, by decide⟩
      (by decide +kernel)).mp (by decide +kernel)

/-- The copy of a name with a joiner in it quotes the name. -/
theorem copy_refused : ¬ ∀ s : Session,
    Relation.ReflTransGen (fun s s' => ∃ c : Cycle, c.Worded ∧ s.step c = some s') {} s →
      ∀ op ∈ s.own, opGate op = true := by
  intro h
  have hfork : joined.step (forkCycle joinedName) = some _ := Runs.possible (by decide +kernel)
  have hall := h _ <| .head ⟨joinCycle, joinCycle_worded, step_joinCycle⟩ <|
    .single ⟨forkCycle joinedName, ⟨by decide, by decide, by decide, by decide⟩, hfork⟩
  exact absurd hall (by decide +kernel)

end Beardrive
