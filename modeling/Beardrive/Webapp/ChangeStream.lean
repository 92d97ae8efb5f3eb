import Beardrive.Lib.Runs
import Beardrive.Webapp.ChangeFrames

/-!
# What a stream loses

Everyone who listens on a project has a queue of frames, and one goroutine that writes them out.
Publishing never waits: a frame that finds the queue full is dropped, and a flag says so. The writer
takes the flag down before each frame and at each keepalive, and writes a resync if it was up.

The queue and the flag are two cells. Between the send that fails and the flag that it puts up,
another publisher may queue a frame, and the writer may come to that frame and to a keepalive, all
without seeing a flag.

## Main definitions

* `Stream` — one subscriber, its writer, and what has been written
* `Stream.step` — every interleaving of the publishers with the writer
* `Stream.Told` — whatever was written came behind a resync for what was dropped before it
* `Stream.Careful` — nothing is queued and no keepalive begins while a flag is yet to go up

## Main results

* `Stream.Sound.step` — what a careful step keeps
* `hides_and_loses_nothing` — what a reader is told, of each frame and of those it did not get
-/

namespace Beardrive

/-- `subBuffer`. -/
def subBuffer : ℕ := 32

/-- A frame in the queue, and how many were dropped before it came there. -/
structure QueuedFrame where
  frame : Json
  after : ℕ

/-- A frame that was written, how many were dropped before it was queued, and for how many a resync
had been written before it. -/
structure WrittenFrame where
  out : Json
  after : ℕ
  told : ℕ

/-- Where the writer is. A keepalive knows how many frames had been dropped when it began. -/
inductive StreamWriter where
  | waiting
  | taken (q : QueuedFrame)
  | resync (q : QueuedFrame)
  | filtering (q : QueuedFrame)
  | ticked (drops : ℕ)
  | resyncTick (drops : ℕ)
  | keepalive (drops : ℕ)
  | gone

/-- One subscriber. `dropping` are the publishers whose send has failed and who have yet to put the
flag up. -/
structure Stream (κ : Type) where
  ch : List QueuedFrame := []
  lost : Bool := false
  dropping : List κ := []
  writer : StreamWriter := .waiting
  drops : ℕ := 0
  told : ℕ := 0
  written : List WrittenFrame := []
  ticks : List (ℕ × ℕ) := []

/-- What can happen next. A write succeeds or ends the stream, and so does a look at what the reader
may still see. -/
inductive StreamEvent (κ : Type) where
  | send (k : κ) (frame : Json)
  | flag (k : κ)
  | take
  | swap
  | writeResync (ok : Bool)
  | write (vis : Option PathFilter) (ok : Bool)
  | tick (ok : Bool)
  | writeKeepalive (ok : Bool)
  | close

namespace Stream

variable {κ : Type} [DecidableEq κ]

/-- One step. -/
def step (s : Stream κ) : StreamEvent κ → Option (Stream κ)
  | .send k frame =>
    if k ∈ s.dropping then none
    else if s.ch.length < subBuffer then some { s with ch := s.ch ++ [⟨frame, s.drops⟩] }
    else some { s with drops := s.drops + 1, dropping := k :: s.dropping }
  | .flag k =>
    if k ∈ s.dropping then some { s with lost := true, dropping := s.dropping.erase k } else none
  | .take =>
    match s.writer, s.ch with
    | .waiting, q :: ch => some { s with writer := .taken q, ch }
    | _, _ => none
  | .swap =>
    match s.writer with
    | .taken q =>
      some { s with lost := false, writer := if s.lost then .resync q else .filtering q }
    | .ticked n =>
      some { s with lost := false, writer := if s.lost then .resyncTick n else .keepalive n }
    | _ => none
  | .writeResync ok =>
    match s.writer with
    | .resync q =>
      some (if ok then { s with told := s.drops, writer := .filtering q }
        else { s with writer := .gone })
    | .resyncTick n =>
      some (if ok then { s with
          told := s.drops, writer := .waiting, ticks := s.ticks ++ [(n, s.drops)] }
        else { s with writer := .gone })
    | _ => none
  | .write vis ok =>
    match s.writer with
    | .filtering q =>
      match vis with
      | none => some { s with writer := .gone }
      | some vis =>
        match frameFor q.frame vis with
        | none => some { s with writer := .waiting }
        | some out =>
          some (if ok then { s with
              writer := .waiting, written := s.written ++ [⟨out, q.after, s.told⟩] }
            else { s with writer := .gone })
    | _ => none
  | .tick ok =>
    match s.writer with
    | .waiting => some { s with writer := if ok then .ticked s.drops else .gone }
    | _ => none
  | .writeKeepalive ok =>
    match s.writer with
    | .keepalive n =>
      some (if ok then { s with writer := .waiting, ticks := s.ticks ++ [(n, s.told)] }
        else { s with writer := .gone })
    | _ => none
  | .close =>
    match s.writer with
    | .waiting => some { s with writer := .gone }
    | _ => none

/-- **A frame is written behind a resync for every one that was dropped before it was queued, and a
keepalive passes only with one for every frame dropped before it began.** -/
structure Told (s : Stream κ) : Prop where
  written : ∀ w ∈ s.written, w.after ≤ w.told
  ticks : ∀ t ∈ s.ticks, t.1 ≤ t.2

/-- One drop is told of before any frame that was queued behind it, or at the next keepalive. -/
def Settled (s : Stream κ) (drop : ℕ) : Prop :=
  (∀ w ∈ s.written, drop ≤ w.after → drop ≤ w.told) ∨ ∀ t ∈ s.ticks, drop ≤ t.1 → drop ≤ t.2

/-- A careful step: nothing is queued, and no keepalive begins, between a send that fails and the
flag that it puts up. -/
def Careful (s : Stream κ) : StreamEvent κ → Prop
  | .send _ _ => s.ch.length < subBuffer → s.dropping = []
  | .tick _ => s.dropping = []
  | _ => True

instance (s : Stream κ) (ev : StreamEvent κ) : Decidable (s.Careful ev) := by
  cases ev <;> unfold Careful <;> infer_instance

/-- A step of any kind, and a careful one. -/
def Next (s s' : Stream κ) : Prop := ∃ ev, s.step ev = some s'

def CarefulNext (s s' : Stream κ) : Prop := ∃ ev, s.Careful ev ∧ s.step ev = some s'

end Stream

/-! ### What a careful step keeps -/

namespace StreamWriter

/-- A resync is written before anything else, or nothing is. -/
def Resyncing : StreamWriter → Prop
  | resync _ | resyncTick _ | gone => True
  | _ => False

/-- What the writer has in hand is told of, or the flag will tell it so. -/
def Fine (drops told : ℕ) (lost : Bool) : StreamWriter → Prop
  | taken q => q.after ≤ drops ∧ (q.after ≤ told ∨ lost = true)
  | resync q => q.after ≤ drops
  | filtering q => q.after ≤ told
  | ticked n => n ≤ drops ∧ (n ≤ told ∨ lost = true)
  | resyncTick n => n ≤ drops
  | keepalive n => n ≤ told
  | waiting | gone => True

end StreamWriter

namespace Stream

variable {κ : Type} {s s' : Stream κ}

/-- How many drops are told of before anything more is written. -/
def Covers (s : Stream κ) (n : ℕ) : Prop := n ≤ s.told ∨ s.lost = true ∨ s.writer.Resyncing

/-- What a careful step keeps: every drop is told of or flagged, except where a flag is yet to go
up, and so is what was dropped before a frame that is queued. -/
structure Sound (s : Stream κ) : Prop where
  flagged : s.dropping = [] → s.Covers s.drops
  queued : ∀ q ∈ s.ch, q.after ≤ s.drops ∧ s.Covers q.after
  writer : s.writer.Fine s.drops s.told s.lost
  told : s.Told

theorem sound_empty : ({} : Stream κ).Sound where
  flagged _ := .inl le_rfl
  queued := nofun
  writer := trivial
  told := ⟨nofun, nofun⟩

/-- A publisher's send. -/
theorem Sound.send [DecidableEq κ] (h : s.Sound) {k : κ} {frame : Json}
    (hcareful : s.ch.length < subBuffer → s.dropping = [])
    (hstep : s.step (.send k frame) = some s') : s'.Sound := by
  rw [step, Option.ite_none_left_eq_some] at hstep
  obtain ⟨-, hstep⟩ := hstep
  split at hstep
  case isTrue hroom =>
    cases hstep
    refine ⟨h.flagged, fun q hq => ?_, h.writer, ⟨h.told.written, h.told.ticks⟩⟩
    rcases List.mem_append.mp hq with hq | hq
    · exact h.queued q hq
    · obtain rfl := List.mem_singleton.mp hq
      exact ⟨le_rfl, h.flagged (hcareful hroom)⟩
  case isFalse =>
    cases hstep
    refine ⟨nofun, fun q hq => ?_, ?_, ⟨h.told.written, h.told.ticks⟩⟩
    · exact ⟨(h.queued q hq).1.trans (Nat.le_succ _), (h.queued q hq).2⟩
    · have hfine := h.writer
      revert hfine
      dsimp only
      cases s.writer with
      | taken q => exact fun hfine => ⟨hfine.1.trans (Nat.le_succ _), hfine.2⟩
      | ticked n => exact fun hfine => ⟨hfine.1.trans (Nat.le_succ _), hfine.2⟩
      | resync q => exact fun hfine => Nat.le_trans hfine (Nat.le_succ _)
      | resyncTick n => exact fun hfine => Nat.le_trans hfine (Nat.le_succ _)
      | _ => exact id

/-- The flag goes up. -/
theorem Sound.raise (h : s.Sound) (dropping : List κ) :
    Sound { s with lost := true, dropping } where
  flagged _ := .inr (.inl rfl)
  queued q hq := ⟨(h.queued q hq).1, .inr (.inl rfl)⟩
  writer := by
    have hfine := h.writer
    revert hfine
    dsimp only
    cases s.writer with
    | taken q => exact fun hfine => ⟨hfine.1, .inr rfl⟩
    | ticked n => exact fun hfine => ⟨hfine.1, .inr rfl⟩
    | _ => exact id
  told := ⟨h.told.written, h.told.ticks⟩

/-- The stream ends. -/
theorem Sound.close (h : s.Sound) : Sound { s with writer := .gone } where
  flagged _ := .inr (.inr trivial)
  queued q hq := ⟨(h.queued q hq).1, .inr (.inr trivial)⟩
  writer := trivial
  told := ⟨h.told.written, h.told.ticks⟩

/-- The writer turns to something else, of which it will tell what it has to, and writes no
resync. -/
theorem Sound.turn (h : s.Sound) {w : StreamWriter} (hkeeps : ¬ s.writer.Resyncing)
    (hfine : w.Fine s.drops s.told s.lost) : Sound { s with writer := w } := by
  have hcovers {n : ℕ} (hn : s.Covers n) : Covers { s with writer := w } n := by
    rcases hn with hn | hn | hn
    · exact .inl hn
    · exact .inr (.inl hn)
    · exact absurd hn hkeeps
  exact ⟨fun hdrop => hcovers (h.flagged hdrop), fun q hq => ⟨(h.queued q hq).1,
    hcovers (h.queued q hq).2⟩, hfine, ⟨h.told.written, h.told.ticks⟩⟩

/-- The writer takes the flag down, and goes on to a resync if it was up. -/
theorem Sound.swap (h : s.Sound) {resync go : StreamWriter} (hkeeps : ¬ s.writer.Resyncing)
    (hresync : resync.Resyncing) (hfine : resync.Fine s.drops s.told false)
    (hgo : s.lost = false → go.Fine s.drops s.told false) :
    Sound { s with lost := false, writer := if s.lost then resync else go } := by
  by_cases hlost : s.lost = true
  · rw [if_pos hlost]
    exact ⟨fun _ => .inr (.inr hresync), fun q hq => ⟨(h.queued q hq).1, .inr (.inr hresync)⟩,
      hfine, ⟨h.told.written, h.told.ticks⟩⟩
  · have hcovers {n : ℕ} (hn : s.Covers n) :
        Covers { s with lost := false, writer := go } n := by
      rcases hn with hn | hn | hn
      · exact .inl hn
      · exact absurd hn hlost
      · exact absurd hn hkeeps
    rw [if_neg hlost]
    exact ⟨fun hdrop => hcovers (h.flagged hdrop), fun q hq => ⟨(h.queued q hq).1,
      hcovers (h.queued q hq).2⟩, hgo (Bool.eq_false_iff.mpr hlost),
      ⟨h.told.written, h.told.ticks⟩⟩

/-- A resync is written. -/
theorem Sound.resync (h : s.Sound) {writer : StreamWriter} {ticks : List (ℕ × ℕ)}
    (hfine : writer.Fine s.drops s.drops s.lost) (hticks : ∀ t ∈ ticks, t.1 ≤ t.2) :
    Sound { s with told := s.drops, writer, ticks } where
  flagged _ := .inl le_rfl
  queued q hq := ⟨(h.queued q hq).1, .inl (h.queued q hq).1⟩
  writer := hfine
  told := ⟨h.told.written, hticks⟩

/-- The writer is done with what it had in hand. -/
theorem Sound.wait (h : s.Sound) (hkeeps : ¬ s.writer.Resyncing) {written : List WrittenFrame}
    {ticks : List (ℕ × ℕ)} (hwritten : ∀ w ∈ written, w.after ≤ w.told)
    (hticks : ∀ t ∈ ticks, t.1 ≤ t.2) : Sound { s with writer := .waiting, written, ticks } := by
  have hturn := h.turn (w := .waiting) hkeeps trivial
  exact ⟨hturn.flagged, hturn.queued, trivial, ⟨hwritten, hticks⟩⟩

/-- **What a careful step keeps.** -/
theorem Sound.step [DecidableEq κ] (h : s.Sound) (hstep : CarefulNext s s') : s'.Sound := by
  obtain ⟨ev, hcareful, hstep⟩ := hstep
  have hfine := h.writer
  cases ev with
  | send k frame => exact h.send hcareful hstep
  | flag k =>
    rw [Stream.step, Option.ite_none_right_eq_some] at hstep
    cases hstep.2
    exact h.raise _
  | take =>
    rw [Stream.step] at hstep
    split at hstep
    case h_1 q ch hw hch =>
      cases hstep
      have hq := h.queued q (hch ▸ List.mem_cons_self)
      have hturn := h.turn (w := .taken q) (by rw [hw]; exact id) ⟨hq.1, by
        rcases hq.2 with hq | hq | hq
        · exact .inl hq
        · exact .inr hq
        · rw [hw] at hq
          exact hq.elim⟩
      exact ⟨hturn.flagged, fun q' hq' => hturn.queued q' (hch ▸ List.mem_cons_of_mem _ hq'),
        hturn.writer, ⟨h.told.written, h.told.ticks⟩⟩
    case h_2 => cases hstep
  | swap =>
    rw [Stream.step] at hstep
    split at hstep
    case h_1 q hw =>
      cases hstep
      rw [hw] at hfine
      refine h.swap (by rw [hw]; exact id) trivial hfine.1 fun hlost => ?_
      exact hfine.2.resolve_right (by rw [hlost]; decide)
    case h_2 n hw =>
      cases hstep
      rw [hw] at hfine
      refine h.swap (by rw [hw]; exact id) trivial hfine.1 fun hlost => ?_
      exact hfine.2.resolve_right (by rw [hlost]; decide)
    case h_3 => cases hstep
  | writeResync ok =>
    rw [Stream.step] at hstep
    split at hstep
    case h_1 q hw =>
      rw [hw] at hfine
      cases hstep
      split
      · exact h.resync hfine h.told.ticks
      · exact h.close
    case h_2 n hw =>
      rw [hw] at hfine
      cases hstep
      split
      · refine h.resync trivial fun t ht => ?_
        rcases List.mem_append.mp ht with ht | ht
        · exact h.told.ticks t ht
        · rw [List.mem_singleton.mp ht]
          exact hfine
      · exact h.close
    case h_3 => cases hstep
  | write vis ok =>
    rw [Stream.step] at hstep
    split at hstep
    case h_1 q hw =>
      rw [hw] at hfine
      have hkeeps : ¬ s.writer.Resyncing := by rw [hw]; exact id
      split at hstep
      · cases hstep
        exact h.close
      split at hstep
      · cases hstep
        exact h.wait hkeeps h.told.written h.told.ticks
      · cases hstep
        split
        · refine h.wait hkeeps (fun w hmem => ?_) h.told.ticks
          rcases List.mem_append.mp hmem with hmem | hmem
          · exact h.told.written w hmem
          · rw [List.mem_singleton.mp hmem]
            exact hfine
        · exact h.close
    case h_2 => cases hstep
  | tick ok =>
    rw [Stream.step] at hstep
    split at hstep
    case h_1 hw =>
      cases hstep
      split
      · refine h.turn (by rw [hw]; exact id) ⟨le_rfl, ?_⟩
        rcases h.flagged hcareful with hn | hn | hn
        · exact .inl hn
        · exact .inr hn
        · rw [hw] at hn
          exact hn.elim
      · exact h.close
    case h_2 => cases hstep
  | writeKeepalive ok =>
    rw [Stream.step] at hstep
    split at hstep
    case h_1 n hw =>
      rw [hw] at hfine
      cases hstep
      split
      · refine h.wait (by rw [hw]; exact id) h.told.written fun t ht => ?_
        rcases List.mem_append.mp ht with ht | ht
        · exact h.told.ticks t ht
        · rw [List.mem_singleton.mp ht]
          exact hfine
      · exact h.close
    case h_2 => cases hstep
  | close =>
    rw [Stream.step] at hstep
    split at hstep
    · cases hstep
      exact h.close
    · cases hstep

end Stream

/-- **The change stream tells a reader nothing hidden and loses nothing silently.** Of every frame
that is published, a reader is told what it may read and nothing else exactly when the rules answer
for the texts of its paths as they do for the paths; and in every run of careful steps, whatever is
written comes behind a resync for what was dropped before it. -/
theorem hides_and_loses_nothing {κ : Type} [DecidableEq κ] :
    (∀ (p : Published) (ev : ChangeEvent) (vis : PathFilter), p.event = some ev →
      (p.Told ev vis ↔ ev.Faithful vis)) ∧
    ∀ s : Stream κ, Relation.ReflTransGen Stream.CarefulNext {} s → s.Told :=
  ⟨fun _ _ _ h => (Published.shape h).told_iff, fun _ h =>
    (Runs.invariant h (fun _ _ hs hstep => hs.step hstep) Stream.sound_empty).told⟩

/-- A folder nobody may read. -/
def hiddenRule : FolderRule where
  pre := ascii "t/"
  default := .none
  normalized := ⟨ascii "t", by decide⟩

/-- A folder inside it, named by a replacement character, that everybody may read. -/
def replacementRule : FolderRule where
  pre := ascii "t/" ++ encodeRune runeError ++ ascii "/"
  default := .read
  normalized := ⟨ascii "t/" ++ encodeRune runeError, by decide⟩

/-- What a member sees under both. -/
def memberView : PathFilter where
  folders := [hiddenRule, replacementRule]
  email := ascii "a@b.c"
  base := .write
  on := true

/-- A file that has been put, and the frame of it. -/
def putAt (path : GoString) : Published := .browser [] path .put

def putAtEvent (path : GoString) : ChangeEvent :=
  { type := .change, paths := [path], puts := 1, source := ascii "browser" }

/-- One frame after another is taken, filtered and written. -/
def drained (n : ℕ) : List (StreamEvent Bool) :=
  (List.replicate n [.take, .swap, .write (some {}) true]).flatten

/-- The queue is full, a send fails, and its flag goes up at once. -/
def promptFlag : List (StreamEvent Bool) :=
  List.replicate subBuffer (.send true .null) ++
    [.send false .null, .flag false, .take, .swap, .writeResync true, .write (some {}) true,
      .send true .null] ++ drained subBuffer

/-- A step, if it is a careful one. -/
def carefulStep (s : Stream Bool) (ev : StreamEvent Bool) : Option (Stream Bool) :=
  if s.Careful ev then s.step ev else none

theorem promptFlag_possible : (promptFlag.foldlM carefulStep {}).isSome = true := by decide

/-- A path that is valid UTF-8 is told as its rule says, and the frames behind a drop behind a
resync. -/
theorem told_of_put_and_drop :
    ((putAt (ascii "t/x")).Told (putAtEvent (ascii "t/x")) memberView ↔
      (putAtEvent (ascii "t/x")).Faithful memberView) ∧
    (Option.get _ promptFlag_possible).Told :=
  ⟨hides_and_loses_nothing (κ := Bool).1 _ _ _ rfl, hides_and_loses_nothing.2 _
    (Runs.of_events (fun _ ev _ hev => ⟨ev, Option.ite_none_right_eq_some.mp hev⟩)
      (Runs.possible promptFlag_possible))⟩

/-- A path in the hidden folder that is not valid UTF-8. -/
def invalidPath : GoString := ascii "t/" ++ [0xFF] ++ ascii "/x"

/-- The queue is full, and a send fails. Before its flag goes up, a keepalive passes, another frame
is queued, and the writer comes to it. -/
def lateFlag : List (StreamEvent Bool) :=
  List.replicate subBuffer (.send true .null) ++
    [.send false .null, .tick true, .swap, .writeKeepalive true] ++ drained 1 ++
    [.send true .null] ++ drained subBuffer

theorem lateFlag_silent : ∀ s ∈ lateFlag.foldlM Stream.step {},
    (∃ w ∈ s.written, ¬ (1 ≤ w.after → 1 ≤ w.told)) ∧ ∃ t ∈ s.ticks, ¬ (1 ≤ t.1 → 1 ≤ t.2) := by
  decide

theorem lateFlag_possible : (lateFlag.foldlM Stream.step {}).isSome = true := by
  decide

/-- A put at a hidden path is counted and named by the text of another path, and a frame is dropped
of which neither the keepalive behind it nor the frame queued behind it tells. -/
theorem hidden_put_told_and_drop_silent :
    (¬ ∀ (p : Published) (ev : ChangeEvent) (vis : PathFilter), p.event = some ev →
      p.Told ev vis) ∧
    ¬ ∀ s : Stream Bool, Relation.ReflTransGen Stream.Next {} s → ∀ drop, s.Settled drop := by
  refine ⟨fun h => ?_, fun h => ?_⟩
  · have hevent : (putAt invalidPath).event = some (putAtEvent invalidPath) := rfl
    have htold := (Published.shape hevent).told_iff.mp (h _ _ memberView hevent)
    have hread := htold.named invalidPath (by decide) (by decide)
    exact absurd hread (by decide)
  · have hrun := Runs.possible lateFlag_possible
    obtain ⟨⟨w, hw, hsilent⟩, t, ht, hpassed⟩ := lateFlag_silent _ hrun
    rcases h _ (Runs.of_events (fun _ ev _ hev => ⟨ev, hev⟩) hrun) 1 with hsettled | hsettled
    · exact hsilent (hsettled w hw)
    · exact hpassed (hsettled t ht)

end Beardrive
