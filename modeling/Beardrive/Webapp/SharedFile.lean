import Beardrive.Lib.Runs
import Beardrive.Lib.TextEdit
import Mathlib.Logic.Function.Basic

/-!
# A file that one editor saves

An editor whose room is never reached writes its file itself: when the typing stops, when it is
asked to, and on the way out. Every save names the version it was built on, and the hub refuses one
that would replace another. So everything hangs on which version the editor names: it takes one for
its base when its own save has landed, when it is offered somebody's write, when a save is refused,
and when a copy has been put beside the file.

Some of these take a version whose text never comes into the buffer. The save that is refused then
is not the next one: that one names the version it is about to erase.

A version is named by the hash of its content, and texts are lists of code units.

## Main definitions

* `SoloFile` — the editor, its requests and the file
* `SoloFile.step` — every interleaving of its user, its requests, and everybody else's writes
* `Overwrite.Built` — what is to hold of a version that a save replaced
* `SoloFile.Careful` — the steps that take no version for a base that the buffer has not held

## Main results

* `SoloFile.Sound.step` — what a careful step keeps
* `solo_saves_on_what_it_saw` — a save replaces nothing that it was not built on
-/

namespace Beardrive

/-- What the file is edited in: a surface with a buffer of its own, or one that edits the document,
which it has filled itself. -/
inductive Surface where
  | source
  | visual
  deriving DecidableEq

/-- What a PUT is sent for. A retry knows the version that the first refusal named. -/
inductive PutKind (σ : Type) where
  | save
  | retry (theirs : Option σ)
  | confirm
  deriving DecidableEq

/-- A request of the editor, or the code waiting for it. No base is an unconditional PUT. -/
inductive SaveCall (α σ : Type) where
  | put (kind : PutKind σ) (text : List α) (base : Option σ)
  | landed (kind : PutKind σ) (text : List α)
  | refused (text : List α) (theirs : Option σ)
  | copying (text : List α) (theirs : Option σ)
  | keeping
  deriving DecidableEq

/-- What the file holds, and whether this editor put it there. -/
structure HeadVersion (α : Type) where
  text : List α
  ours : Bool
  deriving DecidableEq

/-- A version of somebody else's that a save has replaced: its text, what was written, and whether
the buffer had been that text before. -/
structure Overwrite (α : Type) where
  theirs : List α
  wrote : List α
  held : Bool
  deriving DecidableEq

/-- **What was written was built on what it replaced**: the buffer had been that text, typed or
spliced in, or the text is in what was written with one stretch put into it. -/
def Overwrite.Built {α : Type} (o : Overwrite α) : Prop := o.held = true ∨ Within o.theirs o.wrote

/-- How the hub answers a PUT. -/
inductive Arrival where
  | accept
  | conflict
  | shrink
  | fail
  deriving DecidableEq

/-- How the answer to an accepted PUT comes back: with the version the file then has, without one,
or not at all. -/
inductive PutAnswer where
  | sha
  | bare
  | lost
  deriving DecidableEq

/-- One open file. `held` are the texts the buffer has been, `adopted` is the base where it was
taken because the buffer contained it, and `replaced` are the versions of others that went. -/
structure SoloFile (κ α σ : Type) where
  surface : Surface
  text : List α
  own : List α
  saved : List α
  base : Option σ
  inFlight : List (List α) := []
  asking : Bool := false
  gone : Bool := false
  calls : κ → Option (SaveCall α σ) := fun _ => none
  head : Option (HeadVersion α)
  adopted : Option (List α) := none
  held : List (List α)
  replaced : List (Overwrite α) := []

/-- What can happen next. -/
inductive SoloEvent (κ α : Type) where
  | type (t : List α)
  | idle (k : κ)
  | saveNow (k : κ)
  | destroy (k : κ)
  | arrive (k : κ) (a : Arrival)
  | answer (k : κ) (a : PutAnswer)
  | look (k : κ) (ok : Bool)
  | copied (k : κ) (ok : Bool)
  | merge (next : List α) (known peers held : Bool)
  | rebase (next : List α)
  | confirm (k : κ)
  | keep (k : κ)
  | kept (k : κ) (ok : Bool)
  | write (t : Option (List α))

namespace SoloFile

variable {κ α σ : Type} [DecidableEq κ] [DecidableEq α] [DecidableEq σ] (hash : List α → σ)

/-- A file as it is opened. -/
def opened (surface : Surface) (seed : List α) (head : Option (HeadVersion α)) :
    SoloFile κ α σ where
  surface
  text := if surface = .visual then seed else []
  own := seed
  saved := seed
  base := some (hash seed)
  head
  held := [seed]

section

variable (s : SoloFile κ α σ)

/-- The text as it stands. -/
def current : List α := if s.text ≠ [] then s.text else s.own

/-- A request goes on, or is over. -/
def set (k : κ) (c : Option (SaveCall α σ)) : SoloFile κ α σ :=
  { s with calls := Function.update s.calls k c }

/-- A save is over. -/
def finish (k : κ) (text : List α) : SoloFile κ α σ :=
  { s.set k none with inFlight := s.inFlight.filter (· ≠ text) }

/-- A question about a shrink is answered. -/
def answered (k : κ) : SoloFile κ α σ := { s.set k none with asking := false }

/-- `rebase`: the file's version, where it is known. -/
def rebase (sha : Option σ) : SoloFile κ α σ :=
  if sha.isSome then { s with base := sha, adopted := none } else s

/-- `save`, as far as its request. -/
def save (k : κ) (text : List α) : SoloFile κ α σ :=
  if text ∈ s.inFlight ∨ text = s.saved then s
  else { s.set k (some (.put .save text s.base)) with inFlight := text :: s.inFlight }

/-- A replacement is put into the document, or into the surface's own buffer. -/
def splice (e : TextEdit α) : SoloFile κ α σ :=
  if s.text ≠ [] then { s with text := e.apply s.text, held := e.apply s.text :: s.held }
  else if s.surface = .source then { s with own := e.apply s.own, held := e.apply s.own :: s.held }
  else s

/-- Whether the door takes a PUT. -/
def accepts (text : List α) (base : Option σ) : Bool :=
  match s.head with
  | some h => h.text = text || base = some (hash h.text) || base = none
  | none => base = none

/-- A PUT that is taken. -/
def land (kind : PutKind σ) (text : List α) : SoloFile κ α σ :=
  match s.head with
  | some h =>
    if h.text = text then s
    else { s with
      head := some ⟨text, true⟩
      replaced := if h.ours || kind = .confirm then s.replaced
        else ⟨h.text, text, h.text ∈ s.held⟩ :: s.replaced }
  | none => { s with head := some ⟨text, true⟩ }

/-- A PUT that has failed. -/
def lose (k : κ) (text : List α) : PutKind σ → SoloFile κ α σ
  | .save => s.finish k text
  | .retry theirs => s.set k (some (.copying text theirs))
  | .confirm => s.answered k

/-- The version the file has. -/
def headSha : Option σ := s.head.map fun h => hash h.text

/-- A PUT is answered. A save asks about a shrink once. -/
def arrived (k : κ) (kind : PutKind σ) (text : List α) : Arrival → SoloFile κ α σ
  | .accept => (s.land kind text).set k (some (.landed kind text))
  | .conflict =>
    match kind with
    | .save => { s with inFlight := s.inFlight.filter (· ≠ text) }.set k
        (some (.refused text (s.headSha hash)))
    | kind => s.lose k text kind
  | .shrink =>
    match kind with
    | .save => { s.finish k text with asking := s.asking || !s.gone }
    | kind => s.lose k text kind
  | .fail => s.lose k text kind

/-- The answer to a PUT that was taken. The version is read back, and may be a later one. -/
def answeredPut (k : κ) (kind : PutKind σ) (text : List α) : PutAnswer → SoloFile κ α σ
  | .lost => s.lose k text kind
  | a =>
    let s := { s with saved := text }
    let s := if a = .sha then s.rebase (some ((s.headSha hash).getD (hash text))) else s
    if kind = .confirm then s.answered k else s.finish k text

/-- `rebaseOnLostRace`, with the file it has read, or none. -/
def lookedAt (k : κ) (text : List α) (theirs : Option σ) :
    Option (HeadVersion α) → SoloFile κ α σ
  | none => s.set k (some (.copying text theirs))
  | some h =>
    if adds text h.text then { s.rebase (some (hash h.text)) with saved := h.text }.finish k text
    else if adds h.text text then
      { s.rebase (some (hash h.text)) with adopted := some h.text }.set k
        (some (.put (.retry theirs) text (some (hash h.text))))
    else s.set k (some (.copying text theirs))

/-- `merge`. -/
def merge (next : List α) (sha : Option σ) (peers held : Bool) : SoloFile κ α σ :=
  if held then { s with saved := next }.rebase sha
  else if next = s.saved ∨ next ∈ s.inFlight then s.rebase sha
  else if next = s.current then { s with saved := next }.rebase sha
  else if s.current ≠ s.saved ∨ peers then
    if adds next s.current ∧ sha.isSome then { s.rebase sha with adopted := some next } else s
  else match textEdit s.current next with
    | none => s
    | some e =>
      if s.text = [] ∧ s.surface = .visual then s
      else ({ s with saved := next }.rebase sha).splice e

/-- The answer to a shrink that puts the file back. -/
def keepHead (k : κ) : Option (HeadVersion α) → SoloFile κ α σ
  | none => s.answered k
  | some h =>
    let e := textEdit s.current h.text
    let s := { s with saved := h.text }.rebase (some (hash h.text))
    (match e with
      | none => s
      | some e => s.splice e).answered k

/-- One step. -/
def step : SoloEvent κ α → Option (SoloFile κ α σ)
  | .type t =>
    if s.gone then none
    else some (if s.surface = .visual then { s with text := t, held := t :: s.held }
      else { s with own := t, held := t :: s.held })
  | .idle k =>
    if s.surface = .visual ∧ s.calls k = none then some (s.save k s.text) else none
  | .saveNow k => if s.calls k = none then some (s.save k s.current) else none
  | .destroy k =>
    if s.calls k = none then
      let s := { s with gone := true }
      some (if s.asking ∨ s.current = [] ∨ s.current = s.saved then s else s.save k s.current)
    else none
  | .arrive k a =>
    match s.calls k with
    | some (.put kind text base) =>
      if a = .accept ∧ s.accepts hash text base = false ∨
          a = .conflict ∧ s.accepts hash text base = true then none
      else some (s.arrived hash k kind text a)
    | _ => none
  | .answer k a =>
    match s.calls k with
    | some (.landed kind text) => some (s.answeredPut hash k kind text a)
    | _ => none
  | .look k ok =>
    match s.calls k with
    | some (.refused text theirs) =>
      some (s.lookedAt hash k text theirs (if ok then s.head else none))
    | _ => none
  | .copied k ok =>
    match s.calls k with
    | some (.copying text theirs) =>
      some ((if ok then { s with saved := text, base := theirs, adopted := none } else s).finish k
        text)
    | _ => none
  | .merge next known peers held =>
    some (s.merge next (if known then some (hash next) else none) peers held)
  | .rebase next => some (s.rebase (some (hash next)))
  | .confirm k =>
    if s.asking ∧ s.gone = false ∧ s.calls k = none then
      some (s.set k (some (.put .confirm s.current s.base)))
    else none
  | .keep k =>
    if s.asking ∧ s.gone = false ∧ s.calls k = none then some (s.set k (some .keeping)) else none
  | .kept k ok =>
    match s.calls k with
    | some .keeping => some (s.keepHead hash k (if ok ∧ s.gone = false then s.head else none))
    | _ => none
  | .write t => some { s with head := t.map (⟨·, false⟩) }

/-- A save onto a version that was taken because the buffer contained it still contains it. -/
def CarefulSave (text : List α) : Prop := ∀ t ∈ s.adopted, t ∈ s.held ∨ Within t text

/-- No other text has the hash of the file's. -/
def NoClash : Prop := ∀ h ∈ s.head, ∀ t, hash t = hash h.text → t = h.text

/-- A careful look: the file is not ahead of what was to be saved. -/
def CarefulLook (ok : Bool) : SaveCall α σ → Prop
  | .refused text _ => ok = true → ∀ h ∈ s.head, adds text h.text = true → h.text ∈ s.held
  | _ => True

/-- A careful copy: it is put beside no version but one the buffer has been. -/
def CarefulCopy (ok : Bool) : SaveCall α σ → Prop
  | .copying _ theirs => ok = true → ∃ t ∈ s.held, theirs = some (hash t)
  | _ => True

/-- A careful step: a version is taken for the base that the buffer has been, or is contained in
what is saved onto it. -/
def Careful : SoloEvent κ α → Prop
  | .idle _ => s.CarefulSave s.text
  | .saveNow _ | .destroy _ => s.CarefulSave s.current
  -- The version that is read back is the one that was put there, or another the buffer has been.
  | .answer _ a => a = .sha → ∀ h ∈ s.head, h.text ∈ s.held
  | .look k ok => ∀ c ∈ s.calls k, s.CarefulLook ok c
  | .copied k ok => ∀ c ∈ s.calls k, s.CarefulCopy hash ok c
  | .merge next _ _ held => held = true → next ∈ s.held
  | .rebase next => next ∈ s.held
  -- What is put back has somewhere to go.
  | .kept _ ok => ok = true → s.surface = .visual → s.text = [] → ∀ h ∈ s.head, h.text ∈ s.held
  | _ => True

end

section

variable (s : SoloFile κ α σ)

instance (ok : Bool) (c : SaveCall α σ) : Decidable (s.CarefulLook ok c) := by
  cases c <;> unfold CarefulLook <;> infer_instance

instance (ok : Bool) (c : SaveCall α σ) : Decidable (s.CarefulCopy hash ok c) := by
  cases c <;> unfold CarefulCopy <;> infer_instance

instance (ev : SoloEvent κ α) : Decidable (s.Careful hash ev) := by
  cases ev <;> unfold Careful <;> (try unfold CarefulSave) <;> infer_instance

end

/-- A step of any kind, and a careful one. -/
def Next (s s' : SoloFile κ α σ) : Prop := ∃ ev, s.step hash ev = some s'

def CarefulNext (s s' : SoloFile κ α σ) : Prop :=
  ∃ ev, s.NoClash hash ∧ s.Careful hash ev ∧ s.step hash ev = some s'

end SoloFile

/-! ### What a careful step keeps -/

/-- What is saved has been in the buffer, and so has the version that it names, or else it is in
what is saved. -/
def SaveCall.Fine {α σ : Type} (hash : List α → σ) (held : List (List α)) : SaveCall α σ → Prop
  | .put .confirm text _ => text ∈ held
  | .put _ text base =>
    text ∈ held ∧ ∃ t, base = some (hash t) ∧ (t ∈ held ∨ Within t text)
  | .landed _ text | .refused text _ | .copying text _ => text ∈ held
  | .keeping => True

theorem SaveCall.Fine.mono {α σ : Type} {hash : List α → σ} {held held' : List (List α)}
    (hheld : held ⊆ held') {c : SaveCall α σ} (h : c.Fine hash held) : c.Fine hash held' := by
  have hput {text : List α} {base : Option σ}
      (h : text ∈ held ∧ ∃ t, base = some (hash t) ∧ (t ∈ held ∨ Within t text)) :
      text ∈ held' ∧ ∃ t, base = some (hash t) ∧ (t ∈ held' ∨ Within t text) := by
    obtain ⟨htext, t, hbase, ht⟩ := h
    exact ⟨hheld htext, t, hbase, ht.imp_left fun ht => hheld ht⟩
  cases c with
  | put kind text base =>
    cases kind with
    | save => exact hput h
    | retry theirs => exact hput h
    | confirm => exact hheld h
  | landed kind text => exact hheld h
  | refused text theirs => exact hheld h
  | copying text theirs => exact hheld h
  | keeping => trivial

namespace SoloFile

variable {κ α σ : Type} {hash : List α → σ} {s s' : SoloFile κ α σ}

/-- What a careful step keeps: what the editor has is what the buffer has been, and its base names
such a text, or one that the buffer contained. -/
structure Sound (hash : List α → σ) (s : SoloFile κ α σ) : Prop where
  text : s.text ∈ s.held ∨ s.surface = .source ∧ s.text = []
  own : s.own ∈ s.held
  saved : s.saved ∈ s.held
  inFlight : ∀ t ∈ s.inFlight, t ∈ s.held
  base : ∃ t, s.base = some (hash t) ∧ (t ∈ s.held ∨ s.adopted = some t)
  calls : ∀ k c, s.calls k = some c → c.Fine hash s.held
  replaced : ∀ o ∈ s.replaced, o.Built

theorem sound_opened (surface : Surface) (seed : List α) (head : Option (HeadVersion α)) :
    Sound hash (opened hash surface seed head : SoloFile κ α σ) where
  text := by
    cases surface with
    | source => exact .inr ⟨rfl, rfl⟩
    | visual => exact .inl List.mem_cons_self
  own := List.mem_cons_self
  saved := List.mem_cons_self
  inFlight := nofun
  base := ⟨seed, rfl, .inl List.mem_cons_self⟩
  calls := nofun
  replaced := nofun

/-- The text as it stands is one the buffer has been. -/
theorem Sound.current [DecidableEq α] (h : s.Sound hash) : s.current ∈ s.held := by
  unfold SoloFile.current
  split_ifs with hne
  · exact h.text.resolve_right fun hsource => hne hsource.2
  · exact h.own

theorem Sound.savedTo (h : s.Sound hash) {t : List α} (ht : t ∈ s.held) :
    Sound hash { s with saved := t } :=
  ⟨h.text, h.own, ht, h.inFlight, h.base, h.calls, h.replaced⟩

theorem Sound.based (h : s.Sound hash) {t : List α} (ht : t ∈ s.held) :
    Sound hash { s with base := some (hash t), adopted := none } :=
  ⟨h.text, h.own, h.saved, h.inFlight, ⟨t, rfl, .inl ht⟩, h.calls, h.replaced⟩

/-- The base becomes a version that the buffer has been. -/
theorem Sound.rebase (h : s.Sound hash) {t : List α} (ht : t ∈ s.held) {sha : Option σ}
    (hsha : sha.isSome = true → sha = some (hash t)) : (s.rebase sha).Sound hash := by
  unfold SoloFile.rebase
  split_ifs with hsome
  · rw [hsha hsome]
    exact h.based ht
  · exact h

/-- The base becomes a version that the buffer contains. -/
theorem Sound.adopt (h : s.Sound hash) {t : List α} {sha : Option σ} (hsha : sha = some (hash t)) :
    Sound hash { s.rebase sha with adopted := some t } := by
  rw [hsha]
  exact ⟨h.text, h.own, h.saved, h.inFlight, ⟨t, rfl, .inr rfl⟩, h.calls, h.replaced⟩

theorem Sound.set [DecidableEq κ] (h : s.Sound hash) (k : κ) {c : Option (SaveCall α σ)}
    (hc : ∀ d, c = some d → d.Fine hash s.held) : (s.set k c).Sound hash := by
  refine ⟨h.text, h.own, h.saved, h.inFlight, h.base, fun j d hj => ?_, h.replaced⟩
  change Function.update s.calls k c j = some d at hj
  by_cases hjk : j = k
  · subst hjk
    rw [Function.update_self] at hj
    exact hc d hj
  · rw [Function.update_of_ne hjk] at hj
    exact h.calls j d hj

theorem Sound.finish [DecidableEq κ] [DecidableEq α] (h : s.Sound hash) (k : κ) (text : List α) :
    (s.finish k text).Sound hash := by
  have hset : (s.set k none).Sound hash := h.set k nofun
  exact ⟨hset.text, hset.own, hset.saved, fun t ht => h.inFlight t (List.mem_of_mem_filter ht),
    hset.base, hset.calls, hset.replaced⟩

theorem Sound.answered [DecidableEq κ] (h : s.Sound hash) (k : κ) :
    (s.answered k).Sound hash := by
  have hset : (s.set k none).Sound hash := h.set k nofun
  exact ⟨hset.text, hset.own, hset.saved, hset.inFlight, hset.base, hset.calls, hset.replaced⟩

/-- The buffer becomes another text. -/
theorem Sound.grow (h : s.Sound hash) {text own t : List α}
    (htext : text = t ∨ text = s.text) (hown : own = t ∨ own = s.own) :
    Sound hash { s with text, own, held := t :: s.held } := by
  have hheld : s.held ⊆ t :: s.held := List.subset_cons_self _ _
  refine ⟨?_, ?_, hheld h.saved, fun u hu => hheld (h.inFlight u hu), ?_,
    fun k c hc => (h.calls k c hc).mono hheld, h.replaced⟩
  · rcases htext with rfl | rfl
    · exact .inl List.mem_cons_self
    · exact h.text.imp_left fun ht => hheld ht
  · rcases hown with rfl | rfl
    · exact List.mem_cons_self
    · exact hheld h.own
  · obtain ⟨u, hbase, hu⟩ := h.base
    exact ⟨u, hbase, hu.imp_left fun hu => hheld hu⟩

theorem Sound.splice [DecidableEq α] (h : s.Sound hash) (e : TextEdit α) :
    (s.splice e).Sound hash := by
  unfold SoloFile.splice
  split_ifs
  · exact h.grow (.inl rfl) (.inr rfl)
  · exact h.grow (.inr rfl) (.inl rfl)
  · exact h

section

variable [DecidableEq κ] [DecidableEq α] [DecidableEq σ]

omit [DecidableEq σ] in
/-- A save goes out on the base as it stands. -/
theorem Sound.save (h : s.Sound hash) (k : κ) {text : List α} (htext : text ∈ s.held)
    (hcareful : s.CarefulSave text) : (s.save k text).Sound hash := by
  unfold SoloFile.save
  split_ifs
  · exact h
  · obtain ⟨t, hbase, ht⟩ := h.base
    have hset : (s.set k (some (.put .save text s.base))).Sound hash := by
      refine h.set k fun d hd => ?_
      cases hd
      exact ⟨htext, t, hbase, ht.elim .inl fun hadopted => hcareful t hadopted⟩
    exact ⟨hset.text, hset.own, hset.saved,
      List.forall_mem_cons.mpr ⟨htext, h.inFlight⟩, hset.base, hset.calls, hset.replaced⟩

omit [DecidableEq σ] in
/-- A PUT that has failed. -/
theorem Sound.lose (h : s.Sound hash) (k : κ) {text : List α} (htext : text ∈ s.held)
    (kind : PutKind σ) : (s.lose k text kind).Sound hash := by
  cases kind with
  | save => exact h.finish k text
  | retry theirs => exact h.set k fun d hd => by cases hd; exact htext
  | confirm => exact h.answered k

omit [DecidableEq κ] in
/-- **A PUT that is taken replaces nothing it was not built on.** -/
theorem Sound.land (h : s.Sound hash) (hclash : s.NoClash hash) {kind : PutKind σ} {text : List α}
    {base : Option σ} (hfine : (SaveCall.put kind text base).Fine hash s.held)
    (haccepts : s.accepts hash text base = true) : (s.land kind text).Sound hash := by
  unfold SoloFile.land
  cases hhead : s.head with
  | none => exact ⟨h.text, h.own, h.saved, h.inFlight, h.base, h.calls, h.replaced⟩
  | some v =>
    dsimp only
    split_ifs with hsame hskip
    · exact h
    · exact ⟨h.text, h.own, h.saved, h.inFlight, h.base, h.calls, h.replaced⟩
    · refine ⟨h.text, h.own, h.saved, h.inFlight, h.base, h.calls,
        List.forall_mem_cons.mpr ⟨?_, h.replaced⟩⟩
      have hbuilt : text ∈ s.held ∧ ∃ t, base = some (hash t) ∧ (t ∈ s.held ∨ Within t text) := by
        cases kind with
        | save => exact hfine
        | retry theirs => exact hfine
        | confirm => simp at hskip
      obtain ⟨-, t, rfl, ht⟩ := hbuilt
      -- The base names the file, so it is the text that is replaced.
      have hnamed : hash t = hash v.text := by
        simpa [SoloFile.accepts, hhead, hsame] using haccepts
      obtain rfl := hclash v hhead t hnamed
      exact ht.imp_left fun ht => decide_eq_true ht

omit [DecidableEq κ] [DecidableEq α] [DecidableEq σ] in
/-- What a request has to save has been in the buffer. -/
theorem Sound.text_held (h : s.Sound hash) {k : κ} {kind : PutKind σ} {text : List α}
    {base : Option σ} (hcall : s.calls k = some (.put kind text base)) : text ∈ s.held := by
  have hfine := h.calls k _ hcall
  cases kind with
  | save => exact hfine.1
  | retry theirs => exact hfine.1
  | confirm => exact hfine

/-- A PUT comes to the hub. -/
theorem Sound.arrived (h : s.Sound hash) (hclash : s.NoClash hash) {k : κ} {kind : PutKind σ}
    {text : List α} {base : Option σ} (hcall : s.calls k = some (.put kind text base))
    {a : Arrival} (haccepts : a = .accept → s.accepts hash text base = true) :
    (s.arrived hash k kind text a).Sound hash := by
  have htext := h.text_held hcall
  cases a with
  | accept =>
    have hland := h.land hclash (h.calls k _ hcall) (haccepts rfl)
    refine hland.set k fun d hd => ?_
    cases hd
    have hheld : (s.land kind text).held = s.held := by
      unfold SoloFile.land
      split
      · split_ifs <;> rfl
      · rfl
    exact hheld ▸ htext
  | conflict =>
    cases kind with
    | save =>
      have hset := h.set k (c := some (.refused text (s.headSha hash))) fun d hd => by
        cases hd
        exact htext
      exact ⟨hset.text, hset.own, hset.saved, fun t ht => h.inFlight t (List.mem_of_mem_filter ht),
        hset.base, hset.calls, hset.replaced⟩
    | retry theirs => exact h.lose k htext (.retry theirs)
    | confirm => exact h.lose k htext .confirm
  | shrink =>
    cases kind with
    | save =>
      have hdone := h.finish k text
      exact ⟨hdone.text, hdone.own, hdone.saved, hdone.inFlight, hdone.base, hdone.calls,
        hdone.replaced⟩
    | retry theirs => exact h.lose k htext (.retry theirs)
    | confirm => exact h.lose k htext .confirm
  | fail => exact h.lose k htext kind

/-- The answer to a PUT comes back. -/
theorem Sound.answeredPut (h : s.Sound hash) {k : κ} {kind : PutKind σ} {text : List α}
    (htext : text ∈ s.held) {a : PutAnswer} (hread : a = .sha → ∀ v ∈ s.head, v.text ∈ s.held) :
    (s.answeredPut hash k kind text a).Sound hash := by
  have hsaved := h.savedTo htext
  have hover {t : SoloFile κ α σ} (ht : t.Sound hash) :
      Sound hash (if kind = .confirm then t.answered k else t.finish k text) := by
    split_ifs
    · exact ht.answered k
    · exact ht.finish k text
  cases a with
  | lost => exact h.lose k htext kind
  | bare => exact hover hsaved
  | sha =>
    obtain ⟨t, ht, hsha⟩ : ∃ t ∈ s.held, (s.headSha hash).getD (hash text) = hash t := by
      rw [headSha]
      cases hhead : s.head with
      | none => exact ⟨text, htext, rfl⟩
      | some v => exact ⟨v.text, hread rfl v hhead, rfl⟩
    have hbased : Sound hash ({ s with saved := text }.rebase (some (hash t))) :=
      hsaved.rebase ht fun _ => rfl
    rw [← hsha] at hbased
    exact hover hbased

omit [DecidableEq σ] in
/-- A save that was refused has read the file. -/
theorem Sound.lookedAt (h : s.Sound hash) {k : κ} {text : List α} {theirs : Option σ}
    (htext : text ∈ s.held) {v : Option (HeadVersion α)}
    (hahead : ∀ w ∈ v, adds text w.text = true → w.text ∈ s.held) :
    (s.lookedAt hash k text theirs v).Sound hash := by
  have hcopy : (s.set k (some (.copying text theirs))).Sound hash :=
    h.set k fun d hd => by cases hd; exact htext
  cases v with
  | none => exact hcopy
  | some v =>
    unfold SoloFile.lookedAt
    dsimp only
    split_ifs with htheirs hours
    · have hheld := hahead v rfl htheirs
      exact ((h.rebase hheld fun _ => rfl).savedTo hheld).finish k text
    · have hadopt : Sound hash { s.rebase (some (hash v.text)) with adopted := some v.text } :=
        h.adopt rfl
      refine hadopt.set k fun d hd => ?_
      cases hd
      exact ⟨htext, v.text, rfl, .inr (adds_iff.mp hours)⟩
    · exact hcopy

omit [DecidableEq κ] [DecidableEq σ] in
/-- A text that has somewhere to go is in the buffer. -/
theorem mem_held_splice {next : List α} {e : TextEdit α} (he : textEdit s.current next = some e)
    (hplace : ¬ (s.text = [] ∧ s.surface = .visual)) : next ∈ (s.splice e).held := by
  have harrives := apply_textEdit he
  unfold SoloFile.current at harrives
  unfold SoloFile.splice
  split_ifs at harrives ⊢ with htext hsource
  · exact List.mem_cons.mpr (.inl harrives.symm)
  · exact List.mem_cons.mpr (.inl harrives.symm)
  · refine absurd ⟨not_not.mp htext, ?_⟩ hplace
    cases hsurface : s.surface with
    | source => exact absurd hsurface hsource
    | visual => rfl

omit [DecidableEq κ] [DecidableEq α] [DecidableEq σ] in
/-- What is recorded of a version and what is put into the buffer do not meet. -/
theorem splice_rebase (next : List α) (sha : Option σ) (e : TextEdit α) :
    ({ s with saved := next }.rebase sha).splice e
      = { s.splice e with saved := next }.rebase sha := by
  unfold SoloFile.rebase SoloFile.splice
  split_ifs <;> rfl

omit [DecidableEq κ] [DecidableEq σ] in
/-- A version whose text is put into the buffer is recorded. -/
theorem Sound.spliced (h : s.Sound hash) {next : List α} {sha : Option σ} {e : TextEdit α}
    (hsha : sha.isSome = true → sha = some (hash next)) (hheld : next ∈ (s.splice e).held) :
    (({ s with saved := next }.rebase sha).splice e).Sound hash := by
  rw [splice_rebase]
  exact ((h.splice e).savedTo hheld).rebase hheld hsha

omit [DecidableEq κ] [DecidableEq σ] in
/-- A write is offered. -/
theorem Sound.merge (h : s.Sound hash) {next : List α} {sha : Option σ}
    (hsha : sha.isSome = true → sha = some (hash next)) {peers held : Bool}
    (hheld : held = true → next ∈ s.held) : (s.merge next sha peers held).Sound hash := by
  unfold SoloFile.merge
  split_ifs with hin hknown hsame hlocal hcontains hplace
  · exact (h.savedTo (hheld hin)).rebase (hheld hin) hsha
  · refine h.rebase ?_ hsha
    rcases hknown with rfl | hknown
    · exact h.saved
    · exact h.inFlight next hknown
  · have hcurrent : next ∈ s.held := hsame ▸ h.current
    exact (h.savedTo hcurrent).rebase hcurrent hsha
  · exact h.adopt (hsha hcontains.2)
  · exact h
  · split
    · exact h
    · exact h
  · split
    · exact h
    case h_2 e he => exact h.spliced hsha (mem_held_splice he hplace)

omit [DecidableEq σ] in
/-- The file is put back. -/
theorem Sound.keepHead (h : s.Sound hash) {k : κ} {v : Option (HeadVersion α)}
    (hplace : ∀ w ∈ v, s.surface = .visual → s.text = [] → w.text ∈ s.held) :
    (s.keepHead hash k v).Sound hash := by
  cases v with
  | none => exact h.answered k
  | some v =>
    unfold SoloFile.keepHead
    dsimp only
    refine Sound.answered ?_ k
    cases he : textEdit s.current v.text with
    | none =>
      have hcurrent : v.text ∈ s.held := by
        rw [textEdit] at he
        split_ifs at he with hsame
        exact hsame ▸ h.current
      exact (h.savedTo hcurrent).rebase hcurrent fun _ => rfl
    | some e =>
      refine h.spliced (fun _ => rfl) ?_
      by_cases hnone : s.text = [] ∧ s.surface = .visual
      · have hheld := hplace v rfl hnone.2 hnone.1
        unfold SoloFile.splice
        split_ifs
        · exact List.mem_cons_of_mem _ hheld
        · exact List.mem_cons_of_mem _ hheld
        · exact hheld
      · exact mem_held_splice he hnone

/-- **What a careful step keeps.** -/
theorem Sound.step (h : s.Sound hash) (hstep : CarefulNext hash s s') : s'.Sound hash := by
  obtain ⟨ev, hclash, hcareful, hstep⟩ := hstep
  cases ev with
  | type t =>
    rw [SoloFile.step, Option.ite_none_left_eq_some] at hstep
    obtain ⟨-, hstep⟩ := hstep
    cases hstep
    split_ifs
    · exact h.grow (.inl rfl) (.inr rfl)
    · exact h.grow (.inr rfl) (.inl rfl)
  | idle k =>
    rw [SoloFile.step, Option.ite_none_right_eq_some] at hstep
    obtain ⟨⟨hsurface, -⟩, hstep⟩ := hstep
    cases hstep
    refine h.save k (h.text.resolve_right fun hsource => ?_) hcareful
    rw [hsurface] at hsource
    cases hsource.1
  | saveNow k =>
    rw [SoloFile.step, Option.ite_none_right_eq_some] at hstep
    cases hstep.2
    exact h.save k h.current hcareful
  | destroy k =>
    rw [SoloFile.step, Option.ite_none_right_eq_some] at hstep
    cases hstep.2
    have hgone : Sound hash { s with gone := true } :=
      ⟨h.text, h.own, h.saved, h.inFlight, h.base, h.calls, h.replaced⟩
    dsimp only
    split_ifs
    · exact hgone
    · exact hgone.save k hgone.current hcareful
  | arrive k a =>
    rw [SoloFile.step] at hstep
    split at hstep
    case h_1 kind text base hcall =>
      rw [Option.ite_none_left_eq_some] at hstep
      obtain ⟨hdoor, hstep⟩ := hstep
      cases hstep
      refine h.arrived hclash hcall fun ha => ?_
      by_contra hno
      exact hdoor (.inl ⟨ha, Bool.eq_false_iff.mpr hno⟩)
    case h_2 => cases hstep
  | answer k a =>
    rw [SoloFile.step] at hstep
    split at hstep
    case h_1 kind text hcall =>
      cases hstep
      exact h.answeredPut (h.calls k _ hcall) hcareful
    case h_2 => cases hstep
  | look k ok =>
    rw [SoloFile.step] at hstep
    split at hstep
    case h_1 text theirs hcall =>
      cases hstep
      refine h.lookedAt (h.calls k _ hcall) fun v hv hahead => ?_
      split_ifs at hv with hok
      · exact hcareful _ hcall hok v hv hahead
      · cases hv
    case h_2 => cases hstep
  | copied k ok =>
    rw [SoloFile.step] at hstep
    split at hstep
    case h_1 text theirs hcall =>
      cases hstep
      refine Sound.finish ?_ k text
      split_ifs with hok
      · obtain ⟨t, ht, rfl⟩ := hcareful _ hcall hok
        exact (h.savedTo (h.calls k _ hcall)).based ht
      · exact h
    case h_2 => cases hstep
  | merge next known peers held =>
    cases hstep
    refine h.merge (fun hsome => ?_) hcareful
    split_ifs at hsome ⊢ with hknown
    · rfl
    · cases hsome
  | rebase next =>
    cases hstep
    exact h.rebase hcareful fun _ => rfl
  | confirm k =>
    rw [SoloFile.step, Option.ite_none_right_eq_some] at hstep
    cases hstep.2
    exact h.set k fun d hd => by cases hd; exact h.current
  | keep k =>
    rw [SoloFile.step, Option.ite_none_right_eq_some] at hstep
    cases hstep.2
    exact h.set k fun d hd => by cases hd; exact trivial
  | kept k ok =>
    rw [SoloFile.step] at hstep
    split at hstep
    · cases hstep
      refine h.keepHead fun v hv hsurface htext => ?_
      split_ifs at hv with hok
      · exact hcareful hok.1 hsurface htext v hv
      · cases hv
    · cases hstep
  | write t =>
    cases hstep
    exact ⟨h.text, h.own, h.saved, h.inFlight, h.base, h.calls, h.replaced⟩

end

end SoloFile

/-- **The solo editor erases no write it did not see.** In every run of careful steps, a save that
replaces a version of somebody else was built on it: the buffer had been that text, typed or spliced
in, or the text is in what was written with one stretch put into it. -/
theorem solo_saves_on_what_it_saw {κ α σ : Type} [DecidableEq κ] [DecidableEq α] [DecidableEq σ]
    (hash : List α → σ) (surface : Surface) (seed : List α) (head : Option (HeadVersion α))
    {s : SoloFile κ α σ}
    (h : Relation.ReflTransGen (SoloFile.CarefulNext hash)
      (SoloFile.opened hash surface seed head) s) :
    ∀ o ∈ s.replaced, o.Built :=
  (Runs.invariant h (fun _ _ hs hstep => hs.step hstep)
    (SoloFile.sound_opened surface seed head)).replaced

/-! ### A save onto what was spliced in, and one behind a conflict copy -/

/-- A file of one character that somebody else has put. -/
def oneLetter : SoloFile Unit ℕ (List ℕ) := SoloFile.opened id .source [1] (some ⟨[1], false⟩)

/-- Somebody's write is spliced in, and what is typed behind it is saved. -/
def spliced : List (SoloEvent Unit ℕ) :=
  [.write (some [1, 2]), .merge [1, 2] true false false, .type [1, 2, 3], .saveNow (),
    .arrive () .accept, .answer () .sha]

/-- A save is refused for a write that has nothing of it, its text is put beside the file, and what
is typed behind that is saved. -/
def copied : List (SoloEvent Unit ℕ) :=
  [.type [1, 2], .write (some [3]), .saveNow (), .arrive () .conflict, .look () true,
    .copied () true, .type [1, 2, 4], .saveNow (), .arrive () .accept]

/-- A step, if it is a careful one. -/
def carefulSoloStep (s : SoloFile Unit ℕ (List ℕ)) (ev : SoloEvent Unit ℕ) :
    Option (SoloFile Unit ℕ (List ℕ)) := if s.Careful id ev then s.step id ev else none

example : (spliced.foldlM carefulSoloStep oneLetter).map (·.replaced)
    = some [⟨[1, 2], [1, 2, 3], true⟩] := by decide

theorem spliced_possible : (spliced.foldlM carefulSoloStep oneLetter).isSome = true := by decide

/-- What was spliced in is replaced, and what replaces it was built on it. -/
theorem saved_on_spliced : Overwrite.Built (⟨[1, 2], [1, 2, 3], true⟩ : Overwrite ℕ) :=
  solo_saves_on_what_it_saw id .source [1] (some ⟨[1], false⟩)
    (Runs.of_events (fun _ ev _ hev => ⟨ev, fun _ _ _ hclash => hclash,
      Option.ite_none_right_eq_some.mp hev⟩) (Runs.possible spliced_possible)) _ (by decide)

theorem copied_replaces : (copied.foldlM (SoloFile.step id) oneLetter).map (·.replaced)
    = some [⟨[3], [1, 2, 4], false⟩] := by decide

/-- The save behind a conflict copy names the version that the copy was put beside, and erases
it. -/
theorem conflict_copy_erases : ¬ ∀ (surface : Surface) (seed : List ℕ)
    (head : Option (HeadVersion ℕ)) (s : SoloFile Unit ℕ (List ℕ)),
    Relation.ReflTransGen (SoloFile.Next id) (SoloFile.opened id surface seed head) s →
      ∀ o ∈ s.replaced, o.Built := by
  intro h
  obtain ⟨s, hrun, hreplaced⟩ := Option.map_eq_some_iff.mp copied_replaces
  have hbuilt := h .source [1] (some ⟨[1], false⟩) s
    (Runs.of_events (fun _ ev _ hev => ⟨ev, hev⟩) hrun) ⟨[3], [1, 2, 4], false⟩
    (hreplaced ▸ List.mem_cons_self)
  rcases hbuilt with hheld | hwithin
  · cases hheld
  · exact absurd (adds_iff.mpr hwithin) (by decide)

end Beardrive
