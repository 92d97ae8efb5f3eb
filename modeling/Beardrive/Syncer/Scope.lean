import Beardrive.Journal.SafePath

/-!
# The write scope of a device

The hub tells a device which folders it may not write and which it may not even read. Both lists
are flat, and the device asks of a path only whether any prefix of either covers it.

## Main definitions

* `WriteScope`, `readOnlyPath` — the two lists and the question asked of them
* `sanePrefixes` — the prefixes of an answer the device will act on
* `ScopeAnswer`, `loadScope` — the refresh at the start of a cycle, and its fallbacks
-/

namespace Beardrive

/-- What the account of a session may not write: folders it may only read, and folders it may not
read either. -/
structure WriteScope where
  readOnly : List GoString := []
  denied : List GoString := []
  deriving DecidableEq, Repr

/-- Whether any of the prefixes covers `rel`. -/
def underAny (rel : GoString) (prefixes : List GoString) : Bool :=
  prefixes.any fun pre => hasPrefix rel pre

/-- Whether `rel` sits under a folder this account may not write. -/
def WriteScope.readOnlyPath (s : WriteScope) (rel : GoString) : Bool :=
  underAny rel s.readOnly || underAny rel s.denied

/-- The prefixes of the hub's answer this device will act on. -/
def sanePrefixes (answer : List GoString) : List GoString :=
  answer.filter fun p =>
    !(p == [] || p == [slash] || !hasSuffix p [slash] || !safePath (trimSuffix p [slash]))

/-- How a request for the scope can end. -/
inductive ScopeAnswer where
  /-- The remote has no such notion. -/
  | notScoper
  /-- The hub predates folder permissions. -/
  | noScope
  /-- The hub could not be asked. -/
  | unreachable
  | lists (readOnly deny : List GoString) (tag : GoString)
  deriving DecidableEq, Repr

/-- The scope a device remembers, and the tag of the answer it came from. -/
structure SavedScope where
  scope : WriteScope := {}
  scopeTag : GoString := []
  deriving DecidableEq, Repr

/-- `loadScope`: the scope of this cycle with its tag, and whether it moved. -/
def loadScope (saved : SavedScope) : ScopeAnswer → SavedScope × Bool
  | .notScoper => (saved, false)
  | .noScope => ({}, saved.scopeTag != [])
  | .unreachable => (saved, false)
  | .lists readOnly deny tag =>
    ({ scope := { readOnly := sanePrefixes readOnly, denied := sanePrefixes deny },
       scopeTag := tag }, saved.scopeTag != tag)

@[simp] theorem underAny_iff {rel : GoString} {prefixes : List GoString} :
    underAny rel prefixes = true ↔ ∃ pre ∈ prefixes, pre <+: rel := by
  simp [underAny]

theorem WriteScope.readOnlyPath_iff {s : WriteScope} {rel : GoString} :
    s.readOnlyPath rel = true ↔ ∃ pre ∈ s.readOnly ++ s.denied, pre <+: rel := by
  simp [WriteScope.readOnlyPath, or_and_right, exists_or]

theorem mem_sanePrefixes {answer : List GoString} {p : GoString} :
    p ∈ sanePrefixes answer ↔
      p ∈ answer ∧ p ≠ [slash] ∧ [slash] <:+ p ∧ safePath (trimSuffix p [slash]) = true := by
  simp only [sanePrefixes, List.mem_filter, Bool.not_eq_true', Bool.or_eq_false_iff, beq_eq_false_iff_ne,
    Bool.not_eq_false', hasSuffix_iff, ne_eq]
  constructor
  · rintro ⟨h, ⟨⟨-, h1⟩, h2⟩, h3⟩
    exact ⟨h, h1, h2, h3⟩
  · rintro ⟨h, h1, h2, h3⟩
    refine ⟨h, ⟨⟨?_, h1⟩, h2⟩, h3⟩
    rintro rfl
    simp at h2

/-- A folder that is a safe path is acted on. -/
theorem mem_sanePrefixes_of_safe {answer : List GoString} {p : GoString}
    (h : p ++ [slash] ∈ answer) (hp : safePath p = true) : p ++ [slash] ∈ sanePrefixes answer := by
  refine mem_sanePrefixes.mpr ⟨h, ?_, List.suffix_append _ _, by rwa [trimSuffix_append]⟩
  intro hslash
  obtain rfl : p = [] := by simpa using hslash
  exact absurd hp (by decide)

/-- What every prefix of a scope the hub answered looks like. -/
def WriteScope.Sane (s : WriteScope) : Prop :=
  ∀ pre ∈ s.readOnly ++ s.denied, ∃ folder, pre = folder ++ [slash] ∧ safePath folder = true

theorem sane_of_mem_sanePrefixes {answer : List GoString} {pre : GoString}
    (h : pre ∈ sanePrefixes answer) : ∃ folder, pre = folder ++ [slash] ∧ safePath folder = true := by
  obtain ⟨-, -, ⟨folder, rfl⟩, hsafe⟩ := mem_sanePrefixes.mp h
  exact ⟨folder, rfl, by rwa [trimSuffix_append] at hsafe⟩

/-- Whatever the hub answers, the scope of the cycle is as sane as the remembered one. -/
theorem loadScope_sane {saved : SavedScope} (h : saved.scope.Sane) (answer : ScopeAnswer) :
    (loadScope saved answer).1.scope.Sane := by
  cases answer with
  | notScoper => exact h
  | noScope => simp [loadScope, WriteScope.Sane]
  | unreachable => exact h
  | lists readOnly deny tag =>
    intro pre hpre
    rcases List.mem_append.mp hpre with hpre | hpre
    · exact sane_of_mem_sanePrefixes hpre
    · exact sane_of_mem_sanePrefixes hpre

end Beardrive
