import Beardrive.Journal.SafePath
import Mathlib.Data.List.Infix

/-!
# The ignore dialect

`.bdriveignore` holds one pattern a line in a subset of the gitignore syntax. A pattern compiles
to a regular expression over the whole path and to a literal that is compared directly where the
pattern holds no wildcard.

The expressions are always the same three parts: an opening that anchors the pattern or lets it
start behind any slash, the elements of its body, and a closing that also accepts everything
below a match. `regexMatch` runs the elements and the two ends are case splits, so no general
expression is needed.

## Two directions

`Filter.skip` is what the rules of the folder exclude. `Filter.skipUp` adds the rules this device
has accepted, which only ever narrow what leaves it.

## Main definitions

* `Pattern`, `compile`, `Pattern.matches` — one line of the dialect
* `Filter`, `loadFilter`, `Filter.acceptRules` — the rules in force
* `Filter.skip`, `Filter.skipUp`, `Filter.pruneDir` — what they exclude
* `vouchedFloor` — the floor of a device whose state predates the accepted rules
-/

namespace Beardrive

/-- The per-folder opt-out list at the mount root. -/
def ignoreFile : GoString := ascii ".bdriveignore"

/-! ### Regular expressions -/

/-- One element of a pattern: a literal, `[^/]`, `[^/]*` or `.*`. -/
inductive Elem where
  | lit (r : Rune)
  | one
  | star
  | deep
  deriving DecidableEq, Repr

/-- Whether a string splits into runes that satisfy `ok` and a rest that satisfies `k`. -/
def spanThen (ok : Rune → Bool) (k : List Rune → Bool) : List Rune → Bool
  | [] => k []
  | r :: s => k (r :: s) || (ok r && spanThen ok k s)

/-- `/`, as a rune. -/
def slashRune : Rune := 0x2F

/-- What `.` matches: everything but a line feed. -/
def notNewline (r : Rune) : Bool := r != 0x0A

/-- The closing of an expression: the end of the text, or everything inside the directory. -/
def matchTail (dirOnly : Bool) : List Rune → Bool
  | [] => !dirOnly
  | r :: s => r == slashRune && s.all notNewline

/-- The elements of an expression and its closing, from here to the end of the text. -/
def matchElems (dirOnly : Bool) : List Elem → List Rune → Bool
  | [], s => matchTail dirOnly s
  | .lit _ :: _, [] => false
  | .lit c :: es, r :: s => r == c && matchElems dirOnly es s
  | .one :: _, [] => false
  | .one :: es, r :: s => r != slashRune && matchElems dirOnly es s
  | .star :: es, s => spanThen (· != slashRune) (matchElems dirOnly es) s
  | .deep :: es, s => spanThen notNewline (matchElems dirOnly es) s

/-- Whether some slash is followed by a rest that satisfies `k`. -/
def afterSlash (k : List Rune → Bool) : List Rune → Bool
  | [] => false
  | r :: s => (r == slashRune && k s) || afterSlash k s

/-! ### Patterns -/

/-- One compiled line. The literals serve comparisons that need no expression. -/
structure Pattern where
  elems : List Elem := []
  negate : Bool := false
  lit : GoString := []
  slashLit : GoString := []
  exactSeg : GoString := []
  segPrefix : GoString := []
  segSuffix : GoString := []
  segInfix : GoString := []
  anchored : Bool := false
  dirOnly : Bool := false
  deriving DecidableEq, Repr

/-- `re.MatchString (rel)`. -/
def Pattern.regexMatch (p : Pattern) (rel : GoString) : Bool :=
  matchElems p.dirOnly p.elems (runes rel) ||
    (!p.anchored && afterSlash (matchElems p.dirOnly p.elems) (runes rel))

/-- Whether a pattern matches a path. -/
def Pattern.matches (p : Pattern) (rel : GoString) : Bool :=
  if p.exactSeg ≠ [] then
    if p.anchored then
      if p.dirOnly then hasPrefix rel p.segPrefix
      else rel == p.exactSeg || hasPrefix rel p.segPrefix
    else if p.dirOnly then hasPrefix rel p.segPrefix || contains rel p.segInfix
    else rel == p.exactSeg || hasPrefix rel p.segPrefix || hasSuffix rel p.segSuffix ||
      contains rel p.segInfix
  else if p.lit ≠ [] then
    if p.slashLit ≠ [] then
      if !hasPrefix rel p.lit && !contains rel p.slashLit then false else p.regexMatch rel
    else if !contains rel p.lit then false
    else p.regexMatch rel
  else p.regexMatch rel

/-- The white space of the dialect: ASCII only. -/
def ruleSpace (b : UInt8) : Bool := b == 0x20 || (0x09 ≤ b && b ≤ 0x0D)

/-- `\`. -/
def backslash : UInt8 := 0x5C

/-- Whether an odd run of backslashes ends the string whose reverse this is. -/
def escapedAt (rev : GoString) : Bool :=
  (rev.takeWhile fun b => b == backslash).length % 2 == 1

/-- Drop the white space at the end of a line, given in reverse, up to an escaped byte. -/
def trimRuleRight : GoString → GoString
  | [] => []
  | b :: rev => if ruleSpace b && !escapedAt rev then trimRuleRight rev else b :: rev

/-- Strip the padding around a rule line, except white space a backslash protects. -/
def trimRuleSpace (line : GoString) : GoString :=
  (trimRuleRight (line.dropWhile ruleSpace).reverse).reverse

/-- Drop the slashes at the end of a body, given in reverse, up to an escaped one. -/
def trimDirSlashes : GoString → GoString
  | [] => []
  | b :: rev => if b == slash && !escapedAt rev then trimDirSlashes rev else b :: rev

/-- Whether a body holds a slash no backslash protects. -/
def hasBareSlash : GoString → Bool
  | [] => false
  | b :: body =>
    if b == backslash then
      match body with
      | [] => false
      | _ :: body => hasBareSlash body
    else b == slash || hasBareSlash body

/-- A piece of the source of an expression: a quoted byte or a wildcard. -/
inductive Token where
  | byte (b : UInt8)
  | wild (e : Elem)
  deriving DecidableEq, Repr

/-- The state of the loop over a body: the expression so far, the current literal run, the whole
unescaped body, and the longest literal run with its position. -/
structure Build where
  source : List Token := []
  literal : GoString := []
  unescaped : GoString := []
  litStart : ℤ := -1
  litEnd : ℤ := -1
  lit : GoString := []
  wildcard : Bool := false
  deriving DecidableEq, Repr

/-- `flushLiteral`: the current run ends here; it is kept if it is the longest so far. -/
def Build.flush (s : Build) (stop : ℤ) : Build :=
  if s.literal = [] then s
  else
    let start := stop - s.literal.length
    if s.litStart < 0 ∨ s.litEnd - s.litStart < s.literal.length then
      { s with litStart := start, litEnd := stop, lit := s.literal, literal := [] }
    else { s with literal := [] }

/-- A byte that stands for itself. -/
def Build.byte (s : Build) (b : UInt8) : Build :=
  { s with source := s.source ++ [.byte b], literal := s.literal ++ [b],
           unescaped := s.unescaped ++ [b] }

/-- A wildcard at position `i`. -/
def Build.wild (s : Build) (i : ℤ) (e : Elem) : Build :=
  let s := s.flush i
  { s with source := s.source ++ [.wild e], wildcard := true }

/-- The loop over a body, from position `i` on. -/
def buildBody : ℤ → GoString → Build → Build
  | _, [], s => s
  | i, b :: body, s =>
    if b == backslash then
      match body with
      | [] => s.byte b
      | c :: body => buildBody (i + 2) body (s.byte c)
    else if b == 0x2A then
      match body with
      | [] => s.wild i .star
      | c :: body =>
        if c == 0x2A then buildBody (i + 2) body (s.wild i .deep)
        else buildBody (i + 1) (c :: body) (s.wild i .star)
    else if b == 0x3F then buildBody (i + 1) body (s.wild i .one)
    else buildBody (i + 1) body (s.byte b)

/-- The elements of an expression, read from its source; `run` holds the quoted bytes since the
last wildcard. A source that is not UTF-8 does not compile. -/
def elemsOf : List Token → GoString → Option (List Elem)
  | [], run => if validUTF8 run then some ((runes run).map .lit) else none
  | .byte b :: source, run => elemsOf source (run ++ [b])
  | .wild e :: source, run => do
    let rest ← elemsOf source []
    if validUTF8 run then some ((runes run).map .lit ++ e :: rest) else none

/-- Turn the body of a line into a pattern. -/
def compileBody (negate anchored dirOnly : Bool) (body : GoString) : Option Pattern :=
  let anchored := anchored || hasBareSlash body
  let s := (buildBody 0 body {}).flush body.length
  let lit := if dirOnly && s.lit != [] && s.litEnd == body.length then s.lit ++ [slash] else s.lit
  let slashLit := if !anchored && s.litStart == 0 && lit != [] then slash :: lit else []
  (elemsOf s.source []).map fun elems =>
    if s.wildcard then { elems, negate, lit, slashLit, anchored, dirOnly }
    else
      { elems, negate, lit, slashLit, anchored, dirOnly
        exactSeg := s.unescaped
        segPrefix := s.unescaped ++ [slash]
        segSuffix := if anchored then [] else slash :: s.unescaped
        segInfix := if anchored then [] else slash :: s.unescaped ++ [slash] }

/-- Turn one line into a pattern; blanks, comments and invalid patterns give none. -/
def compile (line : GoString) : Option Pattern :=
  let line := trimRuleSpace line
  if line = [] ∨ hasPrefix line (ascii "#") then none
  else
    let negate := hasPrefix line (ascii "!")
    let line := if negate then trimRuleSpace line.tail else line
    if line = [] then none
    else
      let anchored := hasPrefix line [slash]
      let body := line.dropWhile fun b => b == slash
      let trimmed := (trimDirSlashes body.reverse).reverse
      if trimmed = [] then none
      else compileBody negate anchored (trimmed.length < body.length) trimmed

/-- `strings.Split (text, "\n")`. -/
def splitLF (text : GoString) : List GoString := text.splitOn 0x0A

/-- The patterns of a whole file's text. -/
def compileRules (text : GoString) : List Pattern := (splitLF text).filterMap compile

/-! ### Filters -/

/-- Which paths sync. `isMount` asks the disk whether a directory is a mount of its own. -/
structure Filter where
  ignore : List Pattern := []
  include_ : List Pattern := []
  /-- Some rule re-includes, so that pruning directories is unsafe. -/
  negated : Bool := false
  /-- The ignore rules this device has accepted. -/
  upGuard : List Pattern := []
  isMount : GoString → Bool := fun _ => false

/-- The filter of a folder: its ignore file, if there is one, and the include list. -/
def loadFilter (ignoreText : Option GoString) (includes : List GoString)
    (isMount : GoString → Bool) : Filter :=
  let ignore := (ignoreText.map compileRules).getD []
  { ignore, include_ := includes.filterMap compile, negated := ignore.any (·.negate), isMount }

/-- Install the rules this device has accepted as the floor on what may be uploaded. -/
def Filter.acceptRules (f : Filter) (text : GoString) : Filter :=
  { f with upGuard := compileRules text }

/-- The directories a path lies in, the nearest first. -/
def ancestors (rel : GoString) : List GoString :=
  (((segments rel).dropLast.inits.tail).map joinSlash).reverse

/-- Whether any directory a path lies in is a mount of its own. -/
def Filter.underNestedMount (f : Filter) (rel : GoString) : Bool := (ancestors rel).any f.isMount

/-- The rules in order: the last match wins. -/
def ignoredBy (pats : List Pattern) (rel : GoString) : Bool :=
  match pats.reverse.find? (·.matches rel) with
  | some p => !p.negate
  | none => false

/-- Whether the ignore rules of the folder exclude a path. -/
def Filter.ignoredFile (f : Filter) (rel : GoString) : Bool := ignoredBy f.ignore rel

/-- Whether a file path should not sync. -/
def Filter.skip (f : Filter) (rel : GoString) : Bool :=
  if rel = ignoreFile then false
  else if f.underNestedMount rel || f.ignoredFile rel then true
  else if f.include_ = [] then false
  else !f.include_.any (·.matches rel)

/-- `skip` for the upload direction: the accepted rules may exclude it too. -/
def Filter.skipUp (f : Filter) (rel : GoString) : Bool :=
  if f.skip rel then true
  else if rel = ignoreFile ∨ f.upGuard = [] then false
  else ignoredBy f.upGuard rel

/-- Whether a whole directory can be skipped during the scan walk. -/
def Filter.pruneDir (f : Filter) (rel : GoString) : Bool :=
  if f.negated ∨ f.include_ ≠ [] then false else f.ignoredFile (rel ++ [slash])

/-- Whether the accepted rules, and they alone, keep a path from leaving. -/
def Filter.guarded (f : Filter) (rel : GoString) : Bool :=
  !(rel == ignoreFile || f.upGuard.isEmpty) && ignoredBy f.upGuard rel

/-- The accepted rules of a device whose state predates them: every exclusion, and those
re-inclusions that name a path which syncs already. -/
def vouchedFloor (text : GoString) (synced : List GoString) : GoString :=
  [0x0A].intercalate ((splitLF text).filter fun line =>
    match compile line with
    | some p => !(p.negate && !synced.any p.matches)
    | none => true)

theorem Filter.skipUp_eq (f : Filter) (rel : GoString) :
    f.skipUp rel = (f.skip rel || f.guarded rel) := by
  unfold Filter.skipUp Filter.guarded
  by_cases hs : f.skip rel <;> by_cases hr : rel = ignoreFile <;> by_cases hg : f.upGuard = [] <;>
    simp [hs, hr, hg]

@[simp] theorem Filter.acceptRules_skip (f : Filter) (text rel : GoString) :
    (f.acceptRules text).skip rel = f.skip rel := rfl

@[simp] theorem Filter.skip_ignoreFile (f : Filter) : f.skip ignoreFile = false := by
  simp [Filter.skip]

end Beardrive
