import Beardrive.Lib.Crdt
import Beardrive.Lib.Decimal
import Beardrive.Webapp.AgentPaths

/-!
# Marking up a page for editing

A page is served with a marker on every element whose text a reader may edit in place: the stretch
of the file that is the element's content. The walk is over the tokens of the file, and keeps a
stack of open elements of its own; an element is marked when it is closed, if it is the innermost
block that holds text.

Positions are counted in UTF-16 code units, as the browser counts them.

The tokenizer is not told here. What it makes of a file is a list of tokens, each with the bytes it
was read from.

## Main definitions

* `HtmlToken`, `OpenElem`, `Stamper` — tokens, open elements and the walk
* `Stamper.pop`, `Stamper.step`, `stampRun` — closing an element, one token, all of them
* `stampEditable` — the page that is served

## Main results

* `Stamper.closeImplied_keeps`, `Stamper.closeTo_keeps` — what closing one element keeps, a token
  that closes several keeps
-/

namespace Beardrive

/-! ### Elements -/

/-- `voidElements`. -/
def voidElements : List GoString :=
  [ascii "area", ascii "base", ascii "br", ascii "col", ascii "embed", ascii "hr", ascii "img",
    ascii "input", ascii "link", ascii "meta", ascii "param", ascii "source", ascii "track",
    ascii "wbr"]

/-- `inlineElements`. -/
def inlineElements : List GoString :=
  [ascii "a", ascii "abbr", ascii "b", ascii "bdi", ascii "bdo", ascii "cite", ascii "code",
    ascii "data", ascii "dfn", ascii "del", ascii "em", ascii "i", ascii "ins", ascii "kbd",
    ascii "mark", ascii "q", ascii "rp", ascii "rt", ascii "ruby", ascii "s", ascii "samp",
    ascii "small", ascii "span", ascii "strong", ascii "sub", ascii "sup", ascii "time", ascii "u",
    ascii "var", ascii "big", ascii "strike", ascii "tt", ascii "font", ascii "nobr",
    ascii "label"]

/-- `neverEditable`. -/
def neverEditable : List GoString :=
  [ascii "script", ascii "style", ascii "head", ascii "title", ascii "template", ascii "pre",
    ascii "textarea", ascii "svg"]

/-- `impliedBy`: the start tags that end an element. Elements whose end tag is not optional have
none. -/
def impliedBy (tag : GoString) : List GoString :=
  if tag = ascii "p" then
    [ascii "p", ascii "div", ascii "ul", ascii "ol", ascii "table", ascii "section",
      ascii "article", ascii "h1", ascii "h2", ascii "h3", ascii "h4", ascii "h5", ascii "h6",
      ascii "blockquote", ascii "pre", ascii "header", ascii "footer", ascii "nav", ascii "aside",
      ascii "form", ascii "hr", ascii "dl", ascii "figure"]
  else if tag = ascii "li" then [ascii "li"]
  else if tag = ascii "dt" ∨ tag = ascii "dd" then [ascii "dt", ascii "dd"]
  else if tag = ascii "td" ∨ tag = ascii "th" then [ascii "td", ascii "th", ascii "tr"]
  else if tag = ascii "tr" then [ascii "tr"]
  else if tag = ascii "option" then [ascii "option", ascii "optgroup"]
  else []

/-- `srcAttr`. -/
def srcAttr : GoString := ascii "data-bd-src"

/-! ### Tokens -/

/-- A start tag: the element's name in the table of known elements, empty for one that is not in
it, its name as it was read, and its attributes. -/
structure StartTag where
  tag : GoString
  name : GoString
  attrs : List (GoString × GoString) := []
  deriving DecidableEq

/-- A token, with the bytes it was read from. Self-closing tags, comments and document types are
all passed on. -/
inductive HtmlToken
  | text (raw : GoString)
  | startTag (raw : GoString) (tok : StartTag)
  | endTag (raw : GoString) (name : GoString)
  | other (raw : GoString)
  deriving DecidableEq

/-- `z.Raw`. -/
def HtmlToken.raw : HtmlToken → GoString
  | .text raw => raw
  | .startTag raw _ => raw
  | .endTag raw _ => raw
  | .other raw => raw

/-- The code units of a fragment: `utf16Len` of its bytes. -/
def unitLen (s : GoString) : ℕ := utf16Len (runes s)

/-- `hasSrcAttr`. -/
def hasSrcAttr (t : StartTag) : Bool := t.attrs.any fun a => equalFold a.1 srcAttr

/-- `dropSrcAttr`. -/
def dropSrcAttr (t : StartTag) : StartTag :=
  { t with attrs := t.attrs.filter fun a => !equalFold a.1 srcAttr }

/-- A piece of what is served: bytes of the file, a start tag that was built again without the
marker the file itself had, or one with a marker. -/
inductive OutChunk
  | bytes (raw : GoString)
  | tag (t : StartTag)
  | stamped (t : StartTag) (inner contentEnd : ℕ)
  deriving DecidableEq

/-! ### The walk -/

/-- `openElem`. -/
structure OpenElem where
  tag : GoString
  name : GoString
  chunk : ℕ
  inner : ℕ
  token : StartTag
  hasText : Bool := false
  hasStamped : Bool := false
  inert : Bool
  deriving DecidableEq

/-- `stamper`, with the position it has read to. The stack begins with its top. -/
structure Stamper where
  off : ℕ := 0
  out : List OutChunk := []
  stack : List OpenElem := []
  deriving DecidableEq

/-- The top of the stack learns of text and of marks in it. -/
def markTop (text stamped : Bool) : List OpenElem → List OpenElem
  | [] => []
  | e :: below =>
    { e with hasText := e.hasText || text, hasStamped := e.hasStamped || stamped } :: below

/-- Whether an element is marked when it is closed. -/
def OpenElem.stamps (e : OpenElem) (contentEnd : ℕ) (stampable : Bool) : Bool :=
  stampable && e.hasText && !e.hasStamped && !e.inert && e.inner ≤ contentEnd

/-- `pop`. -/
def Stamper.pop (s : Stamper) (contentEnd : ℕ) (stampable : Bool) : Stamper :=
  match s.stack with
  | [] => s
  | e :: below =>
    if e.tag ∈ inlineElements then { s with stack := markTop e.hasText e.hasStamped below }
    else
      let stamp := e.stamps contentEnd stampable
      { s with
        out := if stamp then s.out.set e.chunk (.stamped e.token e.inner contentEnd) else s.out
        stack := markTop false (stamp || e.hasStamped) below }

/-- `closeImplied`. Each turn takes one element from the stack, so there are as many turns as
elements at most. -/
def Stamper.closeImplied (opening : GoString) (start : ℕ) : ℕ → Stamper → Stamper
  | 0, s => s
  | n + 1, s =>
    match s.stack with
    | [] => s
    | e :: _ =>
      if opening ∈ impliedBy e.tag then closeImplied opening start n (s.pop start true) else s

/-- The elements above the one an end tag closes, and then that one. -/
def Stamper.closeTo (start : ℕ) : ℕ → Stamper → Stamper
  | 0, s => s.pop start true
  | n + 1, s =>
    match s.stack with
    | [] => s
    | e :: _ => closeTo start n (s.pop start (impliedBy e.tag ≠ []))

variable (T : CaseTables)

/-- `findOpen`, counted from the top. -/
def findOpen (name : GoString) (stack : List OpenElem) : Option ℕ :=
  stack.findIdx? fun e => T.equalFold e.name name

/-- One token. -/
def Stamper.step (s : Stamper) : HtmlToken → Stamper
  | .text raw =>
    { off := s.off + unitLen raw
      out := s.out ++ [.bytes raw]
      stack := if trimSpace raw ≠ [] then markTop true false s.stack else s.stack }
  | .startTag raw tok =>
    let own := hasSrcAttr tok
    let tok := if own then dropSrcAttr tok else tok
    let chunk := if own then .tag tok else .bytes raw
    if tok.tag ∈ voidElements then
      { s with off := s.off + unitLen raw, out := s.out ++ [chunk] }
    else
      let closed := s.closeImplied tok.tag s.off s.stack.length
      let inert := neverEditable.contains tok.tag || closed.stack.head?.any OpenElem.inert
      { off := s.off + unitLen raw
        out := closed.out ++ [chunk]
        stack := {
          tag := tok.tag, name := tok.name, chunk := closed.out.length
          inner := s.off + unitLen raw, token := tok, inert } :: closed.stack }
  | .endTag raw name =>
    match findOpen T name s.stack with
    | none => { s with off := s.off + unitLen raw, out := s.out ++ [.bytes raw] }
    | some i =>
      let closed := s.closeTo s.off i
      { closed with off := s.off + unitLen raw, out := closed.out ++ [.bytes raw] }
  | .other raw => { s with off := s.off + unitLen raw, out := s.out ++ [.bytes raw] }

/-- All tokens. -/
def stampRun (toks : List HtmlToken) : Stamper := toks.foldl (Stamper.step T) {}

/-! ### The page -/

/-- A piece as it is served. -/
def OutChunk.render (tagText : StartTag → GoString) : OutChunk → GoString
  | .bytes raw => raw
  | .tag t => tagText t
  | .stamped t inner contentEnd =>
    tagText { t with
      attrs := t.attrs ++ [(srcAttr, decimal inner ++ ascii "," ++ decimal contentEnd)] }

/-- A text in quotes that holds nothing to escape. -/
def inQuotes (s : GoString) : GoString := 0x22 :: s ++ [0x22]

/-- `stampEditable`. The text of a tag and the digest in hexadecimal are parameters. -/
def stampEditable (tagText : StartTag → GoString) (sum256 : GoString → GoString) (src : GoString)
    (toks : List HtmlToken) (scriptURL : GoString) : GoString :=
  (stampRun T toks).out.flatMap (OutChunk.render tagText) ++
    ascii "\n<script src=" ++ inQuotes scriptURL ++
    ascii " data-src-hash=" ++ inQuotes (sum256 src) ++
    ascii " data-src-len=" ++ inQuotes (decimal (unitLen src)) ++ ascii " defer></script>"

/-! ### Closing elements -/

section

variable {P : Stamper → Prop} {start : ℕ}

/-- What closing one element keeps, closing those that a start tag ends keeps. -/
theorem Stamper.closeImplied_keeps (hpop : ∀ s, P s → P (s.pop start true)) (opening : GoString)
    (n : ℕ) {s : Stamper} (h : P s) : P (s.closeImplied opening start n) := by
  induction n generalizing s with
  | zero => exact h
  | succ n ih =>
    rw [closeImplied]
    cases s.stack with
    | nil => exact h
    | cons e below =>
      dsimp only
      split_ifs
      · exact ih (hpop s h)
      · exact h

/-- What closing one element keeps, closing those that an end tag closes keeps. -/
theorem Stamper.closeTo_keeps (hpop : ∀ s b, P s → P (s.pop start b)) (n : ℕ) {s : Stamper}
    (h : P s) : P (s.closeTo start n) := by
  induction n generalizing s with
  | zero => exact hpop s true h
  | succ n ih =>
    rw [closeTo]
    cases s.stack with
    | nil => exact h
    | cons e below => exact ih (hpop s _ h)

end

end Beardrive
