import Beardrive.Lib.Decimal
import Mathlib.Data.List.Forall2

/-!
# JSON texts

The scanner of `encoding/json`: one mode and a stack of open containers, one byte at a time. The
stack here also carries what the containers hold so far, so that accepting a text and reading its
value are one run. Nothing here refers to any particular program.

A string is kept as the bytes between its quotes and a number as its text, since a decoder
chooses what to make of them.

## What may follow

Only where a value begins does the scanner take an opening brace. Every text that is not blank
leaves that mode or enters a container, which is `Started`; so a text glued in front of an object
is refused, whatever it is (`parseJson_append_object`).

## Main definitions

* `Json` — a value, with strings and numbers still as text
* `Machine`, `Machine.step`, `parseJson` — the scanner

## Main results

* `run_literalString`, `run_decimal` — what the scanner makes of a quoted string and a number
* `parseJson_append_object` — nothing but white space may stand in front of an object
-/

namespace Beardrive

/-- A JSON value. -/
inductive Json where
  | null
  | bool (b : Bool)
  | num (text : GoString)
  | str (raw : GoString)
  | arr (items : List Json)
  | obj (fields : List (GoString × Json))

/-- An open container and what it holds so far: an object in front of a key's colon, an object in
front of the end of a value, or an array. -/
inductive Frame where
  | key (fields : List (GoString × Json))
  | value (fields : List (GoString × Json)) (key : GoString)
  | item (items : List Json)

/-- The words that are values. -/
inductive Word where
  | true
  | false
  | null
  deriving DecidableEq

/-- How a word is spelled. -/
def Word.text : Word → GoString
  | .true => ascii "true"
  | .false => ascii "false"
  | .null => ascii "null"

/-- What a word stands for. -/
def Word.value : Word → Json
  | .true => .bool Bool.true
  | .false => .bool Bool.false
  | .null => .null

/-- The state of the scanner. -/
inductive Mode where
  | beginValue
  | beginValueOrEmpty
  | beginString
  | beginStringOrEmpty
  | endValue (v : Json)
  | endTop (v : Json)
  | inString (raw : GoString)
  | inStringEsc (raw : GoString)
  /-- Behind `\u`, with so many digits to come. -/
  | inStringEscU (left : ℕ) (raw : GoString)
  | neg (text : GoString)
  | int1 (text : GoString)
  | int0 (text : GoString)
  | dot (text : GoString)
  | dot0 (text : GoString)
  | exp (text : GoString)
  | expSign (text : GoString)
  | exp0 (text : GoString)
  /-- Behind so many letters of a word. -/
  | word (w : Word) (done : ℕ)
  | error

/-- The scanner and the containers it is in, the innermost first. -/
structure Machine where
  mode : Mode := .beginValue
  stack : List Frame := []

/-! ### Writing -/

/-- The text of a value that holds no others. -/
def Json.scalarText : Json → GoString
  | .null => Word.null.text
  | .bool b => if b then Word.true.text else Word.false.text
  | .num text => text
  | .str raw => 0x22 :: raw ++ [0x22]
  | _ => []

/-- A hexadecimal digit of a number below sixteen. -/
def hexChar (d : ℕ) : UInt8 := if d < 10 then digit d else UInt8.ofNat (0x57 + d)

/-- The bytes that stand for themselves in a string that is safe to embed in HTML. -/
def htmlSafe (b : UInt8) : Bool :=
  0x20 ≤ b && b < 0x80 && !(ascii "\"&<>\\").contains b

/-- How an ASCII byte is written. -/
def quoteByte (b : UInt8) : GoString :=
  if htmlSafe b then [b]
  else if b = 0x5C ∨ b = 0x22 then [0x5C, b]
  else if b = 0x08 then ascii "\\b"
  else if b = 0x0C then ascii "\\f"
  else if b = 0x0A then ascii "\\n"
  else if b = 0x0D then ascii "\\r"
  else if b = 0x09 then ascii "\\t"
  else ascii "\\u00" ++ [hexChar (b.toNat / 16), hexChar (b.toNat % 16)]

/-- How one step of a decoding loop is written. -/
def quoteChunk (c : Rune × GoString) : GoString :=
  match c.2 with
  | [b] => if b < 0x80 then quoteByte b else ascii "\\ufffd"
  | bytes =>
    if c.1 = 0x2028 then ascii "\\u2028"
    else if c.1 = 0x2029 then ascii "\\u2029"
    else bytes

/-- What stands between the quotes of an encoded string. -/
def quoteBody (s : GoString) : GoString := (decodeAll s).flatMap quoteChunk

/-- An encoded string. -/
def quote (s : GoString) : GoString := 0x22 :: quoteBody s ++ [0x22]

/-- An integer in decimal. -/
def formatInt (z : ℤ) : GoString :=
  if z < 0 then 0x2D :: decimal z.natAbs else decimal z.natAbs

theorem formatInt_injective : Function.Injective formatInt := by
  have hsign (n m : ℕ) : 0x2D :: decimal n ≠ decimal m := by
    obtain ⟨d, rest, heq, hd, -⟩ := decimal_cons m
    rw [heq]
    rintro ⟨⟩
    exact absurd hd (by decide)
  intro y z h
  unfold formatInt at h
  split at h <;> split at h
  · have := decimal_injective (List.cons.inj h).2
    omega
  · exact absurd h (hsign _ _)
  · exact absurd h.symm (hsign _ _)
  · have := decimal_injective h
    omega

/-- The members of an object, each behind `next` or a comma. -/
def members (next : UInt8) : List (GoString × GoString) → GoString
  | [] => []
  | (key, text) :: fields => next :: quote key ++ 0x3A :: text ++ members 0x2C fields

/-- An encoded object with at least one member. -/
def objectText (fields : List (GoString × GoString)) : GoString := members 0x7B fields ++ [0x7D]

namespace Machine

/-- `maxNestingDepth`. -/
def maxDepth : ℕ := 10000

/-- The white space of JSON. -/
def space (c : UInt8) : Bool := c == 0x20 || c == 0x09 || c == 0x0D || c == 0x0A

/-- A hexadecimal digit. -/
def hex (c : UInt8) : Bool :=
  digitByte c || (0x61 ≤ c && c ≤ 0x66) || (0x41 ≤ c && c ≤ 0x46)

/-- Refuse the text. -/
def fail (stack : List Frame) : Machine := ⟨.error, stack⟩

/-- `pushParseState`. -/
def push (mode : Mode) (frame : Frame) (stack : List Frame) : Machine :=
  if stack.length < maxDepth then ⟨mode, frame :: stack⟩ else fail (frame :: stack)

/-- `popParseState`, with the value of the container that was closed. -/
def pop (v : Json) (stack : List Frame) : Machine :=
  if stack.isEmpty then ⟨.endTop v, stack⟩ else ⟨.endValue v, stack⟩

/-- `stateEndTop`. -/
def endTop (v : Json) (stack : List Frame) (c : UInt8) : Machine :=
  if space c then ⟨.endTop v, stack⟩ else fail stack

/-- `stateEndValue`. -/
def endValue (v : Json) (stack : List Frame) (c : UInt8) : Machine :=
  match stack with
  | [] => endTop v [] c
  | frame :: rest =>
    if space c then ⟨.endValue v, stack⟩
    else match frame, v with
      | .key fields, .str key => if c == 0x3A then ⟨.beginValue, .value fields key :: rest⟩
        else fail stack
      | .key _, _ => fail stack
      | .value fields key, v =>
        if c == 0x2C then ⟨.beginString, .key (fields ++ [(key, v)]) :: rest⟩
        else if c == 0x7D then pop (.obj (fields ++ [(key, v)])) rest
        else fail stack
      | .item items, v =>
        if c == 0x2C then ⟨.beginValue, .item (items ++ [v]) :: rest⟩
        else if c == 0x5D then pop (.arr (items ++ [v])) rest
        else fail stack

/-- `stateBeginValue`. -/
def beginValue (stack : List Frame) (c : UInt8) : Machine :=
  if space c then ⟨.beginValue, stack⟩
  else if c == 0x7B then push .beginStringOrEmpty (.key []) stack
  else if c == 0x5B then push .beginValueOrEmpty (.item []) stack
  else if c == 0x22 then ⟨.inString [], stack⟩
  else if c == 0x2D then ⟨.neg [c], stack⟩
  else if c == 0x30 then ⟨.int0 [c], stack⟩
  else if c == 0x74 then ⟨.word .true 1, stack⟩
  else if c == 0x66 then ⟨.word .false 1, stack⟩
  else if c == 0x6E then ⟨.word .null 1, stack⟩
  else if digitByte c then ⟨.int1 [c], stack⟩
  else fail stack

/-- `stateBeginString`. -/
def beginString (stack : List Frame) (c : UInt8) : Machine :=
  if space c then ⟨.beginString, stack⟩
  else if c == 0x22 then ⟨.inString [], stack⟩
  else fail stack

/-- `state0`: behind a number that takes no more digits in front of its dot. -/
def int0 (text : GoString) (stack : List Frame) (c : UInt8) : Machine :=
  if c == 0x2E then ⟨.dot (text ++ [c]), stack⟩
  else if c == 0x65 || c == 0x45 then ⟨.exp (text ++ [c]), stack⟩
  else endValue (.num text) stack c

/-- One byte. -/
def step (m : Machine) (c : UInt8) : Machine :=
  let stack := m.stack
  match m.mode with
  | .beginValue => beginValue stack c
  | .beginValueOrEmpty =>
    if space c then m
    else if c == 0x5D then
      match stack with
      | .item items :: rest => pop (.arr items) rest
      | _ => fail stack
    else beginValue stack c
  | .beginString => beginString stack c
  | .beginStringOrEmpty =>
    if space c then m
    else if c == 0x7D then
      match stack with
      | .key fields :: rest => pop (.obj fields) rest
      | _ => fail stack
    else beginString stack c
  | .endValue v => endValue v stack c
  | .endTop v => endTop v stack c
  | .inString raw =>
    if c == 0x22 then ⟨.endValue (.str raw), stack⟩
    else if c == 0x5C then ⟨.inStringEsc (raw ++ [c]), stack⟩
    else if c < 0x20 then fail stack
    else ⟨.inString (raw ++ [c]), stack⟩
  | .inStringEsc raw =>
    if (ascii "bfnrt\\/\"").contains c then ⟨.inString (raw ++ [c]), stack⟩
    else if c == 0x75 then ⟨.inStringEscU 4 (raw ++ [c]), stack⟩
    else fail stack
  | .inStringEscU left raw =>
    if hex c then
      if left ≤ 1 then ⟨.inString (raw ++ [c]), stack⟩
      else ⟨.inStringEscU (left - 1) (raw ++ [c]), stack⟩
    else fail stack
  | .neg text =>
    if c == 0x30 then ⟨.int0 (text ++ [c]), stack⟩
    else if digitByte c then ⟨.int1 (text ++ [c]), stack⟩
    else fail stack
  | .int1 text => if digitByte c then ⟨.int1 (text ++ [c]), stack⟩ else int0 text stack c
  | .int0 text => int0 text stack c
  | .dot text => if digitByte c then ⟨.dot0 (text ++ [c]), stack⟩ else fail stack
  | .dot0 text =>
    if digitByte c then ⟨.dot0 (text ++ [c]), stack⟩
    else if c == 0x65 || c == 0x45 then ⟨.exp (text ++ [c]), stack⟩
    else endValue (.num text) stack c
  | .exp text =>
    if c == 0x2B || c == 0x2D then ⟨.expSign (text ++ [c]), stack⟩
    else if digitByte c then ⟨.exp0 (text ++ [c]), stack⟩
    else fail stack
  | .expSign text => if digitByte c then ⟨.exp0 (text ++ [c]), stack⟩ else fail stack
  | .exp0 text =>
    if digitByte c then ⟨.exp0 (text ++ [c]), stack⟩ else endValue (.num text) stack c
  | .word w done =>
    if w.text[done]? == some c then
      if w.text.length ≤ done + 1 then ⟨.endValue w.value, stack⟩ else ⟨.word w (done + 1), stack⟩
    else fail stack
  | .error => m

/-- A whole text. -/
def run (m : Machine) (s : GoString) : Machine := s.foldl step m

/-- `eof`: a value must have been completed, or be completed by white space. -/
def finish (m : Machine) : Option Json :=
  match m.mode with
  | .endTop v => some v
  | _ =>
    match (m.step 0x20).mode with
    | .endTop v => some v
    | _ => none

end Machine

/-- The value of a text, if it is one. -/
def parseJson (s : GoString) : Option Json := (Machine.run {} s).finish

namespace Machine

/-! ### Runs -/

@[simp] theorem run_nil (m : Machine) : m.run [] = m := rfl

@[simp] theorem run_cons (m : Machine) (c : UInt8) (s : GoString) :
    m.run (c :: s) = (m.step c).run s := rfl

theorem run_append (m : Machine) (s t : GoString) : m.run (s ++ t) = (m.run s).run t :=
  List.foldl_append

/-- A refused text stays refused. -/
theorem run_error (stack : List Frame) (s : GoString) : (fail stack).run s = fail stack := by
  induction s with
  | nil => rfl
  | cons c s ih => exact ih

theorem finish_error (stack : List Frame) : (fail stack).finish = none := rfl

/-! ### What may follow -/

/-- A value does not begin here unless inside a container. -/
def Started (m : Machine) : Prop :=
  m.mode = .beginValue ∨ m.mode = .beginValueOrEmpty → m.stack ≠ []

theorem started_fail (stack : List Frame) : Started (fail stack) := by
  rintro (h | h) <;> simp [fail] at h

theorem started_push {mode : Mode} {frame : Frame} {stack : List Frame} :
    Started (push mode frame stack) := by
  unfold push
  split
  · exact fun _ => by simp
  · exact started_fail _

theorem started_pop {v : Json} {stack : List Frame} : Started (pop v stack) := by
  unfold pop
  split <;> (rintro (h | h) <;> simp at h)

theorem started_endTop {v : Json} {stack : List Frame} {c : UInt8} :
    Started (endTop v stack c) := by
  unfold endTop
  split
  · rintro (h | h) <;> simp at h
  · exact started_fail _

theorem started_endValue {v : Json} {stack : List Frame} {c : UInt8} :
    Started (endValue v stack c) := by
  unfold endValue
  split
  · exact started_endTop
  · split
    · rintro (h | h) <;> simp at h
    · split
      · split
        · exact fun _ => by simp
        · exact started_fail _
      · exact started_fail _
      · split
        · exact fun _ => by simp
        · split
          · exact started_pop
          · exact started_fail _
      · split
        · exact fun _ => by simp
        · split
          · exact started_pop
          · exact started_fail _

/-- What a value may begin with: what holds of every state it leads to holds behind its first
byte. -/
theorem beginValue_rule {P : Machine → Prop} {stack : List Frame} {c : UInt8}
    (hspace : space c = true → P ⟨.beginValue, stack⟩)
    (hobj : P (push .beginStringOrEmpty (.key []) stack))
    (harr : P (push .beginValueOrEmpty (.item []) stack)) (hstring : P ⟨.inString [], stack⟩)
    (hneg : ∀ text, P ⟨.neg text, stack⟩) (hzero : ∀ text, P ⟨.int0 text, stack⟩)
    (hint : ∀ text, P ⟨.int1 text, stack⟩) (hword : ∀ w n, P ⟨.word w n, stack⟩)
    (hfail : P (fail stack)) : P (beginValue stack c) :=
  iteInduction hspace fun _ => iteInduction (fun _ => hobj) fun _ => iteInduction (fun _ => harr)
    fun _ => iteInduction (fun _ => hstring) fun _ => iteInduction (fun _ => hneg _) fun _ =>
    iteInduction (fun _ => hzero _) fun _ => iteInduction (fun _ => hword _ _) fun _ =>
    iteInduction (fun _ => hword _ _) fun _ => iteInduction (fun _ => hword _ _) fun _ =>
    iteInduction (fun _ => hint _) fun _ => hfail

theorem started_beginValue {stack : List Frame} {c : UInt8} (h : stack ≠ [] ∨ space c = false) :
    Started (beginValue stack c) := by
  have hother {mode : Mode} (hbegin : mode ≠ .beginValue) (hempty : mode ≠ .beginValueOrEmpty) :
      Started ⟨mode, stack⟩ := fun hmode => (hmode.elim hbegin hempty).elim
  refine beginValue_rule (fun hc _ => h.resolve_right ?_) started_push started_push
    (hother nofun nofun) (fun _ => hother nofun nofun) (fun _ => hother nofun nofun)
    (fun _ => hother nofun nofun) (fun _ _ => hother nofun nofun) (started_fail _)
  rw [hc]
  nofun

theorem started_beginString {stack : List Frame} {c : UInt8} :
    Started (beginString stack c) := by
  unfold beginString
  split_ifs
  · rintro (h | h) <;> simp at h
  · rintro (h | h) <;> simp at h
  · exact started_fail _

theorem started_int0 {text : GoString} {stack : List Frame} {c : UInt8} :
    Started (int0 text stack c) := by
  unfold int0
  split_ifs
  · rintro (h | h) <;> simp at h
  · rintro (h | h) <;> simp at h
  · exact started_endValue

/-- A byte that is not white space starts a text, and what has started stays so. -/
theorem started_step {m : Machine} {c : UInt8} (h : Started m ∨ space c = false) :
    Started (m.step c) := by
  obtain ⟨mode, stack⟩ := m
  have hstack (hm : mode = .beginValue ∨ mode = .beginValueOrEmpty) :
      stack ≠ [] ∨ space c = false := h.imp_left fun h => h hm
  cases mode with
  | beginValue => exact started_beginValue (hstack (.inl rfl))
  | beginValueOrEmpty =>
    simp only [step]
    split
    · exact fun _ => (hstack (.inr rfl)).resolve_right (by simp_all)
    · split
      · split
        · exact started_pop
        · exact started_fail _
      · exact started_beginValue (hstack (.inr rfl))
  | beginString => exact started_beginString
  | beginStringOrEmpty =>
    simp only [step]
    split
    · rintro (h | h) <;> simp at h
    · split
      · split
        · exact started_pop
        · exact started_fail _
      · exact started_beginString
  | endValue v => exact started_endValue
  | endTop v => exact started_endTop
  | int1 text =>
    simp only [step]
    split
    · rintro (h | h) <;> simp at h
    · exact started_int0
  | int0 text => exact started_int0
  | dot0 text =>
    simp only [step]
    split_ifs
    · rintro (h | h) <;> simp at h
    · rintro (h | h) <;> simp at h
    · exact started_endValue
  | exp0 text =>
    simp only [step]
    split_ifs
    · rintro (h | h) <;> simp at h
    · exact started_endValue
  | error => rintro (h | h) <;> simp [step] at h
  | _ =>
    simp only [step]
    split_ifs <;>
      first
      | exact started_fail _
      | (rintro (h | h) <;> simp at h)

theorem started_run {m : Machine} {s : GoString} (h : Started m ∨ ∃ c ∈ s, space c = false) :
    Started (m.run s) := by
  induction s generalizing m with
  | nil => exact h.resolve_right (by simp)
  | cons c s ih =>
    rw [run_cons]
    refine ih ?_
    rcases h with h | ⟨d, hd, hspace⟩
    · exact .inl (started_step (.inl h))
    · rcases List.mem_cons.mp hd with rfl | hd
      · exact .inl (started_step (.inr hspace))
      · exact .inr ⟨d, hd, hspace⟩

/-! ### Reading what was written -/

/-- A text that stands inside a string as it is. -/
def Inside (s : GoString) : Prop :=
  ∀ raw stack, run ⟨.inString raw, stack⟩ s = ⟨.inString (raw ++ s), stack⟩

theorem Inside.append {s t : GoString} (hs : Inside s) (ht : Inside t) : Inside (s ++ t) := by
  intro raw stack
  rw [run_append, hs, ht, List.append_assoc]

theorem inside_nil : Inside [] := fun raw stack => by rw [run_nil, List.append_nil]

theorem inside_flatMap {α : Type*} {f : α → GoString} {l : List α}
    (h : ∀ a ∈ l, Inside (f a)) : Inside (l.flatMap f) := by
  induction l with
  | nil => exact inside_nil
  | cons a l ih =>
    rw [List.flatMap_cons]
    exact (h a List.mem_cons_self).append (ih fun b hb => h b (List.mem_cons_of_mem _ hb))

/-- A byte that is no quote, no backslash and no control character stands for itself. -/
theorem inside_singleton {c : UInt8} (hq : c ≠ 0x22) (hb : c ≠ 0x5C) (hc : 0x20 ≤ c) :
    Inside [c] := by
  intro raw stack
  simp [step, hq, hb, hc.not_gt]

theorem inside_of_forall {s : GoString} (h : ∀ c ∈ s, c ≠ 0x22 ∧ c ≠ 0x5C ∧ 0x20 ≤ c) :
    Inside s := by
  have := inside_flatMap (f := fun c : UInt8 => [c]) (l := s) fun c hc =>
    inside_singleton (h c hc).1 (h c hc).2.1 (h c hc).2.2
  rwa [List.flatMap_singleton'] at this

theorem inside_escape {c : UInt8} (h : (ascii "bfnrt\\/\"").contains c = true) :
    Inside [0x5C, c] := by
  intro raw stack
  have hesc : step ⟨.inString raw, stack⟩ 0x5C = ⟨.inStringEsc (raw ++ [0x5C]), stack⟩ := rfl
  have hchar : step ⟨.inStringEsc (raw ++ [0x5C]), stack⟩ c
      = ⟨.inString (raw ++ [0x5C] ++ [c]), stack⟩ := if_pos h
  rw [run_cons, hesc, run_cons, hchar, run_nil, List.append_assoc]
  rfl

theorem inside_unicode {a b c d : UInt8} (ha : hex a) (hb : hex b) (hc : hex c) (hd : hex d) :
    Inside [0x5C, 0x75, a, b, c, d] := by
  intro raw stack
  have hesc : run ⟨.inString raw, stack⟩ [0x5C, 0x75]
      = ⟨.inStringEscU 4 (raw ++ [0x5C] ++ [0x75]), stack⟩ := rfl
  have hdigit (left : ℕ) (raw : GoString) (c : UInt8) (hc : hex c = true) :
      step ⟨.inStringEscU (left + 2) raw, stack⟩ c
        = ⟨.inStringEscU (left + 1) (raw ++ [c]), stack⟩ := by
    simp [step, hc]
  have hlast (raw : GoString) (c : UInt8) (hc : hex c = true) :
      step ⟨.inStringEscU 1 raw, stack⟩ c = ⟨.inString (raw ++ [c]), stack⟩ := if_pos hc
  rw [show [0x5C, 0x75, a, b, c, d] = [0x5C, 0x75] ++ [a, b, c, d] from rfl, run_append, hesc]
  simp only [run_cons, run_nil, hdigit 2 _ a ha, hdigit 1 _ b hb, hdigit 0 _ c hc, hlast _ d hd,
    List.append_assoc, List.cons_append, List.nil_append]

theorem hex_hexChar {d : ℕ} (h : d < 16) : hex (hexChar d) = true := by
  have : ∀ d : Fin 16, hex (hexChar d) = true := by decide
  exact this ⟨d, h⟩

theorem inside_quoteByte (b : UInt8) (h : b < 0x80) : Inside (quoteByte b) := by
  unfold quoteByte
  split_ifs with h1 h2
  · simp only [htmlSafe, Bool.and_eq_true, decide_eq_true_eq, Bool.not_eq_true'] at h1
    refine inside_singleton ?_ ?_ h1.1.1
    · rintro rfl
      exact absurd h1.2 (by decide)
    · rintro rfl
      exact absurd h1.2 (by decide)
  · rcases h2 with rfl | rfl
    · exact inside_escape (by decide)
    · exact inside_escape (by decide)
  · exact inside_escape (by decide)
  · exact inside_escape (by decide)
  · exact inside_escape (by decide)
  · exact inside_escape (by decide)
  · exact inside_escape (by decide)
  · have hb := b.toNat_lt
    exact inside_unicode (by decide) (by decide) (hex_hexChar (by omega)) (hex_hexChar (by omega))

theorem inside_quoteChunk {c : Rune × GoString} (h : decodeRune c.2 = (c.1, c.2.length)) :
    Inside (quoteChunk c) := by
  obtain ⟨r, bytes⟩ := c
  unfold quoteChunk
  split
  · split
    · exact inside_quoteByte _ ‹_›
    · exact inside_unicode (by decide) (by decide) (by decide) (by decide)
  · split_ifs
    · exact inside_unicode (by decide) (by decide) (by decide) (by decide)
    · exact inside_unicode (by decide) (by decide) (by decide) (by decide)
    · rename_i hsingle _ _
      rcases bytes with _ | ⟨b, _ | ⟨b', bytes⟩⟩
      · exact inside_nil
      · exact absurd rfl (hsingle b)
      · refine inside_of_forall fun c hc => ?_
        have := le_of_mem_of_decodeRune h (by simp) c hc
        refine ⟨?_, ?_, le_trans (by decide) this⟩
        · rintro rfl
          exact absurd this (by decide)
        · rintro rfl
          exact absurd this (by decide)

/-- **An encoded string stands inside its quotes.** -/
theorem inside_quoteBody (s : GoString) : Inside (quoteBody s) :=
  inside_flatMap fun _ hc => inside_quoteChunk (decodeRune_of_mem_decodeAll hc)

/-- Nothing is written between quotes as a control character. -/
theorem le_of_mem_quoteBody {s : GoString} {b : UInt8} (h : b ∈ quoteBody s) : 0x20 ≤ b := by
  have hescape (s : GoString) (hs : s.all (0x20 ≤ ·) = true) (hb : b ∈ s) : 0x20 ≤ b := by
    simpa using List.all_eq_true.mp hs b hb
  have hascii : ((List.range 128).all fun n =>
      (quoteByte (UInt8.ofNat n)).all (0x20 ≤ ·)) = true := by decide
  have hbyte {a : UInt8} (ha : a < 0x80) : ∀ b ∈ quoteByte a, 0x20 ≤ b := by
    have := List.all_eq_true.mp hascii a.toNat (List.mem_range.mpr (UInt8.lt_iff_toNat_lt.mp ha))
    rw [UInt8.ofNat_toNat] at this
    exact fun b hb => of_decide_eq_true (List.all_eq_true.mp this b hb)
  obtain ⟨⟨r, bytes⟩, hc, hb⟩ := List.mem_flatMap.mp h
  have hdecode := decodeRune_of_mem_decodeAll hc
  rcases bytes with _ | ⟨a, _ | ⟨a', bytes⟩⟩
  · exact absurd rfl (decodeAll_ne_nil hc)
  · simp only [quoteChunk] at hb
    split_ifs at hb with ha
    · exact hbyte ha b hb
    · exact hescape _ (by decide) hb
  · simp only [quoteChunk] at hb
    split_ifs at hb
    · exact hescape _ (by decide) hb
    · exact hescape _ (by decide) hb
    · exact le_trans (by decide) (le_of_mem_of_decodeRune hdecode (by simp) b hb)

theorem le_of_mem_quote {s : GoString} {b : UInt8} (h : b ∈ quote s) : 0x20 ≤ b := by
  simp only [quote, List.cons_append, List.mem_cons, List.mem_append, List.not_mem_nil,
    or_false] at h
  rcases h with rfl | h | rfl
  · decide
  · exact le_of_mem_quoteBody h
  · decide

theorem le_of_mem_formatInt {z : ℤ} {b : UInt8} (h : b ∈ formatInt z) : 0x20 ≤ b := by
  have hdigit {n : ℕ} (h : b ∈ decimal n) : 0x20 ≤ b := by
    have hb := digitByte_of_mem_decimal h
    simp only [digitByte, Bool.and_eq_true, decide_eq_true_eq] at hb
    exact le_trans (by decide) hb.1
  unfold formatInt at h
  split at h
  · rcases List.mem_cons.mp h with rfl | h
    · decide
    · exact hdigit h
  · exact hdigit h

/-- Nothing is written in an object as a control character but what its values hold. -/
theorem le_of_mem_members {texts : List (GoString × GoString)}
    (h : ∀ text ∈ texts, ∀ b ∈ text.2, 0x20 ≤ b) (next : UInt8) (hnext : 0x20 ≤ next) :
    ∀ b ∈ members next texts, 0x20 ≤ b := by
  induction texts generalizing next with
  | nil => simp [members]
  | cons text texts ih =>
    intro b hb
    simp only [members, List.cons_append, List.append_assoc, List.mem_cons, List.mem_append] at hb
    rcases hb with rfl | hb | rfl | hb | hb
    · exact hnext
    · exact le_of_mem_quote hb
    · decide
    · exact h text List.mem_cons_self b hb
    · exact ih (fun text' h' => h text' (List.mem_cons_of_mem _ h')) 0x2C (by decide) b hb

/-- A text the scanner reads as one value where a value may begin inside an object. -/
def Denotes (text : GoString) (v : Json) : Prop :=
  ∀ stack c rest, c = 0x2C ∨ c = 0x7D →
    run ⟨.beginValue, stack⟩ (text ++ c :: rest) = run (endValue v stack c) rest

theorem run_quote (s : GoString) (stack : List Frame) (rest : GoString) :
    run ⟨.inString [], stack⟩ (quoteBody s ++ 0x22 :: rest)
      = run ⟨.endValue (.str (quoteBody s)), stack⟩ rest := by
  rw [run_append, inside_quoteBody, run_cons, List.nil_append]
  rfl

/-- A text that stays inside a string is one between quotes. -/
theorem Inside.denotes {raw : GoString} (h : Inside raw) :
    Denotes (0x22 :: raw ++ [0x22]) (.str raw) := by
  intro stack c rest _
  have hbegin : step ⟨.beginValue, stack⟩ 0x22 = ⟨.inString [], stack⟩ := rfl
  rw [List.append_assoc, List.cons_append, run_cons, hbegin, List.singleton_append, run_append, h,
    run_cons, run_cons, List.nil_append]
  rfl

theorem run_digits {s : GoString} (h : ∀ b ∈ s, digitByte b = true) (text : GoString)
    (stack : List Frame) : run ⟨.int1 text, stack⟩ s = ⟨.int1 (text ++ s), stack⟩ := by
  induction s generalizing text with
  | nil => rw [run_nil, List.append_nil]
  | cons b s ih =>
    have hb : step ⟨.int1 text, stack⟩ b = ⟨.int1 (text ++ [b]), stack⟩ := by
      simp [step, h b List.mem_cons_self]
    rw [run_cons, hb, ih fun c hc => h c (List.mem_cons_of_mem _ hc), List.append_assoc]
    rfl

/-- A comma or a closing brace ends a number. -/
theorem step_number {c : UInt8} (hc : c = 0x2C ∨ c = 0x7D) (text : GoString) (stack : List Frame) :
    step ⟨.int1 text, stack⟩ c = endValue (.num text) stack c ∧
      step ⟨.int0 text, stack⟩ c = endValue (.num text) stack c := by
  rcases hc with rfl | rfl <;> exact ⟨rfl, rfl⟩

/-- Reading a decimal, where a number begins or behind its sign. -/
theorem run_decimal (n : ℕ) (pre : GoString) (m : Machine) {stack : List Frame} {c : UInt8}
    (hc : c = 0x2C ∨ c = 0x7D) (rest : GoString)
    (hzero : m.step 0x30 = ⟨.int0 (pre ++ [0x30]), stack⟩)
    (hdigit : ∀ d, digitByte d = true → d ≠ 0x30 → m.step d = ⟨.int1 (pre ++ [d]), stack⟩) :
    m.run (decimal n ++ c :: rest) = run (endValue (.num (pre ++ decimal n)) stack c) rest := by
  obtain ⟨d, digits, heq, hd, hdigits, hlead⟩ := decimal_cons n
  rw [heq, List.cons_append, run_cons]
  by_cases h0 : d = 0x30
  · rw [h0, hlead h0, hzero, List.nil_append, run_cons, (step_number hc _ _).2]
  · rw [hdigit d hd h0, run_append, run_digits hdigits, run_cons, (step_number hc _ _).1,
      List.append_assoc]
    rfl

theorem denotes_formatInt (z : ℤ) : Denotes (formatInt z) (.num (formatInt z)) := by
  intro stack c rest hc
  have hne {d : UInt8} (hd : digitByte d = true) (b : UInt8) (hb : digitByte b = false) :
      d ≠ b := by
    rintro rfl
    simp [hd] at hb
  unfold formatInt
  split
  · have hneg : step ⟨.beginValue, stack⟩ 0x2D = ⟨.neg [0x2D], stack⟩ := rfl
    rw [List.cons_append, run_cons, hneg]
    exact run_decimal _ [0x2D] _ hc rest rfl fun d hd h0 => by simp [step, hd, h0]
  · refine run_decimal _ [] _ hc rest rfl fun d hd h0 => ?_
    have hspace : space d = false := by
      simp [space, hne hd 0x20 (by decide), hne hd 0x09 (by decide), hne hd 0x0D (by decide),
        hne hd 0x0A (by decide)]
    simp [step, beginValue, hspace, hd, h0, hne hd 0x7B (by decide), hne hd 0x5B (by decide),
      hne hd 0x22 (by decide), hne hd 0x2D (by decide), hne hd 0x74 (by decide),
      hne hd 0x66 (by decide), hne hd 0x6E (by decide)]

/-- The members of an object whose keys and values are read as `fields` says. -/
def DenotesMembers : List (GoString × GoString) → List (GoString × Json) → Prop :=
  List.Forall₂ fun text field => field.1 = quoteBody text.1 ∧ Denotes text.2 field.2

theorem denotesMembers_map {members : List (GoString × Json)}
    (h : ∀ m ∈ members, Denotes m.2.scalarText m.2) :
    DenotesMembers (members.map fun m => (m.1, m.2.scalarText))
      (members.map fun m => (quoteBody m.1, m.2)) := by
  rw [DenotesMembers, List.forall₂_map_left_iff, List.forall₂_map_right_iff]
  exact List.forall₂_same.mpr fun m hm => ⟨rfl, h m hm⟩

/-- Reading members up to the closing brace. -/
theorem run_members {texts : List (GoString × GoString)} {fields : List (GoString × Json)}
    (h : DenotesMembers texts fields) (hne : texts ≠ []) {m : Machine} {next : UInt8}
    (before : List (GoString × Json)) (stack : List Frame) (rest : GoString)
    (hnext : (m.step next).step 0x22 = ⟨.inString [], .key before :: stack⟩) :
    m.run (members next texts ++ 0x7D :: rest)
      = run (pop (.obj (before ++ fields)) stack) rest := by
  induction h generalizing m next before with
  | nil => exact absurd rfl hne
  | @cons text field texts fields hfield htail ih =>
    obtain ⟨key, value⟩ := text
    obtain ⟨raw, v⟩ := field
    obtain ⟨rfl, hvalue⟩ := hfield
    have hcolon : step ⟨.endValue (.str (quoteBody key)), .key before :: stack⟩ 0x3A
        = ⟨.beginValue, .value before (quoteBody key) :: stack⟩ := rfl
    have hhead (tail : GoString) : m.run (next :: quote key ++ 0x3A :: value ++ tail)
        = run ⟨.beginValue, .value before (quoteBody key) :: stack⟩ (value ++ tail) := by
      simp only [quote, List.cons_append, List.append_assoc, List.nil_append, run_cons, hnext]
      rw [run_quote, run_cons, hcolon]
    rw [members, List.append_assoc, hhead]
    cases htail with
    | nil =>
      rw [members, List.nil_append, hvalue _ _ _ (.inr rfl)]
      rfl
    | @cons text' field' texts fields hfield' htail =>
      rw [members, List.cons_append, List.cons_append, List.cons_append,
        hvalue _ _ _ (.inl rfl)]
      have hcomma : endValue v (.value before (quoteBody key) :: stack) 0x2C
          = ⟨.beginString, .key (before ++ [(quoteBody key, v)]) :: stack⟩ := rfl
      have hrest := @ih (by simp) ⟨.endValue v, .value before (quoteBody key) :: stack⟩ 0x2C
        (before ++ [(quoteBody key, v)]) rfl
      rw [members, List.cons_append, List.cons_append, List.cons_append, run_cons] at hrest
      rw [List.append_assoc before, List.singleton_append] at hrest
      exact hrest

/-- **Reading an object**, wherever a value may begin. -/
theorem run_objectText {texts : List (GoString × GoString)} {fields : List (GoString × Json)}
    (h : DenotesMembers texts fields) (hne : texts ≠ []) (stack : List Frame)
    (hdepth : stack.length < maxDepth) :
    run ⟨.beginValue, stack⟩ (objectText texts) = pop (.obj fields) stack := by
  have hpush : step ⟨.beginValue, stack⟩ 0x7B = ⟨.beginStringOrEmpty, .key [] :: stack⟩ := by
    simp [step, beginValue, space, push, hdepth]
  exact run_members h hne [] stack [] (by rw [hpush]; rfl)

/-- A byte that continues nothing behind a value. -/
def foreign (c : UInt8) : Bool := !space c && !(ascii ",:]\x7d").contains c

theorem endValue_foreign {c : UInt8} (h : foreign c = true) (v : Json) (stack : List Frame) :
    endValue v stack c = fail stack := by
  simp only [foreign, Bool.and_eq_true, Bool.not_eq_true', List.contains_eq_mem,
    decide_eq_false_iff_not] at h
  have hne (d : UInt8) (hd : d ∈ ascii ",:]\x7d") : c ≠ d := fun heq => h.2 (heq ▸ hd)
  unfold endValue
  split
  · simp [endTop, h.1]
  · rw [if_neg (by simp [h.1])]
    split
    · simp [hne 0x3A (by decide)]
    · rfl
    · simp [hne 0x2C (by decide), hne 0x7D (by decide)]
    · simp [hne 0x2C (by decide), hne 0x5D (by decide)]

/-- A small letter is one of twenty-six. -/
theorem exists_letter {c : UInt8} (h : 0x61 ≤ c ∧ c ≤ 0x7A) :
    ∃ n : Fin 26, c = UInt8.ofNat (0x61 + n) := by
  have hlow : 0x61 ≤ c.toNat := UInt8.le_iff_toNat_le.mp h.1
  have hhigh : c.toNat ≤ 0x7A := UInt8.le_iff_toNat_le.mp h.2
  refine ⟨⟨c.toNat - 0x61, by omega⟩, ?_⟩
  rw [Nat.add_sub_cancel' hlow, UInt8.ofNat_toNat]

theorem foreign_of_letter {c : UInt8} (h : 0x61 ≤ c ∧ c ≤ 0x7A) : foreign c = true := by
  have hall : ∀ n : Fin 26, foreign (UInt8.ofNat (0x61 + n)) = true := by decide
  obtain ⟨n, rfl⟩ := exists_letter h
  exact hall n

theorem quoteChunk_letter {c : UInt8} (h : 0x61 ≤ c ∧ c ≤ 0x7A) :
    quoteChunk (c.toNat, [c]) = [c] := by
  have hall : ∀ n : Fin 26, quoteChunk ((UInt8.ofNat (0x61 + n)).toNat, [UInt8.ofNat (0x61 + n)]) =
      [UInt8.ofNat (0x61 + n)] := by decide
  obtain ⟨n, rfl⟩ := exists_letter h
  exact hall n

/-- Where no value may begin, an opening brace is refused, unless it stands in a string, which
the quote behind it closes. -/
theorem run_brace {m : Machine} (hm : ¬ (m.mode = .beginValue ∨ m.mode = .beginValueOrEmpty))
    {c : UInt8} (hc : 0x61 ≤ c ∧ c ≤ 0x7A) (rest : GoString) :
    (m.run (0x7B :: 0x22 :: c :: rest)).finish = none := by
  obtain ⟨mode, stack⟩ := m
  have hbrace : foreign 0x7B = true := by decide
  suffices h : run ⟨mode, stack⟩ (0x7B :: 0x22 :: c :: rest) = fail stack ∨
      ∃ v, run ⟨mode, stack⟩ (0x7B :: 0x22 :: c :: rest) = run (endValue v stack c) rest by
    rcases h with h | ⟨v, h⟩
    · rw [h, finish_error]
    · rw [h, endValue_foreign (foreign_of_letter hc), run_error, finish_error]
  have hfail (h : step ⟨mode, stack⟩ 0x7B = fail stack) :
      run ⟨mode, stack⟩ (0x7B :: 0x22 :: c :: rest) = fail stack := by
    rw [run_cons, h, run_error]
  cases mode with
  | beginValue => exact absurd (.inl rfl) hm
  | beginValueOrEmpty => exact absurd (.inr rfl) hm
  | inString raw => exact .inr ⟨_, rfl⟩
  | endValue v => exact .inl (hfail (endValue_foreign hbrace v stack))
  | int1 text => exact .inl (hfail (endValue_foreign hbrace (.num text) stack))
  | int0 text => exact .inl (hfail (endValue_foreign hbrace (.num text) stack))
  | dot0 text => exact .inl (hfail (endValue_foreign hbrace (.num text) stack))
  | exp0 text => exact .inl (hfail (endValue_foreign hbrace (.num text) stack))
  | word w done =>
    have hw : w.text[done]? ≠ some 0x7B := fun h =>
      absurd (List.mem_of_getElem? h) (by cases w <;> decide)
    exact .inl (hfail (if_neg (by simpa using hw)))
  | error => exact .inl (run_error stack _)
  | _ => exact .inl (hfail rfl)

/-- **Nothing but white space may stand in front of an object**, whatever it is the beginning of. -/
theorem parseJson_append_object {front : GoString} (hfront : ∃ c ∈ front, space c = false)
    {texts : List (GoString × GoString)} {fields : List (GoString × Json)}
    (h : DenotesMembers texts fields) {key : GoString} {c : UInt8} {text : GoString}
    (hkey : texts.head? = some (c :: key, text)) (hc : 0x61 ≤ c ∧ c ≤ 0x7A) :
    parseJson (front ++ objectText texts) = none := by
  obtain ⟨tail, rfl⟩ : ∃ tail, texts = (c :: key, text) :: tail := List.head?_eq_some_iff.mp hkey
  have hstart : Started (run {} front) := started_run (.inr hfront)
  rw [parseJson, run_append]
  generalize run {} front = m at hstart
  by_cases hm : m.mode = .beginValue ∨ m.mode = .beginValueOrEmpty
  · have hstack := hstart hm
    have hsame : m.run (objectText ((c :: key, text) :: tail))
        = run ⟨.beginValue, m.stack⟩ (objectText ((c :: key, text) :: tail)) := by
      obtain ⟨mode, stack⟩ := m
      rcases hm with rfl | rfl <;> rfl
    rw [hsame]
    by_cases hdepth : m.stack.length < maxDepth
    · rw [run_objectText h (by simp) _ hdepth]
      obtain ⟨frame, stack, hs⟩ := List.exists_cons_of_ne_nil hstack
      rw [hs]
      cases frame <;> rfl
    · have hpush : step ⟨.beginValue, m.stack⟩ 0x7B = fail (.key [] :: m.stack) := by
        simp [step, beginValue, space, push, hdepth]
      rw [objectText, members, List.cons_append, List.cons_append, List.cons_append, run_cons, hpush,
        run_error, finish_error]
  · have hc' : c < 0x80 := lt_of_le_of_lt hc.2 (by decide)
    have hquote : quoteBody (c :: key) = c :: quoteBody key := by
      rw [quoteBody, decodeAll_cons_ascii hc', List.flatMap_cons]
      rw [quoteChunk_letter hc]
      rfl
    rw [objectText, members, quote, hquote]
    simp only [List.cons_append, List.append_assoc]
    exact run_brace hm hc _

end Machine

end Beardrive
