import Beardrive.Lib.Json

/-!
# Arrays of objects, and the first value of a stream

What the scanner makes of an array whose items are objects, and of a member in front of one that
holds such an array; and where a decoder that reads one value off a stream stops. Nothing here
refers to any particular program.

A decoder of a stream does not look behind the value it reads. An object or an array ends where it
is closed; a word or a string ends in front of the next byte, whatever that is.

## Main definitions

* `arrayText` — an encoded array with at least one item
* `Machine.firstValue` — the first value of a stream

## Main results

* `Machine.run_objects` — what is read of an array of objects
* `Machine.firstValue_of_run` — a text that ends in its last brace is read whole
-/

namespace Beardrive

/-- The items of an array, each behind `next` or a comma. -/
def arrayItems (next : UInt8) : List GoString → GoString
  | [] => []
  | text :: texts => next :: text ++ arrayItems 0x2C texts

/-- An encoded array with at least one item. -/
def arrayText (texts : List GoString) : GoString := arrayItems 0x5B texts ++ [0x5D]

namespace Machine

/-! ### Reading an array of objects -/

/-- A key and its colon. -/
theorem run_key {m : Machine} {before : List (GoString × Json)} {stack : List Frame}
    (hm : m.step 0x22 = ⟨.inString [], .key before :: stack⟩) (key rest : GoString) :
    m.run (quote key ++ 0x3A :: rest) = run ⟨.beginValue, .value before (quoteBody key) :: stack⟩ rest := by
  simp only [quote, List.cons_append, List.append_assoc, List.nil_append, run_cons, hm]
  rw [run_quote, run_cons]
  rfl

/-- A member in front of another. -/
theorem run_member {m : Machine} {before : List (GoString × Json)} {stack : List Frame}
    (hm : m.step 0x22 = ⟨.inString [], .key before :: stack⟩) (key : GoString) {text : GoString}
    {v : Json} (htext : Denotes text v) (rest : GoString) :
    m.run (quote key ++ 0x3A :: (text ++ 0x2C :: rest)) =
      run ⟨.beginString, .key (before ++ [(quoteBody key, v)]) :: stack⟩ rest := by
  rw [run_key hm, htext _ _ _ (.inl rfl)]
  rfl

/-- Reading objects up to the closing bracket. -/
theorem run_objects {objects : List (List (GoString × GoString))}
    {values : List (List (GoString × Json))} (h : List.Forall₂ DenotesMembers objects values)
    (hobjects : ∀ texts ∈ objects, texts ≠ []) (hne : objects ≠ []) {m : Machine} {next : UInt8}
    (before : List Json) (stack : List Frame) (rest : GoString)
    (hnext : (m.step next).step 0x7B = ⟨.beginStringOrEmpty, .key [] :: .item before :: stack⟩)
    (hdepth : stack.length + 1 < maxDepth) :
    m.run (arrayItems next (objects.map objectText) ++ 0x5D :: rest) =
      run (pop (.arr (before ++ values.map Json.obj)) stack) rest := by
  induction h generalizing m next before with
  | nil => exact absurd rfl hne
  | @cons texts fields objects values hfields htail ih =>
    have hhead (tail : GoString) : m.run (next :: (objectText texts ++ tail)) =
        run ⟨.endValue (.obj fields), .item before :: stack⟩ tail := by
      rw [run_cons, objectText, List.append_assoc, List.singleton_append,
        run_members hfields (hobjects texts List.mem_cons_self) [] (.item before :: stack) tail
          (by rw [hnext]; rfl)]
      rfl
    rw [List.map_cons, arrayItems, List.cons_append, List.cons_append, List.append_assoc, hhead]
    cases htail with
    | nil =>
      rw [List.map_nil, arrayItems, List.nil_append, run_cons]
      rfl
    | @cons texts' fields' objects values hfields' htail =>
      have hcomma : step ⟨.endValue (.obj fields), .item before :: stack⟩ 0x2C =
          ⟨.beginValue, .item (before ++ [Json.obj fields]) :: stack⟩ := rfl
      have hbrace : step ⟨.beginValue, .item (before ++ [Json.obj fields]) :: stack⟩ 0x7B =
          ⟨.beginStringOrEmpty, .key [] :: .item (before ++ [Json.obj fields]) :: stack⟩ := by
        simp [step, beginValue, space, push, hdepth]
      rw [ih (fun t ht => hobjects t (List.mem_cons_of_mem _ ht)) (by simp)
        (before ++ [Json.obj fields]) (by rw [hcomma, hbrace])]
      rw [List.append_assoc, List.map_cons, List.map_cons, List.map_cons]
      rfl

/-- **Reading an array of objects**, inside an open container. -/
theorem run_arrayText {objects : List (List (GoString × GoString))}
    {values : List (List (GoString × Json))} (h : List.Forall₂ DenotesMembers objects values)
    (hobjects : ∀ texts ∈ objects, texts ≠ []) (hne : objects ≠ []) (stack : List Frame)
    (rest : GoString) (hdepth : stack.length + 1 < maxDepth) :
    run ⟨.beginValue, stack⟩ (arrayText (objects.map objectText) ++ rest) =
      run (pop (.arr (values.map .obj)) stack) rest := by
  have hbracket : step ⟨.beginValue, stack⟩ 0x5B = ⟨.beginValueOrEmpty, .item [] :: stack⟩ := by
    simp [step, beginValue, space, push, show stack.length < maxDepth by omega]
  have hbrace : step ⟨.beginValueOrEmpty, .item [] :: stack⟩ 0x7B =
      ⟨.beginStringOrEmpty, .key [] :: .item [] :: stack⟩ := by
    simp [step, beginValue, space, push, hdepth]
  rw [arrayText, List.append_assoc, List.singleton_append,
    run_objects h hobjects hne [] stack rest (by rw [hbracket, hbrace]) hdepth]
  rfl

/-! ### The first value of a stream -/

/-- The value a decoder reads off a stream, which may break off instead of ending. What stands
behind the value is not looked at. -/
def firstValue (breaks : Bool) : Machine → GoString → Option Json
  | m, [] => if breaks then none else m.finish
  | m, c :: s =>
    match m.mode, m.stack with
    | .endValue v, [] => some v
    | _, _ =>
      match (m.step c).mode with
      | .endTop v => some v
      | _ => firstValue breaks (m.step c) s

/-- Behind a value there is only white space. -/
theorem run_endTop {v w : Json} {stack : List Frame} {s : GoString} {c : UInt8}
    (hc : space c = false) : (run ⟨.endTop v, stack⟩ (s ++ [c])).mode ≠ .endTop w := by
  induction s with
  | nil =>
    have hfail : step ⟨.endTop v, stack⟩ c = fail stack := by simp [step, endTop, hc]
    rw [List.nil_append, run_cons, hfail]
    exact Mode.noConfusion
  | cons b s ih =>
    rw [List.cons_append, run_cons]
    by_cases hb : space b = true
    · have hstay : step ⟨.endTop v, stack⟩ b = ⟨.endTop v, stack⟩ := by simp [step, endTop, hb]
      rw [hstay]
      exact ih
    · have hfail : step ⟨.endTop v, stack⟩ b = fail stack := by simp [step, endTop, hb]
      rw [hfail, run_error]
      exact Mode.noConfusion

/-- **A text that ends in the last byte of its value is read whole.** -/
theorem firstValue_of_run {m : Machine} {s : GoString} {c : UInt8} {v : Json} (breaks : Bool)
    (hc : space c = false) (h : (m.run (s ++ [c])).mode = .endTop v) :
    firstValue breaks m (s ++ [c]) = some v := by
  have hopen {m : Machine} {s : GoString} (h : (m.run (s ++ [c])).mode = .endTop v) (w : Json) :
      ¬ (m.mode = .endValue w ∧ m.stack = []) := by
    rintro ⟨hmode, hstack⟩
    obtain rfl : m = ⟨.endValue w, []⟩ := by
      rw [← hmode, ← hstack]
    cases s with
    | nil =>
      have hfail : step ⟨.endValue w, []⟩ c = fail [] := by simp [step, endValue, endTop, hc]
      rw [List.nil_append, run_cons, hfail] at h
      exact Mode.noConfusion h
    | cons b s =>
      rw [List.cons_append, run_cons] at h
      by_cases hb : space b = true
      · have hstep : step ⟨.endValue w, []⟩ b = ⟨.endTop w, []⟩ := by
          simp [step, endValue, endTop, hb]
        rw [hstep] at h
        exact run_endTop hc h
      · have hfail : step ⟨.endValue w, []⟩ b = fail [] := by simp [step, endValue, endTop, hb]
        rw [hfail, run_error] at h
        exact Mode.noConfusion h
  induction s generalizing m with
  | nil =>
    rw [List.nil_append, firstValue]
    split
    case h_1 w hmode hstack => exact absurd ⟨hmode, hstack⟩ (hopen h w)
    case h_2 =>
      have hstep : (m.step c).mode = .endTop v := h
      rw [hstep]
  | cons b s ih =>
    rw [List.cons_append, firstValue]
    split
    case h_1 w hmode hstack => exact absurd ⟨hmode, hstack⟩ (hopen h w)
    case h_2 =>
      rw [List.cons_append, run_cons] at h
      split
      case h_1 w hmode =>
        have hstep : m.step b = ⟨.endTop w, (m.step b).stack⟩ := by rw [← hmode]
        rw [hstep] at h
        exact absurd h (run_endTop hc)
      case h_2 => exact ih h

end Machine

end Beardrive
