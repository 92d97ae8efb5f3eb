import Beardrive.Lib.JsonEnds
import Beardrive.Lib.JsonString

/-!
# The escapes of a JSON text

Where the escapes of a text stand is for the grammar to say: an escape starts at a backslash that
is read inside a string and not inside another escape. In a text that has a value every backslash
starts one or is the second byte of one, and a `\u` is followed by four digits. Nothing here refers
to any particular program.

## Main definitions

* `Machine.escaping` — a machine inside an escape
* `EscapeAt` — a `\u` escape at a place of a text

## Main results

* `escaping_step` — only a backslash leads into an escape
* `run_backslash` — what follows a backslash
* `escapeAt_append` — the escapes behind a place of a text
-/

namespace Beardrive

namespace Machine

/-- Inside an escape. -/
def escaping (m : Machine) : Bool :=
  match m.mode with
  | .inStringEsc _ => true
  | .inStringEscU _ _ => true
  | _ => false

@[simp] theorem escaping_fail (stack : List Frame) : (fail stack).escaping = false := rfl

@[simp] theorem escaping_push (mode : Mode) (frame : Frame) (stack : List Frame)
    (h : (Machine.mk mode (frame :: stack)).escaping = false) :
    (push mode frame stack).escaping = false := by
  rw [push]
  split
  · exact h
  · rfl

@[simp] theorem escaping_pop (v : Json) (stack : List Frame) : (pop v stack).escaping = false := by
  rw [pop]
  split <;> rfl

@[simp] theorem escaping_endTop (v : Json) (stack : List Frame) (c : UInt8) :
    (endTop v stack c).escaping = false := by
  rw [endTop]
  split <;> rfl

@[simp] theorem escaping_endValue (v : Json) (stack : List Frame) (c : UInt8) :
    (endValue v stack c).escaping = false := by
  unfold endValue
  split
  · exact escaping_endTop _ _ _
  · split
    · rfl
    · split
      · split <;> rfl
      · rfl
      all_goals
        split
        · rfl
        · split
          · exact escaping_pop _ _
          · rfl

theorem escaping_beginValue (stack : List Frame) (c : UInt8) :
    (beginValue stack c).escaping = false :=
  beginValue_rule (P := fun m => m.escaping = false) (fun _ => rfl) (escaping_push _ _ _ rfl)
    (escaping_push _ _ _ rfl) rfl (fun _ => rfl) (fun _ => rfl) (fun _ => rfl) (fun _ _ => rfl) rfl

theorem escaping_beginString (stack : List Frame) (c : UInt8) :
    (beginString stack c).escaping = false := by
  unfold beginString
  split_ifs <;> rfl

theorem escaping_int0 (text : GoString) (stack : List Frame) (c : UInt8) :
    (int0 text stack c).escaping = false := by
  unfold int0
  split_ifs
  · rfl
  · rfl
  · exact escaping_endValue _ _ _

/-- **Only a backslash leads into an escape.** -/
theorem escaping_step {m : Machine} {c : UInt8} (hm : m.escaping = false) (hc : c ≠ 0x5C) :
    (m.step c).escaping = false := by
  obtain ⟨mode, stack⟩ := m
  cases mode with
  | beginValue => exact escaping_beginValue _ _
  | beginString => exact escaping_beginString _ _
  | endValue v => exact escaping_endValue _ _ _
  | endTop v => exact escaping_endTop _ _ _
  | inString raw =>
    simp only [step, beq_false_of_ne hc, Bool.false_eq_true, if_false]
    split_ifs <;> rfl
  | inStringEsc raw | inStringEscU left raw => cases hm
  | int1 text =>
    simp only [step]
    split_ifs
    · rfl
    · exact escaping_int0 _ _ _
  | int0 text => exact escaping_int0 _ _ _
  | dot0 text | exp0 text =>
    simp only [step]
    split_ifs
    all_goals first | rfl | exact escaping_endValue _ _ _
  | beginValueOrEmpty | beginStringOrEmpty =>
    simp only [step]
    split_ifs
    · rfl
    · split
      · exact escaping_pop _ _
      · rfl
    · first | exact escaping_beginValue _ _ | exact escaping_beginString _ _
  | neg text | dot text | exp text | expSign text | word w done =>
    simp only [step]
    split_ifs <;> rfl
  | error => rfl

/-- A backslash is read in a string, or nowhere. -/
theorem step_backslash {m : Machine} (hm : m.escaping = false) :
    (∃ raw, m.mode = .inString raw ∧ m.step 0x5C = ⟨.inStringEsc (raw ++ [0x5C]), m.stack⟩) ∨
      m.step 0x5C = fail m.stack := by
  obtain ⟨mode, stack⟩ := m
  have hforeign : foreign 0x5C = true := by decide
  have hdigit : digitByte 0x5C = false := rfl
  have hend (v : Json) : endValue v stack 0x5C = fail stack := endValue_foreign hforeign v stack
  cases mode with
  | inString raw => exact .inl ⟨raw, rfl, rfl⟩
  | inStringEsc raw | inStringEscU left raw => cases hm
  | word w done =>
    right
    have hword : w.text[done]? ≠ some 0x5C := by
      intro h
      have hmem := List.mem_of_getElem? h
      revert hmem
      cases w <;> decide
    simp [step, hword, fail]
  | error => exact .inr rfl
  | _ =>
    right
    simp [step, hend, hdigit, beginValue, beginString, space, endTop, int0, fail]

/-- What stands in the middle of an escape has digits to come. -/
theorem run_inStringEscU {left : ℕ} {raw s : GoString} {stack : List Frame} {v : Json}
    (h : (run ⟨.inStringEscU left raw, stack⟩ s).finish = some v) :
    ∃ c t, s = c :: t ∧ hex c = true ∧ step ⟨.inStringEscU left raw, stack⟩ c =
      if left ≤ 1 then ⟨.inString (raw ++ [c]), stack⟩
      else ⟨.inStringEscU (left - 1) (raw ++ [c]), stack⟩ := by
  cases s with
  | nil =>
    have hhex : hex 0x20 = false := rfl
    simp [finish, step, hhex, fail] at h
  | cons c t =>
    by_cases hc : hex c = true
    · exact ⟨c, t, rfl, hc, if_pos hc⟩
    · have hfail : step ⟨.inStringEscU left raw, stack⟩ c = fail stack := if_neg hc
      rw [run_cons, hfail, run_error, finish_error] at h
      cases h

/-- **What follows a backslash**, in a text that has a value: a letter, or `u` and four digits. -/
theorem run_backslash {m : Machine} (hm : m.escaping = false) {s : GoString} {v : Json}
    (h : (m.run (0x5C :: s)).finish = some v) :
    (∃ raw, m.mode = .inString raw) ∧ (m.run [0x5C]).escaping = true ∧
      ((∃ e t raw, s = e :: t ∧ e ≠ 0x75 ∧ m.run [0x5C, e] = ⟨.inString raw, m.stack⟩) ∨
        ∃ a b c d t raw, s = 0x75 :: a :: b :: c :: d :: t ∧ [a, b, c, d].all hex = true ∧
          m.run [0x5C, 0x75, a, b, c, d] = ⟨.inString raw, m.stack⟩ ∧
            ∀ k, 0 < k → k < 6 →
              (m.run ([0x5C, 0x75, a, b, c, d].take k)).escaping = true) := by
  rw [run_cons] at h
  rcases step_backslash hm with ⟨raw, hraw, hstep⟩ | hfail
  · refine ⟨⟨raw, hraw⟩, by rw [run_cons, hstep]; rfl, ?_⟩
    rw [hstep] at h
    cases s with
    | nil =>
      have hescape : (ascii "bfnrt\\/\"").contains 0x20 = false := by decide
      simp only [run_nil, finish, step, hescape] at h
      cases h
    | cons e t =>
      rw [run_cons] at h
      by_cases he : e = 0x75
      · subst he
        have hu : step ⟨.inStringEsc (raw ++ [0x5C]), m.stack⟩ 0x75 =
            ⟨.inStringEscU 4 (raw ++ [0x5C] ++ [0x75]), m.stack⟩ := by
          have hescape : (ascii "bfnrt\\/\"").contains 0x75 = false := by decide
          simp only [step, hescape]
          rfl
        rw [hu] at h
        obtain ⟨a, t, rfl, ha, hsa⟩ := run_inStringEscU h
        rw [if_neg (by decide)] at hsa
        rw [run_cons, hsa] at h
        obtain ⟨b, t, rfl, hb, hsb⟩ := run_inStringEscU h
        rw [if_neg (by decide)] at hsb
        rw [run_cons, hsb] at h
        obtain ⟨c, t, rfl, hc, hsc⟩ := run_inStringEscU h
        rw [if_neg (by decide)] at hsc
        rw [run_cons, hsc] at h
        obtain ⟨d, t, rfl, hd, hsd⟩ := run_inStringEscU h
        rw [if_pos (by decide)] at hsd
        refine .inr ⟨a, b, c, d, t, raw ++ [0x5C] ++ [0x75] ++ [a] ++ [b] ++ [c] ++ [d], rfl,
          by simp [ha, hb, hc, hd], ?_, fun k hpos hlt => ?_⟩
        · rw [run_cons, hstep, run_cons, hu, run_cons, hsa, run_cons, hsb, run_cons, hsc, run_cons,
            hsd, run_nil]
        · obtain rfl | rfl | rfl | rfl | rfl : k = 1 ∨ k = 2 ∨ k = 3 ∨ k = 4 ∨ k = 5 := by omega
          all_goals
            simp only [List.take_succ_cons, List.take_zero, run_cons, run_nil, hstep, hu, hsa, hsb,
              hsc]
            rfl
      · refine .inl ⟨e, t, raw ++ [0x5C] ++ [e], rfl, he, ?_⟩
        rw [run_cons, hstep, run_cons, run_nil]
        by_cases hcontains : (ascii "bfnrt\\/\"").contains e = true
        · simp only [step]
          rw [if_pos hcontains]
        · have hfail : step ⟨.inStringEsc (raw ++ [0x5C]), m.stack⟩ e = fail m.stack := by
            simp only [step]
            rw [if_neg hcontains, if_neg (by simpa using he)]
          rw [hfail, run_error, finish_error] at h
          cases h
  · rw [hfail, run_error, finish_error] at h
    cases h

/-! ### Where escapes stand -/

/-- A `\u` escape of code unit `r` stands at place `i` of a text read by `m`. -/
def EscapeAt (m : Machine) (s : GoString) (i : ℕ) (r : Rune) : Prop :=
  (∃ raw, (m.run (s.take i)).mode = .inString raw) ∧ getu4 (s.drop i) = some r

/-- Behind a front, the escapes are those of the rest. -/
theorem escapeAt_append {m : Machine} {pre s : GoString} {i : ℕ} {r : Rune} :
    EscapeAt m (pre ++ s) (pre.length + i) r ↔ EscapeAt (m.run pre) s i r := by
  rw [EscapeAt, EscapeAt, List.take_length_add_append, List.drop_length_add_append, run_append]

theorem EscapeAt.unique {m : Machine} {s : GoString} {i : ℕ} {r r' : Rune}
    (h : EscapeAt m s i r) (h' : EscapeAt m s i r') : r = r' :=
  Option.some.inj (h.2.symm.trans h'.2)

/-- No escape starts with another byte than a backslash. -/
theorem not_escapeAt_of_ne {m : Machine} {s t : GoString} {i : ℕ} {c : UInt8} {r : Rune}
    (hs : s.drop i = c :: t) (hc : c ≠ 0x5C) : ¬ EscapeAt m s i r := by
  rintro ⟨-, hr⟩
  rw [hs, getu4.eq_def] at hr
  split at hr
  · rename_i heq
    rw [← (List.cons.inj heq).1, if_neg (fun h => hc h.1)] at hr
    cases hr
  · cases hr

/-- No escape starts inside another. -/
theorem not_escapeAt_of_escaping {m : Machine} {s : GoString} {i : ℕ} {r : Rune}
    (h : (m.run (s.take i)).escaping = true) : ¬ EscapeAt m s i r := by
  rintro ⟨⟨raw, hraw⟩, -⟩
  rw [escaping, hraw] at h
  cases h

end Machine

end Beardrive
