import Beardrive.Lib.Json

/-!
# Where a JSON value ends

An object ends with its last brace: whatever is written behind it leaves it the value of the text,
or leaves the text without one. The bytes a value starts and ends with are ASCII, so that trimming
a text never cuts one. Nothing here refers to any particular program.

## Main results

* `parseJson_append_of_obj` — a text that goes on behind an object is no other value
* `lt_of_parseJson_cons`, `lt_of_parseJson_concat` — the first and the last byte
* `trimSpace_append_of_obj` — trimming what goes on behind an object
-/

namespace Beardrive

namespace Machine

/-! ### Behind the end -/

/-- A text that an object ends has ended, or ends with the next white space. -/
theorem finish_obj {m : Machine} {fields : List (GoString × Json)}
    (h : m.finish = some (.obj fields)) :
    m.mode = .endTop (.obj fields) ∨ m.mode = .endValue (.obj fields) ∧ m.stack = [] := by
  obtain ⟨mode, stack⟩ := m
  have hspace : space 0x20 = true := rfl
  have hhex : hex 0x20 = false := rfl
  have hdigit : digitByte 0x20 = false := rfl
  have hescape : (ascii "bfnrt\\/\"").contains 0x20 = false := by decide
  have hend {v : Json} (h : finish ⟨.endValue v, stack⟩ = some (.obj fields)) :
      v = .obj fields ∧ stack = [] := by
    cases stack with
    | nil => simpa [finish, step, endValue, endTop, hspace] using h
    | cons frame rest => simp [finish, step, endValue, hspace] at h
  cases mode with
  | endTop v => exact .inl (congrArg Mode.endTop (Option.some.inj h))
  | endValue v =>
    obtain ⟨rfl, hstack⟩ := hend h
    exact .inr ⟨rfl, hstack⟩
  | int1 | int0 | dot0 | exp0 =>
    simp only [finish, step, hdigit, int0, Bool.false_eq_true, if_false] at h
    cases (hend h).1
  | word w done =>
    simp only [finish, step] at h
    split_ifs at h
    all_goals cases h
  | inStringEsc =>
    simp only [finish, step, hescape] at h
    cases h
  | _ => simp [finish, step, beginValue, beginString, fail, hspace, hhex, hdigit] at h

/-- Behind a value there is no other. -/
theorem finish_run_endTop {v w : Json} {stack : List Frame} {s : GoString}
    (h : (run ⟨.endTop v, stack⟩ s).finish = some w) : w = v := by
  induction s with
  | nil => exact (Option.some.inj h).symm
  | cons c s ih =>
    rw [run_cons] at h
    by_cases hc : space c = true
    · have hstay : step ⟨.endTop v, stack⟩ c = ⟨.endTop v, stack⟩ := by simp [step, endTop, hc]
      exact ih (hstay ▸ h)
    · have hfail : step ⟨.endTop v, stack⟩ c = fail stack := by simp [step, endTop, hc]
      rw [hfail, run_error, finish_error] at h
      cases h

/-- **A text that goes on behind an object is no other value.** -/
theorem parseJson_append_of_obj {s t : GoString} {fields : List (GoString × Json)} {v : Json}
    (h : parseJson s = some (.obj fields)) (ht : parseJson (s ++ t) = some v) :
    v = .obj fields := by
  rw [parseJson, run_append] at ht
  rcases finish_obj h with hend | ⟨hend, hstack⟩
  · generalize run {} s = m at ht hend
    obtain ⟨mode, stack⟩ := m
    obtain rfl : mode = .endTop (.obj fields) := hend
    exact finish_run_endTop ht
  · generalize run {} s = m at ht hend hstack
    obtain ⟨mode, stack⟩ := m
    obtain rfl : mode = .endValue (.obj fields) := hend
    obtain rfl : stack = [] := hstack
    cases t with
    | nil => simpa [finish, step, endValue, endTop, space] using ht.symm
    | cons c t =>
      rw [run_cons] at ht
      by_cases hc : space c = true
      · have hstep : step ⟨.endValue (.obj fields), []⟩ c = ⟨.endTop (.obj fields), []⟩ := by
          simp [step, endValue, endTop, hc]
        exact finish_run_endTop (hstep ▸ ht)
      · have hfail : step ⟨.endValue (.obj fields), []⟩ c = fail [] := by
          simp [step, endValue, endTop, hc]
        rw [hfail, run_error, finish_error] at ht
        cases ht

/-! ### The bytes at both ends -/

section High

variable {c : UInt8} (hc : ¬ c < 0x80)
include hc

theorem high_beq {b : UInt8} (hb : b < 0x80) : (c == b) = false := by
  rw [beq_eq_false_iff_ne]
  rintro rfl
  exact hc hb

theorem digitByte_high : digitByte c = false := by
  rw [digitByte, Bool.and_eq_false_iff]
  right
  rw [decide_eq_false_iff_not]
  exact fun hle => hc (lt_of_le_of_lt hle (by decide))

theorem endValue_high (v : Json) (stack : List Frame) : endValue v stack c = fail stack := by
  cases stack with
  | nil => simp [endValue, endTop, space, high_beq hc]
  | cons frame rest => cases frame <;> cases v <;> simp [endValue, space, high_beq hc]

/-- A byte that is not ASCII stands in a string or nowhere, so it ends no object. -/
theorem step_high (m : Machine) (fields : List (GoString × Json)) :
    (m.step c).mode ≠ .endTop (.obj fields) ∧ (m.step c).mode ≠ .endValue (.obj fields) := by
  obtain ⟨mode, stack⟩ := m
  have hbeq {b : UInt8} (hb : b < 0x80) := high_beq hc hb
  cases mode with
  | inString raw =>
    simp only [step, hbeq (b := 0x22) (by decide), hbeq (b := 0x5C) (by decide),
      Bool.false_eq_true, if_false]
    split_ifs <;> exact ⟨Mode.noConfusion, Mode.noConfusion⟩
  | inStringEsc raw | inStringEscU left raw =>
    simp only [step]
    split_ifs <;> exact ⟨Mode.noConfusion, Mode.noConfusion⟩
  | word w done =>
    simp only [step]
    split_ifs
    case pos => exact ⟨Mode.noConfusion, by cases w <;> simp [Word.value]⟩
    all_goals exact ⟨Mode.noConfusion, Mode.noConfusion⟩
  | _ =>
    simp [step, endValue_high hc, hbeq, digitByte_high hc, beginValue, beginString, space, endTop,
      int0, fail]

end High

/-- A value starts with an ASCII byte. -/
theorem lt_of_parseJson_cons {c : UInt8} {s : GoString} {v : Json}
    (h : parseJson (c :: s) = some v) : c < 0x80 := by
  by_contra hc
  have hfail : step {} c = fail [] := by
    simp [step, beginValue, space, high_beq hc, digitByte_high hc]
  rw [parseJson, run_cons, hfail, run_error, finish_error] at h
  cases h

/-- An object ends in an ASCII byte. -/
theorem lt_of_parseJson_concat {d : UInt8} {s : GoString} {fields : List (GoString × Json)}
    (h : parseJson (s ++ [d]) = some (.obj fields)) : d < 0x80 := by
  by_contra hd
  rw [parseJson, run_append, run_cons, run_nil] at h
  obtain ⟨htop, hvalue⟩ := step_high hd (run {} s) fields
  rcases finish_obj h with hend | ⟨hend, -⟩
  · exact htop hend
  · exact hvalue hend

/-- An object is more than a byte. -/
theorem parseJson_singleton (c : UInt8) (fields : List (GoString × Json)) :
    parseJson [c] ≠ some (.obj fields) := by
  intro h
  have hmode : (beginValue [] c).mode ≠ .endTop (.obj fields) ∧
      (beginValue [] c).mode ≠ .endValue (.obj fields) := by
    refine beginValue_rule (P := fun m => m.mode ≠ .endTop (.obj fields) ∧
      m.mode ≠ .endValue (.obj fields)) (fun _ => ?_) ?_ ?_ ?_ (fun _ => ?_) (fun _ => ?_)
      (fun _ => ?_) (fun _ _ => ?_) ?_
    all_goals exact ⟨Mode.noConfusion, Mode.noConfusion⟩
  rcases finish_obj h with hend | ⟨hend, -⟩
  · exact hmode.1 hend
  · exact hmode.2 hend

end Machine

open Machine in
/-- **What goes on behind a trimmed object is trimmed at the end only.** -/
theorem trimSpace_append_of_obj {s : GoString} {fields : List (GoString × Json)}
    (h : parseJson (trimSpace s) = some (.obj fields)) (t : GoString) :
    ∃ x, trimSpace (s ++ t) = trimSpace s ++ x := by
  cases htrim : trimSpace s with
  | nil =>
    rw [htrim] at h
    cases h
  | cons c rest =>
    rw [htrim] at h
    rcases List.eq_nil_or_concat rest with rfl | ⟨mid, d, rfl⟩
    · exact absurd h (parseJson_singleton c fields)
    · rw [List.concat_eq_append] at h htrim ⊢
      have hc := lt_of_parseJson_cons h
      have hd := lt_of_parseJson_concat (List.cons_append ▸ h)
      rw [← htrim]
      exact trimSpace_append_of_ends hc hd htrim t

end Beardrive
