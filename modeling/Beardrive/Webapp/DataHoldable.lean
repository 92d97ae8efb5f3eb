import Beardrive.Lib.JsonEscapes

/-!
# Documents an index can hold

A document of the data index is JSON text, as it was written. One of the two databases behind the
index refuses text that is not UTF-8, an escaped zero, and half of a surrogate pair, so a document
is scanned for them first. The scan walks over the bytes and skips what an escape is made of; it
looks ahead for the second half of a pair.

That it never takes a byte of one escape for the start of another, and never looks behind the end,
is owed to the grammar: the text is valid. What it answers is therefore said with the grammar's own
escapes (`Holdable`), not with those the scan finds.

## Main definitions

* `jsonEscape`, `holdableLoop`, `dataHoldable` — the scan; `none` is an index out of range
* `Paired`, `Holdable` — what it is for

## Main results

* `holdableLoop_spec` — the scan from any place that is not inside an escape
* `dataHoldable_iff` — the scan is exact
-/

namespace Beardrive

open Machine

/-- `jsonEscape`: the code unit four digits name. -/
def jsonEscape (digits : GoString) : Rune :=
  digits.foldl (fun (r : ℕ) (c : UInt8) =>
    if 0x30 ≤ c ∧ c ≤ 0x39 then r <<< 4 ||| (c - 0x30).toNat
    else if 0x61 ≤ c ∧ c ≤ 0x66 then r <<< 4 ||| (c - 0x61 + 10).toNat
    else r <<< 4 ||| (c - 0x41 + 10).toNat) 0

/-- `doc[from:to]`, within the bytes there are. -/
def sliceOf (doc : GoString) (start stop : ℕ) : Option GoString :=
  if stop ≤ doc.length then some ((doc.drop start).take (stop - start)) else none

/-- The loop from index `i`, for `fuel` rounds at most. -/
def holdableLoop (doc : GoString) : ℕ → ℕ → Option Bool
  | 0, _ => some true
  | fuel + 1, i =>
    match doc[i]? with
    | none => some true
    | some c =>
      if c ≠ 0x5C then holdableLoop doc fuel (i + 1)
      else match doc[i + 1]? with
        | none => none
        | some e =>
          if e ≠ 0x75 then holdableLoop doc fuel (i + 2)
          else match sliceOf doc (i + 2) (i + 6) with
            | none => none
            | some digits =>
              let r := jsonEscape digits
              if r = 0 then some false
              else if 0xDC00 ≤ r ∧ r ≤ 0xDFFF then some false
              else if 0xD800 ≤ r ∧ r ≤ 0xDBFF then
                if doc.length ≤ i + 5 + 6 then some false
                else match doc[i + 5 + 1]? with
                  | none => none
                  | some b =>
                    if b ≠ 0x5C then some false
                    else match doc[i + 5 + 2]? with
                      | none => none
                      | some u =>
                        if u ≠ 0x75 then some false
                        else match sliceOf doc (i + 5 + 3) (i + 5 + 7) with
                          | none => none
                          | some digits =>
                            let lo := jsonEscape digits
                            if lo < 0xDC00 ∨ 0xDFFF < lo then some false
                            else holdableLoop doc fuel (i + 5 + 6 + 1)
              else holdableLoop doc fuel (i + 5 + 1)

/-- `dataHoldable`. -/
def dataHoldable (doc : GoString) : Option Bool :=
  if !validUTF8 doc then some false else holdableLoop doc doc.length 0

/-! ### What the scan is for -/

/-- The first half of a surrogate pair. -/
def isHigh (r : Rune) : Prop := 0xD800 ≤ r ∧ r ≤ 0xDBFF

/-- The second half. -/
def isLow (r : Rune) : Prop := 0xDC00 ≤ r ∧ r ≤ 0xDFFF

/-- One escape of a text is no zero, and stands beside its other half if it has one. -/
structure PairedAt (m : Machine) (s : GoString) (i : ℕ) (r : Rune) : Prop where
  ne_zero : r ≠ 0
  high : isHigh r → ∃ r', EscapeAt m s (i + 6) r' ∧ isLow r'
  low : isLow r → ∃ j r', i = j + 6 ∧ EscapeAt m s j r' ∧ isHigh r'

/-- All of them are so. -/
def Paired (m : Machine) (s : GoString) : Prop := ∀ i r, EscapeAt m s i r → PairedAt m s i r

/-- A document that both databases hold. -/
structure Holdable (doc : GoString) : Prop where
  valid : validUTF8 doc = true
  paired : Paired {} doc

/-- **A front whose escapes are paired within it can be left out.** -/
theorem paired_append {m : Machine} {pre s : GoString}
    (hpaired : ∀ i < pre.length, ∀ r, EscapeAt m (pre ++ s) i r → PairedAt m (pre ++ s) i r)
    (hwithin : ∀ i < pre.length, ∀ r, EscapeAt m (pre ++ s) i r → isHigh r → i + 6 < pre.length) :
    Paired m (pre ++ s) ↔ Paired (m.run pre) s := by
  constructor
  · intro h i r hr
    obtain ⟨hzero, hhigh, hlow⟩ := h _ r (escapeAt_append.mpr hr)
    refine ⟨hzero, fun hr' => ?_, fun hr' => ?_⟩
    · obtain ⟨r', h', hlow'⟩ := hhigh hr'
      rw [Nat.add_assoc] at h'
      exact ⟨r', escapeAt_append.mp h', hlow'⟩
    · obtain ⟨j, r', hj, h', hhigh'⟩ := hlow hr'
      -- the first half is not in the front, whose second halves are there
      have hge : pre.length ≤ j := by
        by_contra hlt
        have := hwithin j (by omega) r' h' hhigh'
        omega
      obtain ⟨k, rfl⟩ := Nat.exists_eq_add_of_le hge
      exact ⟨k, r', by omega, escapeAt_append.mp h', hhigh'⟩
  · intro h i r hr
    by_cases hi : i < pre.length
    · exact hpaired i hi r hr
    · obtain ⟨k, rfl⟩ := Nat.exists_eq_add_of_le (not_lt.mp hi)
      obtain ⟨hzero, hhigh, hlow⟩ := h k r (escapeAt_append.mp hr)
      refine ⟨hzero, fun hr' => ?_, fun hr' => ?_⟩
      · obtain ⟨r', h', hlow'⟩ := hhigh hr'
        rw [Nat.add_assoc]
        exact ⟨r', escapeAt_append.mpr h', hlow'⟩
      · obtain ⟨j, r', rfl, h', hhigh'⟩ := hlow hr'
        exact ⟨pre.length + j, r', rfl, escapeAt_append.mpr h', hhigh'⟩

/-! ### Code units -/

/-- The code unit of an escape is the one a decoder reads. -/
theorem getu4_digits {a b c d : UInt8} (h : [a, b, c, d].all hex = true) (t : GoString) :
    getu4 (0x5C :: 0x75 :: a :: b :: c :: d :: t) = some (jsonEscape [a, b, c, d]) := by
  have hdigit {c : UInt8} (hc : hex c = true) (r : ℕ) :
      (if 0x30 ≤ c ∧ c ≤ 0x39 then r <<< 4 ||| (c - 0x30).toNat
        else if 0x61 ≤ c ∧ c ≤ 0x66 then r <<< 4 ||| (c - 0x61 + 10).toNat
        else r <<< 4 ||| (c - 0x41 + 10).toNat) = r * 16 + hexValue c := by
    have hall : ∀ n : Fin 256, hex (UInt8.ofNat n) = true →
        hexValue (UInt8.ofNat n) < 16 ∧
          (if 0x30 ≤ UInt8.ofNat n ∧ UInt8.ofNat n ≤ 0x39 then (UInt8.ofNat n - 0x30).toNat
            else if 0x61 ≤ UInt8.ofNat n ∧ UInt8.ofNat n ≤ 0x66 then
              (UInt8.ofNat n - 0x61 + 10).toNat
            else (UInt8.ofNat n - 0x41 + 10).toNat) = hexValue (UInt8.ofNat n) := by
      decide +kernel
    have hc' := hall ⟨c.toNat, c.toNat_lt⟩
    rw [UInt8.ofNat_toNat] at hc'
    obtain ⟨hlt, heq⟩ := hc' hc
    rw [show r * 16 = r <<< 4 from (Nat.shiftLeft_eq r 4).symm,
      Nat.shiftLeft_add_eq_or_of_lt hlt, ← heq]
    split_ifs <;> rfl
  simp only [List.all_cons, List.all_nil, Bool.and_true, Bool.and_eq_true] at h
  obtain ⟨ha, hb, hc, hd⟩ := h
  rw [jsonEscape, List.foldl_cons, List.foldl_cons, List.foldl_cons, List.foldl_cons,
    List.foldl_nil, hdigit ha, hdigit hb, hdigit hc, hdigit hd, getu4, if_pos]
  · simp
  · simp [ha, hb, hc, hd]

theorem getu4_eq_some {s : GoString} {r : Rune} (h : getu4 s = some r) :
    ∃ a b c d t, s = 0x5C :: 0x75 :: a :: b :: c :: d :: t ∧ [a, b, c, d].all hex = true ∧
      r = jsonEscape [a, b, c, d] := by
  rw [getu4.eq_def] at h
  split at h
  case h_1 b u h1 h2 h3 h4 t =>
    split_ifs at h with hdigits
    obtain ⟨rfl, rfl, hhex⟩ := hdigits
    refine ⟨h1, h2, h3, h4, t, rfl, hhex, ?_⟩
    have hself := getu4_digits hhex t
    rw [getu4, if_pos ⟨rfl, rfl, hhex⟩] at hself
    rw [← Option.some.inj h, Option.some.inj hself]
  case h_2 => cases h

/-! ### The loop -/

theorem paired_nil (m : Machine) : Paired m [] := by
  rintro i r ⟨-, hr⟩
  rw [List.drop_nil] at hr
  cases hr

/-- An escape of a code unit stands where it starts, and nowhere else in its six bytes. -/
theorem escapeAt_digits {m : Machine} {a b c d : UInt8} {t : GoString}
    (hstring : ∃ raw, m.mode = .inString raw) (hhex : [a, b, c, d].all hex = true)
    (hescaping : ∀ k, 0 < k → k < 6 →
      (m.run ([0x5C, 0x75, a, b, c, d].take k)).escaping = true) :
    ∀ i < 6, ∀ r, EscapeAt m (0x5C :: 0x75 :: a :: b :: c :: d :: t) i r ↔
      i = 0 ∧ r = jsonEscape [a, b, c, d] := by
  have hzero : EscapeAt m (0x5C :: 0x75 :: a :: b :: c :: d :: t) 0 (jsonEscape [a, b, c, d]) :=
    ⟨hstring, getu4_digits hhex t⟩
  intro i hi r
  constructor
  · intro h
    rcases Nat.eq_zero_or_pos i with rfl | hpos
    · exact ⟨rfl, h.unique hzero⟩
    · refine absurd h (not_escapeAt_of_escaping ?_)
      have htake : (0x5C :: 0x75 :: a :: b :: c :: d :: t).take i =
          [0x5C, 0x75, a, b, c, d].take i := by
        rw [show 0x5C :: 0x75 :: a :: b :: c :: d :: t = [0x5C, 0x75, a, b, c, d] ++ t from rfl,
          List.take_append_of_le_length (by simp only [List.length_cons, List.length_nil]; omega)]
      rw [htake]
      exact hescaping i hpos hi
  · rintro ⟨rfl, rfl⟩
    exact hzero

section

variable (front t : GoString) (fuel : ℕ)

theorem getElem?_front (s : GoString) (k : ℕ) : (front ++ s)[front.length + k]? = s[k]? := by
  rw [List.getElem?_append_right (Nat.le_add_right _ _), Nat.add_sub_cancel_left]

theorem getElem?_front_zero (s : GoString) : (front ++ s)[front.length]? = s[0]? :=
  getElem?_front front s 0

theorem sliceOf_front (s : GoString) (start stop : ℕ) :
    sliceOf (front ++ s) (front.length + start) (front.length + stop) = sliceOf s start stop := by
  rw [sliceOf, sliceOf, List.length_append, List.drop_length_add_append,
    Nat.add_sub_add_left]
  simp only [Nat.add_le_add_iff_left]

theorem holdableLoop_byte {c : UInt8} (hc : c ≠ 0x5C) :
    holdableLoop (front ++ c :: t) (fuel + 1) front.length =
      holdableLoop (front ++ [c] ++ t) fuel (front ++ [c]).length := by
  rw [holdableLoop, getElem?_front_zero]
  simp [hc]

theorem holdableLoop_letter {e : UInt8} (he : e ≠ 0x75) :
    holdableLoop (front ++ 0x5C :: e :: t) (fuel + 1) front.length =
      holdableLoop (front ++ [0x5C, e] ++ t) fuel (front ++ [0x5C, e]).length := by
  rw [holdableLoop, getElem?_front_zero]
  simp [he]

theorem holdableLoop_digits (a b c d : UInt8) :
    holdableLoop (front ++ 0x5C :: 0x75 :: a :: b :: c :: d :: t) (fuel + 1) front.length =
      let r := jsonEscape [a, b, c, d]
      let doc := front ++ [0x5C, 0x75, a, b, c, d] ++ t
      if r = 0 then some false
      else if 0xDC00 ≤ r ∧ r ≤ 0xDFFF then some false
      else if 0xD800 ≤ r ∧ r ≤ 0xDBFF then
        if t.length < 6 then some false
        else match t[0]? with
          | none => none
          | some b =>
            if b ≠ 0x5C then some false
            else match t[1]? with
              | none => none
              | some u =>
                if u ≠ 0x75 then some false
                else match sliceOf t 2 6 with
                  | none => none
                  | some digits =>
                    if jsonEscape digits < 0xDC00 ∨ 0xDFFF < jsonEscape digits then some false
                    else holdableLoop doc fuel (front.length + 12)
      else holdableLoop doc fuel (front.length + 6) := by
  have hslice : sliceOf (0x5C :: 0x75 :: a :: b :: c :: d :: t) 2 6 = some [a, b, c, d] := by
    simp [sliceOf]
  have hslice' : sliceOf (0x5C :: 0x75 :: a :: b :: c :: d :: t) 8 12 = sliceOf t 2 6 :=
    sliceOf_front [0x5C, 0x75, a, b, c, d] t 2 6
  have hlen : (front ++ 0x5C :: 0x75 :: a :: b :: c :: d :: t).length ≤ front.length + 11 ↔
      t.length < 6 := by
    simp only [List.length_append, List.length_cons]
    omega
  rw [holdableLoop, getElem?_front_zero]
  simp only [List.getElem?_cons_zero, Nat.add_assoc, Nat.reduceAdd, getElem?_front, sliceOf_front,
    hslice, hslice', hlen, List.getElem?_cons_succ, ne_eq, not_true_eq_false, if_false,
    List.append_assoc, List.cons_append, List.nil_append]

end

/-- For `fuel` rounds the scan is exact from any place that is not inside an escape, and reads
nothing behind the end. -/
def ScanExact (fuel : ℕ) : Prop :=
  ∀ (front s : GoString) (m : Machine) (v : Json), s.length ≤ fuel → m.escaping = false →
    (m.run s).finish = some v →
      ∃ ok, holdableLoop (front ++ s) fuel front.length = some ok ∧ (ok = true ↔ Paired m s)

section

variable {fuel : ℕ} {front pre t : GoString} {m : Machine} {v : Json}

/-- A front whose escapes are paired within it is skipped. -/
theorem ScanExact.skip (ih : ScanExact fuel) (hfuel : (pre ++ t).length ≤ fuel + 1)
    (hpre : pre ≠ []) (hcalm : (m.run pre).escaping = false)
    (hv : (m.run (pre ++ t)).finish = some v)
    (hpaired : ∀ i < pre.length, ∀ r, EscapeAt m (pre ++ t) i r → PairedAt m (pre ++ t) i r)
    (hwithin : ∀ i < pre.length, ∀ r, EscapeAt m (pre ++ t) i r → isHigh r → i + 6 < pre.length) :
    ∃ ok, holdableLoop (front ++ pre ++ t) fuel (front ++ pre).length = some ok ∧
      (ok = true ↔ Paired m (pre ++ t)) := by
  have hpos := List.length_pos_iff.mpr hpre
  rw [paired_append hpaired hwithin]
  refine ih (front ++ pre) t (m.run pre) v ?_ hcalm (by rw [← run_append]; exact hv)
  rw [List.length_append] at hfuel
  omega

/-- A front without escapes is skipped. -/
theorem ScanExact.skip_plain (ih : ScanExact fuel) (hfuel : (pre ++ t).length ≤ fuel + 1)
    (hpre : pre ≠ []) (hcalm : (m.run pre).escaping = false)
    (hv : (m.run (pre ++ t)).finish = some v)
    (hno : ∀ i < pre.length, ∀ r, ¬ EscapeAt m (pre ++ t) i r) :
    ∃ ok, holdableLoop (front ++ pre ++ t) fuel (front ++ pre).length = some ok ∧
      (ok = true ↔ Paired m (pre ++ t)) :=
  ih.skip hfuel hpre hcalm hv (fun i hi r h => absurd h (hno i hi r))
    fun i hi r h => absurd h (hno i hi r)

/-- A first half with no second half behind it. -/
theorem not_paired_of_high {n : Rune} (hfirst : EscapeAt m (pre ++ t) 0 n) (hpre : pre.length = 6)
    (hhigh : isHigh n) (hno : ∀ r, EscapeAt (m.run pre) t 0 r → ¬ isLow r) :
    ¬ Paired m (pre ++ t) := by
  intro h
  obtain ⟨r, hr, hr'⟩ := (h 0 n hfirst).high hhigh
  rw [← hpre, Nat.add_comm] at hr
  exact hno r (escapeAt_append.mp hr) hr'

/-- A first half and the second half behind it are skipped together. -/
theorem ScanExact.skip_pair (ih : ScanExact fuel) {pre' : GoString} {n n' : Rune}
    (hfuel : (pre ++ (pre' ++ t)).length ≤ fuel + 1) (hpre : pre.length = 6)
    (hpre' : pre'.length = 6) (hcalm : ((m.run pre).run pre').escaping = false)
    (hv : (m.run (pre ++ (pre' ++ t))).finish = some v)
    (hat : ∀ i < 6, ∀ r, EscapeAt m (pre ++ (pre' ++ t)) i r ↔ i = 0 ∧ r = n)
    (hat' : ∀ i < 6, ∀ r, EscapeAt (m.run pre) (pre' ++ t) i r ↔ i = 0 ∧ r = n')
    (hhigh : isHigh n) (hlow : isLow n') :
    ∃ ok, holdableLoop (front ++ pre ++ (pre' ++ t)) fuel (front.length + 12) = some ok ∧
      (ok = true ↔ Paired m (pre ++ (pre' ++ t))) := by
  have hlen : (pre ++ pre').length = 12 := by rw [List.length_append, hpre, hpre']
  have hassoc : pre ++ (pre' ++ t) = pre ++ pre' ++ t := (List.append_assoc _ _ _).symm
  -- the two halves are the only escapes of the twelve bytes
  have hboth : ∀ i < 12, ∀ r, EscapeAt m (pre ++ (pre' ++ t)) i r →
      i = 0 ∧ r = n ∨ i = 6 ∧ r = n' := by
    intro i hi r hr
    by_cases hlt : i < 6
    · exact .inl ((hat i hlt r).mp hr)
    · obtain ⟨k, rfl⟩ := Nat.exists_eq_add_of_le (not_lt.mp hlt)
      rw [← hpre] at hr
      obtain ⟨rfl, rfl⟩ := (hat' k (by omega) r).mp (escapeAt_append.mp hr)
      exact .inr ⟨rfl, rfl⟩
  have hfirst := (hat 0 (by decide) n).mpr ⟨rfl, rfl⟩
  have hsecond : EscapeAt m (pre ++ (pre' ++ t)) 6 n' := by
    have h := escapeAt_append.mpr ((hat' 0 (by decide) n').mpr ⟨rfl, rfl⟩)
    rwa [hpre] at h
  have hnohigh : ¬ isHigh n' := fun h => absurd (Nat.le_trans hlow.1 h.2) (by decide)
  have hnolow : ¬ isLow n := fun h => absurd (Nat.le_trans h.1 hhigh.2) (by decide)
  have hskip := @ScanExact.skip fuel front (pre ++ pre') t m v ih
  rw [← hassoc, hlen, @List.length_append _ front, hlen, ← List.append_assoc front,
    List.append_assoc (front ++ pre)] at hskip
  refine hskip hfuel ?_ (by rw [run_append]; exact hcalm) hv (fun i hi r h => ?_)
    fun i hi r h hr => ?_
  · exact List.ne_nil_of_length_pos (by omega)
  · rcases hboth i hi r h with ⟨rfl, rfl⟩ | ⟨rfl, rfl⟩
    · exact ⟨fun h => absurd (h ▸ hhigh.1) (by decide), fun _ => ⟨n', hsecond, hlow⟩,
        fun h => absurd h hnolow⟩
    · exact ⟨fun h => absurd (h ▸ hlow.1) (by decide), fun h => absurd h hnohigh,
        fun _ => ⟨0, n, rfl, hfirst, hhigh⟩⟩
  · rcases hboth i hi r h with ⟨rfl, rfl⟩ | ⟨rfl, rfl⟩
    · show 6 < 12
      decide
    · exact absurd hr hnohigh

/-- The round at the escape of a code unit. -/
theorem ScanExact.digits (ih : ScanExact fuel) {a b c d : UInt8} {raw : GoString}
    (hfuel : (0x5C :: 0x75 :: a :: b :: c :: d :: t).length ≤ fuel + 1)
    (hv : (m.run (0x5C :: 0x75 :: a :: b :: c :: d :: t)).finish = some v)
    (hstring : ∃ raw, m.mode = .inString raw) (hhex : [a, b, c, d].all hex = true)
    (hrun : m.run [0x5C, 0x75, a, b, c, d] = ⟨.inString raw, m.stack⟩)
    (hescaping : ∀ k, 0 < k → k < 6 →
      (m.run ([0x5C, 0x75, a, b, c, d].take k)).escaping = true) :
    ∃ ok, holdableLoop (front ++ 0x5C :: 0x75 :: a :: b :: c :: d :: t) (fuel + 1) front.length =
        some ok ∧ (ok = true ↔ Paired m (0x5C :: 0x75 :: a :: b :: c :: d :: t)) := by
  have hat := escapeAt_digits (t := t) hstring hhex hescaping
  have hfirst := (hat 0 (by decide) _).mpr ⟨rfl, rfl⟩
  have hcalm : (m.run [0x5C, 0x75, a, b, c, d]).escaping = false := by
    rw [hrun]
    rfl
  rw [holdableLoop_digits]
  generalize jsonEscape [a, b, c, d] = n at hat hfirst
  have hunpaired (hhigh : isHigh n)
      (hno : ∀ r, EscapeAt (m.run [0x5C, 0x75, a, b, c, d]) t 0 r → ¬ isLow r) :
      ∃ ok, some false = some ok ∧
        (ok = true ↔ Paired m (0x5C :: 0x75 :: a :: b :: c :: d :: t)) :=
    ⟨false, rfl, iff_of_false Bool.false_ne_true
      (@not_paired_of_high [0x5C, 0x75, a, b, c, d] t m n hfirst rfl hhigh hno)⟩
  dsimp only
  split_ifs with hzero hlow hhigh hshort
  · exact ⟨false, rfl, iff_of_false Bool.false_ne_true fun h => (h 0 n hfirst).ne_zero hzero⟩
  · refine ⟨false, rfl, iff_of_false Bool.false_ne_true fun h => ?_⟩
    obtain ⟨j, _, hj, -⟩ := (h 0 n hfirst).low hlow
    omega
  · refine hunpaired hhigh fun r hr => ?_
    obtain ⟨_, _, _, _, _, rfl, -⟩ := getu4_eq_some hr.2
    simp only [List.length_cons] at hshort
    omega
  · cases t with
    | nil => exact absurd (by decide) hshort
    | cons e t =>
      simp only [List.getElem?_cons_zero, List.getElem?_cons_succ]
      by_cases he : e = 0x5C
      · subst he
        rw [show 0x5C :: 0x75 :: a :: b :: c :: d :: 0x5C :: t =
          [0x5C, 0x75, a, b, c, d] ++ 0x5C :: t from rfl, run_append] at hv
        obtain ⟨hstring', -, ⟨e, t, -, rfl, he, -⟩ | ⟨a', b', c', d', t, raw', rfl, hhex',
          hrun', hescaping'⟩⟩ := run_backslash hcalm hv
        · rw [if_neg (by simp), List.getElem?_cons_zero]
          simp only [ne_eq, he, not_false_eq_true, if_true]
          refine hunpaired hhigh fun r hr => ?_
          obtain ⟨_, _, _, _, _, heq, -⟩ := getu4_eq_some hr.2
          exact absurd (List.cons.inj (List.cons.inj heq).2).1 he
        · have hat' := escapeAt_digits (t := t) hstring' hhex' hescaping'
          have hslice : sliceOf (0x5C :: 0x75 :: a' :: b' :: c' :: d' :: t) 2 6 =
              some [a', b', c', d'] := by
            simp [sliceOf]
          rw [hslice]
          generalize hn' : jsonEscape [a', b', c', d'] = n' at hat'
          simp only [List.getElem?_cons_zero, hn', ne_eq, not_true_eq_false, if_false]
          split_ifs with hlow'
          · refine hunpaired hhigh fun r hr hr' => ?_
            obtain ⟨-, rfl⟩ := (hat' 0 (by decide) r).mp hr
            exact hlow'.elim (fun h => absurd hr'.1 (not_le.mpr h))
              fun h => absurd hr'.2 (not_le.mpr h)
          · rw [← run_append] at hv
            refine @skip_pair fuel front [0x5C, 0x75, a, b, c, d] t m v ih
              [0x5C, 0x75, a', b', c', d'] n n' hfuel rfl rfl ?_ hv hat hat' hhigh
              ⟨not_lt.mp fun h => hlow' (.inl h), not_lt.mp fun h => hlow' (.inr h)⟩
            rw [hrun']
            rfl
      · rw [if_pos he]
        exact hunpaired hhigh fun r hr => absurd hr (not_escapeAt_of_ne rfl he)
  · rw [show front.length + 6 = (front ++ [0x5C, 0x75, a, b, c, d]).length by simp]
    refine @skip fuel front [0x5C, 0x75, a, b, c, d] t m v ih hfuel (List.cons_ne_nil _ _) hcalm hv
      (fun i hi r h => ?_) fun i hi r h hr => ?_
    · obtain ⟨rfl, rfl⟩ := (hat i hi r).mp h
      exact ⟨hzero, fun h => absurd h hhigh, fun h => absurd h hlow⟩
    · obtain ⟨rfl, rfl⟩ := (hat i hi r).mp h
      exact absurd hr hhigh

end

/-- **The scan is exact from any place that is not inside an escape**, and reads nothing behind the
end. -/
theorem holdableLoop_spec (fuel : ℕ) : ScanExact fuel := by
  induction fuel with
  | zero =>
    intro front s m v hfuel hm hv
    obtain rfl := List.length_eq_zero_iff.mp (Nat.le_zero.mp hfuel)
    exact ⟨true, rfl, iff_of_true rfl (paired_nil m)⟩
  | succ fuel ih =>
    intro front s m v hfuel hm hv
    cases s with
    | nil =>
      refine ⟨true, ?_, iff_of_true rfl (paired_nil m)⟩
      rw [holdableLoop, getElem?_front_zero]
      rfl
    | cons c t =>
      by_cases hc : c = 0x5C
      · subst hc
        obtain ⟨hstring, hfirst, ⟨e, t, raw, rfl, he, hrun⟩ | ⟨a, b, c, d, t, raw, rfl, hhex, hrun,
          hescaping⟩⟩ := run_backslash hm hv
        · rw [holdableLoop_letter front t fuel he]
          refine @ScanExact.skip_plain fuel front [0x5C, e] t m v ih hfuel (List.cons_ne_nil _ _)
            (by rw [hrun]; rfl) hv fun i hi r h => ?_
          obtain rfl | rfl : i = 0 ∨ i = 1 := by
            simp only [List.length_cons, List.length_nil] at hi
            omega
          · obtain ⟨_, _, _, _, _, heq, -⟩ := getu4_eq_some h.2
            exact he (List.cons.inj (List.cons.inj heq).2).1
          · exact not_escapeAt_of_escaping hfirst h
        · exact ih.digits hfuel hv hstring hhex hrun hescaping
      · rw [holdableLoop_byte front t fuel hc]
        refine @ScanExact.skip_plain fuel front [c] t m v ih hfuel (List.cons_ne_nil _ _)
          (escaping_step hm hc) hv fun i hi r => ?_
        obtain rfl := Nat.lt_one_iff.mp hi
        exact not_escapeAt_of_ne rfl hc

/-- **The scan is exact**: on every JSON text it ends with an answer, and the answer says whether
both databases hold the text. -/
theorem dataHoldable_iff {doc : GoString} (hdoc : (parseJson doc).isSome) :
    ∃ ok, dataHoldable doc = some ok ∧ (ok = true ↔ Holdable doc) := by
  obtain ⟨v, hv⟩ := Option.isSome_iff_exists.mp hdoc
  rw [dataHoldable]
  by_cases hvalid : validUTF8 doc = true
  · obtain ⟨ok, hok, hiff⟩ := holdableLoop_spec doc.length [] doc {} v le_rfl rfl hv
    refine ⟨ok, ?_, hiff.trans ⟨fun h => ⟨hvalid, h⟩, Holdable.paired⟩⟩
    rw [hvalid]
    exact hok
  · refine ⟨false, ?_, iff_of_false Bool.false_ne_true fun h => hvalid h.valid⟩
    rw [Bool.eq_false_iff.mpr hvalid]
    rfl

/-- A pair, and an escaped backslash before the letter `u`. -/
theorem dataHoldable_pair :
    (parseJson (ascii "\"\\ud83d\\ude00\\\\u0000\"")).isSome ∧
      ∃ ok, dataHoldable (ascii "\"\\ud83d\\ude00\\\\u0000\"") = some ok ∧
        (ok = true ↔ Holdable (ascii "\"\\ud83d\\ude00\\\\u0000\"")) := by
  have hdoc : (parseJson (ascii "\"\\ud83d\\ude00\\\\u0000\"")).isSome := by
    rw [ascii_ofList]
    decide +kernel
  exact ⟨hdoc, dataHoldable_iff hdoc⟩

end Beardrive
