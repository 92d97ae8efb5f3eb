import Beardrive.Lib.Lcs
import Beardrive.Lib.MergeLines

/-!
# The shown diff of two versions

Two versions of a file are compared line by line. The lines both begin and end with are set aside;
for what is left a table of the longest common subsequences of all ends is built, and a walk through
it keeps equal lines and otherwise leaves out the line that costs nothing. A table with too many
cells is not built: then everything that is left is shown as replaced.

Lines are of any type that can be compared.

## Main definitions

* `DiffLine` — a shown line, with its number on either side
* `table`, `walk` — the table and the walk through it
* `lcsDiff`, `diffText` — the diff of two lists of lines, and of two texts

## Main results

* `cell_table` — what the table holds
* `sides_lcsDiff` — the diff shows both versions
* `longestCommon_lcsDiff` — it keeps as many lines as can be kept
* `diffText_counts` — the counts beside it
-/

namespace Beardrive

namespace LineDiff

/-- `DiffOp`: a line of both versions, of the new one, of the old one. -/
inductive DiffOp
  | same
  | add
  | del
  deriving DecidableEq, Repr

/-- `DiffLine`. The numbers count from one; a line of one version has no number on the other. -/
structure DiffLine (α : Type*) where
  op : DiffOp
  line : α
  an : Option ℕ
  bn : Option ℕ
  deriving DecidableEq, Repr

/-- `CELL_BUDGET`. -/
def cellBudget : ℕ := 4000000

section

variable {α : Type*} [DecidableEq α]

/-! ### The table -/

/-- Row `i` of the table, from its last cell to its first, over row `i + 1`. -/
def tableRow (x : α) : List α → List ℕ → List ℕ
  | [], _ => [0]
  | y :: bm, below =>
    let row := tableRow x bm below.tail
    (if x = y then below.tail.headD 0 + 1 else max (below.headD 0) (row.headD 0)) :: row

/-- `L`, from its last row to its first. -/
def table : List α → List α → List (List ℕ)
  | [], bm => [List.replicate (bm.length + 1) 0]
  | x :: am, bm =>
    let L := table am bm
    tableRow x bm (L.headD []) :: L

/-- `L[i][j]`. -/
def cell (L : List (List ℕ)) (i j : ℕ) : ℕ := (L.getD i []).getD j 0

/-! ### The diff -/

/-- `del(i)`, where `p` lines are set aside in front. -/
def del (p i : ℕ) (x : α) : DiffLine α := ⟨.del, x, some (p + i + 1), none⟩

/-- `add(j)`. -/
def add (p j : ℕ) (y : α) : DiffLine α := ⟨.add, y, none, some (p + j + 1)⟩

/-- `while (i < n) del(i++)`. -/
def dels (p : ℕ) : List α → ℕ → List (DiffLine α)
  | [], _ => []
  | x :: am, i => del p i x :: dels p am (i + 1)

/-- `while (j < m) add(j++)`. -/
def adds (p : ℕ) : List α → ℕ → List (DiffLine α)
  | [], _ => []
  | y :: bm, j => add p j y :: adds p bm (j + 1)

/-- Lines of both versions, with `i` lines in front of them on the old side and `j` on the new. -/
def sames : List α → ℕ → ℕ → List (DiffLine α)
  | [], _, _ => []
  | x :: am, i, j => ⟨.same, x, some (i + 1), some (j + 1)⟩ :: sames am (i + 1) (j + 1)

/-- The walk through the table, from line `i` of the old version and line `j` of the new one. -/
def walk (L : List (List ℕ)) (p : ℕ) : List α → List α → ℕ → ℕ → List (DiffLine α)
  | x :: am, y :: bm, i, j =>
    if x = y then ⟨.same, x, some (p + i + 1), some (p + j + 1)⟩ :: walk L p am bm (i + 1) (j + 1)
    else if cell L i (j + 1) ≤ cell L (i + 1) j then del p i x :: walk L p am (y :: bm) (i + 1) j
    else add p j y :: walk L p (x :: am) bm i (j + 1)
  | am, bm, i, j => dels p am i ++ adds p bm j
termination_by am bm => am.length + bm.length

/-- `a.slice(p, a.length - s)`. -/
def middle (p s : ℕ) (a : List α) : List α := (a.take (a.length - s)).drop p

/-- `lcsDiff`. The second loop compares the ends of what the first one left. -/
def lcsDiff (a b : List α) : List (DiffLine α) :=
  let p := commonFront a b
  let s := commonFront (a.drop p).reverse (b.drop p).reverse
  let am := middle p s a
  let bm := middle p s b
  sames (a.take p) 0 0 ++
    (if am.length * bm.length > cellBudget then dels p am 0 ++ adds p bm 0
      else walk (table am bm) p am bm 0 0) ++
    sames (a.drop (a.length - s)) (a.length - s) (b.length - s)

/-! ### The two sides of a diff -/

/-- The lines of a version with their numbers, `k` lines being in front of them. -/
def numbered : List α → ℕ → List (α × Option ℕ)
  | [], _ => []
  | x :: l, k => (x, some (k + 1)) :: numbered l (k + 1)

/-- What a diff shows of the old version. -/
def oldSide (d : List (DiffLine α)) : List (α × Option ℕ) :=
  (d.filter (·.op ≠ .add)).map fun l => (l.line, l.an)

/-- What it shows of the new one. -/
def newSide (d : List (DiffLine α)) : List (α × Option ℕ) :=
  (d.filter (·.op ≠ .del)).map fun l => (l.line, l.bn)

/-- How many lines it shows as lines of both. -/
def kept (d : List (DiffLine α)) : ℕ := d.countP (·.op = .same)

end

section

variable {α : Type*}

theorem numbered_append (l l' : List α) (k : ℕ) :
    numbered (l ++ l') k = numbered l k ++ numbered l' (k + l.length) := by
  induction l generalizing k with
  | nil => rfl
  | cons x l ih =>
    rw [List.cons_append, numbered, numbered, ih, List.cons_append, List.length_cons,
      Nat.add_assoc, Nat.add_comm 1]

/-- Line `i` of a version has number `i + 1`. -/
theorem numbered_eq (l : List α) (k : ℕ) :
    numbered l k = l.mapIdx fun i x => (x, some (k + i + 1)) := by
  induction l generalizing k with
  | nil => rfl
  | cons x l ih =>
    rw [numbered, ih, List.mapIdx_cons]
    simp only [Nat.add_zero, Nat.add_assoc, Nat.add_comm 1]

@[simp] theorem oldSide_append (d d' : List (DiffLine α)) :
    oldSide (d ++ d') = oldSide d ++ oldSide d' := by
  rw [oldSide, List.filter_append, List.map_append, oldSide, oldSide]

@[simp] theorem newSide_append (d d' : List (DiffLine α)) :
    newSide (d ++ d') = newSide d ++ newSide d' := by
  rw [newSide, List.filter_append, List.map_append, newSide, newSide]

@[simp] theorem kept_append (d d' : List (DiffLine α)) : kept (d ++ d') = kept d + kept d' :=
  List.countP_append

@[simp] theorem oldSide_cons_same (x : α) (an bn : Option ℕ) (d : List (DiffLine α)) :
    oldSide (⟨.same, x, an, bn⟩ :: d) = (x, an) :: oldSide d := rfl

@[simp] theorem newSide_cons_same (x : α) (an bn : Option ℕ) (d : List (DiffLine α)) :
    newSide (⟨.same, x, an, bn⟩ :: d) = (x, bn) :: newSide d := rfl

@[simp] theorem kept_cons_same (x : α) (an bn : Option ℕ) (d : List (DiffLine α)) :
    kept (⟨.same, x, an, bn⟩ :: d) = kept d + 1 := List.countP_cons_of_pos rfl

@[simp] theorem oldSide_cons_del (p i : ℕ) (x : α) (d : List (DiffLine α)) :
    oldSide (del p i x :: d) = (x, some (p + i + 1)) :: oldSide d := rfl

@[simp] theorem newSide_cons_del (p i : ℕ) (x : α) (d : List (DiffLine α)) :
    newSide (del p i x :: d) = newSide d := rfl

@[simp] theorem kept_cons_del (p i : ℕ) (x : α) (d : List (DiffLine α)) :
    kept (del p i x :: d) = kept d := List.countP_cons_of_neg Bool.false_ne_true

@[simp] theorem oldSide_cons_add (p j : ℕ) (y : α) (d : List (DiffLine α)) :
    oldSide (add p j y :: d) = oldSide d := rfl

@[simp] theorem newSide_cons_add (p j : ℕ) (y : α) (d : List (DiffLine α)) :
    newSide (add p j y :: d) = (y, some (p + j + 1)) :: newSide d := rfl

@[simp] theorem kept_cons_add (p j : ℕ) (y : α) (d : List (DiffLine α)) :
    kept (add p j y :: d) = kept d := List.countP_cons_of_neg Bool.false_ne_true

/-! ### The loops -/

theorem sides_sames (l : List α) (i j : ℕ) :
    oldSide (sames l i j) = numbered l i ∧ newSide (sames l i j) = numbered l j ∧
      kept (sames l i j) = l.length := by
  induction l generalizing i j with
  | nil => exact ⟨rfl, rfl, rfl⟩
  | cons x l ih =>
    obtain ⟨hold, hnew, hkept⟩ := ih (i + 1) (j + 1)
    simp only [sames, numbered, oldSide_cons_same, newSide_cons_same, kept_cons_same, hold, hnew,
      hkept, List.length_cons, and_self]

theorem sides_dels (p : ℕ) (l : List α) (i : ℕ) :
    oldSide (dels p l i) = numbered l (p + i) ∧ newSide (dels p l i) = [] ∧
      kept (dels p l i) = 0 := by
  induction l generalizing i with
  | nil => exact ⟨rfl, rfl, rfl⟩
  | cons x l ih =>
    obtain ⟨hold, hnew, hkept⟩ := ih (i + 1)
    simp only [dels, numbered, oldSide_cons_del, newSide_cons_del, kept_cons_del, hold, hnew, hkept,
      Nat.add_assoc, and_self]

theorem sides_adds (p : ℕ) (l : List α) (j : ℕ) :
    oldSide (adds p l j) = [] ∧ newSide (adds p l j) = numbered l (p + j) ∧
      kept (adds p l j) = 0 := by
  induction l generalizing j with
  | nil => exact ⟨rfl, rfl, rfl⟩
  | cons y l ih =>
    obtain ⟨hold, hnew, hkept⟩ := ih (j + 1)
    simp only [adds, numbered, oldSide_cons_add, newSide_cons_add, kept_cons_add, hold, hnew, hkept,
      Nat.add_assoc, and_self]

/-! ### The parts of a version -/

/-- A version is what is set aside in front, what is left, and what is set aside behind. -/
theorem append_middle (p s : ℕ) (a : List α) (h : p + s ≤ a.length) :
    a.take p ++ middle p s a ++ a.drop (a.length - s) = a := by
  have htake : a.take p = (a.take (a.length - s)).take p := by
    rw [List.take_take, Nat.min_eq_left (by omega)]
  rw [middle, htake, List.take_append_drop, List.take_append_drop]

theorem length_middle (p s : ℕ) (a : List α) (h : p + s ≤ a.length) :
    (middle p s a).length = a.length - s - p := by
  rw [middle, List.length_drop, List.length_take, Nat.min_eq_left (by omega)]

/-- The numbers go on from one part to the next. -/
theorem numbered_parts (p s : ℕ) (a : List α) (h : p + s ≤ a.length) :
    numbered (a.take p) 0 ++ numbered (middle p s a) p ++
      numbered (a.drop (a.length - s)) (a.length - s) = numbered a 0 := by
  have hp : (a.take p).length = p := by rw [List.length_take, Nat.min_eq_left (by omega)]
  conv_rhs => rw [← append_middle p s a h]
  rw [numbered_append, numbered_append, List.length_append, hp, length_middle p s a h,
    Nat.zero_add, Nat.zero_add, show p + (a.length - s - p) = a.length - s by omega]

end

section

variable {α : Type*} [DecidableEq α]

/-- **Whatever the table holds, the walk shows both sides.** -/
theorem sides_walk (L : List (List ℕ)) (p : ℕ) (am bm : List α) (i j : ℕ) :
    oldSide (walk L p am bm i j) = numbered am (p + i) ∧
      newSide (walk L p am bm i j) = numbered bm (p + j) := by
  fun_induction walk L p am bm i j with
  | case1 am i j y bm ih =>
    obtain ⟨hold, hnew⟩ := ih
    rw [oldSide_cons_same, newSide_cons_same, hold, hnew]
    exact ⟨rfl, rfl⟩
  | case2 x am y bm i j hne hle ih =>
    obtain ⟨hold, hnew⟩ := ih
    rw [oldSide_cons_del, newSide_cons_del, hold, hnew]
    exact ⟨rfl, rfl⟩
  | case3 x am y bm i j hne hle ih =>
    obtain ⟨hold, hnew⟩ := ih
    rw [oldSide_cons_add, newSide_cons_add, hold, hnew]
    exact ⟨rfl, rfl⟩
  | case4 am bm i j hends =>
    rw [oldSide_append, newSide_append, (sides_dels p am i).1, (sides_dels p am i).2.1,
      (sides_adds p bm j).1, (sides_adds p bm j).2.1]
    exact ⟨List.append_nil _, rfl⟩

/-! ### What the table holds -/

theorem tableRow_eq (x : α) (am bm : List α) :
    tableRow x bm (bm.tails.map (lcsLength am)) = bm.tails.map (lcsLength (x :: am)) := by
  induction bm with
  | nil => simp [tableRow]
  | cons y bm ih =>
    have hhead (am : List α) : (bm.tails.map (lcsLength am)).headD 0 = lcsLength am bm := by
      cases bm <;> simp
    rw [List.tails_cons, List.map_cons, List.map_cons, tableRow, List.tail_cons, ih, hhead, hhead,
      List.headD_cons]
    congr 1
    rw [lcsLength]

/-- **The table holds the longest common subsequences of all ends.** -/
theorem table_eq (am bm : List α) :
    table am bm = am.tails.map fun a => bm.tails.map (lcsLength a) := by
  induction am with
  | nil =>
    have hzero : bm.tails.map (lcsLength []) = List.replicate (bm.length + 1) 0 := by
      rw [List.eq_replicate_iff]
      simp
    rw [table, List.tails, List.map_singleton, hzero]
  | cons x am ih =>
    have hhead : (am.tails.map fun a => bm.tails.map (lcsLength a)).headD [] =
        bm.tails.map (lcsLength am) := by
      cases am <;> simp
    rw [table, ih, hhead, tableRow_eq, List.tails_cons, List.map_cons]

theorem cell_table (am bm : List α) (i j : ℕ) (hi : i ≤ am.length) (hj : j ≤ bm.length) :
    cell (table am bm) i j = lcsLength (am.drop i) (bm.drop j) := by
  have hrow : i < ((am.tails.map fun a => bm.tails.map (lcsLength a))).length := by
    rw [List.length_map, List.length_tails]
    omega
  have hcell : j < (bm.tails.map (lcsLength (am.drop i))).length := by
    rw [List.length_map, List.length_tails]
    omega
  rw [cell, table_eq, List.getD_eq_getElem?_getD, List.getD_eq_getElem?_getD,
    List.getElem?_eq_getElem hrow, Option.getD_some, List.getElem_map, List.getElem_tails,
    List.getElem?_eq_getElem hcell, Option.getD_some, List.getElem_map, List.getElem_tails]

/-- **The walk keeps a longest common subsequence**: it gives up the side whose end has no more to
share. -/
theorem kept_walk (p : ℕ) {am bm : List α} {am' bm' : List α} {i j : ℕ} (hi : i ≤ am.length)
    (hj : j ≤ bm.length) (ha : am.drop i = am') (hb : bm.drop j = bm') :
    kept (walk (table am bm) p am' bm' i j) = lcsLength am' bm' := by
  have hstep {l l' : List α} {k : ℕ} {x : α} (h : l.drop k = x :: l') :
      k + 1 ≤ l.length ∧ l.drop (k + 1) = l' := by
    have hlen := congrArg List.length h
    rw [List.length_drop, List.length_cons] at hlen
    refine ⟨by omega, ?_⟩
    rw [← List.tail_drop, h, List.tail_cons]
  fun_induction walk (table am bm) p am' bm' i j with
  | case1 am' i j y bm' ih =>
    obtain ⟨hi', ha'⟩ := hstep ha
    obtain ⟨hj', hb'⟩ := hstep hb
    rw [kept_cons_same, ih hi' hj' ha' hb', lcsLength, if_pos rfl]
  | case2 x am' y bm' i j hne hle ih =>
    obtain ⟨hi', ha'⟩ := hstep ha
    obtain ⟨hj', hb'⟩ := hstep hb
    rw [cell_table am bm i (j + 1) hi hj', cell_table am bm (i + 1) j hi' hj, ha, hb, ha', hb']
      at hle
    rw [kept_cons_del, ih hi' hj ha' hb, lcsLength, if_neg hne, Nat.max_eq_left hle]
  | case3 x am' y bm' i j hne hle ih =>
    obtain ⟨hi', ha'⟩ := hstep ha
    obtain ⟨hj', hb'⟩ := hstep hb
    rw [cell_table am bm i (j + 1) hi hj', cell_table am bm (i + 1) j hi' hj, ha, hb, ha', hb']
      at hle
    rw [kept_cons_add, ih hi hj' ha hb', lcsLength, if_neg hne,
      Nat.max_eq_right (Nat.le_of_not_le hle)]
  | case4 am' bm' i j hends =>
    rw [kept_append, (sides_dels p am' i).2.2, (sides_adds p bm' j).2.2]
    cases am' with
    | nil => rw [lcsLength_nil_left]
    | cons x am' =>
      cases bm' with
      | nil => rw [lcsLength_nil_right]
      | cons y bm' => exact absurd rfl fun h => hends x am' y bm' rfl h

/-! ### The diff -/

/-- What the trimming leaves of two versions, and what it sets aside. -/
theorem trim (a b : List α) :
    let p := commonFront a b
    let s := commonFront (a.drop p).reverse (b.drop p).reverse
    p + s ≤ a.length ∧ p + s ≤ b.length ∧ a.take p = b.take p ∧
      a.drop (a.length - s) = b.drop (b.length - s) := by
  intro p s
  obtain ⟨hpa, hpb⟩ := commonFront_le a b
  obtain ⟨hsa, hsb⟩ := commonFront_le (a.drop p).reverse (b.drop p).reverse
  rw [List.length_reverse, List.length_drop] at hsa hsb
  have hdrop := drop_commonFront_reverse (a.drop p) (b.drop p)
  rw [List.drop_drop, List.drop_drop, List.length_drop, List.length_drop] at hdrop
  refine ⟨by omega, by omega, take_commonFront a b, ?_⟩
  rwa [show p + (a.length - p - s) = a.length - s by omega,
    show p + (b.length - p - s) = b.length - s by omega] at hdrop

/-- **The diff shows both versions**, with their numbers. -/
theorem sides_lcsDiff (a b : List α) :
    oldSide (lcsDiff a b) = numbered a 0 ∧ newSide (lcsDiff a b) = numbered b 0 := by
  obtain ⟨ha, hb, hfront, hend⟩ := trim a b
  simp only [lcsDiff, oldSide_append, newSide_append]
  generalize commonFront a b = p at *
  generalize commonFront (a.drop p).reverse (b.drop p).reverse = s at *
  rw [← numbered_parts p s a ha, ← numbered_parts p s b hb, ← hfront, ← hend,
    (sides_sames _ 0 0).1, (sides_sames _ 0 0).2.1, (sides_sames _ _ _).1, (sides_sames _ _ _).2.1]
  split_ifs
  · rw [oldSide_append, newSide_append, (sides_dels p _ 0).1, (sides_dels p _ 0).2.1,
      (sides_adds p _ 0).1, (sides_adds p _ 0).2.1, List.append_nil, List.nil_append]
    exact ⟨rfl, rfl⟩
  · rw [(sides_walk _ p _ _ 0 0).1, (sides_walk _ p _ _ 0 0).2]
    exact ⟨rfl, rfl⟩

/-- How many cells the table has, its borders apart. -/
def tableCells (a b : List α) : ℕ :=
  let p := commonFront a b
  let s := commonFront (a.drop p).reverse (b.drop p).reverse
  (middle p s a).length * (middle p s b).length

/-- **The diff keeps a longest common subsequence**, when the table is built. -/
theorem longestCommon_lcsDiff {a b : List α} (h : tableCells a b ≤ cellBudget) :
    LongestCommon a b (kept (lcsDiff a b)) := by
  obtain ⟨ha, hb, hfront, hend⟩ := trim a b
  simp only [lcsDiff, kept_append]
  rw [tableCells] at h
  generalize commonFront a b = p at *
  generalize commonFront (a.drop p).reverse (b.drop p).reverse = s at *
  have hlen : (a.take p).length + lcsLength (middle p s a) (middle p s b) +
      (a.drop (a.length - s)).length = kept (sames (a.take p) 0 0) + kept (if (middle p s a).length *
        (middle p s b).length > cellBudget then dels p (middle p s a) 0 ++ adds p (middle p s b) 0
        else walk (table (middle p s a) (middle p s b)) p (middle p s a) (middle p s b) 0 0) +
      kept (sames (a.drop (a.length - s)) (a.length - s) (b.length - s)) := by
    rw [if_neg (Nat.not_lt.mpr h), (sides_sames _ 0 0).2.2, (sides_sames _ _ _).2.2,
      kept_walk p (Nat.zero_le _) (Nat.zero_le _) List.drop_zero List.drop_zero]
  rw [← hlen]
  have hmiddle := ((longestCommon_lcsLength (middle p s a) (middle p s b)).append_left
    (a.take p)).append_right (a.drop (a.length - s))
  rwa [append_middle p s a ha, hfront, hend, append_middle p s b hb, ← hfront, ← hend] at hmiddle

/-- **The shown diff is a diff**: without its added lines it is the old version, without its deleted
lines it is the new one, both numbered from one; and what it keeps is a longest common subsequence
of the two, unless the table was too large. -/
theorem lcsDiff_correct (a b : List α) :
    oldSide (lcsDiff a b) = a.mapIdx (fun i x => (x, some (i + 1))) ∧
      newSide (lcsDiff a b) = b.mapIdx (fun i x => (x, some (i + 1))) ∧
      (tableCells a b ≤ cellBudget → LongestCommon a b (kept (lcsDiff a b))) := by
  obtain ⟨hold, hnew⟩ := sides_lcsDiff a b
  rw [hold, hnew, numbered_eq, numbered_eq]
  simp only [Nat.zero_add, true_and]
  exact longestCommon_lcsDiff

/-- One line of three replaced. -/
theorem lcsDiff_correct_one_line :
    LongestCommon ["a", "b", "c"] ["a", "x", "c"]
      (kept (lcsDiff ["a", "b", "c"] ["a", "x", "c"])) :=
  (lcsDiff_correct ["a", "b", "c"] ["a", "x", "c"]).2.2 (by decide)

end

/-! ### Texts -/

/-- `splitLines`. The units of a text are those of the browser. -/
def splitLines (text : List UInt16) : List (List UInt16) :=
  if text = [] then []
  else
    let lines := text.splitOn 0x0A
    if lines.getLast? = some [] then lines.dropLast else lines

/-- `diffText`: the diff, and the counts of added and deleted lines. -/
def diffText (prev next : List UInt16) : List (DiffLine (List UInt16)) × ℕ × ℕ :=
  let lines := lcsDiff (splitLines prev) (splitLines next)
  (lines, lines.countP (·.op = .add), lines.countP (·.op = .del))

/-- The line breaks of a text end its lines, the last one's too. -/
theorem splitLines_finished {lines : List (List UInt16)} (h : ∀ line ∈ lines, 0x0A ∉ line) :
    splitLines (lines.flatMap (· ++ [0x0A])) = lines := by
  cases lines with
  | nil => rfl
  | cons line lines =>
    have hjoin (l : List UInt16) (ls : List (List UInt16)) :
        (l :: ls).flatMap (· ++ [0x0A]) = [0x0A].intercalate ((l :: ls) ++ [[]]) := by
      induction ls generalizing l with
      | nil => simp [List.intercalate]
      | cons l' ls ih =>
        rw [List.flatMap_cons, ih]
        simp [List.intercalate]
    have hne : (line :: lines).flatMap (· ++ [0x0A]) ≠ [] := by simp
    have hsplit : ((line :: lines).flatMap (· ++ [0x0A])).splitOn 0x0A = (line :: lines) ++ [[]] := by
      rw [hjoin]
      refine List.splitOn_intercalate 0x0A ?_ (List.cons_ne_nil _ _)
      intro l hl
      rcases List.mem_append.mp hl with hl | hl
      · exact h l hl
      · rw [List.mem_singleton.mp hl]
        exact List.not_mem_nil
    rw [splitLines, if_neg hne, hsplit]
    dsimp only
    rw [List.getLast?_append, List.getLast?_singleton, if_pos (Option.some_or ..),
      List.dropLast_concat]

/-- A last line that no break ends is a line as well. -/
theorem splitLines_open {lines : List (List UInt16)} (h : ∀ line ∈ lines, 0x0A ∉ line)
    (hlines : lines ≠ []) (hlast : lines.getLast? ≠ some []) :
    splitLines ([0x0A].intercalate lines) = lines := by
  have hsplit := List.splitOn_intercalate 0x0A h hlines
  have hne : [0x0A].intercalate lines ≠ [] := by
    intro hnil
    rw [hnil, List.splitOn_nil] at hsplit
    rw [← hsplit] at hlast
    exact hlast rfl
  rw [splitLines, if_neg hne, hsplit, if_neg hlast]

/-- **The counts beside a diff**: what was not kept of either version. -/
theorem diffText_counts (prev next : List UInt16) :
    (diffText prev next).2.1 + kept (diffText prev next).1 = (splitLines next).length ∧
      (diffText prev next).2.2 + kept (diffText prev next).1 = (splitLines prev).length := by
  have hcount (d : List (DiffLine (List UInt16))) :
      d.countP (·.op = .add) + kept d = (newSide d).length ∧
        d.countP (·.op = .del) + kept d = (oldSide d).length := by
    rw [kept, newSide, oldSide, List.length_map, List.length_map, ← List.countP_eq_length_filter,
      ← List.countP_eq_length_filter]
    induction d with
    | nil => exact ⟨rfl, rfl⟩
    | cons l d ih =>
      obtain ⟨op, line, an, bn⟩ := l
      cases op
      all_goals
        simp at ih ⊢
        omega
  have hnumbered (l : List (List UInt16)) : (numbered l 0).length = l.length := by
    rw [numbered_eq, List.length_mapIdx]
  obtain ⟨hold, hnew⟩ := sides_lcsDiff (splitLines prev) (splitLines next)
  rw [← hnumbered (splitLines next), ← hnumbered (splitLines prev), ← hold, ← hnew]
  exact hcount _

end LineDiff

end Beardrive
