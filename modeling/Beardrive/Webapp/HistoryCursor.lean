import Beardrive.Journal.Keyed
import Beardrive.Journal.RoundTrip
import Beardrive.Lib.Base64URL
import Beardrive.Lib.JsonFields
import Beardrive.Lib.Paging
import Beardrive.Webapp.FileHistory
import Beardrive.Webapp.UndoRun

/-!
# The pages of a history

A history is served newest first, in pages. A page that is not the last one comes with a cursor, and
the next page begins behind everything that does not sort behind it. The cursor is a text of four
fields of the page's last entry: its time, its clock, its sequence number and its device.

The order of the feed reads more than these four. An op put together from a cursor has no kind, so
it sorts behind every op that agrees with it on the four, and a page boundary between two such ops
loses the second one. The hub's own journals have none, but what a journal says is up to whoever
pushed it. And the time is written in UTC: a time at the very start of the year 0 or at the very end
of the year 9999 may fall into a year that the text of a time has no room for, and then the cursor
is refused. Everywhere else the pages are the history.

## Main definitions

* `encodeCursor`, `decodeCursor` — the text of a cursor
* `HistView`, `HistQuery` — a project as a reader sees it, and what is asked for
* `HistView.page`, `HistView.followCursor` — a page, and all pages one after the other
* `GoesOn` — two ops between which a page may end

## Main results

* `decodeCursor_encodeCursor`, `decodeCursor_encodeCursor_eq_none` — what becomes of a cursor
* `followCursor_iff` — the pages are the history exactly where every page ends between two such ops
-/

namespace Beardrive

/-! ### Cursors -/

/-- `histCursor`. -/
structure HistCursor where
  t : GoString := []
  l : ℤ := 0
  s : ℤ := 0
  d : GoString := []

/-- The members of a cursor. -/
def HistCursor.members (c : HistCursor) : List (GoString × Json) :=
  [stringMember "t" c.t, intMember "l" c.l, intMember "s" c.s, stringMember "d" c.d]

/-- `json.Marshal` of a cursor. -/
def HistCursor.text (c : HistCursor) : GoString :=
  objectText (c.members.map fun m => (m.1, m.2.scalarText))

/-- The fields of a cursor. -/
def HistCursor.fields : FieldTable HistCursor :=
  [(ascii "t", fun c v => (readString c.t v).map fun x => { c with t := x }),
    (ascii "l", fun c v => (readInt64 c.l v).map fun x => { c with l := x }),
    (ascii "s", fun c v => (readInt64 c.s v).map fun x => { c with s := x }),
    (ascii "d", fun c v => (readString c.d v).map fun x => { c with d := x })]

/-- `encodeCursor`. -/
def encodeCursor (op : Op) : GoString :=
  rawURLEncode (HistCursor.text
    { t := op.time.utcNano, l := op.lamport, s := op.seq, d := op.device })

/-- `decodeCursor`: a bare op of the four fields. -/
def decodeCursor (s : GoString) : Option KeyedOp := do
  let raw ← rawURLDecode s
  let c ← HistCursor.fields.read {} (← parseJson raw)
  let ts ← parseRFC3339 c.t
  return { time := ts.inUTC, lamport := c.l, seq := c.s, device := c.d }

/-- The value of a cursor. -/
def HistCursor.json (c : HistCursor) : Json :=
  .obj (c.members.map fun m => (quoteBody m.1, m.2))

theorem HistCursor.parseJson_text (c : HistCursor) : parseJson c.text = some c.json := by
  have hdenotes : Machine.DenotesMembers (c.members.map fun m => (m.1, m.2.scalarText))
      (c.members.map fun m => (quoteBody m.1, m.2)) := by
    refine Machine.denotesMembers_map fun m hm => ?_
    simp only [members, stringMember, intMember, List.mem_cons, List.not_mem_nil, or_false] at hm
    rcases hm with rfl | rfl | rfl | rfl
    · exact (Machine.inside_quoteBody c.t).denotes
    · exact Machine.denotes_formatInt c.l
    · exact Machine.denotes_formatInt c.s
    · exact (Machine.inside_quoteBody c.d).denotes
  rw [text, parseJson, Machine.run_objectText hdenotes (by simp [members]) [] (by decide)]
  rfl

/-- A cursor of valid strings and fitting numbers is read as it was written. -/
theorem HistCursor.read_json {c : HistCursor} (ht : validUTF8 c.t = true)
    (hl : -2 ^ 63 ≤ c.l ∧ c.l < 2 ^ 63) (hs : -2 ^ 63 ≤ c.s ∧ c.s < 2 ^ 63)
    (hd : validUTF8 c.d = true) : HistCursor.fields.read {} c.json = some c := by
  have hkey (k : String) (hk : toValid (ascii k) = ascii k) :
      unquote (quoteBody (ascii k)) = some (ascii k) := by
    rw [unquote_quoteBody, hk]
  rw [json, members, FieldTable.read, List.map_cons, List.foldlM_cons]
  simp only [stringMember, intMember, List.map_cons, List.map_nil]
  rw [FieldTable.assign_of_lookup (hkey "t" (by decide)) rfl, readString,
    unquote_quoteBody, toValid_eq_self_iff.mpr ht]
  simp only [Option.map_some, Option.bind_eq_bind, Option.bind_some, List.foldlM_cons]
  rw [FieldTable.assign_of_lookup (hkey "l" (by decide)) rfl, readInt64,
    parseInt64_formatInt hl]
  simp only [Option.map_some, Option.bind_some]
  rw [FieldTable.assign_of_lookup (hkey "s" (by decide)) rfl, readInt64,
    parseInt64_formatInt hs]
  simp only [Option.map_some, Option.bind_some]
  rw [FieldTable.assign_of_lookup (hkey "d" (by decide)) rfl, readString,
    unquote_quoteBody, toValid_eq_self_iff.mpr hd]
  rfl

/-- A time is written in ASCII. -/
theorem validUTF8_utcNano (t : Time) : validUTF8 t.utcNano = true := by
  have hall : ∀ n : Fin 256, timeByte (UInt8.ofNat n) = true → UInt8.ofNat n < 0x80 := by
    decide +kernel
  refine validUTF8_of_ascii fun b hb => ?_
  have hb' := hall ⟨b.toNat, b.toNat_lt⟩
  rw [UInt8.ofNat_toNat] at hb'
  exact hb' (timeByte_of_mem_utcNano b hb)

/-- What a cursor of an op that was read says, if its time is one. -/
theorem decodeCursor_encodeCursor_eq {op : Op} (h : op.Fits) (hd : validUTF8 op.device = true) :
    decodeCursor (encodeCursor op) = (parseRFC3339 op.time.utcNano).map fun ts =>
      { time := ts.inUTC, lamport := op.lamport, seq := op.seq, device := op.device } := by
  have hread := @HistCursor.read_json
    { t := op.time.utcNano, l := op.lamport, s := op.seq, d := op.device }
    (validUTF8_utcNano op.time) h.lamport h.seq hd
  rw [decodeCursor, encodeCursor, rawURLDecode_rawURLEncode]
  simp only [Option.bind_eq_bind, Option.bind_some, HistCursor.parseJson_text, hread]
  cases parseRFC3339 op.time.utcNano with
  | none => rfl
  | some ts => rfl

/-- **The cursor of an op is read**, where its year has four digits in UTC. -/
theorem decodeCursor_encodeCursor {op : Op} (h : op.Fits) (hd : validUTF8 op.device = true)
    (ht : op.time.FourDigits) : ∃ t : Time, t.ns = op.time.ns ∧
      decodeCursor (encodeCursor op) =
        some { time := t, lamport := op.lamport, seq := op.seq, device := op.device } := by
  obtain ⟨ts, hts, hns⟩ := parseRFC3339_utcNano ht
  refine ⟨ts.inUTC, ts.ns_inUTC.trans hns, ?_⟩
  rw [decodeCursor_encodeCursor_eq h hd, hts]
  rfl

/-- Where it has not, the cursor is refused. -/
theorem decodeCursor_encodeCursor_eq_none {op : Op} (h : op.Fits)
    (hd : validUTF8 op.device = true) (ht : ¬ op.time.FourDigits) :
    decodeCursor (encodeCursor op) = none := by
  rw [decodeCursor_encodeCursor_eq h hd, parseRFC3339_utcNano_eq_none ht]
  rfl

theorem encodeCursor_ne_nil (op : Op) : encodeCursor op ≠ [] := by
  refine rawURLEncode_ne_nil ?_
  simp [HistCursor.text, objectText]

/-! ### The feed -/

/-- `histFilter`. -/
structure HistFilter where
  needle : GoString := []
  user : GoString := []
  actor : GoString := []
  device : GoString := []
  since : Time := {}
  until_ : Time := {}

/-- `keep`, by what `strings.ToLower` makes of a path. -/
def HistFilter.keep (toLower : GoString → GoString) (f : HistFilter) (sop : SourcedOp) : Bool :=
  if f.needle ≠ [] ∧ contains (toLower sop.op.path) f.needle = false then false
  else if f.user ≠ [] ∧ sop.op.user ≠ f.user then false
  else if f.actor = ascii "agent" ∧ sop.op.session = [] ∨
    f.actor = ascii "human" ∧ sop.op.session ≠ [] then false
  else if f.device ≠ [] ∧ sop.origin ≠ f.device then false
  else if f.since.isZero = false ∧ sop.op.time.before f.since then false
  else if f.until_.isZero = false ∧ sop.op.time.before f.until_ = false then false
  else true

/-- What a history is asked for: a file or a folder, so many entries a page, through a filter. -/
structure HistQuery where
  path : GoString := []
  pre : GoString := []
  n : ℕ := 100
  filter : HistFilter := {}
  one_le : 1 ≤ n := by decide

/-- `timed`: an op of the feed, and its place in the order of replay. -/
structure TimedOp where
  i : ℕ
  op : Op
  deriving DecidableEq

/-- `histLess`, of what it reads. -/
def KeyedOp.histLess (a b : KeyedOp) : Bool :=
  if !a.time.equal b.time then b.time.before a.time else b.less a

theorem KeyedOp.histLess_keyed (a b : Op) :
    KeyedOp.histLess a.keyed b.keyed = Beardrive.histLess a b := by
  rw [KeyedOp.histLess, Beardrive.histLess, less_keyed]
  rfl

/-- `sort.Slice` of a feed. Which of two ops that neither precedes the other comes first is open. -/
structure TimedSort where
  sort : List TimedOp → List TimedOp
  perm : ∀ l, (sort l).Perm l
  sorted : ∀ l, (sort l).Pairwise fun a b => histLess b.op a.op = false

/-- `sourcedOpsOf`: the ops of the listed journals, each with the device whose journal it is. -/
def sourcedOpsOf (objs : List (GoString × GoString)) : List SourcedOp :=
  (objs.filter fun o => hasSuffix o.1 (ascii ".jsonl")).flatMap fun o =>
    (parse o.2).map fun op =>
      ⟨op, trimSuffix (trimPrefix o.1 (ascii "journal/")) (ascii ".jsonl")⟩

/-- A project as a reader sees it: the listed objects by their keys, and what may be read. -/
structure HistView where
  objs : List (GoString × GoString)
  canRead : GoString → Bool
  toLower : GoString → GoString

namespace HistView

variable (S : TimedSort) (v : HistView) (q : HistQuery)

/-- `buildHistIndex`: all ops, in the order of replay. -/
def all : List SourcedOp := sortSourced (sourcedOpsOf v.objs)

/-- The files that were moved to the file that is asked for. -/
def chain : List Segment :=
  let ops := v.all.map (·.op)
  chainSegments ops (buildMoveIndex ops) q.path

/-- The walk of `handleHistory`: whether an op belongs to the answer. -/
def matches_ (sop : SourcedOp) : Bool :=
  if !v.canRead sop.op.path then false
  else if q.path ≠ [] ∧ inSegments (v.chain q) sop.op.path sop.op.time = false then false
  else if q.path = [] ∧ q.pre ≠ [] ∧
    hasPrefix sop.op.path (trimSuffix q.pre [0x2F] ++ [0x2F]) = false then false
  else q.filter.keep v.toLower sop

/-- The ops that match, in the order of replay. -/
def matched : List TimedOp :=
  (v.all.zipIdx.filter fun x => v.matches_ q x.1).map fun x => ⟨x.2, x.1.op⟩

/-- The ops that match, in the order of the history. -/
def feed : List TimedOp := S.sort (v.matched q)

/-- What is left behind a cursor. No cursor leaves everything. -/
def behind (cursor : GoString) : Option (List TimedOp) :=
  if cursor = [] then some (v.feed S q)
  else (decodeCursor cursor).map fun cur =>
    (v.feed S q).dropWhile fun m => !cur.histLess m.op.keyed

/-- `handleHistory`: a page, and the cursor of the next one. -/
def page (cursor : GoString) : Option (List TimedOp × GoString) :=
  (v.behind S q cursor).map fun rest =>
    if rest.length ≤ q.n then (rest, [])
    else (rest.take q.n, (rest[q.n - 1]?.map fun m => encodeCursor m.op).getD [])

/-- The pages from a cursor on, `fuel` at most, up to the one that has no cursor. There are none
where a cursor is refused. -/
def followCursor : ℕ → GoString → Option (List TimedOp)
  | 0, _ => none
  | fuel + 1, cursor => do
    let (entries, next) ← v.page S q cursor
    if next = [] then some entries else return entries ++ (← followCursor fuel next)

end HistView

/-! ### What a cursor leaves behind -/

/-- What a cursor carries of an op, in the order of the feed. -/
def cursorKey (op : Op) : ℤ ×ₗ ℤ ×ₗ GoString ×ₗ ℤ :=
  toLex (op.time.ns, toLex (op.lamport, toLex (op.device, op.seq)))

theorem cursorKey_eq_iff {a b : Op} : cursorKey a = cursorKey b ↔ a.time.ns = b.time.ns ∧
    a.lamport = b.lamport ∧ a.device = b.device ∧ a.seq = b.seq := by
  simp [cursorKey]

/-- Two ops between which a page may end: the year of the first has four digits in UTC, and the
second differs from it in what a cursor carries. -/
def GoesOn (a b : Op) : Prop :=
  a.time.FourDigits ∧
    ¬ (a.time.ns = b.time.ns ∧ a.lamport = b.lamport ∧ a.device = b.device ∧ a.seq = b.seq)

instance (a b : Op) : Decidable (GoesOn a b) := inferInstanceAs (Decidable (_ ∧ _))

/-- The feed is sorted by what a cursor carries. -/
theorem cursorKey_le_of_histLess {a b : Op} (h : histLess b a = false) :
    cursorKey b ≤ cursorKey a := by
  have hle := not_histLess_iff.mp h
  simp only [Prod.Lex.toLex_le_toLex] at hle
  simp only [cursorKey, Prod.Lex.toLex_le_toLex]
  rcases hle with hlt | ⟨heq, hle⟩
  · exact .inl hlt
  · refine .inr ⟨heq, ?_⟩
    simp only [Op.key, Prod.Lex.toLex_le_toLex, heq, lt_irrefl, true_and, false_or] at hle
    rcases hle with hlt | ⟨hlamport, hlt | ⟨hdevice, hlt | ⟨hseq, -⟩⟩⟩
    · exact .inl hlt
    · exact .inr ⟨hlamport, .inl hlt⟩
    · exact .inr ⟨hlamport, .inr ⟨hdevice, hlt.le⟩⟩
    · exact .inr ⟨hlamport, .inr ⟨hdevice, hseq.le⟩⟩

/-- **The bare op of a cursor** sorts before exactly the ops with a smaller key. It has no kind, and
every op has one. -/
theorem histLess_bare {a m : Op} {t : Time} (ht : t.ns = a.time.ns) :
    KeyedOp.histLess { time := t, lamport := a.lamport, seq := a.seq, device := a.device }
      m.keyed = decide (cursorKey m < cursorKey a) := by
  have hkind : ∀ k : Kind, ¬ k.text < [] ∧ k.text ≠ [] := by
    intro k
    cases k <;> decide
  obtain ⟨hnlt, hne⟩ := hkind m.kind
  rw [Bool.eq_iff_iff, decide_eq_true_iff, KeyedOp.histLess]
  by_cases htime : m.time.ns = a.time.ns
  · have hequal : t.equal m.time = true := by
      rw [Time.equal, ht, htime, beq_self_eq_true]
    change (if !t.equal m.time then _ else _) = true ↔ _
    rw [hequal, Bool.not_true, if_neg Bool.false_ne_true, KeyedOp.less_iff]
    simp only [KeyedOp.key, Op.keyed, cursorKey, Prod.Lex.toLex_lt_toLex, htime, ht, hnlt, hne,
      lt_irrefl, true_and, false_or, false_and, or_false, and_false]
  · have hequal : t.equal m.time = false := by
      rw [Time.equal, ht]
      exact beq_eq_false_iff_ne.mpr (Ne.symm htime)
    change (if !t.equal m.time then m.time.before t else _) = true ↔ _
    rw [hequal, Bool.not_false, if_pos rfl, Time.before, ht, decide_eq_true_iff]
    simp only [cursorKey, Prod.Lex.toLex_lt_toLex, htime, false_and, or_false]

namespace HistView

variable {S : TimedSort} {v : HistView} {q : HistQuery}

theorem mem_feed {m : TimedOp} (h : m ∈ v.feed S q) :
    m.op.Fits ∧ validUTF8 m.op.device = true := by
  obtain ⟨⟨so, i⟩, hx, rfl⟩ := List.mem_map.mp ((S.perm _).mem_iff.mp h)
  have hall : so ∈ v.all := List.fst_mem_of_mem_zipIdx (List.mem_filter.mp hx).1
  have hmem := (List.perm_insertionSort _ (sourcedOpsOf v.objs)).mem_iff.mp hall
  obtain ⟨o, -, ho⟩ := List.mem_flatMap.mp hmem
  obtain ⟨op, hop, rfl⟩ := List.mem_map.mp ho
  exact ⟨fits_of_mem_parse hop, validDevice_of_mem_parse hop⟩

/-- No op is in the feed twice. -/
theorem nodup_feed : (v.feed S q).Nodup := by
  refine (S.perm _).nodup_iff.mpr ?_
  have hindex : (v.matched q).map TimedOp.i =
      (v.all.zipIdx.filter fun x => v.matches_ q x.1).map Prod.snd := by
    rw [matched, List.map_map]
    rfl
  refine List.Nodup.of_map TimedOp.i ?_
  rw [hindex]
  have hsub : ((v.all.zipIdx.filter fun x => v.matches_ q x.1).map Prod.snd).Sublist
      (v.all.zipIdx.map Prod.snd) := (List.filter_sublist).map _
  refine hsub.nodup ?_
  rw [List.zipIdx_map_snd]
  exact List.nodup_range'

theorem pairwise_feed :
    (v.feed S q).Pairwise fun a b => cursorKey b.op ≤ cursorKey a.op :=
  (S.sorted _).imp cursorKey_le_of_histLess

/-- A page begins behind the key of the last entry of the page before. -/
theorem behind_encodeCursor {m : TimedOp} (h : m ∈ v.feed S q) :
    v.behind S q (encodeCursor m.op) =
      Paging.resume (fun m => cursorKey m.op) (fun m => decide m.op.time.FourDigits)
        (v.feed S q) m := by
  obtain ⟨hfits, hdevice⟩ := mem_feed h
  rw [behind, if_neg (encodeCursor_ne_nil m.op), Paging.resume]
  by_cases hyear : m.op.time.FourDigits
  · obtain ⟨t, ht, hdecode⟩ := decodeCursor_encodeCursor hfits hdevice hyear
    have hskip : ∀ b : TimedOp, (!KeyedOp.histLess
        { time := t, lamport := m.op.lamport, seq := m.op.seq, device := m.op.device }
        b.op.keyed) = decide (cursorKey m.op ≤ cursorKey b.op) := by
      intro b
      rw [histLess_bare ht, ← decide_not, decide_eq_decide, not_lt]
    rw [if_pos (decide_eq_true hyear), hdecode, Option.map_some]
    simp only [hskip]
  · rw [if_neg (by simpa using hyear),
      decodeCursor_encodeCursor_eq_none hfits hdevice hyear, Option.map_none]

theorem mem_of_mem_behind {cursor : GoString} {rest : List TimedOp}
    (h : v.behind S q cursor = some rest) {m : TimedOp} (hm : m ∈ rest) : m ∈ v.feed S q := by
  rw [behind] at h
  split_ifs at h
  · rwa [← Option.some.inj h] at hm
  · obtain ⟨cur, -, rfl⟩ := Option.map_eq_some_iff.mp h
    exact (List.dropWhile_sublist _).subset hm

/-- Following the cursors is paging by the key. -/
theorem followCursor_eq (fuel : ℕ) (cursor : GoString) : v.followCursor S q fuel cursor =
    (v.behind S q cursor).bind (Paging.follow (fun m => cursorKey m.op)
      (fun m => decide m.op.time.FourDigits) (v.feed S q) q.n fuel) := by
  induction fuel generalizing cursor with
  | zero => cases h : v.behind S q cursor <;> rfl
  | succ fuel ih =>
    rw [followCursor, page]
    cases hrest : v.behind S q cursor with
    | none => rfl
    | some rest =>
      simp only [Option.map_some, Option.bind_eq_bind, Option.bind_some, Paging.follow]
      by_cases hlast : rest.length ≤ q.n
      · simp [hlast]
      · have hpos := q.one_le
        obtain ⟨m, hm⟩ : ∃ m, rest[q.n - 1]? = some m :=
          ⟨_, List.getElem?_eq_getElem (show q.n - 1 < rest.length by omega)⟩
        have hmem := mem_of_mem_behind hrest (List.mem_of_getElem? hm)
        simp only [hlast, if_false, hm, Option.map_some, Option.getD_some, encodeCursor_ne_nil,
          Option.bind_some, ih, behind_encodeCursor hmem]
        cases hnext : Paging.resume (fun m : TimedOp => cursorKey m.op)
            (fun m => decide m.op.time.FourDigits) (v.feed S q) m with
        | none => rfl
        | some next => simp [Option.map_eq_bind]

/-- The pages of a history are the history where every page ends between two ops that a cursor
tells apart and the first of which has a cursor that is read. -/
theorem followCursor_feed_iff : (∃ fuel, v.followCursor S q fuel [] = some (v.feed S q)) ↔
    ∀ k a b, 0 < k → (v.feed S q)[k * q.n - 1]? = some a → (v.feed S q)[k * q.n]? = some b →
      GoesOn a.op b.op := by
  have hfollow (fuel : ℕ) : v.followCursor S q fuel [] = Paging.follow (fun m => cursorKey m.op)
      (fun m => decide m.op.time.FourDigits) (v.feed S q) q.n fuel (v.feed S q) := by
    rw [followCursor_eq, behind, if_pos rfl, Option.bind_some]
  simp only [hfollow]
  rw [Paging.follow_eq_iff pairwise_feed q.one_le]
  constructor
  · intro h k a b hk ha hb
    obtain ⟨hlt, -⟩ := List.getElem?_eq_some_iff.mp hb
    obtain ⟨a', b', ha', hb', hread, hkey⟩ := h k hk hlt
    rw [ha] at ha'
    rw [hb] at hb'
    obtain rfl := Option.some.inj ha'
    obtain rfl := Option.some.inj hb'
    exact ⟨of_decide_eq_true hread, fun heq => hkey.ne' (cursorKey_eq_iff.mpr heq)⟩
  · intro h k hk hlt
    have hkn : 1 ≤ k * q.n := Nat.mul_pos hk q.one_le
    have hfirst : k * q.n - 1 < (v.feed S q).length := by omega
    have hgoes := h k _ _ hk (List.getElem?_eq_getElem hfirst) (List.getElem?_eq_getElem hlt)
    refine ⟨_, _, List.getElem?_eq_getElem hfirst, List.getElem?_eq_getElem hlt,
      decide_eq_true hgoes.1, ?_⟩
    have hle := List.pairwise_iff_getElem.mp (pairwise_feed (S := S) (v := v) (q := q))
      _ _ hfirst hlt (by omega)
    exact lt_of_le_of_ne hle fun heq => hgoes.2 (cursorKey_eq_iff.mp heq.symm)

/-- **The pages of a history are the history**, each op that matches on one of them once and no
cursor refused, exactly where every page ends between two ops of which the first has a year of four
digits and the second another time, clock, device or sequence number. -/
theorem pages_visit_iff (S : TimedSort) (v : HistView) (q : HistQuery) :
    (v.feed S q).Nodup ∧ (v.feed S q).Perm (v.matched q) ∧
      ((∃ fuel, v.followCursor S q fuel [] = some (v.feed S q)) ↔
        ∀ k a b, 0 < k → (v.feed S q)[k * q.n - 1]? = some a → (v.feed S q)[k * q.n]? = some b →
          GoesOn a.op b.op) :=
  ⟨nodup_feed, S.perm _, followCursor_feed_iff⟩

end HistView

/-- Insertion is a sort of a feed. -/
def TimedSort.insertion : TimedSort where
  sort l := l.insertionSort fun a b => histLess b.op a.op = false
  perm l := List.perm_insertionSort _ l
  sorted l := by
    have : Std.Total fun a b : TimedOp => histLess b.op a.op = false :=
      ⟨fun a b => by simp only [not_histLess_iff]; exact le_total _ _⟩
    have : IsTrans TimedOp fun a b => histLess b.op a.op = false :=
      ⟨fun a b c hab hbc => not_histLess_iff.mpr
        ((not_histLess_iff.mp hbc).trans (not_histLess_iff.mp hab))⟩
    exact List.pairwise_insertionSort _ l

/-- A journal of two puts with one sequence number and one clock. -/
def tiedJournal : GoString :=
  ascii "\x7b\"seq\":1,\"lamport\":1,\"device\":\"d\",\"kind\":\"put\",\"path\":\"a\"\x7d" ++
    0x0A ::
  ascii "\x7b\"seq\":1,\"lamport\":1,\"device\":\"d\",\"kind\":\"put\",\"path\":\"b\"\x7d"

/-- A journal of two puts at the start of the year 0, an hour east of Greenwich. -/
def earlyJournal : GoString :=
  ascii "\x7b\"seq\":1,\"device\":\"d\",\"kind\":\"put\",\"path\":\"a\"," ++
    ascii "\"time\":\"0000-01-01T00:00:00+01:00\"\x7d" ++
    0x0A ::
  ascii "\x7b\"seq\":2,\"device\":\"d\",\"kind\":\"put\",\"path\":\"a\"," ++
    ascii "\"time\":\"0000-01-01T00:00:00+01:00\"\x7d"

/-- Entry by entry the second put of either journal is lost: one to a tie, one to a refusal. -/
theorem tied_row_lost : (¬ ∃ fuel, (HistView.mk [(ascii "journal/d.jsonl", tiedJournal)]
      (fun _ => true) id).followCursor .insertion { n := 1 } fuel [] =
        some ((HistView.mk [(ascii "journal/d.jsonl", tiedJournal)] (fun _ => true) id).feed
          .insertion { n := 1 })) ∧
    ¬ ∃ fuel, (HistView.mk [(ascii "journal/d.jsonl", earlyJournal)]
      (fun _ => true) id).followCursor .insertion { n := 1 } fuel [] =
        some ((HistView.mk [(ascii "journal/d.jsonl", earlyJournal)] (fun _ => true) id).feed
          .insertion { n := 1 }) := by
  have hlost (v : HistView) (h : ((v.feed .insertion { n := 1 })[0]?.bind fun a =>
      (v.feed .insertion { n := 1 })[1]?.map fun b => decide (GoesOn a.op b.op)) = some false) :
      ¬ ∃ fuel, v.followCursor .insertion { n := 1 } fuel [] =
        some (v.feed .insertion { n := 1 }) := by
    rw [HistView.followCursor_feed_iff]
    intro hall
    obtain ⟨a, ha, h⟩ := Option.bind_eq_some_iff.mp h
    obtain ⟨b, hb, h⟩ := Option.map_eq_some_iff.mp h
    exact of_decide_eq_false h (hall 1 a b Nat.one_pos ha hb)
  refine ⟨hlost _ ?_, hlost _ ?_⟩
  · rw [tiedJournal, ascii_ofList, ascii_ofList, ascii_ofList]
    decide +kernel
  · rw [earlyJournal, ascii_ofList, ascii_ofList, ascii_ofList, ascii_ofList]
    decide +kernel

end Beardrive
