import Beardrive.Journal.RoundTrip
import Beardrive.Lib.JsonArray
import Beardrive.Lib.JsonFields
import Beardrive.Store

/-!
# Manifests

The manifest of a large file lists its chunks in order, each with its address and its length. It
stands on the remote under the address of the whole file, as JSON, and a reader takes the first
value it finds there.

## Main definitions

* `ChunkRef`, `Manifest` — what is listed
* `Manifest.text`, `decodeManifest` — what is written, and what a reader makes of a stream

## Main results

* `decodeManifest_text` — a manifest that was written is read
-/

namespace Beardrive

/-- `chunkRef`: a chunk by its address, and how long it is said to be. -/
structure ChunkRef where
  h : GoString := []
  n : ℤ := 0
  deriving DecidableEq, Repr

/-- `manifest`. -/
structure Manifest where
  v : ℤ := 0
  size : ℤ := 0
  chunks : List ChunkRef := []
  deriving DecidableEq, Repr

/-! ### Writing -/

/-- The members of a chunk. -/
def ChunkRef.members (c : ChunkRef) : List (GoString × Json) :=
  [stringMember "h" c.h, intMember "n" c.n]

/-- The text of a chunk. -/
def ChunkRef.text (c : ChunkRef) : GoString := objectText (c.members.map fun m => (m.1, m.2.scalarText))

/-- The text of the chunks; a slice of none is `nil`. -/
def chunksText (chunks : List ChunkRef) : GoString :=
  if chunks = [] then Word.null.text else arrayText (chunks.map ChunkRef.text)

/-- `json.Marshal` of a manifest. -/
def Manifest.text (man : Manifest) : GoString :=
  objectText [(ascii "v", formatInt man.v), (ascii "size", formatInt man.size),
    (ascii "chunks", chunksText man.chunks)]

/-! ### Reading -/

/-- The fields of a chunk. -/
def ChunkRef.fields : FieldTable ChunkRef :=
  [(ascii "h", fun c v => (readString c.h v).map fun x => { c with h := x }),
    (ascii "n", fun c v => (readInt64 c.n v).map fun x => { c with n := x })]

/-- The fields of a manifest. -/
def Manifest.fields : FieldTable Manifest :=
  [(ascii "v", fun m v => (readInt64 m.v v).map fun x => { m with v := x }),
    (ascii "size", fun m v => (readInt64 m.size v).map fun x => { m with size := x }),
    (ascii "chunks", fun m v =>
      (readArray (ChunkRef.fields.read {}) v).map fun x => { m with chunks := x })]

/-- `json.NewDecoder (r).Decode (&man)`: the first value of a stream, as a manifest. The stream may
break off. -/
def decodeManifest (breaks : Bool) (stream : GoString) : Option Manifest :=
  (Machine.firstValue breaks {} stream).bind (Manifest.fields.read {})

/-! ### What is written is read -/

/-- A number that fits an `int64`. -/
def FitsInt64 (z : ℤ) : Prop := -2 ^ 63 ≤ z ∧ z < 2 ^ 63

/-- The value of a chunk. -/
def ChunkRef.json (c : ChunkRef) : Json :=
  .obj [(quoteBody (ascii "h"), .str (quoteBody c.h)),
    (quoteBody (ascii "n"), .num (formatInt c.n))]

theorem ChunkRef.denotes_members (c : ChunkRef) :
    Machine.DenotesMembers (c.members.map fun m => (m.1, m.2.scalarText))
      [(quoteBody (ascii "h"), .str (quoteBody c.h)),
        (quoteBody (ascii "n"), .num (formatInt c.n))] := by
  have h := @Machine.denotesMembers_map c.members
  refine h fun m hm => ?_
  simp only [members, stringMember, intMember, List.mem_cons, List.not_mem_nil, or_false] at hm
  rcases hm with rfl | rfl
  · exact (Machine.inside_quoteBody c.h).denotes
  · exact Machine.denotes_formatInt c.n

/-- An address is read as it was written. -/
theorem toValid_of_blobSum {sum : GoString} (h : blobSum sum = true) : toValid sum = sum := by
  rw [toValid_eq_self_iff]
  simp only [blobSum, Bool.and_eq_true, List.all_eq_true] at h
  have hascii : ∀ b ∈ sum, b < 0x80 := by
    intro b hb
    have := h.2 b hb
    simp only [hexDigit, Bool.or_eq_true, Bool.and_eq_true, decide_eq_true_eq] at this
    rcases this with ⟨-, hle⟩ | ⟨-, hle⟩
    · exact lt_of_le_of_lt hle (by decide)
    · exact lt_of_le_of_lt hle (by decide)
  exact validUTF8_of_ascii hascii

theorem ChunkRef.read_json {c : ChunkRef} (hh : blobSum c.h = true) (hn : FitsInt64 c.n) :
    ChunkRef.fields.read {} c.json = some c := by
  have hkey (k : String) (hk : toValid (ascii k) = ascii k) :
      unquote (quoteBody (ascii k)) = some (ascii k) := by
    rw [unquote_quoteBody, hk]
  rw [json, FieldTable.read, List.foldlM_cons,
    FieldTable.assign_of_lookup (hkey "h" (by decide)) rfl, readString, unquote_quoteBody,
    toValid_of_blobSum hh]
  simp only [Option.map_some, Option.bind_eq_bind, Option.bind_some, List.foldlM_cons]
  rw [FieldTable.assign_of_lookup (hkey "n" (by decide)) rfl, readInt64,
    parseInt64_formatInt hn]
  rfl

/-- A manifest whose chunks have addresses and whose numbers fit. -/
structure Manifest.Proper (man : Manifest) : Prop where
  v : FitsInt64 man.v
  size : FitsInt64 man.size
  chunks : ∀ c ∈ man.chunks, blobSum c.h = true ∧ FitsInt64 c.n

/-- The value of the chunks. -/
def chunksJson (chunks : List ChunkRef) : Json :=
  if chunks = [] then .null else .arr (chunks.map ChunkRef.json)

theorem readArray_chunksJson {chunks : List ChunkRef}
    (h : ∀ c ∈ chunks, blobSum c.h = true ∧ FitsInt64 c.n) :
    readArray (ChunkRef.fields.read {}) (chunksJson chunks) = some chunks := by
  rw [chunksJson]
  split_ifs with hnil
  · rw [hnil]
    rfl
  · show (chunks.map ChunkRef.json).mapM (ChunkRef.fields.read {}) = some chunks
    clear hnil
    induction chunks with
    | nil => rfl
    | cons c chunks ih =>
      obtain ⟨hh, hn⟩ := h c List.mem_cons_self
      rw [List.map_cons, List.mapM_cons, ChunkRef.read_json hh hn,
        ih fun d hd => h d (List.mem_cons_of_mem _ hd)]
      rfl

/-- What the scanner makes of the chunks, as the last member of an object. -/
theorem run_chunksText (chunks : List ChunkRef) (before : List (GoString × Json)) (key : GoString) :
    Machine.run ⟨.beginValue, [.value before key]⟩ (chunksText chunks ++ [0x7D]) =
      ⟨.endTop (.obj (before ++ [(key, chunksJson chunks)])), []⟩ := by
  rw [chunksText, chunksJson]
  split_ifs with hnil
  · rfl
  · have hforall : List.Forall₂ Machine.DenotesMembers
        (chunks.map fun c => c.members.map fun m => (m.1, m.2.scalarText))
        (chunks.map fun c => [(quoteBody (ascii "h"), Json.str (quoteBody c.h)),
          (quoteBody (ascii "n"), Json.num (formatInt c.n))]) := by
      rw [List.forall₂_map_left_iff, List.forall₂_map_right_iff]
      exact List.forall₂_same.mpr fun c _ => c.denotes_members
    have htext : chunks.map ChunkRef.text =
        (chunks.map fun c => c.members.map fun m => (m.1, m.2.scalarText)).map objectText := by
      rw [List.map_map]
      rfl
    have hvalue : chunks.map ChunkRef.json =
        (chunks.map fun c => [(quoteBody (ascii "h"), Json.str (quoteBody c.h)),
          (quoteBody (ascii "n"), Json.num (formatInt c.n))]).map .obj := by
      rw [List.map_map]
      rfl
    have hroom : [Frame.value before key].length + 1 < Machine.maxDepth := by
      rw [List.length_singleton, Machine.maxDepth]
      omega
    rw [htext, Machine.run_arrayText hforall ?_ (by simpa using hnil) _ _ hroom, ← hvalue]
    · rfl
    · intro texts htexts
      obtain ⟨c, -, rfl⟩ := List.mem_map.mp htexts
      exact List.cons_ne_nil _ _

/-- The value of a manifest. -/
def Manifest.json (man : Manifest) : Json :=
  .obj [(quoteBody (ascii "v"), .num (formatInt man.v)),
    (quoteBody (ascii "size"), .num (formatInt man.size)),
    (quoteBody (ascii "chunks"), chunksJson man.chunks)]

theorem firstValue_text (man : Manifest) (breaks : Bool) :
    Machine.firstValue breaks {} man.text = some man.json := by
  have hcut : man.text = (0x7B :: (quote (ascii "v") ++ 0x3A :: (formatInt man.v ++ 0x2C ::
      (quote (ascii "size") ++ 0x3A :: (formatInt man.size ++ 0x2C ::
        (quote (ascii "chunks") ++ 0x3A :: chunksText man.chunks)))))) ++ [0x7D] := by
    simp [Manifest.text, objectText, members]
  rw [hcut]
  refine Machine.firstValue_of_run breaks (by decide) ?_
  have hopen : Machine.step {} 0x7B = ⟨.beginStringOrEmpty, [.key []]⟩ := by
    simp [Machine.step, Machine.beginValue, Machine.space, Machine.push, Machine.maxDepth]
  have hflat : (0x7B :: (quote (ascii "v") ++ 0x3A :: (formatInt man.v ++ 0x2C ::
      (quote (ascii "size") ++ 0x3A :: (formatInt man.size ++ 0x2C ::
        (quote (ascii "chunks") ++ 0x3A :: chunksText man.chunks)))))) ++ [0x7D] =
      0x7B :: (quote (ascii "v") ++ 0x3A :: (formatInt man.v ++ 0x2C ::
      (quote (ascii "size") ++ 0x3A :: (formatInt man.size ++ 0x2C ::
        (quote (ascii "chunks") ++ 0x3A :: (chunksText man.chunks ++ [0x7D])))))) := by
    simp
  rw [hflat, Machine.run_cons, hopen,
    Machine.run_member  rfl _ (Machine.denotes_formatInt _),
    Machine.run_member rfl _ (Machine.denotes_formatInt _), Machine.run_key rfl, run_chunksText]
  rfl

/-- **A manifest that was written is read.** -/
theorem decodeManifest_text {man : Manifest} (h : man.Proper) (breaks : Bool) :
    decodeManifest breaks man.text = some man := by
  have hkey (k : String) (hk : toValid (ascii k) = ascii k) :
      unquote (quoteBody (ascii k)) = some (ascii k) := by
    rw [unquote_quoteBody, hk]
  rw [decodeManifest, firstValue_text, Option.bind_some, Manifest.json, FieldTable.read,
    List.foldlM_cons, FieldTable.assign_of_lookup (hkey "v" (by decide)) rfl, readInt64,
    parseInt64_formatInt h.v]
  simp only [Option.map_some, Option.bind_eq_bind, Option.bind_some, List.foldlM_cons]
  rw [FieldTable.assign_of_lookup (hkey "size" (by decide)) rfl, readInt64,
    parseInt64_formatInt h.size]
  simp only [Option.map_some, Option.bind_some]
  rw [FieldTable.assign_of_lookup (hkey "chunks" (by decide)) rfl,
    readArray_chunksJson h.chunks]
  rfl

end Beardrive
