import Beardrive.Lib.Greatest
import Beardrive.Lib.Merge3
import Beardrive.Store

/-!
# Merging concurrent edits

Two devices that edited different parts of one text file get one file. The merge is of lines, and
everything here declines rather than guesses: no ancestor, a binary file, anything too big, edits
that overlap.

The ancestor is guessed from the replay order: the greatest put of the path that is less than both
edits.

## Main definitions

* `mergeText` — the merge of two texts
* `commonAncestor`, `tryMerge` — the version both sides are taken to have edited, and the attempt

## Main results

* `mem_splitLines_mergeText` — a line of either side that the base did not have is in the merge
* `commonAncestor_spec` — what the guess is
-/

namespace Beardrive

/-! ### Texts as lines -/

/-- The lines of a text. A newline at the end closes the last one. -/
def splitLines (b : GoString) : List GoString :=
  if b = [] then []
  else if (b.splitOn 0x0A).getLast? = some [] then (b.splitOn 0x0A).dropLast
  else b.splitOn 0x0A

/-- A text of lines, closed by a newline if it should be. -/
def joinLines (lines : List GoString) (trailing : Bool) : GoString :=
  let out := [0x0A].intercalate lines
  if trailing && out != [] then out ++ [0x0A] else out

/-- Whether a text ends in a newline. -/
def trailingNewline (b : GoString) : Bool := b.getLast? == some 0x0A

/-- Merge two edits of the same base, where they do not overlap. -/
def mergeText (base a b : GoString) : Option GoString :=
  (mergeLines (splitLines base) (splitLines a) (splitLines b)).map fun out =>
    joinLines out (trailingNewline a || trailingNewline b)

/-- `maxMergeBytes`: what will be read into memory to merge. -/
def maxMergeBytes : ℤ := 4 * 2 ^ 20

/-- Text the merge cannot mangle. -/
def isMergeableText (b : GoString) : Bool := !b.contains 0 && validUTF8 b

/-- `readBlob`: a stored blob, up to the cap. -/
def Blobs.readBlob (blobs : Blobs) (sum : GoString) (max : ℤ) : Option GoString :=
  (blobs.open_ sum).filter fun content => content.length ≤ max

/-! ### The ancestor -/

/-- Whether an op could be what both sides edited: a file put of the path, less than both. -/
def ancestral (path : GoString) (mine theirs op : Op) : Bool :=
  op.path == path && op.kind == .put && op.blob != [] && less op mine && less op theirs

/-- The greatest op of the path that is less than both sides. -/
def commonAncestor (path : GoString) (mine theirs : Op) (all : List Op) : Option Op :=
  greatest less (ancestral path mine theirs) all

/-- What a merge stores. -/
structure MergedBlob where
  blob : GoString
  size : ℤ
  blobs : Blobs

/-- Attempt a three-way merge of two concurrent puts of one path. -/
def tryMerge (hash : Hash) (blobs : Blobs) (path : GoString) (mine theirs : Op) (all : List Op) :
    Option MergedBlob := do
  guard (mine.kind = .put ∧ theirs.kind = .put)
  guard (mine.blob ≠ theirs.blob)
  guard (mine.size ≤ maxMergeBytes ∧ theirs.size ≤ maxMergeBytes)
  let base ← commonAncestor path mine theirs all
  let baseBytes ← blobs.readBlob base.blob maxMergeBytes
  let mineBytes ← blobs.readBlob mine.blob maxMergeBytes
  let theirsBytes ← blobs.readBlob theirs.blob maxMergeBytes
  guard (isMergeableText baseBytes ∧ isMergeableText mineBytes ∧ isMergeableText theirsBytes)
  let out ← mergeText baseBytes mineBytes theirsBytes
  return { blob := hash.sum out, size := out.length, blobs := blobs.put hash out }

/-! ### Lines of a merge -/

theorem mem_splitOn_of_mem_splitLines {b x : GoString} (h : x ∈ splitLines b) :
    x ∈ b.splitOn 0x0A := by
  unfold splitLines at h
  split_ifs at h
  · cases h
  · exact List.mem_of_mem_dropLast h
  · exact h

theorem newline_notMem_of_mem_splitLines {b x : GoString} (h : x ∈ splitLines b) : 0x0A ∉ x :=
  notMem_of_mem_splitOn (mem_splitOn_of_mem_splitLines h)

/-- A line with any text in it is a line of the text, wherever that is split. -/
theorem mem_splitLines_of_mem_splitOn {b x : GoString} (h : x ∈ b.splitOn 0x0A) (hx : x ≠ []) :
    x ∈ splitLines b := by
  unfold splitLines
  split_ifs with hb hlast
  · rw [hb] at h
    exact absurd (List.mem_singleton.mp h) hx
  · obtain ⟨init, hinit⟩ := List.getLast?_eq_some_iff.mp hlast
    rw [hinit, List.mem_append, List.mem_singleton] at h
    rw [hinit, List.dropLast_concat]
    exact h.resolve_right hx
  · exact h

/-- A line with any text in it is a line of the text it was joined to. -/
theorem mem_splitLines_joinLines {lines : List GoString} {x : GoString} (h : x ∈ lines)
    (hx : x ≠ []) (hlines : ∀ l ∈ lines, 0x0A ∉ l) (trailing : Bool) :
    x ∈ splitLines (joinLines lines trailing) := by
  have hsplit : ([0x0A].intercalate lines).splitOn 0x0A = lines :=
    List.splitOn_intercalate 0x0A hlines (List.ne_nil_of_mem h)
  refine mem_splitLines_of_mem_splitOn ?_ hx
  unfold joinLines
  dsimp only
  split_ifs
  · rw [List.splitOn_append_cons_self, hsplit]
    exact List.mem_append_left _ h
  · rw [hsplit]
    exact h

/-- **Every line of either side that the base did not have is in the merge**, if there is any text
in it. -/
theorem mem_splitLines_mergeText {base a b out side : GoString} (h : mergeText base a b = some out)
    (hside : side = a ∨ side = b) {x : GoString} (hx : x ∈ splitLines side)
    (hbase : x ∉ splitLines base) (hne : x ≠ []) : x ∈ splitLines out := by
  obtain ⟨lines, hlines, rfl⟩ := Option.map_eq_some_iff.mp h
  refine mem_splitLines_joinLines ?_ hne (fun l hl => ?_) _
  · exact mem_mergeLines hlines (hside.imp (congrArg splitLines) (congrArg splitLines)) hx hbase
  · exact (mem_of_mem_mergeLines hlines hl).elim newline_notMem_of_mem_splitLines
      fun hl => hl.elim newline_notMem_of_mem_splitLines newline_notMem_of_mem_splitLines

/-! ### The guess -/

/-- **What the guess is**: ancestral, and exceeded by nothing that is. -/
theorem commonAncestor_spec {path : GoString} {mine theirs op : Op} {all : List Op}
    (h : commonAncestor path mine theirs all = some op) :
    op ∈ all ∧ ancestral path mine theirs op = true ∧
      ∀ o ∈ all, ancestral path mine theirs o = true → less op o = false := by
  obtain ⟨hmem, hanc, hmax⟩ := greatest_eq_some (@less_iff) h
  exact ⟨hmem, hanc, fun o ho hanc' => not_less_iff.mpr (hmax o ho hanc')⟩

end Beardrive
