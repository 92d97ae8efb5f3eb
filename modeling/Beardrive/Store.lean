import Beardrive.Journal.Order
import Beardrive.Journal.SafePath
import Mathlib.Data.List.AList

/-!
# The volume store

A device keeps per volume its copies of every journal and the blobs it holds, and per mount the
materialization cache. Blobs are addressed by a hash of their content, which is a parameter of
the model: nothing below depends on which function it is, only on its results being addresses.

## Main definitions

* `Hash`, `blobSum`, `Blobs` — content addresses and what is stored under them
* `CachedFile`, `Cache` — what the last cycle left at each path
-/

namespace Beardrive

/-- A hexadecimal digit, in lower case. -/
def hexDigit (b : UInt8) : Bool := (0x30 ≤ b && b ≤ 0x39) || (0x61 ≤ b && b ≤ 0x66)

/-- `blobSumRe.MatchString (sum)`: whether `sum` is a content address at all. -/
def blobSum (sum : GoString) : Bool := sum.length == 64 && sum.all hexDigit

/-- The content hash, in hexadecimal. -/
structure Hash where
  sum : GoString → GoString
  blobSum_sum : ∀ content, blobSum (sum content) = true

/-- The two digits of a byte. -/
def hexByte (b : UInt8) : GoString :=
  [b / 16, b % 16].map fun d => if d < 10 then 0x30 + d else 0x57 + d

theorem hexDigit_of_mem_hexByte {b d : UInt8} (h : d ∈ hexByte b) : hexDigit d = true := by
  have hall : ∀ n : Fin 256, (hexByte (UInt8.ofNat n)).all hexDigit = true := by decide +kernel
  have hb := hall ⟨b.toNat, b.toNat_lt⟩
  rw [UInt8.ofNat_toNat, List.all_eq_true] at hb
  exact hb d h

/-- An address that spells its content out, as far as it reaches: distinct for the short contents
of the runs that are evaluated below. -/
def spelledHash : Hash where
  sum content := (content.flatMap hexByte ++ List.replicate 64 0x30).take 64
  blobSum_sum content := by
    have hdigit : ∀ d ∈ content.flatMap hexByte ++ List.replicate 64 0x30, hexDigit d = true := by
      intro d hd
      rcases List.mem_append.mp hd with hd | hd
      · obtain ⟨b, -, hb⟩ := List.mem_flatMap.mp hd
        exact hexDigit_of_mem_hexByte hb
      · rw [List.eq_of_mem_replicate hd]
        decide
    simp only [blobSum, Bool.and_eq_true, beq_iff_eq, List.length_take, List.length_append,
      List.length_replicate, List.all_eq_true]
    exact ⟨by omega, fun d hd => hdigit d (List.mem_of_mem_take hd)⟩

/-- The blobs of a store, by address. -/
abbrev Blobs := GoString → Option GoString

/-- `HasBlob`: an address that is none is never looked up. -/
def Blobs.has (blobs : Blobs) (sum : GoString) : Bool := blobSum sum && (blobs sum).isSome

/-- The content at an address, where there is one. -/
def Blobs.open_ (blobs : Blobs) (sum : GoString) : Option GoString :=
  if blobSum sum then blobs sum else none

/-- `PutBlobFile`: content that is stored already is left as it is. -/
def Blobs.put (blobs : Blobs) (hash : Hash) (content : GoString) : Blobs :=
  if blobs.has (hash.sum content) then blobs
  else Function.update blobs (hash.sum content) (some content)

/-- What the last cycle left at a path. -/
structure CachedFile where
  blob : GoString := []
  size : ℤ := 0
  mode : UInt32 := 0
  mtimeNS : ℤ := 0
  link : GoString := []
  deriving DecidableEq, Repr

/-- The materialization cache of a mount. -/
abbrev Cache := AList fun _ : GoString => CachedFile

/-- Whether `rel` is a clean, relative, in-volume path: the only shape a cache key may have. -/
def cleanRel (rel : GoString) : Bool :=
  if rel = [] ∨ rel = ascii "." ∨ rel = ascii ".." ∨ isAbs rel then false
  else clean rel == rel && !hasPrefix rel (ascii "../")

/-- `neverSync`: paths no direction carries. -/
abbrev unsafeRel (rel : GoString) : Bool := !safePath rel

theorem Blobs.has_put (blobs : Blobs) (hash : Hash) (content : GoString) :
    (blobs.put hash content).has (hash.sum content) = true := by
  unfold Blobs.put
  split
  · assumption
  · simp [Blobs.has, hash.blobSum_sum]

theorem Blobs.has_put_of_has {blobs : Blobs} {sum : GoString} (h : blobs.has sum = true)
    (hash : Hash) (content : GoString) : (blobs.put hash content).has sum = true := by
  unfold Blobs.put
  split
  · exact h
  · simp only [Blobs.has, Bool.and_eq_true] at h ⊢
    refine ⟨h.1, ?_⟩
    by_cases hs : sum = hash.sum content
    · subst hs; simp
    · rw [Function.update_of_ne hs]
      exact h.2

end Beardrive
