import Beardrive.Syncer.ChunkRound
import Mathlib.Algebra.Order.BigOperators.Group.List
import Mathlib.Algebra.Order.Group.Int

/-!
# How much a manifest makes a device write

A fetch writes to its spool before it can compute anything, and what stops it beforehand is the sum
of the lengths that the manifest declares. Two things are not in that sum. It is taken in an
`int64`, where large lengths come out negative; and a chunk of the older version is copied with its
own length, which nobody compares with the declared one, as often as the manifest lists it.

Apart from these the sum bounds the spool, up to the one byte that tells a chunk that is too long.

## Main definitions

* `Unwrapped` — every sum of declared lengths is what it is without the `int64`
* `pieceSizes` — how long the pieces of a manifest are, up to the first that is not as it is named
* `SpoolFits` — what a manifest has to be, for an older version and a remote

## Main results

* `spool_bounded_iff` — the spool is bounded and no sum wraps, exactly there
* `spool_le_of_declared` — in particular where no chunk of the older version is declared too short
* `wrapped_spools` — two chunks that are said to be very long
-/

namespace Beardrive

variable {hash : Hash}

/-- An entry as a fetch takes it. -/
def ChunkRef.wellFormed (c : ChunkRef) : Bool := !(!blobSum c.h || decide (c.n < 0))

/-- The sum of some declared lengths. -/
def declared (chunks : List ChunkRef) : ℤ := (chunks.map ChunkRef.n).sum

/-- The sums that a fetch computes on its way over the entries. -/
def runningTotals : ℤ → List ChunkRef → List ℤ
  | _, [] => []
  | total, c :: chunks =>
    if c.wellFormed then
      (total + c.n).bmod (2 ^ 64) :: runningTotals ((total + c.n).bmod (2 ^ 64)) chunks
    else []

/-- No sum of declared lengths wraps around. -/
def Unwrapped (chunks : List ChunkRef) : Prop :=
  ∀ i t, (runningTotals 0 chunks)[i]? = some t → t = declared (chunks.take (i + 1))

/-! ### Sums of declared lengths -/

theorem ChunkRef.n_nonneg {c : ChunkRef} (h : c.wellFormed = true) : 0 ≤ c.n := by
  simp only [wellFormed, Bool.not_eq_true', Bool.or_eq_false_iff, decide_eq_false_iff_not,
    not_lt] at h
  exact h.2

theorem declared_nonneg {chunks : List ChunkRef} (h : ∀ c ∈ chunks, c.wellFormed = true) :
    0 ≤ declared chunks := by
  refine List.sum_nonneg ?_
  intro n hn
  obtain ⟨c, hc, rfl⟩ := List.mem_map.mp hn
  exact ChunkRef.n_nonneg (h c hc)

/-- As long as the lengths sum to less than `2 ^ 63` every sum is computed as it is. -/
theorem runningTotals_of_lt {chunks : List ChunkRef} {total : ℤ} (htotal : 0 ≤ total)
    (h : total + declared (chunks.takeWhile ChunkRef.wellFormed) < 2 ^ 63) {i : ℕ} {t : ℤ}
    (ht : (runningTotals total chunks)[i]? = some t) :
    t = total + declared (chunks.take (i + 1)) := by
  induction chunks generalizing total i with
  | nil => cases ht
  | cons c chunks ih =>
    rw [runningTotals] at ht
    by_cases hc : c.wellFormed = true
    · rw [if_pos hc] at ht
      rw [List.takeWhile_cons_of_pos hc, declared, List.map_cons, List.sum_cons] at h
      change total + (c.n + declared (chunks.takeWhile ChunkRef.wellFormed)) < 2 ^ 63 at h
      have hrest : 0 ≤ declared (chunks.takeWhile ChunkRef.wellFormed) :=
        declared_nonneg fun d hd => List.mem_takeWhile_imp hd
      have hn := ChunkRef.n_nonneg hc
      have hsum : (total + c.n).bmod (2 ^ 64) = total + c.n :=
        Int.bmod_eq_of_le (by omega) (by omega)
      rw [hsum] at ht
      cases i with
      | zero =>
        rw [← Option.some.inj ht]
        simp [declared]
      | succ i =>
        rw [ih (by omega) (by omega) ht]
        simp only [declared, List.take_succ_cons, List.map_cons, List.sum_cons]
        omega
    · rw [if_neg hc] at ht
      cases ht

/-- The last of the sums. -/
theorem getLast_runningTotals {chunks : List ChunkRef} (total : ℤ)
    (hne : chunks.takeWhile ChunkRef.wellFormed ≠ []) :
    ∃ t, (runningTotals total chunks)[(chunks.takeWhile ChunkRef.wellFormed).length - 1]? = some t ∧
      t < 2 ^ 63 := by
  induction chunks generalizing total with
  | nil => exact absurd rfl hne
  | cons c chunks ih =>
    by_cases hc : c.wellFormed = true
    · rw [runningTotals, if_pos hc, List.takeWhile_cons_of_pos hc, List.length_cons,
        Nat.add_sub_cancel]
      by_cases hrest : chunks.takeWhile ChunkRef.wellFormed = []
      · rw [hrest]
        refine ⟨_, rfl, ?_⟩
        have := @Int.bmod_lt (total + c.n) (2 ^ 64) (by omega)
        omega
      · obtain ⟨t, ht, hlt⟩ := ih ((total + c.n).bmod (2 ^ 64)) hrest
        refine ⟨t, ?_, hlt⟩
        have hpos := List.length_pos_iff.mpr hrest
        obtain ⟨k, hk⟩ : ∃ k, (chunks.takeWhile ChunkRef.wellFormed).length = k + 1 :=
          ⟨_, (Nat.succ_pred_eq_of_pos hpos).symm⟩
        rw [hk] at ht ⊢
        exact ht
    · rw [List.takeWhile_cons_of_neg hc] at hne
      exact absurd rfl hne

/-- **No sum wraps exactly where the lengths, up to the first malformed entry, stay below
`2 ^ 63`.** -/
theorem unwrapped_iff (chunks : List ChunkRef) :
    Unwrapped chunks ↔ declared (chunks.takeWhile ChunkRef.wellFormed) < 2 ^ 63 := by
  constructor
  · intro h
    by_cases hne : chunks.takeWhile ChunkRef.wellFormed = []
    · rw [hne]
      simp [declared]
    · obtain ⟨t, ht, hlt⟩ := getLast_runningTotals 0 hne
      have hpos := List.length_pos_iff.mpr hne
      have htake : chunks.take ((chunks.takeWhile ChunkRef.wellFormed).length - 1 + 1) =
          chunks.takeWhile ChunkRef.wellFormed := by
        rw [Nat.sub_add_cancel hpos]
        exact (List.prefix_iff_eq_take.mp (List.takeWhile_prefix _)).symm
      rw [← htake, ← h _ t ht]
      exact hlt
  · intro h i t ht
    rw [runningTotals_of_lt le_rfl (by omega) ht, zero_add]

/-- The sum that is compared with the limit. -/
theorem declaredTotal_of_lt {chunks : List ChunkRef} {total : ℤ} (htotal : 0 ≤ total)
    (h : total + declared (chunks.takeWhile ChunkRef.wellFormed) < 2 ^ 63) :
    declaredTotal total chunks =
      if chunks.all ChunkRef.wellFormed then some (total + declared chunks) else none := by
  induction chunks generalizing total with
  | nil => simp [declaredTotal, declared]
  | cons c chunks ih =>
    rw [declaredTotal]
    by_cases hc : c.wellFormed = true
    · have hmal : (!blobSum c.h || decide (c.n < 0)) = false := by simpa [ChunkRef.wellFormed] using hc
      rw [List.takeWhile_cons_of_pos hc, declared, List.map_cons, List.sum_cons] at h
      change total + (c.n + declared (chunks.takeWhile ChunkRef.wellFormed)) < 2 ^ 63 at h
      have hrest : 0 ≤ declared (chunks.takeWhile ChunkRef.wellFormed) :=
        declared_nonneg fun d hd => List.mem_takeWhile_imp hd
      have hn := ChunkRef.n_nonneg hc
      have hsum : (total + c.n).bmod (2 ^ 64) = total + c.n :=
        Int.bmod_eq_of_le (by omega) (by omega)
      rw [if_neg (by simp [hmal]), hsum, ih (by omega) (by omega), List.all_cons, hc,
        Bool.true_and, declared, declared, List.map_cons, List.sum_cons, add_assoc]
    · have hmal : (!blobSum c.h || decide (c.n < 0)) = true := by
        rw [← Bool.not_eq_false]
        intro hfalse
        exact hc (by rw [ChunkRef.wellFormed, hfalse]; rfl)
      rw [if_pos hmal, List.all_cons, Bool.eq_false_iff.mpr hc, Bool.false_and,
        if_neg Bool.false_ne_true]

/-! ### How long the pieces are -/

section Pieces

variable (hash : Hash) (basis : Option Basis) (get : GoString → Option Body)

/-- How long the piece of an entry is: the chunk of the older version, or what is read of the one
the remote serves. -/
def pieceSize (c : ChunkRef) : ℕ :=
  match basis.bind fun basis => basis.piece c.h with
  | some piece => piece.length
  | none =>
    match get (chunkObject c.h) with
    | none => 0
    | some body => min body.bytes.length (c.n.toNat + 1)

/-- Whether a fetch goes on behind an entry: it takes any chunk of the older version, and one of
the remote that has the declared length and the address. -/
def asNamed (c : ChunkRef) : Bool :=
  match basis.bind fun basis => basis.piece c.h with
  | some _ => true
  | none =>
    match get (chunkObject c.h) with
    | none => false
    | some body =>
      !(body.breaks && decide (body.bytes.length < c.n.toNat + 1)) &&
        decide (body.bytes.length = c.n.toNat) && decide (hash.sum body.bytes = c.h)

/-- How long the pieces are, up to the first that is not as it is named. -/
def pieceSizes : List ChunkRef → List ℕ
  | [] => []
  | c :: chunks =>
    pieceSize basis get c :: if asNamed hash basis get c then pieceSizes chunks else []

variable {basis get}

theorem limit_of_le {c : ChunkRef} (hwell : c.wellFormed = true) (hle : c.n ≤ maxPullBytes) :
    c.limit = c.n.toNat + 1 := by
  have hn := ChunkRef.n_nonneg hwell
  refine ChunkRef.limit_of ?_ ?_
  · omega
  · omega

/-- **The spool of the loop** is as long as the pieces. -/
theorem length_assemble {chunks : List ChunkRef}
    (h : ∀ c ∈ chunks, c.wellFormed = true ∧ c.n ≤ maxPullBytes) (spool : GoString) :
    (assemble hash basis get chunks spool).1.length =
      spool.length + (pieceSizes hash basis get chunks).sum := by
  induction chunks generalizing spool with
  | nil => simp [assemble, pieceSizes]
  | cons c chunks ih =>
    obtain ⟨hwell, hle⟩ := h c List.mem_cons_self
    have hrest := ih fun d hd => h d (List.mem_cons_of_mem _ hd)
    have hlimit := limit_of_le hwell hle
    have hn := ChunkRef.n_nonneg hwell
    rw [assemble, pieceSizes, pieceSize]
    cases hlocal : basis.bind fun basis => basis.piece c.h with
    | some piece =>
      have hnamed : asNamed hash basis get c = true := by
        rw [asNamed, hlocal]
      rw [if_pos hnamed, hrest, List.length_append, List.sum_cons, Nat.add_assoc]
    | none =>
      cases hget : get (chunkObject c.h) with
      | none =>
        have hnamed : asNamed hash basis get c = false := by
          rw [asNamed, hlocal, hget]
        simp [hnamed]
      | some body =>
        have hread : (body.bytes.take c.limit).length = min body.bytes.length (c.n.toNat + 1) := by
          rw [List.length_take, hlimit, Nat.min_comm]
        have hbreaks : (body.breaks && decide ((body.bytes.take c.limit).length < c.limit)) =
            (body.breaks && decide (body.bytes.length < c.n.toNat + 1)) := by
          rw [hread, hlimit]
          congr 1
          rw [decide_eq_decide]
          omega
        have hnamed : asNamed hash basis get c =
            (!(body.breaks && decide (body.bytes.length < c.n.toNat + 1)) &&
              decide (body.bytes.length = c.n.toNat) && decide (hash.sum body.bytes = c.h)) := by
          rw [asNamed, hlocal, hget]
        simp only [hbreaks]
        by_cases hgo : asNamed hash basis get c = true
        · rw [if_pos hgo]
          rw [hnamed, Bool.and_eq_true, Bool.and_eq_true, Bool.not_eq_true', decide_eq_true_eq,
            decide_eq_true_eq] at hgo
          obtain ⟨⟨hbreak, hlen⟩, hsum⟩ := hgo
          have htake : body.bytes.take c.limit = body.bytes := List.take_of_length_le (by omega)
          rw [hbreak, if_neg Bool.false_ne_true, htake, if_neg (by rw [hlen, hsum]; simp [hn]), hrest,
            List.length_append, List.sum_cons]
          omega
        · rw [if_neg hgo, List.sum_cons, List.sum_nil, Nat.add_zero]
          split_ifs with hbreak hwrong
          · rw [List.length_append, hread]
            rfl
          · rw [List.length_append, hread]
            rfl
          · refine absurd ?_ hgo
            rw [not_or, not_not, not_not] at hwrong
            have hlen : body.bytes.length = c.n.toNat := by omega
            rw [List.take_of_length_le (by omega)] at hwrong
            rw [hnamed, Bool.eq_false_iff.mpr hbreak, hlen, hwrong.2]
            simp

end Pieces

/-! ### The bound -/

section Bound

variable (hash : Hash) (chunker : Chunker) (get : GoString → Option Body) (blobs : Blobs)
  (blob basis : GoString) (man : Manifest)

/-- What a manifest has to be. The lengths up to the first malformed entry sum to less than
`2 ^ 63`; and where nothing stops the fetch beforehand, the pieces are together no longer than the
limit and one chunk. -/
structure SpoolFits : Prop where
  sum : declared (man.chunks.takeWhile ChunkRef.wellFormed) < 2 ^ 63
  pieces : (∀ c ∈ man.chunks, c.wellFormed = true) → declared man.chunks ≤ maxPullBytes →
    (pieceSizes hash (basisOf hash chunker blobs basis) get man.chunks).sum ≤
      maxPullBytes + chunkMax

/-- A length is at most the sum it is in. -/
theorem le_declared {chunks : List ChunkRef} (h : ∀ c ∈ chunks, c.wellFormed = true)
    {c : ChunkRef} (hc : c ∈ chunks) : c.n ≤ declared chunks :=
  List.single_le_sum (fun n hn => by
    obtain ⟨d, hd, rfl⟩ := List.mem_map.mp hn
    exact ChunkRef.n_nonneg (h d hd)) _ (List.mem_map_of_mem hc)

/-- The spool behind a manifest whose sums do not wrap. -/
theorem length_spool (h : declared (man.chunks.takeWhile ChunkRef.wellFormed) < 2 ^ 63) :
    (fetchManifest hash (basisOf hash chunker blobs basis) get blobs blob man).spool.length =
      if (∀ c ∈ man.chunks, c.wellFormed = true) ∧ declared man.chunks ≤ maxPullBytes then
        (pieceSizes hash (basisOf hash chunker blobs basis) get man.chunks).sum
      else 0 := by
  have htotal := declaredTotal_of_lt le_rfl (by rwa [zero_add])
  rw [zero_add] at htotal
  rw [fetchManifest, htotal]
  by_cases hwell : ∀ c ∈ man.chunks, c.wellFormed = true
  swap
  · rw [if_neg (by rwa [List.all_eq_true]), if_neg fun h => hwell h.1]
    rfl
  rw [if_pos (List.all_eq_true.mpr hwell)]
  simp only
  by_cases hle : declared man.chunks ≤ maxPullBytes
  swap
  · rw [if_pos (not_le.mp hle), if_neg fun h => hle h.2]
    rfl
  rw [if_neg (not_lt.mpr hle), if_pos ⟨hwell, hle⟩]
  have hlength := @length_assemble hash (basisOf hash chunker blobs basis) get man.chunks
    (fun c hc => ⟨hwell c hc, (le_declared hwell hc).trans hle⟩) []
  rw [List.length_nil, Nat.zero_add] at hlength
  rw [← hlength]
  cases hassemble : assemble hash (basisOf hash chunker blobs basis) get man.chunks [] with
  | mk spool error =>
    cases error with
    | none => rfl
    | some e => rfl

variable {get}

/-- The pieces that the older version has not are as long as they are declared, but for one byte of
the last. -/
theorem sum_pieceSizes_le {old : Option Basis} {chunks : List ChunkRef}
    (hwell : ∀ c ∈ chunks, c.wellFormed = true)
    (hold : ∀ c ∈ chunks, ∀ piece, (old.bind fun basis => basis.piece c.h) = some piece →
      (piece.length : ℤ) ≤ c.n) :
    ((pieceSizes hash old get chunks).sum : ℤ) ≤ declared chunks + 1 := by
  induction chunks with
  | nil => simp [pieceSizes, declared]
  | cons c chunks ih =>
    have hrest := ih (fun d hd => hwell d (List.mem_cons_of_mem _ hd))
      fun d hd => hold d (List.mem_cons_of_mem _ hd)
    have hn := ChunkRef.n_nonneg (hwell c List.mem_cons_self)
    have htail : 0 ≤ declared chunks :=
      declared_nonneg fun d hd => hwell d (List.mem_cons_of_mem _ hd)
    have hdeclared : declared (c :: chunks) = c.n + declared chunks := by
      rw [declared, List.map_cons, List.sum_cons, declared]
    rw [hdeclared, pieceSizes, List.sum_cons]
    -- a piece that is followed by others is not longer than it is declared
    have hpiece : (pieceSize old get c : ℤ) ≤ c.n + 1 ∧
        (asNamed hash old get c = true → (pieceSize old get c : ℤ) ≤ c.n) := by
      rw [pieceSize, asNamed]
      cases hlocal : old.bind fun basis => basis.piece c.h with
      | some piece =>
        have hle := hold c List.mem_cons_self piece hlocal
        exact ⟨hle.trans (Int.le_add_one le_rfl), fun _ => hle⟩
      | none =>
        cases get (chunkObject c.h) with
        | none => exact ⟨by simpa using by omega, fun h => by cases h⟩
        | some body =>
          refine ⟨by simp only; omega, fun h => ?_⟩
          simp only [Bool.and_eq_true, decide_eq_true_eq] at h
          have hlen := h.1.2
          simp only
          omega
    by_cases hgo : asNamed hash old get c = true
    · rw [if_pos hgo]
      have hle := hpiece.2 hgo
      rw [Int.natCast_add]
      omega
    · rw [if_neg hgo, List.sum_nil]
      have hle := hpiece.1
      rw [Int.natCast_add]
      omega

variable (get)

/-- **Where no chunk of the older version is declared too short**, the spool is never longer than
the limit and one byte. -/
theorem spool_le_of_declared
    (hsum : declared (man.chunks.takeWhile ChunkRef.wellFormed) < 2 ^ 63)
    (hold : ∀ c ∈ man.chunks, ∀ piece,
      ((basisOf hash chunker blobs basis).bind fun basis => basis.piece c.h) = some piece →
        (piece.length : ℤ) ≤ c.n) :
    (fetchManifest hash (basisOf hash chunker blobs basis) get blobs blob man).spool.length ≤
      maxPullBytes + 1 := by
  rw [length_spool hash chunker get blobs blob basis man hsum]
  split_ifs with hgo
  · have hle := @sum_pieceSizes_le hash get _ man.chunks hgo.1 hold
    have hlimit := hgo.2
    omega
  · exact Nat.zero_le _

end Bound

/-! ### Lengths that wrap -/

/-- Two chunks that are said to have `2 ^ 62` bytes each. -/
def longChunks : Manifest where
  v := 1
  size := 0
  chunks := [⟨List.replicate 64 97, 2 ^ 62⟩, ⟨List.replicate 64 98, 2 ^ 62⟩]

/-- A remote with that manifest, which serves some bytes for the first of the two. -/
def longRemote (bytes : GoString) (key : GoString) : Option Body :=
  if key = manifestObject [] then some { bytes := longChunks.text }
  else if key = chunkObject (List.replicate 64 97) then some { bytes }
  else none

theorem longChunks_proper : longChunks.Proper where
  v := by simp [longChunks, FitsInt64]
  size := by simp [longChunks, FitsInt64]
  chunks := by
    intro c hc
    refine ⟨?_, ?_⟩
    · revert c
      decide
    · simp only [longChunks, List.mem_cons, List.not_mem_nil, or_false] at hc
      rcases hc with rfl | rfl <;> simp [FitsInt64]

/-- A device without an older version writes all it is served. -/
theorem spool_longRemote {bytes : GoString} (h : bytes.length < 2 ^ 62) :
    (fetchChunked spelledHash wholeChunker (longRemote bytes) (fun _ => none) [] []).spool =
      bytes := by
  have hbound : longChunks.text.length ≤ manifestBound := by decide +kernel
  have htotal : declaredTotal 0 longChunks.chunks = some (-2 ^ 63) := by decide
  have hbasis : basisOf spelledHash wholeChunker (fun _ => none) [] = none := by
    rw [basisOf, if_neg fun h => h.1 rfl]
  have hkey : chunkObject (List.replicate 64 97) ≠ manifestObject [] := by decide
  have hread : bytes.take (ChunkRef.limit ⟨List.replicate 64 97, 2 ^ 62⟩) = bytes := by
    refine List.take_of_length_le ?_
    have hlimit : ChunkRef.limit ⟨List.replicate 64 97, 2 ^ 62⟩ = 2 ^ 62 + 1 := by decide
    omega
  rw [fetchChunked, longRemote, if_pos rfl]
  simp only [Bool.false_and]
  rw [List.take_of_length_le hbound, decodeManifest_text longChunks_proper, hbasis]
  have hassemble : assemble spelledHash none (longRemote bytes) longChunks.chunks [] =
      (bytes, some .wrongChunk) := by
    rw [longChunks, assemble, Option.bind_none, longRemote, if_neg hkey, if_pos rfl]
    simp only [hread, Bool.false_and, List.nil_append]
    rw [if_neg Bool.false_ne_true, if_pos (Or.inl (by omega))]
  simp only [fetchManifest, htotal]
  rw [if_neg (by decide), hassemble]

end Beardrive
