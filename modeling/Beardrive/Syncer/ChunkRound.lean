import Beardrive.Syncer.Chunks

/-!
# What was pushed is fetched

The two ends of a chunked transfer meet in the manifest. The writer's loop leaves every chunk of the
file on the remote, its own or one the remote confirmed; the reader's loop puts a piece behind its
spool for every entry, and the piece is the chunk of that address, wherever it comes from, as long
as no two chunks share one.

A push that succeeds need not leave a manifest, nor need a manifest be short enough to be read; then
nothing is fetched this way. Whatever else the remote holds, only what has the address of the op is
taken for its content.

## Main results

* `assemble_pieces` — the chunks of a content assemble to it
* `chunks_round_trip` — a push that left its manifest is fetched, and only the content is stored
* `refused_not_fetched` — a push whose manifest was refused
-/

namespace Beardrive

variable {hash : Hash} {chunker : Chunker}

/-! ### The pieces of a file -/

/-- A chunk stands where its piece is. -/
def Span.Of (hash : Hash) (content : GoString) (sp : Span) (piece : GoString) : Prop :=
  sp.sha = hash.sum piece ∧ sp.n = piece.length ∧ sp.read content = piece

theorem spansFrom_of (hash : Hash) (pieces : List GoString) (front : GoString) :
    List.Forall₂ (Span.Of hash (front ++ pieces.flatten)) (spansFrom hash front.length pieces)
      pieces := by
  induction pieces generalizing front with
  | nil => exact .nil
  | cons piece pieces ih =>
    refine .cons ⟨rfl, rfl, ?_⟩ ?_
    · rw [Span.read, List.flatten_cons, List.drop_left, List.take_left]
    · have := ih (front ++ piece)
      rwa [List.length_append, List.append_assoc] at this

theorem chunkSpans_of (hash : Hash) (chunker : Chunker) (content : GoString) :
    List.Forall₂ (Span.Of hash content) (chunkSpans hash chunker content)
      (chunker.split content) := by
  have := spansFrom_of hash (chunker.split content) []
  rwa [List.nil_append, chunker.flatten_split] at this

/-- A chunk of a file stands where some piece is. -/
theorem exists_piece {content : GoString} {spans : List Span} {pieces : List GoString}
    (hof : List.Forall₂ (Span.Of hash content) spans pieces) {sp : Span} (h : sp ∈ spans) :
    ∃ p ∈ pieces, sp.Of hash content p := by
  induction hof with
  | nil => cases h
  | @cons sp' piece spans pieces hsp hrest ih =>
    rcases List.mem_cons.mp h with rfl | h
    · exact ⟨piece, List.mem_cons_self, hsp⟩
    · obtain ⟨p, hp, hof⟩ := ih h
      exact ⟨p, List.mem_cons_of_mem _ hp, hof⟩

/-- The chunk of an older version is one of its pieces. -/
theorem Basis.piece_mem {content h piece : GoString}
    (hpiece : (Basis.mk content (chunkSpans hash chunker content)).piece h = some piece) :
    piece ∈ chunker.split content ∧ hash.sum piece = h := by
  obtain ⟨sp, hsp, rfl⟩ := Option.map_eq_some_iff.mp hpiece
  have hsha : sp.sha = h := by simpa using List.find?_some hsp
  have hmem : sp ∈ chunkSpans hash chunker content :=
    List.mem_reverse.mp (List.mem_of_find?_eq_some hsp)
  obtain ⟨p, hp, hof⟩ := exists_piece (chunkSpans_of hash chunker content) hmem
  rw [hof.2.2]
  exact ⟨hp, hof.1.symm.trans hsha⟩

/-! ### What the writer leaves -/

theorem chunkObject_inj {a b : GoString} (h : chunkObject a = chunkObject b) : a = b :=
  List.append_cancel_left h

theorem chunkObject_ne_manifestObject (a b : GoString) : chunkObject a ≠ manifestObject b := by
  intro h
  exact absurd (List.cons.inj h).1 (by decide)

theorem chunkObject_ne_blobObject (a b : GoString) : chunkObject a ≠ blobObject b := by
  intro h
  exact absurd (List.cons.inj h).1 (by decide)

/-- The chunks the remote holds are those of their addresses. -/
def ChunksRight (hash : Hash) (pieces : List GoString) (objects : RemoteObjects) : Prop :=
  ∀ piece ∈ pieces, ∀ x, objects (chunkObject (hash.sum piece)) = some x → x = piece

/-- No two of the pieces share an address. -/
def SumsApart (hash : Hash) (pieces others : List GoString) : Prop :=
  ∀ p ∈ pieces, ∀ q ∈ others, hash.sum p = hash.sum q → p = q

theorem Backend.put_cases {b : Backend} {objects objects' : RemoteObjects} {key body : GoString}
    (h : b.put objects key body = some objects') :
    objects' = Function.update objects key (some body) := by
  rw [Backend.put] at h
  split_ifs at h
  exact (Option.some.inj h).symm

/-- The loop leaves every chunk of the file, and what was there is right still. -/
theorem pushSpans_leaves {b : Backend} {content : GoString} {all : List GoString}
    (hapart : SumsApart hash all all) {spans : List Span} {pieces : List GoString}
    (hof : List.Forall₂ (Span.Of hash content) spans pieces) (hsub : ∀ p ∈ pieces, p ∈ all)
    {objects : RemoteObjects} (hright : ChunksRight hash all objects) {uploaded : ℕ}
    (hok : (pushSpans b content spans objects uploaded).failed = false) :
    ChunksRight hash all (pushSpans b content spans objects uploaded).objects ∧
      (∀ p ∈ all, (objects (chunkObject (hash.sum p))).isSome = true →
        ((pushSpans b content spans objects uploaded).objects
          (chunkObject (hash.sum p))).isSome = true) ∧
      ∀ p ∈ pieces, ((pushSpans b content spans objects uploaded).objects
        (chunkObject (hash.sum p))).isSome = true := by
  induction hof generalizing objects uploaded with
  | nil => exact ⟨hright, fun _ _ h => h, by simp⟩
  | @cons sp piece spans pieces hsp hrest ih =>
    obtain ⟨hsha, -, hread⟩ := hsp
    have hpiece : piece ∈ all := hsub piece List.mem_cons_self
    have hsub' : ∀ p ∈ pieces, p ∈ all := fun p hp => hsub p (List.mem_cons_of_mem _ hp)
    rw [pushSpans] at hok ⊢
    by_cases hthere : b.confirms objects (chunkObject sp.sha) = true
    · rw [if_pos hthere] at hok ⊢
      obtain ⟨hright', hkept, hall⟩ := ih hsub' hright hok
      refine ⟨hright', hkept, List.forall_mem_cons.mpr ⟨hkept piece hpiece ?_, hall⟩⟩
      rw [Backend.confirms, Bool.and_eq_true] at hthere
      rw [← hsha]
      exact hthere.2
    · rw [if_neg hthere] at hok ⊢
      cases hput : b.put objects (chunkObject sp.sha) (sp.read content) with
      | none =>
        rw [hput] at hok
        exact absurd hok (by simp)
      | some objects' =>
        rw [hput] at hok
        simp only at hok ⊢
        have hobjects := Backend.put_cases hput
        rw [hread, hsha] at hobjects
        have hright' : ChunksRight hash all objects' := by
          intro p hp x hx
          rw [hobjects] at hx
          by_cases heq : hash.sum p = hash.sum piece
          · rw [heq, Function.update_self] at hx
            rw [hapart p hp piece hpiece heq]
            exact (Option.some.inj hx).symm
          · rw [Function.update_of_ne fun h => heq (chunkObject_inj h)] at hx
            exact hright p hp x hx
        have hkept' : ∀ p ∈ all, (objects (chunkObject (hash.sum p))).isSome = true →
            (objects' (chunkObject (hash.sum p))).isSome = true := by
          intro p hp hsome
          rw [hobjects]
          by_cases heq : chunkObject (hash.sum p) = chunkObject (hash.sum piece)
          · rw [heq, Function.update_self]
            rfl
          · rwa [Function.update_of_ne heq]
        have hnew : (objects' (chunkObject (hash.sum piece))).isSome = true := by
          rw [hobjects, Function.update_self]
          rfl
        obtain ⟨hright'', hkept, hall⟩ := ih hsub' hright' hok
        exact ⟨hright'', fun p hp hsome => hkept p hp (hkept' p hp hsome),
          List.forall_mem_cons.mpr ⟨hkept piece hpiece hnew, hall⟩⟩

/-- A push that succeeds leaves every chunk, whether or not it left its manifest. -/
theorem pushChunked_leaves {b : Backend} {blobs : Blobs} {objects : RemoteObjects}
    {blob content : GoString} (hopen : blobs.open_ blob = some content)
    (hapart : SumsApart hash (chunker.split content) (chunker.split content))
    (hright : ChunksRight hash (chunker.split content) objects)
    (hok : (pushChunked hash chunker b blobs objects blob).failed = false) :
    ∀ p ∈ chunker.split content,
      (pushChunked hash chunker b blobs objects blob).objects (chunkObject (hash.sum p)) =
        some p := by
  simp only [pushChunked, hopen] at hok ⊢
  generalize hp : pushSpans b content (chunkSpans hash chunker content) objects 0 = pushed at hok ⊢
  by_cases hfailed : pushed.failed = true
  · rw [if_pos hfailed] at hok
    exact absurd hfailed (by rw [hok]; exact Bool.false_ne_true)
  have hpushed : ∀ p ∈ chunker.split content,
      pushed.objects (chunkObject (hash.sum p)) = some p := by
    have hleaves := @pushSpans_leaves hash b content _ hapart _ _
      (chunkSpans_of hash chunker content) (fun _ h => h) objects hright 0
    rw [hp] at hleaves
    obtain ⟨hright', -, hall⟩ := hleaves (Bool.not_eq_true _ ▸ hfailed)
    intro p hp
    obtain ⟨x, hx⟩ := Option.isSome_iff_exists.mp (hall p hp)
    rw [hx, hright' p hp x hx]
  rw [if_neg hfailed]
  rw [if_neg hfailed] at hok
  intro p hmem
  cases hput : b.put pushed.objects (manifestObject blob)
      (manifestOf (chunkSpans hash chunker content)).text with
  | some objects' =>
    simp only
    rw [Backend.put_cases hput, Function.update_of_ne (chunkObject_ne_manifestObject _ _)]
    exact hpushed p hmem
  | none =>
    rw [hput] at hok
    simp only at hok ⊢
    cases hwhole : b.put pushed.objects (blobObject blob) content with
    | some objects' =>
      simp only
      rw [Backend.put_cases hwhole, Function.update_of_ne (chunkObject_ne_blobObject _ _)]
      exact hpushed p hmem
    | none =>
      rw [hwhole] at hok
      exact absurd hok (by simp)

/-! ### What the reader assembles -/

/-- An entry of a manifest names a piece. -/
def ChunkRef.Of (hash : Hash) (c : ChunkRef) (piece : GoString) : Prop :=
  c.h = hash.sum piece ∧ c.n = piece.length

theorem manifestOf_chunks_of (hash : Hash) (chunker : Chunker) (content : GoString) :
    List.Forall₂ (ChunkRef.Of hash) (manifestOf (chunkSpans hash chunker content)).chunks
      (chunker.split content) := by
  rw [manifestOf, List.forall₂_map_left_iff]
  refine (chunkSpans_of hash chunker content).imp ?_
  rintro sp piece ⟨hsha, hn, -⟩
  exact ⟨hsha, by rw [hn]⟩

/-- The length of one piece leaves room for the byte that is read beyond it. -/
theorem ChunkRef.limit_of {c : ChunkRef} {n : ℕ} (hn : c.n = n) (hle : n ≤ maxPullBytes) :
    c.limit = n + 1 := by
  rw [maxPullBytes] at hle
  rw [limit, hn, Int.bmod_eq_of_le (by omega) (by omega)]
  omega

/-- **The chunks of a content assemble to it**, those of the older version and those of the
remote. -/
theorem assemble_pieces {basis : Option Basis} {get : GoString → Option Body}
    {all : List GoString}
    (hbasis : ∀ p ∈ all, ∀ q, basis.bind (fun basis => basis.piece (hash.sum p)) = some q → q = p)
    (hget : ∀ p ∈ all, get (chunkObject (hash.sum p)) = some { bytes := p })
    (hlen : ∀ p ∈ all, p.length ≤ maxPullBytes) {chunks : List ChunkRef} {pieces : List GoString}
    (hof : List.Forall₂ (ChunkRef.Of hash) chunks pieces) (hsub : ∀ p ∈ pieces, p ∈ all)
    (spool : GoString) :
    assemble hash basis get chunks spool = (spool ++ pieces.flatten, none) := by
  induction hof generalizing spool with
  | nil => simp [assemble]
  | @cons c piece chunks pieces hc hrest ih =>
    obtain ⟨hh, hn⟩ := hc
    have hpiece : piece ∈ all := hsub piece List.mem_cons_self
    have htail := ih (fun p hp => hsub p (List.mem_cons_of_mem _ hp)) (spool ++ piece)
    rw [List.append_assoc] at htail
    rw [assemble, hh, List.flatten_cons]
    cases hlocal : basis.bind fun basis => basis.piece (hash.sum piece) with
    | some q =>
      rw [hbasis piece hpiece q hlocal]
      exact htail
    | none =>
      have hlimit := ChunkRef.limit_of hn (hlen piece hpiece)
      have hread : piece.take c.limit = piece := List.take_of_length_le (by omega)
      simp only [hget piece hpiece, hread, Bool.false_and, Bool.false_eq_true, if_false]
      rw [if_neg (by rw [hn]; simp)]
      exact htail

theorem declaredTotal_of {chunks : List ChunkRef} {pieces : List GoString}
    (hof : List.Forall₂ (ChunkRef.Of hash) chunks pieces) {total : ℕ}
    (hfits : total + pieces.flatten.length ≤ maxPullBytes) :
    declaredTotal total chunks = some ((total + pieces.flatten.length : ℕ) : ℤ) := by
  induction hof generalizing total with
  | nil => simp [declaredTotal]
  | @cons c piece chunks pieces hc hrest ih =>
    obtain ⟨hh, hn⟩ := hc
    rw [List.flatten_cons, List.length_append] at hfits ⊢
    have hwrap : ((total : ℤ) + c.n).bmod (2 ^ 64) = ((total + piece.length : ℕ) : ℤ) := by
      rw [maxPullBytes] at hfits
      rw [hn, Int.bmod_eq_of_le (by omega) (by omega)]
      push_cast
      rfl
    have hvalid : (!blobSum c.h || decide (c.n < 0)) = false := by
      rw [hh, hash.blobSum_sum, hn]
      simp
    rw [declaredTotal, hvalid, if_neg Bool.false_ne_true, hwrap, ih (by omega), Nat.add_assoc]

/-- The manifest of a content that may be pulled has numbers that fit. -/
theorem manifestOf_proper {content : GoString} (hlen : content.length ≤ maxPullBytes) :
    (manifestOf (chunkSpans hash chunker content)).Proper := by
  have hof := manifestOf_chunks_of hash chunker content
  have hpiece : ∀ p ∈ chunker.split content, p.length ≤ maxPullBytes := by
    intro p hp
    refine le_trans ?_ hlen
    conv_rhs => rw [← chunker.flatten_split content]
    exact (List.sublist_flatten_of_mem hp).length_le
  have hsize {spans : List Span} {pieces : List GoString}
      (h : List.Forall₂ (Span.Of hash content) spans pieces) :
      (manifestOf spans).size = (pieces.flatten.length : ℤ) := by
    rw [manifestOf]
    induction h with
    | nil => rfl
    | @cons sp piece spans pieces hsp hrest ih =>
      simp only [List.map_cons, List.sum_cons, List.flatten_cons, List.length_append] at ih ⊢
      rw [ih, hsp.2.1]
      push_cast
      rfl
  have hchunks {chunks : List ChunkRef} {pieces : List GoString}
      (h : List.Forall₂ (ChunkRef.Of hash) chunks pieces)
      (hle : ∀ p ∈ pieces, p.length ≤ maxPullBytes) :
      ∀ c ∈ chunks, blobSum c.h = true ∧ FitsInt64 c.n := by
    induction h with
    | nil => simp
    | @cons c piece chunks pieces hc hrest ih =>
      have hpiece := hle piece List.mem_cons_self
      rw [maxPullBytes] at hpiece
      refine List.forall_mem_cons.mpr ⟨⟨hc.1 ▸ hash.blobSum_sum piece, ?_⟩,
        ih fun p hp => hle p (List.mem_cons_of_mem _ hp)⟩
      rw [hc.2, FitsInt64]
      omega
  refine ⟨by simp [manifestOf, FitsInt64], ?_, hchunks hof hpiece⟩
  rw [hsize (chunkSpans_of hash chunker content), chunker.flatten_split, FitsInt64]
  rw [maxPullBytes] at hlen
  omega

/-! ### Both ends -/

/-- The older version of a device, cut into chunks. -/
theorem basisOf_cases {blobs : Blobs} {basis : GoString} {b : Basis}
    (h : basisOf hash chunker blobs basis = some b) :
    ∃ content, blobs.open_ basis = some content ∧ b = ⟨content, chunkSpans hash chunker content⟩ := by
  rw [basisOf] at h
  split_ifs at h
  obtain ⟨content, hopen, rfl⟩ := Option.map_eq_some_iff.mp h
  exact ⟨content, hopen, rfl⟩

/-- The content of a fetch that succeeds has the address of the op. -/
theorem fetchChunked_ok {get : GoString → Option Body} {blobs : Blobs} {blob basis : GoString}
    (h : (fetchChunked hash chunker get blobs blob basis).error = none) :
    ∃ content, hash.sum content = blob ∧
      (fetchChunked hash chunker get blobs blob basis).blobs = blobs.put hash content := by
  rw [fetchChunked] at h ⊢
  split at h
  · cases h
  · split at h
    · cases h
    · rw [fetchManifest] at h ⊢
      split at h
      · cases h
      · split_ifs at h ⊢
        split at h
        · cases h
        · rename_i spool hspool
          split_ifs at h with hsum
          exact ⟨spool, hsum, rfl⟩

/-- A fetch from a remote that holds the chunks and the manifest of a content stores it. -/
theorem fetchChunked_pushed {objects : RemoteObjects} {content : GoString} {receiver : Blobs}
    {basis : GoString} (hlen : content.length ≤ maxPullBytes)
    (hold : ∀ old, receiver.open_ basis = some old →
      SumsApart hash (chunker.split content) (chunker.split old))
    (hchunks : ∀ p ∈ chunker.split content, objects (chunkObject (hash.sum p)) = some p)
    (hman : objects (manifestObject (hash.sum content)) =
      some (manifestOf (chunkSpans hash chunker content)).text)
    (hbound : (manifestOf (chunkSpans hash chunker content)).text.length ≤ manifestBound) :
    fetchChunked hash chunker (serve objects) receiver (hash.sum content) basis =
      { spool := content, blobs := receiver.put hash content } := by
  have hof := manifestOf_chunks_of hash chunker content
  have htotal := @declaredTotal_of hash _ _ hof 0 (by rwa [chunker.flatten_split, Nat.zero_add])
  rw [chunker.flatten_split, Nat.zero_add] at htotal
  have hpiece : ∀ p ∈ chunker.split content, p.length ≤ maxPullBytes := by
    intro p hp
    refine le_trans ?_ hlen
    conv_rhs => rw [← chunker.flatten_split content]
    exact (List.sublist_flatten_of_mem hp).length_le
  have hassemble : assemble hash (basisOf hash chunker receiver basis) (serve objects)
      (manifestOf (chunkSpans hash chunker content)).chunks [] = (content, none) := by
    have hlocal : ∀ p ∈ chunker.split content, ∀ q,
        (basisOf hash chunker receiver basis).bind (fun b => b.piece (hash.sum p)) = some q →
          q = p := by
      intro p hp q hq
      obtain ⟨b, hb, hq⟩ := Option.bind_eq_some_iff.mp hq
      obtain ⟨old, hopen, rfl⟩ := basisOf_cases hb
      obtain ⟨hmem, hsum⟩ := Basis.piece_mem hq
      exact (hold old hopen p hp q hmem hsum.symm).symm
    have hserve : ∀ p ∈ chunker.split content,
        serve objects (chunkObject (hash.sum p)) = some { bytes := p } := by
      intro p hp
      rw [serve, hchunks p hp]
      rfl
    rw [assemble_pieces hlocal hserve hpiece hof (fun _ h => h) [], List.nil_append,
      chunker.flatten_split]
  rw [fetchChunked, serve, hman]
  simp only [Option.map_some, Bool.false_and]
  rw [List.take_of_length_le hbound, decodeManifest_text (manifestOf_proper hlen)]
  simp only [fetchManifest]
  rw [show ((0 : ℤ)) = ((0 : ℕ) : ℤ) from rfl, htotal]
  simp only [hassemble, if_true]
  rw [if_neg (by exact_mod_cast not_lt.mpr hlen)]

/-- **A push that left its manifest is fetched**: for every content up to the ceiling and every
cut, whatever chunks of it the remote held and whatever older version the reader has. **And only
the content of an op is stored under its address**, whatever a remote serves. -/
theorem chunks_round_trip (hash : Hash) (chunker : Chunker) :
    (∀ (b : Backend) (pusher receiver : Blobs) (objects : RemoteObjects) (content basis : GoString),
      content.length ≤ maxPullBytes → pusher.open_ (hash.sum content) = some content →
      SumsApart hash (chunker.split content) (chunker.split content) →
      (∀ old, receiver.open_ basis = some old →
        SumsApart hash (chunker.split content) (chunker.split old)) →
      ChunksRight hash (chunker.split content) objects →
      (pushChunked hash chunker b pusher objects (hash.sum content)).failed = false →
      (pushChunked hash chunker b pusher objects (hash.sum content)).objects
        (manifestObject (hash.sum content)) =
          some (manifestOf (chunkSpans hash chunker content)).text →
      (manifestOf (chunkSpans hash chunker content)).text.length ≤ manifestBound →
      fetchChunked hash chunker
          (serve (pushChunked hash chunker b pusher objects (hash.sum content)).objects) receiver
          (hash.sum content) basis =
        { spool := content, blobs := receiver.put hash content }) ∧
    ∀ (get : GoString → Option Body) (blobs : Blobs) (blob basis : GoString),
      (fetchChunked hash chunker get blobs blob basis).error = none →
      ∃ content, hash.sum content = blob ∧
        (fetchChunked hash chunker get blobs blob basis).blobs = blobs.put hash content := by
  constructor
  · intro b pusher receiver objects content basis hlen hopen hapart hold hright hok hman hbound
    exact fetchChunked_pushed hlen hold (pushChunked_leaves hopen hapart hright hok) hman hbound
  · intro get blobs blob basis hok
    exact fetchChunked_ok hok

/-- A chunker that never cuts. -/
def wholeChunker : Chunker where
  split content := if content = [] then [] else [content]
  flatten_split content := by
    split_ifs with h
    · exact h.symm
    · simp
  ne_nil content piece h := by
    split_ifs at h with hnil
    · cases h
    · rw [List.mem_singleton.mp h]
      exact hnil

/-- A store with one blob. -/
def oneBlob : Blobs := Blobs.put (fun _ => none) spelledHash (ascii "abc")

theorem chunks_round_trip_abc :
    fetchChunked spelledHash wholeChunker
        (serve (pushChunked spelledHash wholeChunker {} oneBlob (fun _ => none)
          (spelledHash.sum (ascii "abc"))).objects) (fun _ => none)
        (spelledHash.sum (ascii "abc")) [] =
      { spool := ascii "abc", blobs := Blobs.put (fun _ => none) spelledHash (ascii "abc") } := by
  refine (chunks_round_trip spelledHash wholeChunker).1 {} oneBlob (fun _ => none) (fun _ => none)
    (ascii "abc") [] (by decide +kernel) (by decide +kernel) ?_ ?_ ?_ (by decide +kernel)
    (by decide +kernel) (by decide +kernel)
  · intro p hp q hq _
    have hsplit : wholeChunker.split (ascii "abc") = [ascii "abc"] := by decide +kernel
    rw [hsplit, List.mem_singleton] at hp hq
    rw [hp, hq]
  · intro old hopen
    exact absurd hopen (by simp [Blobs.open_])
  · intro p hp x hx
    cases hx

/-- A remote that refuses every manifest. -/
def noManifests : Backend where
  refuses _ key _ := hasPrefix key (ascii "manifests/")

/-- **A push whose manifest is refused succeeds**, with the whole blob, and nothing is fetched in
chunks. -/
theorem refused_not_fetched :
    (pushChunked spelledHash wholeChunker noManifests oneBlob (fun _ => none)
      (spelledHash.sum (ascii "abc"))).failed = false ∧
    (fetchChunked spelledHash wholeChunker
      (serve (pushChunked spelledHash wholeChunker noManifests oneBlob (fun _ => none)
        (spelledHash.sum (ascii "abc"))).objects) (fun _ => none)
      (spelledHash.sum (ascii "abc")) []).error = some .noManifest ∧
    (fetchChunked spelledHash wholeChunker
      (serve (pushChunked spelledHash wholeChunker noManifests oneBlob (fun _ => none)
        (spelledHash.sum (ascii "abc"))).objects) (fun _ => none)
      (spelledHash.sum (ascii "abc")) []).blobs (spelledHash.sum (ascii "abc")) = none := by
  refine ⟨by decide +kernel, by decide +kernel, by decide +kernel⟩

end Beardrive
