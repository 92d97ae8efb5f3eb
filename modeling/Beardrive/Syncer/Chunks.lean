import Beardrive.Syncer.Manifest

/-!
# Large files in chunks

A large file goes to the remote as chunks, each under its own address, and as a manifest that lists
them. The writer leaves out the chunks the remote confirms to hold. The reader takes the chunks it
finds in an older version of the file from there, and the others from the remote, and files what
it has put together under the address that it computes from it.

The manifest may be anything: a remote is believed only where an address was computed. A chunk
from the remote is read up to one byte more than it is said to have; a chunk from the older version
is copied as it is there, whatever the manifest says of its length.

## The whole blob instead

A remote that refuses the manifest gets the whole file, and the push succeeds. Then the chunks are
not how the content is fetched.

## Main definitions

* `Chunker`, `chunkSpans` — how a file is cut
* `pushChunked`, `fetchChunked` — both ends
* `assemble` — the loop over the chunks of a manifest
-/

namespace Beardrive

/-- The largest chunk. -/
def chunkMax : ℕ := 4 * 2 ^ 20

/-- How much of a manifest is read. -/
def manifestBound : ℕ := 8 * 2 ^ 20

/-- The ceiling on what is pulled at once. -/
def maxPullBytes : ℕ := 100 * 2 ^ 20

/-- The key of a chunk on the remote. -/
def chunkObject (sha : GoString) : GoString := ascii "chunks/" ++ sha

/-- The key of a manifest on the remote. -/
def manifestObject (blob : GoString) : GoString := ascii "manifests/" ++ blob

/-- The key of a whole blob on the remote. -/
def blobObject (blob : GoString) : GoString := ascii "blobs/" ++ blob

/-! ### Cutting a file -/

/-- What cuts a content into chunks: the pieces are the content, and none of them is empty. -/
structure Chunker where
  split : GoString → List GoString
  flatten_split : ∀ content, (split content).flatten = content
  ne_nil : ∀ content, ∀ piece ∈ split content, piece ≠ []

/-- One chunk of a local blob: its address and where it is in the whole file. -/
structure Span where
  sha : GoString
  off : ℕ
  n : ℕ

/-- The bytes of a chunk, read off the whole file. -/
def Span.read (sp : Span) (content : GoString) : GoString := (content.drop sp.off).take sp.n

/-- The chunks of a file from an offset on. -/
def spansFrom (hash : Hash) : ℕ → List GoString → List Span
  | _, [] => []
  | off, piece :: pieces =>
    ⟨hash.sum piece, off, piece.length⟩ :: spansFrom hash (off + piece.length) pieces

/-- `chunkSpans`, of a content. -/
def chunkSpans (hash : Hash) (chunker : Chunker) (content : GoString) : List Span :=
  spansFrom hash 0 (chunker.split content)

/-! ### Pushing -/

/-- What stands on the remote under each key. -/
abbrev RemoteObjects := GoString → Option GoString

/-- How the remote answers: which existence checks fail, and which writes. -/
structure Backend where
  unsure : GoString → Bool := fun _ => false
  refuses : RemoteObjects → GoString → GoString → Bool := fun _ _ _ => false

/-- `Backend.Put`. -/
def Backend.put (b : Backend) (objects : RemoteObjects) (key body : GoString) :
    Option RemoteObjects :=
  if b.refuses objects key body then none else some (Function.update objects key (some body))

/-- `Backend.Exists`, when it answers that the key is there. -/
def Backend.confirms (b : Backend) (objects : RemoteObjects) (key : GoString) : Bool :=
  !b.unsure key && (objects key).isSome

/-- What a push leaves on the remote, how much it uploaded and whether it failed. -/
structure Pushed where
  objects : RemoteObjects
  uploaded : ℕ := 0
  failed : Bool := false

/-- The loop over the chunks: those the remote confirms to hold are left out. -/
def pushSpans (b : Backend) (content : GoString) : List Span → RemoteObjects → ℕ → Pushed
  | [], objects, uploaded => { objects, uploaded }
  | sp :: spans, objects, uploaded =>
    if b.confirms objects (chunkObject sp.sha) then pushSpans b content spans objects uploaded
    else
      match b.put objects (chunkObject sp.sha) (sp.read content) with
      | none => { objects, uploaded, failed := true }
      | some objects => pushSpans b content spans objects (uploaded + sp.n)

/-- The manifest of a file. -/
def manifestOf (spans : List Span) : Manifest :=
  { v := 1, size := (spans.map fun sp => (sp.n : ℤ)).sum
    chunks := spans.map fun sp => ⟨sp.sha, sp.n⟩ }

/-- `pushChunked`: chunks, then the manifest; the whole blob where the manifest is refused. -/
def pushChunked (hash : Hash) (chunker : Chunker) (b : Backend) (blobs : Blobs)
    (objects : RemoteObjects) (blob : GoString) : Pushed :=
  match blobs.open_ blob with
  | none => { objects, failed := true }
  | some content =>
    let spans := chunkSpans hash chunker content
    let p := pushSpans b content spans objects 0
    if p.failed then p
    else
      let text := (manifestOf spans).text
      match b.put p.objects (manifestObject blob) text with
      | some objects => { objects, uploaded := p.uploaded + text.length }
      | none =>
        match b.put p.objects (blobObject blob) content with
        | some objects => { objects, uploaded := p.uploaded + content.length }
        | none => { p with failed := true }

/-! ### Fetching -/

/-- What a remote serves for a key; it may break off. -/
structure Body where
  bytes : GoString
  breaks : Bool := false

/-- How a fetch fails. -/
inductive FetchError where
  | noManifest
  | badManifest
  | invalidChunk
  | missingChunk
  | brokenChunk
  | wrongChunk
  | wrongContent
  deriving DecidableEq

/-- What a fetch leaves: how it failed, if it did, what it wrote to its spool, and the store. -/
structure Fetched where
  error : Option FetchError := none
  spool : GoString := []
  blobs : Blobs

/-- The sum of the declared lengths, in an `int64`; nothing where an entry is malformed. -/
def declaredTotal : ℤ → List ChunkRef → Option ℤ
  | total, [] => some total
  | total, c :: chunks =>
    if !blobSum c.h || decide (c.n < 0) then none
    else declaredTotal ((total + c.n).bmod (2 ^ 64)) chunks

/-- What is left of an older version: its content, and its chunks. A chunk that occurs twice is
the later one. -/
structure Basis where
  content : GoString
  spans : List Span

/-- The chunk of an older version with an address. -/
def Basis.piece (basis : Basis) (h : GoString) : Option GoString :=
  (basis.spans.reverse.find? fun sp => sp.sha == h).map fun sp => sp.read basis.content

/-- How much is read of a chunk from the remote. -/
def ChunkRef.limit (c : ChunkRef) : ℕ := ((c.n + 1).bmod (2 ^ 64)).toNat

/-- The loop over the chunks of a manifest. -/
def assemble (hash : Hash) (basis : Option Basis) (get : GoString → Option Body) :
    List ChunkRef → GoString → GoString × Option FetchError
  | [], spool => (spool, none)
  | c :: chunks, spool =>
    match basis.bind fun basis => basis.piece c.h with
    | some piece => assemble hash basis get chunks (spool ++ piece)
    | none =>
      match get (chunkObject c.h) with
      | none => (spool, some .missingChunk)
      | some body =>
        let read := body.bytes.take c.limit
        if body.breaks && decide (read.length < c.limit) then (spool ++ read, some .brokenChunk)
        else if (read.length : ℤ) ≠ c.n ∨ hash.sum read ≠ c.h then
          (spool ++ read, some .wrongChunk)
        else assemble hash basis get chunks (spool ++ read)

/-- The older version a fetch draws on, if the device has it. -/
def basisOf (hash : Hash) (chunker : Chunker) (blobs : Blobs) (basis : GoString) : Option Basis :=
  if basis ≠ [] ∧ blobs.has basis = true then
    (blobs.open_ basis).map fun content => ⟨content, chunkSpans hash chunker content⟩
  else none

/-- `fetchChunked` behind a manifest that was decoded. -/
def fetchManifest (hash : Hash) (basis : Option Basis) (get : GoString → Option Body)
    (blobs : Blobs) (blob : GoString) (man : Manifest) : Fetched :=
  match declaredTotal 0 man.chunks with
  | none => { error := some .invalidChunk, blobs }
  | some total =>
    if (maxPullBytes : ℤ) < total then { error := some .noManifest, blobs }
    else
      match assemble hash basis get man.chunks [] with
      | (spool, some e) => { error := some e, spool, blobs }
      | (spool, none) =>
        { error := if hash.sum spool = blob then none else some .wrongContent
          spool, blobs := blobs.put hash spool }

/-- `fetchChunked`. -/
def fetchChunked (hash : Hash) (chunker : Chunker) (get : GoString → Option Body) (blobs : Blobs)
    (blob basis : GoString) : Fetched :=
  match get (manifestObject blob) with
  | none => { error := some .noManifest, blobs }
  | some body =>
    match decodeManifest (body.breaks && decide (body.bytes.length < manifestBound))
        (body.bytes.take manifestBound) with
    | none => { error := some .badManifest, blobs }
    | some man => fetchManifest hash (basisOf hash chunker blobs basis) get blobs blob man

/-- A remote that serves what it stores. -/
def serve (objects : RemoteObjects) (key : GoString) : Option Body :=
  (objects key).map fun bytes => { bytes }

end Beardrive
