import OpenRecovery.ApplyPatch.ImgPatch
import OpenRecovery.ImgDiff.BsDiff

/-!
# Making an image patch

`applypatch/imgdiff.c` from the chunk lists on: `ReadImage` and `ReadZip` have broken the two files
apart. A chunk's `data` is a position in its file or a buffer of its own. The files `imgdiff` itself
reads and writes are read and written without errors. `none` is an access outside a buffer, or a
`deflate` that never ends because `deflateInit2` has refused its parameters.

Fields that `ReadZip` and `ReadImage` leave unset hold whatever the memory held before: the model
gives them some value and nothing is assumed of it.
-/

set_option autoImplicit false

namespace OpenRecovery.ImgDiff

open OpenRecovery.ApplyPatch OpenRecovery.Storage

/-- The type of a chunk. -/
inductive ChunkType where
  | normal
  | deflate
  | raw
  deriving DecidableEq

/-- The number written for a type. -/
def ChunkType.code : ChunkType → Int
  | .normal => chunkNormal
  | .deflate => chunkDeflate
  | .raw => chunkRaw

/-- A `data` pointer: into the file, or to a buffer of the chunk's own. -/
inductive ChunkData where
  | file (pos : Nat)
  | buffer (bytes : Bytes)
  deriving DecidableEq

/-- `p + n`, if that is a position of the file. -/
def ChunkData.add : ChunkData → Nat → Option ChunkData
  | .file pos, n => some (.file (pos + n))
  | .buffer _, _ => none

/-- `ImageChunk`. `deflateData` is a position in the file. -/
structure ImageChunk where
  type : ChunkType
  start : Nat
  len : Nat
  data : ChunkData
  sourceStart : Nat
  sourceLen : Nat
  I : Option (List Nat)
  deflateLen : Nat
  deflateData : Nat
  filename : Option Name
  params : DeflateParams
  sourceUncompressedLen : Nat
  deriving DecidableEq

/-- The `len` bytes at `data`. -/
def chunkBytes (img : Bytes) (c : ImageChunk) : Option Bytes :=
  match c.data with
  | .file pos => slice img pos c.len
  | .buffer b => slice b 0 c.len

/-- The `deflateLen` bytes at `deflateData`. -/
def deflateBytes (img : Bytes) (c : ImageChunk) : Option Bytes :=
  slice img c.deflateData c.deflateLen

/-! ## Reconstruction and demotion -/

/-- `TryReconstruction`. Output that goes on past the end of the file differs in its length. -/
def tryReconstruction (L : Libs) (img : Bytes) (c : ImageChunk) : Option Bool := do
  let data ← chunkBytes img c
  let out ← L.deflate c.params data
  return decide (deflateBytes img c = some out)

/-- Level `level` with a raw stream, a 32 kB window and the default settings. -/
def encoder (level : Int) : DeflateParams := ⟨level, 8, -15, 8, 0⟩

/-- `ReconstructDeflateChunk`: whether one of the levels 6 and 9 gives back the compressed data, and
the chunk with the parameters tried last. -/
def reconstructDeflateChunk (L : Libs) (img : Bytes) (c : ImageChunk) :
    Option (Bool × ImageChunk) :=
  if c.type ≠ .deflate then some (false, c)
  else do
    let six ← tryReconstruction L img { c with params := encoder 6 }
    if six then return (true, { c with params := encoder 6 })
    else do
      let nine ← tryReconstruction L img { c with params := encoder 9 }
      if nine then return (true, { c with params := encoder 9 })
      -- the loop has counted up once more
      else return (false, { c with params := encoder 12 })

/-- `ChangeDeflateChunkToNormal`. -/
def changeDeflateChunkToNormal (c : ImageChunk) : ImageChunk :=
  if c.type ≠ .deflate then c
  else { c with type := .normal, data := .file c.deflateData, len := c.deflateLen }

/-- `AreChunksEqual`. -/
def areChunksEqual (imgA : Bytes) (a : ImageChunk) (imgB : Bytes) (b : ImageChunk) : Option Bool :=
  if a.type ≠ b.type then some false
  else
    match a.type with
    | .normal =>
        if a.len = b.len then do
          let x ← chunkBytes imgA a
          let y ← chunkBytes imgB b
          return decide (x = y)
        else some false
    | .deflate =>
        if a.deflateLen = b.deflateLen then do
          let x ← deflateBytes imgA a
          let y ← deflateBytes imgB b
          return decide (x = y)
        else some false
    | .raw => some false

/-- `FindChunkByName`: the index of the first deflate chunk of that name. -/
def findChunkByName (name : Name) (chunks : List ImageChunk) : Option Nat :=
  chunks.findIdx? fun c => c.type = .deflate ∧ c.filename = some name

/-! ## Merging -/

/-- `n` begins where the normal chunk `c` ends. -/
def Adjacent (c n : ImageChunk) : Prop :=
  c.type = .normal ∧ n.type = .normal ∧ n.start = c.start + c.len ∧ some n.data = c.data.add c.len

instance (c n : ImageChunk) : Decidable (Adjacent c n) := by
  unfold Adjacent
  infer_instance

/-- The chunk `c`, with those after it that continue it. The fields of a merged chunk that only
deflate chunks use are those of some chunk of the list; nothing reads them. -/
def mergeFrom (c : ImageChunk) : List ImageChunk → List ImageChunk
  | [] => [c]
  | n :: cs =>
      if Adjacent c n then mergeFrom { c with len := n.len + (n.start - c.start) } cs
      else c :: mergeFrom n cs

/-- `MergeAdjacentNormalChunks`. -/
def mergeAdjacentNormalChunks : List ImageChunk → List ImageChunk
  | [] => []
  | c :: cs => mergeFrom c cs

/-! ## Patches -/

/-- An array left by an earlier call fits the data if all its entries are positions; `search` reads
outside the data with any other. -/
def SuffixIndex.check (old : Bytes) (entries : List Nat) : Option (SuffixIndex old) :=
  if h : entries.length = old.length + 1 ∧ ∀ k ∈ entries, k ≤ old.length then
    some ⟨entries, h.1, h.2⟩
  else none

/-- The array `bsdiff` is given, if any. -/
def SuffixIndex.load (old : Bytes) : Option (List Nat) → Option (Option (SuffixIndex old))
  | none => some none
  | some entries => (SuffixIndex.check old entries).map some

section MakePatch

variable (H : HostLibs) (qsufsort : (old : Bytes) → SuffixIndex old) (srcImg tgtImg : Bytes)

/-- `bsdiff` with the array of the source chunk, which it sets. -/
def bsdiffChunks (src : ImageChunk) (new : Bytes) : Option (Bytes × ImageChunk) := do
  let old ← chunkBytes srcImg src
  let IP ← SuffixIndex.load old src.I
  let (patch, I) ← bsdiff H qsufsort old IP new
  return (patch, { src with I := some I.entries })

/-- `MakePatch`: the patch data, and the source and target chunks as it leaves them. A normal chunk
that is short, or whose patch is not shorter than itself, becomes a raw one. -/
def makePatch (src tgt : ImageChunk) : Option (Bytes × ImageChunk × ImageChunk) := do
  let new ← chunkBytes tgtImg tgt
  -- shorter than the header of any patch
  if tgt.type = .normal ∧ tgt.len ≤ 160 then return (new, src, { tgt with type := .raw })
  else do
    let (patch, src) ← bsdiffChunks H qsufsort srcImg src new
    if tgt.type = .normal ∧ tgt.len ≤ patch.length then
      return (new, src, { tgt with type := .raw })
    else
      match tgt.type with
      | .normal =>
          return (patch, src, { tgt with sourceStart := src.start, sourceLen := src.len })
      | .deflate =>
          return (patch, src, { tgt with
            sourceStart := src.start
            sourceLen := src.deflateLen
            sourceUncompressedLen := src.len })
      -- not reached: no raw chunk is made before
      | .raw => return (patch, src, { tgt with sourceStart := src.start })

end MakePatch

/-! ## The patch file -/

/-- What the header counts for a chunk with its patch. -/
def recordSize (c : ImageChunk) (patch : Bytes) : Nat :=
  4 + match c.type with
    | .normal => 8 * 3
    | .deflate => 8 * 5 + 4 * 5
    | .raw => 4 + patch.length

/-- The record of a chunk whose patch stands at `offset`. -/
def record (offset : Nat) (c : ImageChunk) (patch : Bytes) : Bytes :=
  write4 c.type.code ++
    match c.type with
    | .normal => write8 c.sourceStart ++ (write8 c.sourceLen ++ write8 offset)
    | .deflate =>
        write8 c.sourceStart ++ (write8 c.sourceLen ++ (write8 offset ++
          (write8 c.sourceUncompressedLen ++ (write8 c.len ++ (write4 c.params.level ++
            (write4 c.params.method ++ (write4 c.params.windowBits ++
              (write4 c.params.memLevel ++ write4 c.params.strategy))))))))
    | .raw => write4 patch.length ++ patch

/-- The part of a patch that goes behind the header. -/
def trailer (c : ImageChunk) (patch : Bytes) : Bytes :=
  match c.type with
  | .raw => []
  | _ => patch

/-- The records, the first of them with its patch at `offset`. -/
def records : Nat → List (ImageChunk × Bytes) → Bytes
  | _, [] => []
  | offset, (c, patch) :: es =>
      record offset c patch ++ records (offset + (trailer c patch).length) es

/-- The patches behind the header, in order. -/
def trailers (es : List (ImageChunk × Bytes)) : Bytes := es.flatMap fun e => trailer e.1 e.2

/-- `total_header_size`. -/
def totalHeaderSize (es : List (ImageChunk × Bytes)) : Nat :=
  12 + (es.map fun e => recordSize e.1 e.2).sum

/-- The file `main` writes. -/
def imagePatch (es : List (ImageChunk × Bytes)) : Bytes :=
  cstr "IMGDIFF2" ++ (write4 es.length ++ (records (totalHeaderSize es) es ++ trailers es))

/-! ## Image mode -/

/-- How `main` ends: with status 1, or with status 0 and a patch file. -/
inductive Exit where
  | failed
  | wrote (patch : Bytes)
  deriving DecidableEq

section Main

variable (H : HostLibs) (qsufsort : (old : Bytes) → SuffixIndex old) (srcImg tgtImg : Bytes)

/-- One pass of the loop over the target chunks in image mode. -/
def demotePair (src tgt : ImageChunk) : Option (ImageChunk × ImageChunk) :=
  if tgt.type = .deflate then do
    let (ok, tgt) ← reconstructDeflateChunk H.toLibs tgtImg tgt
    if !ok then return (changeDeflateChunkToNormal src, changeDeflateChunkToNormal tgt)
    else do
      let equal ← areChunksEqual tgtImg tgt srcImg src
      -- the same data: its compressed form is patched instead
      if equal then return (changeDeflateChunkToNormal src, changeDeflateChunkToNormal tgt)
      else return (src, tgt)
  else return (src, tgt)

/-- The loop over the target chunks in image mode. -/
def demotePairs : List ImageChunk → List ImageChunk → Option (List ImageChunk × List ImageChunk)
  | srcs, [] => some (srcs, [])
  | [], _ :: _ => none
  | src :: srcs, tgt :: tgts => do
      let (src, tgt) ← demotePair H srcImg tgtImg src tgt
      let (srcs, tgts) ← demotePairs srcs tgts
      return (src :: srcs, tgt :: tgts)

/-- The patches of all target chunks in image mode. -/
def patchPairs : List ImageChunk → List ImageChunk → Option (List (ImageChunk × Bytes))
  | _, [] => some []
  | [], _ :: _ => none
  | src :: srcs, tgt :: tgts => do
      -- the source chunk is used once, so the array it keeps is not read again
      let (patch, _, tgt) ← makePatch H qsufsort srcImg tgtImg src tgt
      let es ← patchPairs srcs tgts
      return (tgt, patch) :: es

/-- `main` in image mode, after `ReadImage`. -/
def imgdiffImages (srcs tgts : List ImageChunk) : Option Exit :=
  let tgts := mergeAdjacentNormalChunks tgts
  let srcs := mergeAdjacentNormalChunks srcs
  if srcs.length ≠ tgts.length then some .failed
  else if srcs.map ImageChunk.type ≠ tgts.map ImageChunk.type then some .failed
  else do
    let (srcs, tgts) ← demotePairs H srcImg tgtImg srcs tgts
    let tgts := mergeAdjacentNormalChunks tgts
    let srcs := mergeAdjacentNormalChunks srcs
    if srcs.length ≠ tgts.length then return .failed
    else do
      let es ← patchPairs H qsufsort srcImg tgtImg srcs tgts
      return .wrote (imagePatch es)

/-! ## Zip mode -/

/-- `ChangeDeflateChunkToNormal` of the source chunk at an index, if there is one. -/
def demoteFound (srcs : List ImageChunk) : Option Nat → List ImageChunk
  | none => srcs
  | some k => srcs.modify k changeDeflateChunkToNormal

/-- One pass of the loop over the target chunks in zip mode. -/
def demoteNamed (srcs : List ImageChunk) (tgt : ImageChunk) :
    Option (List ImageChunk × ImageChunk) :=
  if tgt.type = .deflate then do
    let (ok, tgt) ← reconstructDeflateChunk H.toLibs tgtImg tgt
    let name ← tgt.filename
    let found := findChunkByName name srcs
    if !ok then return (demoteFound srcs found, changeDeflateChunkToNormal tgt)
    else
      match found with
      -- a file that only the target has
      | none => return (srcs, changeDeflateChunkToNormal tgt)
      | some k => do
          let src ← srcs[k]?
          let equal ← areChunksEqual tgtImg tgt srcImg src
          if equal then return (demoteFound srcs found, changeDeflateChunkToNormal tgt)
          else return (srcs, tgt)
  else return (srcs, tgt)

/-- The loop over the target chunks in zip mode. -/
def demoteAll : List ImageChunk → List ImageChunk → Option (List ImageChunk × List ImageChunk)
  | srcs, [] => some (srcs, [])
  | srcs, tgt :: tgts => do
      let (srcs, tgt) ← demoteNamed H srcImg tgtImg srcs tgt
      let (srcs, tgts) ← demoteAll srcs tgts
      return (srcs, tgt :: tgts)

/-- The source chunk for a target chunk: the deflate chunk of its name, or else the first chunk,
which is the whole file. -/
def sourceFor (srcs : List ImageChunk) (tgt : ImageChunk) : Option Nat :=
  if tgt.type = .deflate then do
    let name ← tgt.filename
    return (findChunkByName name srcs).getD 0
  else some 0

/-- The patches of all target chunks in zip mode. -/
def patchAllNamed : List ImageChunk → List ImageChunk → Option (List (ImageChunk × Bytes))
  | _, [] => some []
  | srcs, tgt :: tgts => do
      let k ← sourceFor srcs tgt
      let src ← srcs[k]?
      let (patch, src, tgt) ← makePatch H qsufsort srcImg tgtImg src tgt
      -- the array of the source chunk is kept for the targets after this one
      let es ← patchAllNamed (srcs.set k src) tgts
      return (tgt, patch) :: es

/-- `main` in zip mode, after `ReadZip`. The first source chunk is the whole source file. -/
def imgdiffZips (srcs tgts : List ImageChunk) : Option Exit := do
  let (srcs, tgts) ← demoteAll H srcImg tgtImg srcs tgts
  let tgts := mergeAdjacentNormalChunks tgts
  let es ← patchAllNamed H qsufsort srcImg tgtImg srcs tgts
  return .wrote (imagePatch es)

end Main

end OpenRecovery.ImgDiff
