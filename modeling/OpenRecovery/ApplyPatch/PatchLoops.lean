import OpenRecovery.ApplyPatch.PatchAccess

/-!
# The loops of the patch appliers

`bspatch.c` and `imgpatch.c` with every loop that can run without a bound written out: the calls of
`BZ2_bzDecompress` in `FillBuffer`, the control loop of `ApplyBSDiffPatchMem`, and the calls of
`deflate` in `ApplyImagePatch`. The loops take fuel, and `hang` says that it has run out; a call
ends if some fuel is enough. The numbers are those of the 32-bit target, as in `PatchAccess`, but a
negative length goes to `FillBuffer` as what it becomes there, a huge `avail_out`.

The sink is any function of its own state, and its answers are compared as the source does.
-/

set_option autoImplicit false

namespace OpenRecovery.ApplyPatch.Loops

open OpenRecovery.Storage
open OpenRecovery.ApplyPatch.Access

/-! ## bspatch.c -/

/-- What `BZ2_bzDecompress` returns: `BZ_OK`, `BZ_STREAM_END` or an error. -/
inductive BzStatus where
  | ok
  | streamEnd
  | error
  deriving DecidableEq

/-- One call of `BZ2_bzDecompress` with room for `avail` bytes: its output, its status and the
stream after it. A call after the end of the stream is an error. -/
def bzDecompress (avail : Nat) (stream : BzStream) : Decode (Bytes × BzStatus × BzStream) :=
  if avail ≤ stream.out.length then
    .ok (stream.out.take avail, .ok, ⟨stream.out.drop avail, stream.fin⟩)
  else
    match stream.fin with
    | .streamEnd => .ok (stream.out, .streamEnd, ⟨[], .dataError⟩)
    | .dataError => .ok (stream.out, .error, ⟨[], .dataError⟩)
    -- no input is left in the middle of the stream
    | .starved => .ok (stream.out, .ok, ⟨[], .starved⟩)
    | .overrun => .fault

/-- The bytes go to the buffer, from index `i` on. -/
def writeAt (buf : Bytes) (i : Nat) (out : Bytes) : Decode Bytes :=
  if i + out.length ≤ buf.length then
    .ok (buf.take i ++ out ++ buf.drop (i + out.length))
  else .fault

/-- The loop of `FillBuffer`: `avail` more bytes, from index `i` on. -/
def fillLoop : Nat → Bytes → Nat → Nat → BzStream → Decode (Bytes × BzStream)
  | 0, _, _, _, _ => .hang
  | n + 1, buf, i, avail, stream =>
      if avail = 0 then .ok (buf, stream)
      else do
        let (out, bzerr, stream) ← bzDecompress avail stream
        let buf ← writeAt buf i out
        if bzerr = .error then .failed
        else fillLoop n buf (i + out.length) (avail - out.length) stream

/-- `FillBuffer`. The size becomes an `unsigned int`. -/
def fillBuffer (n : Nat) (buf : Bytes) (i : Nat) (size : Int) (stream : BzStream) :
    Decode (Bytes × BzStream) :=
  fillLoop n buf i (uint32 size).toNat stream

/-- The triple in the 24 bytes of control data. -/
def tripleOf (ctrl : Bytes) : Triple :=
  ⟨Access.offtin (ctrl.take 8), Access.offtin ((ctrl.drop 8).take 8),
    Access.offtin ((ctrl.drop 16).take 8)⟩

/-- The loop `while (newpos < *new_size)`. The new data is shorter than every negative length is as
an `avail_out`, so what `FillBuffer` returns from was not negative. -/
def patchLoop (old : Bytes) (start oldSize : Int) :
    Nat → Bytes → Nat → Int → BzStream → BzStream → BzStream → Decode Bytes
  | 0, _, _, _, _, _, _ => .hang
  | n + 1, new, newpos, oldpos, cstream, dstream, estream =>
      if newpos < new.length then do
        let (ctrl, cstream) ← fillBuffer n (List.replicate 24 0) 0 24 cstream
        let t := tripleOf ctrl
        if (new.length : Int) < int32 (newpos + t.x) then .failed
        else do
          let (new, dstream) ← fillBuffer n new newpos t.x dstream
          let new ← Access.addOld old start oldSize oldpos newpos t.x.toNat 0 new
          let newpos := newpos + t.x.toNat
          let oldpos := int32 (oldpos + t.x)
          if (new.length : Int) < int32 (newpos + t.y) then .failed
          else do
            let (new, estream) ← fillBuffer n new newpos t.y estream
            patchLoop old start oldSize n new (newpos + t.y.toNat) (int32 (oldpos + t.z)) cstream
              dstream estream
      else .ok new

/-- `ApplyBSDiffPatchMem` on the `oldSize` bytes from `start` of the old data. -/
def applyBSDiffPatchMem (c : Codecs) (n : Nat) (old : Bytes) (start oldSize : Int) (data : Bytes)
    (patchOffset : Int) : Decode Bytes := do
  let magic ← Decode.ofAccess (slice data patchOffset 8)
  if magic ≠ cstr "BSDIFF40" then .failed
  else do
    let h ← Decode.ofAccess (bsHeader data patchOffset)
    if h.ctrlLen < 0 ∨ h.dataLen < 0 ∨ h.newSize < 0 then .failed
    else
      let pos := patchOffset + 32
      let cstream := openStream c data pos h.ctrlLen
      let dstream := openStream c data (pos + h.ctrlLen) h.dataLen
      let estream := openStream c data (pos + h.ctrlLen + h.dataLen)
        (data.length - (pos + h.ctrlLen + h.dataLen))
      if c.malloc h.newSize.toNat then
        patchLoop old start oldSize n (List.replicate h.newSize.toNat 0) 0 0 cstream dstream estream
      else .failed

/-- `SinkFn`: how much of a piece the sink says it has taken, and its state afterwards. -/
abbrev SinkFn (τ : Type) := τ → Bytes → Int × τ

/-- The state of the sink, and the bytes the SHA context has absorbed. -/
structure Output (τ : Type) where
  tok : τ
  ctx : Bytes

section Sinks

variable {τ : Type} (sink : SinkFn τ)

/-- The end of `ApplyBSDiffPatch`, with the new data. -/
def sinkNew (o : Output τ) (new : Bytes) : Int × Output τ :=
  let (taken, tok) := sink o.tok new
  if taken < new.length then (1, ⟨tok, o.ctx⟩) else (0, ⟨tok, o.ctx ++ new⟩)

/-- `ApplyBSDiffPatch`: its status and the output after it. -/
def applyBSDiffPatch (c : Codecs) (n : Nat) (old : Bytes) (start oldSize : Int) (data : Bytes)
    (patchOffset : Int) (o : Output τ) : Decode (Int × Output τ) :=
  match applyBSDiffPatchMem c n old start oldSize data patchOffset with
  | .ok new => .ok (sinkNew sink o new)
  | .failed => .ok (-1, o)
  | .fault => .fault
  | .hang => .hang

/-! ## imgpatch.c -/

/-- The loop over the calls of `deflate`, with the output still to come. A stream that is not
`ready`, because `deflateInit2` failed or there is no buffer, gives nothing and never ends. -/
def deflateLoop (ready : Bool) (tempSize : Nat) :
    Nat → Bytes → Output τ → Decode (Output τ)
  | 0, _, _ => .hang
  | n + 1, out, o =>
      let block := if ready then out.take tempSize else []
      let (taken, tok) := sink o.tok block
      if taken ≠ block.length then .failed
      else
        let o : Output τ := ⟨tok, o.ctx ++ block⟩
        -- `Z_STREAM_END` comes with the first block that is not full
        if ready ∧ out.length < tempSize then .ok o
        else deflateLoop ready tempSize n (out.drop block.length) o

/-- A normal record, after its type. The status of `ApplyBSDiffPatch` is not looked at. -/
def normalRecord (c : Codecs) (n : Nat) (old data : Bytes) (pos : Int) (o : Output τ) :
    Decode (Int × Output τ) :=
  if (data.length : Int) < int32 (pos + 24) then .failed
  else do
    let (srcStart, srcLen, patchOffset) ← Decode.ofAccess (normalHeader data pos)
    let (_, o) ← applyBSDiffPatch sink c n old (uint32 srcStart) (int32 srcLen) data
      (int32 patchOffset) o
    .ok (pos + 24, o)

/-- A raw record, after its type. -/
def rawRecord (data : Bytes) (pos : Int) (o : Output τ) : Decode (Int × Output τ) :=
  if (data.length : Int) < int32 (pos + 4) then .failed
  else do
    let dataLen ← Decode.ofAccess (read4 data pos)
    if (data.length : Int) < int32 (pos + 4 + dataLen) then .failed
    -- the length goes to `SHA_update` and to the sink as it is
    else if dataLen < 0 then .fault
    else do
      let piece ← Decode.ofAccess (slice data (pos + 4) dataLen.toNat)
      let (taken, tok) := sink o.tok piece
      if taken ≠ dataLen then .failed else .ok (pos + 4 + dataLen, ⟨tok, o.ctx ++ piece⟩)

/-- The uncompressed target of a deflate record: the source is inflated and patched in memory. -/
def deflateTarget (c : Codecs) (n : Nat) (old data : Bytes) (h : DeflateHeader) : Decode Bytes :=
  let expandedLen := uint32 h.expandedLen
  if c.malloc expandedLen.toNat then do
    let expanded ← inflateSource c old (uint32 h.srcStart) (uint32 h.srcLen) expandedLen
    applyBSDiffPatchMem c n expanded 0 (int32 expandedLen) data (int32 h.patchOffset)
  else .failed

/-- `deflate` works: there is a buffer, and `deflateInit2` takes the parameters. -/
def deflateReady (c : Codecs) (h : DeflateHeader) : Bool :=
  (tempBuffer c (uint32 h.expandedLen)).2 && c.deflateInit h.params

/-- A deflate record, after its type. -/
def deflateRecord (c : Codecs) (n : Nat) (old data : Bytes) (pos : Int) (o : Output τ) :
    Decode (Int × Output τ) :=
  if (data.length : Int) < int32 (pos + 60) then .failed
  else do
    let h ← Decode.ofAccess (deflateHeader data pos)
    let target ← deflateTarget c n old data h
    let o ← deflateLoop sink (deflateReady c h) (tempBuffer c (uint32 h.expandedLen)).1 n
      (c.deflate h.params target) o
    .ok (pos + 60, o)

/-- One chunk record. -/
def chunkRecord (c : Codecs) (n : Nat) (old data : Bytes) (pos : Int) (o : Output τ) :
    Decode (Int × Output τ) :=
  if (data.length : Int) < int32 (pos + 4) then .failed
  else do
    let type ← Decode.ofAccess (read4 data pos)
    if type = chunkNormal then normalRecord sink c n old data (pos + 4) o
    else if type = chunkRaw then rawRecord sink data (pos + 4) o
    else if type = chunkDeflate then deflateRecord sink c n old data (pos + 4) o
    else .failed

/-- The loop over `k` chunk records. -/
def chunkLoop (c : Codecs) (n : Nat) (old data : Bytes) :
    Nat → Int → Output τ → Decode (Output τ)
  | 0, _, o => .ok o
  | k + 1, pos, o => do
      let (pos, o) ← chunkRecord sink c n old data pos o
      chunkLoop c n old data k pos o

/-- `ApplyImagePatch`: the output where it returns 0. -/
def applyImagePatch (c : Codecs) (n : Nat) (old data : Bytes) (o : Output τ) :
    Decode (Output τ) :=
  if data.length < 12 then .failed
  else do
    let magic ← Decode.ofAccess (slice data 0 8)
    if magic ≠ cstr "IMGDIFF2" then .failed
    else do
      let numChunks ← Decode.ofAccess (read4 data 8)
      chunkLoop sink c n old data numChunks.toNat 12 o

end Sinks

end OpenRecovery.ApplyPatch.Loops
