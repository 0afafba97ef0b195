import OpenRecovery.ApplyPatch.ImgPatch

/-!
# The accesses of the patch appliers

`bspatch.c` and `imgpatch.c` once more, for a patch of any content, with the widths of the target:
`int`, `long`, `off_t` and `ssize_t` are 32 bits, so numbers of the patch are cut down and sums wrap
around. Every byte that is read or written has its index checked, and so has every length that is
handed to `FillBuffer`, `SHA_update` or the sink: what is out of range ends in `fault`, and a loop
without an end in `hang`. Pointers are indices into their buffer, and are not cut down.

The decompressors are given by what they make of an input and how they go on after it; where
`avail_in` promises more bytes than there are, a decompressor that wants more reads outside. One
that is promised none reads none, wherever its input is.
-/

set_option autoImplicit false

namespace OpenRecovery.ApplyPatch.Access

open OpenRecovery.Storage

/-- The value as an `int`, `off_t` or `ssize_t`. -/
def int32 (v : Int) : Int := v.bmod (2 ^ 32)

/-- The value as a `size_t`. -/
def uint32 (v : Int) : Int := v % 2 ^ 32

/-- The libraries: bzip2 and raw inflate with what they produce and how they go on, whether
`deflateInit2` takes the parameters, the output of deflate, and whether there is memory. -/
structure Codecs where
  bz : Bytes → Bytes × BzEnd
  inflate : Bytes → Bytes × BzEnd
  deflateInit : DeflateParams → Bool
  deflate : DeflateParams → Bytes → Bytes
  malloc : Nat → Bool

/-- `offtin` with an `off_t` of 32 bits. -/
def offtin (b : Bytes) : Int :=
  let y := int32 (leNat b % 2 ^ 63 : Nat)
  if 2 ^ 63 ≤ leNat b then int32 (-y) else y

/-! ## bspatch.c -/

/-- The `len` bytes of the patch from `pos` on as a stream. -/
def openStream (c : Codecs) (data : Bytes) (pos len : Int) : BzStream :=
  let input := (data.drop pos.toNat).take (uint32 len).toNat
  match c.bz input with
  | (out, .streamEnd) => ⟨out, .streamEnd⟩
  | (out, .dataError) => ⟨out, .dataError⟩
  | (out, .starved) =>
      ⟨out, if 0 < uint32 len ∧ (data.length : Int) < pos + uint32 len then .overrun else .starved⟩

/-- A decompressor that is asked for more than its output. -/
def exhausted {α : Type} : StreamEnd → Decode α
  | .streamEnd => .failed
  | .dataError => .failed
  | .starved => .hang
  | .overrun => .fault

/-- `n` bytes of the stream go to `buf`, from index `i` on. -/
def fillBytes (fin : StreamEnd) : Nat → Nat → Bytes → Bytes → Decode (Bytes × BzStream)
  | 0, _, out, buf => .ok (buf, ⟨out, fin⟩)
  | _ + 1, _, [], _ => exhausted fin
  | n + 1, i, b :: out, buf =>
      if i < buf.length then fillBytes fin n (i + 1) out (buf.set i b) else .fault

/-- `FillBuffer`. -/
def fillBuffer (buf : Bytes) (i : Nat) (size : Int) (stream : BzStream) :
    Decode (Bytes × BzStream) :=
  if size < 0 then .fault else fillBytes stream.fin size.toNat i stream.out buf

/-- The loop that adds old data to the diff string: `n` more bytes, from number `i` on. -/
def addOld (old : Bytes) (start oldSize oldpos : Int) (newpos : Nat) :
    Nat → Nat → Bytes → Decode Bytes
  | 0, _, new => .ok new
  | n + 1, i, new =>
      let pos := int32 (oldpos + i)
      if 0 ≤ pos ∧ pos < oldSize then
        match byteAt old (start + pos), new[newpos + i]? with
        | some a, some b => addOld old start oldSize oldpos newpos n (i + 1) (new.set (newpos + i) (b + a))
        | _, _ => .fault
      else addOld old start oldSize oldpos newpos n (i + 1) new

/-- A control triple. -/
structure Triple where
  x : Int
  y : Int
  z : Int

/-- The triples in the output of the control stream. -/
def triplesOf (out : Bytes) : List Triple :=
  (List.range (out.length / 24)).map fun k =>
    ⟨offtin ((out.drop (24 * k)).take 8), offtin ((out.drop (24 * k + 8)).take 8),
      offtin ((out.drop (24 * k + 16)).take 8)⟩

/-- The loop `while (newpos < *new_size)`, with the triples still to come. -/
def patchLoop (old : Bytes) (start oldSize : Int) (cfin : StreamEnd) :
    List Triple → Bytes → Nat → Int → BzStream → BzStream → Decode Bytes
  | [], new, newpos, _, _, _ => if newpos < new.length then exhausted cfin else .ok new
  | t :: ts, new, newpos, oldpos, dstream, estream =>
      if newpos < new.length then
        if (new.length : Int) < int32 (newpos + t.x) then .failed
        else do
          let (new, dstream) ← fillBuffer new newpos t.x dstream
          let new ← addOld old start oldSize oldpos newpos t.x.toNat 0 new
          let newpos := newpos + t.x.toNat
          let oldpos := int32 (oldpos + t.x)
          if (new.length : Int) < int32 (newpos + t.y) then .failed
          else do
            let (new, estream) ← fillBuffer new newpos t.y estream
            patchLoop old start oldSize cfin ts new (newpos + t.y.toNat) (int32 (oldpos + t.z))
              dstream estream
      else .ok new

/-- The numbers of a bsdiff header. -/
structure BsHeader where
  ctrlLen : Int
  dataLen : Int
  newSize : Int
  deriving DecidableEq

/-- The header after the magic number. -/
def bsHeader (data : Bytes) (patchOffset : Int) : Option BsHeader := do
  let ctrlLen ← slice data (patchOffset + 8) 8
  let dataLen ← slice data (patchOffset + 16) 8
  let newSize ← slice data (patchOffset + 24) 8
  return ⟨offtin ctrlLen, offtin dataLen, offtin newSize⟩

/-- `ApplyBSDiffPatchMem` on the `oldSize` bytes from `start` of the old data. -/
def applyBSDiffPatchMem (c : Codecs) (old : Bytes) (start oldSize : Int) (data : Bytes)
    (patchOffset : Int) : Decode Bytes := do
  let magic ← Decode.ofAccess (slice data patchOffset 8)
  if magic ≠ cstr "BSDIFF40" then .failed
  else do
    let h ← Decode.ofAccess (bsHeader data patchOffset)
    if h.ctrlLen < 0 ∨ h.dataLen < 0 ∨ h.newSize < 0 then .failed
    else
      let pos := patchOffset + 32
      let cstream := openStream c data pos h.ctrlLen
      let dstream := openStream c data (pos + h.ctrlLen) h.dataLen
      let estream := openStream c data (pos + h.ctrlLen + h.dataLen)
        (data.length - (pos + h.ctrlLen + h.dataLen))
      if c.malloc h.newSize.toNat then
        patchLoop old start oldSize cstream.fin (triplesOf cstream.out)
          (List.replicate h.newSize.toNat 0) 0 0 dstream estream
      else .failed

/-! ## imgpatch.c -/

/-- The sink: does it take all of a piece, after the pieces it was offered before? -/
abbrev Accepts := List Bytes → Bytes → Bool

/-- `ApplyBSDiffPatch`: the pieces offered so far, with the new data. -/
def applyBSDiffPatch (c : Codecs) (accepts : Accepts) (old : Bytes) (start oldSize : Int)
    (data : Bytes) (patchOffset : Int) (offered : List Bytes) : Decode (List Bytes) := do
  let new ← applyBSDiffPatchMem c old start oldSize data patchOffset
  if accepts offered new then .ok (offered ++ [new]) else .failed

/-- The source of a deflate chunk, inflated to exactly `expandedLen` bytes. -/
def inflateSource (c : Codecs) (old : Bytes) (start len expandedLen : Int) : Decode Bytes :=
  match c.inflate ((old.drop start.toNat).take len.toNat) with
  | (out, .streamEnd) => if (out.length : Int) = expandedLen then .ok out else .failed
  | (_, .dataError) => .failed
  | (out, .starved) =>
      if 0 < len ∧ (old.length : Int) < start + len ∧ (out.length : Int) ≤ expandedLen then .fault
      else .failed

/-- The blocks of a deflate chunk go to the sink. -/
def offerBlocks (accepts : Accepts) : List Bytes → List Bytes → Decode (List Bytes)
  | [], offered => .ok offered
  | b :: bs, offered => if accepts offered b then offerBlocks accepts bs (offered ++ [b]) else .failed

/-- The header of a deflate record. The length of the target is not used. -/
structure DeflateHeader where
  srcStart : Int
  srcLen : Int
  patchOffset : Int
  expandedLen : Int
  params : DeflateParams

/-- The numbers of a normal record: `src_start`, `src_len` and `patch_offset`. -/
def normalHeader (data : Bytes) (pos : Int) : Option (Int × Int × Int) := do
  let srcStart ← read8 data pos
  let srcLen ← read8 data (pos + 8)
  let patchOffset ← read8 data (pos + 16)
  return (srcStart, srcLen, patchOffset)

/-- The numbers of a deflate record. -/
def deflateHeader (data : Bytes) (pos : Int) : Option DeflateHeader := do
  let (srcStart, srcLen, patchOffset) ← normalHeader data pos
  let expandedLen ← read8 data (pos + 24)
  let level ← read4 data (pos + 40)
  let method ← read4 data (pos + 44)
  let windowBits ← read4 data (pos + 48)
  let memLevel ← read4 data (pos + 52)
  let strategy ← read4 data (pos + 56)
  return ⟨srcStart, srcLen, patchOffset, expandedLen, ⟨level, method, windowBits, memLevel, strategy⟩⟩

/-- The buffer that receives the output of deflate: its size, and whether there is one. -/
def tempBuffer (c : Codecs) (expandedLen : Int) : Nat × Bool :=
  if int32 expandedLen < 32768 then (32768, c.malloc 32768)
  else ((int32 expandedLen).toNat, true)

/-- A normal record, after its type. The status of `ApplyBSDiffPatch` is not looked at. -/
def normalRecord (c : Codecs) (accepts : Accepts) (old data : Bytes) (pos : Int)
    (offered : List Bytes) : Decode (Int × List Bytes) :=
  if (data.length : Int) < int32 (pos + 24) then .failed
  else do
    let (srcStart, srcLen, patchOffset) ← Decode.ofAccess (normalHeader data pos)
    match applyBSDiffPatch c accepts old (uint32 srcStart) (int32 srcLen) data
        (int32 patchOffset) offered with
    | .ok offered => .ok (pos + 24, offered)
    | .failed => .ok (pos + 24, offered)
    | .fault => .fault
    | .hang => .hang

/-- A raw record, after its type. -/
def rawRecord (accepts : Accepts) (data : Bytes) (pos : Int) (offered : List Bytes) :
    Decode (Int × List Bytes) :=
  if (data.length : Int) < int32 (pos + 4) then .failed
  else do
    let dataLen ← Decode.ofAccess (read4 data pos)
    if (data.length : Int) < int32 (pos + 4 + dataLen) then .failed
    -- the length goes to `SHA_update` and to the sink as it is
    else if dataLen < 0 then .fault
    else do
      let piece ← Decode.ofAccess (slice data (pos + 4) dataLen.toNat)
      if accepts offered piece then .ok (pos + 4 + dataLen, offered ++ [piece]) else .failed

/-- A deflate record, after its type. -/
def deflateRecord (c : Codecs) (accepts : Accepts) (old data : Bytes) (pos : Int)
    (offered : List Bytes) : Decode (Int × List Bytes) :=
  if (data.length : Int) < int32 (pos + 60) then .failed
  else do
    let h ← Decode.ofAccess (deflateHeader data pos)
    let expandedLen := uint32 h.expandedLen
    if c.malloc expandedLen.toNat then do
      let expanded ← inflateSource c old (uint32 h.srcStart) (uint32 h.srcLen) expandedLen
      let target ← applyBSDiffPatchMem c expanded 0 (int32 expandedLen) data (int32 h.patchOffset)
      -- without a buffer or after a failed `deflateInit2`, `deflate` gives nothing and never ends
      if (tempBuffer c expandedLen).2 ∧ c.deflateInit h.params then do
        let out := c.deflate h.params target
        let offered ← offerBlocks accepts
          (deflateBlocks (tempBuffer c expandedLen).1 out.length out) offered
        .ok (pos + 60, offered)
      else .hang
    else .failed

/-- One chunk record. -/
def chunkRecord (c : Codecs) (accepts : Accepts) (old data : Bytes) (pos : Int)
    (offered : List Bytes) : Decode (Int × List Bytes) :=
  if (data.length : Int) < int32 (pos + 4) then .failed
  else do
    let type ← Decode.ofAccess (read4 data pos)
    if type = chunkNormal then normalRecord c accepts old data (pos + 4) offered
    else if type = chunkRaw then rawRecord accepts data (pos + 4) offered
    else if type = chunkDeflate then deflateRecord c accepts old data (pos + 4) offered
    else .failed

/-- The loop over the chunk records. -/
def chunkLoop (c : Codecs) (accepts : Accepts) (old data : Bytes) :
    Nat → Int → List Bytes → Decode (List Bytes)
  | 0, _, offered => .ok offered
  | n + 1, pos, offered => do
      let (pos, offered) ← chunkRecord c accepts old data pos offered
      chunkLoop c accepts old data n pos offered

/-- `ApplyImagePatch`: all pieces that were offered to the sink. -/
def applyImagePatch (c : Codecs) (accepts : Accepts) (old data : Bytes) : Decode (List Bytes) :=
  if data.length < 12 then .failed
  else do
    let magic ← Decode.ofAccess (slice data 0 8)
    if magic ≠ cstr "IMGDIFF2" then .failed
    else do
      let numChunks ← Decode.ofAccess (read4 data 8)
      chunkLoop c accepts old data numChunks.toNat 12 []

end OpenRecovery.ApplyPatch.Access
