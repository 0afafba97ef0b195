import OpenRecovery.Storage.Bytes

/-!
# Masking and probing retouch entries

`retouchMaskData` is `retouch_mask_data` of `minelf/Retouch.c`. A retouchable binary ends in a
compressed list of relocation entries, a `RETOUCH ` trailer with the size of that list, and a
`PRE ` trailer with the prelink address. The function walks the list in the buffer it is changing:
with a desired offset it sets every listed word to its original value plus the offset, and in both
modes it infers the offset in use from the words themselves.

Words, offsets and the decoder state are 32-bit values with wrap-around. The file size is an
ordinary number (`binary_size` is an `int32_t`, so binaries are below 2^31 bytes).
-/

set_option autoImplicit false

namespace OpenRecovery.Retouch

open OpenRecovery.Storage

/-- `RETOUCH_DATA_ERROR`, `RETOUCH_DATA_MATCHED`, `RETOUCH_DATA_MISMATCHED` and
`RETOUCH_DATA_NOTAPPLICABLE`. -/
inductive RetouchData where
  | error
  | matched
  | mismatched
  | notApplicable
  deriving DecidableEq

/-- `offs_prev` and `cont_prev`. -/
structure DecoderState where
  offsPrev : BitVec 32
  contPrev : BitVec 32
  deriving DecidableEq

/-- `init_compression_state`. -/
def initCompressionState : DecoderState := ⟨0, 0⟩

/-- A byte as an `int`. -/
def byte32 (b : UInt8) : BitVec 32 := BitVec.ofNat 32 b.toNat

/-- `decode_bytes`: the offset and the contents encoded by 2, 3 or 8 bytes. -/
def decodeBytes (st : DecoderState) : Bytes → BitVec 32 × BitVec 32
  | [b0, b1] =>
      let tmp := ((byte32 b0 &&& 0x1f#32) <<< 8) ||| byte32 b1
      -- a negative delta is padded with ones
      let tmp := if tmp &&& 0x1000#32 ≠ 0 then 0xffffe000#32 ||| tmp else tmp
      (st.offsPrev + (((byte32 b0 &&& 0x60#32) >>> 5) + 1) * 4, st.contPrev + tmp)
  | [b0, b1, b2] =>
      let tmp := ((byte32 b0 &&& 0x0f#32) <<< 16) ||| (byte32 b1 <<< 8) ||| byte32 b2
      let tmp := if tmp &&& 0x80000#32 ≠ 0 then 0xfff00000#32 ||| tmp else tmp
      (st.offsPrev + (((byte32 b0 &&& 0x30#32) >>> 4) + 1) * 4, st.contPrev + tmp)
  | [b0, b1, b2, b3, b4, b5, b6, b7] =>
      let offset := (byte32 b0 <<< 24) ||| (byte32 b1 <<< 16) ||| (byte32 b2 <<< 8) ||| byte32 b3
      (if offset = 0x3fffffff#32 then -1 else offset,
        (byte32 b4 <<< 24) ||| (byte32 b5 <<< 16) ||| (byte32 b6 <<< 8) ||| byte32 b7)
  | _ => (st.offsPrev, st.contPrev)

/-- Length of an encoded entry, from its first byte. -/
def encodedSize (b0 : UInt8) : Nat :=
  if b0 &&& 0x80 ≠ 0 then 2 else if b0 &&& 0x40 ≠ 0 then 3 else 8

/-- `decode_in_memory`: decode the entry at `pos` and return the position after it with the new
decoder state, whose fields are the entry's offset and original contents. -/
def decodeInMemory (obj : Bytes) (pos : Nat) (st : DecoderState) : Option (Nat × DecoderState) :=
  match obj[pos]? with
  | none => none
  | some b0 =>
      match slice obj pos (encodedSize b0) with
      | none => none
      | some input =>
          let (offset, contents) := decodeBytes st input
          some (pos + encodedSize b0, ⟨offset, contents⟩)

/-- The little-endian word at `pos`. -/
def getWord (obj : Bytes) (pos : Nat) : BitVec 32 :=
  BitVec.ofNat 32 (leNat ((obj.drop pos).take 4))

/-- The four bytes of a word. -/
def wordBytes (w : BitVec 32) : Bytes :=
  [UInt8.ofNat (w.toNat % 256), UInt8.ofNat (w.toNat / 256 % 256),
    UInt8.ofNat (w.toNat / 256 ^ 2 % 256), UInt8.ofNat (w.toNat / 256 ^ 3 % 256)]

/-- The word at `pos` replaced. -/
def setWord (obj : Bytes) (pos : Nat) (w : BitVec 32) : Bytes :=
  obj.take pos ++ wordBytes w ++ obj.drop (pos + 4)

/-- `sizeof(prelink_info_t)` and `sizeof(retouch_info_t)`. -/
def prelinkInfoSize : Nat := 8

/-- Size of the `RETOUCH ` trailer: the tag and the blob size. -/
def retouchInfoSize : Nat := 12

/-- Local variables of the loop over the entries: the buffer, the read pointer, the decoder state,
`offset_candidate`, `offset_set` and `offset_mismatch`. -/
structure MaskState where
  obj : Bytes
  bPtr : Nat
  dec : DecoderState
  candidate : BitVec 32
  set : Bool
  mismatch : Bool
  deriving DecidableEq

/-- Position of the word an entry names: `-1` stands for `mmap_addr` in the `PRE ` trailer. -/
def entryPos (offset : BitVec 32) (pOffs : Nat) : Nat :=
  if offset = -1 then pOffs else offset.toNat

/-- One pass of the loop. `none` is the error return for a bad entry offset. -/
def maskStep (desired : Option (BitVec 32)) (bOffs pOffs : Nat) (st : MaskState) :
    Option MaskState :=
  match decodeInMemory st.obj st.bPtr st.dec with
  | none => none
  | some (bPtr, dec) =>
      if dec.offsPrev.toInt < -1 ∨ dec.offsPrev.toInt ≥ bOffs then none
      else
        let pos := entryPos dec.offsPrev pOffs
        let obj := match desired with
          | some target => setWord st.obj pos (dec.contPrev + target)
          | none => st.obj
        let this := getWord obj pos - dec.contPrev
        if st.set then
          some ⟨obj, bPtr, dec, st.candidate, true, st.mismatch || st.candidate != this⟩
        else some ⟨obj, bPtr, dec, this, true, st.mismatch⟩

/-- The loop `while (b_ptr < r_info)`. Every pass moves the read pointer, so `fuel` of the length of
the blob is enough. A bad entry leaves the buffer as the passes before it made it. -/
def maskLoop (desired : Option (BitVec 32)) (bOffs pOffs rOffs : Nat) :
    Nat → MaskState → Bool × MaskState
  | 0, st => (true, st)
  | fuel + 1, st =>
      if st.bPtr < rOffs then
        match maskStep desired bOffs pOffs st with
        | none => (false, st)
        | some st' => maskLoop desired bOffs pOffs rOffs fuel st'
      else (true, st)

/-- `retouch_mask_data`: the status, the buffer afterwards, and the value stored through
`retouch_offset`. -/
def retouchMaskData (obj : Bytes) (desired : Option (BitVec 32)) :
    RetouchData × Bytes × BitVec 32 :=
  let target := desired.getD 0
  let skipped := if desired.isNone then RetouchData.notApplicable else RetouchData.matched
  if obj.length < prelinkInfoSize + retouchInfoSize then (skipped, obj, target)
  else
    let pOffs := obj.length - prelinkInfoSize
    let rOffs := pOffs - retouchInfoSize
    if (obj.drop (pOffs + 4)).take 4 ≠ cstr "PRE " ∨
        (obj.drop rOffs).take 8 ≠ cstr "RETOUCH " then (skipped, obj, target)
    else
      let blobSize := getWord obj (rOffs + 8)
      let bOffs := (BitVec.ofNat 32 rOffs - blobSize).toInt
      if bOffs < 0 then (.error, obj, target)
      else
        let (ok, st) := maskLoop desired bOffs.toNat pOffs rOffs (rOffs - bOffs.toNat)
          ⟨obj, bOffs.toNat, initCompressionState, target, false, false⟩
        if !ok || decide (rOffs < st.bPtr) then (.error, st.obj, target)
        else if st.mismatch then (.mismatched, st.obj, target)
        else (.matched, st.obj, st.candidate)

end OpenRecovery.Retouch
