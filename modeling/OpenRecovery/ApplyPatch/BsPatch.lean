import OpenRecovery.ApplyPatch.Contents
import OpenRecovery.Edify.Value

/-!
# Applying a bsdiff patch

`applypatch/bspatch.c`. The three bzip2 streams of a patch are given by their output and by what
the decompressor does after it. `applyBSDiffPatchMem` is a pure function with four outcomes: the new
data, the error return, an access outside a buffer, and a loop that never ends. Every access to the
old data, the patch and the new data is checked against its bounds. `Numbers` says what becomes of a
number of the patch in the types of the code, and the decoder is written for any `Numbers`:
`applyBSDiffPatchMem` has the widths of the target, and with `Numbers.unbounded` nothing is cut.
-/

set_option autoImplicit false

namespace OpenRecovery.ApplyPatch

open OpenRecovery.Crash OpenRecovery.Edify OpenRecovery.Storage

/-- Outcome of decoding in memory. -/
inductive Decode (α : Type) where
  | ok (a : α)
  | failed
  | fault
  | hang
  deriving DecidableEq

namespace Decode

variable {α β : Type}

/-- Sequencing: anything but a result ends the computation. -/
def bind (x : Decode α) (f : α → Decode β) : Decode β :=
  match x with
  | ok a => f a
  | failed => failed
  | fault => fault
  | hang => hang

instance : Monad Decode where
  pure := ok
  bind := bind

/-- A checked access: outside the buffer is a fault. -/
def ofAccess : Option α → Decode α
  | some a => ok a
  | none => fault

@[simp] theorem ok_bind (a : α) (f : α → Decode β) : (ok a >>= f) = f a := rfl

@[simp] theorem failed_bind (f : α → Decode β) : (failed >>= f) = failed := rfl

@[simp] theorem fault_bind (f : α → Decode β) : (fault >>= f) = fault := rfl

@[simp] theorem hang_bind (f : α → Decode β) : (hang >>= f) = hang := rfl

@[simp] theorem pure_eq_ok (a : α) : (pure a : Decode α) = ok a := rfl

@[simp] theorem ofAccess_some (a : α) : ofAccess (some a) = ok a := rfl

theorem ok_of_bind {d : Decode α} {f : α → Decode β} {b : β} (h : (d >>= f) = .ok b) :
    ∃ a, d = .ok a ∧ f a = .ok b := by
  cases d with
  | ok a => exact ⟨a, rfl, h⟩
  | failed => cases h
  | fault => cases h
  | hang => cases h

theorem some_of_ofAccess {x : Option α} {a : α} (h : ofAccess x = .ok a) : x = some a := by
  cases x with
  | none => cases h
  | some b => cases h; rfl

end Decode

/-- What the types of the code make of a number: an `off_t` or `ssize_t`, and the counter of a
stream. -/
structure Numbers where
  off : Int → Int
  counter : Int → Int

/-- Every number is kept. A negative counter is more than any stream holds. -/
def Numbers.unbounded : Numbers := ⟨id, id⟩

/-- `off_t` and `ssize_t` are as wide as `size_t`; the `size` of `FillBuffer`, `avail_in` and
`avail_out` have 32 bits, the latter two without a sign. -/
def Numbers.target (L : Libs) : Numbers := ⟨toSsize L, fun v => v % 2 ^ 32⟩

/-- The numbers below `bound` are kept. -/
structure Numbers.Keeps (N : Numbers) (bound : Int) : Prop where
  off : ∀ x, -bound < x → x < bound → N.off x = x
  counter : ∀ x, 0 ≤ x → x < bound → N.counter x = x

theorem Numbers.keeps_unbounded (bound : Int) : Numbers.unbounded.Keeps bound :=
  ⟨fun _ _ _ => rfl, fun _ _ _ => rfl⟩

/-- Below 2 GiB nothing is cut, at any width. -/
theorem Numbers.keeps_target (L : Libs) : (Numbers.target L).Keeps (2 ^ 31) where
  off _ h0 h1 := toSsize_of_bounds h0.le h1
  counter x h0 h1 := Int.emod_eq_of_lt h0 (by omega)

/-- How a stream goes on after its output; `overrun` reads past the end of the patch. -/
inductive StreamEnd where
  | streamEnd
  | dataError
  | starved
  | overrun
  deriving DecidableEq

/-- A `bz_stream`: the output still to come and what follows it. -/
structure BzStream where
  out : Bytes
  fin : StreamEnd
  deriving DecidableEq

/-- `BZ2_bzDecompressInit` on the bytes `[pos, pos + len)` of the patch. -/
def bzOpen (L : Libs) (data : Bytes) (pos : Nat) (len : Int) : BzStream :=
  let input := if len < 0 then data.drop pos else (data.drop pos).take len.toNat
  match L.bzDecompress input with
  | (out, .streamEnd) => ⟨out, .streamEnd⟩
  | (out, .dataError) => ⟨out, .dataError⟩
  | (out, .starved) =>
      ⟨out, if len < 0 ∨ 0 < len ∧ (data.length : Int) < pos + len then .overrun else .starved⟩

/-- `FillBuffer` into a buffer with room for `cap` bytes. -/
def fillBuffer (cap : Nat) (size : Int) (stream : BzStream) : Decode (Bytes × BzStream) :=
  if 0 ≤ size ∧ size ≤ stream.out.length then
    -- the decompressor is not told how large the buffer is
    if cap < size.toNat then .fault
    else .ok (stream.out.take size.toNat, { stream with out := stream.out.drop size.toNat })
  -- what there is of the stream is stored before its end is noticed
  else if cap < stream.out.length then .fault
  else
    match stream.fin with
    | .streamEnd => .failed
    | .dataError => .failed
    -- no input is left and no error is returned: the loop asks again for ever
    | .starved => .hang
    | .overrun => .fault

/-- The number in the eight bytes `offtin` reads: magnitude and sign. -/
def offtinBytes (b : Bytes) : Int :=
  if 2 ^ 63 ≤ leNat b then -((leNat b - 2 ^ 63 : Nat) : Int) else leNat b

/-- `offtin` of the bytes at `pos`. -/
def offtin (N : Numbers) (p : Bytes) (pos : Int) : Option Int :=
  (slice p pos 8).map fun b => N.off (offtinBytes b)

/-- The byte at `i`. -/
def byteAt (p : Bytes) (i : Int) : Option UInt8 := if i < 0 then none else p[i.toNat]?

/-- Add the old data from position `pos` on to the diff bytes; positions outside
`[0, oldSize)` are skipped. The old data starts at `start` of the source buffer. -/
def addOld (old : Bytes) (start oldSize : Int) : Int → Bytes → Option Bytes
  | _, [] => some []
  | pos, b :: bs => do
      let b' ← if 0 ≤ pos ∧ pos < oldSize then (byteAt old (start + pos)).map (b + ·) else some b
      let rest ← addOld old start oldSize (pos + 1) bs
      return b' :: rest

/-- The loop `while (newpos < *new_size)`, with the new data built so far. Every pass takes 24 bytes
from the control stream, so the length of its output bounds the passes. -/
def patchLoop (N : Numbers) (old : Bytes) (start oldSize : Int) (newSize : Nat) :
    Nat → Bytes → Int → BzStream → BzStream → BzStream → Decode Bytes
  | 0, _, _, _, _, _ => .hang
  | fuel + 1, new, oldpos, cstream, dstream, estream =>
      if new.length < newSize then do
        let (buf, cstream) ← fillBuffer 24 24 cstream
        let ctrl0 ← Decode.ofAccess (offtin N buf 0)
        let ctrl1 ← Decode.ofAccess (offtin N buf 8)
        let ctrl2 ← Decode.ofAccess (offtin N buf 16)
        -- a negative length passes this test
        if (newSize : Int) < N.off (new.length + ctrl0) then .failed
        else do
          let (diff, dstream) ← fillBuffer (newSize - new.length) (N.counter ctrl0) dstream
          -- `newpos` leaves what is written, or the `int` that counts the bytes overflows
          if (diff.length : Int) ≠ ctrl0 ∨ 2 ^ 31 ≤ ctrl0 then .fault
          else do
            let diff ← Decode.ofAccess (addOld old start oldSize oldpos diff)
            let new := new ++ diff
            if (newSize : Int) < N.off (new.length + ctrl1) then .failed
            else do
              let (extra, estream) ← fillBuffer (newSize - new.length) (N.counter ctrl1) estream
              if (extra.length : Int) ≠ ctrl1 then .fault
              else
                -- the old position moves over the diff, then by the third number
                patchLoop N old start oldSize newSize fuel (new ++ extra)
                  (N.off (oldpos + ctrl0 + ctrl2)) cstream dstream estream
      else .ok new

/-- `ApplyBSDiffPatchMem` on the `oldSize` bytes at `start` of the source buffer, with the numbers of
the patch kept as `N` says. -/
def applyBSDiffPatchNumbers (N : Numbers) (L : Libs) (old : Bytes) (start oldSize : Int)
    (patch : Value) (patchOffset : Int) : Decode Bytes := do
  let data ← Decode.ofAccess patch.data
  let magic ← Decode.ofAccess (slice data patchOffset 8)
  if magic ≠ cstr "BSDIFF40" then .failed
  else do
    let ctrlLen ← Decode.ofAccess (offtin N data (patchOffset + 8))
    let dataLen ← Decode.ofAccess (offtin N data (patchOffset + 16))
    let newSize ← Decode.ofAccess (offtin N data (patchOffset + 24))
    if ctrlLen < 0 ∨ dataLen < 0 ∨ newSize < 0 then .failed
    else
      let body := (patchOffset + 32).toNat
      let cstream := bzOpen L data body (N.counter ctrlLen)
      let dstream := bzOpen L data (body + ctrlLen.toNat) (N.counter dataLen)
      -- the extra stream takes the rest of the patch, however long
      let estream := bzOpen L data (body + ctrlLen.toNat + dataLen.toNat)
        (N.counter (patch.size - (patchOffset + 32 + ctrlLen + dataLen)))
      patchLoop N old start oldSize newSize.toNat (cstream.out.length + 1) [] 0
        cstream dstream estream

/-- `ApplyBSDiffPatchMem`. -/
def applyBSDiffPatchMem (L : Libs) (old : Bytes) (start oldSize : Int) (patch : Value)
    (patchOffset : Int) : Decode Bytes :=
  applyBSDiffPatchNumbers (.target L) L old start oldSize patch patchOffset

/-! ## Sinks -/

/-- A `SinkFn` with the state behind its token: the number it returns and the new state. -/
abbrev Sink (τ : Type) := τ → Bytes → FsProg (Int × τ)

/-- `FileSink` on the file opened under the name `n`. -/
def fileSinkFn (n : Name) : Sink Unit := fun _ data => do
  let done ← fileSink n data
  return (done, ())

/-- `MemorySinkInfo`: the bytes stored so far and the size of the buffer. -/
structure MemorySinkInfo where
  buffer : Bytes
  size : Nat
  deriving DecidableEq

/-- `MemorySink`: all of the data or none of it. -/
def memorySink : Sink MemorySinkInfo := fun msi data =>
  if msi.size - msi.buffer.length < data.length then return (-1, msi)
  else return (data.length, { msi with buffer := msi.buffer ++ data })

section Sinks

variable {τ : Type} (sink : Sink τ)

/-- `ApplyBSDiffPatch`: the status, the sink's state and the bytes the SHA context has absorbed. A
fault or an endless loop in the decoder ends the process. -/
def applyBSDiffPatch (L : Libs) (old : Bytes) (start oldSize : Int) (patch : Value)
    (patchOffset : Int) (tok : τ) (ctx : Bytes) : FsProg (Int × τ × Bytes) :=
  match applyBSDiffPatchMem L old start oldSize patch patchOffset with
  | .failed => return (-1, tok, ctx)
  | .fault => .halt
  | .hang => .halt
  | .ok newData => do
      let (n, tok) ← sink tok newData
      -- the digest is updated only if the sink took everything
      if n < newData.length then return (1, tok, ctx)
      else return (0, tok, ctx ++ newData)

end Sinks

end OpenRecovery.ApplyPatch
