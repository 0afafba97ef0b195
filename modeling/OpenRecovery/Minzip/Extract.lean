import OpenRecovery.Minzip.Zip

/-!
# Extracting an entry

`processStoredEntry`, `processDeflatedEntry`, `mzProcessZipEntryContents` and the three extractors
of `minzip/Zip.c`. A process function gets a piece of data and its cookie; a write outside the
buffer of the caller is a fault. A `read` of the archive gives all it is asked for where the file
has it.

zlib is given by its calls: `inflate` takes the input at hand and the room for output, and answers
with what it consumed and produced. `write` is given by the list of its answers.
-/

set_option autoImplicit false

namespace OpenRecovery.Minzip

open OpenRecovery.Storage
open OpenRecovery.ApplyPatch (Decode)

/-! ## zlib -/

/-- `Z_OK`, `Z_STREAM_END`, and every other answer. -/
inductive ZCode where
  | ok
  | streamEnd
  | error
  deriving DecidableEq

/-- What a call of `inflate` leaves behind. -/
structure InflateCall (σ : Type) where
  state : σ
  consumed : Nat
  produced : Bytes
  code : ZCode

/-- `inflateInit2` and `inflate`. -/
structure Inflate (σ : Type) where
  init : Option σ
  call : σ → Bytes → Nat → InflateCall σ

/-! ## Streaming -/

/-- The size of `buf`, `readBuf` and `procBuf`. -/
def bufSize : Nat := 32768

/-- `ProcessZipEntryContentsFunction`. -/
abbrev ProcessFunction (κ : Type) := Bytes → κ → Decode (Bool × κ)

section Streaming

variable {σ κ : Type} (process : ProcessFunction κ)

/-- The loop of `processStoredEntry`; the file is given from the current offset on. Each round takes
at least one of the bytes left, which are fuel enough. -/
def storedLoop : Nat → Nat → Bytes → κ → Decode (Bool × κ)
  -- not reached: no byte is left when the fuel is
  | 0, _, _, c => .ok (true, c)
  | fuel + 1, bytesLeft, file, c =>
      if bytesLeft = 0 then .ok (true, c)
      else
        let count := min bytesLeft bufSize
        -- a short read is an error
        if file.length < count then .ok (false, c)
        else do
          let (ret, c) ← process (file.take count) c
          if ret then storedLoop fuel (bytesLeft - count) (file.drop count) c
          else .ok (false, c)

/-- `processStoredEntry`. `bytesLeft` is a `size_t`. -/
def processStoredEntry (e : ZipEntry) (file : Bytes) (c : κ) : Decode (Bool × κ) :=
  storedLoop process (size e.compLen) (size e.compLen) file c

/-- The local variables of `processDeflatedEntry`; `procBuf` holds what was not processed yet. -/
structure Inflating (σ : Type) where
  state : σ
  input : Bytes
  file : Bytes
  compRemaining : Int
  procBuf : Bytes
  totalOut : Nat

/-- Read as much as we can. A `read` of -1 bytes answers -1, which passes for a full read: `inflate`
then runs past `readBuf`. -/
def Inflating.refill (s : Inflating σ) : Decode (Inflating σ) :=
  if s.input = [] then
    let getSize := if (bufSize : Int) < s.compRemaining then (bufSize : Int) else s.compRemaining
    -- the length of the read is -1, and so is its answer
    if getSize = -1 then .fault
    else if getSize < 0 ∨ (s.file.length : Int) < getSize then .failed
    else
      .ok { s with
        input := s.file.take getSize.toNat
        file := s.file.drop getSize.toNat
        compRemaining := s.compRemaining - getSize }
  else .ok s

/-- The state after a call of `inflate`. -/
def Inflating.after (s : Inflating σ) (r : InflateCall σ) : Inflating σ :=
  { s with
    state := r.state
    input := s.input.drop r.consumed
    procBuf := s.procBuf ++ r.produced
    totalOut := s.totalOut + r.produced.length }

/-- Write when we're full or when we're done. -/
def flush (code : ZCode) (s : Inflating σ) (c : κ) : Decode (Bool × Inflating σ × κ) :=
  if s.procBuf.length = bufSize ∨ (code = .streamEnd ∧ s.procBuf ≠ []) then do
    let (ret, c) ← process s.procBuf c
    .ok (ret, { s with procBuf := [] }, c)
  else .ok (true, s, c)

/-- The loop of `processDeflatedEntry`: `total_out`, or `none` after `goto z_bail`. -/
def inflateLoop (Z : Inflate σ) : Nat → Inflating σ → κ → Decode (Option Nat × κ)
  | 0, _, _ => .hang
  | fuel + 1, s, c =>
      match s.refill with
      | .failed => .ok (none, c)
      | .fault => .fault
      | .hang => .hang
      | .ok s =>
          -- `inflate` may use the room that is left in `procBuf`
          let r := Z.call s.state s.input (bufSize - s.procBuf.length)
          if r.code = .error then .ok (none, c)
          else do
            let (ret, s, c) ← flush process r.code (s.after r) c
            if ret then
              -- the end of the stream ends the loop, whatever input is left
              if r.code = .ok then inflateLoop Z fuel s c else .ok (some s.totalOut, c)
            else .ok (none, c)

/-- The value of `result`. -/
def resultOf : Option Nat → Int
  | none => -1
  | some totalOut => long totalOut

/-- `processDeflatedEntry`. A failure is known by a result of -1 only. -/
def processDeflatedEntry (Z : Inflate σ) (fuel : Nat) (e : ZipEntry) (file : Bytes) (c : κ) :
    Decode (Bool × κ) :=
  match Z.init with
  -- an entry that claims a length of -1 passes here
  | none => .ok (decide (resultOf none = e.uncompLen), c)
  | some state => do
      let (result, c) ← inflateLoop process Z fuel
        { state := state, input := [], file := file, compRemaining := e.compLen, procBuf := [],
          totalOut := 0 } c
      .ok (decide (resultOf result = e.uncompLen), c)

/-- The file of the archive from the data of the entry on. `lseek` to a negative offset fails and
leaves the descriptor at `cur`. -/
def entryData (archive : Bytes) (cur : Nat) (e : ZipEntry) : Bytes :=
  archive.drop (if 0 ≤ e.offset then e.offset.toNat else cur)

/-- `mzProcessZipEntryContents`. -/
def mzProcessZipEntryContents (Z : Inflate σ) (fuel : Nat) (archive : Bytes) (cur : Nat)
    (e : ZipEntry) (c : κ) : Decode (Bool × κ) :=
  if e.compression = stored then processStoredEntry process e (entryData archive cur e) c
  else if e.compression = deflated then
    processDeflatedEntry process Z fuel e (entryData archive cur e) c
  else .ok (false, c)

end Streaming

/-! ## The process functions -/

/-- A buffer of the caller, as far as it is filled, and the length that the callback still counts.
-/
structure Filled where
  written : Bytes
  left : Int

/-- `memcpy` to the end of what is filled, in a buffer of `cap` bytes. -/
def Filled.append (cap : Nat) (data : Bytes) (b : Filled) : Decode (Bool × Filled) :=
  if b.written.length + data.length ≤ cap then
    .ok (true, ⟨b.written ++ data, b.left - data.length⟩)
  else .fault

/-- `copyProcessFunction`. -/
def copyProcessFunction (cap : Nat) : ProcessFunction Filled := fun data b =>
  if (data.length : Int) ≤ b.left then b.append cap data else .ok (false, b)

/-- `bufferProcessFunction`. -/
def bufferProcessFunction (cap : Nat) : ProcessFunction Filled := fun data b => b.append cap data

/-- An answer of `write`: `more + 1` bytes, `EINTR`, or another error. -/
inductive WriteAnswer where
  | wrote (more : Nat)
  | interrupted
  | error
  deriving DecidableEq

/-- The file that is written to, and the answers still to come; after them `write` takes all. -/
structure Output where
  written : Bytes
  answers : List WriteAnswer

/-- The loop of `writeProcessFunction`. -/
def writeLoop : List WriteAnswer → Bytes → Bytes → Bool × Output
  | [], data, file => (true, ⟨file ++ data, []⟩)
  | .interrupted :: answers, data, file => writeLoop answers data file
  | .error :: answers, _, file => (false, ⟨file, answers⟩)
  | .wrote more :: answers, data, file =>
      if more + 1 = data.length then (true, ⟨file ++ data, answers⟩)
      -- more than was asked for: not an answer of `write`, but the code looks for it
      else if data.length < more + 1 then (false, ⟨file ++ data, answers⟩)
      else writeLoop answers (data.drop (more + 1)) (file ++ data.take (more + 1))

/-- `writeProcessFunction`. -/
def writeProcessFunction : ProcessFunction Output := fun data o =>
  .ok (writeLoop o.answers data o.written)

/-! ## The extractors -/

section Extractors

variable {σ : Type} (Z : Inflate σ) (fuel : Nat) (archive : Bytes) (cur : Nat) (e : ZipEntry)

/-- `mzReadZipEntry` into a buffer of `cap` bytes: the returned value and what was delivered. -/
def mzReadZipEntry (cap : Nat) (bufLen : Int) : Decode (Bool × Bytes) := do
  let (ret, b) ← mzProcessZipEntryContents (copyProcessFunction cap) Z fuel archive cur e
    ⟨[], bufLen⟩
  .ok (ret, b.written)

/-- `mzExtractZipEntryToBuffer` with a buffer of `cap` bytes. -/
def mzExtractZipEntryToBuffer (cap : Nat) : Decode (Bool × Bytes) := do
  let (ret, b) ← mzProcessZipEntryContents (bufferProcessFunction cap) Z fuel archive cur e
    ⟨[], e.uncompLen⟩
  .ok (ret && b.left = 0, b.written)

/-- `mzExtractZipEntryToFile`. -/
def mzExtractZipEntryToFile (answers : List WriteAnswer) : Decode (Bool × Bytes) := do
  let (ret, o) ← mzProcessZipEntryContents writeProcessFunction Z fuel archive cur e ⟨[], answers⟩
  .ok (ret, o.written)

end Extractors

end OpenRecovery.Minzip
