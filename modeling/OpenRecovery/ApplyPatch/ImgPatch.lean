import OpenRecovery.ApplyPatch.BsPatch

/-!
# Applying an image patch

`applypatch/imgpatch.c`. `readChunk` decodes one chunk record, with the inflation, the patching in
memory and the deflation of a `CHUNK_DEFLATE` record; `applyChunk` hands its output to the sink and
to the SHA context; `applyImagePatch` goes through the records. The status of a `CHUNK_NORMAL`
record is ignored, as in the source. The 64-bit numbers of a record become a `size_t` or an
`ssize_t` before they are used, and nothing compares them with the length of the source: a range
behind its end is a fault where a byte that is not there is read, and only there.

What a patch produces does not depend on the sink. `imagePieces` lists the byte strings offered to
the sink, and `emit` offers such a list; `applyImagePatch_eq_emit` says that this is what
`applyImagePatch` does, for every sink. The results about sinks are proved for `emit`.
-/

set_option autoImplicit false

namespace OpenRecovery.ApplyPatch

open OpenRecovery.Crash OpenRecovery.Edify OpenRecovery.Storage

/-- `CHUNK_NORMAL`. -/
def chunkNormal : Int := 0

/-- `CHUNK_DEFLATE`. -/
def chunkDeflate : Int := 2

/-- `CHUNK_RAW`. -/
def chunkRaw : Int := 3

/-- A decoded chunk record. The data of a deflate chunk comes in the blocks `deflate` fills. -/
inductive Chunk where
  | normal (srcStart srcLen patchOffset : Int)
  | raw (data : Bytes)
  | deflate (blocks : List Bytes)
  deriving DecidableEq

/-- The output of `deflate(Z_FINISH)` through a buffer of `k` bytes: full buffers, and a last one
that is not full. `fuel` bounds the number of full buffers. -/
def deflateBlocks (k : Nat) : Nat → Bytes → List Bytes
  | 0, out => [out]
  | fuel + 1, out =>
      if out.length < k then [out] else out.take k :: deflateBlocks k fuel (out.drop k)

/-- Inflate `availIn` bytes from `start` of the source into a buffer with room for `availOut`. -/
def inflateRange (L : Libs) (old : Bytes) (start availIn availOut : Nat) : Decode Bytes :=
  let input := (old.drop start).take availIn
  match L.inflate input, L.inflateStarved input with
  | some (expanded, _), _ => if expanded.length = availOut then .ok expanded else .failed
  | none, some out =>
      -- the next byte of the input is read while there is room for output
      if 0 < availIn ∧ old.length < start + availIn ∧ out.length ≤ availOut then .fault else .failed
  | none, none => .failed

/-- Inflate a source range and patch it in memory: the uncompressed target data. `avail_in` and
`avail_out` are 32 bits wide. -/
def patchInflated (L : Libs) (old : Bytes) (patch : Value) (srcStart srcLen : Nat)
    (patchOffset : Int) (expandedLen : Nat) : Decode Bytes := do
  let expanded ← inflateRange L old srcStart (srcLen % 2 ^ 32) (expandedLen % 2 ^ 32)
  -- the rest of a larger buffer has never been written
  if expanded.length ≠ expandedLen then .fault
  else applyBSDiffPatchMem L expanded 0 (toSsize L expandedLen) patch patchOffset

/-- Decode the chunk record at `pos`; the position after it. -/
def readChunk (L : Libs) (old : Bytes) (patch : Value) (data : Bytes) (pos : Int) :
    Decode (Chunk × Int) :=
  if patch.size < pos + 4 then .failed
  else do
    let type ← Decode.ofAccess (read4 data pos)
    let pos := pos + 4
    if type = chunkNormal then
      if patch.size < pos + 24 then .failed
      else do
        let srcStart ← Decode.ofAccess (read8 data pos)
        let srcLen ← Decode.ofAccess (read8 data (pos + 8))
        let patchOffset ← Decode.ofAccess (read8 data (pos + 16))
        return (.normal (toSize L srcStart) (toSsize L srcLen) (toSsize L patchOffset), pos + 24)
    else if type = chunkRaw then
      if patch.size < pos + 4 then .failed
      else do
        let dataLen ← Decode.ofAccess (read4 data pos)
        let pos := pos + 4
        if patch.size < pos + dataLen then .failed
        else if dataLen < 0 then .fault
        else do
          let chunk ← Decode.ofAccess (slice data pos dataLen.toNat)
          return (.raw chunk, pos + dataLen)
    else if type = chunkDeflate then
      if patch.size < pos + 60 then .failed
      else do
        let srcStart ← Decode.ofAccess (read8 data pos)
        let srcLen ← Decode.ofAccess (read8 data (pos + 8))
        let patchOffset ← Decode.ofAccess (read8 data (pos + 16))
        let expandedLen ← Decode.ofAccess (read8 data (pos + 24))
        let level ← Decode.ofAccess (read4 data (pos + 40))
        let method ← Decode.ofAccess (read4 data (pos + 44))
        let windowBits ← Decode.ofAccess (read4 data (pos + 48))
        let memLevel ← Decode.ofAccess (read4 data (pos + 52))
        let strategy ← Decode.ofAccess (read4 data (pos + 56))
        let target ← patchInflated L old patch (toSize L srcStart) (toSize L srcLen)
          (toSsize L patchOffset) (toSize L expandedLen)
        match L.deflate ⟨level, method, windowBits, memLevel, strategy⟩ target with
        | none => .hang
        | some out =>
            let tempSize := max (toSsize L expandedLen).toNat 32768
            return (.deflate (deflateBlocks tempSize out.length out), pos + 60)
    else .failed

section Sinks

variable {τ : Type} (sink : Sink τ)

/-- Hand the blocks of a deflate chunk to the sink, and each accepted one to the SHA context. -/
def sinkBlocks : List Bytes → τ → Bytes → FsProg (Int × τ × Bytes)
  | [], tok, ctx => return (0, tok, ctx)
  | b :: bs, tok, ctx => do
      let (n, tok) ← sink tok b
      if n ≠ b.length then return (-1, tok, ctx)
      else sinkBlocks bs tok (ctx ++ b)

/-- The output of one chunk. -/
def applyChunk (L : Libs) (old : Bytes) (patch : Value) :
    Chunk → τ → Bytes → FsProg (Int × τ × Bytes)
  | .normal srcStart srcLen patchOffset, tok, ctx => do
      -- the status of `ApplyBSDiffPatch` is not looked at
      let (_, tok, ctx) ← applyBSDiffPatch sink L old srcStart srcLen patch patchOffset tok ctx
      return (0, tok, ctx)
  | .raw data, tok, ctx => do
      let (n, tok) ← sink tok data
      if n ≠ data.length then return (-1, tok, ctx ++ data)
      else return (0, tok, ctx ++ data)
  | .deflate blocks, tok, ctx => sinkBlocks sink blocks tok ctx

/-- The loop over the chunk records. -/
def chunkLoop (L : Libs) (old : Bytes) (patch : Value) (data : Bytes) :
    Nat → Int → τ → Bytes → FsProg (Int × τ × Bytes)
  | 0, _, tok, ctx => return (0, tok, ctx)
  | n + 1, pos, tok, ctx =>
      match readChunk L old patch data pos with
      | .failed => return (-1, tok, ctx)
      | .fault => .halt
      | .hang => .halt
      | .ok (chunk, pos) => do
          let (r, tok, ctx) ← applyChunk sink L old patch chunk tok ctx
          if r ≠ 0 then return (-1, tok, ctx)
          else chunkLoop L old patch data n pos tok ctx

/-- `ApplyImagePatch`: the status, the sink's state and the bytes the SHA context has absorbed. -/
def applyImagePatch (L : Libs) (old : Bytes) (patch : Value) (tok : τ) (ctx : Bytes) :
    FsProg (Int × τ × Bytes) :=
  if patch.size < 12 then return (-1, tok, ctx)
  else
    match patch.data with
    | none => .halt
    | some data =>
        match slice data 0 8, read4 data 8 with
        | some magic, some numChunks =>
            if magic ≠ cstr "IMGDIFF2" then return (-1, tok, ctx)
            else chunkLoop sink L old patch data numChunks.toNat 12 tok ctx
        | _, _ => .halt

end Sinks

/-! ## The pieces of a patch -/

/-- A byte string offered to the sink: the whole output of a normal chunk, the data of a raw chunk,
or a block of a deflate chunk. -/
inductive Piece where
  | normal (data : Bytes)
  | raw (data : Bytes)
  | block (data : Bytes)
  deriving DecidableEq

/-- The bytes of a piece. -/
def Piece.data : Piece → Bytes
  | .normal d => d
  | .raw d => d
  | .block d => d

/-- How the patch ends after its pieces. -/
inductive PatchEnd where
  | done
  | failed
  | fault
  | hang
  deriving DecidableEq

/-- The pieces of one chunk, and `done` if the patch goes on after it. A normal chunk whose bsdiff
patch fails offers nothing. -/
def chunkPieces (L : Libs) (old : Bytes) (patch : Value) : Chunk → List Piece × PatchEnd
  | .normal srcStart srcLen patchOffset =>
      match applyBSDiffPatchMem L old srcStart srcLen patch patchOffset with
      | .ok d => ([.normal d], .done)
      | .failed => ([], .done)
      | .fault => ([], .fault)
      | .hang => ([], .hang)
  | .raw data => ([.raw data], .done)
  | .deflate blocks => (blocks.map .block, .done)

/-- The pieces of `n` chunk records from `pos` on. -/
def loopPieces (L : Libs) (old : Bytes) (patch : Value) (data : Bytes) :
    Nat → Int → List Piece × PatchEnd
  | 0, _ => ([], .done)
  | n + 1, pos =>
      match readChunk L old patch data pos with
      | .failed => ([], .failed)
      | .fault => ([], .fault)
      | .hang => ([], .hang)
      | .ok (chunk, pos) =>
          match chunkPieces L old patch chunk with
          | (ps, .done) =>
              let rest := loopPieces L old patch data n pos
              (ps ++ rest.1, rest.2)
          | (ps, fin) => (ps, fin)

/-- The pieces of an image patch. -/
def imagePieces (L : Libs) (old : Bytes) (patch : Value) : List Piece × PatchEnd :=
  if patch.size < 12 then ([], .failed)
  else
    match patch.data with
    | none => ([], .fault)
    | some data =>
        match slice data 0 8, read4 data 8 with
        | some magic, some numChunks =>
            if magic ≠ cstr "IMGDIFF2" then ([], .failed)
            else loopPieces L old patch data numChunks.toNat 12
        | _, _ => ([], .fault)

section Sinks

variable {τ : Type} (sink : Sink τ)

/-- Offer a list of pieces to the sink. A short write of a normal piece is passed over without the
SHA context absorbing it; a short write of any other piece ends the patch. -/
def emit : List Piece → PatchEnd → τ → Bytes → FsProg (Int × τ × Bytes)
  | [], .done, tok, ctx => return (0, tok, ctx)
  | [], .failed, tok, ctx => return (-1, tok, ctx)
  | [], .fault, _, _ => .halt
  | [], .hang, _, _ => .halt
  | .normal d :: ps, fin, tok, ctx => do
      let (n, tok) ← sink tok d
      if n < d.length then emit ps fin tok ctx else emit ps fin tok (ctx ++ d)
  | .raw d :: ps, fin, tok, ctx => do
      let (n, tok) ← sink tok d
      if n ≠ d.length then return (-1, tok, ctx ++ d) else emit ps fin tok (ctx ++ d)
  | .block d :: ps, fin, tok, ctx => do
      let (n, tok) ← sink tok d
      if n ≠ d.length then return (-1, tok, ctx) else emit ps fin tok (ctx ++ d)

theorem sinkBlocks_bind_eq_emit (ps : List Piece) (fin : PatchEnd) (bs : List Bytes) (tok : τ)
    (ctx : Bytes) :
    (do
      let (r, tok, ctx) ← sinkBlocks sink bs tok ctx
      if r ≠ 0 then return (-1, tok, ctx) else emit sink ps fin tok ctx) =
      emit sink (bs.map .block ++ ps) fin tok ctx := by
  induction bs generalizing tok ctx with
  | nil => simp [sinkBlocks]
  | cons b bs ih =>
      simp only [sinkBlocks, List.map_cons, List.cons_append, emit, Prog.bind_bind]
      congr 1
      funext x
      obtain ⟨n, tok'⟩ := x
      by_cases hn : n = b.length
      · simpa [hn] using ih tok' (ctx ++ b)
      · simp [hn]

/-- One chunk followed by the pieces `ps`. -/
theorem applyChunk_bind_eq_emit (L : Libs) (old : Bytes) (patch : Value) (ps : List Piece)
    (fin : PatchEnd) (chunk : Chunk) (tok : τ) (ctx : Bytes) :
    (do
      let (r, tok, ctx) ← applyChunk sink L old patch chunk tok ctx
      if r ≠ 0 then return (-1, tok, ctx) else emit sink ps fin tok ctx) =
      match chunkPieces L old patch chunk with
      | (qs, .done) => emit sink (qs ++ ps) fin tok ctx
      | (qs, fin') => emit sink qs fin' tok ctx := by
  cases chunk with
  | normal srcStart srcLen patchOffset =>
      simp only [applyChunk, applyBSDiffPatch, chunkPieces]
      cases applyBSDiffPatchMem L old srcStart srcLen patch patchOffset with
      | ok d =>
          simp only [Prog.bind_bind, List.cons_append, List.nil_append, emit]
          congr 1
          funext x
          obtain ⟨n, tok'⟩ := x
          by_cases hn : n < d.length
          · simp [hn]
          · simp [hn]
      | failed => simp
      | fault => simp [emit]
      | hang => simp [emit]
  | raw d =>
      simp only [applyChunk, chunkPieces, List.cons_append, List.nil_append, emit, Prog.bind_bind]
      congr 1
      funext x
      obtain ⟨n, tok'⟩ := x
      by_cases hn : n = d.length
      · simp [hn]
      · simp [hn]
  | deflate blocks =>
      simp only [applyChunk, chunkPieces]
      exact sinkBlocks_bind_eq_emit sink ps fin blocks tok ctx

theorem chunkLoop_eq_emit (L : Libs) (old : Bytes) (patch : Value) (data : Bytes) (n : Nat)
    (pos : Int) (tok : τ) (ctx : Bytes) :
    chunkLoop sink L old patch data n pos tok ctx =
      emit sink (loopPieces L old patch data n pos).1 (loopPieces L old patch data n pos).2
        tok ctx := by
  induction n generalizing pos tok ctx with
  | zero => rfl
  | succ n ih =>
      simp only [chunkLoop, loopPieces]
      cases readChunk L old patch data pos with
      | failed => rfl
      | fault => rfl
      | hang => rfl
      | ok x =>
          obtain ⟨chunk, pos'⟩ := x
          simp only [ih]
          rw [applyChunk_bind_eq_emit]
          rcases chunkPieces L old patch chunk with ⟨qs, fin⟩
          cases fin <;> rfl

/-- For every sink, `applyImagePatch` offers the pieces of the patch. -/
theorem applyImagePatch_eq_emit (L : Libs) (old : Bytes) (patch : Value) (tok : τ) (ctx : Bytes) :
    applyImagePatch sink L old patch tok ctx =
      emit sink (imagePieces L old patch).1 (imagePieces L old patch).2 tok ctx := by
  unfold applyImagePatch imagePieces
  by_cases hsize : patch.size < 12
  · simp [hsize, emit]
  · simp only [hsize, if_false]
    cases patch.data with
    | none => rfl
    | some data =>
        simp only
        cases slice data 0 8 with
        | none => rfl
        | some magic =>
            cases read4 data 8 with
            | none => rfl
            | some numChunks =>
                simp only
                by_cases hm : magic = cstr "IMGDIFF2"
                · simp only [hm, ne_eq, not_true_eq_false, if_false]
                  exact chunkLoop_eq_emit sink L old patch data _ _ tok ctx
                · simp [hm, emit]

end Sinks

end OpenRecovery.ApplyPatch
