import OpenRecovery.ApplyPatch.ImgPatch

/-!
# `applypatch`

The function `applypatch` of `applypatch/applypatch.c`, cut at its natural seams: `selectSource`
finds the contents to patch, `makeRoom` is the first half of the retry loop (free space and the
backup copy), `runPatch` the second half (the output file or buffer and the patch itself), `attempt`
and `attemptLoop` the loop, and `finishPatch` the digest comparison and the replacement of the
target. A stage answers `Except.error code` where the source returns `code`.
-/

set_option autoImplicit false

namespace OpenRecovery.ApplyPatch

open OpenRecovery.Crash OpenRecovery.Edify OpenRecovery.Storage

/-- Arguments of `applypatch`; `patches` pairs `patch_sha1_str[i]` with `patch_data[i]`. -/
structure PatchArgs where
  sourceFilename : Name
  targetFilename : Name
  targetSha1Str : Bytes
  targetSize : Nat
  patches : List (Bytes × Option Value)

/-- `target_filename` after `"-"` is replaced by the source. -/
def PatchArgs.target (a : PatchArgs) : Name :=
  if a.targetFilename = cstr "-" then a.sourceFilename else a.targetFilename

/-- `"<tgt-file>.patch"`. -/
def PatchArgs.outname (a : PatchArgs) : Name := a.target ++ cstr ".patch"

/-- `patch_data[FindMatchingPatch(sha1, ..)]`, null when there is no match. -/
def PatchArgs.patchFor (a : PatchArgs) (sha1 : Bytes) : Option Value :=
  match findMatchingPatch sha1 (a.patches.map Prod.fst) with
  | none => none
  | some i => (a.patches[i]?).bind Prod.snd

/-- The top-level directory of a file, for `statfs`. -/
def topLevelDir : Name → Name
  | [] => []
  | c :: rest => c :: rest.takeWhile (· ≠ slash)

/-- `source_file`, `copy_file`, `source_patch_value` and `copy_patch_value`. -/
structure Selection where
  sourceFile : FileContents
  copyFile : FileContents
  sourcePatch : Option Value
  copyPatch : Option Value

/-- Load the source file unless it is the target, which is in memory. -/
def loadSource (L : Libs) (a : PatchArgs) (file : FileContents) : FsProg FileContents :=
  if file.data = none ∨ a.target ≠ a.sourceFilename then do
    let (_, f) ← loadFileContents L a.sourceFilename file true
    return f
  else return file

/-- `source_patch_value`: the patch for the source file, if it could be loaded. -/
def PatchArgs.patchForFile (a : PatchArgs) (file : FileContents) : Option Value :=
  if file.data = none then none else a.patchFor file.sha1

/-- Take the contents from the saved copy. `source_file.data` has been freed and its pointer keeps
its value. -/
def chooseCopy (L : Libs) (a : PatchArgs) (sourceFile copyFile : FileContents) :
    FsProg (Except Int Selection) := do
  let (r, copyFile) ← loadFileContents L cacheTempSource copyFile true
  if r < 0 then return .error 1
  else
    match a.patchFor copyFile.sha1 with
    | none => return .error 1
    | some v => return .ok ⟨{ sourceFile with data := none }, copyFile, none, some v⟩

/-- From the already-patched test to the choice between the source file and the saved copy; `r` and
`file` come from loading the target. -/
def chooseSource (L : Libs) (a : PatchArgs) (targetSha1 : Bytes) (copyFile : FileContents) (r : Int)
    (file : FileContents) : FsProg (Except Int Selection) :=
  if r = 0 ∧ file.sha1 = targetSha1 then return .error 0
  else do
    let sourceFile ← loadSource L a file
    match a.patchForFile sourceFile with
    | some v => return .ok ⟨sourceFile, copyFile, some v, none⟩
    | none => chooseCopy L a sourceFile copyFile

/-- From loading the target to the choice of the contents to patch. -/
def selectSource (L : Libs) (a : PatchArgs) (targetSha1 : Bytes) :
    FsProg (Except Int Selection) := do
  let copyFile ← sysUninit
  let sourceFile ← sysUninit
  let (r, file) ← loadFileContents L a.target sourceFile true
  chooseSource L a targetSha1 copyFile r file

/-- `free_space > (256 << 10) && free_space > target_size * 3 / 2` in `size_t` arithmetic. -/
def enoughSpace (L : Libs) (targetSize freeSpace : Nat) : Bool :=
  freeSpace > 256 * 1024 && freeSpace > targetSize * 3 % 2 ^ L.sizeBits / 2

/-- The free-space test, made only while `retry` is positive. -/
def testSpace (L : Libs) (a : PatchArgs) (retry : Nat) : FsProg Bool :=
  if retry > 0 then do
    let free ← freeSpaceForFile L (topLevelDir a.target)
    return enoughSpace L a.targetSize free
  else return false

/-- The first half of the loop body: `retry` and `made_copy` afterwards. -/
def makeRoom (L : Libs) (a : PatchArgs) (sel : Selection) (retry : Nat) (madeCopy : Bool) :
    FsProg (Except Int (Nat × Bool)) :=
  if isEmmc a.target then do
    let m ← makeFreeSpaceOnCache L (toSize L sel.sourceFile.size)
    if m < 0 then return .error 1
    let r ← saveFileContents cacheTempSource sel.sourceFile
    if r < 0 then return .error 1
    return .ok (0, true)
  else do
    let enough ← testSpace L a retry
    let retry := if enough then retry else 0
    if !enough ∧ sel.sourcePatch ≠ none then
      if isEmmc a.sourceFilename then return .error 1
      let m ← makeFreeSpaceOnCache L (toSize L sel.sourceFile.size)
      if m < 0 then return .error 1
      let r ← saveFileContents cacheTempSource sel.sourceFile
      if r < 0 then return .error 1
      let _ ← sysUnlink a.sourceFilename
      let _ ← freeSpaceForFile L (topLevelDir a.target)
      return .ok (retry, true)
    else return .ok (retry, madeCopy)

/-- `source_to_use` and `patch`. -/
def Selection.toUse (sel : Selection) : FileContents × Option Value :=
  match sel.sourcePatch with
  | some v => (sel.sourceFile, some v)
  | none => (sel.copyFile, sel.copyPatch)

/-- `header_bytes_read >= 8 && memcmp(header, magic, 8) == 0`; `none` is a read outside the
patch. -/
def hasMagic (patch : Value) (magic : Bytes) : Option Bool :=
  if patch.size < 8 then some false
  else
    match patch.data with
    | none => none
    | some data => (slice data 0 8).map fun b => b = magic

/-- Detect the patch format and apply the patch; `none` is the unknown format. -/
def applyBlob {τ : Type} (sink : Sink τ) (L : Libs) (src : FileContents) (patch : Value) (tok : τ) :
    FsProg (Option (Int × τ × Bytes)) :=
  match hasMagic patch (cstr "BSDIFF40"), hasMagic patch (cstr "IMGDIFF2") with
  | some true, _ => do
      let r ← applyBSDiffPatch sink L (src.data.getD []) 0 src.size patch 0 tok []
      return some r
  | some false, some true => do
      let r ← applyImagePatch sink L (src.data.getD []) patch tok []
      return some r
  | some false, some false => return none
  | _, _ => .halt

/-- The second half of the loop body: the status, the bytes in the SHA context, and the output
buffer when the target is a partition. -/
def runPatch (L : Libs) (a : PatchArgs) (src : FileContents) (patch : Value) :
    FsProg (Except Int (Int × Bytes × Bytes)) :=
  if patch.type ≠ .blob then return .error 1
  else if isEmmc a.target then do
    match ← applyBlob memorySink L src patch ⟨[], a.targetSize⟩ with
    | none => return .error 1
    | some (result, msi, ctx) => return .ok (result, ctx, msi.buffer)
  else do
    let ok ← sysOpenTrunc a.outname
    if !ok then return .error 1
    match ← applyBlob (fileSinkFn a.outname) L src patch () with
    | none => return .error 1
    | some (result, _, ctx) => return .ok (result, ctx, [])

/-- Local variables at the end of a pass: `result`, the SHA context, the output buffer, `retry` and
`made_copy`. -/
structure Pass where
  result : Int
  ctx : Bytes
  buffer : Bytes
  retry : Nat
  madeCopy : Bool

/-- One pass of the loop, up to the test of `result`. -/
def attempt (L : Libs) (a : PatchArgs) (sel : Selection) (retry : Nat) (madeCopy : Bool) :
    FsProg (Except Int Pass) := do
  match ← makeRoom L a sel retry madeCopy with
  | .error code => return .error code
  | .ok (retry, madeCopy) =>
      match sel.toUse with
      | (_, none) => .halt
      | (src, some patch) => do
          match ← runPatch L a src patch with
          | .error code => return .error code
          | .ok (result, ctx, buffer) => return .ok ⟨result, ctx, buffer, retry, madeCopy⟩

/-- The loop `do { .. } while (retry-- > 0)`; a pass that fails with `retry` at zero ends the
call. -/
def attemptLoop (L : Libs) (a : PatchArgs) (sel : Selection) :
    Nat → Bool → FsProg (Except Int Pass)
  | 0, madeCopy => do
      match ← attempt L a sel 0 madeCopy with
      | .error code => return .error code
      | .ok p => return if p.result = 0 then .ok p else .error 1
  | retry + 1, madeCopy => do
      match ← attempt L a sel (retry + 1) madeCopy with
      | .error code => return .error code
      | .ok p =>
          if p.result = 0 then return .ok p
          -- the pass left `retry` as it was or set it to zero
          else if p.retry = 0 then return .error 1
          else do
            if !isEmmc a.target then
              let _ ← sysUnlink a.outname
            attemptLoop L a sel retry p.madeCopy

/-- From the digest comparison to the end. -/
def finishPatch (L : Libs) (a : PatchArgs) (targetSha1 : Bytes) (src : FileContents)
    (ctx buffer : Bytes) (madeCopy : Bool) : FsProg Int := do
  if L.sha1 ctx ≠ targetSha1 then return 1
  if isEmmc a.target then
    let r ← writeToPartition buffer a.target
    if r ≠ 0 then return 1
  else
    let ok ← sysChmod a.outname src.st.mode
    if !ok then return 1
    let ok ← sysChown a.outname src.st.uid src.st.gid
    if !ok then return 1
    let ok ← sysRename a.outname a.target
    if !ok then return 1
  if madeCopy then
    let _ ← sysUnlink cacheTempSource
  return 0

/-- The call from the choice of the contents on. -/
def patchSelected (L : Libs) (a : PatchArgs) (targetSha1 : Bytes) :
    Except Int Selection → FsProg Int
  | .error code => return code
  | .ok sel => do
      match ← attemptLoop L a sel 1 false with
      | .error code => return code
      | .ok p => finishPatch L a targetSha1 sel.toUse.1 p.ctx p.buffer p.madeCopy

/-- `applypatch`. -/
def applypatch (L : Libs) (a : PatchArgs) : FsProg Int :=
  match parseSha1 a.targetSha1Str with
  | none => return 1
  | some targetSha1 => do
      let sel ← selectSource L a targetSha1
      patchSelected L a targetSha1 sel

end OpenRecovery.ApplyPatch
