import OpenRecovery.ApplyPatch.ApplyPatch
import OpenRecovery.Retouch.MaskLaws

/-!
# `retouch_one_library`

The function of `minelf/Retouch.c`, cut at its natural seams. `loadLibrary` probes the library and
finds the contents to work on, in the library itself or in the saved copy; `saveLibrary` is the loop
that writes the `.atomic` file, with a backup in `/cache` when space is low; `replaceLibrary` swaps
the files. The answer is the return value and the value stored through
`retouch_offset_override`, or the one that was there.
-/

set_option autoImplicit false

namespace OpenRecovery.Retouch

open OpenRecovery.ApplyPatch OpenRecovery.Crash OpenRecovery.Storage

/-- `binary_name_atomic`. -/
def atomicName (name : Name) : Name := name ++ cstr ".atomic"

/-- After the probe: skip the file and report an offset, or go on with its contents. -/
inductive Probe where
  | skip (offset : BitVec 32)
  | proceed (file : FileContents)

/-- The branches on the result of the probe. A file that is already retouched is left alone if its
offset is the one asked for or may override it; otherwise it is masked for the digest check. -/
def probeResult (L : Libs) (offset : BitVec 32) (override : Option (BitVec 32))
    (file : FileContents) (data : Bytes) : RetouchData × Bytes × BitVec 32 → Probe
  | (.matched, _, inferred) =>
      -- an offset of 0 asks for the library to be put back, which is never overridden
      if offset = inferred ∨ (offset ≠ 0 ∧ inferred ≠ 0) ∧ override ≠ none then .skip inferred
      else
        .proceed { file with
          data := some (retouchMaskData data (some 0)).2.1
          sha1 := L.sha1 (retouchMaskData data (some 0)).2.1 }
  -- a file without a retouch blob is left as it is, with success
  | (.notApplicable, _, _) => .skip 0
  -- a broken blob is not noticed here: the digest check decides
  | _ => .proceed file

/-- Probe a loaded file. -/
def probeLibrary (L : Libs) (offset : BitVec 32) (override : Option (BitVec 32))
    (file : FileContents) : Probe :=
  probeResult L offset override file (file.data.getD []) (retouchMaskData (file.data.getD []) none)

/-- Where the contents come from: the file is skipped, there are contents with the right digest, or
there are none. -/
inductive Source where
  | skip (offset : BitVec 32)
  | contents (file : FileContents)
  | missing

/-- `result == 0 && FindMatchingPatch(file.sha1, &binary_sha1, 1) >= 0`. -/
def isSource (sha1Str : Bytes) (r : Int) (file : FileContents) : Bool :=
  r = 0 ∧ findMatchingPatch file.sha1 [sha1Str] ≠ none

/-- Take the contents from the saved copy. -/
def recoverSource (L : Libs) (sha1Str : Bytes) (file : FileContents) : FsProg Source := do
  -- the fields a failed load does not set keep the values from the library
  let (r, file) ← loadFileContents L cacheTempSource file true
  return if isSource sha1Str r file then .contents file else .missing

/-- The digest check on the library, and the saved copy in its place. -/
def checkSource (L : Libs) (sha1Str : Bytes) (r : Int) (file : FileContents) : FsProg Source :=
  if isSource sha1Str r file then return .contents file else recoverSource L sha1Str file

/-- After loading the library. -/
def sourceOf (L : Libs) (sha1Str : Bytes) (offset : BitVec 32) (override : Option (BitVec 32))
    (r : Int) (file : FileContents) : FsProg Source :=
  if r = 0 then
    match probeLibrary L offset override file with
    | .skip v => return .skip v
    | .proceed file => checkSource L sha1Str r file
  else checkSource L sha1Str r file

/-- From loading the library to the choice of the contents. -/
def loadLibrary (L : Libs) (name : Name) (sha1Str : Bytes) (offset : BitVec 32)
    (override : Option (BitVec 32)) : FsProg Source := do
  let file ← sysUninit
  let (r, file) ← loadFileContents L name file false
  sourceOf L sha1Str offset override r file

/-- Write the `.atomic` file; a failed one is removed. -/
def saveAtomic (name : Name) (file : FileContents) : FsProg Bool := do
  let r ← saveFileContents (atomicName name) file
  if r ≠ 0 then do
    let _ ← sysUnlink (atomicName name)
    return false
  else return true

/-- Write the contents to `/cache` and remove the library. -/
def backUp (L : Libs) (name : Name) (file : FileContents) : FsProg Bool := do
  let m ← makeFreeSpaceOnCache L (toSize L file.size)
  if m < 0 then return false
  else do
    let r ← saveFileContents cacheTempSource file
    if r < 0 then return false
    else do
      let _ ← sysUnlink name
      -- only printed
      let _ ← freeSpaceForFile L (topLevelDir name)
      return true

/-- A pass that is low on space: `none` is the error exit, and otherwise a copy was made. A failure
to write the `.atomic` file is noticed when it cannot be renamed. -/
def saveWithBackup (L : Libs) (name : Name) (file : FileContents) : FsProg (Option Bool) := do
  let ok ← backUp L name file
  if ok then do
    let _ ← saveAtomic name file
    return some true
  else return none

/-- The loop: one more pass, with a backup, if the first cannot write the file. The answer is
`made_copy`. -/
def saveLibrary (L : Libs) (name : Name) (file : FileContents) (enough : Bool) :
    FsProg (Option Bool) :=
  if enough then do
    let ok ← saveAtomic name file
    if ok then return some false else saveWithBackup L name file
  else saveWithBackup L name file

/-- Give the `.atomic` file its owner and mode and let it replace the library. -/
def replaceLibrary (name : Name) (st : Stat) (madeCopy : Bool) : FsProg Bool := do
  let ok ← sysChmod (atomicName name) st.mode
  if !ok then return false
  let ok ← sysChown (atomicName name) st.uid st.gid
  if !ok then return false
  let ok ← sysRename (atomicName name) name
  if !ok then return false
  if madeCopy then
    let _ ← sysUnlink cacheTempSource
  return true

/-- `file.size * 3 / 2`, as it is compared with a `size_t`: the product is an `ssize_t` and wraps,
and the division rounds towards zero. -/
def spaceLimit (L : Libs) (size : Int) : Nat :=
  toSize L (Int.tdiv (Int.bmod (size * 3) (2 ^ L.sizeBits)) 2)

/-- `enough_space`. -/
def librarySpace (L : Libs) (file : FileContents) (free : Nat) : Bool :=
  free > spaceLimit L file.size

/-- The free-space test. -/
def testLibrarySpace (L : Libs) (name : Name) (file : FileContents) : FsProg Bool := do
  let free ← freeSpaceForFile L (topLevelDir name)
  return librarySpace L file free

/-- From the free-space test to the end. -/
def writeLibrary (L : Libs) (name : Name) (file : FileContents) : FsProg Bool := do
  let enough ← testLibrarySpace L name file
  let saved ← saveLibrary L name file enough
  match saved with
  | none => return false
  -- after the last failed save too: `chmod` finds no file then
  | some madeCopy => replaceLibrary name file.st madeCopy

/-- Retouch the contents in memory, and write them. -/
def retouchContents (L : Libs) (name : Name) (offset : BitVec 32) (file : FileContents) :
    RetouchData × Bytes × BitVec 32 → FsProg (Bool × Option (BitVec 32))
  -- stored before anything is written, so a failed write leaves the offset there
  | (.matched, data, _) => do
      let ok ← writeLibrary L name { file with data := some data }
      return (ok, some offset)
  | _ => return (false, none)

/-- From the choice of the contents on: the return value, and the value stored through the
override pointer. -/
def retouchSource (L : Libs) (name : Name) (offset : BitVec 32) :
    Source → FsProg (Bool × Option (BitVec 32))
  | .skip v => return (true, some v)
  | .missing => return (false, none)
  | .contents file =>
      retouchContents L name offset file (retouchMaskData (file.data.getD []) (some offset))

/-- `retouch_one_library`. -/
def retouchOneLibrary (L : Libs) (name : Name) (sha1Str : Bytes) (offset : BitVec 32)
    (override : Option (BitVec 32)) : FsProg (Bool × BitVec 32) := do
  let source ← loadLibrary L name sha1Str offset override
  let (ok, stored) ← retouchSource L name offset source
  -- `out`, which every exit comes to
  let _ ← sysUnlink (atomicName name)
  return (ok, stored.getD (override.getD 0))

end OpenRecovery.Retouch
