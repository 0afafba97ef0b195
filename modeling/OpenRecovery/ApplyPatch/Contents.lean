import OpenRecovery.Retouch.MaskData
import OpenRecovery.Storage.CString
import OpenRecovery.Storage.FileSystem

/-!
# Loading and saving file contents

The helpers of `applypatch/applypatch.c` and `applypatch/freecache.c`, as programs over the file
system: parsing digests, loading files and partitions, `FileSink`, `SaveFileContents`,
`WriteToPartition`, and making room on `/cache`.
-/

set_option autoImplicit false

namespace OpenRecovery.ApplyPatch

open OpenRecovery.Crash OpenRecovery.Retouch OpenRecovery.Storage

/-! ## Names -/

/-- `CACHE_TEMP_SOURCE`. -/
def cacheTempSource : Name := cstr "/cache/saved.file"

/-- The delimiter of partition names. -/
def colon : UInt8 := 58

/-- `strncmp(name, "EMMC:", 5) == 0`. -/
def isEmmc (n : Name) : Bool := (cstr "EMMC:").isPrefixOf n

/-! ## Digests -/

/-- Value of a hexadecimal digit of either case. -/
def hexDigit (c : UInt8) : Option UInt8 :=
  if 48 ≤ c ∧ c ≤ 57 then some (c - 48)
  else if 97 ≤ c ∧ c ≤ 102 then some (c - 97 + 10)
  else if 65 ≤ c ∧ c ≤ 70 then some (c - 65 + 10)
  else none

/-- `n` bytes written as pairs of hexadecimal digits, up to the end of the string. -/
def parseHexPairs : Nat → Bytes → Option Bytes
  | 0, [] => some []
  | n + 1, a :: b :: rest => do
      let hi ← hexDigit a
      let lo ← hexDigit b
      let tail ← parseHexPairs n rest
      return (hi <<< 4 ||| lo) :: tail
  | _, _ => none

/-- `ParseSha1`: `none` is the error return. -/
def parseSha1 (str : Bytes) : Option Bytes := parseHexPairs 20 str

/-- `FindMatchingPatch`: index of the first string that denotes the digest, `none` for `-1`. -/
def findMatchingPatch (sha1 : Bytes) (patchSha1Str : List Bytes) : Option Nat :=
  patchSha1Str.findIdx? fun str => parseSha1 str = some sha1

/-! ## Loading -/

/-- The `(size, sha1)` pairs of a partition name, read token by token. The answer is `none` for the
error return on a zero size; a missing size token is a null pointer. A missing digest is kept as
`none`. -/
def readPairs (L : Libs) : Nat → List Bytes → FsProg (Option (List (Nat × Option Bytes)))
  | 0, _ => return some []
  | _ + 1, [] => .halt
  | n + 1, sizeStr :: rest => do
      let size := ((strtol L.sizeBits sizeStr).1 % 2 ^ L.sizeBits).toNat
      if size = 0 then return none
      match ← readPairs L n rest.tail with
      | none => return none
      | some ps => return some ((size, rest.head?) :: ps)

/-- The loop of `LoadPartitionContents` over the pairs in order of increasing size; `have` bytes of
the device are in memory. -/
def matchPairs (L : Libs) (dev : Bytes) (file : FileContents) :
    List (Nat × Option Bytes) → Nat → FsProg (Int × FileContents)
  | [], got => return (-1, { file with data := none, size := got })
  | (size, sha) :: rest, got =>
      if dev.length < size then return (-1, { file with data := none, size := got })
      else
        match sha with
        | none => .halt
        | some str =>
            match parseSha1 str with
            | none => return (-1, { file with data := none, size := size })
            | some parsed =>
                if L.sha1 (dev.take size) = parsed then
                  return (0, ⟨L.sha1 (dev.take size), some (dev.take size), size, ⟨0o644, 0, 0⟩⟩)
                else matchPairs L dev file rest size

/-- `LoadPartitionContents`, with `file->data` already null. -/
def loadPartitionContents (L : Libs) (filename : Name) (file : FileContents) :
    FsProg (Int × FileContents) :=
  match strtok colon filename with
  | [] => .halt
  | magic :: tokens =>
      if magic ≠ cstr "EMMC" then return (-1, file)
      else do
        -- a wrong number of colons is reported and otherwise ignored
        let pairs := (filename.count colon - 1) / 2
        match ← readPairs L pairs tokens.tail with
        | none => return (-1, file)
        | some ps =>
            match tokens.head? with
            | none => .halt
            | some partition =>
                match ← sysLoadPart partition with
                | none => return (-1, file)
                | some dev =>
                    -- `size[index[pairs-1]]` is outside the array when there is no pair
                    if ps = [] then .halt
                    else matchPairs L dev file (ps.insertionSort fun a b => a.1 ≤ b.1) 0

/-- `LoadFileContents`: the status and the contents object afterwards. -/
def loadFileContents (L : Libs) (filename : Name) (file : FileContents) (retouchFlag : Bool) :
    FsProg (Int × FileContents) := do
  let file := { file with data := none }
  if isEmmc filename then loadPartitionContents L filename file
  else
    match ← sysLoad filename with
    | none => return (-1, file)
    | some f =>
        let file := { file with st := f.st, size := f.data.length }
        if retouchFlag then
          match retouchMaskData f.data (some 0) with
          | (.matched, data, _) =>
              return (0, { file with data := some data, sha1 := L.sha1 data })
          | _ => return (-1, file)
        else return (0, { file with data := some f.data, sha1 := L.sha1 f.data })

/-! ## Saving -/

/-- The loop of `FileSink`: `rest` is still to be written and `fuel` bounds its length. -/
def fileSinkLoop (n : Name) : Nat → Bytes → Nat → FsProg Nat
  | 0, _, done => return done
  | fuel + 1, rest, done =>
      if rest = [] then return done
      else do
        let wrote ← sysWrite n rest
        if wrote ≤ 0 then return done
        else fileSinkLoop n fuel (rest.drop wrote.toNat) (done + wrote.toNat)

/-- `FileSink`: write until everything is accepted or a call fails; the number of bytes written. -/
def fileSink (n : Name) (data : Bytes) : FsProg Nat := fileSinkLoop n data.length data 0

/-- `FileSink` from a buffer that may be a null or freed pointer, which `write` refuses. -/
def fileSinkBuffer (n : Name) : Option Bytes → FsProg Nat
  | some data => fileSink n data
  | none => return 0

/-- `SaveFileContents`. -/
def saveFileContents (filename : Name) (file : FileContents) : FsProg Int := do
  let ok ← sysOpenTrunc filename
  if !ok then return -1
  let written ← fileSinkBuffer filename file.data
  if (written : Int) ≠ file.size then return -1
  let ok ← sysChmod filename file.st.mode
  if !ok then return -1
  let ok ← sysChown filename file.st.uid file.st.gid
  if !ok then return -1
  return 0

/-- The status for the outcome of writing a device. The process dies when the device cannot be
opened. -/
def writeStatus : PartWrite → FsProg Int
  | .done => return 0
  | .failed _ => return -1
  | .noDevice => .halt

/-- `WriteToPartition`. -/
def writeToPartition (data : Bytes) (target : Name) : FsProg Int :=
  match strtok colon target with
  | [] => .halt
  | magic :: tokens =>
      if magic ≠ cstr "EMMC" then return -1
      else
        match tokens.head? with
        | none => return -1
        | some partition => do
            let outcome ← sysWritePart partition data
            writeStatus outcome

/-! ## Sizes -/

/-- Conversion to `size_t`. -/
def toSize (L : Libs) (v : Int) : Nat := (v % 2 ^ L.sizeBits).toNat

/-- Conversion to `ssize_t`. -/
def toSsize (L : Libs) (v : Int) : Int := v.bmod (2 ^ L.sizeBits)

theorem pow_sizeBits_ge (L : Libs) : 2 ^ 32 ≤ 2 ^ L.sizeBits :=
  Nat.pow_le_pow_right (by decide) L.wide

theorem toSize_of_lt {L : Libs} {v : Nat} (hv : v < 2 ^ L.sizeBits) : toSize L v = v := by
  rw [toSize]
  have hmod : (v : Int) % 2 ^ L.sizeBits = v := Int.emod_eq_of_lt (by omega) (by exact_mod_cast hv)
  rw [hmod, Int.toNat_natCast]

/-- Sizes below 2 GiB keep their value at any width. -/
theorem toSize_small {L : Libs} {v : Nat} (hv : v < 2 ^ 31) : toSize L v = v :=
  toSize_of_lt (Nat.lt_of_lt_of_le (by omega) (pow_sizeBits_ge L))

theorem toSsize_of_bounds {L : Libs} {v : Int} (h0 : -2 ^ 31 ≤ v) (h1 : v < 2 ^ 31) :
    toSsize L v = v := by
  have hwide := pow_sizeBits_ge L
  rw [toSsize]
  exact Int.bmod_eq_of_le_mul_two (by omega) (by omega)

theorem toSsize_small {L : Libs} {v : Nat} (hv : v < 2 ^ 31) : toSsize L v = v :=
  toSsize_of_bounds (by omega) (by omega)

/-! ## Free space -/

/-- `FreeSpaceForFile`: `(size_t)-1` on error. -/
def freeSpaceForFile (L : Libs) (filename : Name) : FsProg Nat := do
  match ← sysStatfs filename with
  | none => return 2 ^ L.sizeBits - 1
  | some (bsize, bfree) => return bsize * bfree % 2 ^ L.sizeBits

/-- `EliminateOpenFiles`: the names of open files become null; `none` is the error return. -/
def eliminateOpenFiles (files : List Name) : FsProg (Option (List (Option Name))) := do
  match ← sysOpenFiles with
  | none => return none
  | some links =>
      return some (files.map fun n =>
        if (cstr "/cache/").isPrefixOf n ∧ n ∈ links then none else some n)

/-- The regular files among the entries of a directory, without `CACHE_TEMP_SOURCE`. -/
def regularEntries (d : Name) : List Name → FsProg (List Name)
  | [] => return []
  | e :: es => do
      let path := joinPath d e
      if path = cacheTempSource then regularEntries d es
      else do
        let reg ← sysStatReg path
        let rest ← regularEntries d es
        return if reg then path :: rest else rest

/-- The regular files in the directories; one that cannot be opened is skipped. -/
def regularFiles : List Name → FsProg (List Name)
  | [] => return []
  | d :: ds => do
      match ← sysOpendir d with
      | none => regularFiles ds
      | some es => do
          let here ← regularEntries d es
          let rest ← regularFiles ds
          return here ++ rest

/-- The directories whose unopened regular files may be deleted. -/
def expendableDirs : List Name := [cstr "/cache", cstr "/cache/recovery/otatest"]

/-- `FindExpendableFiles`. -/
def findExpendableFiles : FsProg (Option (List (Option Name))) := do
  let names ← regularFiles expendableDirs
  eliminateOpenFiles names

/-- The deletion loop of `MakeFreeSpaceOnCache`; the free space afterwards. -/
def deleteUntil (L : Libs) (needed : Nat) : List (Option Name) → Nat → FsProg Nat
  | [], free => return free
  | n :: ns, free =>
      if free < needed then
        match n with
        | none => deleteUntil L needed ns free
        | some name => do
            let _ ← sysUnlink name
            let free ← freeSpaceForFile L (cstr "/cache")
            deleteUntil L needed ns free
      else return free

/-- `MakeFreeSpaceOnCache`. -/
def makeFreeSpaceOnCache (L : Libs) (bytesNeeded : Nat) : FsProg Int := do
  let freeNow ← freeSpaceForFile L (cstr "/cache")
  if freeNow ≥ bytesNeeded then return 0
  match ← findExpendableFiles with
  | none => return -1
  | some names =>
      if names = [] then return -1
      let freeNow ← deleteUntil L bytesNeeded names freeNow
      return if freeNow ≥ bytesNeeded then 0 else -1

end OpenRecovery.ApplyPatch
