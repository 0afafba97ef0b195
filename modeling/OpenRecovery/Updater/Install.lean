import Mathlib.Data.List.DropRight
import OpenRecovery.ApplyPatch.Contents
import OpenRecovery.Edify.Function

/-!
# The functions of the updater

`updater/install.c`: the functions that mount, extract, patch and retouch. Each keeps its argument
checks, the texts of its messages and the way it reads its arguments. A wild or null pointer that is
followed is the death of the process.
-/

set_option autoImplicit false

namespace OpenRecovery.Updater

open OpenRecovery.ApplyPatch OpenRecovery.Crash OpenRecovery.Edify OpenRecovery.Edify.Eval
open OpenRecovery.Storage

/-- `ErrorAbort` for a wrong number of arguments. -/
def wrongArgs (c : Call) (expects : String) : Eval (Option Value) :=
  errorAbort (c.name ++ cstr expects ++ decimal c.argc)

/-- `"<label> argument to <name>() can't be empty"` for the first empty argument. -/
def emptyArg (name : Name) : List (String × Bytes) → Option Bytes
  | [] => none
  | (label, value) :: rest =>
      if value = [] then some (cstr label ++ cstr " argument to " ++ name ++ cstr "() can't be empty")
      else emptyArg name rest

/-! ## Volumes -/

/-- `MountFn`. -/
def mountFn (c : Call) : Eval (Option Value) :=
  if c.argc ≠ 4 then wrongArgs c "() expects 4 args, got "
  else
    withArgs c 4 fun
      | [fsType, partitionType, location, mountPoint] =>
          match emptyArg c.name [("fs_type", fsType), ("partition_type", partitionType),
              ("location", location), ("mount_point", mountPoint)] with
          | some msg => return .error msg
          | none => do
              let _ ← ask (.mkdir mountPoint)
              let ok : Bool ← ask (.mount location mountPoint fsType)
              return .ok (.string (if ok then mountPoint else []))
      | _ => .halt

/-- `IsMountedFn`. The message names `unmount`. -/
def isMountedFn (c : Call) : Eval (Option Value) :=
  if c.argc ≠ 1 then wrongArgs c "() expects 1 arg, got "
  else
    withArgs c 1 fun
      | [mountPoint] =>
          if mountPoint = [] then
            return .error (cstr "mount_point argument to unmount() can't be empty")
          else do
            let found : Bool ← ask (.findMountedVolume mountPoint)
            return .ok (.string (if found then mountPoint else []))
      | _ => .halt

/-- `UnmountFn`. -/
def unmountFn (c : Call) : Eval (Option Value) :=
  if c.argc ≠ 1 then wrongArgs c "() expects 1 arg, got "
  else
    withArgs c 1 fun
      | [mountPoint] =>
          if mountPoint = [] then
            return .error (cstr "mount_point argument to unmount() can't be empty")
          else do
            let found : Bool ← ask (.findMountedVolume mountPoint)
            if found then do
              let _ ← ask (.unmountMountedVolume mountPoint)
              return .ok (.string mountPoint)
            else return .ok (.string [])
      | _ => .halt

/-- The end of `FormatFn`. `mount_point` is a variable that was never assigned. An unsupported
`fs_type` ends in NULL without a message. -/
def formatVolume (name : Name) (fsType location fsSize : Bytes) : Option Bytes → Eval (Option Value)
  | none => die
  | some mountPoint =>
      if mountPoint = [] then
        errorAbort (cstr "mount_point argument to " ++ name ++ cstr "() can't be empty")
      else if fsType = cstr "ext4" then
        (own (ask (.makeExt4fs location (strtol 64 fsSize).1 mountPoint))).bind fun (status : Int) =>
          Eval.pure (some (stringValue (if status ≠ 0 then [] else location)))
      else Eval.pure none

/-- `FormatFn` with its arguments read. -/
def formatArgs (name : Name) : List Bytes → Eval (Option Value)
  | [fsType, partitionType, location, fsSize] =>
      match emptyArg name [("fs_type", fsType), ("partition_type", partitionType),
          ("location", location)] with
      | some msg => errorAbort msg
      | none => (own (ask .uninitString)).bind (formatVolume name fsType location fsSize)
  | _ => die

/-- `FormatFn`. It expects 4 arguments and says 5. -/
def formatFn (c : Call) : Eval (Option Value) :=
  if c.argc ≠ 4 then wrongArgs c "() expects 5 args, got "
  else orNull (c.readArgs 0 4) (formatArgs c.name)

/-! ## Files -/

/-- `dirUnlinkHierarchy` or `unlink`. -/
def deletePath (recursive : Bool) (path : Bytes) : OwnProg Bool :=
  if recursive then ask (.dirUnlinkHierarchy path) else ask (.unlink path)

/-- Delete the paths one after another and count the successes. -/
def deletePaths (recursive : Bool) : List Bytes → Nat → OwnProg Nat
  | [], success => return success
  | path :: paths, success => do
      let ok : Bool ← deletePath recursive path
      deletePaths recursive paths (if ok then success + 1 else success)

/-- `DeleteFn` after its arguments. When argument `k` is NULL, the loop that frees the arguments
before it increments the wrong variable: it frees the first of them again and again. -/
def deleteRead (c : Call) : Except Nat (List Bytes) → Eval (Option Value)
  | .error 0 => Eval.pure none
  | .error (_ + 1) => die
  | .ok paths =>
      finish do
        let success ← deletePaths (c.name = cstr "delete_recursive") paths 0
        return .ok (.string (decimal success))

/-- `DeleteFn`. -/
def deleteFn (c : Call) : Eval (Option Value) := (c.readFrom c.argc 0).bind (deleteRead c)

/-- `unlink` and `symlink` for each source. -/
def symlinkAll (target : Bytes) : List Bytes → OwnProg Unit
  | [] => return ()
  | src :: srcs => do
      let _ ← ask (.unlink src)
      let _ ← ask (.symlink target src)
      symlinkAll target srcs

/-- `SymlinkFn`. -/
def symlinkFn (c : Call) : Eval (Option Value) :=
  if c.argc = 0 then wrongArgs c "() expects 1+ args, got "
  else
    orNull (c.evaluate 0) fun target =>
      orNull (c.readArgs 1 (c.argc - 1)) fun srcs =>
        finish do
          let _ ← symlinkAll target srcs
          return .ok (.string [])

/-- A whole string as an unsigned number in an `int`. -/
def wholeUnsigned (w : Nat) (s : Bytes) : Option Int :=
  if (strtoul w s).2 ≠ [] ∨ s = [] then none else some (BitVec.ofNat 32 (strtoul w s).1).toInt

/-- `"<name>: \"<arg>\" not a valid <what>"`. -/
def notValid (name arg : Bytes) (what : String) : Bytes :=
  name ++ cstr ": \"" ++ arg ++ cstr "\" not a valid " ++ cstr what

/-- `chown` and `chmod` for each path. -/
def chownChmodAll (uid gid mode : Int) : List Bytes → OwnProg Unit
  | [] => return ()
  | path :: paths => do
      let _ ← ask (.chown path uid gid)
      let _ ← ask (.chmod path mode)
      chownChmodAll uid gid mode paths

/-- `dirSetHierarchyPermissions` for each path. -/
def setHierarchyAll (uid gid dirMode fileMode : Int) : List Bytes → OwnProg Unit
  | [] => return ()
  | path :: paths => do
      let _ ← ask (.setHierarchyPermissions path uid gid dirMode fileMode)
      setHierarchyAll uid gid dirMode fileMode paths

/-- The recursive half of `SetPermFn`. -/
def setPermRecursive (w : Nat) (name : Name) (uid gid : Int) :
    List Bytes → OwnProg (Except Bytes Result)
  | dirMode :: fileMode :: paths =>
      match wholeUnsigned w dirMode with
      | none => return .error (notValid name dirMode "dirmode")
      | some dir =>
          match wholeUnsigned w fileMode with
          | none => return .error (notValid name fileMode "filemode")
          | some file => do
              let _ ← setHierarchyAll uid gid dir file paths
              return .ok (.string [])
  | _ => .halt

/-- The other half of `SetPermFn`. -/
def setPermFlat (w : Nat) (name : Name) (uid gid : Int) :
    List Bytes → OwnProg (Except Bytes Result)
  | mode :: paths =>
      match wholeUnsigned w mode with
      | none => return .error (notValid name mode "mode")
      | some m => do
          let _ ← chownChmodAll uid gid m paths
          return .ok (.string [])
  | _ => .halt

/-- `SetPermFn` with its arguments read. -/
def setPermArgs (w : Nat) (name : Name) : List Bytes → OwnProg (Except Bytes Result)
  | uidStr :: gidStr :: rest =>
      match wholeUnsigned w uidStr with
      | none => return .error (notValid name uidStr "uid")
      | some uid =>
          match wholeUnsigned w gidStr with
          | none => return .error (notValid name gidStr "gid")
          | some gid =>
              if name = cstr "set_perm_recursive" then setPermRecursive w name uid gid rest
              else setPermFlat w name uid gid rest
  | _ => .halt

/-- `SetPermFn`. The message for a wrong number of arguments has two numbers and is given one. -/
def setPermFn (w : Nat) (c : Call) : Eval (Option Value) :=
  if c.argc < (if c.name = cstr "set_perm_recursive" then 5 else 4) then
    finish do
      let garbage : Int ← ask .uninitInt
      return .error (c.name ++ cstr "() expects " ++ decimal c.argc ++ cstr "+ args, got " ++
        decimal garbage)
  else withArgs c c.argc (setPermArgs w c.name)

/-! ## Progress and messages -/

/-- An `int` from a `long`. -/
def toInt32 (v : Int) : Int := (BitVec.ofInt 32 v).toInt

/-- `ShowProgressFn`. -/
def showProgressFn (w : Nat) (c : Call) : Eval (Option Value) :=
  if c.argc ≠ 2 then wrongArgs c "() expects 2 args, got "
  else
    withArgs c 2 fun
      | [frac, sec] => do
          let _ ← ask (.progress frac (some (toInt32 (strtol w sec).1)))
          return .ok (.string frac)
      | _ => .halt

/-- `SetProgressFn`. -/
def setProgressFn (c : Call) : Eval (Option Value) :=
  if c.argc ≠ 1 then wrongArgs c "() expects 1 arg, got "
  else
    withArgs c 1 fun
      | [frac] => do
          let _ ← ask (.progress frac none)
          return .ok (.string frac)
      | _ => .halt

/-- The newline character. -/
def newline : UInt8 := 10

/-- One `ui_print` command for each line, and an empty one. -/
def uiPrintLines : List Bytes → OwnProg Unit
  | [] => do
      let _ ← ask (.cmdPipe (cstr "ui_print\n"))
      return ()
  | line :: lines => do
      let _ ← ask (.cmdPipe (cstr "ui_print " ++ line ++ cstr "\n"))
      uiPrintLines lines

/-- What is left of the buffer after `strtok` has cut it: everything up to the end of the first
line. -/
def firstLine (buffer : Bytes) : Bytes :=
  buffer.takeWhile (· = newline) ++ (buffer.dropWhile (· = newline)).takeWhile (· ≠ newline)

/-- `UIPrintFn`. -/
def uiPrintFn (c : Call) : Eval (Option Value) :=
  withArgs c c.argc fun vals => do
    let _ ← uiPrintLines (strtok newline vals.flatten)
    return .ok (.string (firstLine vals.flatten))

/-- `WipeCacheFn`. -/
def wipeCacheFn (c : Call) : Eval (Option Value) :=
  if c.argc ≠ 0 then wrongArgs c "() expects no args, got "
  else
    finish do
      let _ ← ask (.cmdPipe (cstr "wipe_cache\n"))
      return .ok (.bool true)

/-- `RunProgramFn`. -/
def runProgramFn (c : Call) : Eval (Option Value) :=
  if c.argc < 1 then errorAbort (c.name ++ cstr "() expects at least 1 arg")
  else
    withArgs c c.argc fun vals => do
      let status : Int ← ask (.waitForProgram vals)
      return .ok (.string (decimal status))

/-! ## The package -/

/-- `PackageExtractDirFn`. -/
def packageExtractDirFn (c : Call) : Eval (Option Value) :=
  if c.argc ≠ 2 then wrongArgs c "() expects 2 args, got "
  else
    withArgs c 2 fun
      | [zipPath, destPath] => do
          let success : Bool ← ask (.extractRecursive zipPath destPath)
          return .ok (.bool success)
      | _ => .halt

/-- The two-argument version of `PackageExtractFileFn`: extract to a file. -/
def extractFile (zipPath destPath : Bytes) : OwnProg Bool := do
  let entry : Option Int ← ask (.findZipEntry zipPath)
  if entry = none then return false
  else do
    let opened : Bool ← ask (.openForWrite destPath)
    if opened then ask (.extractToFile zipPath destPath) else return false

/-- The one-argument version: the contents of the file. -/
def extractBlob (zipPath : Bytes) : OwnProg Result := do
  let entry : Option Int ← ask (.findZipEntry zipPath)
  match entry with
  | none => return .blob (-1) none
  | some size => do
      let data : Option Bytes ← ask (.extractToBuffer zipPath size)
      return .blob (if data = none then -1 else size) data

/-- `PackageExtractFileFn`. -/
def packageExtractFileFn (c : Call) : Eval (Option Value) :=
  if c.argc ≠ 1 ∧ c.argc ≠ 2 then wrongArgs c "() expects 1 or 2 args, got "
  else if c.argc = 2 then
    withArgs c 2 fun
      | [zipPath, destPath] => do
          let success ← extractFile zipPath destPath
          return .ok (.bool success)
      | _ => .halt
  else
    withArgs c 1 fun
      | [zipPath] => do
          let blob ← extractBlob zipPath
          return .ok blob
      | _ => .halt

/-! ## Retouching -/

/-- `ErrorAbort` unless all is well. -/
def report (ok : Bool) (msg : Bytes) : Eval Unit :=
  if ok then Eval.pure () else setErrmsg (msg.take 4095)

/-- `success && step`: nothing is done after a failure. -/
def andThen {σ : Type} (success : Bool) (step : σ → OwnProg (Bool × σ)) (v : σ) :
    OwnProg (Bool × σ) :=
  if success then step v else return (false, v)

/-- The loop of `RetouchBinariesFn` and `UndoRetouchBinariesFn` over the pairs of library and
digest. `v` are the variables of the loop besides `success`; a failure is reported again for every
pair after it. -/
def pairLoop {σ : Type} (verb : String) (step : Bytes → Bytes → σ → OwnProg (Bool × σ)) :
    List Bytes → Bool → σ → Eval Bool
  | name :: sha1 :: rest, success, v =>
      (own (andThen success (step name sha1) v)).bind fun r =>
        (report r.1 (cstr "Failed to " ++ cstr verb ++ cstr " '" ++ name ++ cstr "'.")).bind fun _ =>
          pairLoop verb step rest r.1 r.2
  | _, success, _ => Eval.pure success

/-- The value that stands for a failure: a string that is NULL. -/
def failedValue : Value := ⟨.string, -1, none⟩

/-- The end of both functions: an entry without a partner is a failure. -/
def pairResult (entries : List Bytes) (success : Bool) : Value :=
  if success ∧ entries.length % 2 = 0 then stringValue (cstr "t") else failedValue

/-- `random_base`, `override_base` and `override_set`. -/
structure RetouchVars where
  randomBase : BitVec 32
  overrideBase : BitVec 32
  overrideSet : Bool

/-- The variables after a library was retouched and left `base` in `override_base`. -/
def RetouchVars.next (v : RetouchVars) (ok : Bool) (base : BitVec 32) : RetouchVars :=
  if ok ∧ base ≠ 0 then ⟨base, base, true⟩ else { v with overrideBase := base }

/-- One library. Once the override is set, `override_base` is not passed any more. -/
def retouchStep (name sha1 : Bytes) (v : RetouchVars) : OwnProg (Bool × RetouchVars) :=
  if v.overrideSet then do
    let r : Bool × BitVec 32 ← ask (.retouchOneLibrary name sha1 v.randomBase none)
    return (r.1, v.next r.1 v.overrideBase)
  else do
    let r : Bool × BitVec 32 ← ask (.retouchOneLibrary name sha1 v.randomBase (some v.overrideBase))
    return (r.1, v.next r.1 r.2)

/-- Randomness from the clock and from `/dev/random`. -/
def randomPages (time : Int) (bits : Nat) : Int := (time.tmod 1024 + (bits % 1024 : Nat)).tmod 1024

/-- The page-aligned offset, never zero. -/
def randomBase (pages : Int) : BitVec 32 :=
  BitVec.ofInt 32 ((if pages = 0 then 1 else pages) * -0x1000)

/-- A number as `%x` prints it. -/
def hexadecimal (v : Int) : Bytes :=
  (Nat.toDigits 16 (v % 2 ^ 32).toNat).map fun c => UInt8.ofNat c.toNat

/-- Choose the offset and announce it. -/
def chooseBase : OwnProg (BitVec 32) := do
  let time : Int ← ask .time
  let bits : Nat ← ask .devRandom
  let pages := randomPages time bits
  let _ ← ask (.cmdPipe (cstr "ui_print Random offset: 0x" ++ hexadecimal pages ++ cstr "\n"))
  let _ ← ask (.cmdPipe (cstr "ui_print\n"))
  return randomBase pages

/-- `RetouchBinariesFn` with its arguments read. -/
def retouchArgs : Option (List Bytes) → Eval (Option Value)
  | none => Eval.pure (some (stringValue (cstr "t")))
  | some entries =>
      (own chooseBase).bind fun base =>
        (pairLoop "retouch" retouchStep entries true ⟨base, base, false⟩).bind fun success =>
          Eval.pure (some (pairResult entries success))

/-- `RetouchBinariesFn`. An argument that is NULL gives `"t"`. -/
def retouchBinariesFn (c : Call) : Eval (Option Value) := (c.readArgs 0 c.argc).bind retouchArgs

/-- One library put back. -/
def undoStep (name sha1 : Bytes) (v : Unit) : OwnProg (Bool × Unit) := do
  let r : Bool × BitVec 32 ← ask (.retouchOneLibrary name sha1 0 none)
  return (r.1, v)

/-- `UndoRetouchBinariesFn` with its arguments read. -/
def undoArgs : Option (List Bytes) → Eval (Option Value)
  | none => Eval.pure (some (stringValue (cstr "t")))
  | some entries =>
      (pairLoop "unretouch" undoStep entries true ()).bind fun success =>
        Eval.pure (some (pairResult entries success))

/-- `UndoRetouchBinariesFn`. -/
def undoRetouchBinariesFn (c : Call) : Eval (Option Value) := (c.readArgs 0 c.argc).bind undoArgs

/-! ## Properties -/

/-- `GetPropFn`. -/
def getPropFn (c : Call) : Eval (Option Value) :=
  if c.argc ≠ 1 then wrongArgs c "() expects 1 arg, got "
  else
    withArgs c 1 fun
      | [key] => do
          let value : Bytes ← ask (.propertyGet key)
          return .ok (.string value)
      | _ => .halt

/-- The value of `key` in the lines of a property file, empty if there is none. -/
def findProp (name filename key : Bytes) : List Bytes → Except Bytes Bytes
  | [] => .ok []
  | line :: lines =>
      let line := line.dropWhile isspace
      -- a comment or a blank line
      if line = [] ∨ line.head? = some 35 then findProp name filename key lines
      else if (61 : UInt8) ∉ line then
        .error (name ++ cstr ": malformed line \"" ++ line ++ cstr "\": " ++ filename ++
          cstr " not a prop file?")
      else if key ≠ (line.takeWhile (· ≠ 61)).rdropWhile isspace then
        findProp name filename key lines
      else .ok ((((line.dropWhile (· ≠ 61)).drop 1).dropWhile isspace).rdropWhile isspace)

/-- `MAX_FILE_GETPROP_SIZE`. -/
def maxFileGetpropSize : Nat := 65536

/-- The scan of the buffer. A file without a line makes `strtok` return NULL, which is followed. -/
def scanProps (name filename key data : Bytes) : OwnProg (Except Bytes Result) :=
  match strtok newline (data.takeWhile (· ≠ 0)) with
  | [] => .halt
  | line :: lines => return (findProp name filename key (line :: lines)).map Result.string

/-- Read the property file. -/
def readProps (name filename key : Bytes) (size : Nat) : OwnProg (Except Bytes Result) := do
  let opened : Bool ← ask (.openForRead filename)
  if !opened then do
    let reason : Bytes ← ask .strerror
    return .error (name ++ cstr ": failed to open " ++ filename ++ cstr ": " ++ reason)
  else do
    let read : Option Bytes ← ask (.fread filename size)
    match read with
    | none =>
        return .error (name ++ cstr ": failed to read " ++ decimal (size + 1) ++ cstr " bytes from " ++
          filename)
    | some data => scanProps name filename key data

/-- `FileGetPropFn` with its arguments read. -/
def fileGetProp (name : Name) : List Bytes → OwnProg (Except Bytes Result)
  | [filename, key] => do
      let st : Option Nat ← ask (.stat filename)
      match st with
      | none => do
          let reason : Bytes ← ask .strerror
          return .error (name ++ cstr ": failed to stat \"" ++ filename ++ cstr "\": " ++ reason)
      | some size =>
          if size > maxFileGetpropSize then
            return .error (filename ++ cstr " too large for " ++ name ++ cstr " (max " ++
              decimal maxFileGetpropSize ++ cstr ")")
          else readProps name filename key size
  | _ => .halt

/-- `FileGetPropFn`. The number of arguments is not checked. -/
def fileGetPropFn (c : Call) : Eval (Option Value) := withArgs c 2 (fileGetProp c.name)

/-! ## Patches -/

/-- A byte count, `none` if the string has no number. -/
def byteCount (w : Nat) (s : Bytes) : Option Nat :=
  if (strtol w s).2 = s then none else some ((strtol w s).1 % 2 ^ w).toNat

/-- `ApplyPatchSpaceFn`. The number of arguments is not checked. -/
def applyPatchSpaceFn (w : Nat) (c : Call) : Eval (Option Value) :=
  withArgs c 1 fun
    | [bytesStr] =>
        match byteCount w bytesStr with
        | none =>
            return .error (c.name ++ cstr "(): can't parse \"" ++ bytesStr ++
              cstr "\" as byte count\n\n")
        | some bytes => do
            let full : Int ← ask (.cacheSizeCheck bytes)
            return .ok (.bool (full = 0))
    | _ => .halt

/-- Digests and patches alternate: the pairs, or the message for the first value of a wrong type. -/
def patchPairs (name : Name) : Nat → List Value → Except Bytes (List (Option Bytes × Value))
  | i, sha1 :: patch :: rest =>
      if sha1.type ≠ .string then
        .error (name ++ cstr "(): sha-1 #" ++ decimal i ++ cstr " is not string")
      else if patch.type ≠ .blob then
        .error (name ++ cstr "(): patch #" ++ decimal i ++ cstr " is not blob")
      else (patchPairs name (i + 1) rest).map ((sha1.data, patch) :: ·)
  | _, _ => .ok []

/-- Call `applypatch`; it can kill the process. -/
def runApplypatch (source target sha1 : Bytes) (size : Nat)
    (patches : List (Option Bytes × Value)) : OwnProg (Except Bytes Result) := do
  let result : Option Int ← ask (.applypatch source target sha1 size patches)
  match result with
  | none => .halt
  | some r => return .ok (.bool (r = 0))

/-- The values of `ApplyPatchFn`. That there are none because one was NULL is not noticed, and the
null pointer is followed. -/
def applyPatchValues (name source target sha1 : Bytes) (size : Nat) :
    Option (List Value) → Eval (Option Value)
  | none => die
  | some values =>
      match patchPairs name 0 values with
      | .error msg => errorAbort msg
      | .ok patches => finish (runApplypatch source target sha1 size patches)

/-- `ApplyPatchFn` after the first four arguments. -/
def applyPatchRest (w : Nat) (c : Call) : List Bytes → Eval (Option Value)
  | [source, target, sha1, sizeStr] =>
      match byteCount w sizeStr with
      | none =>
          errorAbort (c.name ++ cstr "(): can't parse \"" ++ sizeStr ++ cstr "\" as byte count")
      | some size =>
          (c.readValues 4 (c.argc - 4)).bind (applyPatchValues c.name source target sha1 size)
  | _ => die

/-- `ApplyPatchFn`. -/
def applyPatchFn (w : Nat) (c : Call) : Eval (Option Value) :=
  if c.argc < 6 ∨ c.argc % 2 = 1 then
    wrongArgs c "(): expected at least 6 args and an even number, got "
  else orNull (c.readArgs 0 4) (applyPatchRest w c)

/-- Call `applypatch_check`; it can kill the process. -/
def runCheck (filename : Bytes) (sha1s : Option (List Bytes)) : OwnProg (Except Bytes Result) := do
  let result : Option Int ← ask (.applypatchCheck filename sha1s)
  match result with
  | none => .halt
  | some r => return .ok (.bool (r = 0))

/-- The digests of `ApplyPatchCheckFn`. A NULL list is passed on, and then followed. -/
def checkDigests (filename : Bytes) : Option (List Bytes) → Eval (Option Value)
  | none => (own (runCheck filename none)).bind fun _ => die
  | some sha1s => finish (runCheck filename (some sha1s))

/-- `ApplyPatchCheckFn` after the file name. -/
def applyPatchCheckRest (c : Call) : List Bytes → Eval (Option Value)
  | [filename] => (c.readArgs 1 (c.argc - 1)).bind (checkDigests filename)
  | _ => die

/-- `ApplyPatchCheckFn`. -/
def applyPatchCheckFn (c : Call) : Eval (Option Value) :=
  if c.argc < 1 then wrongArgs c "(): expected at least 1 arg, got "
  else orNull (c.readArgs 0 1) (applyPatchCheckRest c)

/-! ## File contents -/

/-- `PrintSha1`. -/
def printSha1 (digest : Bytes) : Bytes :=
  digest.flatMap fun (b : UInt8) => [hexChar (b >>> 4), hexChar (b &&& 15)]
where
  /-- A hexadecimal digit. -/
  hexChar (d : UInt8) : UInt8 := if d < 10 then 48 + d else 87 + d

/-- The first value that is a string for the digest; values of other types are skipped. A string
that is NULL is followed. -/
def matchDigest (digest : Bytes) : List Value → Eval (Option Value)
  | [] => Eval.pure (some (stringValue []))
  | v :: rest =>
      if v.type ≠ .string then matchDigest digest rest
      else
        match v.data with
        | none => die
        | some str =>
            if parseSha1 str = some digest then Eval.pure (some v) else matchDigest digest rest

/-- `Sha1CheckFn` with its arguments read. -/
def sha1CheckArgs (L : Libs) : List Value → Eval (Option Value)
  | [] => die
  | v :: rest =>
      if v.size < 0 then Eval.pure (some (stringValue []))
      else
        match v.data with
        | none => die
        | some data =>
            if rest = [] then Eval.pure (some (stringValue (printSha1 (L.sha1 data))))
            else matchDigest (L.sha1 data) rest

/-- `Sha1CheckFn`. -/
def sha1CheckFn (L : Libs) (c : Call) : Eval (Option Value) :=
  if c.argc < 1 then errorAbort (c.name ++ cstr "() expects at least 1 arg")
  else orNull (c.readValues 0 c.argc) (sha1CheckArgs L)

/-- `ReadFileFn`. -/
def readFileFn (c : Call) : Eval (Option Value) :=
  if c.argc ≠ 1 then wrongArgs c "() expects 1 arg, got "
  else
    withArgs c 1 fun
      | [filename] => do
          let contents : Option Bytes ← ask (.loadFileContents filename)
          match contents with
          | none => do
              let reason : Bytes ← ask .strerror
              return .error (c.name ++ cstr "() loading \"" ++ filename ++ cstr "\" failed: " ++ reason)
          | some data => return .ok (.blob data.length (some data))
      | _ => .halt

end OpenRecovery.Updater
