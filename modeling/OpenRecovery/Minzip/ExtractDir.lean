import OpenRecovery.Crash.Trace
import OpenRecovery.Minzip.Archive

/-!
# Extraction of a directory

`mzExtractRecursive` walks through the sorted entries and extracts those under `zipDir`. It gives up
on the first entry that does not match after one that did. The path of the target is put together in
a buffer that starts with `targetDir`; the buffer is used again for the next entry, and grows when
it is too small.

What it does with files and with the data of an entry are operations that may be answered in any
way. Memory is there when it is asked for, as long as less than half of the address space is asked
for; the lengths of the paths are small numbers then. A write outside a buffer, and a string that is
not in its buffer, is `none`.
-/

set_option autoImplicit false

namespace OpenRecovery.Minzip

open OpenRecovery.Storage
open OpenRecovery.Crash

/-! ## Buffers -/

/-- Memory from `malloc`: the bytes that were not written yet are `none`. -/
abbrev Buffer := List (Option UInt8)

namespace Buffer

/-- `realloc`, also from NULL. -/
def realloc (buf : Option Buffer) (n : Nat) : Buffer :=
  let old := buf.getD []
  old.take n ++ List.replicate (n - old.length) none

/-- `memcpy` into the buffer. -/
def memcpy (buf : Buffer) (pos : Nat) (data : Bytes) : Option Buffer :=
  if pos + data.length ≤ buf.length then
    some (buf.take pos ++ (data.map some ++ buf.drop (pos + data.length)))
  else none

/-- The string at the start of the buffer. -/
def string : Buffer → Option Bytes
  | [] => none
  | none :: _ => none
  | some c :: buf => if c = 0 then some [] else (string buf).map (c :: ·)

end Buffer

/-! ## Target paths -/

/-- `MzPathHelper`; `buf` is `none` for NULL. -/
structure MzPathHelper where
  targetDir : Bytes
  zipDir : Bytes
  buf : Option Buffer
  targetDirLen : Nat
  zipDirLen : Nat
  bufLen : Nat

/-- The part of `targetEntryPath` that is done the first time only: the buffer gets the target
directory with a slash. -/
def MzPathHelper.start (helper : MzPathHelper) (buf : Buffer) : Option (Buffer × Nat) := do
  let buf ← buf.memcpy 0 (helper.targetDir.take helper.targetDirLen)
  -- `needLen` has room for this slash
  if helper.targetDirLen = 0 ∨ buf[helper.targetDirLen - 1]? ≠ some (some slash) then
    let buf ← buf.memcpy helper.targetDirLen [slash]
    return (buf, helper.targetDirLen + 1)
  else return (buf, helper.targetDirLen)

/-- `targetEntryPath`, for a name that is not shorter than `zipDir`. -/
def targetEntryPath (helper : MzPathHelper) (fileName : Bytes) : Option MzPathHelper := do
  let needLen := helper.targetDirLen + 1 + (fileName.length - helper.zipDirLen) + 1
  let grown : MzPathHelper :=
    if helper.bufLen < needLen then
      { helper with buf := some (Buffer.realloc helper.buf (needLen * 2)), bufLen := needLen * 2 }
    else helper
  let buf ← grown.buf
  let (buf, targetDirLen) ←
    -- whether this is the first use is seen from the buffer before it grew
    if helper.buf = none then grown.start buf else some (buf, grown.targetDirLen)
  let buf ← buf.memcpy targetDirLen (fileName.drop helper.zipDirLen)
  let buf ← buf.memcpy (targetDirLen + (fileName.length - helper.zipDirLen)) [0]
  return { grown with buf := some buf, targetDirLen }

/-! ## Operations -/

/-- `struct utimbuf`. -/
structure Utimbuf where
  actime : Int
  modtime : Int
  deriving DecidableEq

/-- What an extraction does. -/
inductive ExtractOp where
  | dirCreateHierarchy (path : Bytes) (mode : Nat) (timestamp : Option Utimbuf)
      (stripFileName : Bool)
  /-- `mzReadZipEntry` -/
  | readEntry (e : ZipEntry) (bufLen : Int)
  | symlink (linkTarget : Buffer) (path : Bytes)
  | creat (path : Bytes) (mode : Nat)
  /-- `mzExtractZipEntryToFile` on the file that `creat` has opened, and `close` -/
  | extractToFile (e : ZipEntry)
  | utime (path : Bytes) (timestamp : Utimbuf)
  | callback (path : Bytes)
  deriving DecidableEq

/-- The answers: success, or for `readEntry` what was read. -/
def ExtractOp.Res : ExtractOp → Type
  | .dirCreateHierarchy .. => Bool
  | .readEntry .. => Option Bytes
  | .symlink .. => Bool
  | .creat .. => Bool
  | .extractToFile .. => Bool
  | .utime .. => Bool
  | .callback .. => Unit

/-- A program that extracts. -/
abbrev ExtractProg (α : Type) := Prog ExtractOp ExtractOp.Res α

def dirCreateHierarchy (path : Bytes) (mode : Nat) (timestamp : Option Utimbuf)
    (stripFileName : Bool) : ExtractProg Bool :=
  Prog.call (ExtractOp.dirCreateHierarchy path mode timestamp stripFileName)

def sysReadEntry (e : ZipEntry) (bufLen : Int) : ExtractProg (Option Bytes) :=
  Prog.call (ExtractOp.readEntry e bufLen)

def sysSymlink (linkTarget : Buffer) (path : Bytes) : ExtractProg Bool :=
  Prog.call (ExtractOp.symlink linkTarget path)

def sysCreat (path : Bytes) (mode : Nat) : ExtractProg Bool := Prog.call (ExtractOp.creat path mode)

def sysExtractToFile (e : ZipEntry) : ExtractProg Bool := Prog.call (ExtractOp.extractToFile e)

def sysUtime (path : Bytes) (timestamp : Utimbuf) : ExtractProg Bool :=
  Prog.call (ExtractOp.utime path timestamp)

def sysCallback (path : Bytes) : ExtractProg Unit := Prog.call (ExtractOp.callback path)

def unzipDirmode : Nat := 0o755
def unzipFilemode : Nat := 0o644

def mzExtractFilesOnly : BitVec 32 := 1
def mzExtractDryRun : BitVec 32 := 2

/-- `mzIsZipEntrySymlink`, with `S_ISLNK` of the mode. -/
def mzIsZipEntrySymlink (e : ZipEntry) : Bool :=
  if e.versionMadeBy / 256 * 256 = cenvemUnix then
    decide (BitVec.ofInt 32 (e.externalFileAttributes / 65536) &&& 0o170000 = 0o120000)
  else false

/-! ## One entry -/

/-- What does not change in a run. -/
structure ExtractArgs where
  flags : BitVec 32
  timestamp : Option Utimbuf
  callback : Bool
  /-- the byte in front of the name of an entry, which is read for an empty name -/
  byteBefore : Nat → UInt8

/-- How an entry ends: go on with the next one, `break`, or a write outside a buffer; with the value
of `ok`. -/
inductive EntryEnd where
  | next (ok : Bool)
  | stop (ok : Bool)
  | undefined
  deriving DecidableEq

/-- The call of the callback, if there is one. -/
def notify (args : ExtractArgs) (targetFile : Bytes) : ExtractProg Unit :=
  if args.callback then sysCallback targetFile else .ret ()

/-- A directory. -/
def extractDirectory (args : ExtractArgs) (targetFile : Bytes) (ok : Bool) : ExtractProg EntryEnd :=
  if args.flags &&& mzExtractFilesOnly = 0 then do
    let created ← dirCreateHierarchy targetFile unzipDirmode args.timestamp false
    .ret (if created then .next ok else .stop false)
  else .ret (.next ok)

/-- A symbolic link. -/
def extractSymlink (e : ZipEntry) (targetFile : Bytes) : ExtractProg EntryEnd :=
  if e.uncompLen = 0 then .ret (.stop false)
  -- `malloc` of half of the address space or more
  else if 2 ^ 31 ≤ size (e.uncompLen + 1) then .ret (.stop false)
  else do
    match ← sysReadEntry e e.uncompLen with
    | none => .ret (.stop false)
    | some data =>
        -- the NUL would be written in front of the buffer
        if e.uncompLen < 0 then .ret .undefined
        else do
          let linkTarget := data.map some ++ List.replicate (e.uncompLen.toNat - data.length) none ++
            [some 0]
          let linked ← sysSymlink linkTarget targetFile
          -- `ok` is the answer of `symlink` here, whatever it was before
          .ret (if linked then .next true else .stop false)

/-- A regular file. The `ok` of the source that gets the answers of `mzExtractZipEntryToFile` and
`utime` hides the one that is returned, which keeps its value. -/
def extractFile (args : ExtractArgs) (e : ZipEntry) (targetFile : Bytes) (ok : Bool) :
    ExtractProg EntryEnd := do
  let opened ← sysCreat targetFile unzipFilemode
  if opened then do
    let extracted ← sysExtractToFile e
    if extracted then
      match args.timestamp with
      | none => .ret (.next ok)
      | some timestamp => do
          let touched ← sysUtime targetFile timestamp
          .ret (if touched then .next ok else .stop ok)
    else .ret (.stop ok)
  else .ret (.stop false)

/-- What is not a directory: its directory is made first. -/
def extractOther (args : ExtractArgs) (e : ZipEntry) (targetFile : Bytes) (ok : Bool) :
    ExtractProg EntryEnd := do
  let created ← dirCreateHierarchy targetFile unzipDirmode args.timestamp true
  if created then
    if args.flags &&& mzExtractFilesOnly = 0 ∧ mzIsZipEntrySymlink e = true then
      extractSymlink e targetFile
    else extractFile args e targetFile ok
  else .ret (.stop false)

/-- The `i`-th entry of the archive is a directory. -/
def ExtractArgs.isDirectory (args : ExtractArgs) (i : Nat) (e : ZipEntry) : Bool :=
  e.fileName.getLast?.getD (args.byteBefore i) = slash

/-- The `i`-th entry of the archive without the callback. -/
def extractBody (args : ExtractArgs) (i : Nat) (e : ZipEntry) (targetFile : Bytes) (ok : Bool) :
    ExtractProg EntryEnd :=
  if args.isDirectory i e then extractDirectory args targetFile ok
  else extractOther args e targetFile ok

/-- An entry that begins with `zipDir`. -/
def extractEntry (args : ExtractArgs) (i : Nat) (e : ZipEntry) (targetFile : Bytes) (ok : Bool) :
    ExtractProg EntryEnd := do
  match ← extractBody args i e targetFile ok with
  | .next ok => do
      notify args targetFile
      .ret (.next ok)
  | .stop ok => .ret (.stop ok)
  | .undefined => .ret .undefined

/-! ## The loop -/

/-- The loop over the entries: the result, and the target paths in the order in which they were
assembled. -/
def extractLoop (args : ExtractArgs) (zpath : Bytes) :
    Slots → Nat → Bool → Bool → MzPathHelper → List Bytes → ExtractProg (Option (Bool × List Bytes))
  | [], _, _, ok, _, paths => .ret (some (ok, paths))
  | none :: _, _, _, _, _, _ => .ret none
  | some e :: slots, i, seenMatch, ok, helper, paths =>
      if e.fileName.length < zpath.length then
        if seenMatch then .ret (some (ok, paths))
        else extractLoop args zpath slots (i + 1) seenMatch ok helper paths
      else if strncmp e.fileName zpath ≠ 0 then
        if seenMatch then .ret (some (ok, paths))
        else extractLoop args zpath slots (i + 1) seenMatch ok helper paths
      else
        match targetEntryPath helper e.fileName with
        | none => .ret none
        | some helper =>
            match helper.buf.bind Buffer.string with
            | none => .ret none
            | some targetFile =>
                if args.flags &&& mzExtractDryRun ≠ 0 then do
                  notify args targetFile
                  extractLoop args zpath slots (i + 1) true ok helper (paths ++ [targetFile])
                else do
                  let entryEnd ← extractEntry args i e targetFile ok
                  match entryEnd with
                  | .next ok =>
                      extractLoop args zpath slots (i + 1) true ok helper (paths ++ [targetFile])
                  | .stop ok => .ret (some (ok, paths ++ [targetFile]))
                  | .undefined => .ret none

/-- `zpath`: `zipDir` with one slash at the end, unless it is empty. -/
def zipPath (zipDir : Bytes) : Bytes :=
  if 0 < zipDir.length then
    if zipDir[zipDir.length - 1]? ≠ some slash then zipDir ++ [slash] else zipDir
  else zipDir

/-- `mzExtractRecursive`, with the target paths. -/
def mzExtractRecursive (archive : ZipArchive) (zipDir targetDir : Bytes) (args : ExtractArgs) :
    ExtractProg (Option (Bool × List Bytes)) :=
  if zipDir.head? = some slash then .ret (some (false, []))
  else if targetDir.head? ≠ some slash then .ret (some (false, []))
  else
    let zpath := zipPath zipDir
    let helper : MzPathHelper :=
      { targetDir := targetDir, zipDir := zpath, buf := none, targetDirLen := targetDir.length,
        zipDirLen := zpath.length, bufLen := 0 }
    extractLoop args zpath archive.pEntries 0 false true helper []

/-- `PackageExtractDirFn` with its arguments: the text of the value. -/
def packageExtractDir (byteBefore : Nat → UInt8) (za : ZipArchive) (zipPath destPath : Bytes) :
    ExtractProg (Option Bytes) := do
  -- 8/1/2008
  let timestamp : Utimbuf := ⟨1217592000, 1217592000⟩
  let r ← mzExtractRecursive za zipPath destPath
    { flags := mzExtractFilesOnly, timestamp := some timestamp, callback := false, byteBefore }
  match r with
  | none => .ret none
  | some (success, _) => .ret (some (if success then cstr "t" else []))

end OpenRecovery.Minzip
