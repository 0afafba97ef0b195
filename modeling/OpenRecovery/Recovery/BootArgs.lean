import OpenRecovery.Crash.Program
import OpenRecovery.Recovery.CommandPipe
import OpenRecovery.Storage.Pointer

/-!
# The arguments of the recovery

`get_args` and the part of `main` that carries out the arguments, up to the clearing of the boot
message in `finish_recovery`, as a program over the operations that reach the storage.

A boot message is given by the strings in its fields; it is written as a whole. Behind the strings
the written message also has bytes of the old one, which nothing reads. What is printed and drawn is
left out, and so is the menu, which `prompt_and_wait` shows after it has cleared the boot message.
-/

set_option autoImplicit false

namespace OpenRecovery.Recovery

open OpenRecovery.Crash OpenRecovery.Storage OpenRecovery.Updater

def maxArgLength : ℕ := 4096
def maxArgs : ℕ := 100

/-- `struct bootloader_message`. -/
structure BootMessage where
  command : Bytes
  status : Bytes
  recovery : Bytes

/-- The message that is all zero. -/
def BootMessage.zero : BootMessage := ⟨[], [], []⟩

/-- `strlcpy` to a buffer of `size` bytes: the string that is there then. -/
def strlcpy (size : ℕ) (src : Bytes) : Bytes := src.take (size - 1)

/-- `strlcat` to the string `dst`. -/
def strlcat (size : ℕ) (dst src : Bytes) : Bytes := (dst ++ src).take (size - 1)

/-- What has been cut off before makes no difference. -/
theorem strlcat_take (size : ℕ) (dst src : Bytes) :
    strlcat size (dst.take (size - 1)) src = (dst ++ src).take (size - 1) := by
  rw [strlcat, List.take_append, List.take_append, List.take_take, min_self, List.length_take]
  congr 2
  omega

/-! ## Operations -/

/-- What the program does to the storage. -/
inductive BootOp where
  | getMessage
  | setMessage (boot : BootMessage)
  | readCommand
  | writeFile (path : Bytes)
  | install (package : Bytes) (wipeCache : Bool)
  | erase (volume : Bytes)

/-- The answers: `none` for a message or a command file that cannot be read; for an installation
whether it was successful, and `wipe_cache` after it. -/
abbrev BootOp.Res : BootOp → Type
  | .getMessage => Option BootMessage
  | .setMessage _ => Bool
  | .readCommand => Option Bytes
  | .writeFile _ => Bool
  | .install _ _ => Bool × Bool
  | .erase _ => Bool

abbrev BootProg := Prog BootOp BootOp.Res

/-! ## get_args -/

/-- The arguments of a boot message whose first line is `recovery`. -/
def bootArgs (recovery : Bytes) : Option (List Bytes) :=
  -- the last byte of the field is overwritten with NUL before it is read
  match strtok newline (cText (recovery.take 1023)) with
  | first :: rest => if first = cstr "recovery" then some (rest.take (maxArgs - 1)) else none
  | [] => none

def isLineEnd (c : UInt8) : Bool := c = 13 || c = newline

/-- At most `n` lines of the command file. `none`: a line has no token, and `strdup` gets `NULL`. -/
def readLines : ℕ → Bytes → Option (List Bytes)
  | 0, _ => some []
  | n + 1, stream =>
      if stream = [] then some []
      else
        -- a line longer than the buffer goes on as the next argument
        match nextToken isLineEnd (cText (fgets (maxArgLength - 1) stream).1) with
        | none => none
        | some arg => (readLines n (fgets (maxArgLength - 1) stream).2).map (arg :: ·)

/-- The arguments of the command file, none if it cannot be opened. -/
def commandArgs : Option Bytes → Option (List Bytes)
  | none => some []
  | some content => readLines (maxArgs - 1) content

/-- The recovery field with the arguments in it. -/
def encodeArgs (args : List Bytes) : Bytes :=
  args.foldl (fun field arg => strlcat 1024 (strlcat 1024 field arg) [newline])
    (strlcpy 1024 (cstr "recovery\n"))

/-- `get_args`, from the arguments behind the program's name to those. -/
def getArgs (args : List Bytes) : BootProg (List Bytes) := do
  let message ← Prog.call BootOp.getMessage
  let boot := message.getD .zero
  -- arguments on the command line come before the message, and the message before the file
  let args := if args = [] then (bootArgs boot.recovery).getD args else args
  let args ←
    if args = [] then do
      let content ← Prog.call BootOp.readCommand
      match commandArgs content with
      | some args => pure args
      | none => Prog.halt
    else pure args
  let _ ← Prog.call (BootOp.setMessage
    { boot with command := strlcpy 32 (cstr "boot-recovery"), recovery := encodeArgs args })
  pure args

/-! ## getopt_long -/

structure LongOption where
  name : Bytes
  required : Bool
  val : Char

/-- `OPTIONS`. -/
def options : List LongOption :=
  [⟨cstr "send_intent", true, 's'⟩, ⟨cstr "update_package", true, 'u'⟩, ⟨cstr "wipe_data", false, 'w'⟩,
    ⟨cstr "wipe_cache", false, 'c'⟩, ⟨cstr "show_text", false, 't'⟩]

/-- The option of a name, which may be cut short. -/
def findOption (opts : List LongOption) (name : Bytes) : Option LongOption :=
  match opts.find? fun o => o.name = name with
  | some o => some o
  | none =>
    match opts.filter fun o => name.isPrefixOf o.name with
    -- only one option begins so
    | [o] => some o
    | _ => none

/-- `getopt_long` without short options: the values it returns with the arguments of the options.
Other arguments are passed over as far as `--`. -/
def getoptLong (opts : List LongOption) : List Bytes → List (Char × Bytes)
  | [] => []
  | arg :: args =>
      if arg = cstr "--" then []
      else if (cstr "--").isPrefixOf arg then
        let name := (arg.drop 2).takeWhile (· ≠ 61)
        let value := (arg.drop 2).dropWhile (· ≠ 61)
        match findOption opts name with
        | none => ('?', []) :: getoptLong opts args
        | some o =>
          if o.required then
            match value, args with
            | _ :: value, args => (o.val, value) :: getoptLong opts args
            -- the argument of the option is missing
            | [], [] => [('?', [])]
            | [], value :: args => (o.val, value) :: getoptLong opts args
          else if value = [] then (o.val, []) :: getoptLong opts args
          else ('?', []) :: getoptLong opts args
      else if (cstr "-").isPrefixOf arg then
        (arg.drop 1).map (fun _ => ('?', [])) ++ getoptLong opts args
      else getoptLong opts args

/-! ## main -/

/-- The variables that the options set. -/
structure Settings where
  sendIntent : Option Bytes
  updatePackage : Option Bytes
  wipeData : Bool
  wipeCache : Bool

/-- One round of the loop over the options. -/
def Settings.set (o : Settings) : Char × Bytes → Settings
  | ('s', optarg) => { o with sendIntent := some optarg }
  | ('u', optarg) => { o with updatePackage := some optarg }
  | ('w', _) => { o with wipeData := true, wipeCache := true }
  | ('c', _) => { o with wipeCache := true }
  | _ => o

def settings (args : List Bytes) : Settings :=
  (getoptLong options args).foldl Settings.set ⟨none, none, false, false⟩

/-- The message of `set_sdcard_update_bootloader_message`. -/
def sdcardMessage : BootMessage :=
  ⟨strlcpy 32 (cstr "boot-recovery"), [], strlcpy 1024 (cstr "recovery\n")⟩

/-- `erase_volume`; whether it was successful. -/
def eraseVolume (volume : Bytes) : BootProg Bool := Prog.call (BootOp.erase volume)

/-- The installation of a package. -/
def updateFrom (package : Bytes) (wipeCache : Bool) : BootProg Bool := do
  -- from here on a reboot starts the recovery again, without the package
  let _ ← Prog.call (BootOp.setMessage sdcardMessage)
  let result ← Prog.call (BootOp.install package wipeCache)
  -- whether `/cache` could be wiped does not count
  if result.1 ∧ result.2 then
    let _ ← eraseVolume (cstr "/cache")
    pure result.1
  else pure result.1

/-- `--wipe_data`. -/
def wipeData (wipeCache : Bool) : BootProg Bool := do
  let data ← eraseVolume (cstr "/data")
  if wipeCache then
    let cache ← eraseVolume (cstr "/cache")
    pure (data && cache)
  else pure data

/-- The files that `finish_recovery` writes before it clears the boot message. -/
def writeLogs (sendIntent : Option Bytes) : BootProg Unit := do
  if sendIntent.isSome then
    let _ ← Prog.call (BootOp.writeFile (cstr "/cache/recovery/intent"))
  let _ ← Prog.call (BootOp.writeFile (cstr "/cache/recovery/log"))
  let _ ← Prog.call (BootOp.writeFile (cstr "/cache/recovery/last_log"))
  let _ ← Prog.call (BootOp.writeFile (cstr "/cache/recovery/last_install"))

/-- `main` from the end of `get_args` to the clearing of the boot message. If the command was not
carried out, it is `prompt_and_wait` that clears it. -/
def mainCommand (args : List Bytes) : BootProg Unit := do
  let o := settings args
  let success ←
    match o.updatePackage with
    | some package => updateFrom package o.wipeCache
    | none =>
      if o.wipeData then wipeData o.wipeCache
      else if o.wipeCache then eraseVolume (cstr "/cache")
      else pure false
  writeLogs (if success then o.sendIntent else none)

/-! ## The device -/

/-- What the device does: how a package comes out, and whether formatting `/cache` gets as far as
removing the command file. -/
structure Device where
  install : Bytes → Bool → Bool × Bool
  formats : Bool

/-- What a reboot keeps: the boot message, if `/misc` can be read and written, and the command
file. -/
structure Stored where
  misc : Option BootMessage
  command : Option Bytes

def Stored.erase (dev : Device) (volume : Bytes) (s : Stored) : Stored :=
  if volume = cstr "/cache" ∧ dev.formats = true then { s with command := none } else s

def Stored.setMessage (boot : BootMessage) (s : Stored) : Stored :=
  { s with misc := s.misc.map fun _ => boot }

/-- A package leaves the boot message and the command file alone. A crash inside a format may come
after the command file has gone. -/
def bootMachine (dev : Device) : Machine Stored BootOp BootOp.Res where
  allowed s o r :=
    match o, r with
    | .getMessage, r => r = s.misc
    | .readCommand, r => r = s.command
    | .install package wipeCache, r => r = dev.install package wipeCache
    | _, _ => True
  apply s o _ :=
    match o with
    | .setMessage boot => s.setMessage boot
    | .erase volume => s.erase dev volume
    | _ => s
  damaged s o t :=
    match o with
    | .erase volume => t = s.erase dev volume
    | _ => False

end OpenRecovery.Recovery
