import OpenRecovery.Recovery.BootArgs
import OpenRecovery.Storage.Qsort

/-!
# The browsers for packages and scripts

`update_directory` and `script_directory`, which differ in the names they offer (`Browser`). The
arrays of lines grow by doubling, with checked writes. The browser calls itself for a sub-directory,
so what it does to a choice is a step on the calls that have not returned (`browse`).

The order of `readdir` and the function `qsort` are arbitrary. A path has room in `PATH_MAX` bytes
or is cut.
-/

set_option autoImplicit false

namespace OpenRecovery.Recovery

open OpenRecovery.Storage OpenRecovery.Updater

def pathMax : ℕ := 4096

/-- `d_type`. -/
inductive EntryType where
  | dir
  | reg
  | other
  deriving DecidableEq

structure DirEntry where
  name : Bytes
  type : EntryType

def tolower (c : UInt8) : UInt8 := if 65 ≤ c ∧ c ≤ 90 then c + 32 else c

/-- `compare_string`. Of what `strcmp` returns only the sign is promised. -/
def compareString (a b : Bytes) : Int := if a < b then -1 else if b < a then 1 else 0

inductive Browser where
  | updateDirectory
  | scriptDirectory

namespace Browser

/-- What the names of the files end in. -/
def suffix : Browser → Bytes
  | updateDirectory => cstr ".zip"
  | scriptDirectory => cstr ".sh"

/-- The length that the names must have. -/
def minLength : Browser → ℕ
  | updateDirectory => 4
  | scriptDirectory => 4

variable (b : Browser)

/-- The test of a name with `strncasecmp`. -/
def offers (name : Bytes) : Bool :=
  b.minLength ≤ name.length &&
    (name.drop (name.length - b.suffix.length)).map tolower = b.suffix

end Browser

/-! ## The arrays of lines -/

/-- An array of lines and the number of cells that are allocated for it. -/
structure Lines where
  lines : List Bytes
  alloc : ℕ

/-- A line is added, and the array is doubled before if it is full. -/
def Lines.push (l : Lines) (line : Bytes) : Option Lines :=
  let alloc := if l.alloc ≤ l.lines.length then l.alloc * 2 else l.alloc
  if l.lines.length < alloc then some ⟨l.lines ++ [line], alloc⟩ else none

/-- The lines of another array are added, and a `NULL`. -/
def Lines.append (l : Lines) (dirs : List Bytes) : Option Lines :=
  let size := dirs.length + l.lines.length + 1
  let alloc := if l.alloc < size then size else l.alloc
  if size ≤ alloc then some ⟨l.lines ++ dirs, alloc⟩ else none

/-- One round of the loop over the directory, with the lines of the sub-directories and those of the
files. -/
def readEntry (b : Browser) (arrays : Lines × Lines) (e : DirEntry) : Option (Lines × Lines) :=
  match e.type with
  | .dir =>
      -- hidden directories, and the directory itself and its parent
      if e.name.head? = some 46 then some arrays
      else (arrays.1.push (e.name ++ [slash])).map fun dirs => (dirs, arrays.2)
  | .reg =>
      if b.offers e.name then (arrays.2.push e.name).map fun files => (arrays.1, files)
      else some arrays
  | .other => some arrays

/-- The line for the way back. -/
def parentLine : Bytes := cstr "../"

/-- The list that the browser shows. -/
def browserLines (q : Qsort Bytes) (b : Browser) (entries : List DirEntry) : Option Lines := do
  let arrays ← entries.foldlM (readEntry b) (⟨[], 10⟩, ⟨[parentLine], 10⟩)
  Lines.append ⟨q.sort compareString arrays.2.lines, arrays.2.alloc⟩
    (q.sort compareString arrays.1.lines)

/-! ## The choices -/

/-- What is done for a line. -/
inductive BrowserAction where
  | back
  | directory (path : Bytes)
  | offer (path : Bytes)

/-- The path of a line, which is cut if it is too long. -/
def newPath (path item : Bytes) : Bytes :=
  strlcat pathMax (strlcat pathMax (strlcpy pathMax path) [slash]) item

/-- The tests of the chosen line. -/
def browserAction (path : Bytes) (lines : List Bytes) (chosen : ℕ) : Option BrowserAction :=
  lines[chosen]?.map fun item =>
    -- the first line is the way back
    if chosen = 0 then .back
    -- a directory is opened without the slash
    else if item.getLast? = some slash then .directory (newPath path item).dropLast
    else .offer (newPath path item)

/-- A call of the browser that has not returned. -/
structure BrowserCall where
  path : Bytes
  lines : List Bytes

/-- A call, with the content of the directory if it can be opened. -/
def openDirectory (q : Qsort Bytes) (b : Browser) (path : Bytes) (content : Option (List DirEntry))
    (calls : List BrowserCall) : Option (List BrowserCall) :=
  match content with
  -- a directory that cannot be opened has nothing to choose from
  | none => some calls
  | some entries => (browserLines q b entries).map fun l => ⟨path, l.lines⟩ :: calls

/-- A choice: the calls after it, and the path that is offered for installation or to be run. The
`content` is that of the sub-directory, if one is chosen. -/
def browse (q : Qsort Bytes) (b : Browser) (content : Option (List DirEntry)) (chosen : ℕ) :
    List BrowserCall → Option (List BrowserCall × Option Bytes)
  | [] => none
  | call :: calls =>
      match browserAction call.path call.lines chosen with
      | none => none
      | some .back => some (calls, none)
      | some (.directory path) =>
          (openDirectory q b path content (call :: calls)).map fun calls => (calls, none)
      | some (.offer path) => some (call :: calls, some path)

/-- `update_directory`. -/
def updateDirectory (q : Qsort Bytes) (path : Bytes) (content : Option (List DirEntry))
    (calls : List BrowserCall) : Option (List BrowserCall) :=
  openDirectory q .updateDirectory path content calls

/-- `script_directory`. -/
def scriptDirectory (q : Qsort Bytes) (path : Bytes) (content : Option (List DirEntry))
    (calls : List BrowserCall) : Option (List BrowserCall) :=
  openDirectory q .scriptDirectory path content calls

end OpenRecovery.Recovery
