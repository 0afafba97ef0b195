import Mathlib.Data.List.DropRight
import OpenRecovery.Recovery.FileLines

/-!
# The arrays of a menu

`create_menu` and `delete_menu`. The arrays are functions of the index; they have 50 cells, and the
loop stops at the fiftieth item. What a line of a menu file stands for is `fillEntry`: the text of
the item, its target, its tag and whether it can be selected.

The directory of the tags and the width of the screen are parameters (`MenuEnv`). The content of the
file is the one behind the run of the menu's script.
-/

set_option autoImplicit false

namespace OpenRecovery.Recovery

open OpenRecovery.Storage OpenRecovery.Updater

def maxMenuItems : ℕ := 50
def maxMenuHeaders : ℕ := 5
def maxLineLength : ℕ := 512

/-- `MENU_HEADERS`, `MENU_ITEMS`, `MENU_ITEMS_TAG`, `MENU_ITEMS_ACTION`, `MENU_ITEMS_TARGET` and
`MENU_ITEMS_SELECTABLE`. -/
structure MenuArrays where
  headers : ℕ → Option Bytes
  items : ℕ → Option Bytes
  tags : ℕ → UInt8
  actions : ℕ → Option Bytes
  targets : ℕ → Option Bytes
  selectable : ℕ → UInt8

/-- `delete_menu`. -/
def deleteMenu (m : MenuArrays) : MenuArrays where
  headers := fun i => if i < maxMenuHeaders then none else m.headers i
  items := fun i => if i < maxMenuItems then none else m.items i
  tags := fun i => if i < maxMenuItems then 0xFF else m.tags i
  actions := fun i => if i < maxMenuItems then none else m.actions i
  targets := fun i => if i < maxMenuItems then none else m.targets i
  selectable := fun i => if i < maxMenuItems then 0xFF else m.selectable i

/-! ## One line -/

/-- `ui_get_num_columns`, and which files `stat` finds. -/
structure MenuEnv where
  numCols : ℤ
  tagExists : Bytes → Bool

/-- The cells of the arrays for an item. -/
structure MenuEntry where
  item : Bytes
  action : Bytes
  target : Bytes
  tag : UInt8
  selectable : UInt8

/-- The path of a shell script, which may begin with a quotation mark. -/
def shellTarget (target : Bytes) : Bytes :=
  if target.head? = some slash ∨ (target.head? = some 34 ∧ target[1]? = some slash) then target
  -- the quotation mark stays in front of the directory
  else if target.head? = some 34 then cstr "\"/bin/" ++ target.drop 1
  else cstr "/bin/" ++ target

/-- The line that a break is shown as. `none`: the string has no terminator, or `strncpy` is called
with a negative length. -/
def breakItem (numCols : ℤ) (name : Bytes) : Option Bytes :=
  -- the line would be hyphens only, and nothing ends it
  if name = [42] then none
  else
    -- two hyphens and two blanks at least are around the name
    let len : ℤ := if numCols - 4 < name.length then numCols - 4 else name.length
    if len < 0 then none
    else
      let left := (numCols - len - 2) / 2
      some (List.replicate left.toNat 45 ++ [32] ++ name.take len.toNat ++ [32] ++
        List.replicate (numCols - left - len - 2).toNat 45)

/-- The cells for the three parts of a line. -/
def fillEntry (env : MenuEnv) (name action target : Bytes) : Option MenuEntry :=
  if action = cstr "shell" then some ⟨name, action, shellTarget target, 0xFF, 1⟩
  else if action = cstr "tag" then
    -- the file behind the point says whether the tag is set
    let path := cstr "/tags/." ++ target
    if env.tagExists path then some ⟨cstr "[X] " ++ name, action, path, 1, 1⟩
    else some ⟨cstr "[ ] " ++ name, action, path, 0, 1⟩
  else if action = cstr "break" then
    (breakItem env.numCols name).map fun item => ⟨item, action, cstr "*", 0xFF, 0⟩
  else some ⟨name, action, target, 0xFF, if action = cstr "label" then 0 else 1⟩

/-! ## The loop -/

def isColon (c : UInt8) : Bool := c = 58

/-- The blanks at the end of a title. -/
def isTitleEnd (c : UInt8) : Bool := c = 32 || c = 13 || c = newline

/-- The blanks at the end of a target. -/
def isTargetEnd (c : UInt8) : Bool := c = 32 || c = 13

/-- The variables of the loop. -/
structure MenuRead where
  idx : ℕ
  readTitle : Bool
  menu : MenuArrays

def MenuRead.setItem (s : MenuRead) (item : Option Bytes) : MenuRead :=
  { s with menu := { s.menu with items := Function.update s.menu.items s.idx item } }

def MenuRead.setAction (s : MenuRead) (action : Option Bytes) : MenuRead :=
  { s with menu := { s.menu with actions := Function.update s.menu.actions s.idx action } }

/-- The rest of the cells, and the next item. -/
def MenuRead.setEntry (s : MenuRead) (e : MenuEntry) : MenuRead :=
  { s with
    idx := s.idx + 1
    menu := { s.menu with
      items := Function.update s.menu.items s.idx (some e.item)
      tags := Function.update s.menu.tags s.idx e.tag
      targets := Function.update s.menu.targets s.idx (some e.target)
      selectable := Function.update s.menu.selectable s.idx e.selectable } }

/-- The name in the arrays. -/
def itemName (name : Bytes) : Bytes := if name = [42] then [] else name

/-- The title, which is always one line with an empty one below it. -/
def MenuRead.setTitle (s : MenuRead) (title : Bytes) : MenuRead :=
  { s with
    readTitle := false
    menu := { s.menu with
      headers := Function.update (Function.update (Function.update s.menu.headers 0 (some title)) 1
        (some [])) 2 none } }

/-- The tokens of a line, and the cells they are written to; the cells of a line without three
tokens are cleared again. -/
def readItem (env : MenuEnv) (buf : Bytes) (s : MenuRead) : Option MenuRead :=
  match strtokNext isColon buf with
  | none => some s
  | some (name, rest) =>
      let s := s.setItem (some (itemName name))
      match strtokNext isColon rest with
      -- an item without an action is taken back
      | none => some (s.setItem none)
      | some (action, rest) =>
          let s := s.setAction (some action)
          match nextToken isNewline rest with
          -- and so are an item and an action without a target
          | none => some ((s.setItem none).setAction none)
          | some target =>
              (fillEntry env (itemName name) action (target.rdropWhile isTargetEnd)).map s.setEntry

/-- One round, with the string in the buffer. -/
def menuRound (env : MenuEnv) (buf : Bytes) (s : MenuRead) : Option MenuRead :=
  if buf = [] ∨ buf.head? = some 35 then some s
  else if s.readTitle then some (s.setTitle (buf.rdropWhile isTitleEnd))
  else if (58 : UInt8) ∉ buf then some s
  else readItem env buf s

/-- The loop, over what `fgets` reads. -/
def menuLoop (env : MenuEnv) : List Bytes → MenuRead → Option MenuRead
  | [], s => some s
  | piece :: rest, s =>
      -- the test is made before the next line is read
      if s.idx < maxMenuItems then (menuRound env (cText piece) s).bind (menuLoop env rest)
      else some s

/-- `create_menu`: what it returns, and the arrays. `none`: it writes outside of a buffer. -/
def createMenu (env : MenuEnv) (fname : Bytes) (shellcmd file : Option Bytes) (m : MenuArrays) :
    Option (ℤ × MenuArrays) :=
  if shellcmd ≠ none ∧ 256 < (cstr "MENU_FILE=/menu/" ++ fname).length + 1 then none
  else if maxLineLength < (cstr "/menu/" ++ fname).length + 1 then none
  else
    match file with
    -- the old menu is still there
    | none => some (-1, m)
    | some content =>
        (menuLoop env (pieces (maxLineLength - 1) content) ⟨0, true, deleteMenu m⟩).map
          fun s => (0, s.menu)

end OpenRecovery.Recovery
