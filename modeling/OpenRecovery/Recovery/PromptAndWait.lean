import OpenRecovery.Recovery.MenuLines

/-!
# The levels of the menu

The cases of the `switch` in `prompt_and_wait` that load menus: `ITEM_NEW_MENU`,
`ITEM_NEW_MENU_SCRIPTED` and the actions after which the menu is loaded again. The other cases leave
the variables of `PromptState` as they are, or return; `ITEM_TAG` toggles the tag of its own item.

The calls of `create_menu` that have returned are kept as a trace (`MenuLoad`).
-/

set_option autoImplicit false

namespace OpenRecovery.Recovery

open OpenRecovery.Storage OpenRecovery.Updater

def maxMenuLevel : ℕ := 50

def mainMenuFile : Bytes := cstr "init.menu"

/-- What `select_action` returns. -/
inductive ChosenItem where
  | error
  | reboot
  | applySdcard
  | wipeData
  | wipeCache
  | tag
  | shellScript
  | newMenu
  | newMenuScripted
  | console
  | applySdcardDir
  | shellScriptDir
  | poweroff
  | sideload
  | rebootBootloader

/-- `select_action`. -/
def selectAction (action : Bytes) : ChosenItem :=
  if action = cstr "reboot" then .reboot
  else if action = cstr "update" then .applySdcard
  else if action = cstr "wipe_data" then .wipeData
  else if action = cstr "wipe_cache" then .wipeCache
  else if action = cstr "tag" then .tag
  else if action = cstr "shell" then .shellScript
  else if action = cstr "menu" then .newMenu
  else if action = cstr "scripted_menu" then .newMenuScripted
  else if action = cstr "console" then .console
  else if action = cstr "update_dir" then .applySdcardDir
  else if action = cstr "shell_dir" then .shellScriptDir
  else if action = cstr "poweroff" then .poweroff
  else if action = cstr "sideload" then .sideload
  else if action = cstr "reboot_bootloader" then .rebootBootloader
  else .error

/-- The three kinds of actions that load menus. -/
inductive Navigation where
  | newMenu
  | newMenuScripted
  | reload
  deriving DecidableEq

def ChosenItem.navigation : ChosenItem → Option Navigation
  | .newMenu => some .newMenu
  | .newMenuScripted => some .newMenuScripted
  -- these come back to the same menu
  | .applySdcardDir | .sideload | .shellScript | .shellScriptDir | .console => some .reload
  | _ => none

/-! ## The variables -/

/-- The arrays of the menu that is shown, and the variables of `prompt_and_wait`. -/
structure PromptState where
  menu : MenuArrays
  menuFiles : ℕ → Option Bytes
  menuScripts : ℕ → Option Bytes
  menuSel : ℕ → ℤ
  menuLevel : ℕ
  overrideInitialSelection : ℤ

/-- A call of `create_menu`: its file, what it returned, and the arrays after it. -/
structure MenuLoad where
  fname : Bytes
  result : ℤ
  menu : MenuArrays

namespace PromptState

variable (env : MenuEnv) (file : Option Bytes) (s : PromptState)

/-- `create_menu` for the current level. -/
def load : Option (MenuLoad × PromptState) :=
  (s.menuFiles s.menuLevel).bind fun fname =>
    (createMenu env fname (s.menuScripts s.menuLevel) file s.menu).map fun r =>
      (⟨fname, r.1, r.2⟩, { s with menu := r.2 })

/-- The current level is freed. -/
def leave : PromptState :=
  { s with
    menuFiles := Function.update s.menuFiles s.menuLevel none
    menuScripts := Function.update s.menuScripts s.menuLevel none
    menuLevel := s.menuLevel - 1 }

/-- The choice of `..`. -/
def up : PromptState :=
  if s.menuLevel ≠ 0 then
    { s.leave with
      menuSel := Function.update s.menuSel s.menuLevel 0
      overrideInitialSelection := s.menuSel (s.menuLevel - 1) }
  else s

/-- A new level. -/
def enter (item : ℕ) (fname : Bytes) : PromptState :=
  { s with
    menuSel := Function.update s.menuSel s.menuLevel item
    menuLevel := s.menuLevel + 1
    menuFiles := Function.update s.menuFiles (s.menuLevel + 1) (some fname) }

/-- The script of a new level; `none`: there is none. -/
def setScript : Option Bytes → PromptState
  | none => s
  | some script => { s with menuScripts := Function.update s.menuScripts s.menuLevel (some script) }

/-- The menu of a level that has just become the current one; the level is freed if it cannot be
loaded. -/
def loadLevel : Option (List MenuLoad × PromptState) :=
  (s.load env file).map fun r =>
    ([r.1], if r.1.result ≠ 0 ∧ r.2.menuLevel ≠ 0 then r.2.leave else r.2)

/-- `ITEM_NEW_MENU`. -/
def newMenu (item : ℕ) (target : Bytes) : Option (List MenuLoad × PromptState) :=
  -- there is no level left, not even for the way back
  if maxMenuLevel ≤ s.menuLevel + 1 then some ([], s)
  else if target = cstr ".." then s.up.loadLevel env file
  else (s.enter item target).loadLevel env file

/-- The script of a scripted menu, which stands behind the colon. -/
def menuScript (rest : Bytes) : Option Bytes := if rest = [] then none else some (shellTarget rest)

/-- `ITEM_NEW_MENU_SCRIPTED`. `none`: the target does not fit into the buffer. -/
def newMenuScripted (item : ℕ) (target : Bytes) : Option (List MenuLoad × PromptState) :=
  if maxMenuLevel ≤ s.menuLevel + 1 then some ([], s)
  else if maxLineLength < target.length + 1 then none
  else
    match strtokNext isColon target with
    | none => some ([], s)
    | some (fname, rest) => ((s.enter item fname).setScript (menuScript rest)).loadLevel env file

/-- The actions after which the menu is loaded again. -/
def reload (item : ℕ) : Option (List MenuLoad × PromptState) :=
  (s.load env file).map fun r => ([r.1], { r.2 with overrideInitialSelection := item })

/-- A round of the loop in which the user has chosen an item. -/
def round (nav : Navigation) (item : ℕ) (target : Bytes) : Option (List MenuLoad × PromptState) :=
  -- the selection is used once
  let s := { s with overrideInitialSelection := -1 }
  match nav with
  | .newMenu => s.newMenu env file item target
  | .newMenuScripted => s.newMenuScripted env file item target
  | .reload => s.reload env file item

end PromptState

/-- The arrays before the first menu. -/
def noMenu : MenuArrays where
  headers := fun _ => none
  items := fun _ => none
  tags := fun i => if i = 0 then 0xFF else 0
  actions := fun _ => none
  targets := fun _ => none
  selectable := fun i => if i = 0 then 0xFF else 0

/-- `prompt_and_wait` before its first menu is loaded. -/
def promptStart : PromptState where
  menu := noMenu
  menuFiles := Function.update (fun _ => none) 0 (some mainMenuFile)
  menuScripts := fun _ => none
  menuSel := fun _ => 0
  menuLevel := 0
  overrideInitialSelection := -1

/-- A choice of the user, and the file that the next call of `create_menu` can open. -/
structure MenuChoice where
  item : ℕ
  file : Option Bytes

/-- What is chosen: the kind of action and the target of the item. -/
def PromptState.chosen (s : PromptState) (c : MenuChoice) : Option (Navigation × Bytes) := do
  let _ ← s.menu.items c.item
  let action ← s.menu.actions c.item
  let target ← s.menu.targets c.item
  let nav ← (selectAction action).navigation
  return (nav, target)

end OpenRecovery.Recovery
