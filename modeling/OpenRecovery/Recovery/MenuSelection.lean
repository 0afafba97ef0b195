import OpenRecovery.Ui.KeyQueue
import OpenRecovery.Ui.MenuShown

/-!
# Menu selections and the screen

`get_menu_selection` together with `battery_thread`, which turns the screen off. A call is at one of
the places of `Place`; between them it holds `screen_off_timer_mutex` or waits for a key. The
searches for a selectable item are loops without a bound in the source, so they have fuel here:
`running` is a search that needs more of it.
-/

set_option autoImplicit false

namespace OpenRecovery.Recovery

open OpenRecovery.Storage OpenRecovery.Ui

/-! ## The searches for a selectable item -/

/-- The items of a menu, each with its entry of `selectability`. -/
structure Choices where
  items : List Bytes
  selectability : List UInt8
  length_eq : selectability.length = items.length

/-- How a search ends. -/
inductive Search where
  | found (i : ℤ)
  | outside
  | running

/-- How a key is handled. -/
inductive KeyResult where
  | next (selected : ℤ) (ui : Overlay)
  | chosen (item : ℤ)
  | outside
  | running

namespace Choices

variable (c : Choices)

/-- `selectability[i]`, for the index of an item. -/
def selectable (i : ℤ) : Option Bool :=
  if 0 ≤ i ∧ i < c.items.length then some (c.selectability.getD i.toNat 0 ≠ 0) else none

/-- The item below, or the first one. -/
def down (selected : ℤ) : ℤ := if (c.items.length : ℤ) ≤ selected + 1 then 0 else selected + 1

/-- The item above, or the last one. -/
def up (selected : ℤ) : ℤ := if selected - 1 < 0 then c.items.length - 1 else selected - 1

/-- The search for the initial selection, which stops when it has come round. -/
def searchStart (initial : ℤ) : ℕ → ℤ → Search
  | 0, _ => .running
  | n + 1, startSel =>
      match c.selectable startSel with
      | none => .outside
      | some true => .found startSel
      | some false =>
          -- nothing can be selected: it stops where it began
          if c.down startSel = initial then .found initial else searchStart initial n (c.down startSel)

/-- The initial selection for `start_sel`. -/
def initial (n : ℕ) (startSel : ℤ) : Search :=
  let startSel := if (c.items.length : ℤ) ≤ startSel then (c.items.length : ℤ) - 1 else startSel
  let startSel := if startSel < 0 then 0 else startSel
  c.searchStart startSel n startSel

/-- The searches for `HIGHLIGHT_UP` and `HIGHLIGHT_DOWN`. -/
def search (next : ℤ → ℤ) : ℕ → ℤ → Search
  | 0, _ => .running
  | n + 1, selected =>
      match c.selectable (next selected) with
      | none => .outside
      | some true => .found (next selected)
      | some false => search next n (next selected)

def highlight (next : ℤ → ℤ) (n : ℕ) (selected : ℤ) (ui : Overlay) : KeyResult :=
  match c.search next n selected with
  | .found i => .next (uiMenuSelect i ui).1 (uiMenuSelect i ui).2
  | .outside => .outside
  | .running => .running

/-- The `switch` over the action of a key. -/
def handleAction (menuOnly : Bool) (n : ℕ) (action selected : ℤ) (ui : Overlay) : KeyResult :=
  if action < 0 then
    if action = highlightUp then c.highlight c.up n selected ui
    else if action = highlightDown then c.highlight c.down n selected ui
    else if action = selectItem then .chosen selected
    else .next selected ui
  else if menuOnly then .next selected ui
  else .chosen action

end Choices

/-! ## The threads -/

def screenTimeoutTimerOff : ℤ := -1
def screenTimeoutScreenOff : ℤ := -2

/-- Where `get_menu_selection` is: not called, at the head of its loop, in `ui_wait_key`, with the
key that this has returned, behind the test of the timer, or behind its `return`. -/
inductive Place where
  | notCalled
  | head
  | waiting
  | got (key : ℤ)
  | handling (key : ℤ)
  | returned (chosenItem : ℤ)

/-- The local variables of a call. -/
structure Call where
  choices : Choices
  menuOnly : Bool
  selected : ℤ
  keyTimeout : Bool

structure MenuState where
  screenOffTimer : ℤ
  screenOn : Bool
  ui : Overlay
  call : Call
  place : Place

/-- The section of `battery_thread`. -/
def batteryThread (s : MenuState) : MenuState :=
  let timer := if 0 ≤ s.screenOffTimer then s.screenOffTimer + 1 else s.screenOffTimer
  if timer = 15 then
    { s with screenOn := false, screenOffTimer := screenTimeoutScreenOff }
  else { s with screenOffTimer := timer }

/-- From the head of the loop into `ui_wait_key`. -/
def loopHead (s : MenuState) : MenuState :=
  if s.call.keyTimeout then
    { s with call := { s.call with keyTimeout := false }, place := .waiting }
  -- a key that was no timeout starts the timer again
  else { s with screenOffTimer := 0, place := .waiting }

/-- From `ui_wait_key` to the end of the section that looks at the timer. -/
def takeKey (key : ℤ) (s : MenuState) : MenuState :=
  if key = cancelKey then
    { s with
      screenOn := if s.screenOffTimer = screenTimeoutScreenOff then true else s.screenOn
      screenOffTimer := screenTimeoutTimerOff
      place := .returned (-1) }
  else if key < 0 then
    -- the wait was broken off, and the timer goes on
    { s with call := { s.call with keyTimeout := true }, place := .head }
  else if s.screenOffTimer = screenTimeoutScreenOff then
    -- turn the screen on and drop the key
    { s with screenOn := true, place := .head }
  else { s with screenOffTimer := screenTimeoutTimerOff, place := .handling key }

/-- The end of the loop's body. -/
def finishKey (s : MenuState) : KeyResult → Option MenuState
  | .next selected ui => some { s with call := { s.call with selected := selected }, ui := ui, place := .head }
  | .chosen item => some { s with place := if item < 0 then .head else .returned item }
  | .outside => none
  | .running => none

/-- The other threads. -/
inductive OtherThread : MenuState → MenuState → Prop where
  | battery (s : MenuState) : OtherThread s (batteryThread s)
  | print {s : MenuState} {ui : Overlay} (formatted : Bytes) :
      uiPrint formatted s.ui = some ui → OtherThread s { s with ui := ui }

/-- The state in which a call comes to its loop. -/
def called (s : MenuState) (c : Choices) (menuOnly : Bool) (start : ℤ) (ui : Overlay) : MenuState :=
  { s with ui := ui, call := ⟨c, menuOnly, start, false⟩, place := .head }

/-- The thread that calls `get_menu_selection`. -/
inductive MenuThread (hasCameraKey : Bool) : MenuState → MenuState → Prop where
  | call {s : MenuState} {ui : Overlay} {start : ℤ} (headers : List Bytes) (c : Choices)
      (titleLength startSel : ℤ) (menuOnly : Bool) (n : ℕ) :
      s.place = .notCalled → c.initial n startSel = .found start →
        uiStartMenu headers c.items titleLength start s.ui = some ui →
          MenuThread hasCameraKey s (called s c menuOnly start ui)
  | head {s : MenuState} : s.place = .head → MenuThread hasCameraKey s (loopHead s)
  | wait {s : MenuState} (key : ℤ) :
      s.place = .waiting → MenuThread hasCameraKey s { s with place := .got key }
  | take {s : MenuState} {key : ℤ} :
      s.place = .got key → MenuThread hasCameraKey s (takeKey key s)
  | handle {s t : MenuState} {key : ℤ} (visible : Bool) (n : ℕ) :
      s.place = .handling key →
        finishKey s (s.call.choices.handleAction s.call.menuOnly n
          (menuHandleKey hasCameraKey key visible) s.call.selected s.ui) = some t →
            MenuThread hasCameraKey s t
  | leave {s : MenuState} {chosenItem : ℤ} :
      s.place = .returned chosenItem → MenuThread hasCameraKey s { s with place := .notCalled }
  | endMenu {s : MenuState} :
      s.place = .notCalled → MenuThread hasCameraKey s { s with ui := uiEndMenu s.ui }

/-- One section or one stretch of code between two of them, of any thread. -/
def MenuState.Step (hasCameraKey : Bool) (s t : MenuState) : Prop :=
  MenuThread hasCameraKey s t ∨ OtherThread s t

/-- After `ui_init`. -/
def booted (rows cols : ℕ) : MenuState :=
  { screenOffTimer := screenTimeoutTimerOff
    screenOn := true
    ui := uiInit rows cols
    call := ⟨⟨[], [], rfl⟩, false, 0, false⟩
    place := .notCalled }

inductive MenuState.Reachable (hasCameraKey : Bool) : MenuState → Prop where
  | boot (rows cols : ℕ) : Reachable hasCameraKey (booted rows cols)
  | step {s t : MenuState} : Reachable hasCameraKey s → s.Step hasCameraKey t → Reachable hasCameraKey t

end OpenRecovery.Recovery
