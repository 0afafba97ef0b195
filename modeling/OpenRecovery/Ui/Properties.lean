import OpenRecovery.Storage.Pointer
import OpenRecovery.Ui.Console
import OpenRecovery.Updater.PropFile

/-!
# The properties of the UI

`load_properties` with `evaluate_property` and `htoc`. A line is a buffer of its own: the newline at
its end has become a NUL, and no pointer of the loop is used outside of the line. The colours and
the parameters are given by the names of their properties; where `evaluate_property` compares a key
with one name after the other, the names are a list in that order.
-/

set_option autoImplicit false

namespace OpenRecovery.Ui

open OpenRecovery.Storage OpenRecovery.Updater

/-! ## Colours -/

/-- One digit of `read_byte_hex`; `c` is an `unsigned char`. -/
def readDigit (text : UInt8) : Option UInt8 :=
  -- everything above `9` is taken for a letter, also the characters before `A`
  if 57 < text then
    let c := text - 65 + 10
    if 15 < c then none else some c
  else
    let c := text - 48
    if 9 < c then none else some c

/-- `read_byte_hex`. -/
def readByteHex : Bytes → Option UInt8
  | c :: d :: _ => do
      let high ← readDigit c
      let low ← readDigit d
      return high * 16 + low
  | _ => none

/-- `htoc`: the colour, or `none` if it is not 0. -/
def htoc (text : Bytes) : Option Color :=
  if text.length < 9 then none
  else if text.head? ≠ some 35 then none
  else do
    let r ← readByteHex (text.drop 1)
    let g ← readByteHex (text.drop 3)
    let b ← readByteHex (text.drop 5)
    let a ← readByteHex (text.drop 7)
    return ⟨r, g, b, a⟩

/-! ## The settings -/

inductive ColorName where
  | led
  | background
  | title
  | menu
  | menuSel
  | script
  | consoleHeader
  | consoleBackground
  | consoleFront
  deriving DecidableEq

/-- `COLOR_LED_PROP_NAME` and the others. -/
def ColorName.prop : ColorName → Bytes
  | led => cstr "color.LED"
  | background => cstr "color.background"
  | title => cstr "color.title"
  | menu => cstr "color.menu"
  | menuSel => cstr "color.selection"
  | script => cstr "color.script"
  | consoleHeader => cstr "color.console.header"
  | consoleBackground => cstr "color.console.background"
  | consoleFront => cstr "color.console.front"

def ColorName.all : List ColorName :=
  [led, background, title, menu, menuSel, script, consoleHeader, consoleBackground, consoleFront]

inductive IntName where
  | indeterminateFrames
  | installFrames
  | installX
  | installY
  deriving DecidableEq

/-- `UI_INDETERMINATE_FRAMES_PROP_NAME` and the others. -/
def IntName.prop : IntName → Bytes
  | indeterminateFrames => cstr "ui.intederminate.frames"
  | installFrames => cstr "ui.install.frames"
  | installX => cstr "ui.install.x"
  | installY => cstr "ui.install.y"

def IntName.all : List IntName := [indeterminateFrames, installFrames, installX, installY]

/-- `COLOR_CONSOLE_TERMCLR_PROP_NAME_BASE`. -/
def termclrBase : Bytes := cstr "color.console.termclr"

/-- `led_color` and the other colours, `console_term_colors` and the four members of
`ui_parameters`. -/
structure UiProperties where
  colors : ColorName → Color
  termColors : ℕ → Color
  ints : IntName → ℤ

namespace UiProperties

variable (s : UiProperties)

def setColor (name : ColorName) (c : Color) : UiProperties :=
  { s with colors := Function.update s.colors name c }

def setTermColor (i : ℕ) (c : Color) : UiProperties :=
  { s with termColors := Function.update s.termColors i c }

def setInt (name : IntName) (i : ℤ) : UiProperties :=
  { s with ints := Function.update s.ints name i }

end UiProperties

/-- `atoi`. -/
def atoi (s : Bytes) : ℤ := (strtol 32 s).1

/-- The terminal colour of a number. -/
def termIndex (val : ℤ) : Option ℕ :=
  if 30 ≤ val ∧ val ≤ 37 then some (val - 30).toNat
  else if 90 ≤ val ∧ val ≤ 97 then some (val - 90 + 8).toNat
  else none

/-- `evaluate_property`. The integers are read from the buffer behind the name. -/
def evaluateProperty (b : Bytes) (data value : Int) (s : UiProperties) : Option UiProperties := do
  let key ← stringAt b data
  match ColorName.all.find? fun name => name.prop = key with
  | some name => do
      let text ← stringAt b value
      return match htoc text with
        | some c => s.setColor name c
        | none => s
  | none =>
      -- from here on the key only has to begin with the name
      if termclrBase.isPrefixOf key then do
        let text ← stringAt b value
        match htoc text with
        | none => return s
        | some c => do
            let val := atoi (← stringAt b (data + termclrBase.length))
            return match termIndex val with
              | some i => s.setTermColor i c
              | none => s
      else
        match IntName.all.find? fun name => name.prop.isPrefixOf key with
        | some name => do
            let val ← stringAt b (data + name.prop.length + 1)
            return s.setInt name (atoi val)
        | none => return s

/-! ## The lines -/

/-- `while (isspace(*p)) p++`. -/
def skipBlanks (b : Bytes) (p : Int) : Option Int := advance isspace b b.length p

/-- The body of the loop, for the line between `sol` and `eol`. -/
def loadLine (line : Bytes) (s : UiProperties) : Option UiProperties := do
  let b := line ++ [0]
  let eol : Int := b.length
  match ← strchr b 0 61 with
  | none => return s
  | some equal => do
      let b ← store b equal 0
      let value := equal + 1
      let key ← skipBlanks b 0
      let c ← load b key
      -- a comment
      if c = 35 then return s
      else do
        let b ← zeroBack isspace b key b.length (value - 2)
        let value ← skipBlanks b value
        let b ← zeroBack isspace b value b.length (eol - 2)
        evaluateProperty b key value s

/-- The lines of a string that `strchr` finds the ends of. -/
def endedLines : Bytes → List Bytes
  | [] => []
  | c :: data =>
      if c = 0 then []
      else if c = newline then [] :: endedLines data
      else
        match endedLines data with
        | [] => []
        | line :: lines => (c :: line) :: lines

/-- `load_properties`; `read_file` has put a newline and a NUL behind the content. -/
def loadProperties (file : Option Bytes) (s : UiProperties) : Option UiProperties :=
  match file with
  | none => some s
  | some content => (endedLines (content ++ [newline, 0])).foldlM (fun s line => loadLine line s) s

end OpenRecovery.Ui
