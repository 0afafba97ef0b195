import OpenRecovery.Storage.Bytes

/-!
# The console

`console.c`: the two matrices, the cursor, the bookkeeping of the top row, and the escape sequences.
Every index into `console_text_matrix`, `console_color_matrix`, `console_escaped_buffer` and
`parameters` is checked, and so is every sum of `int`s that a number of the input enters; `none`
stands for an index out of range or an overflow. The other sums stay far from the bounds of `int`.

What is drawn, the LED and the log are left out. The screen size is what `ui_console_begin` computes
from the framebuffer.
-/

set_option autoImplicit false

namespace OpenRecovery.Ui

open OpenRecovery.Storage

/-- A character constant. -/
def ch (c : Char) : UInt8 := UInt8.ofNat c.toNat

def totalRows : Int := 1024
def bufferRows : Int := 64
def totalColumns : Int := 128

/-- `CONSOLE_BEEP` and `CONSOLE_ESC`. -/
def beep : UInt8 := 7
def esc : UInt8 := 27

structure Color where
  r : UInt8
  g : UInt8
  b : UInt8
  a : UInt8
  deriving DecidableEq

def Color.zero : Color := ⟨0, 0, 0, 0⟩

/-- `console_front_color` and `console_term_colors` as they are initialised. -/
def initFrontColor : Color := ⟨229, 229, 229, 0⟩
def initTermColors : List Color :=
  [⟨0, 0, 0, 0⟩, ⟨205, 0, 0, 0⟩, ⟨0, 205, 0, 0⟩, ⟨205, 205, 0, 0⟩, ⟨0, 0, 238, 0⟩, ⟨205, 0, 205, 0⟩,
    ⟨0, 205, 205, 0⟩, ⟨229, 229, 229, 0⟩, ⟨127, 127, 127, 0⟩, ⟨255, 0, 0, 0⟩, ⟨0, 255, 0, 0⟩,
    ⟨255, 255, 0, 0⟩, ⟨92, 91, 255, 0⟩, ⟨255, 0, 255, 0⟩, ⟨0, 255, 255, 0⟩, ⟨255, 255, 255, 0⟩]

/-- A screen; the columns count the null terminator. -/
structure Screen where
  rows : Int
  columns : Int
  rows_ge : 1 ≤ rows
  rows_le : rows ≤ totalRows
  columns_ge : 2 ≤ columns
  columns_le : columns ≤ totalColumns

/-- The variables of the console. `escaped` is `console_escaped_buffer` as far as
`console_escaped_sequence`; `load_properties` may have set `frontColor` and `termColors`. -/
structure Console where
  text : Int → Int → UInt8
  colors : Int → Int → Color
  screenRows : Int
  screenColumns : Int
  topRow : Int
  forceTopRowOnText : Int
  forceTopRowReserve : Int
  curRow : Int
  curColumn : Int
  escapedState : Bool
  escaped : Bytes
  currentColor : Color
  frontColor : Color
  termColors : Nat → Color

/-- A sum of two `int`s. -/
def addInt (a b : Int) : Option Int :=
  if -2 ^ 31 ≤ a + b ∧ a + b < 2 ^ 31 then some (a + b) else none

/-! ## console_put_char -/

/-- A range of cells in the current row. -/
def Console.inRow (s : Console) (first stop : Int) : Prop :=
  0 ≤ s.curRow ∧ s.curRow < totalRows ∧ 0 ≤ first ∧ stop ≤ totalColumns

instance (s : Console) (first stop : Int) : Decidable (s.inRow first stop) :=
  inferInstanceAs (Decidable (_ ∧ _ ∧ _ ∧ _))

/-- Blanks in the current row, in the columns from `first` up to `stop`. -/
def fillBlanks (s : Console) (first stop : Int) : Option Console :=
  if stop ≤ first then some s
  else if s.inRow first stop then
    some { s with
      text := fun row col =>
        if row = s.curRow ∧ first ≤ col ∧ col < stop then ch ' ' else s.text row col }
  else none

/-- One row further. -/
def lineFeed (s : Console) : Console :=
  { s with curRow := s.curRow + 1, forceTopRowReserve := s.forceTopRowReserve + 1 }

/-- To the start of the next row. -/
def wrapLine (s : Console) : Console := { lineFeed s with curColumn := 0 }

/-- A tab is per 5. -/
def putTab (s : Console) : Option Console :=
  let stop := s.curColumn + (5 - s.curColumn.tmod 5)
  if s.screenColumns - 2 ≤ stop then
    (fillBlanks s s.curColumn (s.screenColumns - 1)).map wrapLine
  else
    (fillBlanks s s.curColumn stop).map fun s => { s with curColumn := stop }

/-- A backspace; it leaves the reserve as it is. -/
def putBackspace (s : Console) : Console :=
  if s.curColumn = 0 then
    if s.curRow = 0 then s
    else { s with curColumn := s.screenColumns - 2, curRow := s.curRow - 1 }
  else { s with curColumn := s.curColumn - 1 }

/-- Any other character. -/
def putText (c : UInt8) (s : Console) : Option Console :=
  if s.inRow s.curColumn (s.curColumn + 1) then
    let t := { s with
      text := fun row col => if row = s.curRow ∧ col = s.curColumn then c else s.text row col
      colors := fun row col =>
        if row = s.curRow ∧ col = s.curColumn then s.currentColor else s.colors row col
      curColumn := s.curColumn + 1 }
    if s.screenColumns - 2 < t.curColumn then some (wrapLine t) else some t
  else none

/-- The cells of a row that `memset` blanks. -/
def blankRow (columns col : Int) : UInt8 := if col = columns - 1 then 0 else ch ' '

/-- The rows go up by 64 when the cursor has left the matrix. -/
def shiftRows (s : Console) : Option Console :=
  if s.curRow = totalRows then
    if 1 ≤ s.screenColumns ∧ s.screenColumns ≤ totalColumns then
      some { s with
        text := fun row col =>
          if s.screenColumns ≤ col then s.text row col
          else if row < totalRows - bufferRows then s.text (row + bufferRows) col
          else blankRow s.screenColumns col
        colors := fun row col =>
          if s.screenColumns ≤ col then s.colors row col
          else if row < totalRows - bufferRows then s.colors (row + bufferRows) col
          else Color.zero
        curRow := s.curRow - bufferRows
        forceTopRowOnText := max (s.forceTopRowOnText - bufferRows) 0 }
    else none
  else some s

/-- `console_put_char` up to the shift. -/
def putRaw (c : UInt8) (s : Console) : Option Console :=
  if c = ch '\n' then some (lineFeed s)
  else if c = ch '\r' then some { s with curColumn := 0 }
  else if c = ch '\t' then putTab s
  else if c = 8 then some (putBackspace s)
  else if c = beep then some s
  else putText c s

/-- `console_put_char`. -/
def putChar (c : UInt8) (s : Console) : Option Console := (putRaw c s).bind shiftRows

/-- Several characters. -/
def putChars : Bytes → Console → Option Console
  | [], s => some s
  | c :: cs, s => (putChar c s).bind (putChars cs)

/-! ## console_unescape -/

/-- What the first loop finds in the buffer. -/
structure Sequence where
  sqrBrackets : Nat
  roundBracketsLeft : Nat
  roundBracketsRight : Nat
  questionMarks : Nat
  parameters : Nat → Int
  noParameters : Nat
  argument : UInt8

def Sequence.empty : Sequence := ⟨0, 0, 0, 0, fun _ => 0, 0, 0⟩

/-- `parameters[32]`. -/
def maxParameters : Nat := 32

def isDigit (c : UInt8) : Bool := decide (48 ≤ c.toNat) && decide (c.toNat ≤ 57)

/-- A digit goes to the current parameter. -/
def Sequence.digit (q : Sequence) (c : UInt8) : Option Sequence :=
  if q.noParameters < maxParameters then do
    let v ← addInt (q.parameters q.noParameters * 10) ((c.toNat : Int) - 48)
    some { q with parameters := Function.update q.parameters q.noParameters v }
  else none

/-- The loop that parses the buffer. -/
def scan : Bytes → Sequence → Option Sequence
  | [], q => some q
  | c :: cs, q =>
      if c = ch '[' then scan cs { q with sqrBrackets := q.sqrBrackets + 1 }
      else if c = ch '(' then scan cs { q with roundBracketsLeft := q.roundBracketsLeft + 1 }
      else if c = ch ')' then scan cs { q with roundBracketsRight := q.roundBracketsRight + 1 }
      else if c = ch '?' then scan cs { q with questionMarks := q.questionMarks + 1 }
      else if c = ch ';' then scan cs { q with noParameters := q.noParameters + 1 }
      else if isDigit c then (q.digit c).bind (scan cs)
      else some { q with argument := c }

/-- The reserve for a cursor that was moved. -/
def setReserve (s : Console) : Console :=
  { s with forceTopRowReserve := 1 - (s.forceTopRowOnText + s.screenRows - s.curRow) }

/-- Command `A`: move up, but not out of screen. -/
def cursorUp (n : Int) (s : Console) : Option Console := do
  let row ← addInt s.curRow (-n)
  some (setReserve { s with
    curRow := if row < s.forceTopRowOnText then s.forceTopRowOnText else row })

/-- Command `B`: move down, but not out of screen. -/
def cursorDown (n : Int) (s : Console) : Option Console := do
  let row ← addInt s.curRow n
  some (setReserve { s with
    curRow := if s.forceTopRowOnText + s.screenRows ≤ row
      then s.forceTopRowOnText + s.screenRows - 1 else row })

/-- Command `C`: move right, but not out of the line. -/
def cursorRight (n : Int) (s : Console) : Option Console := do
  let col ← addInt s.curColumn n
  some { s with curColumn := if s.screenColumns - 1 ≤ col then s.screenColumns - 2 else col }

/-- Command `D`: move left, but not out of the line. -/
def cursorLeft (n : Int) (s : Console) : Option Console := do
  let col ← addInt s.curColumn (-n)
  some { s with curColumn := if col < 0 then 0 else col }

/-- Command `H`: cursor to top-left and offset. -/
def cursorHome (row col : Int) (s : Console) : Console :=
  let row := if s.screenRows ≤ row then s.screenRows - 1 else row
  let col := if s.screenColumns - 1 ≤ col then s.screenColumns - 2 else col
  setReserve { s with
    curRow := s.topRow + row
    curColumn := col
    forceTopRowOnText := s.topRow }

/-- Blank and black cells in the current row; the alpha value stays. -/
def clearCells (s : Console) (first stop : Int) : Option Console :=
  (fillBlanks s first stop).map fun t =>
    { t with
      colors := fun row col =>
        if row = s.curRow ∧ first ≤ col ∧ col < stop then ⟨0, 0, 0, (s.colors row col).a⟩
        else s.colors row col }

/-- The rows below the cursor, blanked. -/
def clearBelow (s : Console) : Option Console :=
  if totalRows ≤ s.curRow + 1 then some s
  else if 0 ≤ s.curRow + 1 ∧ 1 ≤ s.screenColumns ∧ s.screenColumns ≤ totalColumns then
    some { s with
      text := fun row col =>
        if s.curRow < row ∧ row < totalRows ∧ col < s.screenColumns
        then blankRow s.screenColumns col else s.text row col
      colors := fun row col =>
        if s.curRow < row ∧ row < totalRows ∧ col < s.screenColumns
        then Color.zero else s.colors row col }
  else none

/-- Command `K`. -/
def clearLine (n : Int) (s : Console) : Option Console :=
  if n = 0 then clearCells s s.curColumn (s.screenColumns - 1)
  else if n = 1 then clearCells s 0 (s.curColumn + 1)
  else if n = 2 then clearCells s 0 (s.screenColumns - 1)
  else some s

/-- `ui_console_set_front_color`. -/
def setFrontColor (c : Color) (s : Console) : Console :=
  { s with currentColor := ⟨c.r, c.g, c.b, s.currentColor.a⟩ }

/-- `console_set_front_term_color`. -/
def setFrontTermColor (code : Int) (s : Console) : Console :=
  if 30 ≤ code ∧ code < 37 then setFrontColor (s.termColors (code - 30).toNat) s
  else if 90 ≤ code ∧ code < 97 then
    setFrontColor (s.termColors (code - 90 + 8).toNat) s
  else s

/-- One parameter of command `m`. -/
def setGraphics (code : Int) (s : Console) : Console :=
  if code = 0 ∨ code = 39 then { s with currentColor := s.frontColor }
  else if 30 ≤ code ∧ code ≤ 37 ∨ 90 ≤ code ∧ code ≤ 97 then setFrontTermColor code s
  else s

/-- Only square brackets, and one of them. -/
def Sequence.isCommand (q : Sequence) : Prop :=
  q.sqrBrackets = 1 ∧ q.roundBracketsLeft = 0 ∧ q.roundBracketsRight = 0 ∧ q.questionMarks = 0

instance (q : Sequence) : Decidable q.isCommand :=
  inferInstanceAs (Decidable (_ ∧ _ ∧ _ ∧ _))

/-- The switch over the argument: `was_unescaped` and the console. -/
def carryOut (q : Sequence) (s : Console) : Option (Bool × Console) :=
  if q.isCommand then
    if q.argument = ch 'A' then (cursorUp (q.parameters 0) s).map fun s => (true, s)
    else if q.argument = ch 'B' then (cursorDown (q.parameters 0) s).map fun s => (true, s)
    else if q.argument = ch 'C' then (cursorRight (q.parameters 0) s).map fun s => (true, s)
    else if q.argument = ch 'D' then (cursorLeft (q.parameters 0) s).map fun s => (true, s)
    else if q.argument = ch 'H' then some (true, cursorHome (q.parameters 0) (q.parameters 1) s)
    else if q.argument = ch 'J' then
      ((clearCells s s.curColumn (s.screenColumns - 1)).bind clearBelow).map fun s => (true, s)
    else if q.argument = ch 'K' then (clearLine (q.parameters 0) s).map fun s => (true, s)
    else if q.argument = ch 'm' then
      some (true, (List.range (q.noParameters + 1)).foldl
        (fun s i => setGraphics (q.parameters i) s) s)
    else some (false, s)
  else some (false, s)

/-- `console_unescape` on the contents of the buffer. All parameters are printed to the log. -/
def unescape (buffer : Bytes) (s : Console) : Option Console := do
  let q ← scan buffer Sequence.empty
  if maxParameters < q.noParameters + 1 then none
  else
    let (wasUnescaped, s) ← carryOut q s
    -- send it ala text then
    if wasUnescaped then some s else putChars (ch '^' :: buffer) s

/-- `console_escaped_buffer[64]`. -/
def escapedBufferSize : Nat := 64

/-- The characters that do not end an escape sequence. -/
def continues (c : UInt8) : Bool :=
  c == ch '[' || c == ch '(' || c == ch '?' || c == ch ')' || c == ch ';' || isDigit c

/-- `console_put_escape_sequence`. -/
def putEscapeSequence (c : UInt8) (s : Console) : Option Console :=
  let buffer := s.escaped ++ [c]
  if escapedBufferSize ≤ s.escaped.length then none
  else if continues c then some { s with escaped := buffer }
  else if escapedBufferSize ≤ buffer.length then none
  else (unescape buffer { s with escaped := buffer }).map fun s => { s with escapedState := false }

/-! ## ui_console_print -/

/-- One character of the text. -/
def printChar (c : UInt8) (s : Console) : Option Console :=
  if c = esc then some { s with escapedState := true, escaped := [] }
  else if s.escapedState then putEscapeSequence c s
  else putChar c s

/-- The loop over the text. -/
def printChars : Bytes → Console → Option Console
  | [], s => some s
  | c :: cs, s => (printChar c s).bind (printChars cs)

/-- The end of `ui_console_print`: the top row is brought up to date. -/
def settle (s : Console) : Console :=
  let onText := s.forceTopRowOnText + max s.forceTopRowReserve 0
  { s with
    forceTopRowOnText := onText
    forceTopRowReserve := min s.forceTopRowReserve 0
    topRow := max onText 0 }

/-- `ui_console_print`. -/
def uiConsolePrint (text : Bytes) (s : Console) : Option Console := (printChars text s).map settle

/-! ## The other calls -/

/-- `ui_console_begin`. The two calls of `memset` run over the matrices as over one row. -/
def uiConsoleBegin (scr : Screen) (s : Console) : Console where
  text := fun row col =>
    if col = scr.columns - 1 then 0
    else if row * totalColumns + col < totalRows * scr.columns then ch ' ' else s.text row col
  colors := fun row col =>
    if row * totalColumns + col < totalRows * scr.columns then Color.zero else s.colors row col
  screenRows := scr.rows
  screenColumns := scr.columns
  topRow := 0
  forceTopRowOnText := 0
  forceTopRowReserve := 1 - scr.rows
  curRow := 0
  curColumn := 0
  escapedState := false
  escaped := s.escaped
  currentColor := s.frontColor
  frontColor := s.frontColor
  termColors := s.termColors

/-- `ui_console_scroll_up`. -/
def uiConsoleScrollUp (n : Int) (s : Console) : Option Console := do
  let top ← addInt s.topRow (-n)
  some { s with topRow := if top < 0 then 0 else top }

/-- `ui_console_scroll_down`. -/
def uiConsoleScrollDown (n : Int) (s : Console) : Option Console := do
  let maxRowTop := max (max (s.curRow - s.screenRows + 1) s.forceTopRowOnText) 0
  let top ← addInt s.topRow n
  some { s with topRow := if maxRowTop < top then maxRowTop else top }

/-- The rows that `draw_console_locked` reads: from `row` on, `n` more of them, up to the cursor. -/
def drawRows (s : Console) : Nat → Int → Option Unit
  | 0, _ => some ()
  | n + 1, row =>
      if 0 ≤ row ∧ row < totalRows ∧
          (List.range totalColumns.toNat).any fun col => s.text row col = 0 then
        if row = s.curRow then
          if s.inRow s.curColumn (s.curColumn + 1) then some () else none
        else drawRows s n (row + 1)
      else none

/-- `draw_console_locked`. -/
def drawConsole (s : Console) : Option Unit := drawRows s s.screenRows.toNat s.topRow

end OpenRecovery.Ui
