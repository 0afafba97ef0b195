import OpenRecovery.Storage.CString
import OpenRecovery.Ui.Console

/-!
# The log text and the menu

`ui.c`: the text overlay with the log, the menu above it, and what `draw_screen_locked` draws of
them. The two matrices are `text` and `menu`; every index into them is checked, and `none` stands
for an index out of range.

Of what is drawn there are the text lines and the bar behind the selected item. Left out are the
battery status at the end of the first title line, the scroll bar, the background and the progress.
-/

set_option autoImplicit false

namespace OpenRecovery.Ui

open OpenRecovery.Storage

def maxCols : ℕ := 96
def maxRows : ℕ := 64
def menuMaxRows : ℕ := 100

/-- The variables of the overlay. A number of rows or columns that is not positive is 0. -/
structure Overlay where
  textRows : ℕ
  textCols : ℕ
  text : ℕ → ℕ → UInt8
  textRow : ℕ
  textCol : ℕ
  textTop : ℕ
  menu : ℤ → ℕ → UInt8
  showMenu : Bool
  menuTop : ℤ
  menuItems : ℤ
  menuItemTop : ℤ
  menuItemsScreen : ℤ
  menuSel : ℤ
  menuTitleLength : ℤ

/-- The overlay as `ui_init` leaves it, with what it computes for the rows and columns of the
screen. -/
def uiInit (rows cols : ℕ) : Overlay where
  textRows := min rows maxRows
  textCols := min cols (maxCols - 1)
  text := fun _ _ => 0
  textRow := 0
  textCol := 0
  textTop := 1
  menu := fun _ _ => 0
  showMenu := false
  menuTop := 0
  menuItems := 0
  menuItemTop := 0
  menuItemsScreen := 0
  menuSel := 0
  menuTitleLength := 0

/-- The string in a row of a matrix. -/
def rowText (row : ℕ → UInt8) : Option Bytes :=
  let cells := (List.range maxCols).map row
  if 0 ∈ cells then some (cText cells) else none

/-- The string of a row, from its cells. -/
theorem rowText_eq {row : ℕ → UInt8} {cur : Bytes} (hcells : ∀ i (h : i < cur.length), row i = cur[i])
    (hend : row cur.length = 0) (hlt : cur.length < maxCols) (hnul : 0 ∉ cur) :
    rowText row = some cur := by
  have hfirst : (List.range cur.length).map row = cur := by
    refine List.ext_getElem (by rw [List.length_map, List.length_range]) fun i h h' => ?_
    rw [List.getElem_map, List.getElem_range]
    exact hcells i h'
  -- the row is the string, its NUL, and `k` more cells
  obtain ⟨k, hk⟩ : ∃ k, maxCols = cur.length + (k + 1) := ⟨maxCols - cur.length - 1, by omega⟩
  have hsplit : (List.range maxCols).map row =
      cur ++ 0 :: (List.range k).map fun i => row (cur.length + (i + 1)) := by
    rw [hk, List.range_add, List.map_append, hfirst, List.range_succ_eq_map, List.map_cons,
      List.map_cons, Nat.add_zero, hend, List.map_map, List.map_map]
    rfl
  simp only [rowText]
  rw [hsplit, if_pos (List.mem_append_right cur List.mem_cons_self), cText_append hnul]

/-! ## ui_print -/

namespace Overlay

def setText (row col : ℕ) (c : UInt8) (s : Overlay) : Option Overlay :=
  if row < maxRows ∧ col < maxCols then
    some { s with text := fun row' col' => if row' = row ∧ col' = col then c else s.text row' col' }
  else none

/-- The line is ended; the next one is in the next row of the ring. -/
def newLine (s : Overlay) : Option Overlay := do
  let s ← s.setText s.textRow s.textCol 0
  let row := (s.textRow + 1) % s.textRows
  some { s with
    textCol := 0
    textRow := row
    textTop := if row = s.textTop then (s.textTop + 1) % s.textRows else s.textTop }

def putLetter (c : UInt8) (s : Overlay) : Option Overlay := do
  let s ← s.setText s.textRow s.textCol c
  some { s with textCol := s.textCol + 1 }

/-- One round of the loop. -/
def putChar (c : UInt8) (s : Overlay) : Option Overlay := do
  -- a full line is ended by the letter that does not fit, not by its last
  let s ← if c = ch '\n' ∨ s.textCols ≤ s.textCol then s.newLine else some s
  if c ≠ ch '\n' then s.putLetter c else some s

def putChars : Bytes → Overlay → Option Overlay
  | [], s => some s
  | c :: cs, s => if c = 0 then some s else (s.putChar c).bind (putChars cs)

end Overlay

/-- `ui_print_raw`. -/
def uiPrintRaw (buf : Bytes) (s : Overlay) : Option Overlay :=
  if 0 < s.textRows ∧ 0 < s.textCols then do
    let s ← s.putChars buf
    s.setText s.textRow s.textCol 0
  else some s

/-- `ui_print`; the formatted text is cut to the buffer of 256 bytes. -/
def uiPrint (formatted : Bytes) (s : Overlay) : Option Overlay := uiPrintRaw (formatted.take 255) s

/-! ## ui_start_menu, ui_menu_select, ui_end_menu -/

namespace Overlay

/-- `strncpy` to a row of the menu, and the terminator after it. -/
def setMenu (row : ℕ) (str : Bytes) (s : Overlay) : Option Overlay :=
  -- `menu` has `MENU_MAX_ROWS` rows in the loop and `MAX_ROWS` in its type
  if row < maxRows ∧ s.textCols < maxCols then
    some { s with
      menu := fun row' col =>
        if row' = row ∧ col < s.textCols then (cText str).getD col 0
        else if row' = row ∧ col = s.textCols then 0
        else s.menu row' col }
  else none

/-- The strings of a list that ends with `NULL`, from the row `i` on; with the row after the last.
-/
def copyRows : ℕ → List Bytes → Overlay → Option (ℕ × Overlay)
  | i, [], s => some (i, s)
  | i, str :: strs, s =>
      if i < menuMaxRows then (s.setMenu i str).bind (copyRows (i + 1) strs) else some (i, s)

end Overlay

/-- `ui_start_menu`. -/
def uiStartMenu (headers items : List Bytes) (titleLength startSel : ℤ) (s : Overlay) :
    Option Overlay :=
  let s := { s with menuTitleLength := titleLength }
  if 0 < s.textRows ∧ 0 < s.textCols then do
    let (top, s) ← s.copyRows 0 headers
    let (stop, s) ← s.copyRows top items
    let menuItems : ℤ := stop - top
    -- four rows stay for the log
    let room : ℤ := (s.textRows - 4) - top
    let screen := if menuItems < room then menuItems else room
    some { s with
      menuTop := top
      menuItems := menuItems
      menuItemsScreen := screen
      showMenu := true
      menuSel := startSel
      menuItemTop := if screen ≤ startSel then startSel - screen + 1 else 0 }
  else some s

/-- `ui_menu_select`; with the selection it returns. -/
def uiMenuSelect (sel : ℤ) (s : Overlay) : ℤ × Overlay :=
  if s.showMenu then
    let low := if sel < 0 then 0 else sel
    let new := if s.menuItems ≤ low then s.menuItems - 1 else low
    let t := { s with menuSel := new }
    -- only a selection that changes can scroll
    if new ≠ s.menuSel then
      if new < s.menuItemTop then (new, { t with menuItemTop := new })
      else if s.menuItemTop + s.menuItemsScreen ≤ new then
        (new, { t with menuItemTop := new - s.menuItemsScreen + 1 })
      else (new, t)
    else (new, t)
  -- without a menu the selection is returned as it is
  else (sel, s)

/-- `ui_end_menu`. -/
def uiEndMenu (s : Overlay) : Overlay :=
  if s.showMenu ∧ 0 < s.textRows ∧ 0 < s.textCols then { s with showMenu := false } else s

/-! ## draw_screen_locked -/

/-- A line of text on the screen: the row of the screen, the row of the matrix it is read from, and
for the menu whether it has the colour of the selected item. -/
inductive Line where
  | title (row : ℤ)
  | menu (row index : ℤ) (selected : Bool)
  | log (row index : ℕ)

/-- The rows of a loop `for (; i < stop; ++i)`. -/
def rowsFrom (i stop : ℤ) : List ℤ := (List.range (stop - i).toNat).map fun k : ℕ => i + k

/-- What is drawn of the menu: the rows with a bar behind them, and the lines; with the row after
it. -/
structure MenuDrawn where
  bars : List ℤ
  lines : List Line
  next : ℤ

namespace Overlay

def drawMenu (s : Overlay) : MenuDrawn :=
  let bar := s.menuTop + s.menuSel - s.menuItemTop
  let titles := (rowsFrom 0 s.menuTitleLength).map Line.title
  let i := max 0 s.menuTitleLength
  let headers := (rowsFrom i s.menuTop).map fun i => Line.menu i i false
  let i := max i s.menuTop
  if s.menuItems ≠ s.menuItemsScreen then
    let stop := s.menuTop + s.menuItemsScreen
    let items := (rowsFrom i stop).map fun i =>
      Line.menu i (i + s.menuItemTop) (i + s.menuItemTop = s.menuTop + s.menuSel)
    ⟨[bar], titles ++ headers ++ items, max i stop + 1⟩
  else
    let stop := s.menuTop + s.menuItems
    let items := (rowsFrom i stop).map fun i => Line.menu i i (i = s.menuTop + s.menuSel)
    ⟨[bar, s.menuTop + s.menuSel], titles ++ headers ++ items, max i stop + 1⟩

/-- The rows of the log from the row `first` of the screen on. -/
def drawLog (first : ℕ) (s : Overlay) : List Line :=
  (List.range' first (s.textRows - first)).map fun i => Line.log i ((i + s.textTop) % s.textRows)

end Overlay

/-- `draw_screen_locked` for the normal view, with the text shown. -/
def drawScreen (s : Overlay) : List Line :=
  if s.showMenu then s.drawMenu.lines ++ s.drawLog s.drawMenu.next.toNat else s.drawLog 0

namespace Overlay

/-- The string of a row of `text`. -/
def logText (index : ℕ) (s : Overlay) : Option Bytes :=
  if index < maxRows then rowText (s.text index) else none

/-- The string of a row of `menu`. -/
def menuText (index : ℤ) (s : Overlay) : Option Bytes :=
  if 0 ≤ index ∧ index < maxRows then rowText (s.menu index) else none

/-- The text of a line. -/
def lineText (s : Overlay) : Line → Option Bytes
  | .title row => s.menuText row
  | .menu _ index _ => s.menuText index
  | .log _ index => s.logText index

end Overlay

end OpenRecovery.Ui
