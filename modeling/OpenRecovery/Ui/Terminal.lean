import OpenRecovery.Ui.Chunks

/-!
# Plain text on the console

The idealised terminal has rows without end; a cell is `none` until something is written to it. It
counts the rows that are no longer kept: 64 more of them each time the cursor would be in row 1024
of those that are.

The console is this terminal, seen through a window of 1024 rows, on a background: the matrix as
`ui_console_begin` leaves it, and blanks below it. `ui_console_begin` clears the matrix as if its
rows were as long as the lines of the screen, so that on a screen of less than 127 columns the last
rows of the background are those of an earlier session (`console_shows_iff`).
-/

set_option autoImplicit false

namespace OpenRecovery.Ui

open OpenRecovery.Storage

/-! ## The idealised terminal -/

structure Terminal where
  text : Int → Int → Option UInt8
  colors : Int → Int → Option Color
  row : Int
  column : Int
  dropped : Int
  color : Color

namespace Terminal

def empty (color : Color) : Terminal := ⟨fun _ _ => none, fun _ _ => none, 0, 0, 0, color⟩

/-- Blanks in the row of the cursor, up to the column `stop`. -/
def blanks (stop : Int) (t : Terminal) : Terminal :=
  { t with
    text := fun row col =>
      if row = t.row ∧ t.column ≤ col ∧ col < stop then some (ch ' ') else t.text row col }

def newLine (t : Terminal) : Terminal := { t with row := t.row + 1, column := 0 }

/-- One character on lines of `width` columns. -/
def write (width : Int) (c : UInt8) (t : Terminal) : Terminal :=
  if c = ch '\n' then { t with row := t.row + 1 }
  else if c = ch '\r' then { t with column := 0 }
  else if c = ch '\t' then
    let stop := t.column + (5 - t.column % 5)
    if stop < width - 1 then { t.blanks stop with column := stop }
    else (t.blanks width).newLine
  else if c = 8 then
    if 0 < t.column then { t with column := t.column - 1 }
    else if 0 < t.row then { t with row := t.row - 1, column := width - 1 }
    else t
  else if c = beep then t
  else
    let written := { t with
      text := fun row col => if row = t.row ∧ col = t.column then some c else t.text row col
      colors := fun row col =>
        if row = t.row ∧ col = t.column then some t.color else t.colors row col }
    if t.column + 1 < width then { written with column := t.column + 1 } else written.newLine

/-- The oldest 64 rows are dropped when the cursor has passed the last one. -/
def drop (t : Terminal) : Terminal :=
  if t.row - t.dropped = totalRows then { t with dropped := t.dropped + bufferRows } else t

def put (width : Int) (t : Terminal) (c : UInt8) : Terminal := (t.write width c).drop

/-- A text on an empty terminal. -/
def run (width : Int) (color : Color) (text : Bytes) : Terminal :=
  text.foldl (put width) (empty color)

/-- The cursor is never moved above the oldest row that is kept. -/
def Keeps (width : Int) : Bytes → Terminal → Prop
  | [], _ => True
  | c :: cs, t => (c = 8 → t.column = 0 → t.row = t.dropped → t.row = 0) ∧ Keeps width cs (t.put width c)

end Terminal

/-! ## The console as a window -/

/-- What is where nothing was written: the matrix at the beginning of the session, and blanks below
it. -/
def background (scr : Screen) (s : Console) (row col : Int) : UInt8 :=
  if row < totalRows then (uiConsoleBegin scr s).text row col else ch ' '

/-- The columns without the one of the null terminator. -/
def Screen.width (scr : Screen) : Int := scr.columns - 1

/-- The console `t` shows the rows of the terminal that are kept, on the background of a session
begun in the state `s`; with a bound for the row of the cursor. -/
structure Shows (scr : Screen) (s : Console) (limit : Int) (T : Terminal) (t : Console) : Prop where
  columns_eq : t.screenColumns = scr.columns
  plain : t.escapedState = false
  color : t.currentColor = T.color
  dropped_nonneg : 0 ≤ T.dropped
  row_eq : t.curRow = T.row - T.dropped
  row_nonneg : 0 ≤ t.curRow
  row_lt : t.curRow < limit
  column_eq : t.curColumn = T.column
  column_nonneg : 0 ≤ t.curColumn
  column_lt : t.curColumn < scr.width
  text : ∀ row col, 0 ≤ row → row < totalRows → 0 ≤ col → col < scr.width →
    t.text row col = (T.text (row + T.dropped) col).getD (background scr s (row + T.dropped) col)
  colors : ∀ row col, 0 ≤ row → row < totalRows → 0 ≤ col → col < scr.width →
    ∀ x ∈ T.colors (row + T.dropped) col, t.colors row col = x
  below : ∀ row col, T.dropped + totalRows ≤ row → T.text row col = none ∧ T.colors row col = none

section Step

variable {scr : Screen} {s t : Console} {T : Terminal} {c : UInt8}

theorem Shows.mono {limit limit' : Int} (h : Shows scr s limit T t) (hle : limit ≤ limit') :
    Shows scr s limit' T t := { h with row_lt := lt_of_lt_of_le h.row_lt hle }

/-- Cells of the current row, written on both sides. -/
theorem Shows.text_update (h : Shows scr s totalRows T t) (P : Int → Prop) [DecidablePred P]
    (x : UInt8) (row col : Int) (h0 : 0 ≤ row) (hlt : row < totalRows) (hcol : 0 ≤ col)
    (hcol' : col < scr.width) :
    (if row = t.curRow ∧ P col then x else t.text row col) =
      (if row + T.dropped = T.row ∧ P col then some x else T.text (row + T.dropped) col).getD
        (background scr s (row + T.dropped) col) := by
  have hrow := h.row_eq
  by_cases hcell : row = t.curRow ∧ P col
  · rw [if_pos hcell, if_pos ⟨by omega, hcell.2⟩, Option.getD_some]
  · rw [if_neg hcell, if_neg fun hcell' => hcell ⟨by omega, hcell'.2⟩]
    exact h.text row col h0 hlt hcol hcol'

/-- The current row is one of those that are kept. -/
theorem Shows.ne_row (h : Shows scr s totalRows T t) {row : Int}
    (hbelow : T.dropped + totalRows ≤ row) : row ≠ T.row := by
  have hrow := h.row_eq
  have hlt := h.row_lt
  omega

theorem Shows.lineFeed (h : Shows scr s totalRows T t) :
    Shows scr s (totalRows + 1) { T with row := T.row + 1 } (Ui.lineFeed t) := by
  have hrow := h.row_eq
  have hnonneg := h.row_nonneg
  have hlt := h.row_lt
  refine { h with row_eq := ?_, row_nonneg := ?_, row_lt := ?_ }
  · show t.curRow + 1 = T.row + 1 - T.dropped
    omega
  · show 0 ≤ t.curRow + 1
    omega
  · show t.curRow + 1 < totalRows + 1
    omega

theorem Shows.column {limit col : Int} (h : Shows scr s limit T t) (h0 : 0 ≤ col)
    (hlt : col < scr.width) :
    Shows scr s limit { T with column := col } { t with curColumn := col } :=
  { h with column_eq := rfl, column_nonneg := h0, column_lt := hlt }

theorem Screen.width_pos (scr : Screen) : 0 < scr.width := by
  have hcolumns := scr.columns_ge
  unfold Screen.width
  omega

theorem Shows.newLine (h : Shows scr s totalRows T t) :
    Shows scr s (totalRows + 1) T.newLine (wrapLine t) :=
  h.lineFeed.column (le_refl 0) scr.width_pos

/-- Blanks from the cursor on. -/
theorem Shows.blanks (h : Shows scr s totalRows T t) (stop : Int) (hstop : stop ≤ scr.width)
    (hlt : t.curColumn < stop) :
    ∃ t', fillBlanks t t.curColumn stop = some t' ∧ Shows scr s totalRows (T.blanks stop) t' := by
  have hcolumns := scr.columns_le
  have hin : t.inRow t.curColumn stop :=
    ⟨h.row_nonneg, h.row_lt, h.column_nonneg, by unfold Screen.width at hstop; omega⟩
  rw [fillBlanks, if_neg (by omega), if_pos hin]
  refine ⟨_, rfl, { h with text := ?_, below := ?_ }⟩
  · simp only [Terminal.blanks, ← h.column_eq]
    exact h.text_update (fun col => t.curColumn ≤ col ∧ col < stop) (ch ' ')
  · intro row col hbelow
    refine ⟨?_, (h.below row col hbelow).2⟩
    simp only [Terminal.blanks]
    rw [if_neg fun hcell => h.ne_row hbelow hcell.1]
    exact (h.below row col hbelow).1

/-- A character on both sides. -/
theorem Shows.written (h : Shows scr s totalRows T t) (c : UInt8) :
    Shows scr s totalRows
      { T with
        text := fun row col => if row = T.row ∧ col = T.column then some c else T.text row col
        colors := fun row col =>
          if row = T.row ∧ col = T.column then some T.color else T.colors row col }
      { t with
        text := fun row col => if row = t.curRow ∧ col = t.curColumn then c else t.text row col
        colors := fun row col =>
          if row = t.curRow ∧ col = t.curColumn then t.currentColor else t.colors row col } := by
  have hrow := h.row_eq
  refine { h with text := ?_, colors := ?_, below := ?_ }
  · simp only [← h.column_eq]
    exact h.text_update (fun col => col = t.curColumn) c
  · intro row col h0 hlt hcol hcol' x hx
    simp only [← h.column_eq] at hx ⊢
    by_cases hcell : row = t.curRow ∧ col = t.curColumn
    · rw [if_pos ⟨by omega, hcell.2⟩] at hx
      rw [if_pos hcell, h.color]
      exact Option.some.inj hx
    · rw [if_neg fun hcell' => hcell ⟨by omega, hcell'.2⟩] at hx
      rw [if_neg hcell]
      exact h.colors row col h0 hlt hcol hcol' x hx
  · intro row col hbelow
    have hnot : ¬ (row = T.row ∧ col = T.column) := fun hcell => h.ne_row hbelow hcell.1
    exact ⟨(if_neg hnot).trans (h.below row col hbelow).1,
      (if_neg hnot).trans (h.below row col hbelow).2⟩

theorem Shows.tab (h : Shows scr s totalRows T t) :
    ∃ t', putTab t = some t' ∧ Shows scr s (totalRows + 1) (T.write scr.width (ch '\t')) t' := by
  have hcol := h.column_nonneg
  have hlt := h.column_lt
  have hscreen := h.columns_eq
  have hcolumn := h.column_eq
  have hmod := Int.emod_lt_of_pos t.curColumn (show (0 : Int) < 5 by decide)
  have hmod' := Int.emod_nonneg t.curColumn (show (5 : Int) ≠ 0 by decide)
  have hsame : t.curColumn.tmod 5 = t.curColumn % 5 := Int.tmod_eq_emod_of_nonneg hcol
  have hwrite : T.write scr.width (ch '\t') =
      if t.curColumn + (5 - t.curColumn % 5) < scr.width - 1 then
        { T.blanks (t.curColumn + (5 - t.curColumn % 5)) with
          column := t.curColumn + (5 - t.curColumn % 5) }
      else (T.blanks scr.width).newLine := by
    rw [hcolumn]
    rfl
  rw [hwrite]
  simp only [putTab, hsame]
  unfold Screen.width at hlt ⊢
  by_cases hstop : t.curColumn + (5 - t.curColumn % 5) < scr.columns - 1 - 1
  · rw [if_pos hstop, if_neg (by omega)]
    obtain ⟨t', heq, ht'⟩ := h.blanks (t.curColumn + (5 - t.curColumn % 5))
      (by unfold Screen.width; omega) (by omega)
    refine ⟨_, by rw [heq]; rfl, (ht'.mono (by omega)).column (by omega) ?_⟩
    unfold Screen.width
    omega
  · rw [if_neg hstop, if_pos (by omega)]
    obtain ⟨t', heq, ht'⟩ := h.blanks (scr.columns - 1) (le_refl _) hlt
    refine ⟨_, by rw [hscreen, heq]; rfl, ht'.newLine⟩

theorem Shows.backspace (h : Shows scr s totalRows T t)
    (hkeeps : T.column = 0 → T.row = T.dropped → T.row = 0) :
    Shows scr s (totalRows + 1) (T.write scr.width 8) (putBackspace t) := by
  have hcol := h.column_nonneg
  have hlt := h.column_lt
  have hcolumn := h.column_eq
  have hrow := h.row_eq
  have hnonneg := h.row_nonneg
  have hrowlt := h.row_lt
  have hdropped := h.dropped_nonneg
  have hscreen := h.columns_eq
  have hwrite : T.write scr.width 8 =
      if 0 < T.column then { T with column := T.column - 1 }
      else if 0 < T.row then { T with row := T.row - 1, column := scr.width - 1 }
      else T := rfl
  rw [hwrite, putBackspace]
  by_cases hzero : t.curColumn = 0
  · rw [if_pos hzero, if_neg (by omega)]
    by_cases htop : t.curRow = 0
    · -- the oldest row that is kept, which is the first row of all
      have hfirst := hkeeps (by omega) (by omega)
      rw [if_pos htop, if_neg (by omega)]
      exact h.mono (by omega)
    · rw [if_neg htop, if_pos (by omega)]
      refine { h with
        row_eq := ?_, row_nonneg := ?_, row_lt := ?_, column_eq := ?_, column_nonneg := ?_,
        column_lt := ?_ }
      · show t.curRow - 1 = T.row - 1 - T.dropped
        omega
      · show 0 ≤ t.curRow - 1
        omega
      · show t.curRow - 1 < totalRows + 1
        omega
      · show t.screenColumns - 2 = scr.width - 1
        unfold Screen.width
        omega
      · show 0 ≤ t.screenColumns - 2
        have hcolumns := scr.columns_ge
        omega
      · show t.screenColumns - 2 < scr.width
        unfold Screen.width
        omega
  · rw [if_neg hzero, if_pos (by omega), ← hcolumn]
    exact (h.mono (by omega)).column (by omega) (by omega)

theorem Shows.letter (h : Shows scr s totalRows T t)
    (hwrite : ∀ width, T.write width c =
      if T.column + 1 < width then
        { T with
          text := fun row col => if row = T.row ∧ col = T.column then some c else T.text row col
          colors := fun row col =>
            if row = T.row ∧ col = T.column then some T.color else T.colors row col
          column := T.column + 1 }
      else Terminal.newLine { T with
          text := fun row col => if row = T.row ∧ col = T.column then some c else T.text row col
          colors := fun row col =>
            if row = T.row ∧ col = T.column then some T.color else T.colors row col }) :
    ∃ t', putText c t = some t' ∧ Shows scr s (totalRows + 1) (T.write scr.width c) t' := by
  have hcol := h.column_nonneg
  have hlt := h.column_lt
  have hcolumn := h.column_eq
  have hscreen := h.columns_eq
  have hcolumns := scr.columns_le
  unfold Screen.width at hlt
  have hin : t.inRow t.curColumn (t.curColumn + 1) :=
    ⟨h.row_nonneg, h.row_lt, hcol, by omega⟩
  have hwritten := h.written c
  rw [hwrite, putText, if_pos hin]
  simp only
  unfold Screen.width
  by_cases hwrap : t.screenColumns - 2 < t.curColumn + 1
  · rw [if_pos hwrap, if_neg (by omega)]
    refine ⟨_, rfl, ?_⟩
    -- the column is set to 0 in both orders
    exact hwritten.newLine
  · rw [if_neg hwrap, if_pos (by omega), ← hcolumn]
    rw [← hcolumn] at hwritten
    refine ⟨_, rfl, (hwritten.mono (by omega)).column (by omega) ?_⟩
    unfold Screen.width
    omega

/-- Every character does the same on both sides, up to the shift. -/
theorem Shows.putRaw (h : Shows scr s totalRows T t)
    (hkeeps : c = 8 → T.column = 0 → T.row = T.dropped → T.row = 0) :
    ∃ t', Ui.putRaw c t = some t' ∧ Shows scr s (totalRows + 1) (T.write scr.width c) t' := by
  by_cases hn : c = ch '\n'
  · subst hn
    exact ⟨_, rfl, h.lineFeed⟩
  by_cases hr : c = ch '\r'
  · subst hr
    exact ⟨_, rfl, (h.mono (by omega)).column (le_refl 0) scr.width_pos⟩
  by_cases ht : c = ch '\t'
  · subst ht
    exact h.tab
  by_cases hb : c = 8
  · subst hb
    exact ⟨_, rfl, h.backspace (hkeeps rfl)⟩
  by_cases hbell : c = beep
  · subst hbell
    exact ⟨_, rfl, h.mono (by omega)⟩
  · have hraw : Ui.putRaw c t = putText c t := by simp [Ui.putRaw, hn, hr, ht, hb, hbell]
    rw [hraw]
    exact h.letter fun width => by simp [Terminal.write, hn, hr, ht, hb, hbell]

/-- A shift drops rows. -/
theorem Shows.shiftRows (h : Shows scr s (totalRows + 1) T t) :
    ∃ t', Ui.shiftRows t = some t' ∧ Shows scr s totalRows T.drop t' := by
  have hrow := h.row_eq
  have hlt := h.row_lt
  have hdropped := h.dropped_nonneg
  have hscreen := h.columns_eq
  have hcolumns := scr.columns_ge
  have hcolumns' := scr.columns_le
  rw [Ui.shiftRows, Terminal.drop]
  by_cases hlast : t.curRow = totalRows
  · rw [if_pos hlast, if_pos ⟨by omega, by omega⟩, if_pos (by omega)]
    refine ⟨_, rfl, { h with
      dropped_nonneg := ?_, row_eq := ?_, row_nonneg := ?_, row_lt := ?_, text := ?_, colors := ?_,
      below := ?_ }⟩
    · show 0 ≤ T.dropped + bufferRows
      unfold bufferRows
      omega
    · show t.curRow - bufferRows = T.row - (T.dropped + bufferRows)
      omega
    · show 0 ≤ t.curRow - bufferRows
      unfold totalRows at hlast
      unfold bufferRows
      omega
    · show t.curRow - bufferRows < totalRows
      unfold bufferRows
      omega
    · intro row col h0 hrowlt hcol hcol'
      have hinside : ¬ t.screenColumns ≤ col := by
        unfold Screen.width at hcol'
        omega
      have hsum : row + (T.dropped + bufferRows) = row + bufferRows + T.dropped := by omega
      simp only [hsum]
      rw [if_neg hinside]
      by_cases hup : row < totalRows - bufferRows
      · rw [if_pos hup]
        exact h.text (row + bufferRows) col (by unfold bufferRows; omega) (by omega) hcol hcol'
      · -- the rows that have come in are new on both sides
        have hnew := (h.below (row + bufferRows + T.dropped) col (by omega)).1
        have hbackground : background scr s (row + bufferRows + T.dropped) col = ch ' ' :=
          if_neg (by omega)
        have hcell : col ≠ t.screenColumns - 1 := by
          unfold Screen.width at hcol'
          omega
        rw [if_neg hup, hnew, Option.getD_none, hbackground, blankRow, if_neg hcell]
    · intro row col h0 hrowlt hcol hcol' x hx
      have hinside : ¬ t.screenColumns ≤ col := by
        unfold Screen.width at hcol'
        omega
      have hsum : row + (T.dropped + bufferRows) = row + bufferRows + T.dropped := by omega
      simp only [hsum] at hx
      simp only
      rw [if_neg hinside]
      by_cases hup : row < totalRows - bufferRows
      · rw [if_pos hup]
        exact h.colors (row + bufferRows) col (by unfold bufferRows; omega) (by omega) hcol hcol' x hx
      · rw [(h.below (row + bufferRows + T.dropped) col (by omega)).2] at hx
        cases hx
    · intro row col hbelow
      have hbelow' : T.dropped + bufferRows + totalRows ≤ row := hbelow
      refine h.below row col ?_
      unfold bufferRows at hbelow'
      omega
  · rw [if_neg hlast, if_neg (by omega)]
    exact ⟨t, rfl, { h with row_lt := by omega }⟩

theorem Shows.putChar (h : Shows scr s totalRows T t)
    (hkeeps : c = 8 → T.column = 0 → T.row = T.dropped → T.row = 0) :
    ∃ t', Ui.putChar c t = some t' ∧ Shows scr s totalRows (T.put scr.width c) t' := by
  obtain ⟨u, hraw, hu⟩ := h.putRaw hkeeps
  obtain ⟨t', hshift, ht'⟩ := hu.shiftRows
  exact ⟨t', by rw [Ui.putChar, hraw]; exact hshift, ht'⟩

theorem Shows.printChars {text : Bytes} (h : Shows scr s totalRows T t) (hesc : esc ∉ text)
    (hkeeps : Terminal.Keeps scr.width text T) :
    ∃ t', Ui.printChars text t = some t' ∧
      Shows scr s totalRows (text.foldl (Terminal.put scr.width) T) t' := by
  induction text generalizing T t with
  | nil => exact ⟨t, rfl, h⟩
  | cons c text ih =>
    obtain ⟨hc, hesc⟩ := not_or.mp (fun hmem => hesc (List.mem_cons.mpr hmem))
    obtain ⟨u, hchar, hu⟩ := h.putChar hkeeps.1
    have hprint : Ui.printChar c t = some u := by
      rw [Ui.printChar, if_neg (Ne.symm hc), h.plain, if_neg Bool.false_ne_true]
      exact hchar
    obtain ⟨t', hrest, ht'⟩ := ih hu hesc hkeeps.2
    exact ⟨t', by rw [Ui.printChars, hprint]; exact hrest, ht'⟩

theorem Shows.settle (h : Shows scr s totalRows T t) : Shows scr s totalRows T (Ui.settle t) :=
  { h with }

/-- The end of a print leaves what there is to see of the text as it is. -/
theorem Shows.print {text : Bytes} (h : Shows scr s totalRows T t) (hesc : esc ∉ text)
    (hkeeps : Terminal.Keeps scr.width text T) :
    ∃ t', uiConsolePrint text t = some t' ∧
      Shows scr s totalRows (text.foldl (Terminal.put scr.width) T) t' := by
  obtain ⟨u, hchars, hu⟩ := h.printChars hesc hkeeps
  exact ⟨Ui.settle u, by rw [uiConsolePrint, hchars]; rfl, hu.settle⟩

end Step

/-! ## Sessions -/

/-- Several prints. -/
def printAll : List Bytes → Console → Option Console
  | [], t => some t
  | text :: texts, t => (uiConsolePrint text t).bind (printAll texts)

theorem Terminal.keeps_append {width : Int} {text text' : Bytes} {T : Terminal} :
    Terminal.Keeps width (text ++ text') T ↔
      Terminal.Keeps width text T ∧
        Terminal.Keeps width text' (text.foldl (Terminal.put width) T) := by
  induction text generalizing T with
  | nil => exact (and_iff_right trivial).symm
  | cons c text ih =>
    rw [List.cons_append, Terminal.Keeps, Terminal.Keeps, ih, List.foldl_cons, and_assoc]

section Session

variable {scr : Screen} {s t : Console} {T : Terminal}

theorem Shows.printAll {texts : List Bytes} (h : Shows scr s totalRows T t)
    (hesc : ∀ text ∈ texts, esc ∉ text) (hkeeps : Terminal.Keeps scr.width texts.flatten T) :
    ∃ t', Ui.printAll texts t = some t' ∧
      Shows scr s totalRows (texts.flatten.foldl (Terminal.put scr.width) T) t' := by
  induction texts generalizing T t with
  | nil => exact ⟨t, rfl, h⟩
  | cons text texts ih =>
    rw [List.flatten_cons] at hkeeps ⊢
    obtain ⟨hfirst, hrest⟩ := Terminal.keeps_append.mp hkeeps
    obtain ⟨hesc, hescs⟩ := List.forall_mem_cons.mp hesc
    obtain ⟨u, hprint, hu⟩ := h.print hesc hfirst
    obtain ⟨t', hall, ht'⟩ := ih hu hescs hrest
    refine ⟨t', by rw [Ui.printAll, hprint]; exact hall, ?_⟩
    rw [List.foldl_append]
    exact ht'

/-- `ui_console_begin` shows the empty terminal. -/
theorem shows_begin (scr : Screen) (s : Console) :
    Shows scr s totalRows (Terminal.empty s.frontColor) (uiConsoleBegin scr s) where
  columns_eq := rfl
  plain := rfl
  color := rfl
  dropped_nonneg := le_refl 0
  row_eq := rfl
  row_nonneg := le_refl 0
  row_lt := by
    show (0 : Int) < totalRows
    decide
  column_eq := rfl
  column_nonneg := le_refl 0
  column_lt := scr.width_pos
  text row col _ hlt _ _ := by
    show _ = background scr s (row + 0) col
    rw [Int.add_zero, background, if_pos hlt]
  colors _ _ _ _ _ _ _ hx := by cases hx
  below _ _ _ := ⟨rfl, rfl⟩

end Session

/-- The console shows the rows of the idealised terminal that are kept, with blanks where nothing
was written, and its cursor. -/
def ShowsText (scr : Screen) (s : Console) (texts : List Bytes) : Prop :=
  let T := Terminal.run scr.width s.frontColor texts.flatten
  ∃ t, printAll texts (uiConsoleBegin scr s) = some t ∧
    t.curRow = T.row - T.dropped ∧ t.curColumn = T.column ∧
    ∀ row col, 0 ≤ row → row < totalRows → 0 ≤ col → col < scr.width →
      t.text row col = (T.text (row + T.dropped) col).getD (ch ' ') ∧
        ∀ x ∈ T.colors (row + T.dropped) col, t.colors row col = x

/-- The condition: every cell that `ui_console_begin` does not clear was blank before, unless the
text writes to it or its row is dropped. -/
def StaleBlank (scr : Screen) (s : Console) (texts : List Bytes) : Prop :=
  let T := Terminal.run scr.width s.frontColor texts.flatten
  ∀ row col, T.dropped ≤ row → row < totalRows → 0 ≤ col → col < scr.width →
    totalRows * scr.columns ≤ row * totalColumns + col → T.text row col = none →
      s.text row col = ch ' '

/-- A cell of the background is blank, or it is one that was not cleared. -/
theorem background_cell {scr : Screen} {s : Console} {row col : Int} (hcol : col < scr.width) :
    background scr s row col =
      if row < totalRows ∧ totalRows * scr.columns ≤ row * totalColumns + col then s.text row col
      else ch ' ' := by
  have hcell : col ≠ scr.columns - 1 := by
    unfold Screen.width at hcol
    omega
  rw [background]
  by_cases hrow : row < totalRows
  · simp only [uiConsoleBegin]
    rw [if_pos hrow, if_neg hcell]
    by_cases hcleared : row * totalColumns + col < totalRows * scr.columns
    · rw [if_pos hcleared, if_neg fun h => absurd h.2 (not_le.mpr hcleared)]
    · rw [if_neg hcleared, if_pos ⟨hrow, not_lt.mp hcleared⟩]
  · rw [if_neg hrow, if_neg fun h => hrow h.1]

/-- Plain text is shown as on the idealised terminal exactly if no cell is left over from before. -/
theorem console_shows_iff (scr : Screen) (s : Console) (texts : List Bytes)
    (hesc : ∀ text ∈ texts, esc ∉ text)
    (hkeeps : Terminal.Keeps scr.width texts.flatten (Terminal.empty s.frontColor)) :
    ShowsText scr s texts ↔ StaleBlank scr s texts := by
  obtain ⟨t, hprint, ht⟩ := (shows_begin scr s).printAll hesc hkeeps
  have hrun : texts.flatten.foldl (Terminal.put scr.width) (Terminal.empty s.frontColor) =
      Terminal.run scr.width s.frontColor texts.flatten := rfl
  rw [hrun] at ht
  have hdropped := ht.dropped_nonneg
  unfold ShowsText StaleBlank
  generalize Terminal.run scr.width s.frontColor texts.flatten = T at ht hdropped ⊢
  simp only
  constructor
  · rintro ⟨t', hprint', -, -, hcells⟩ row col hkept hlt h0 hcol hstale hnone
    cases hprint.symm.trans hprint'
    -- the cell in the window
    have hrow : row - T.dropped + T.dropped = row := by omega
    have hideal := (hcells (row - T.dropped) col (by omega) (by omega) h0 hcol).1
    have hreal := ht.text (row - T.dropped) col (by omega) (by omega) h0 hcol
    rw [hrow, hnone, Option.getD_none] at hideal hreal
    rw [background_cell hcol, if_pos ⟨hlt, hstale⟩] at hreal
    exact hreal.symm.trans hideal
  · intro hstale
    refine ⟨t, hprint, ht.row_eq, ht.column_eq, ?_⟩
    intro row col h0 hlt hcol hcol'
    refine ⟨?_, ht.colors row col h0 hlt hcol hcol'⟩
    rw [ht.text row col h0 hlt hcol hcol']
    cases hcell : T.text (row + T.dropped) col with
    | some c => rfl
    | none =>
      rw [Option.getD_none, Option.getD_none, background_cell hcol']
      by_cases hold : row + T.dropped < totalRows ∧
          totalRows * scr.columns ≤ (row + T.dropped) * totalColumns + col
      · rw [if_pos hold]
        exact hstale (row + T.dropped) col (by omega) hold.1 hcol hcol' hold.2 hcell
      · rw [if_neg hold]

/-- With rows as long as those of the matrix, everything is cleared. -/
theorem staleBlank_of_full {scr : Screen} {s : Console} {texts : List Bytes}
    (hfull : scr.columns = totalColumns) : StaleBlank scr s texts := by
  intro row col _ hlt _ hcol hstale
  unfold Screen.width at hcol
  unfold totalRows at hlt hstale
  unfold totalColumns at hfull hstale
  omega

namespace Sample

/-- An earlier session that has left blanks only. -/
def blank : Console := { start with text := fun _ _ => ch ' ' }

theorem console_shows_letter : ShowsText scr blank [[ch 'a', 8], [ch '\n']] := by
  have hesc : ∀ text ∈ [[ch 'a', 8], [ch '\n']], esc ∉ text := by decide
  have hkeeps : Terminal.Keeps scr.width [[ch 'a', 8], [ch '\n']].flatten (Terminal.empty blank.frontColor) :=
    ⟨fun h => absurd h (by decide), fun _ h => absurd h (by decide),
      fun h => absurd h (by decide), trivial⟩
  exact (console_shows_iff scr blank _ hesc hkeeps).mpr fun _ _ _ _ _ _ _ _ => rfl

/-- A letter in row 32 of one session is still there in the next one. -/
theorem stale_letter_shown : ∃ s,
    uiConsolePrint (List.replicate 32 (ch '\n') ++ [ch 'a']) (uiConsoleBegin scr start) = some s ∧
      ¬ ShowsText scr s [List.replicate 33 (ch '\n')] := by
  have hfirst : ((uiConsolePrint (List.replicate 32 (ch '\n') ++ [ch 'a'])
      (uiConsoleBegin scr start)).bind fun s =>
        (printAll [List.replicate 33 (ch '\n')] (uiConsoleBegin scr s)).map fun t =>
          (t.text 32 0, s.frontColor)) = some (ch 'a', initFrontColor) := by decide +kernel
  have hideal : ((Terminal.run scr.width initFrontColor [List.replicate 33 (ch '\n')].flatten).text (32 + 0) 0,
      (Terminal.run scr.width initFrontColor [List.replicate 33 (ch '\n')].flatten).dropped) = (none, 0) := by
    decide +kernel
  obtain ⟨s, hs, hnext⟩ := Option.bind_eq_some_iff.mp hfirst
  obtain ⟨t, ht, heq⟩ := Option.map_eq_some_iff.mp hnext
  obtain ⟨hcell, hcolor⟩ := Prod.mk.inj heq
  refine ⟨s, hs, ?_⟩
  rintro ⟨t', ht', -, -, hcells⟩
  cases ht.symm.trans ht'
  have hshown := (hcells 32 0 (by decide) (by decide) (by decide) (by decide)).1
  obtain ⟨hnone, hdropped⟩ := Prod.mk.inj hideal
  rw [hcolor] at hshown
  generalize Terminal.run scr.width initFrontColor [List.replicate 33 (ch '\n')].flatten = T at *
  rw [hdropped, hnone, hcell] at hshown
  exact absurd hshown (by decide)

end Sample

end OpenRecovery.Ui
