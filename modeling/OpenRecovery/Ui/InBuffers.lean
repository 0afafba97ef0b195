import OpenRecovery.Ui.Console

/-!
# The console in its buffers

What keeps the top row in range is a relation between four numbers: the reserve is the number of
rows by which the cursor has passed the last row of the screen, `cur_row + 1 - rows - on_text`. A
newline, the cursor commands and the end of a print keep it. Two branches do not: a backspace from
column 0 moves the row and leaves the reserve, and a shift by 64 rows with fewer than 64 rows above
the text cuts `on_text` off at 0 and leaves the reserve. The escape buffer, the parameters and their
sums have no bound in the code at all.
-/

set_option autoImplicit false

namespace OpenRecovery.Ui

open OpenRecovery.Storage

/-- The cursor, the top row and the ends of the lines are where the code takes them to be. -/
structure InBuffers (scr : Screen) (s : Console) : Prop where
  row_nonneg : 0 ≤ s.curRow
  row_lt : s.curRow < 1024
  column_nonneg : 0 ≤ s.curColumn
  column_le : s.curColumn ≤ scr.columns - 2
  top_nonneg : 0 ≤ s.topRow
  top_le : s.topRow + scr.rows ≤ 1024
  nul : ∀ row, 0 ≤ row → row < 1024 → s.text row (scr.columns - 1) = 0

/-- The invariant between two characters, with a bound for the row of the cursor. -/
structure Kept (scr : Screen) (limit : Int) (s : Console) : Prop where
  rows_eq : s.screenRows = scr.rows
  columns_eq : s.screenColumns = scr.columns
  row_nonneg : 0 ≤ s.curRow
  row_lt : s.curRow < limit
  column_nonneg : 0 ≤ s.curColumn
  column_le : s.curColumn ≤ scr.columns - 2
  top_nonneg : 0 ≤ s.topRow
  top_le : s.topRow + scr.rows ≤ 1024
  onText_nonneg : 0 ≤ s.forceTopRowOnText
  onText_le : s.forceTopRowOnText + scr.rows ≤ 1024
  reserve_eq : s.forceTopRowReserve = s.curRow + 1 - scr.rows - s.forceTopRowOnText
  nul : ∀ row, 0 ≤ row → row < 1024 → s.text row (scr.columns - 1) = 0

/-- The invariant keeps the cursor and the rows inside the arrays. -/
theorem Kept.inBuffers {scr : Screen} {s : Console} (h : Kept scr 1024 s) : InBuffers scr s :=
  ⟨h.row_nonneg, h.row_lt, h.column_nonneg, h.column_le, h.top_nonneg, h.top_le, h.nul⟩

theorem Screen.columns_le_128 (scr : Screen) : scr.columns ≤ 128 := scr.columns_le

theorem Screen.rows_le_1024 (scr : Screen) : scr.rows ≤ 1024 := scr.rows_le

/-- A sum that fits does not overflow. -/
theorem addInt_eq {a b : Int} (hge : -2 ^ 31 ≤ a + b) (hlt : a + b < 2 ^ 31) :
    addInt a b = some (a + b) := by
  rw [addInt, if_pos ⟨hge, hlt⟩]

/-! ## Characters -/

/-- The character moves the cursor to the next row. -/
def leavesRow (c : UInt8) (s : Console) : Prop :=
  if c = ch '\n' then True
  else if c = ch '\r' then False
  else if c = ch '\t' then
    s.screenColumns - 2 ≤ s.curColumn + (5 - s.curColumn.tmod 5)
  else if c = 8 then False
  else if c = beep then False
  else s.screenColumns - 2 < s.curColumn + 1

/-- The condition on a character that is put: it is no backspace to the row before, and when it
leaves the last row of the matrix there are 64 rows above the text. -/
def PutOk (c : UInt8) (s : Console) : Prop :=
  ¬ (c = 8 ∧ s.curColumn = 0 ∧ s.curRow ≠ 0) ∧
    (leavesRow c s → s.curRow + 1 = 1024 → 64 ≤ s.forceTopRowOnText)

section Put

variable {scr : Screen} {s : Console}

/-- Blanking cells of the current row. -/
theorem Kept.fillBlanks (h : Kept scr 1024 s) {first : Int} (hfirst : 0 ≤ first) (stop : Int)
    (hstop : stop ≤ scr.columns - 1) :
    ∃ t, Ui.fillBlanks s first stop = some t ∧ Kept scr 1024 t ∧
      t = { s with text := t.text } := by
  unfold Ui.fillBlanks
  split
  next => exact ⟨s, rfl, h, rfl⟩
  next =>
    have hcolumns := scr.columns_le_128
    have hin : s.inRow first stop := ⟨h.row_nonneg, h.row_lt, hfirst, by unfold totalColumns; omega⟩
    rw [if_pos hin]
    refine ⟨_, rfl, { h with nul := ?_ }, rfl⟩
    intro row h0 hlt
    have hnot : ¬ (row = s.curRow ∧ first ≤ scr.columns - 1 ∧ scr.columns - 1 < stop) := by omega
    exact (if_neg hnot).trans (h.nul row h0 hlt)

theorem Kept.mono {limit limit' : Int} (h : Kept scr limit s) (hle : limit ≤ limit') :
    Kept scr limit' s :=
  { h with row_lt := lt_of_lt_of_le h.row_lt hle }

/-- A line feed can leave the last row; the shift after it brings the cursor back. -/
theorem Kept.lineFeed (h : Kept scr 1024 s) : Kept scr 1025 (Ui.lineFeed s) := by
  have hrow := h.row_nonneg
  have hlt := h.row_lt
  refine { h with row_nonneg := ?_, row_lt := ?_, reserve_eq := ?_ }
  · show 0 ≤ s.curRow + 1
    omega
  · show s.curRow + 1 < 1025
    omega
  · show s.forceTopRowReserve + 1 = s.curRow + 1 + 1 - scr.rows - s.forceTopRowOnText
    rw [h.reserve_eq]
    omega

theorem Kept.column {limit col : Int} (h : Kept scr limit s) (h0 : 0 ≤ col)
    (hle : col ≤ scr.columns - 2) : Kept scr limit { s with curColumn := col } :=
  { h with column_nonneg := h0, column_le := hle }

/-- The same when a full row is left. -/
theorem Kept.wrapLine (h : Kept scr 1024 s) : Kept scr 1025 (Ui.wrapLine s) :=
  h.lineFeed.column (le_refl 0) (by have := scr.columns_ge; omega)

/-- What `console_put_char` does before the shift. -/
def Put (scr : Screen) (c : UInt8) (s t : Console) : Prop :=
  Kept scr 1025 t ∧ t.forceTopRowOnText = s.forceTopRowOnText ∧
    (leavesRow c s ∧ t.curRow = s.curRow + 1 ∨ t.curRow = s.curRow)

/-- A tab stays in its row. -/
theorem put_tab (h : Kept scr 1024 s) : ∃ t, putRaw (ch '\t') s = some t ∧ Put scr (ch '\t') s t := by
  have hcol := h.column_nonneg
  have hmod := Int.tmod_lt_of_pos s.curColumn (show (0 : Int) < 5 by decide)
  have hraw : putRaw (ch '\t') s = putTab s := rfl
  have hleaves : leavesRow (ch '\t') s ↔
      s.screenColumns - 2 ≤ s.curColumn + (5 - s.curColumn.tmod 5) := Iff.rfl
  rw [hraw]
  simp only [putTab]
  split
  next hwrap =>
    -- the blanks fill the row, and the cursor goes on in the next one
    obtain ⟨t, heq, ht, hsame⟩ := h.fillBlanks hcol (s.screenColumns - 1)
      (by rw [h.columns_eq])
    refine ⟨_, by rw [heq]; rfl, ht.wrapLine, ?_, .inl ⟨hleaves.mpr hwrap, ?_⟩⟩
    · rw [hsame]
      rfl
    · rw [hsame]
      rfl
  next hstay =>
    -- the blanks end before the last column
    obtain ⟨t, heq, ht, hsame⟩ := h.fillBlanks hcol (s.curColumn + (5 - s.curColumn.tmod 5))
      (by rw [h.columns_eq] at hstay; omega)
    refine ⟨_, by rw [heq]; rfl, (ht.mono (by omega)).column (by omega) ?_, ?_, .inr ?_⟩
    · rw [h.columns_eq] at hstay
      omega
    · rw [hsame]
    · rw [hsame]

/-- A letter leaves the row exactly at its end. -/
theorem put_text {c : UInt8} (h : Kept scr 1024 s) (hraw : putRaw c s = putText c s)
    (hleaves : leavesRow c s ↔ s.screenColumns - 2 < s.curColumn + 1) :
    ∃ t, putRaw c s = some t ∧ Put scr c s t := by
  have hcol := h.column_nonneg
  have hle := h.column_le
  have hcolumns := scr.columns_le_128
  have hin : s.inRow s.curColumn (s.curColumn + 1) :=
    ⟨h.row_nonneg, h.row_lt, hcol, by unfold totalColumns; omega⟩
  rw [hraw]
  simp only [putText, if_pos hin]
  have hnul : ∀ row, 0 ≤ row → row < 1024 →
      (if row = s.curRow ∧ scr.columns - 1 = s.curColumn then c
        else s.text row (scr.columns - 1)) = 0 := by
    intro row h0 hlt
    rw [if_neg (by omega)]
    exact h.nul row h0 hlt
  split
  next hwrap =>
    -- the last column: the cursor goes on in the next row
    refine ⟨_, rfl, ?_, rfl, .inl ⟨hleaves.mpr hwrap, rfl⟩⟩
    have hkept : Kept scr 1024 { s with
        text := fun row col => if row = s.curRow ∧ col = s.curColumn then c else s.text row col } :=
      { h with nul := hnul }
    exact { hkept.wrapLine with }
  next hstay =>
    rw [h.columns_eq] at hstay
    refine ⟨_, rfl, ?_, rfl, .inr rfl⟩
    exact { h.mono (by omega) with
      column_nonneg := by show 0 ≤ s.curColumn + 1; omega
      column_le := by show s.curColumn + 1 ≤ _; omega
      nul := hnul }

/-- A backspace goes to the row above unless it is at the first column below the first row. -/
theorem put_backspace (h : Kept scr 1024 s) (hput : ¬ (s.curColumn = 0 ∧ s.curRow ≠ 0)) :
    Kept scr 1025 (putBackspace s) ∧
      (putBackspace s).forceTopRowOnText = s.forceTopRowOnText ∧
      (putBackspace s).curRow = s.curRow := by
  have hcol := h.column_nonneg
  have hle := h.column_le
  unfold putBackspace
  split
  next h0 =>
    -- in column 0 of the first row the cursor stays
    have hrow : s.curRow = 0 := by
      by_contra hne
      exact hput ⟨h0, hne⟩
    rw [if_pos hrow]
    exact ⟨h.mono (by omega), rfl, rfl⟩
  next hne =>
    exact ⟨(h.mono (by omega)).column (by omega) (by omega), rfl, rfl⟩

/-- A character before the rows are shifted. -/
theorem put_raw {c : UInt8} (h : Kept scr 1024 s)
    (hput : ¬ (c = 8 ∧ s.curColumn = 0 ∧ s.curRow ≠ 0)) :
    ∃ t, putRaw c s = some t ∧ Put scr c s t := by
  -- the branches of `console_put_char`, in their order
  by_cases hn : c = ch '\n'
  · subst hn
    exact ⟨_, rfl, h.lineFeed, rfl, .inl ⟨trivial, rfl⟩⟩
  by_cases hr : c = ch '\r'
  · subst hr
    have hcolumns := scr.columns_ge
    exact ⟨_, rfl, (h.mono (by omega)).column (by omega) (by omega), rfl, .inr rfl⟩
  by_cases ht : c = ch '\t'
  · subst ht
    exact put_tab h
  by_cases hb : c = 8
  · subst hb
    obtain ⟨hkept, hon, hrow⟩ := put_backspace h fun hbad => hput ⟨rfl, hbad⟩
    exact ⟨_, rfl, hkept, hon, .inr hrow⟩
  by_cases hbell : c = beep
  · subst hbell
    exact ⟨_, rfl, h.mono (by omega), rfl, .inr rfl⟩
  · refine put_text h ?_ ?_
    · simp [putRaw, hn, hr, ht, hb, hbell]
    · simp [leavesRow, hn, hr, ht, hb, hbell]

/-- The shift keeps the relation if there are 64 rows above the text. -/
theorem Kept.shiftRows (h : Kept scr 1025 s) (habove : s.curRow = 1024 → 64 ≤ s.forceTopRowOnText) :
    ∃ t, Ui.shiftRows s = some t ∧ Kept scr 1024 t := by
  unfold Ui.shiftRows
  have hlt := h.row_lt
  split
  next hrow =>
    have hrow' : s.curRow = 1024 := hrow
    have habove := habove hrow'
    have hcolumns : 1 ≤ s.screenColumns ∧ s.screenColumns ≤ totalColumns := by
      rw [h.columns_eq]
      exact ⟨by have := scr.columns_ge; omega, scr.columns_le⟩
    -- the row and `on_text` both lose 64, so the reserve stays right
    have honText := h.onText_le
    have hon : max (s.forceTopRowOnText - bufferRows) 0 = s.forceTopRowOnText - 64 := by
      unfold bufferRows
      omega
    rw [if_pos hcolumns]
    refine ⟨_, rfl, { h with
      row_nonneg := ?_, row_lt := ?_, onText_nonneg := ?_, onText_le := ?_, reserve_eq := ?_,
      nul := ?_ }⟩
    · show 0 ≤ s.curRow - 64
      omega
    · show s.curRow - 64 < 1024
      omega
    · show 0 ≤ max _ 0
      omega
    · show max (s.forceTopRowOnText - bufferRows) 0 + scr.rows ≤ 1024
      omega
    · show s.forceTopRowReserve =
        s.curRow - 64 + 1 - scr.rows - max (s.forceTopRowOnText - bufferRows) 0
      rw [hon, h.reserve_eq]
      omega
    · intro row h0 hrow
      -- a row that comes up keeps its NUL, and a new one is blank
      simp only [h.columns_eq]
      rw [if_neg (by omega)]
      split
      next hup =>
        refine h.nul _ (by unfold bufferRows; omega) ?_
        unfold totalRows bufferRows at hup
        unfold bufferRows
        omega
      next => simp [blankRow]
  next hrow =>
    have hrow' : s.curRow ≠ 1024 := hrow
    exact ⟨s, rfl, { h with row_lt := by omega }⟩

/-- A character, with the shift of the rows. -/
theorem put_char {c : UInt8} (h : Kept scr 1024 s) (hput : PutOk c s) :
    ∃ t, putChar c s = some t ∧ Kept scr 1024 t := by
  obtain ⟨t, heq, hkept, hon, hrow⟩ := put_raw h hput.1
  have hlt := h.row_lt
  have habove : t.curRow = 1024 → 64 ≤ t.forceTopRowOnText := by
    intro hlast
    -- the row behind the last one is only reached by leaving the last one
    rcases hrow with ⟨hleaves, hrow⟩ | hrow
    · rw [hon]
      exact hput.2 hleaves (by omega)
    · omega
  obtain ⟨u, hshift, hu⟩ := hkept.shiftRows habove
  exact ⟨u, by rw [putChar, heq]; exact hshift, hu⟩

/-- The condition on several characters. -/
def PutsOk : Bytes → Console → Prop
  | [], _ => True
  | c :: cs, s => PutOk c s ∧ ∀ t, putChar c s = some t → PutsOk cs t

/-- A string of characters. Induction on it. -/
theorem put_chars {cs : Bytes} (h : Kept scr 1024 s) (hputs : PutsOk cs s) :
    ∃ t, putChars cs s = some t ∧ Kept scr 1024 t := by
  induction cs generalizing s with
  | nil => exact ⟨s, rfl, h⟩
  | cons c cs ih =>
    obtain ⟨t, heq, ht⟩ := put_char h hputs.1
    obtain ⟨u, heq', hu⟩ := ih ht (hputs.2 t heq)
    exact ⟨u, by rw [putChars, heq]; exact heq', hu⟩

end Put

/-! ## Escape sequences -/

/-- The parameters of a sequence, with the part of the first one that was read already. -/
def values : Bytes → Nat → List Nat
  | [], v => [v]
  | c :: cs, v =>
      if c = ch ';' then v :: values cs 0
      else if isDigit c then values cs (v * 10 + (c.toNat - 48))
      else values cs v

theorem values_length_pos (cs : Bytes) (v : Nat) : 0 < (values cs v).length := by
  induction cs generalizing v with
  | nil => exact Nat.one_pos
  | cons c cs ih =>
    rw [values]
    split
    next => exact Nat.succ_pos _
    next =>
      split
      next => exact ih _
      next => exact ih _

/-- The values read from the digits do not stay below where they started. -/
theorem exists_values_ge (cs : Bytes) (v : Nat) : ∃ w ∈ values cs v, v ≤ w := by
  induction cs generalizing v with
  | nil => exact ⟨v, List.mem_singleton.mpr rfl, le_refl v⟩
  | cons c cs ih =>
    rw [values]
    split
    next => exact ⟨v, List.mem_cons_self, le_refl v⟩
    next =>
      split
      next =>
        obtain ⟨w, hw, hle⟩ := ih (v * 10 + (c.toNat - 48))
        exact ⟨w, hw, by omega⟩
      next => exact ih v

/-- The numbers of a sequence are `int`s that are not negative. -/
def Sequence.InRange (q : Sequence) : Prop := ∀ i, 0 ≤ q.parameters i ∧ q.parameters i < 2 ^ 31

/-- The state of the scan: `v` is the parameter that is being read. -/
structure Sequence.Reading (q : Sequence) (v : Nat) : Prop where
  current : q.parameters q.noParameters = v
  later : ∀ i, q.noParameters < i → q.parameters i = 0
  inRange : q.InRange

/-- A separator begins the next parameter. -/
theorem Sequence.Reading.next {q : Sequence} {v : Nat} (h : q.Reading v) :
    Sequence.Reading { q with noParameters := q.noParameters + 1 } 0 :=
  ⟨h.later _ (Nat.lt_succ_self _), fun i hi => h.later i (Nat.lt_of_succ_lt hi), h.inRange⟩

/-- A digit that fits goes into the current parameter. -/
theorem Sequence.Reading.digit {q : Sequence} {v : Nat} {c : UInt8} (h : q.Reading v)
    (hc : isDigit c = true) (hcount : q.noParameters < maxParameters)
    (hfits : v * 10 + (c.toNat - 48) < 2 ^ 31) :
    ∃ q', q.digit c = some q' ∧ q'.noParameters = q.noParameters ∧
      q'.Reading (v * 10 + (c.toNat - 48)) := by
  simp only [isDigit, Bool.and_eq_true, decide_eq_true_eq] at hc
  have hsum : q.parameters q.noParameters * 10 + ((c.toNat : Int) - 48) =
      (v * 10 + (c.toNat - 48) : Nat) := by
    rw [h.current]
    omega
  have hadd : addInt (q.parameters q.noParameters * 10) ((c.toNat : Int) - 48) =
      some ((v * 10 + (c.toNat - 48) : Nat) : Int) := by
    rw [addInt_eq (by rw [hsum]; omega) (by rw [hsum]; omega), hsum]
  refine ⟨{ q with
    parameters := Function.update q.parameters q.noParameters
      ((v * 10 + (c.toNat - 48) : Nat) : Int) }, ?_, rfl, ?_, ?_, ?_⟩
  · rw [Sequence.digit, if_pos hcount, hadd]
    rfl
  · exact Function.update_self ..
  · intro i hi
    exact (Function.update_of_ne (Nat.ne_of_gt hi) ..).trans (h.later i hi)
  · intro i
    by_cases hi : i = q.noParameters
    · subst hi
      simp only [Function.update_self]
      omega
    · simp only [Function.update_of_ne hi]
      exact h.inRange i

/-- Up to 32 parameters that fit are read without an access outside. -/
theorem scan_ok {cs : Bytes} {q : Sequence} {v : Nat} (h : q.Reading v)
    (hcount : q.noParameters + (values cs v).length ≤ 32)
    (hvalues : ∀ w ∈ values cs v, w < 2 ^ 31) :
    ∃ q', scan cs q = some q' ∧ q'.noParameters + 1 ≤ 32 ∧ q'.InRange := by
  induction cs generalizing q v with
  | nil => exact ⟨q, rfl, hcount, h.inRange⟩
  | cons c cs ih =>
    have hpos := values_length_pos cs v
    rw [scan]
    rw [values] at hcount hvalues
    by_cases hsemi : c = ch ';'
    · -- the next parameter begins
      subst hsemi
      rw [if_pos rfl] at hcount hvalues
      simp only [List.length_cons] at hcount
      exact ih h.next (by show q.noParameters + 1 + _ ≤ 32; omega)
        fun w hw => hvalues w (List.mem_cons_of_mem _ hw)
    · rw [if_neg hsemi] at hcount hvalues
      by_cases hdigit : isDigit c = true
      · rw [if_pos hdigit] at hcount hvalues
        obtain ⟨w, hw, hle⟩ := exists_values_ge cs (v * 10 + (c.toNat - 48))
        obtain ⟨q', hq', hsame, hreading⟩ := h.digit hdigit
          (by have := values_length_pos cs (v * 10 + (c.toNat - 48)); unfold maxParameters; omega)
          (lt_of_le_of_lt hle (hvalues w hw))
        -- a digit is none of the characters that are noted
        have hplain : c ≠ ch '[' ∧ c ≠ ch '(' ∧ c ≠ ch ')' ∧ c ≠ ch '?' := by
          refine ⟨?_, ?_, ?_, ?_⟩ <;> rintro rfl <;> cases hdigit
        simp only [hplain.1, hplain.2.1, hplain.2.2.1, hplain.2.2.2, hsemi, hdigit, if_false,
          if_true, hq', Option.bind_some]
        exact ih hreading (by rw [hsame]; exact hcount) hvalues
      · rw [if_neg hdigit] at hcount hvalues
        split_ifs
        · -- the characters that are noted, and the command itself
          exact ih ⟨h.current, h.later, h.inRange⟩ hcount hvalues
        · exact ih ⟨h.current, h.later, h.inRange⟩ hcount hvalues
        · exact ih ⟨h.current, h.later, h.inRange⟩ hcount hvalues
        · exact ih ⟨h.current, h.later, h.inRange⟩ hcount hvalues
        · exact ⟨_, rfl, by show q.noParameters + 1 ≤ 32; omega, h.inRange⟩

/-- The sequence is one of the commands. -/
def Sequence.recognised (q : Sequence) : Prop :=
  q.isCommand ∧ (q.argument = ch 'A' ∨ q.argument = ch 'B' ∨ q.argument = ch 'C' ∨
    q.argument = ch 'D' ∨ q.argument = ch 'H' ∨ q.argument = ch 'J' ∨ q.argument = ch 'K' ∨
    q.argument = ch 'm')

/-- The commands, and what they make of the console. -/
inductive CarriesOut (q : Sequence) (s : Console) : Option Console → Prop
  | up (harg : q.argument = ch 'A') : CarriesOut q s (cursorUp (q.parameters 0) s)
  | down (harg : q.argument = ch 'B') : CarriesOut q s (cursorDown (q.parameters 0) s)
  | right (harg : q.argument = ch 'C') : CarriesOut q s (cursorRight (q.parameters 0) s)
  | left (harg : q.argument = ch 'D') : CarriesOut q s (cursorLeft (q.parameters 0) s)
  | home (harg : q.argument = ch 'H') :
      CarriesOut q s (some (cursorHome (q.parameters 0) (q.parameters 1) s))
  | below (harg : q.argument = ch 'J') :
      CarriesOut q s ((clearCells s s.curColumn (s.screenColumns - 1)).bind clearBelow)
  | line (harg : q.argument = ch 'K') : CarriesOut q s (clearLine (q.parameters 0) s)
  | graphics (harg : q.argument = ch 'm') :
      CarriesOut q s (some ((List.range (q.noParameters + 1)).foldl
        (fun s i => setGraphics (q.parameters i) s) s))

/-- A sequence is carried out as one of the commands, or it is none of them. -/
theorem carryOut_cases (q : Sequence) (s : Console) :
    (q.isCommand ∧ ∃ x, CarriesOut q s x ∧ carryOut q s = x.map fun s => (true, s)) ∨
      (carryOut q s = some (false, s) ∧ ¬ q.recognised) := by
  rw [carryOut]
  by_cases hcommand : q.isCommand
  swap
  · rw [if_neg hcommand]
    exact .inr ⟨rfl, fun hrec => hcommand hrec.1⟩
  rw [if_pos hcommand]
  -- one test after the other, in the order of the source
  by_cases hA : q.argument = ch 'A'
  · exact .inl ⟨hcommand, _, .up hA, by rw [if_pos hA]⟩
  rw [if_neg hA]
  by_cases hB : q.argument = ch 'B'
  · exact .inl ⟨hcommand, _, .down hB, by rw [if_pos hB]⟩
  rw [if_neg hB]
  by_cases hC : q.argument = ch 'C'
  · exact .inl ⟨hcommand, _, .right hC, by rw [if_pos hC]⟩
  rw [if_neg hC]
  by_cases hD : q.argument = ch 'D'
  · exact .inl ⟨hcommand, _, .left hD, by rw [if_pos hD]⟩
  rw [if_neg hD]
  by_cases hH : q.argument = ch 'H'
  · exact .inl ⟨hcommand, _, .home hH, by rw [if_pos hH]; rfl⟩
  rw [if_neg hH]
  by_cases hJ : q.argument = ch 'J'
  · exact .inl ⟨hcommand, _, .below hJ, by rw [if_pos hJ]⟩
  rw [if_neg hJ]
  by_cases hK : q.argument = ch 'K'
  · exact .inl ⟨hcommand, _, .line hK, by rw [if_pos hK]⟩
  rw [if_neg hK]
  by_cases hm : q.argument = ch 'm'
  · exact .inl ⟨hcommand, _, .graphics hm, by rw [if_pos hm]; rfl⟩
  rw [if_neg hm]
  refine .inr ⟨rfl, ?_⟩
  rintro ⟨-, harg⟩
  rcases harg with harg | harg | harg | harg | harg | harg | harg | harg
  · exact hA harg
  · exact hB harg
  · exact hC harg
  · exact hD harg
  · exact hH harg
  · exact hJ harg
  · exact hK harg
  · exact hm harg

/-- The condition on a sequence that was read: the sums of commands `B` and `C` fit, and the
characters of an unknown sequence may be put. -/
def SequenceOk (q : Sequence) (buffer : Bytes) (s : Console) : Prop :=
  (q.isCommand → q.argument = ch 'B' → s.curRow + q.parameters 0 < 2 ^ 31) ∧
    (q.isCommand → q.argument = ch 'C' → s.curColumn + q.parameters 0 < 2 ^ 31) ∧
    (¬ q.recognised → PutsOk (ch '^' :: buffer) s)

section Commands

variable {scr : Screen} {s : Console}

/-- A cursor that is moved, with the top row of the text and the reserve set. -/
theorem Kept.moveWithin (h : Kept scr 1024 s) {top row : Int} (htop : 0 ≤ top)
    (htop' : top + scr.rows ≤ 1024) (h0 : 0 ≤ row) (hlt : row < 1024) :
    Kept scr 1024 (setReserve { s with curRow := row, forceTopRowOnText := top }) :=
  { h with
    row_nonneg := h0
    row_lt := hlt
    onText_nonneg := htop
    onText_le := htop'
    reserve_eq := by
      show 1 - (top + s.screenRows - row) = row + 1 - scr.rows - top
      rw [h.rows_eq]
      omega }

/-- The cursor may be put into any row of the buffer. -/
theorem Kept.moveTo (h : Kept scr 1024 s) {row : Int} (h0 : 0 ≤ row) (hlt : row < 1024) :
    Kept scr 1024 (setReserve { s with curRow := row }) :=
  h.moveWithin h.onText_nonneg h.onText_le h0 hlt

/-- Moving up. -/
theorem Kept.cursorUp {n : Int} (h : Kept scr 1024 s) (h0 : 0 ≤ n) (hlt : n < 2 ^ 31) :
    ∃ t, Ui.cursorUp n s = some t ∧ Kept scr 1024 t := by
  have hrow := h.row_nonneg
  have hrow' := h.row_lt
  have hon := h.onText_nonneg
  have hon' := h.onText_le
  have hrows := scr.rows_ge
  rw [Ui.cursorUp, addInt_eq (by omega) (by omega)]
  refine ⟨_, rfl, h.moveTo ?_ ?_⟩ <;> split <;> omega

/-- Moving down. -/
theorem Kept.cursorDown {n : Int} (h : Kept scr 1024 s) (h0 : 0 ≤ n)
    (hlt : s.curRow + n < 2 ^ 31) : ∃ t, Ui.cursorDown n s = some t ∧ Kept scr 1024 t := by
  have hrow := h.row_nonneg
  have hon := h.onText_nonneg
  have hon' := h.onText_le
  have hrows := scr.rows_ge
  have hscreen := h.rows_eq
  rw [Ui.cursorDown, addInt_eq (by omega) (by omega)]
  refine ⟨_, rfl, h.moveTo ?_ ?_⟩ <;> split <;> omega

/-- Moving right. -/
theorem Kept.cursorRight {n : Int} (h : Kept scr 1024 s) (h0 : 0 ≤ n)
    (hlt : s.curColumn + n < 2 ^ 31) : ∃ t, Ui.cursorRight n s = some t ∧ Kept scr 1024 t := by
  have hcol := h.column_nonneg
  have hcolumns := scr.columns_ge
  have hscreen := h.columns_eq
  rw [Ui.cursorRight, addInt_eq (by omega) (by omega)]
  refine ⟨_, rfl, h.column ?_ ?_⟩ <;> split <;> omega

/-- Moving left. -/
theorem Kept.cursorLeft {n : Int} (h : Kept scr 1024 s) (h0 : 0 ≤ n) (hlt : n < 2 ^ 31) :
    ∃ t, Ui.cursorLeft n s = some t ∧ Kept scr 1024 t := by
  have hcol := h.column_nonneg
  have hle := h.column_le
  have hcolumns := scr.columns_le_128
  have hcolumns' := scr.columns_ge
  rw [Ui.cursorLeft, addInt_eq (by omega) (by omega)]
  refine ⟨_, rfl, h.column ?_ ?_⟩ <;> split <;> omega

/-- Moving to a place of the screen. -/
theorem Kept.cursorHome {row col : Int} (h : Kept scr 1024 s) (hrow : 0 ≤ row) (hcol : 0 ≤ col) :
    Kept scr 1024 (Ui.cursorHome row col s) := by
  have htop := h.top_nonneg
  have htop' := h.top_le
  have hrows := scr.rows_ge
  have hcolumns := scr.columns_ge
  have hscreen := h.rows_eq
  have hscreen' := h.columns_eq
  have hcol' : Kept scr 1024
      { s with curColumn := if s.screenColumns - 1 ≤ col then s.screenColumns - 2 else col } := by
    refine h.column ?_ ?_ <;> split <;> omega
  have hrow' : 0 ≤ s.topRow + (if s.screenRows ≤ row then s.screenRows - 1 else row) ∧
      s.topRow + (if s.screenRows ≤ row then s.screenRows - 1 else row) < 1024 := by
    split <;> omega
  exact hcol'.moveWithin htop htop' hrow'.1 hrow'.2

/-- Clearing cells of the current row. -/
theorem Kept.clearCells (h : Kept scr 1024 s) {first : Int} (hfirst : 0 ≤ first) (stop : Int)
    (hstop : stop ≤ scr.columns - 1) :
    ∃ t, Ui.clearCells s first stop = some t ∧ Kept scr 1024 t := by
  obtain ⟨t, heq, ht, -⟩ := h.fillBlanks hfirst stop hstop
  refine ⟨_, by rw [Ui.clearCells, heq]; rfl, ?_⟩
  exact { ht with }

/-- Clearing the rows below the cursor. -/
theorem Kept.clearBelow (h : Kept scr 1024 s) :
    ∃ t, Ui.clearBelow s = some t ∧ Kept scr 1024 t := by
  have hrow := h.row_nonneg
  have hcolumns := scr.columns_ge
  have hcolumns' := scr.columns_le
  unfold Ui.clearBelow
  split
  next => exact ⟨s, rfl, h⟩
  next =>
    rw [if_pos ⟨by omega, by rw [h.columns_eq]; omega, by rw [h.columns_eq]; exact hcolumns'⟩]
    refine ⟨_, rfl, { h with nul := ?_ }⟩
    intro row h0 hlt
    simp only [h.columns_eq]
    split
    next => simp [blankRow]
    next => exact h.nul row h0 hlt

/-- Clearing parts of the current row. -/
theorem Kept.clearLine (h : Kept scr 1024 s) (n : Int) :
    ∃ t, Ui.clearLine n s = some t ∧ Kept scr 1024 t := by
  have hcol := h.column_nonneg
  have hle := h.column_le
  unfold Ui.clearLine
  split_ifs
  · exact h.clearCells hcol _ (by rw [h.columns_eq])
  · exact h.clearCells (le_refl 0) _ (by omega)
  · exact h.clearCells (le_refl 0) _ (by rw [h.columns_eq])
  · exact ⟨s, rfl, h⟩

/-- Colours do not move anything. -/
theorem Kept.setGraphics (h : Kept scr 1024 s) (code : Int) :
    Kept scr 1024 (Ui.setGraphics code s) := by
  unfold Ui.setGraphics setFrontTermColor setFrontColor
  split_ifs <;> exact { h with }

/-- Nor do several of them. -/
theorem Kept.foldGraphics (h : Kept scr 1024 s) (q : Sequence) (codes : List Nat) :
    Kept scr 1024 (codes.foldl (fun s i => Ui.setGraphics (q.parameters i) s) s) := by
  induction codes generalizing s with
  | nil => exact h
  | cons i codes ih => exact ih (h.setGraphics (q.parameters i))

/-- A sequence is carried out, or left for `console_put_char`. -/
theorem Kept.carryOut {q : Sequence} (h : Kept scr 1024 s) (hq : q.InRange)
    (hdown : q.isCommand → q.argument = ch 'B' → s.curRow + q.parameters 0 < 2 ^ 31)
    (hright : q.isCommand → q.argument = ch 'C' → s.curColumn + q.parameters 0 < 2 ^ 31) :
    (∃ t, Ui.carryOut q s = some (true, t) ∧ Kept scr 1024 t) ∨
      (Ui.carryOut q s = some (false, s) ∧ ¬ q.recognised) := by
  obtain ⟨h0, hlt⟩ := hq 0
  rcases carryOut_cases q s with ⟨hcommand, x, hx, heq⟩ | hunknown
  swap
  · exact .inr hunknown
  have hkept : ∃ t, x = some t ∧ Kept scr 1024 t := by
    cases hx with
    | up harg => exact h.cursorUp h0 hlt
    | down harg => exact h.cursorDown h0 (hdown hcommand harg)
    | right harg => exact h.cursorRight h0 (hright hcommand harg)
    | left harg => exact h.cursorLeft h0 hlt
    | home harg => exact ⟨_, rfl, h.cursorHome h0 (hq 1).1⟩
    | below harg =>
      obtain ⟨t, hcells, ht⟩ := h.clearCells h.column_nonneg (s.screenColumns - 1)
        (by rw [h.columns_eq])
      obtain ⟨u, hbelow, hu⟩ := ht.clearBelow
      exact ⟨u, by rw [hcells]; exact hbelow, hu⟩
    | line harg => exact h.clearLine _
    | graphics harg => exact ⟨_, rfl, h.foldGraphics q _⟩
  obtain ⟨t, rfl, ht⟩ := hkept
  exact .inl ⟨t, heq, ht⟩

/-- The condition on a sequence with its last character: it fits into the buffer, it has at most 32
parameters, each of them fits, and so do the sums. -/
def UnescapeOk (buffer : Bytes) (s : Console) : Prop :=
  (values buffer 0).length ≤ 32 ∧ (∀ v ∈ values buffer 0, v < 2 ^ 31) ∧
    ∀ q, scan buffer Sequence.empty = some q → SequenceOk q buffer s

theorem Sequence.reading_empty : Sequence.empty.Reading 0 :=
  ⟨rfl, fun _ _ => rfl, fun _ => ⟨le_refl 0, Int.pow_pos (by decide)⟩⟩

/-- An escape sequence, by its last byte. -/
theorem Kept.unescape {buffer : Bytes} (h : Kept scr 1024 s) (hok : UnescapeOk buffer s) :
    ∃ t, Ui.unescape buffer s = some t ∧ Kept scr 1024 t := by
  obtain ⟨hcount, hvalues, hsequence⟩ := hok
  obtain ⟨q, hscan, hparams, hq⟩ := scan_ok Sequence.reading_empty
    (by show 0 + _ ≤ 32; omega) hvalues
  obtain ⟨hdown, hright, hputs⟩ := hsequence q hscan
  have hnot : ¬ maxParameters < q.noParameters + 1 := by
    unfold maxParameters
    omega
  simp only [Ui.unescape, hscan, Option.bind_eq_bind, Option.bind_some, if_neg hnot]
  rcases h.carryOut hq hdown hright with ⟨t, heq, ht⟩ | ⟨heq, hunknown⟩
  · exact ⟨t, by rw [heq]; rfl, ht⟩
  · -- an unknown sequence is put as text behind a caret
    obtain ⟨t, hput, ht⟩ := put_chars h (hputs hunknown)
    exact ⟨t, by rw [heq]; exact hput, ht⟩

/-- The condition on a character of the text. -/
def CharOk (c : UInt8) (s : Console) : Prop :=
  if c = esc then True
  else if s.escapedState then
    s.escaped.length < escapedBufferSize ∧
      (continues c = false → s.escaped.length + 1 < escapedBufferSize ∧
        UnescapeOk (s.escaped ++ [c]) { s with escaped := s.escaped ++ [c] })
  else PutOk c s

/-- A byte of the output, in or outside an escape sequence. -/
theorem Kept.printChar {c : UInt8} (h : Kept scr 1024 s) (hok : CharOk c s) :
    ∃ t, Ui.printChar c s = some t ∧ Kept scr 1024 t := by
  unfold Ui.printChar
  unfold CharOk at hok
  split at hok
  next hesc =>
    -- an escape character begins a new sequence, whatever was in the buffer
    rw [if_pos hesc]
    exact ⟨_, rfl, { h with }⟩
  next hesc =>
    rw [if_neg hesc]
    split at hok
    next hstate =>
      rw [if_pos hstate]
      obtain ⟨hfits, hlast⟩ := hok
      simp only [putEscapeSequence, if_neg (Nat.not_le.mpr hfits)]
      cases hcont : continues c with
      -- the sequence goes on
      | true => exact ⟨_, rfl, { h with }⟩
      | false =>
        -- its last character: the buffer must also hold the terminator
        obtain ⟨hfits', hunescape⟩ := hlast hcont
        have hlen : ¬ escapedBufferSize ≤ (s.escaped ++ [c]).length := by
          rw [List.length_append, List.length_singleton]
          omega
        have hkept : Kept scr 1024 { s with escaped := s.escaped ++ [c] } := { h with }
        obtain ⟨t, heq, ht⟩ := hkept.unescape hunescape
        simp only [Bool.false_eq_true, if_false, if_neg hlen]
        refine ⟨_, by rw [heq]; rfl, ?_⟩
        exact { ht with }
    next hstate =>
      rw [if_neg hstate]
      exact put_char h hok

end Commands

/-! ## Runs -/

/-- What happens to the console, with a print taken apart. -/
inductive Event where
  | begin
  | char (c : UInt8)
  | endPrint
  | scrollUp (n : Fin (2 ^ 31))
  | scrollDown (n : Fin (2 ^ 31))

/-- The calls of the console. -/
inductive Call where
  | begin
  | print (text : Bytes)
  | scrollUp (n : Fin (2 ^ 31))
  | scrollDown (n : Fin (2 ^ 31))

def Call.events : Call → List Event
  | .begin => [.begin]
  | .print text => text.map .char ++ [.endPrint]
  | .scrollUp n => [.scrollUp n]
  | .scrollDown n => [.scrollDown n]

/-- The screen is drawn. -/
def drawn (s : Console) : Option Console := (drawConsole s).map fun _ => s

def Event.step (scr : Screen) (s : Console) : Event → Option Console
  | .begin => drawn (uiConsoleBegin scr s)
  | .char c => printChar c s
  | .endPrint => drawn (settle s)
  | .scrollUp n => (uiConsoleScrollUp n.val s).bind drawn
  | .scrollDown n => (uiConsoleScrollDown n.val s).bind drawn

def runEvents (scr : Screen) : List Event → Console → Option Console
  | [], s => some s
  | e :: es, s => (e.step scr s).bind (runEvents scr es)

/-- The condition on one step, in the state before it. -/
def StepOk (s : Console) : Event → Prop
  | .char c => CharOk c s
  | .scrollDown n => s.topRow + n.val < 2 ^ 31
  | _ => True

/-- Every step of the run meets its condition. -/
def RunOk (scr : Screen) : List Event → Console → Prop
  | [], _ => True
  | e :: es, s => StepOk s e ∧ ∀ t, e.step scr s = some t → RunOk scr es t

section Runs

variable {scr : Screen} {s : Console}

/-- Moving the window to the cursor. -/
theorem Kept.settle (h : Kept scr 1024 s) : Kept scr 1024 (Ui.settle s) := by
  have hrow := h.row_nonneg
  have hlt := h.row_lt
  have hon := h.onText_nonneg
  have hon' := h.onText_le
  have hreserve := h.reserve_eq
  have htop : max (s.forceTopRowOnText + max s.forceTopRowReserve 0) 0 =
      s.forceTopRowOnText + max s.forceTopRowReserve 0 := by omega
  refine { h with
    top_nonneg := ?_, top_le := ?_, onText_nonneg := ?_, onText_le := ?_, reserve_eq := ?_ }
  · exact le_max_right _ _
  · show max (s.forceTopRowOnText + max s.forceTopRowReserve 0) 0 + scr.rows ≤ 1024
    omega
  · show 0 ≤ s.forceTopRowOnText + max s.forceTopRowReserve 0
    omega
  · show s.forceTopRowOnText + max s.forceTopRowReserve 0 + scr.rows ≤ 1024
    omega
  · show min s.forceTopRowReserve 0 =
      s.curRow + 1 - scr.rows - (s.forceTopRowOnText + max s.forceTopRowReserve 0)
    omega

/-- Moving the window inside the buffer. -/
theorem Kept.top {top : Int} (h : Kept scr 1024 s) (h0 : 0 ≤ top) (hle : top + scr.rows ≤ 1024) :
    Kept scr 1024 { s with topRow := top } :=
  { h with top_nonneg := h0, top_le := hle }

/-- Scrolling up by any number of rows. -/
theorem Kept.scrollUp (h : Kept scr 1024 s) (n : Fin (2 ^ 31)) :
    ∃ t, uiConsoleScrollUp n.val s = some t ∧ Kept scr 1024 t := by
  have htop := h.top_nonneg
  have htop' := h.top_le
  have hn := n.isLt
  have hrows := scr.rows_le_1024
  have hrows' := scr.rows_ge
  rw [uiConsoleScrollUp, addInt_eq (by omega) (by omega)]
  refine ⟨_, rfl, h.top ?_ ?_⟩ <;> split <;> omega

/-- Scrolling down by any number of rows. -/
theorem Kept.scrollDown (h : Kept scr 1024 s) (n : Fin (2 ^ 31)) (hn : s.topRow + n.val < 2 ^ 31) :
    ∃ t, uiConsoleScrollDown n.val s = some t ∧ Kept scr 1024 t := by
  have hlt := h.row_lt
  have htop := h.top_nonneg
  have htop' := h.top_le
  have hon' := h.onText_le
  have hrows := scr.rows_le_1024
  have hscreen := h.rows_eq
  simp only [uiConsoleScrollDown, addInt_eq (show -2 ^ 31 ≤ s.topRow + (n.val : Int) by omega) hn]
  refine ⟨_, rfl, h.top ?_ ?_⟩ <;> split <;> omega

/-- A new session, whatever the console was before. -/
theorem kept_begin (scr : Screen) (s : Console) : Kept scr 1024 (uiConsoleBegin scr s) where
  rows_eq := rfl
  columns_eq := rfl
  row_nonneg := le_refl 0
  row_lt := by show (0 : Int) < 1024; decide
  column_nonneg := le_refl 0
  column_le := by show 0 ≤ scr.columns - 2; have := scr.columns_ge; omega
  top_nonneg := le_refl 0
  top_le := by show 0 + scr.rows ≤ 1024; have := scr.rows_le_1024; omega
  onText_nonneg := le_refl 0
  onText_le := by show 0 + scr.rows ≤ 1024; have := scr.rows_le_1024; omega
  reserve_eq := by show 1 - scr.rows = 0 + 1 - scr.rows - 0; omega
  -- the text has just been cleared
  nul := fun row _ _ => if_pos rfl

/-- Drawing rows of the buffer reads inside the arrays. -/
theorem drawRows_ok (h : Kept scr 1024 s) {n : Nat} {row : Int} (h0 : 0 ≤ row)
    (hle : row + n ≤ 1024) : drawRows s n row = some () := by
  induction n generalizing row with
  | zero => rfl
  | succ n ih =>
    have hcolumns := scr.columns_ge
    have hcolumns' := scr.columns_le_128
    have hlt : row < 1024 := by omega
    -- each row that is drawn ends within the matrix
    have hnul : ((List.range totalColumns.toNat).any fun col => s.text row col = 0) = true := by
      rw [List.any_eq_true]
      refine ⟨(scr.columns - 1).toNat, List.mem_range.mpr ?_, ?_⟩
      · show _ < 128
        omega
      · rw [Int.toNat_of_nonneg (by omega), decide_eq_true_iff]
        exact h.nul row h0 hlt
    have hin : s.inRow s.curColumn (s.curColumn + 1) := by
      refine ⟨h.row_nonneg, h.row_lt, h.column_nonneg, ?_⟩
      have := h.column_le
      show s.curColumn + 1 ≤ 128
      omega
    rw [drawRows, if_pos ⟨h0, hlt, hnul⟩, if_pos hin]
    split
    next => rfl
    next => exact ih (by omega) (by omega)

/-- Drawing the window. -/
theorem Kept.drawn (h : Kept scr 1024 s) : Ui.drawn s = some s := by
  have hrows := scr.rows_ge
  have htop := h.top_le
  rw [Ui.drawn, drawConsole, drawRows_ok h h.top_nonneg (by rw [h.rows_eq]; omega)]
  rfl

/-- One event. -/
theorem Kept.step {e : Event} (h : Kept scr 1024 s) (hok : StepOk s e) :
    ∃ t, e.step scr s = some t ∧ Kept scr 1024 t := by
  cases e with
  | begin => exact ⟨_, (kept_begin scr s).drawn, kept_begin scr s⟩
  | char c => exact h.printChar hok
  -- after a print the top row is where the text needs it
  | endPrint => exact ⟨_, h.settle.drawn, h.settle⟩
  | scrollUp n =>
    obtain ⟨t, heq, ht⟩ := h.scrollUp n
    exact ⟨t, by rw [Event.step, heq]; exact ht.drawn, ht⟩
  | scrollDown n =>
    obtain ⟨t, heq, ht⟩ := h.scrollDown n hok
    exact ⟨t, by rw [Event.step, heq]; exact ht.drawn, ht⟩

/-- Any number of events. Induction on them. -/
theorem Kept.run {es : List Event} (h : Kept scr 1024 s) (hok : RunOk scr es s) :
    ∃ t, runEvents scr es s = some t ∧ Kept scr 1024 t := by
  induction es generalizing s with
  | nil => exact ⟨s, rfl, h⟩
  | cons e es ih =>
    obtain ⟨t, heq, ht⟩ := h.step hok.1
    obtain ⟨u, heq', hu⟩ := ih ht (hok.2 t heq)
    exact ⟨u, by rw [runEvents, heq]; exact heq', hu⟩

theorem RunOk.append_left {es es' : List Event} (h : RunOk scr (es ++ es') s) : RunOk scr es s := by
  induction es generalizing s with
  | nil => trivial
  | cons e es ih => exact ⟨h.1, fun t ht => ih (h.2 t ht)⟩

end Runs

/-- A session, begun in any state: no step leaves a buffer, and the console is in order after each
of them. -/
def SessionInBuffers (scr : Screen) (s : Console) (calls : List Call) : Prop :=
  ∀ es es', calls.flatMap Call.events = es ++ es' →
    ∃ t, runEvents scr (.begin :: es) s = some t ∧ InBuffers scr t

/-- A session whose steps all meet their condition stays in the buffers. -/
theorem console_inBuffers (scr : Screen) (s : Console) (calls : List Call)
    (hok : RunOk scr (.begin :: calls.flatMap Call.events) s) : SessionInBuffers scr s calls := by
  intro es es' hsplit
  have hbegin := (kept_begin scr s).drawn
  have hes : RunOk scr es (uiConsoleBegin scr s) := by
    rw [hsplit] at hok
    exact (hok.2 _ hbegin).append_left
  obtain ⟨t, heq, ht⟩ := (kept_begin scr s).run hes
  refine ⟨t, ?_, ht.inBuffers⟩
  rw [runEvents, Event.step, hbegin]
  exact heq

namespace Sample

def scr : Screen := ⟨2, 4, by decide, by decide, by decide, by decide⟩

/-- The variables before the first session. -/
def start : Console where
  text := fun _ _ => 0
  colors := fun _ _ => Color.zero
  screenRows := 0
  screenColumns := 0
  topRow := 0
  forceTopRowOnText := 0
  forceTopRowReserve := 0
  curRow := 0
  curColumn := 0
  escapedState := false
  escaped := []
  currentColor := Color.zero
  frontColor := initFrontColor
  termColors i := initTermColors.getD i Color.zero

theorem kept_of_step {scr : Screen} {s t : Console} {e : Event} (h : Kept scr 1024 s)
    (hok : StepOk s e) (hstep : e.step scr s = some t) : Kept scr 1024 t := by
  obtain ⟨u, hu, hkept⟩ := h.step hok
  cases hu.symm.trans hstep
  exact hkept

/-- A letter and a scroll. -/
theorem console_inBuffers_letter :
    SessionInBuffers scr start [.print [ch 'a'], .scrollDown 1] := by
  refine console_inBuffers scr start _ ⟨trivial, fun t ht => ?_⟩
  obtain rfl : uiConsoleBegin scr start = t :=
    Option.some.inj ((kept_begin scr start).drawn.symm.trans ht)
  have hletter : StepOk (uiConsoleBegin scr start) (.char (ch 'a')) :=
    ⟨by decide, fun _ h => absurd h (by decide)⟩
  refine ⟨hletter, fun u hu => ⟨trivial, fun v hv => ⟨?_, fun _ _ => trivial⟩⟩⟩
  have hkept := kept_of_step (kept_begin scr start) hletter hu
  have htop := (kept_of_step hkept (show StepOk u .endPrint from trivial) hv).top_le
  show v.topRow + 1 < 2 ^ 31
  have hrows : scr.rows = 2 := rfl
  omega

/-- An escape sequence of 65 characters. -/
theorem longEscape_leaves :
    ¬ SessionInBuffers scr start [.print (esc :: List.replicate 65 (ch '0'))] := by
  intro h
  obtain ⟨t, ht, -⟩ := h _ [] (List.append_nil _).symm
  have hnone : (runEvents scr (.begin ::
      List.flatMap Call.events [.print (esc :: List.replicate 65 (ch '0'))]) start).isNone = true := by
    decide +kernel
  rw [ht] at hnone
  cases hnone

end Sample

end OpenRecovery.Ui
