import OpenRecovery.Ui.InBuffers

/-!
# The cursor among the rows that are drawn

At the end of a print the top row goes up by the reserve, so that the row of the cursor becomes the
last one drawn. That the cursor is not above the first one is a second relation, `Below`: every
command keeps it, and so does a shift of the rows. Only a backspace to the row before does not look
at it.
-/

set_option autoImplicit false

namespace OpenRecovery.Ui

open OpenRecovery.Storage

/-- The cursor is not above the first row that the next print shows. -/
def Below (s : Console) : Prop := s.forceTopRowOnText ≤ s.curRow

section Steps

variable {scr : Screen} {s t : Console}

/-- The shift of the rows moves cursor and bound alike. -/
theorem Below.shiftRows (h : Below s) (hshift : Ui.shiftRows s = some t) : Below t := by
  unfold Below at h ⊢
  rw [Ui.shiftRows] at hshift
  split_ifs at hshift with hrow hcolumns
  · cases hshift
    show max (s.forceTopRowOnText - bufferRows) 0 ≤ s.curRow - bufferRows
    unfold totalRows at hrow
    unfold bufferRows
    omega
  · cases hshift
    exact h

/-- A character. -/
theorem Below.putChar {c : UInt8} (h : Below s) (hkept : Kept scr 1024 s) (hput : PutOk c s)
    (heq : Ui.putChar c s = some t) : Below t := by
  obtain ⟨u, hraw, -, hon, hrow⟩ := put_raw hkept hput.1
  rw [Ui.putChar, hraw] at heq
  refine Below.shiftRows ?_ heq
  -- the character leaves the top row alone, and the cursor does not go up
  unfold Below at h ⊢
  rcases hrow with ⟨-, hrow⟩ | hrow <;> omega

/-- A string of characters. Induction on it. -/
theorem Below.putChars {cs : Bytes} (h : Below s) (hkept : Kept scr 1024 s) (hputs : PutsOk cs s)
    (heq : Ui.putChars cs s = some t) : Below t := by
  induction cs generalizing s with
  | nil =>
    cases heq
    exact h
  | cons c cs ih =>
    obtain ⟨u, hchar, hrest⟩ := Option.bind_eq_some_iff.mp heq
    obtain ⟨u', hchar', hkept'⟩ := put_char hkept hputs.1
    cases hchar.symm.trans hchar'
    exact ih (h.putChar hkept hputs.1 hchar) hkept' (hputs.2 u hchar) hrest

/-- A step that leaves the cursor's row and the top row of the text alone. -/
theorem Below.same (h : Below s) (hrow : t.curRow = s.curRow)
    (hon : t.forceTopRowOnText = s.forceTopRowOnText) : Below t := by
  unfold Below at h ⊢
  rw [hrow, hon]
  exact h

/-- Clearing cells moves nothing. -/
theorem Below.clearCells {first stop : Int} (h : Below s)
    (heq : Ui.clearCells s first stop = some t) : Below t := by
  rw [Ui.clearCells] at heq
  obtain ⟨u, hfill, rfl⟩ := Option.map_eq_some_iff.mp heq
  rw [fillBlanks] at hfill
  split_ifs at hfill <;> cases hfill <;> exact h.same rfl rfl

/-- Clearing the rows below moves nothing. -/
theorem Below.clearBelow (h : Below s) (heq : Ui.clearBelow s = some t) : Below t := by
  rw [Ui.clearBelow] at heq
  split_ifs at heq <;> cases heq <;> exact h.same rfl rfl

/-- Clearing parts of the current row moves nothing. -/
theorem Below.clearLine {n : Int} (h : Below s) (heq : Ui.clearLine n s = some t) : Below t := by
  rw [Ui.clearLine] at heq
  split_ifs at heq
  · exact h.clearCells heq
  · exact h.clearCells heq
  · exact h.clearCells heq
  · cases heq
    exact h

/-- Moving up stops at the bound. -/
theorem Below.cursorUp {n : Int} (heq : Ui.cursorUp n s = some t) : Below t := by
  obtain ⟨row, -, hrow⟩ := Option.bind_eq_some_iff.mp heq
  cases hrow
  show s.forceTopRowOnText ≤ if row < s.forceTopRowOnText then s.forceTopRowOnText else row
  split <;> omega

/-- Moving down goes away from it. -/
theorem Below.cursorDown {n : Int} (h : Below s) (hkept : Kept scr 1024 s) (h0 : 0 ≤ n)
    (heq : Ui.cursorDown n s = some t) : Below t := by
  obtain ⟨row, hadd, hrow⟩ := Option.bind_eq_some_iff.mp heq
  have hsum : s.curRow + n = row := by
    rw [addInt] at hadd
    split_ifs at hadd
    exact Option.some.inj hadd
  have hrows := scr.rows_ge
  have hscreen := hkept.rows_eq
  unfold Below at h
  cases hrow
  show s.forceTopRowOnText ≤ if s.forceTopRowOnText + s.screenRows ≤ row
    then s.forceTopRowOnText + s.screenRows - 1 else row
  split <;> omega

/-- Moving to a place of the screen stays in the window. -/
theorem Below.cursorHome {row col : Int} (hkept : Kept scr 1024 s) (h0 : 0 ≤ row) :
    Below (Ui.cursorHome row col s) := by
  have hrows := scr.rows_ge
  have hscreen := hkept.rows_eq
  show s.topRow ≤ s.topRow + if s.screenRows ≤ row then s.screenRows - 1 else row
  split <;> omega

/-- Colours move nothing. -/
theorem setGraphics_rows (code : Int) (s : Console) :
    (setGraphics code s).curRow = s.curRow ∧
      (setGraphics code s).forceTopRowOnText = s.forceTopRowOnText := by
  unfold setGraphics setFrontTermColor setFrontColor
  split_ifs <;> exact ⟨rfl, rfl⟩

/-- Nor do several of them. -/
theorem Below.foldGraphics (h : Below s) (q : Sequence) (codes : List Nat) :
    Below (codes.foldl (fun s i => setGraphics (q.parameters i) s) s) := by
  induction codes generalizing s with
  | nil => exact h
  | cons i codes ih =>
    obtain ⟨hrow, hon⟩ := setGraphics_rows (q.parameters i) s
    exact ih (h.same hrow hon)

/-- An escape sequence with parameters in range. -/
theorem Below.carryOut {q : Sequence} {b : Bool} (h : Below s) (hkept : Kept scr 1024 s)
    (hq : q.InRange) (heq : Ui.carryOut q s = some (b, t)) : Below t := by
  obtain ⟨h0, -⟩ := hq 0
  rcases carryOut_cases q s with ⟨-, x, hx, hcarry⟩ | ⟨hcarry, -⟩
  swap
  · rw [hcarry] at heq
    cases heq
    exact h
  -- each command gives one console, which is marked as carried out
  have hdone : x = some t := by
    rw [hcarry] at heq
    obtain ⟨u, hu, hpair⟩ := Option.map_eq_some_iff.mp heq
    cases hpair
    exact hu
  cases hx with
  | up harg => exact Below.cursorUp hdone
  | down harg => exact h.cursorDown hkept h0 hdone
  | right harg =>
    obtain ⟨col, -, hcol⟩ := Option.bind_eq_some_iff.mp hdone
    cases hcol
    exact h.same rfl rfl
  | left harg =>
    obtain ⟨col, -, hcol⟩ := Option.bind_eq_some_iff.mp hdone
    cases hcol
    exact h.same rfl rfl
  | home harg =>
    cases hdone
    exact Below.cursorHome hkept (hq 0).1
  | below harg =>
    obtain ⟨u, hcells, hbelow⟩ := Option.bind_eq_some_iff.mp hdone
    exact (h.clearCells hcells).clearBelow hbelow
  | line harg => exact h.clearLine hdone
  | graphics harg =>
    cases hdone
    exact h.foldGraphics q _

/-- An escape sequence, by its last byte. -/
theorem Below.unescape {buffer : Bytes} (h : Below s) (hkept : Kept scr 1024 s)
    (hok : UnescapeOk buffer s) (heq : Ui.unescape buffer s = some t) : Below t := by
  obtain ⟨hcount, hvalues, hsequence⟩ := hok
  obtain ⟨q, hscan, hparams, hq⟩ := scan_ok Sequence.reading_empty
    (by show 0 + _ ≤ 32; omega) hvalues
  obtain ⟨hdown, hright, hputs⟩ := hsequence q hscan
  have hnot : ¬ maxParameters < q.noParameters + 1 := by
    unfold maxParameters
    omega
  simp only [Ui.unescape, hscan, Option.bind_eq_bind, Option.bind_some, if_neg hnot] at heq
  rcases hkept.carryOut hq hdown hright with ⟨u, hcarry, -⟩ | ⟨hcarry, hunknown⟩
  · rw [hcarry] at heq
    cases heq
    exact h.carryOut hkept hq hcarry
  · rw [hcarry] at heq
    exact h.putChars hkept (hputs hunknown) heq

/-- A byte of the output. -/
theorem Below.printChar {c : UInt8} (h : Below s) (hkept : Kept scr 1024 s) (hok : CharOk c s)
    (heq : Ui.printChar c s = some t) : Below t := by
  rw [Ui.printChar] at heq
  unfold CharOk at hok
  split at hok
  next hesc =>
    rw [if_pos hesc] at heq
    cases heq
    exact h.same rfl rfl
  next hesc =>
    rw [if_neg hesc] at heq
    split at hok
    next hstate =>
      rw [if_pos hstate] at heq
      obtain ⟨hfits, hlast⟩ := hok
      simp only [putEscapeSequence, if_neg (Nat.not_le.mpr hfits)] at heq
      cases hcont : continues c with
      | true =>
        simp only [hcont, if_true] at heq
        cases heq
        exact h.same rfl rfl
      | false =>
        obtain ⟨hfits', hunescape⟩ := hlast hcont
        have hlen : ¬ escapedBufferSize ≤ (s.escaped ++ [c]).length := by
          rw [List.length_append, List.length_singleton]
          omega
        simp only [hcont, Bool.false_eq_true, if_false, if_neg hlen] at heq
        obtain ⟨u, hu, rfl⟩ := Option.map_eq_some_iff.mp heq
        have hkept' : Kept scr 1024 { s with escaped := s.escaped ++ [c] } := { hkept with }
        have hbelow : Below { s with escaped := s.escaped ++ [c] } := h
        exact (hbelow.unescape hkept' hunescape hu).same rfl rfl
    next hstate =>
      rw [if_neg hstate] at heq
      exact h.putChar hkept hok heq

/-- Moving the window to the cursor. -/
theorem Below.settle (h : Below s) (hkept : Kept scr 1024 s) : Below (Ui.settle s) := by
  have hrows := scr.rows_ge
  have hreserve := hkept.reserve_eq
  unfold Below at h
  show s.forceTopRowOnText + max s.forceTopRowReserve 0 ≤ s.curRow
  omega

end Steps

/-! ## Runs -/

/-- Drawing changes nothing. -/
theorem drawn_eq {s t : Console} (h : drawn s = some t) : s = t := by
  obtain ⟨-, -, rfl⟩ := Option.map_eq_some_iff.mp h
  rfl

/-- Every step that meets its condition keeps the cursor below the top row of the text. -/
theorem Below.step {scr : Screen} {s t : Console} {e : Event} (h : Below s)
    (hkept : Kept scr 1024 s) (hok : StepOk s e) (heq : e.step scr s = some t) : Below t := by
  cases e with
  | begin => exact drawn_eq heq ▸ le_refl (0 : Int)
  | char c => exact h.printChar hkept hok heq
  | endPrint => exact drawn_eq heq ▸ h.settle hkept
  | scrollUp n =>
    obtain ⟨u, hscroll, hdraw⟩ := Option.bind_eq_some_iff.mp heq
    obtain ⟨top, -, htop⟩ := Option.bind_eq_some_iff.mp hscroll
    cases htop
    exact drawn_eq hdraw ▸ h.same rfl rfl
  | scrollDown n =>
    obtain ⟨u, hscroll, hdraw⟩ := Option.bind_eq_some_iff.mp heq
    obtain ⟨top, -, htop⟩ := Option.bind_eq_some_iff.mp hscroll
    cases htop
    exact drawn_eq hdraw ▸ h.same rfl rfl

/-- A run whose steps all meet their condition. -/
theorem Below.run {scr : Screen} {s : Console} {es : List Event} (h : Below s)
    (hkept : Kept scr 1024 s) (hok : RunOk scr es s) :
    ∃ t, runEvents scr es s = some t ∧ Kept scr 1024 t ∧ Below t := by
  induction es generalizing s with
  | nil => exact ⟨s, rfl, hkept, h⟩
  | cons e es ih =>
    obtain ⟨t, heq, ht⟩ := hkept.step hok.1
    obtain ⟨u, hrest, hu⟩ := ih (h.step hkept hok.1 heq) ht (hok.2 t heq)
    exact ⟨u, by rw [runEvents, heq]; exact hrest, hu⟩

/-- Two lists of events, one after the other. -/
theorem runEvents_append (scr : Screen) (es es' : List Event) (s : Console) :
    runEvents scr (es ++ es') s = (runEvents scr es s).bind (runEvents scr es') := by
  induction es generalizing s with
  | nil => rfl
  | cons e es ih =>
    rw [List.cons_append, runEvents, runEvents, Option.bind_assoc]
    congr 1
    funext t
    exact ih t

/-- The row of the cursor is one of those that are drawn. -/
def CursorShown (s : Console) : Prop :=
  s.topRow ≤ s.curRow ∧ s.curRow < s.topRow + s.screenRows

instance (s : Console) : Decidable (CursorShown s) := inferInstanceAs (Decidable (_ ∧ _))

/-- After the window has settled, the cursor is in it. -/
theorem Below.shown {scr : Screen} {s : Console} (h : Below s) (hkept : Kept scr 1024 s) :
    CursorShown (Ui.settle s) := by
  have hon := hkept.onText_nonneg
  have hreserve := hkept.reserve_eq
  have hscreen := hkept.rows_eq
  have hrows := scr.rows_ge
  unfold Below at h
  constructor
  · show max (s.forceTopRowOnText + max s.forceTopRowReserve 0) 0 ≤ s.curRow
    omega
  · show s.curRow < max (s.forceTopRowOnText + max s.forceTopRowReserve 0) 0 + s.screenRows
    omega

/-- A session, begun in any state: after each print the cursor is among the rows that are drawn. -/
def SessionShows (scr : Screen) (s : Console) (calls : List Call) : Prop :=
  ∀ before text after, calls = before ++ .print text :: after →
    ∃ t, runEvents scr (.begin :: (before ++ [.print text]).flatMap Call.events) s = some t ∧
      CursorShown t

/-- A session whose steps all meet their condition shows the cursor after each print. -/
theorem cursor_shown (scr : Screen) (s : Console) (calls : List Call)
    (hok : RunOk scr (.begin :: calls.flatMap Call.events) s) : SessionShows scr s calls := by
  rintro before text after rfl
  have hsplit : (before ++ Call.print text :: after).flatMap Call.events =
      (before.flatMap Call.events ++ text.map Event.char) ++
        (Event.endPrint :: after.flatMap Call.events) := by
    simp [Call.events]
  have hbegin := (kept_begin scr s).drawn
  rw [hsplit] at hok
  -- up to the last character of the print
  obtain ⟨t, heq, hkept, hbelow⟩ := Below.run (show Below (uiConsoleBegin scr s) from le_refl 0)
    (kept_begin scr s) (hok.2 _ hbegin).append_left
  refine ⟨settle t, ?_, hbelow.shown hkept⟩
  have hprint : (before ++ [Call.print text]).flatMap Call.events =
      (before.flatMap Call.events ++ text.map Event.char) ++ [Event.endPrint] := by
    simp [Call.events]
  rw [hprint, runEvents, Event.step, hbegin, Option.bind_some, runEvents_append, heq,
    Option.bind_some, runEvents, Event.step, hkept.settle.drawn]
  rfl

namespace Sample

/-- A newline. -/
theorem cursor_shown_newline : SessionShows scr start [.print [ch '\n']] := by
  refine cursor_shown scr start _ ⟨trivial, fun t ht => ?_⟩
  obtain rfl : uiConsoleBegin scr start = t :=
    Option.some.inj ((kept_begin scr start).drawn.symm.trans ht)
  have hnewline : StepOk (uiConsoleBegin scr start) (.char (ch '\n')) :=
    ⟨by decide, fun _ h => absurd h (by decide)⟩
  exact ⟨hnewline, fun u _ => ⟨trivial, fun _ _ => trivial⟩⟩

/-- Four backspaces after three newlines: the cursor goes up to row 1, and the top row stays 2. -/
theorem backspaces_not_shown :
    ¬ SessionShows scr start [.print [10, 10, 10], .print [8, 8, 8, 8]] := by
  intro h
  obtain ⟨t, ht, hshown⟩ := h [.print [10, 10, 10]] [8, 8, 8, 8] [] rfl
  have hnot : (runEvents scr (.begin ::
      [Call.print [10, 10, 10], .print [8, 8, 8, 8]].flatMap Call.events) start).any
        (fun t => CursorShown t) = false := by
    decide +kernel
  rw [show ([Call.print [10, 10, 10]] ++ [.print [8, 8, 8, 8]] : List Call) =
    [.print [10, 10, 10], .print [8, 8, 8, 8]] from rfl] at ht
  rw [ht] at hnot
  exact absurd hshown (of_decide_eq_false hnot)

end Sample

end OpenRecovery.Ui
