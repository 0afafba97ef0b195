import OpenRecovery.Storage.LastLines
import OpenRecovery.Ui.Overlay

/-!
# The log on the screen

The rows of `text` are a ring: a row is used again without being cleared, and its string ends where
the line that was last written to it does. The start index `text_top` is moved only when the current
row comes to it; since it begins one row below the current one, that is at every line end
(`LogShows.newLine`), and what is drawn from it are the last lines of the output (`log_shows_last`).
-/

set_option autoImplicit false

namespace OpenRecovery.Ui

open OpenRecovery.Storage

/-! ## Calls -/

inductive Print where
  | print (formatted : Bytes)
  | raw (buf : Bytes)

def Print.run : Print → Overlay → Option Overlay
  | .print formatted => uiPrint formatted
  | .raw buf => uiPrintRaw buf

/-- What a call adds to the output: at most 255 bytes for `ui_print`. -/
def Print.text : Print → Bytes
  | .print formatted => cText (formatted.take 255)
  | .raw buf => cText buf

def runPrints : List Print → Overlay → Option Overlay
  | [], s => some s
  | call :: calls, s => (call.run s).bind (runPrints calls)

def output (calls : List Print) : Bytes := calls.flatMap Print.text

/-! ## The ring -/

/-- The overlay with `rows` rows and `cols` columns holds the lines `done`, and `cur` is the line in
progress, without its terminator. -/
structure LogShows (rows cols : ℕ) (s : Overlay) (done : List Bytes) (cur : Bytes) : Prop where
  textRows_eq : s.textRows = rows
  textCols_eq : s.textCols = cols
  rows_ge : 2 ≤ rows
  rows_le : rows ≤ maxRows
  cols_pos : 0 < cols
  cols_lt : cols < maxCols
  top_lt : s.textTop < rows
  row_eq : s.textRow = (rows - 1 + s.textTop) % rows
  col_eq : s.textCol = cur.length
  col_le : cur.length ≤ cols
  cells : ∀ i (h : i < cur.length), s.text s.textRow i = cur[i]
  nul : 0 ∉ cur
  above : window rows s.textTop (rows - 1) (fun row => rowText (s.text row)) =
    lastN (rows - 1) (some []) (done.map some)

section Step

variable {rows cols : ℕ} {s : Overlay} {done : List Bytes} {cur : Bytes}

theorem LogShows.row_lt (h : LogShows rows cols s done cur) : s.textRow < rows := by
  rw [h.row_eq]
  exact Nat.mod_lt _ (by have := h.rows_ge; omega)

/-- A byte at the cursor: the lines are as they were. -/
theorem LogShows.write (h : LogShows rows cols s done cur) (c : UInt8) :
    ∃ t, s.setText s.textRow s.textCol c = some t ∧ LogShows rows cols t done cur ∧
      t.text t.textRow cur.length = c := by
  have hrows := h.rows_le
  have hrow := h.row_lt
  have hcol := h.col_eq
  have hle := h.col_le
  have hcols := h.cols_lt
  rw [Overlay.setText, if_pos ⟨by omega, by omega⟩]
  refine ⟨_, rfl, { h with cells := ?_, above := ?_ }, if_pos ⟨rfl, hcol.symm⟩⟩
  · intro i hi
    have hother : ¬ (s.textRow = s.textRow ∧ i = s.textCol) := fun heq => by omega
    exact (if_neg hother).trans (h.cells i hi)
  · refine (window_congr fun i hi => ?_).trans h.above
    -- the rows above are not the row of the cursor
    have hne : (i + s.textTop) % rows ≠ s.textRow := by
      rw [h.row_eq]
      exact window_ne hi (by have := h.rows_ge; omega)
    have hsame : (fun col => if (i + s.textTop) % rows = s.textRow ∧ col = s.textCol then c
        else s.text ((i + s.textTop) % rows) col) = s.text ((i + s.textTop) % rows) :=
      funext fun col => if_neg fun heq => hne heq.1
    exact congrArg rowText hsame

theorem LogShows.putLetter (h : LogShows rows cols s done cur) {c : UInt8} (hc : c ≠ 0)
    (hroom : cur.length < cols) :
    ∃ t, s.putLetter c = some t ∧ LogShows rows cols t done (cur ++ [c]) := by
  obtain ⟨t, hset, ht, hcell⟩ := h.write c
  have hlen : (cur ++ [c]).length = cur.length + 1 := List.length_append
  refine ⟨{ t with textCol := t.textCol + 1 }, by rw [Overlay.putLetter, hset]; rfl, { ht with
    col_eq := ?_, col_le := ?_, cells := ?_, nul := ?_ }⟩
  · show t.textCol + 1 = (cur ++ [c]).length
    rw [ht.col_eq, hlen]
  · rw [hlen]
    exact hroom
  · intro i hi
    show t.text t.textRow i = (cur ++ [c])[i]
    by_cases hlast : i < cur.length
    · rw [List.getElem_append_left hlast]
      exact ht.cells i hlast
    · obtain rfl : i = cur.length := by omega
      rw [hcell, List.getElem_concat_length rfl]
  · rw [List.mem_append, List.mem_singleton]
    rintro (hmem | heq)
    · exact h.nul hmem
    · exact hc heq.symm

/-- The string of the current row once it is ended. -/
theorem LogShows.rowText (h : LogShows rows cols s done cur) (hend : s.text s.textRow cur.length = 0) :
    Ui.rowText (s.text s.textRow) = some cur :=
  rowText_eq h.cells hend (by have := h.col_le; have := h.cols_lt; omega) h.nul

/-- The row of the cursor comes to `text_top`, which goes on by one. -/
theorem LogShows.newLine (h : LogShows rows cols s done cur) :
    ∃ t, s.newLine = some t ∧ LogShows rows cols t (done ++ [cur]) [] := by
  obtain ⟨t, hset, ht, hend⟩ := h.write 0
  have hrows := ht.rows_ge
  have htop := ht.top_lt
  -- the row after the current one is the first of the window
  have hnext : (t.textRow + 1) % rows = t.textTop := by
    rw [ht.row_eq, Nat.mod_add_mod]
    have hsum : rows - 1 + t.textTop + 1 = t.textTop + rows := by omega
    rw [hsum, Nat.add_mod_right, Nat.mod_eq_of_lt htop]
  have hview := (window_lastN ht.above
    ((congrArg (fun row => Ui.rowText (t.text row)) ht.row_eq.symm).trans (ht.rowText hend))).2
  have hnew : s.newLine = some { t with
      textCol := 0, textRow := t.textTop, textTop := (t.textTop + 1) % rows } := by
    rw [Overlay.newLine, hset]
    simp only [Option.bind_eq_bind, Option.bind_some]
    rw [ht.textRows_eq, hnext, if_pos rfl]
  refine ⟨_, hnew, { ht with
    top_lt := ?_, row_eq := ?_, col_eq := rfl, col_le := Nat.zero_le _, cells := ?_, nul := ?_,
    above := ?_ }⟩
  · exact Nat.mod_lt _ (by omega)
  · show t.textTop = (rows - 1 + (t.textTop + 1) % rows) % rows
    have hsum : rows - 1 + (t.textTop + 1) = t.textTop + rows := by omega
    rw [Nat.add_mod_mod, hsum, Nat.add_mod_right, Nat.mod_eq_of_lt htop]
  · intro i hi
    exact absurd hi (Nat.not_lt_zero i)
  · exact List.not_mem_nil
  · rw [List.map_append]
    exact hview

/-- One character: the same lines as in the wrapped text. -/
theorem LogShows.putChar {text : Bytes} (h : LogShows rows cols s done cur)
    (htext : wrapped (ch '\n') cols text = done ++ [cur]) {c : UInt8} (hc : c ≠ 0) :
    ∃ t done' cur', s.putChar c = some t ∧ LogShows rows cols t done' cur' ∧
      wrapped (ch '\n') cols (text ++ [c]) = done' ++ [cur'] := by
  by_cases hnl : c = ch '\n'
  · subst hnl
    obtain ⟨t, hline, ht⟩ := h.newLine
    refine ⟨t, _, _, ?_, ht, by rw [wrapped_concat_sep, htext]⟩
    rw [Overlay.putChar, if_pos (.inl rfl), hline]
    rfl
  · obtain ⟨done', last, hsplit, -, hnext⟩ := wrapped_concat h.cols_pos hnl text
    obtain ⟨rfl, rfl⟩ : done' = done ∧ last = cur := by
      have := List.append_inj' (hsplit.symm.trans htext) rfl
      exact ⟨this.1, List.singleton_inj.mp this.2⟩
    by_cases hroom : last.length < cols
    · obtain ⟨t, hletter, ht⟩ := h.putLetter hc hroom
      refine ⟨t, _, _, ?_, ht, by rw [hnext, if_pos hroom]⟩
      have hnot : ¬ (c = ch '\n' ∨ s.textCols ≤ s.textCol) := by
        rw [h.textCols_eq, h.col_eq]
        exact not_or.mpr ⟨hnl, not_le.mpr hroom⟩
      rw [Overlay.putChar, if_neg hnot]
      exact (if_pos hnl).trans hletter
    · -- the line is full: the character begins the next one
      obtain ⟨u, hline, hu⟩ := h.newLine
      obtain ⟨t, hletter, ht⟩ := hu.putLetter hc h.cols_pos
      refine ⟨t, _, _, ?_, ht, ?_⟩
      · have hfull : c = ch '\n' ∨ s.textCols ≤ s.textCol := by
          rw [h.textCols_eq, h.col_eq]
          exact .inr (not_lt.mp hroom)
        rw [Overlay.putChar, if_pos hfull, hline]
        exact (if_pos hnl).trans hletter
      · rw [hnext, if_neg hroom, List.append_assoc]
        rfl

theorem LogShows.putChars {text : Bytes} (buf : Bytes) (h : LogShows rows cols s done cur)
    (htext : wrapped (ch '\n') cols text = done ++ [cur]) :
    ∃ t done' cur', s.putChars buf = some t ∧ LogShows rows cols t done' cur' ∧
      wrapped (ch '\n') cols (text ++ cText buf) = done' ++ [cur'] := by
  induction buf generalizing s done cur text with
  | nil => exact ⟨s, done, cur, rfl, h, by rw [cText, List.takeWhile_nil, List.append_nil, htext]⟩
  | cons c buf ih =>
    rw [Overlay.putChars]
    by_cases hc : c = 0
    · rw [if_pos hc]
      have hempty : cText (c :: buf) = [] := List.takeWhile_cons_of_neg (by simp [hc])
      exact ⟨s, done, cur, rfl, h, by rw [hempty, List.append_nil, htext]⟩
    · rw [if_neg hc]
      obtain ⟨u, done', cur', hchar, hu, hutext⟩ := h.putChar htext hc
      obtain ⟨t, done'', cur'', hrest, ht, httext⟩ := ih hu hutext
      have hcons : cText (c :: buf) = c :: cText buf := List.takeWhile_cons_of_pos (by simp [hc])
      refine ⟨t, done'', cur'', by rw [hchar]; exact hrest, ht, ?_⟩
      rw [hcons, List.append_cons]
      exact httext

/-- After a call the line in progress is ended as well. -/
def LogEnded (s : Overlay) (cur : Bytes) : Prop := s.text s.textRow cur.length = 0

theorem LogShows.printRaw {text : Bytes} (buf : Bytes) (h : LogShows rows cols s done cur)
    (htext : wrapped (ch '\n') cols text = done ++ [cur]) :
    ∃ t done' cur', uiPrintRaw buf s = some t ∧ LogShows rows cols t done' cur' ∧ LogEnded t cur' ∧
      wrapped (ch '\n') cols (text ++ cText buf) = done' ++ [cur'] := by
  have hrows := h.rows_ge
  obtain ⟨u, done', cur', hchars, hu, hutext⟩ := h.putChars buf htext
  obtain ⟨t, hset, ht, hend⟩ := hu.write 0
  refine ⟨t, done', cur', ?_, ht, hend, hutext⟩
  have hguard : 0 < s.textRows ∧ 0 < s.textCols := by
    rw [h.textRows_eq, h.textCols_eq]
    exact ⟨by omega, h.cols_pos⟩
  rw [uiPrintRaw, if_pos hguard, hchars]
  exact hset

theorem LogShows.runPrints {text : Bytes} (calls : List Print) (h : LogShows rows cols s done cur)
    (hend : LogEnded s cur) (htext : wrapped (ch '\n') cols text = done ++ [cur]) :
    ∃ t done' cur', Ui.runPrints calls s = some t ∧ LogShows rows cols t done' cur' ∧
      LogEnded t cur' ∧ wrapped (ch '\n') cols (text ++ output calls) = done' ++ [cur'] := by
  induction calls generalizing s done cur text with
  | nil => exact ⟨s, done, cur, rfl, h, hend, by rw [output, List.flatMap_nil, List.append_nil, htext]⟩
  | cons call calls ih =>
    obtain ⟨u, done', cur', hcall, hu, huend, hutext⟩ : ∃ u done' cur', call.run s = some u ∧
        LogShows rows cols u done' cur' ∧ LogEnded u cur' ∧
          wrapped (ch '\n') cols (text ++ call.text) = done' ++ [cur'] := by
      cases call with
      | print formatted => exact h.printRaw (formatted.take 255) htext
      | raw buf => exact h.printRaw buf htext
    obtain ⟨t, done'', cur'', hrest, ht, htend, httext⟩ := ih hu huend hutext
    refine ⟨t, done'', cur'', by rw [Ui.runPrints, hcall]; exact hrest, ht, htend, ?_⟩
    rw [output, List.flatMap_cons, ← List.append_assoc]
    exact httext

/-- What is drawn of a log whose line in progress is ended. -/
theorem LogShows.drawn (h : LogShows rows cols s done cur) (hend : LogEnded s cur) (first : ℕ) :
    (s.drawLog first).map s.lineText = ((lastN rows [] (done ++ [cur])).drop first).map some := by
  have hrows := h.rows_ge
  have hle := h.rows_le
  obtain ⟨m, rfl⟩ : ∃ m, rows = m + 1 := ⟨rows - 1, by omega⟩
  have hview := (window_lastN h.above
    ((congrArg (fun row => Ui.rowText (s.text row)) h.row_eq.symm).trans (h.rowText hend))).1
  -- all rows from `text_top` on, of which the first ones are not drawn
  have hall : (s.drawLog first).map s.lineText =
      (window (m + 1) s.textTop (m + 1) fun row => Ui.rowText (s.text row)).drop first := by
    rw [Overlay.drawLog, h.textRows_eq, window, List.range_eq_range', ← List.map_drop,
      List.drop_range', List.map_map, Nat.zero_add, Nat.mul_one]
    refine List.map_congr_left fun i _ => ?_
    have hlt : (i + s.textTop) % (m + 1) < maxRows :=
      lt_of_lt_of_le (Nat.mod_lt _ (Nat.succ_pos m)) hle
    exact if_pos hlt
  rw [hall, List.map_drop, map_lastN, List.map_append, List.map_singleton]
  exact congrArg (List.drop first) hview

end Step

/-! ## The log -/

theorem logShows_init {rows cols : ℕ} (hrows : 2 ≤ rows) (hrows' : rows ≤ maxRows) (hcols : 0 < cols)
    (hcols' : cols < maxCols) : LogShows rows cols (uiInit rows cols) [] [] where
  textRows_eq := min_eq_left hrows'
  textCols_eq := min_eq_left (Nat.le_sub_one_of_lt hcols')
  rows_ge := hrows
  rows_le := hrows'
  cols_pos := hcols
  cols_lt := hcols'
  top_lt := hrows
  row_eq := by
    show 0 = (rows - 1 + 1) % rows
    rw [Nat.sub_add_cancel (by omega), Nat.mod_self]
  col_eq := rfl
  col_le := Nat.zero_le _
  cells := fun i hi => absurd hi (Nat.not_lt_zero i)
  nul := List.not_mem_nil
  above := by
    rw [List.map_nil, lastN_nil, window]
    refine List.eq_replicate_iff.mpr ⟨by rw [List.length_map, List.length_range], ?_⟩
    intro x hx
    obtain ⟨i, -, rfl⟩ := List.mem_map.mp hx
    exact rowText_eq (fun i hi => absurd hi (Nat.not_lt_zero i)) rfl (by decide) List.not_mem_nil

/-- The rows drawn from `text_top` on are the last lines of the wrapped output, with empty lines for
those that are missing; of these the menu hides the first ones. -/
theorem log_shows_last (rows cols : ℕ) (hrows : 2 ≤ rows) (hrows' : rows ≤ maxRows) (hcols : 1 ≤ cols)
    (hcols' : cols ≤ maxCols - 1) (calls : List Print) :
    ∃ s, runPrints calls (uiInit rows cols) = some s ∧
      ∀ first, (s.drawLog first).map s.lineText =
        ((lastN rows [] (wrapped (ch '\n') cols (output calls))).drop first).map some := by
  obtain ⟨s, done, cur, hrun, hs, hend, htext⟩ :=
    (logShows_init hrows hrows' hcols (Nat.lt_of_le_pred (by decide) hcols')).runPrints
      calls rfl (wrapped_nil (ch '\n') cols)
  rw [List.nil_append] at htext
  refine ⟨s, hrun, fun first => ?_⟩
  rw [htext]
  exact hs.drawn hend first

namespace Sample

/-- A line of four characters on two rows of three. -/
theorem log_shows_wrapped :
    ∃ s, runPrints [.raw (cstr "a\nabcd")] (uiInit 2 3) = some s ∧
      ∀ first, (s.drawLog first).map s.lineText =
        ((lastN 2 [] (wrapped (ch '\n') 3 (output [.raw (cstr "a\nabcd")]))).drop first).map some :=
  log_shows_last 2 3 (by decide) (by decide) (by decide) (by decide) _

end Sample

end OpenRecovery.Ui
