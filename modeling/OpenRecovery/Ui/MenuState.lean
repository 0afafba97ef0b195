import Mathlib.Data.List.GetD
import Mathlib.Logic.Relation
import OpenRecovery.Ui.Overlay

/-!
# The menu buffer

The calls of `ui.c` that the overlay goes through, and what each of them leaves alone.
`ui_start_menu` copies the headers and the items to the rows of `menu` one after the other
(`copyRows_holds`); it goes as far as row 100, and the buffer has 64 (`copyRows_out`).
-/

set_option autoImplicit false

namespace OpenRecovery.Ui

open OpenRecovery.Storage

/-! ## Prints leave the menu alone -/

/-- The states differ in the log only. -/
def OnlyLog (s t : Overlay) : Prop :=
  ∃ text row col top, t = { s with text := text, textRow := row, textCol := col, textTop := top }

/-- Nothing has changed. -/
theorem OnlyLog.refl (s : Overlay) : OnlyLog s s := ⟨_, _, _, _, rfl⟩

/-- Two changes of the log. -/
theorem OnlyLog.trans {s t u : Overlay} (h : OnlyLog s t) (h' : OnlyLog t u) : OnlyLog s u := by
  obtain ⟨_, _, _, _, rfl⟩ := h
  obtain ⟨text, row, col, top, rfl⟩ := h'
  exact ⟨text, row, col, top, rfl⟩

section OnlyLog

variable {s t : Overlay} {c : UInt8}

/-- A letter of the log. -/
theorem setText_onlyLog {row col : ℕ} (h : s.setText row col c = some t) : OnlyLog s t := by
  rw [Overlay.setText] at h
  split at h
  · cases h
    exact ⟨_, _, _, _, rfl⟩
  · cases h

/-- A new line of the log. -/
theorem newLine_onlyLog (h : s.newLine = some t) : OnlyLog s t := by
  obtain ⟨u, hu, ht⟩ := Option.bind_eq_some_iff.mp h
  cases ht
  exact (setText_onlyLog hu).trans ⟨_, _, _, _, rfl⟩

/-- A letter, with the wrap at the end of a row. -/
theorem putLetter_onlyLog (h : s.putLetter c = some t) : OnlyLog s t := by
  obtain ⟨u, hu, ht⟩ := Option.bind_eq_some_iff.mp h
  cases ht
  exact (setText_onlyLog hu).trans ⟨_, _, _, _, rfl⟩

/-- A character of the log. -/
theorem putChar_onlyLog (h : s.putChar c = some t) : OnlyLog s t := by
  have hletter : ∀ u, (if c ≠ ch '\n' then u.putLetter c else some u) = some t → OnlyLog u t := by
    intro u hu
    split at hu
    · exact putLetter_onlyLog hu
    · cases hu
      exact .refl _
  rw [Overlay.putChar] at h
  split at h
  · obtain ⟨u, hu, ht⟩ := Option.bind_eq_some_iff.mp h
    exact (newLine_onlyLog hu).trans (hletter u ht)
  · exact hletter s h

/-- A string of the log. -/
theorem putChars_onlyLog {buf : Bytes} (h : s.putChars buf = some t) : OnlyLog s t := by
  induction buf generalizing s with
  | nil =>
    cases h
    exact .refl _
  | cons c buf ih =>
    rw [Overlay.putChars] at h
    split at h
    · cases h
      exact .refl _
    · obtain ⟨u, hu, ht⟩ := Option.bind_eq_some_iff.mp h
      exact (putChar_onlyLog hu).trans (ih ht)

/-- `ui_print` changes the log only. -/
theorem printRaw_onlyLog {buf : Bytes} (h : uiPrintRaw buf s = some t) : OnlyLog s t := by
  rw [uiPrintRaw] at h
  split at h
  · obtain ⟨u, hu, ht⟩ := Option.bind_eq_some_iff.mp h
    exact (putChars_onlyLog hu).trans (setText_onlyLog ht)
  · cases h
    exact .refl s

end OnlyLog

/-! ## Runs -/

/-- The calls after `ui_start_menu`. -/
inductive MenuStep : Overlay → Overlay → Prop where
  | print {s t : Overlay} (formatted : Bytes) : uiPrint formatted s = some t → MenuStep s t
  | printRaw {s t : Overlay} (buf : Bytes) : uiPrintRaw buf s = some t → MenuStep s t
  | select (s : Overlay) (sel : ℤ) : MenuStep s (uiMenuSelect sel s).2
  | endMenu (s : Overlay) : MenuStep s (uiEndMenu s)

/-- The states between a menu and the next one. -/
abbrev Later : Overlay → Overlay → Prop := Relation.ReflTransGen MenuStep

/-- The states of a run from `ui_init` on. -/
inductive Reachable : Overlay → Prop where
  | init (rows cols : ℕ) : Reachable (uiInit rows cols)
  | later {s t : Overlay} : Reachable s → MenuStep s t → Reachable t
  | start {s t : Overlay} (headers items : List Bytes) (titleLength startSel : ℤ) :
      Reachable s → uiStartMenu headers items titleLength startSel s = some t → Reachable t

/-- What only `ui_start_menu` changes. -/
structure SameMenu (s t : Overlay) : Prop where
  textRows_eq : t.textRows = s.textRows
  textCols_eq : t.textCols = s.textCols
  menu_eq : t.menu = s.menu
  top_eq : t.menuTop = s.menuTop
  items_eq : t.menuItems = s.menuItems
  screen_eq : t.menuItemsScreen = s.menuItemsScreen
  title_eq : t.menuTitleLength = s.menuTitleLength
  show_imp : t.showMenu = true → s.showMenu = true

/-- Nothing has changed. -/
theorem SameMenu.refl (s : Overlay) : SameMenu s s := ⟨rfl, rfl, rfl, rfl, rfl, rfl, rfl, id⟩

/-- Two changes that keep the menu. -/
theorem SameMenu.trans {s t u : Overlay} (h : SameMenu s t) (h' : SameMenu t u) : SameMenu s u where
  textRows_eq := h'.textRows_eq.trans h.textRows_eq
  textCols_eq := h'.textCols_eq.trans h.textCols_eq
  menu_eq := h'.menu_eq.trans h.menu_eq
  top_eq := h'.top_eq.trans h.top_eq
  items_eq := h'.items_eq.trans h.items_eq
  screen_eq := h'.screen_eq.trans h.screen_eq
  title_eq := h'.title_eq.trans h.title_eq
  show_imp := fun hshow => h.show_imp (h'.show_imp hshow)

/-- The log is no part of the menu. -/
theorem OnlyLog.sameMenu {s t : Overlay} (h : OnlyLog s t) : SameMenu s t := by
  obtain ⟨_, _, _, _, rfl⟩ := h
  exact ⟨rfl, rfl, rfl, rfl, rfl, rfl, rfl, id⟩

/-- A selection keeps the items. -/
theorem select_sameMenu (s : Overlay) (sel : ℤ) : SameMenu s (uiMenuSelect sel s).2 := by
  simp only [uiMenuSelect]
  split_ifs
  all_goals exact ⟨rfl, rfl, rfl, rfl, rfl, rfl, rfl, id⟩

/-- The end of a menu keeps the items, which are no longer shown. -/
theorem endMenu_sameMenu (s : Overlay) : SameMenu s (uiEndMenu s) := by
  rw [uiEndMenu]
  split_ifs
  · exact ⟨rfl, rfl, rfl, rfl, rfl, rfl, rfl, fun h => by cases h⟩
  · exact .refl s

/-- Every call but `ui_start_menu` keeps the items. -/
theorem MenuStep.sameMenu {s t : Overlay} (h : MenuStep s t) : SameMenu s t := by
  cases h with
  | print formatted h => exact (printRaw_onlyLog h).sameMenu
  | printRaw buf h => exact (printRaw_onlyLog h).sameMenu
  | select sel => exact select_sameMenu s sel
  | endMenu => exact endMenu_sameMenu s

/-- So do any number of them. -/
theorem Later.sameMenu {s t : Overlay} (h : Later s t) : SameMenu s t := by
  induction h with
  | refl => exact .refl s
  | tail _ hstep ih => exact ih.trans hstep.sameMenu

/-! ## ui_start_menu -/

/-- The first rows of the menu hold these strings, cut to the columns of the screen. -/
def MenuHolds (s : Overlay) (strs : List Bytes) : Prop :=
  ∀ k (h : k < strs.length), s.menuText k = some ((cText strs[k]).take s.textCols)

/-- The strings stay where they are. -/
theorem SameMenu.holds {s t : Overlay} {strs : List Bytes} (h : SameMenu s t)
    (hs : MenuHolds s strs) : MenuHolds t strs := by
  intro k hk
  rw [h.textCols_eq, Overlay.menuText, h.menu_eq]
  exact hs k hk

section Start

variable {s t : Overlay}

/-- The row of a string holds it, the other rows are as they were. -/
theorem setMenu_holds {pre : List Bytes} (str : Bytes) (hcols : s.textCols < maxCols)
    (hrow : pre.length < maxRows) (hpre : MenuHolds s pre) :
    ∃ t, s.setMenu pre.length str = some t ∧ t = { s with menu := t.menu } ∧
      MenuHolds t (pre ++ [str]) := by
  rw [Overlay.setMenu, if_pos ⟨hrow, hcols⟩]
  refine ⟨_, rfl, rfl, fun k hk => ?_⟩
  rw [List.length_append, List.length_singleton] at hk
  by_cases hlast : k < pre.length
  · rw [List.getElem_append_left hlast]
    have hne : (k : ℤ) ≠ (pre.length : ℤ) := by omega
    have hk := hpre k hlast
    rw [Overlay.menuText] at hk ⊢
    simp only [hne, false_and, if_false]
    exact hk
  · obtain rfl : k = pre.length := by omega
    rw [List.getElem_concat_length rfl, Overlay.menuText,
      if_pos ⟨Int.natCast_nonneg _, Int.ofNat_lt.mpr hrow⟩]
    simp only [true_and]
    -- the string of the row, from its cells
    have hlen : ((cText str).take s.textCols).length = min s.textCols (cText str).length :=
      List.length_take
    refine rowText_eq ?_ ?_ (by omega) fun hmem =>
      zero_notMem_cText str (List.mem_of_mem_take hmem)
    · intro i hi
      rw [if_pos (by omega), List.getElem_take, List.getD_eq_getElem _ _ (by omega)]
    · by_cases hshort : (cText str).length < s.textCols
      · rw [if_pos (by omega), List.getD_eq_default _ _ (by omega)]
      · rw [if_neg (by omega), if_pos (by omega)]

/-- The loop that copies the strings, from row `pre.length` on. -/
theorem copyRows_holds {strs pre : List Bytes} (hcols : s.textCols < maxCols)
    (hrows : pre.length + strs.length ≤ maxRows) (hpre : MenuHolds s pre) :
    ∃ t, s.copyRows pre.length strs = some (pre.length + strs.length, t) ∧
      t = { s with menu := t.menu } ∧ MenuHolds t (pre ++ strs) := by
  induction strs generalizing s pre with
  | nil => exact ⟨s, rfl, rfl, by rwa [List.append_nil]⟩
  | cons str strs ih =>
    rw [List.length_cons] at hrows
    obtain ⟨u, hset, hu, hholds⟩ := setMenu_holds str hcols (by omega) hpre
    have hlen : (pre ++ [str]).length = pre.length + 1 := List.length_append
    have hucols : u.textCols = s.textCols := by rw [hu]
    obtain ⟨t, hcopy, ht, htholds⟩ := ih (by rw [hucols]; exact hcols) (by omega) hholds
    have hrow : pre.length < menuMaxRows := by
      unfold menuMaxRows
      unfold maxRows at hrows
      omega
    refine ⟨t, ?_, ?_, by rwa [List.append_assoc] at htholds⟩
    · rw [Overlay.copyRows, if_pos hrow, hset, Option.bind_some, ← hlen, hcopy, hlen, List.length_cons]
      congr 2
      omega
    · rw [ht, hu]

/-- The headers, and the items after them. -/
theorem copyRows_both {headers items : List Bytes} (hcols : s.textCols < maxCols)
    (hfit : headers.length + items.length ≤ maxRows) :
    ∃ u t, s.copyRows 0 headers = some (headers.length, u) ∧
      u.copyRows headers.length items = some (headers.length + items.length, t) ∧
      t = { s with menu := t.menu } ∧ MenuHolds t (headers ++ items) := by
  have hempty : MenuHolds s [] := fun k hk => absurd hk (Nat.not_lt_zero k)
  have hheaders : ([] : List Bytes).length + headers.length ≤ maxRows := by
    rw [List.length_nil]
    omega
  obtain ⟨u, hcopy, hu, huholds⟩ := copyRows_holds hcols hheaders hempty
  rw [List.length_nil, Nat.zero_add] at hcopy
  rw [List.nil_append] at huholds
  have hucols : u.textCols < maxCols := by
    rw [hu]
    exact hcols
  obtain ⟨t, hitems, ht, htholds⟩ := copyRows_holds hucols hfit huholds
  exact ⟨u, t, hcopy, hitems, by rw [ht, hu], htholds⟩

/-- A list that is too long is copied past the last row. -/
theorem copyRows_out {strs : List Bytes} {i : ℕ} (hi : i ≤ maxRows)
    (hlong : maxRows < i + strs.length) : s.copyRows i strs = none := by
  induction strs generalizing s i with
  | nil =>
    rw [List.length_nil] at hlong
    omega
  | cons str strs ih =>
    rw [List.length_cons] at hlong
    have hrow : i < menuMaxRows := lt_of_le_of_lt hi (by decide)
    rw [Overlay.copyRows, if_pos hrow]
    by_cases hlast : i < maxRows
    · cases hset : s.setMenu i str with
      | none => rfl
      | some u => exact ih hlast (by omega)
    · -- row 64 is not a row of the buffer
      rw [Overlay.setMenu, if_neg fun h => hlast h.1, Option.bind_none]

/-- The menu as `ui_start_menu` leaves it. -/
structure Started (s : Overlay) (headers items : List Bytes) (titleLength startSel : ℤ)
    (t : Overlay) : Prop where
  textRows_eq : t.textRows = s.textRows
  textCols_eq : t.textCols = s.textCols
  holds : MenuHolds t (headers ++ items)
  top_eq : t.menuTop = headers.length
  items_eq : t.menuItems = items.length
  screen_eq : t.menuItemsScreen = min (items.length : ℤ) (s.textRows - 4 - headers.length)
  sel_eq : t.menuSel = startSel
  itemTop_eq : t.menuItemTop =
    if t.menuItemsScreen ≤ startSel then startSel - t.menuItemsScreen + 1 else 0
  title_eq : t.menuTitleLength = titleLength
  show_eq : t.showMenu = true

variable {headers items : List Bytes} {titleLength startSel : ℤ}

/-- A menu that fits is copied as a whole. -/
theorem startMenu_started (hguard : 0 < s.textRows ∧ 0 < s.textCols) (hcols : s.textCols < maxCols)
    (hfit : headers.length + items.length ≤ maxRows) :
    ∃ t, uiStartMenu headers items titleLength startSel s = some t ∧
      Started s headers items titleLength startSel t := by
  obtain ⟨u, v, hheaders, hitems, hv, hvholds⟩ :=
    copyRows_both (s := { s with menuTitleLength := titleLength }) hcols hfit
  have hguard' : 0 < ({ s with menuTitleLength := titleLength } : Overlay).textRows ∧
      0 < ({ s with menuTitleLength := titleLength } : Overlay).textCols := hguard
  have hvrows : v.textRows = s.textRows := by rw [hv]
  have hscreen : (if (items.length : ℤ) < s.textRows - 4 - headers.length then (items.length : ℤ)
      else s.textRows - 4 - headers.length) =
        min (items.length : ℤ) (s.textRows - 4 - headers.length) := by
    rw [min_def]
    split_ifs <;> omega
  refine ⟨{ v with
    menuTop := headers.length, menuItems := items.length,
    menuItemsScreen := min (items.length : ℤ) (s.textRows - 4 - headers.length), showMenu := true,
    menuSel := startSel,
    menuItemTop := if min (items.length : ℤ) (s.textRows - 4 - headers.length) ≤ startSel then
      startSel - min (items.length : ℤ) (s.textRows - 4 - headers.length) + 1 else 0 }, ?_, ?_⟩
  · have hcount : ((headers.length + items.length : ℕ) : ℤ) - (headers.length : ℤ) = items.length := by
      omega
    simp only [uiStartMenu]
    rw [if_pos hguard', hheaders]
    simp only [Option.bind_eq_bind, Option.bind_some]
    rw [hitems]
    simp only [Option.bind_some]
    rw [hcount, hvrows, hscreen]
  · exact
      { textRows_eq := hvrows
        textCols_eq := by show v.textCols = s.textCols; rw [hv]
        holds := hvholds
        top_eq := rfl
        items_eq := rfl
        screen_eq := rfl
        sel_eq := rfl
        itemTop_eq := rfl
        title_eq := by show v.menuTitleLength = titleLength; rw [hv]
        show_eq := rfl }

/-- A menu with too many strings is copied beyond the array. -/
theorem startMenu_out (hguard : 0 < s.textRows ∧ 0 < s.textCols) (hcols : s.textCols < maxCols)
    (hlong : maxRows < headers.length + items.length) :
    uiStartMenu headers items titleLength startSel s = none := by
  have hguard' : 0 < ({ s with menuTitleLength := titleLength } : Overlay).textRows ∧
      0 < ({ s with menuTitleLength := titleLength } : Overlay).textCols := hguard
  simp only [uiStartMenu]
  rw [if_pos hguard']
  by_cases hheaders : headers.length ≤ maxRows
  · have hshort : headers.length + ([] : List Bytes).length ≤ maxRows := hheaders
    obtain ⟨u, -, hcopy, -⟩ :=
      copyRows_both (s := { s with menuTitleLength := titleLength }) hcols hshort
    rw [hcopy]
    simp only [Option.bind_eq_bind, Option.bind_some]
    rw [copyRows_out hheaders hlong]
    rfl
  · rw [copyRows_out (Nat.zero_le _) (by omega)]
    rfl

/-- Without a screen nothing is shown. -/
theorem startMenu_off (hguard : ¬ (0 < s.textRows ∧ 0 < s.textCols)) :
    uiStartMenu headers items titleLength startSel s =
      some { s with menuTitleLength := titleLength } := if_neg hguard

end Start

end OpenRecovery.Ui
