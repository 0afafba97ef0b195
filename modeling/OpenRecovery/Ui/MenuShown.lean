import OpenRecovery.Ui.MenuState

/-!
# What is shown of a menu

The items on the screen are a window of the items of the menu (`Window`). `ui_start_menu` puts the
selected item into the last row of the window or leaves the window at the top, and `ui_menu_select`
moves the window as little as it can; in each case the selected item stays in it
(`selected_visible`).

The rows that are drawn are rows that `ui_start_menu` has written, as long as it stays inside the
buffer (`menu_inside_iff`).
-/

set_option autoImplicit false

namespace OpenRecovery.Ui

open OpenRecovery.Storage

/-! ## The window -/

/-- A window of `screen` from `top` on, out of `items`, with `sel` in it. -/
structure Window (items screen top sel : ℤ) : Prop where
  sel_nonneg : 0 ≤ sel
  sel_lt : sel < items
  top_nonneg : 0 ≤ top
  top_le : top ≤ sel
  sel_lt_stop : sel < top + screen
  stop_le : top + screen ≤ items

section Window

variable {items screen top sel new : ℤ}

theorem window_start (hsel : 0 ≤ sel) (hsel' : sel < items) (hscreen : 1 ≤ screen)
    (hscreen' : screen ≤ items) :
    Window items screen (if screen ≤ sel then sel - screen + 1 else 0) sel := by
  by_cases hlow : screen ≤ sel
  · rw [if_pos hlow]
    exact ⟨hsel, hsel', by omega, by omega, by omega, by omega⟩
  · rw [if_neg hlow]
    exact ⟨hsel, hsel', le_refl 0, hsel, by omega, by omega⟩

/-- Up to a selection above the window. -/
theorem Window.up (h : Window items screen top sel) (hnew : 0 ≤ new) (habove : new < top) :
    Window items screen new new := by
  obtain ⟨h1, h2, h3, h4, h5, h6⟩ := h
  exact ⟨hnew, by omega, hnew, le_refl new, by omega, by omega⟩

/-- Down to a selection below the window. -/
theorem Window.down (h : Window items screen top sel) (hnew : new < items)
    (hbelow : top + screen ≤ new) : Window items screen (new - screen + 1) new := by
  obtain ⟨h1, h2, h3, h4, h5, h6⟩ := h
  exact ⟨by omega, hnew, by omega, by omega, by omega, by omega⟩

/-- A selection that is in the window already. -/
theorem Window.stay (h : Window items screen top sel) (htop : top ≤ new)
    (hbelow : new < top + screen) : Window items screen top new := by
  obtain ⟨h1, h2, h3, h4, h5, h6⟩ := h
  exact ⟨by omega, by omega, h3, htop, hbelow, h6⟩

end Window

/-- The window of a menu, if there is a row for it. -/
def Overlay.Visible (s : Overlay) : Prop :=
  Window s.menuItems s.menuItemsScreen s.menuItemTop s.menuSel

theorem select_visible {s : Overlay} (sel : ℤ) (h : s.Visible) : (uiMenuSelect sel s).2.Visible := by
  have hitems : 0 < s.menuItems := lt_of_le_of_lt h.sel_nonneg h.sel_lt
  simp only [uiMenuSelect]
  by_cases hshow : s.showMenu = true
  · rw [if_pos hshow]
    -- the selection, clamped to the items
    obtain ⟨new, hnew⟩ : ∃ new, new = if s.menuItems ≤ (if sel < 0 then 0 else sel) then
      s.menuItems - 1 else (if sel < 0 then 0 else sel) := ⟨_, rfl⟩
    have hrange : 0 ≤ new ∧ new < s.menuItems := by
      rw [hnew]
      split_ifs <;> omega
    rw [← hnew]
    by_cases hsame : new = s.menuSel
    · rw [if_neg (not_not.mpr hsame)]
      exact h.stay (by rw [hsame]; exact h.top_le) (by rw [hsame]; exact h.sel_lt_stop)
    rw [if_pos hsame]
    by_cases hup : new < s.menuItemTop
    · rw [if_pos hup]
      exact h.up hrange.1 hup
    rw [if_neg hup]
    by_cases hdown : s.menuItemTop + s.menuItemsScreen ≤ new
    · rw [if_pos hdown]
      exact h.down hrange.2 hdown
    · rw [if_neg hdown]
      exact h.stay (not_lt.mp hup) (not_le.mp hdown)
  · rw [if_neg hshow]
    exact h

theorem MenuStep.visible {s t : Overlay} (h : MenuStep s t) (hs : s.Visible) : t.Visible := by
  cases h with
  | print formatted h =>
    obtain ⟨_, _, _, _, rfl⟩ := printRaw_onlyLog h
    exact hs
  | printRaw buf h =>
    obtain ⟨_, _, _, _, rfl⟩ := printRaw_onlyLog h
    exact hs
  | select sel => exact select_visible sel hs
  | endMenu =>
    rw [uiEndMenu]
    split_ifs
    · exact hs
    · exact hs

theorem Later.visible {s t : Overlay} (h : Later s t) (hs : s.Visible) : t.Visible := by
  induction h with
  | refl => exact hs
  | tail _ hstep ih => exact hstep.visible ih

/-! ## Reachable states -/

theorem Reachable.inv {s : Overlay} (h : Reachable s) :
    s.textCols < maxCols ∧
      (¬ (0 < s.textRows ∧ 0 < s.textCols) → s.showMenu = false ∧ s.menuItemsScreen = 0) := by
  induction h with
  | init rows cols => exact ⟨Nat.lt_of_le_pred (by decide) (min_le_right _ _), fun _ => ⟨rfl, rfl⟩⟩
  | later _ hstep ih =>
    have hsame := hstep.sameMenu
    rw [hsame.textCols_eq, hsame.textRows_eq, hsame.screen_eq]
    refine ⟨ih.1, fun hguard => ⟨?_, (ih.2 hguard).2⟩⟩
    by_contra hshow
    have hbefore := hsame.show_imp (Bool.eq_true_of_not_eq_false hshow)
    rw [(ih.2 hguard).1] at hbefore
    cases hbefore
  | @start s t headers items titleLength startSel _ hstart ih =>
    by_cases hguard : 0 < s.textRows ∧ 0 < s.textCols
    · by_cases hfit : headers.length + items.length ≤ maxRows
      · obtain ⟨t', heq, ht⟩ := startMenu_started hguard ih.1 hfit
        cases hstart.symm.trans heq
        rw [ht.textCols_eq, ht.textRows_eq]
        exact ⟨ih.1, fun hnot => absurd hguard hnot⟩
      · rw [startMenu_out hguard ih.1 (not_le.mp hfit)] at hstart
        cases hstart
    · rw [startMenu_off hguard] at hstart
      cases hstart
      exact ih

/-! ## The rows that are drawn -/

/-- The row of the menu that a line is read from. -/
def Line.menuIndex : Line → Option ℤ
  | .title row => some row
  | .menu _ index _ => some index
  | .log _ _ => none

theorem mem_rowsFrom {i stop row : ℤ} : row ∈ rowsFrom i stop ↔ i ≤ row ∧ row < stop := by
  rw [rowsFrom, List.mem_map]
  constructor
  · rintro ⟨k, hk, rfl⟩
    have hk := List.mem_range.mp hk
    omega
  · rintro ⟨hlow, hhigh⟩
    exact ⟨(row - i).toNat, List.mem_range.mpr (by omega), by omega⟩

theorem drawLog_menuIndex {s : Overlay} {first : ℕ} {line : Line} (h : line ∈ s.drawLog first) :
    line.menuIndex = none := by
  obtain ⟨i, -, rfl⟩ := List.mem_map.mp h
  rfl

/-- A line of the menu: a title line, a header, or one of the others. -/
theorem mem_headers {s : Overlay} {items : List Line} {line : Line}
    (h : line ∈ (rowsFrom 0 s.menuTitleLength).map Line.title ++
      (rowsFrom (max 0 s.menuTitleLength) s.menuTop).map (fun i => Line.menu i i false) ++ items) :
    (∃ row, 0 ≤ row ∧ row < s.menuTitleLength ∧ line = .title row) ∨
      (∃ row, 0 ≤ row ∧ row < s.menuTop ∧ line = .menu row row false) ∨ line ∈ items := by
  rw [List.mem_append, List.mem_append] at h
  rcases h with (h | h) | h
  · obtain ⟨row, hrow, rfl⟩ := List.mem_map.mp h
    have hrow := mem_rowsFrom.mp hrow
    exact .inl ⟨row, hrow.1, hrow.2, rfl⟩
  · obtain ⟨row, hrow, rfl⟩ := List.mem_map.mp h
    have hrow := mem_rowsFrom.mp hrow
    exact .inr (.inl ⟨row, le_trans (le_max_left _ _) hrow.1, hrow.2, rfl⟩)
  · exact .inr (.inr h)

/-- The index of the first item on the screen, as far as the drawing goes. -/
def Overlay.firstShown (s : Overlay) : ℤ :=
  if s.menuItems ≠ s.menuItemsScreen then s.menuItemTop else 0

theorem mem_drawMenu {s : Overlay} {line : Line} (h : line ∈ s.drawMenu.lines) :
    (∃ row, 0 ≤ row ∧ row < s.menuTitleLength ∧ line = .title row) ∨
      (∃ row, 0 ≤ row ∧ row < s.menuTop ∧ line = .menu row row false) ∨
        ∃ row, s.menuTop ≤ row ∧ row < s.menuTop + s.menuItemsScreen ∧
          line = .menu row (row + s.firstShown) (row + s.firstShown = s.menuTop + s.menuSel) := by
  simp only [Overlay.drawMenu] at h
  unfold Overlay.firstShown
  by_cases hscroll : s.menuItems ≠ s.menuItemsScreen
  · rw [if_pos hscroll] at h ⊢
    rcases mem_headers h with h | h | h
    · exact .inl h
    · exact .inr (.inl h)
    · obtain ⟨row, hrow, rfl⟩ := List.mem_map.mp h
      have hrow := mem_rowsFrom.mp hrow
      exact .inr (.inr ⟨row, le_trans (le_max_right _ _) hrow.1, hrow.2, rfl⟩)
  · rw [if_neg hscroll] at h ⊢
    rcases mem_headers h with h | h | h
    · exact .inl h
    · exact .inr (.inl h)
    · obtain ⟨row, hrow, rfl⟩ := List.mem_map.mp h
      have hrow := mem_rowsFrom.mp hrow
      refine .inr (.inr ⟨row, le_trans (le_max_right _ _) hrow.1, by omega, ?_⟩)
      rw [Int.add_zero]

/-- What the drawing takes for the first item is the top of the window. -/
theorem firstShown_eq {s : Overlay} (h : s.Visible) : s.firstShown = s.menuItemTop := by
  obtain ⟨-, -, htop, -, -, hstop⟩ := h
  rw [Overlay.firstShown]
  split_ifs <;> omega

section Started

variable {s t u : Overlay} {headers items : List Bytes} {titleLength startSel : ℤ}

theorem Started.visible (h : Started s headers items titleLength startSel t)
    (hscreen : 1 ≤ t.menuItemsScreen) (hsel : 0 ≤ startSel) (hsel' : startSel < items.length) :
    t.Visible := by
  have hle : t.menuItemsScreen ≤ items.length := by
    rw [h.screen_eq]
    exact min_le_left _ _
  rw [Overlay.Visible, h.sel_eq, h.itemTop_eq, h.items_eq]
  exact window_start hsel hsel' hscreen hle

/-- Every row of the menu that is drawn is one that was written. -/
theorem Started.index_lt (h : Started s headers items titleLength startSel t)
    (htitle : titleLength ≤ headers.length)
    (hsel : items ≠ [] → 0 ≤ startSel ∧ startSel < items.length) (hlater : Later t u) {line : Line}
    (hline : line ∈ drawScreen u) {index : ℤ} (hindex : line.menuIndex = some index) :
    0 ≤ index ∧ index < (headers ++ items).length := by
  have hsame := hlater.sameMenu
  have htop : u.menuTop = headers.length := hsame.top_eq.trans h.top_eq
  rw [List.length_append]
  rw [drawScreen] at hline
  split at hline
  · rcases List.mem_append.mp hline with hline | hline
    · rcases mem_drawMenu hline with ⟨row, h0, hrow, rfl⟩ | ⟨row, h0, hrow, rfl⟩ | hitem
      · cases hindex
        rw [hsame.title_eq, h.title_eq] at hrow
        omega
      · cases hindex
        omega
      · obtain ⟨row, hlow, hhigh, rfl⟩ := hitem
        cases hindex
        -- there is a row for the items
        have hscreen : 1 ≤ u.menuItemsScreen := by omega
        rw [hsame.screen_eq] at hscreen
        have hne : items ≠ [] := by
          rintro rfl
          rw [h.screen_eq, List.length_nil] at hscreen
          omega
        have hvisible := hlater.visible (h.visible hscreen (hsel hne).1 (hsel hne).2)
        have hitems : u.menuItems = items.length := hsame.items_eq.trans h.items_eq
        have hnonneg := hvisible.top_nonneg
        have hstop := hvisible.stop_le
        rw [firstShown_eq hvisible]
        omega
    · rw [drawLog_menuIndex hline] at hindex
      cases hindex
  · rw [drawLog_menuIndex hline] at hindex
    cases hindex

end Started

/-! ## Menus of any length -/

/-- The strings that are copied to the menu, if there is a screen. -/
def copied (s : Overlay) (headers items : List Bytes) : List Bytes :=
  if 0 < s.textRows ∧ 0 < s.textCols then headers ++ items else []

/-- `ui_start_menu` writes rows of the menu only, and whatever is drawn before the next menu is read
from one of the rows that it has written, which hold their strings. -/
def MenuInside (s : Overlay) (headers items : List Bytes) (titleLength startSel : ℤ) : Prop :=
  ∃ t, uiStartMenu headers items titleLength startSel s = some t ∧
    ∀ u, Later t u → MenuHolds u (copied s headers items) ∧
      ∀ line ∈ drawScreen u, ∀ index, line.menuIndex = some index →
        0 ≤ index ∧ index < (copied s headers items).length

/-- A menu stays inside the buffer exactly if the headers and the items are at most 64 together. The
title is part of the headers, and the initial selection is an item. -/
theorem menu_inside_iff {s : Overlay} (hs : Reachable s) (headers items : List Bytes)
    {titleLength startSel : ℤ} (htitle : titleLength ≤ headers.length)
    (hsel : items ≠ [] → 0 ≤ startSel ∧ startSel < items.length) :
    MenuInside s headers items titleLength startSel ↔
      s.textRows = 0 ∨ s.textCols = 0 ∨ headers.length + items.length ≤ maxRows := by
  obtain ⟨hcols, hoff⟩ := hs.inv
  unfold MenuInside copied
  by_cases hguard : 0 < s.textRows ∧ 0 < s.textCols
  · rw [if_pos hguard]
    constructor
    · rintro ⟨t, hstart, -⟩
      refine .inr (.inr (not_lt.mp fun hlong => ?_))
      rw [startMenu_out hguard hcols hlong] at hstart
      cases hstart
    · rintro (hrows | hcols' | hfit)
      · exact absurd hrows hguard.1.ne'
      · exact absurd hcols' hguard.2.ne'
      · obtain ⟨t, hstart, ht⟩ := startMenu_started hguard hcols hfit
        refine ⟨t, hstart, fun u hu => ⟨hu.sameMenu.holds ht.holds, ?_⟩⟩
        intro line hline index hindex
        exact ht.index_lt htitle hsel hu hline hindex
  · rw [if_neg hguard]
    have hoff' : s.textRows = 0 ∨ s.textCols = 0 := by omega
    refine iff_of_true ⟨_, startMenu_off hguard, fun u hu => ⟨?_, ?_⟩⟩ (hoff'.elim .inl (.inr ∘ .inl))
    · exact fun k hk => absurd hk (Nat.not_lt_zero k)
    · -- no menu is shown, so nothing is read from it
      intro line hline index hindex
      have hhidden : u.showMenu ≠ true := fun hshow => by
        have hbefore : s.showMenu = true := hu.sameMenu.show_imp hshow
        rw [(hoff hguard).1] at hbefore
        cases hbefore
      rw [drawScreen, if_neg hhidden] at hline
      rw [drawLog_menuIndex hline] at hindex
      cases hindex

/-! ## The selected item -/

/-- Selections one after the other. -/
def runSelects (sels : List ℤ) (s : Overlay) : Overlay :=
  sels.foldl (fun s sel => (uiMenuSelect sel s).2) s

theorem later_runSelects (sels : List ℤ) (s : Overlay) : Later s (runSelects sels s) := by
  induction sels generalizing s with
  | nil => exact .refl
  | cons sel sels ih => exact (Relation.ReflTransGen.single (.select s sel)).trans (ih _)

theorem runSelects_show (sels : List ℤ) (s : Overlay) :
    (runSelects sels s).showMenu = s.showMenu := by
  induction sels generalizing s with
  | nil => rfl
  | cons sel sels ih =>
    refine (ih _).trans ?_
    simp only [uiMenuSelect]
    split_ifs <;> rfl

/-- The item rows that are drawn are items of the menu, each with its text; the line of the selected
item, and only that, is in the selected colour, and it is the line with the bar behind it. -/
structure ItemsShown (s : Overlay) (items : List Bytes) : Prop where
  show_eq : s.showMenu = true
  item : ∀ row index selected, Line.menu row index selected ∈ drawScreen s → s.menuTop ≤ row →
    ∃ k, ∃ h : k < items.length, index = s.menuTop + k ∧ index = row + s.menuItemTop ∧
      s.lineText (.menu row index selected) = some ((cText items[k]).take s.textCols) ∧
        (selected = true ↔ (k : ℤ) = s.menuSel)
  bar_mem : s.menuTop + s.menuSel - s.menuItemTop ∈ s.drawMenu.bars
  bar_eq : ∀ bar ∈ s.drawMenu.bars, bar = s.menuTop + s.menuSel - s.menuItemTop
  selected_mem : s.menuTitleLength ≤ s.menuTop →
    Line.menu (s.menuTop + s.menuSel - s.menuItemTop) (s.menuTop + s.menuSel) true ∈ drawScreen s

section ItemsShown

variable {s : Overlay} {headers items : List Bytes}

theorem Overlay.Visible.bars (h : s.Visible) :
    s.menuTop + s.menuSel - s.menuItemTop ∈ s.drawMenu.bars ∧
      ∀ bar ∈ s.drawMenu.bars, bar = s.menuTop + s.menuSel - s.menuItemTop := by
  obtain ⟨-, -, htop, -, -, hstop⟩ := h
  simp only [Overlay.drawMenu]
  by_cases hscroll : s.menuItems ≠ s.menuItemsScreen
  · rw [if_pos hscroll]
    exact ⟨List.mem_cons_self, fun bar hbar => List.mem_singleton.mp hbar⟩
  · rw [if_neg hscroll]
    refine ⟨List.mem_cons_self, fun bar hbar => ?_⟩
    rcases List.mem_cons.mp hbar with rfl | hbar
    · rfl
    · rw [List.mem_singleton.mp hbar]
      omega

theorem Overlay.Visible.selected_mem (h : s.Visible) (htitle : s.menuTitleLength ≤ s.menuTop)
    (htop : 0 ≤ s.menuTop) :
    Line.menu (s.menuTop + s.menuSel - s.menuItemTop) (s.menuTop + s.menuSel) true ∈
      s.drawMenu.lines := by
  obtain ⟨-, -, htop', hle, hlt, hstop⟩ := h
  simp only [Overlay.drawMenu]
  by_cases hscroll : s.menuItems ≠ s.menuItemsScreen
  · rw [if_pos hscroll]
    refine List.mem_append_right _ (List.mem_map.mpr
      ⟨s.menuTop + s.menuSel - s.menuItemTop, mem_rowsFrom.mpr ⟨by omega, by omega⟩, ?_⟩)
    have hindex : s.menuTop + s.menuSel - s.menuItemTop + s.menuItemTop = s.menuTop + s.menuSel := by
      omega
    rw [hindex, decide_eq_true rfl]
  · rw [if_neg hscroll]
    refine List.mem_append_right _ (List.mem_map.mpr
      ⟨s.menuTop + s.menuSel, mem_rowsFrom.mpr ⟨by omega, by omega⟩, ?_⟩)
    have hrow : s.menuTop + s.menuSel - s.menuItemTop = s.menuTop + s.menuSel := by omega
    rw [hrow, decide_eq_true rfl]

theorem Overlay.Visible.itemsShown (h : s.Visible) (hshow : s.showMenu = true)
    (htop : s.menuTop = headers.length) (hitems : s.menuItems = items.length)
    (hholds : MenuHolds s (headers ++ items)) : ItemsShown s items := by
  have hdraw : drawScreen s = s.drawMenu.lines ++ s.drawLog s.drawMenu.next.toNat := by
    rw [drawScreen, if_pos hshow]
  refine
    { show_eq := hshow
      item := ?_
      bar_mem := h.bars.1
      bar_eq := h.bars.2
      selected_mem := fun htitle => by
        rw [hdraw]
        exact List.mem_append_left _ (h.selected_mem htitle (by omega)) }
  intro row index selected hline hlow
  rw [hdraw] at hline
  rcases List.mem_append.mp hline with hline | hline
  · rcases mem_drawMenu hline with ⟨row', -, -, heq⟩ | ⟨row', -, hlt, heq⟩ | ⟨row', -, hhigh, heq⟩
    · cases heq
    · cases heq
      omega
    · rw [firstShown_eq h] at heq
      cases heq
      have hnonneg := h.top_nonneg
      have hstop := h.stop_le
      -- the number of the item
      obtain ⟨k, hk⟩ : ∃ k : ℕ, (k : ℤ) = row + s.menuItemTop - s.menuTop :=
        ⟨(row + s.menuItemTop - s.menuTop).toNat, by omega⟩
      have hklt : k < items.length := by omega
      have hindex : row + s.menuItemTop = ((headers.length + k : ℕ) : ℤ) := by omega
      refine ⟨k, hklt, by omega, rfl, ?_, ?_⟩
      · have htext := hholds (headers.length + k) (by rw [List.length_append]; omega)
        rw [List.getElem_append_right (Nat.le_add_right _ _)] at htext
        simp only [Nat.add_sub_cancel_left] at htext
        rw [Overlay.lineText, hindex, htext]
      · rw [decide_eq_true_iff]
        omega
  · obtain ⟨i, -, heq⟩ := List.mem_map.mp hline
    cases heq

end ItemsShown

/-- The selected item is always in the window, the window stays inside the menu, and what is drawn
are items of the menu with the selected one highlighted. -/
theorem selected_visible {s : Overlay} (hs : Reachable s) (headers items : List Bytes)
    (titleLength startSel : ℤ) (hfit : headers.length + items.length ≤ maxRows) (hsel : 0 ≤ startSel)
    (hsel' : startSel < items.length) :
    ∃ t, uiStartMenu headers items titleLength startSel s = some t ∧
      (1 ≤ t.menuItemsScreen → ∀ sels,
        (runSelects sels t).menuItems = items.length ∧ (runSelects sels t).Visible ∧
          ItemsShown (runSelects sels t) items) := by
  obtain ⟨hcols, hoff⟩ := hs.inv
  by_cases hguard : 0 < s.textRows ∧ 0 < s.textCols
  · obtain ⟨t, hstart, ht⟩ := startMenu_started hguard hcols hfit
    refine ⟨t, hstart, fun hscreen sels => ?_⟩
    have hlater := later_runSelects sels t
    have hsame := hlater.sameMenu
    have hvisible := hlater.visible (ht.visible hscreen hsel hsel')
    have hitems := hsame.items_eq.trans ht.items_eq
    exact ⟨hitems, hvisible, hvisible.itemsShown ((runSelects_show sels t).trans ht.show_eq)
      (hsame.top_eq.trans ht.top_eq) hitems (hsame.holds ht.holds)⟩
  · refine ⟨_, startMenu_off hguard, fun hscreen => ?_⟩
    have hzero : s.menuItemsScreen = 0 := (hoff hguard).2
    have hone : 1 ≤ s.menuItemsScreen := hscreen
    omega

namespace Sample

/-- Two items on a screen with room for one of them. -/
theorem selected_visible_two :
    ∃ t, uiStartMenu [cstr "title"] [cstr "No", cstr "Yes"] 1 0 (uiInit 6 40) = some t ∧
      ∀ sels, (runSelects sels t).menuItems = 2 ∧ (runSelects sels t).Visible ∧
        ItemsShown (runSelects sels t) [cstr "No", cstr "Yes"] := by
  have hroom : ((uiStartMenu [cstr "title"] [cstr "No", cstr "Yes"] 1 0 (uiInit 6 40)).any
      fun t => 1 ≤ t.menuItemsScreen) = true := by decide +kernel
  obtain ⟨t, ht, hshown⟩ := selected_visible (.init 6 40) [cstr "title"]
    [cstr "No", cstr "Yes"] 1 0 (by decide) (by decide) (by decide)
  rw [ht] at hroom
  exact ⟨t, ht, hshown (of_decide_eq_true hroom)⟩

theorem menu_inside_two :
    MenuInside (uiInit 24 40) [cstr "title"] [cstr "No", cstr "Yes"] 1 0 :=
  (menu_inside_iff (.init 24 40) _ _ (by decide) fun _ => ⟨by decide, by decide⟩).mpr
    (.inr (.inr (by decide)))

/-- The headers of the package browser below a title of one line, and a directory of 60 packages. -/
theorem packages_not_inside :
    ¬ MenuInside (uiInit 24 40)
      [cstr "title", cstr "Choose a package to install:", cstr "/sdcard", []]
      (cstr "../" :: List.replicate 60 (cstr "a.zip")) 1 0 := by
  rintro ⟨t, ht, -⟩
  have hnone : (uiStartMenu [cstr "title", cstr "Choose a package to install:", cstr "/sdcard", []]
      (cstr "../" :: List.replicate 60 (cstr "a.zip")) 1 0 (uiInit 24 40)).isNone = true := by
    decide +kernel
  rw [ht] at hnone
  cases hnone

end Sample

end OpenRecovery.Ui
