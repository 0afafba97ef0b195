import OpenRecovery.Recovery.ScreenTimer

/-!
# The selected item can be selected

A search goes round the items, so it ends if one of them is selectable (`search_found`), and it
comes to one that is. Only the search for the initial selection sees that there is none; the two
others go on for ever (`menu_selection_iff`).
-/

set_option autoImplicit false

namespace OpenRecovery.Recovery

open OpenRecovery.Storage OpenRecovery.Ui

/-! ## The searches -/

section Searches

variable {c : Choices} {next : ℤ → ℤ} {i j selected initial : ℤ}

/-- Whatever a search finds is selectable. -/
theorem search_selectable {n : ℕ} (h : c.search next n selected = .found i) :
    c.selectable i = some true := by
  induction n generalizing selected with
  | zero => cases h
  | succ n ih =>
      rw [Choices.search] at h
      split at h
      · cases h
      · next hselectable =>
          cases h
          exact hselectable
      · exact ih h

/-- Every item is selectable or not. -/
theorem selectable_of_range (h : 0 ≤ i ∧ i < c.items.length) : ∃ b, c.selectable i = some b :=
  ⟨_, if_pos h⟩

/-- What is selectable is an item. -/
theorem range_of_selectable {b : Bool} (h : c.selectable i = some b) :
    0 ≤ i ∧ i < c.items.length := by
  rw [Choices.selectable] at h
  split at h
  · next hrange => exact hrange
  · cases h

/-- The steps down from `i` to `j`. -/
def Choices.below (c : Choices) (j i : ℤ) : ℕ :=
  (if i ≤ j then j - i else j + c.items.length - i).toNat

/-- The steps up from `i` to `j`. -/
def Choices.above (c : Choices) (j i : ℤ) : ℕ :=
  (if j ≤ i then i - j else i + c.items.length - j).toNat

/-- One down stays in the list. -/
theorem down_range (h : 0 ≤ i ∧ i < c.items.length) : 0 ≤ c.down i ∧ c.down i < c.items.length := by
  rw [Choices.down]
  split_ifs <;> omega

/-- One up stays in the list. -/
theorem up_range (h : 0 ≤ i ∧ i < c.items.length) : 0 ≤ c.up i ∧ c.up i < c.items.length := by
  rw [Choices.up]
  split_ifs <;> omega

/-- One down comes closer to an item from above, around the end of the list. -/
theorem below_down (hj : 0 ≤ j ∧ j < c.items.length) (hi : 0 ≤ i ∧ i < c.items.length)
    (hne : i ≠ j) : c.below j (c.down i) < c.below j i := by
  rw [Choices.below, Choices.below, Choices.down]
  split_ifs <;> omega

/-- One up comes closer to an item from below, around the beginning of the list. -/
theorem above_up (hj : 0 ≤ j ∧ j < c.items.length) (hi : 0 ≤ i ∧ i < c.items.length)
    (hne : i ≠ j) : c.above j (c.up i) < c.above j i := by
  rw [Choices.above, Choices.above, Choices.up]
  split_ifs <;> omega

/-- A search that comes nearer to a selectable item with every step ends. -/
theorem search_found (dist : ℤ → ℕ) (hj : c.selectable j = some true)
    (hrange : ∀ i : ℤ, 0 ≤ i ∧ i < c.items.length → 0 ≤ next i ∧ next i < c.items.length)
    (hdist : ∀ i : ℤ, 0 ≤ i ∧ i < c.items.length → i ≠ j → dist (next i) < dist i)
    (hselected : 0 ≤ selected ∧ selected < c.items.length) :
    ∃ n i, c.search next n selected = .found i := by
  induction hd : dist (next selected) using Nat.strongRecOn generalizing selected with
  | _ d ih =>
      have hnext := hrange selected hselected
      obtain ⟨b, hb⟩ := selectable_of_range hnext
      cases b with
      | true => exact ⟨1, next selected, by rw [Choices.search, hb]⟩
      | false =>
          have hne : next selected ≠ j := by
            intro hhere
            rw [hhere, hj] at hb
            cases hb
          obtain ⟨n, i, hfound⟩ := ih _ (hd ▸ hdist _ hnext hne) hnext rfl
          exact ⟨n + 1, i, by rw [Choices.search, hb]; exact hfound⟩

/-- The search down ends at a selectable item if there is one. -/
theorem searchDown_found (hj : c.selectable j = some true)
    (hselected : 0 ≤ selected ∧ selected < c.items.length) :
    ∃ n i, c.search c.down n selected = .found i :=
  search_found (c.below j) hj (fun _ => down_range)
    (fun _ hi hne => below_down (range_of_selectable hj) hi hne) hselected

/-- So does the search up. -/
theorem searchUp_found (hj : c.selectable j = some true)
    (hselected : 0 ≤ selected ∧ selected < c.items.length) :
    ∃ n i, c.search c.up n selected = .found i :=
  search_found (c.above j) hj (fun _ => up_range)
    (fun _ hi hne => above_up (range_of_selectable hj) hi hne) hselected

/-- The search for the initial selection does not come round before it has found an item: the way to
one gets shorter, and it was longest at the beginning. -/
theorem searchStart_found (hj : c.selectable j = some true)
    (hselected : 0 ≤ selected ∧ selected < c.items.length)
    (hway : c.below j selected ≤ c.below j initial) :
    ∃ n i, c.searchStart initial n selected = .found i ∧ c.selectable i = some true := by
  induction hd : c.below j selected using Nat.strongRecOn generalizing selected with
  | _ d ih =>
      obtain ⟨b, hb⟩ := selectable_of_range hselected
      cases b with
      | true => exact ⟨1, selected, by rw [Choices.searchStart, hb], hb⟩
      | false =>
          have hne : selected ≠ j := by
            rintro rfl
            rw [hj] at hb
            cases hb
          have hnear := below_down (range_of_selectable hj) hselected hne
          have hround : c.down selected ≠ initial := by
            intro hinitial
            rw [hinitial] at hnear
            omega
          obtain ⟨n, i, hfound, hi⟩ := ih _ (hd ▸ hnear) (down_range hselected) (by omega) rfl
          exact ⟨n + 1, i, by rw [Choices.searchStart, hb]; simpa only [if_neg hround] using hfound, hi⟩

/-- So does the search for the first selection. -/
theorem initial_found (hj : c.selectable j = some true) (startSel : ℤ) :
    ∃ n i, c.initial n startSel = .found i ∧ c.selectable i = some true := by
  have hrange := range_of_selectable hj
  simp only [Choices.initial]
  refine searchStart_found hj ?_ le_rfl
  split_ifs <;> omega

end Searches

/-! ## One key -/

/-- The searches for a key end inside the vector, and the select key chooses a selectable item. -/
def HandledWell (c : Choices) (menuOnly : Bool) (action selected : ℤ) (ui : Overlay) : Prop :=
  (∃ n selected' ui', c.handleAction menuOnly n action selected ui = .next selected' ui') ∨
    ∃ n item, c.handleAction menuOnly n action selected ui = .chosen item ∧
      (action = selectItem → c.selectable item = some true)

/-- The menu on the screen has these items. -/
def ShowsItems (c : Choices) (ui : Overlay) : Prop :=
  ui.showMenu = true → ui.menuItems = c.items.length

section Key

variable {c : Choices} {menuOnly : Bool} {next : ℤ → ℤ} {i j action selected selected' : ℤ}
  {ui ui' : Overlay} {n : ℕ}

/-- `ui_menu_select` does not move a selection of an item. -/
theorem menuSelect_eq (hui : ShowsItems c ui) (h : 0 ≤ i ∧ i < c.items.length) :
    (uiMenuSelect i ui).1 = i := by
  rw [uiMenuSelect]
  split
  · next hshow =>
      have hitems := hui hshow
      have hlow : (if i < 0 then 0 else i) = i := if_neg (not_lt.mpr h.1)
      have hnew : (if ui.menuItems ≤ i then ui.menuItems - 1 else i) = i := if_neg (by omega)
      simp only [hlow, hnew]
      split_ifs
      all_goals rfl
  · rfl

/-- The items stay shown while the menu is the same. -/
theorem SameMenu.showsItems {ui ui' : Overlay} (h : SameMenu ui ui') (hui : ShowsItems c ui) :
    ShowsItems c ui' := fun hshow => by rw [h.items_eq, hui (h.show_imp hshow)]

/-- The next highlight is on a selectable item. -/
theorem highlight_next (hui : ShowsItems c ui)
    (h : c.highlight next n selected ui = .next selected' ui') :
    c.selectable selected' = some true ∧ ShowsItems c ui' := by
  rw [Choices.highlight] at h
  split at h
  · next i hfound =>
      cases h
      have hi := search_selectable hfound
      rw [menuSelect_eq hui (range_of_selectable hi)]
      exact ⟨hi, SameMenu.showsItems (select_sameMenu ui i) hui⟩
  · cases h
  · cases h

/-- So it is after every action that goes on. -/
theorem handleAction_next (hselected : c.selectable selected = some true) (hui : ShowsItems c ui)
    (h : c.handleAction menuOnly n action selected ui = .next selected' ui') :
    c.selectable selected' = some true ∧ ShowsItems c ui' := by
  rw [Choices.handleAction] at h
  split_ifs at h
  · exact highlight_next hui h
  · exact highlight_next hui h
  · cases h
    exact ⟨hselected, hui⟩
  · cases h
    exact ⟨hselected, hui⟩

/-- Highlighting ends where the search does. -/
theorem highlight_ends {next : ℤ → ℤ} (h : ∃ n i, c.search next n selected = .found i) :
    ∃ n selected' ui', c.highlight next n selected ui = .next selected' ui' := by
  obtain ⟨n, i, hfound⟩ := h
  exact ⟨n, _, _, by rw [Choices.highlight, hfound]⟩

/-- While a selectable item is selected, every key is handled. -/
theorem handledWell (hselected : c.selectable selected = some true) :
    HandledWell c menuOnly action selected ui := by
  have hrange := range_of_selectable hselected
  rw [HandledWell]
  by_cases hkey : action < 0
  · simp only [Choices.handleAction, if_pos hkey]
    by_cases hup : action = highlightUp
    · simp only [if_pos hup]
      exact .inl (highlight_ends (searchUp_found hselected hrange))
    by_cases hdown : action = highlightDown
    · simp only [if_neg hup, if_pos hdown]
      exact .inl (highlight_ends (searchDown_found hselected hrange))
    by_cases hselect : action = selectItem
    · simp only [if_neg hup, if_neg hdown, if_pos hselect]
      exact .inr ⟨0, selected, rfl, fun _ => hselected⟩
    · simp only [if_neg hup, if_neg hdown, if_neg hselect]
      exact .inl ⟨0, selected, ui, rfl⟩
  · simp only [Choices.handleAction, if_neg hkey]
    cases menuOnly with
    | true => exact .inl ⟨0, selected, ui, rfl⟩
    | false =>
        -- the action is the item itself
        refine .inr ⟨0, action, rfl, fun hselect => absurd ?_ hkey⟩
        rw [hselect]
        decide

/-- Where the key for the item below is handled, there is an item for it. -/
theorem selectable_of_handledWell (h : HandledWell c menuOnly highlightDown selected ui) :
    ∃ i, c.selectable i = some true := by
  have haction : ∀ n, c.handleAction menuOnly n highlightDown selected ui =
      c.highlight c.down n selected ui := fun n => rfl
  rcases h with ⟨n, selected', ui', h⟩ | ⟨n, item, h, -⟩
  · rw [haction, Choices.highlight] at h
    split at h
    · next i hfound => exact ⟨i, search_selectable hfound⟩
    · cases h
    · cases h
  · rw [haction, Choices.highlight] at h
    split at h
    · cases h
    · cases h
    · cases h

end Key

/-! ## A call -/

/-- Steps in which the call does not end. -/
abbrev Within (hasCameraKey : Bool) : MenuState → MenuState → Prop :=
  Relation.ReflTransGen fun s t => s.Step hasCameraKey t ∧ t.place ≠ .notCalled

/-- What holds from the head of the loop on. -/
structure InCall (c : Choices) (menuOnly : Bool) (s : MenuState) : Prop where
  place_ne : s.place ≠ .notCalled
  choices_eq : s.call.choices = c
  menuOnly_eq : s.call.menuOnly = menuOnly
  selected : c.selectable s.call.selected = some true
  showsItems : ShowsItems c s.ui

section Call

variable {hasCameraKey : Bool} {c : Choices} {menuOnly : Bool} {s t : MenuState}

/-- Another thread does not change the call. -/
theorem OtherThread.inCall (hstep : OtherThread s t) (h : InCall c menuOnly s) :
    InCall c menuOnly t := by
  cases hstep with
  | battery =>
      have hui : (batteryThread s).ui = s.ui := by
        simp only [batteryThread]
        split_ifs
        all_goals rfl
      refine ⟨?_, ?_, ?_, ?_, ?_⟩
      · rw [batteryThread_place]
        exact h.place_ne
      · rw [batteryThread_call]
        exact h.choices_eq
      · rw [batteryThread_call]
        exact h.menuOnly_eq
      · rw [batteryThread_call]
        exact h.selected
      · rw [hui]
        exact h.showsItems
  | print formatted hprint =>
      exact ⟨h.place_ne, h.choices_eq, h.menuOnly_eq, h.selected,
        SameMenu.showsItems (printRaw_onlyLog hprint).sameMenu h.showsItems⟩

/-- Nor does the head of the body. -/
theorem takeKey_inCall (key : ℤ) (h : InCall c menuOnly s) : InCall c menuOnly (takeKey key s) := by
  rw [takeKey]
  split_ifs
  all_goals exact ⟨by rintro ⟨⟩, h.choices_eq, h.menuOnly_eq, h.selected, h.showsItems⟩

/-- Nor does its end. -/
theorem finishKey_inCall {n : ℕ} {action : ℤ} (h : InCall c menuOnly s)
    (hfinish : finishKey s (s.call.choices.handleAction s.call.menuOnly n action s.call.selected
      s.ui) = some t) : InCall c menuOnly t := by
  rw [h.choices_eq, h.menuOnly_eq] at hfinish
  cases hresult : c.handleAction menuOnly n action s.call.selected s.ui with
  | next selected ui =>
      rw [hresult] at hfinish
      cases hfinish
      obtain ⟨hselected, hui⟩ := handleAction_next h.selected h.showsItems hresult
      exact ⟨nofun, h.choices_eq, h.menuOnly_eq, hselected, hui⟩
  | chosen item =>
      rw [hresult] at hfinish
      cases hfinish
      refine ⟨?_, h.choices_eq, h.menuOnly_eq, h.selected, h.showsItems⟩
      show (if item < 0 then Place.head else Place.returned item) ≠ .notCalled
      split
      · nofun
      · nofun
  | outside =>
      rw [hresult] at hfinish
      cases hfinish
  | running =>
      rw [hresult] at hfinish
      cases hfinish

/-- Nor does any step before the call returns. -/
theorem MenuThread.inCall (hstep : MenuThread hasCameraKey s t) (ht : t.place ≠ .notCalled)
    (h : InCall c menuOnly s) : InCall c menuOnly t := by
  cases hstep with
  | call headers c titleLength startSel menuOnly n hplace => exact absurd hplace h.place_ne
  | head hplace =>
      rw [loopHead]
      split
      · exact ⟨by rintro ⟨⟩, h.choices_eq, h.menuOnly_eq, h.selected, h.showsItems⟩
      · exact ⟨by rintro ⟨⟩, h.choices_eq, h.menuOnly_eq, h.selected, h.showsItems⟩
  | wait key hplace => exact ⟨by rintro ⟨⟩, h.choices_eq, h.menuOnly_eq, h.selected, h.showsItems⟩
  | take hplace => exact takeKey_inCall _ h
  | handle visible n hplace hfinish => exact finishKey_inCall h hfinish
  | leave hplace => exact absurd rfl ht
  | endMenu hplace => exact absurd hplace h.place_ne

/-- The call is the same over all of its steps. -/
theorem Within.inCall (hsteps : Within hasCameraKey s t) (h : InCall c menuOnly s) :
    InCall c menuOnly t := by
  induction hsteps with
  | refl => exact h
  | tail _ hstep ih =>
      rcases hstep.1 with hmenu | hother
      · exact hmenu.inCall hstep.2 ih
      · exact hother.inCall ih

end Call

/-- For every initial selection and every sequence of keys: the call comes to its loop, and each key
is handled there. -/
def SelectsWell (hasCameraKey : Bool) (s : MenuState) (headers : List Bytes) (c : Choices)
    (titleLength : ℤ) (menuOnly : Bool) : Prop :=
  ∀ startSel, ∃ n start ui, c.initial n startSel = .found start ∧
    uiStartMenu headers c.items titleLength start s.ui = some ui ∧
      ∀ t key, Within hasCameraKey (called s c menuOnly start ui) t → t.place = .handling key →
        ∀ visible, HandledWell t.call.choices t.call.menuOnly
          (menuHandleKey hasCameraKey key visible) t.call.selected t.ui

section Selects

variable {hasCameraKey : Bool} {s : MenuState} {headers : List Bytes} {c : Choices}
  {titleLength : ℤ} {menuOnly : Bool}

/-- The display is reachable after an action. -/
theorem finishKey_ui {t : MenuState} {n : ℕ} {action : ℤ} (hui : Ui.Reachable s.ui)
    (hfinish : finishKey s (s.call.choices.handleAction s.call.menuOnly n action s.call.selected
      s.ui) = some t) : Ui.Reachable t.ui := by
  have hhighlight : ∀ {next selected ui},
      s.call.choices.highlight next n s.call.selected s.ui = .next selected ui →
        Ui.Reachable ui := by
    intro next selected ui h
    rw [Choices.highlight] at h
    split at h
    · cases h
      exact hui.later (.select s.ui _)
    · cases h
    · cases h
  cases hresult : s.call.choices.handleAction s.call.menuOnly n action s.call.selected s.ui with
  | next selected ui =>
      rw [hresult] at hfinish
      cases hfinish
      rw [Choices.handleAction] at hresult
      split_ifs at hresult
      · exact hhighlight hresult
      · exact hhighlight hresult
      · cases hresult
        exact hui
      · cases hresult
        exact hui
  | chosen item =>
      rw [hresult] at hfinish
      cases hfinish
      exact hui
  | outside =>
      rw [hresult] at hfinish
      cases hfinish
  | running =>
      rw [hresult] at hfinish
      cases hfinish

/-- The display is reachable after every step. -/
theorem MenuState.Step.ui {t : MenuState} (hstep : s.Step hasCameraKey t) (hui : Ui.Reachable s.ui) :
    Ui.Reachable t.ui := by
  rcases hstep with hmenu | hother
  · cases hmenu with
    | call headers c titleLength startSel menuOnly n hplace hstart hmenu =>
        exact hui.start headers c.items titleLength _ hmenu
    | head hplace =>
        rw [loopHead]
        split
        · exact hui
        · exact hui
    | wait key hplace => exact hui
    | take hplace =>
        rw [takeKey]
        split_ifs
        all_goals exact hui
    | handle visible n hplace hfinish => exact finishKey_ui hui hfinish
    | leave hplace => exact hui
    | endMenu hplace => exact hui.later (.endMenu s.ui)
  · cases hother with
    | battery =>
        simp only [batteryThread]
        split_ifs
        all_goals exact hui
    | print formatted hprint => exact hui.later (.print formatted hprint)

/-- The display of a reachable state is reachable. -/
theorem MenuState.Reachable.ui (h : s.Reachable hasCameraKey) : Ui.Reachable s.ui := by
  induction h with
  | boot rows cols => exact .init rows cols
  | step _ hstep ih => exact hstep.ui ih

/-- The key for the item below comes to be handled. -/
theorem handling_down (hasCameraKey : Bool) (s : MenuState) (c : Choices) (menuOnly : Bool)
    (start : ℤ) (ui : Overlay) :
    ∃ t, Within hasCameraKey (called s c menuOnly start ui) t ∧ t.place = .handling 108 ∧
      t.call = ⟨c, menuOnly, start, false⟩ := by
  obtain ⟨waiting, hwaiting⟩ : ∃ w, w = loopHead (called s c menuOnly start ui) := ⟨_, rfl⟩
  have hplace : waiting.place = .waiting := by
    rw [hwaiting]
    rfl
  have hhead : Within hasCameraKey (called s c menuOnly start ui) waiting := by
    rw [hwaiting]
    exact .single ⟨.inl (.head rfl), nofun⟩
  have hkey : Within hasCameraKey (called s c menuOnly start ui)
      { waiting with place := .got 108 } := hhead.tail ⟨.inl (.wait 108 hplace), nofun⟩
  have htaken : takeKey 108 { waiting with place := .got 108 } =
      { waiting with screenOffTimer := screenTimeoutTimerOff, place := .handling 108 } := by
    rw [hwaiting]
    rfl
  refine ⟨_, hkey.tail ⟨.inl (.take rfl), ?_⟩, ?_, ?_⟩
  · rw [htaken]
    nofun
  · rw [htaken]
  · rw [htaken, hwaiting]
    rfl

/-- Menu selections end on selectable items exactly if there is one and the menu stays inside its
buffer. -/
theorem menu_selection_iff (hs : s.Reachable hasCameraKey) :
    SelectsWell hasCameraKey s headers c titleLength menuOnly ↔
      (∃ i, c.selectable i = some true) ∧
        (s.ui.textRows = 0 ∨ s.ui.textCols = 0 ∨ headers.length + c.items.length ≤ maxRows) := by
  obtain ⟨hcols, hoff⟩ := hs.ui.inv
  constructor
  · intro h
    obtain ⟨n, start, ui, -, hmenu, hkeys⟩ := h 0
    constructor
    · obtain ⟨t, hwithin, hplace, hcall⟩ := handling_down hasCameraKey s c menuOnly start ui
      have hdown := hkeys t 108 hwithin hplace true
      rw [hcall] at hdown
      exact selectable_of_handledWell hdown
    · by_contra hlong
      rw [not_or, not_or, not_le] at hlong
      obtain ⟨hrows, hcols', hlong⟩ := hlong
      rw [startMenu_out ⟨Nat.pos_of_ne_zero hrows, Nat.pos_of_ne_zero hcols'⟩ hcols hlong] at hmenu
      cases hmenu
  · rintro ⟨⟨j, hj⟩, hfit⟩ startSel
    obtain ⟨n, start, hstart, hselected⟩ := initial_found hj startSel
    have hmenu : ∃ ui, uiStartMenu headers c.items titleLength start s.ui = some ui ∧
        ShowsItems c ui := by
      by_cases hguard : 0 < s.ui.textRows ∧ 0 < s.ui.textCols
      · have hfit' : headers.length + c.items.length ≤ maxRows := by omega
        obtain ⟨ui, hmenu, hstarted⟩ := startMenu_started hguard hcols hfit'
        exact ⟨ui, hmenu, fun _ => hstarted.items_eq⟩
      · -- there is no screen, and no menu on it
        refine ⟨_, startMenu_off hguard, fun hshow => ?_⟩
        have hhidden := (hoff hguard).1
        rw [show s.ui.showMenu = true from hshow] at hhidden
        cases hhidden
    obtain ⟨ui, hmenu, hui⟩ := hmenu
    refine ⟨n, start, ui, hstart, hmenu, fun t key hwithin hplace visible => ?_⟩
    have hcall : InCall c menuOnly t := hwithin.inCall ⟨nofun, rfl, rfl, hselected, hui⟩
    rw [hcall.choices_eq]
    exact handledWell hcall.selected

end Selects

namespace Sample

/-- A label between two entries. -/
def labelled : Choices := ⟨[cstr "reboot", cstr "label", cstr "wipe"], [1, 0, 1], rfl⟩

theorem labelled_selects : SelectsWell true (booted 24 40) [cstr "title"] labelled 1 false :=
  (menu_selection_iff (.boot 24 40)).mpr ⟨⟨0, rfl⟩, .inr (.inr (by decide))⟩

/-- A menu file with nothing but labels. -/
def onlyLabels : Choices := ⟨[cstr "label", cstr "label"], [0, 0], rfl⟩

/-- The search for the item below never ends. -/
theorem labels_not_selected :
    ¬ SelectsWell true (booted 24 40) [cstr "title"] onlyLabels 1 false := by
  intro h
  obtain ⟨n, start, ui, -, -, hkeys⟩ := h 0
  obtain ⟨t, hwithin, hplace, hcall⟩ :=
    handling_down true (booted 24 40) onlyLabels false start ui
  have hdown := hkeys t 108 hwithin hplace true
  rw [hcall] at hdown
  obtain ⟨i, hselectable⟩ := selectable_of_handledWell hdown
  have hi : onlyLabels.selectable i = some true := hselectable
  have hrange : 0 ≤ i ∧ i < 2 := range_of_selectable hi
  obtain rfl | rfl : i = 0 ∨ i = 1 := by omega
  · exact absurd hi (by decide)
  · exact absurd hi (by decide)

end Sample

end OpenRecovery.Recovery
