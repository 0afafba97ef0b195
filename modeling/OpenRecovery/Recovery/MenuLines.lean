import OpenRecovery.Recovery.CreateMenu

/-!
# The menu of a file

What `create_menu` leaves in the arrays: the items of the well-formed lines of the file, in their
order (`Shows`), and a `NULL` after them. The bound of the loop is the length of the arrays, so a
file with 50 items leaves no `NULL` in the list. A line that does not fit into the buffer is read as
several lines.
-/

set_option autoImplicit false

namespace OpenRecovery.Recovery

open OpenRecovery.Storage OpenRecovery.Updater

/-! ## The lines of a menu file -/

/-- A line that is neither empty nor a comment. -/
def isMenuText (text : Bytes) : Bool := text ≠ [] && text.head? ≠ some 35

/-- A well-formed line: its name, its action and its target. -/
structure MenuLine where
  name : Bytes
  action : Bytes
  target : Bytes

def menuLine (text : Bytes) : Option MenuLine :=
  if (58 : UInt8) ∈ text then
    (strtokNext isColon text).bind fun name =>
      (strtokNext isColon name.2).bind fun action =>
        (nextToken isNewline action.2).map fun target =>
          ⟨itemName name.1, action.1, target.rdropWhile isTargetEnd⟩
  else none

def MenuLine.entry (env : MenuEnv) (l : MenuLine) : Option MenuEntry :=
  fillEntry env l.name l.action l.target

/-- The well-formed lines after the title. -/
def menuLines (texts : List Bytes) : List MenuLine :=
  ((texts.map cText).filter isMenuText).tail.filterMap menuLine

/-! ## The arrays -/

section Arrays

variable {env : MenuEnv} {m : MenuArrays} {es : List MenuEntry} {s : MenuRead} {e : MenuEntry}

/-- The cells of an item. -/
structure Cells (m : MenuArrays) (i : ℕ) (e : MenuEntry) : Prop where
  item : m.items i = some e.item
  action : m.actions i = some e.action
  target : m.targets i = some e.target
  tag : m.tags i = e.tag
  selectable : m.selectable i = e.selectable

/-- The items of the arrays, and nothing else. -/
structure Shows (m : MenuArrays) (es : List MenuEntry) : Prop where
  cells : ∀ i e, es[i]? = some e → Cells m i e
  rest : ∀ i, es.length ≤ i → i < maxMenuItems → m.items i = none ∧ m.actions i = none
  headers : ∃ k < maxMenuItems, m.headers k = none

theorem Cells.unique {i : ℕ} {e' : MenuEntry} (h : Cells m i e) (h' : Cells m i e') : e = e' := by
  obtain ⟨hitem, haction, htarget, htag, hselectable⟩ := h
  obtain ⟨hitem', haction', htarget', htag', hselectable'⟩ := h'
  cases e
  cases e'
  simp_all

/-- The arrays determine the items. -/
theorem Shows.unique {es' : List MenuEntry} (h : Shows m es) (h' : Shows m es')
    (hlt' : es'.length < maxMenuItems) : es = es' := by
  -- the first list cannot go on where the second one ends, nor the other way round
  have hend : ∀ {a b : List MenuEntry}, Shows m a → Shows m b → a.length < maxMenuItems →
      b.length ≤ a.length := by
    intro a b ha hb hlen
    by_contra hnot
    have hitem := (hb.cells _ _ (List.getElem?_eq_getElem (Nat.lt_of_not_le hnot))).item
    rw [(ha.rest _ (le_refl _) hlen).1] at hitem
    cases hitem
  have hle := hend h' h hlt'
  have hge := hend h h' (lt_of_le_of_lt hle hlt')
  apply List.ext_getElem (Nat.le_antisymm hle hge)
  intro i hi hi'
  exact (h.cells i _ (List.getElem?_eq_getElem hi)).unique
    (h'.cells i _ (List.getElem?_eq_getElem hi'))

theorem shows_deleteMenu (m : MenuArrays) : Shows (deleteMenu m) [] where
  cells := by
    intro i e he
    cases he
  rest := fun i _ hi => ⟨if_pos hi, if_pos hi⟩
  headers := ⟨0, by decide, rfl⟩

/-! ## One line -/

/-- The loop after the title, with the items it has read. -/
structure Reads (s : MenuRead) (es : List MenuEntry) : Prop where
  idx : s.idx = es.length
  title : s.readTitle = false
  shows : Shows s.menu es

/-- The cells of the next item are written. -/
theorem Reads.setEntry (h : Reads s es) (name : Bytes) (e : MenuEntry) :
    Reads (((s.setItem (some name)).setAction (some e.action)).setEntry e) (es ++ [e]) where
  idx := by
    rw [List.length_append, ← h.idx]
    rfl
  title := h.title
  shows := by
    refine ⟨?_, ?_, h.shows.headers⟩
    · intro i e' he'
      rcases Nat.lt_trichotomy i es.length with hi | hi | hi
      · -- an item read before
        rw [List.getElem?_append_left hi] at he'
        obtain ⟨hitem, haction, htarget, htag, hselectable⟩ := h.shows.cells i e' he'
        have hne : i ≠ s.idx := by rw [h.idx]; exact Nat.ne_of_lt hi
        constructor
        · simpa [MenuRead.setEntry, MenuRead.setAction, MenuRead.setItem, hne] using hitem
        · simpa [MenuRead.setEntry, MenuRead.setAction, MenuRead.setItem, hne] using haction
        · simpa [MenuRead.setEntry, MenuRead.setAction, MenuRead.setItem, hne] using htarget
        · simpa [MenuRead.setEntry, MenuRead.setAction, MenuRead.setItem, hne] using htag
        · simpa [MenuRead.setEntry, MenuRead.setAction, MenuRead.setItem, hne] using hselectable
      · subst hi
        -- the new item
        rw [List.getElem?_concat_length] at he'
        cases he'
        rw [← h.idx]
        constructor <;> exact Function.update_self ..
      · -- there is no item behind it
        rw [List.getElem?_eq_none (by rw [List.length_append, List.length_singleton]; omega)] at he'
        cases he'
    · intro i hle hlt
      rw [List.length_append, List.length_singleton] at hle
      have hne : i ≠ s.idx := by rw [h.idx]; omega
      have hrest := h.shows.rest i (by omega) hlt
      simpa [MenuRead.setEntry, MenuRead.setAction, MenuRead.setItem, hne] using hrest

/-- What is written for a line that turns out to be malformed is cleared again. -/
theorem Reads.setItem_none (h : Reads s es) (hlt : s.idx < maxMenuItems) (item : Option Bytes) :
    (s.setItem item).setItem none = s := by
  have hnone := (h.shows.rest s.idx (le_of_eq h.idx.symm) hlt).1
  unfold MenuRead.setItem
  simp only [Function.update_idem]
  rw [← hnone, Function.update_eq_self]

theorem Reads.setAction_none (h : Reads s es) (hlt : s.idx < maxMenuItems)
    (item action : Option Bytes) :
    (((s.setItem item).setAction action).setItem none).setAction none = s := by
  have hnone := (h.shows.rest s.idx (le_of_eq h.idx.symm) hlt).2
  have hcomm : (((s.setItem item).setAction action).setItem none).setAction none =
      (((s.setItem item).setItem none).setAction action).setAction none := rfl
  rw [hcomm, h.setItem_none hlt]
  unfold MenuRead.setAction
  simp only [Function.update_idem]
  rw [← hnone, Function.update_eq_self]

/-- `fillEntry` keeps the action. -/
theorem fillEntry_action {name action target : Bytes} (h : fillEntry env name action target = some e) :
    e.action = action := by
  unfold fillEntry at h
  split at h
  · cases h
    rfl
  · split at h
    · simp only at h
      split at h
      · cases h
        rfl
      · cases h
        rfl
    · split at h
      · obtain ⟨item, -, rfl⟩ := Option.map_eq_some_iff.mp h
        rfl
      · cases h
        rfl

/-- What a line does to the arrays. -/
inductive ReadsLine (env : MenuEnv) (s : MenuRead) (es : List MenuEntry) (text : Bytes) : Prop
  | skipped (hline : menuLine text = none) (hread : readItem env text s = some s)
  | stuck (l : MenuLine) (hline : menuLine text = some l) (hentry : l.entry env = none)
      (hread : readItem env text s = none)
  | item (l : MenuLine) (e : MenuEntry) (s' : MenuRead) (hline : menuLine text = some l)
      (hentry : l.entry env = some e) (hread : readItem env text s = some s')
      (hreads : Reads s' (es ++ [e]))

theorem readsLine (h : Reads s es) (hlt : s.idx < maxMenuItems) {text : Bytes}
    (hcolon : (58 : UInt8) ∈ text) : ReadsLine env s es text := by
  cases hname : strtokNext isColon text with
  -- nothing but colons
  | none =>
      refine .skipped ?_ ?_
      · rw [menuLine, if_pos hcolon, hname]
        rfl
      · rw [readItem, hname]
  | some name =>
      obtain ⟨name, rest⟩ := name
      cases haction : strtokNext isColon rest with
      -- no action: the name is taken back
      | none =>
          refine .skipped ?_ ?_
          · rw [menuLine, if_pos hcolon, hname, Option.bind_some, haction]
            rfl
          · simp only [readItem, hname, haction]
            rw [h.setItem_none hlt]
      | some action =>
          obtain ⟨action, rest'⟩ := action
          cases htarget : nextToken isNewline rest' with
          -- no target: the name and the action are taken back
          | none =>
              refine .skipped ?_ ?_
              · rw [menuLine, if_pos hcolon, hname, Option.bind_some, haction, Option.bind_some,
                  htarget]
                rfl
              · simp only [readItem, hname, haction, htarget]
                rw [h.setAction_none hlt]
          | some target =>
              have hline : menuLine text =
                  some ⟨itemName name, action, target.rdropWhile isTargetEnd⟩ := by
                rw [menuLine, if_pos hcolon, hname, Option.bind_some, haction, Option.bind_some,
                  htarget]
                rfl
              cases hentry : fillEntry env (itemName name) action (target.rdropWhile isTargetEnd) with
              -- the item of a break that does not fit on the screen
              | none =>
                  refine .stuck _ hline hentry ?_
                  simp only [readItem, hname, haction, htarget, hentry]
                  rfl
              | some e =>
                  refine .item _ e _ hline hentry ?_ (h.setEntry (itemName name) e)
                  simp only [readItem, hname, haction, htarget, hentry, Option.map_some,
                    fillEntry_action hentry]

/-! ## The loop -/

/-- The items of the texts that are still to be read. -/
def itemsOf (env : MenuEnv) (texts : List Bytes) : List (Option MenuEntry) :=
  (((texts.map cText).filter isMenuText).filterMap menuLine).map (MenuLine.entry env)

theorem itemsOf_skip {text : Bytes} (texts : List Bytes)
    (h : isMenuText (cText text) = false ∨ menuLine (cText text) = none) :
    itemsOf env (text :: texts) = itemsOf env texts := by
  unfold itemsOf
  rw [List.map_cons]
  rcases h with h | h
  · rw [List.filter_cons_of_neg (by simp [h])]
  · by_cases hmenu : isMenuText (cText text) = true
    · rw [List.filter_cons_of_pos hmenu, List.filterMap_cons_none h]
    · rw [List.filter_cons_of_neg hmenu]

theorem itemsOf_cons {text : Bytes} (texts : List Bytes) {l : MenuLine}
    (hmenu : isMenuText (cText text) = true) (h : menuLine (cText text) = some l) :
    itemsOf env (text :: texts) = l.entry env :: itemsOf env texts := by
  unfold itemsOf
  rw [List.map_cons, List.filter_cons_of_pos hmenu, List.filterMap_cons_some h, List.map_cons]

theorem menuRound_comment {buf : Bytes} (h : isMenuText buf = false) :
    menuRound env buf s = some s := by
  refine if_pos ?_
  by_contra hnot
  rw [not_or] at hnot
  simp [isMenuText, hnot.1, hnot.2] at h

theorem menuRound_text {buf : Bytes} (h : isMenuText buf = true) (hs : s.readTitle = false) :
    menuRound env buf s = if (58 : UInt8) ∉ buf then some s else readItem env buf s := by
  have hnot : ¬ (buf = [] ∨ buf.head? = some 35) := by
    rw [not_or]
    simpa [isMenuText] using h
  rw [menuRound, if_neg hnot, hs]
  rfl

variable (env) in
/-- The loop reads items until the arrays are full. -/
theorem menuLoop_items (texts : List Bytes) (h : Reads s es) (hle : es.length ≤ maxMenuItems) :
    (∀ entries, (itemsOf env texts).take (maxMenuItems - es.length) = entries.map some →
      ∃ s', menuLoop env texts s = some s' ∧ Reads s' (es ++ entries)) ∧
    (none ∈ (itemsOf env texts).take (maxMenuItems - es.length) → menuLoop env texts s = none) := by
  induction texts generalizing s es with
  | nil =>
      refine ⟨fun entries hentries => ⟨s, rfl, ?_⟩, ?_⟩
      · -- no text is left
        rw [show itemsOf env [] = [] from rfl, List.take_nil, eq_comm, List.map_eq_nil_iff]
          at hentries
        rw [hentries, List.append_nil]
        exact h
      · intro hnone
        rw [show itemsOf env [] = [] from rfl, List.take_nil] at hnone
        cases hnone
  | cons text texts ih =>
      by_cases hlt : s.idx < maxMenuItems
      · rw [menuLoop, if_pos hlt]
        by_cases hmenu : isMenuText (cText text) = true
        · rw [menuRound_text hmenu h.title]
          -- the buffer has a colon
          by_cases hcolon : (58 : UInt8) ∈ cText text
          · rw [if_neg (not_not.mpr hcolon)]
            cases readsLine h hlt hcolon with
            | skipped hline hread =>
                rw [hread, Option.bind_some, itemsOf_skip texts (.inr hline)]
                exact ih h hle
            -- the loop has no result, and this item is among those that must be read
            | stuck l hline hentry hread =>
                rw [h.idx] at hlt
                obtain ⟨k, hk⟩ := Nat.exists_eq_succ_of_ne_zero
                  (show maxMenuItems - es.length ≠ 0 by omega)
                rw [hread, itemsOf_cons texts hmenu hline, hentry, hk, List.take_succ_cons]
                refine ⟨fun entries hentries => ?_, fun _ => rfl⟩
                cases entries <;> cases hentries
            -- the item takes one cell, and the rest of the texts has one less
            | item l e s' hline hentry hread hreads =>
                rw [h.idx] at hlt
                have hlen : (es ++ [e]).length = es.length + 1 := by simp
                obtain ⟨hall, hnone⟩ := ih hreads (by omega)
                have hk : maxMenuItems - es.length = (maxMenuItems - (es ++ [e]).length) + 1 := by
                  omega
                rw [hread, Option.bind_some, itemsOf_cons texts hmenu hline, hentry, hk,
                  List.take_succ_cons]
                refine ⟨fun entries hentries => ?_, fun hmem => ?_⟩
                · cases entries with
                  | nil => cases hentries
                  | cons e' entries =>
                      rw [List.map_cons, List.cons.injEq] at hentries
                      obtain ⟨he, hentries⟩ := hentries
                      cases he
                      obtain ⟨s'', hloop, hreads'⟩ := hall entries hentries
                      exact ⟨s'', hloop, by simpa using hreads'⟩
                · refine hnone ?_
                  rcases List.mem_cons.mp hmem with hmem | hmem
                  · cases hmem
                  · exact hmem
          · -- a text without a colon
            have hline : menuLine (cText text) = none := if_neg hcolon
            rw [if_pos hcolon, Option.bind_some, itemsOf_skip texts (.inr hline)]
            exact ih h hle
        · -- a comment
          have hcomment : isMenuText (cText text) = false := by simpa using hmenu
          rw [menuRound_comment hcomment, Option.bind_some, itemsOf_skip texts (.inl hcomment)]
          exact ih h hle
      · -- the arrays are full
        rw [menuLoop, if_neg hlt]
        rw [h.idx] at hlt
        rw [show maxMenuItems - es.length = 0 by omega, List.take_zero]
        refine ⟨fun entries hentries => ⟨s, rfl, ?_⟩, fun hmem => absurd hmem (by simp)⟩
        rw [eq_comm, List.map_eq_nil_iff] at hentries
        rw [hentries, List.append_nil]
        exact h

/-- The first line is the title. -/
theorem reads_setTitle (h : Shows s.menu []) (hidx : s.idx = 0) (title : Bytes) :
    Reads (s.setTitle title) [] where
  idx := hidx
  title := rfl
  shows := by
    refine ⟨fun i e he => ?_, h.rest, 2, by decide, ?_⟩
    · cases he
    · simp [MenuRead.setTitle]

variable (env) in
/-- The loop from its start. -/
theorem menuLoop_title (texts : List Bytes) (h : Shows s.menu []) (hidx : s.idx = 0)
    (htitle : s.readTitle = true) :
    (∀ entries, ((menuLines texts).map (MenuLine.entry env)).take maxMenuItems = entries.map some →
      ∃ s', menuLoop env texts s = some s' ∧ Shows s'.menu entries) ∧
    (none ∈ ((menuLines texts).map (MenuLine.entry env)).take maxMenuItems →
      menuLoop env texts s = none) := by
  induction texts with
  | nil =>
      refine ⟨fun entries hentries => ⟨s, rfl, ?_⟩, fun hnone => absurd hnone (by simp [menuLines])⟩
      rw [show menuLines [] = [] from rfl, List.map_nil, List.take_nil, eq_comm,
        List.map_eq_nil_iff] at hentries
      rw [hentries]
      exact h
  | cons text texts ih =>
      have hlt : s.idx < maxMenuItems := by
        rw [hidx]
        decide
      rw [menuLoop, if_pos hlt]
      by_cases hmenu : isMenuText (cText text) = true
      · -- the first text that is no comment is the title, and the loop goes on behind it
        have hnot : ¬ (cText text = [] ∨ (cText text).head? = some 35) := by
          rw [not_or]
          simpa [isMenuText] using hmenu
        have hlines : (menuLines (text :: texts)).map (MenuLine.entry env) = itemsOf env texts := by
          rw [menuLines, List.map_cons, List.filter_cons_of_pos hmenu]
          rfl
        rw [menuRound, if_neg hnot, if_pos htitle, Option.bind_some, hlines]
        obtain ⟨hall, hnone⟩ := menuLoop_items env texts
          (reads_setTitle h hidx ((cText text).rdropWhile isTitleEnd)) (Nat.zero_le _)
        refine ⟨fun entries hentries => ?_, hnone⟩
        obtain ⟨s', hloop, hreads⟩ := hall entries hentries
        exact ⟨s', hloop, hreads.shows⟩
      · have hcomment : isMenuText (cText text) = false := by simpa using hmenu
        have hlines : menuLines (text :: texts) = menuLines texts := by
          rw [menuLines, menuLines, List.map_cons, List.filter_cons_of_neg hmenu]
        rw [menuRound_comment hcomment, Option.bind_some, hlines]
        exact ih

/-- The whole loop. -/
theorem menuLoop_start (env : MenuEnv) (m : MenuArrays) (texts : List Bytes) :
    (∀ entries, ((menuLines texts).map (MenuLine.entry env)).take maxMenuItems = entries.map some →
      ∃ s, menuLoop env texts ⟨0, true, deleteMenu m⟩ = some s ∧ Shows s.menu entries) ∧
    (none ∈ ((menuLines texts).map (MenuLine.entry env)).take maxMenuItems →
      menuLoop env texts ⟨0, true, deleteMenu m⟩ = none) :=
  menuLoop_title env texts (shows_deleteMenu m) rfl rfl

end Arrays

/-! ## The condition -/

section Condition

variable {env : MenuEnv} {m : MenuArrays}

theorem breakItem_eq_none {numCols : ℤ} {name : Bytes} (hname : name ≠ [42]) :
    breakItem numCols name = none ↔ numCols < 4 := by
  have hlen : (0 : ℤ) ≤ name.length := Int.natCast_nonneg _
  rw [breakItem, if_neg hname]
  by_cases hlong : numCols - 4 < name.length
  · -- the name is cut to the columns without the four around it
    simp only [hlong, if_true]
    rw [ite_eq_left_iff]
    simp
  · simp only [hlong, if_false]
    rw [ite_eq_left_iff]
    simp
    omega

theorem exists_map_some {α : Type} {l : List (Option α)} (h : none ∉ l) :
    ∃ l' : List α, l = l'.map some := by
  induction l with
  | nil => exact ⟨[], rfl⟩
  | cons o l ih =>
      rw [List.mem_cons, not_or] at h
      obtain ⟨a, ha⟩ := Option.ne_none_iff_exists'.mp (Ne.symm h.1)
      obtain ⟨l', hl'⟩ := ih h.2
      exact ⟨a :: l', by rw [ha, hl', List.map_cons]⟩

/-- The only cells that cannot be filled are those of a break on a screen that is too narrow. -/
theorem fillEntry_eq_none {name action target : Bytes} (hname : name ≠ [42]) :
    fillEntry env name action target = none ↔ action = cstr "break" ∧ env.numCols < 4 := by
  unfold fillEntry
  split
  · next haction =>
      rw [haction]
      simp [cstr]
  · split
    · next haction =>
        rw [haction]
        simp only
        split <;> simp [cstr]
    · split
      · next haction =>
          rw [Option.map_eq_none_iff, breakItem_eq_none hname]
          simp [haction]
      · next haction => simp [haction]

/-- No break has to be shown on a screen with fewer than four columns. -/
def BreaksFit (env : MenuEnv) (lines : List MenuLine) : Prop :=
  4 ≤ env.numCols ∨ ∀ l ∈ lines, l.action ≠ cstr "break"

theorem menuLine_name {text : Bytes} {l : MenuLine} (h : menuLine text = some l) :
    l.name ≠ [42] := by
  unfold menuLine at h
  split at h
  · obtain ⟨name, -, h⟩ := Option.bind_eq_some_iff.mp h
    obtain ⟨action, -, h⟩ := Option.bind_eq_some_iff.mp h
    obtain ⟨target, -, rfl⟩ := Option.map_eq_some_iff.mp h
    simp only [itemName]
    split
    · simp
    · assumption
  · cases h

theorem menuLines_name {texts : List Bytes} {l : MenuLine} (h : l ∈ menuLines texts) :
    l.name ≠ [42] := by
  obtain ⟨text, -, hline⟩ := List.mem_filterMap.mp h
  exact menuLine_name hline

theorem breaksFit_iff {lines : List MenuLine} (hname : ∀ l ∈ lines, l.name ≠ [42]) :
    BreaksFit env lines ↔ none ∉ lines.map (MenuLine.entry env) := by
  have hentry : ∀ l ∈ lines, l.entry env = none ↔ l.action = cstr "break" ∧ env.numCols < 4 :=
    fun l hl => fillEntry_eq_none (hname l hl)
  rw [BreaksFit, List.mem_map, not_exists]
  constructor
  · rintro h l ⟨hl, hnone⟩
    obtain ⟨haction, hcols⟩ := (hentry l hl).mp hnone
    rcases h with h | h
    · omega
    · exact h l hl haction
  · intro h
    by_cases hcols : 4 ≤ env.numCols
    · exact .inl hcols
    · exact .inr fun l hl haction => h l ⟨hl, (hentry l hl).mpr ⟨haction, by omega⟩⟩

/-- What is to be in the arrays after `create_menu` has opened the file. -/
def Filled (env : MenuEnv) (content : Bytes) (m : MenuArrays) : Prop :=
  ∃ entries : List MenuEntry, entries.length < maxMenuItems ∧ Shows m entries ∧
    (menuLines (fileLines content)).map (MenuLine.entry env) = entries.map some

/-- `create_menu` returns -1 and leaves the arrays, or fills them. -/
def CreatesMenu (env : MenuEnv) (fname : Bytes) (shellcmd file : Option Bytes) (m : MenuArrays) :
    Prop :=
  ∃ r m', createMenu env fname shellcmd file m = some (r, m') ∧
    match file with
    | none => r = -1 ∧ m' = m
    | some content => r = 0 ∧ Filled env content m'

/-- The paths and the variable of the menu's script fit into their buffers. -/
def NameFits (fname : Bytes) (shellcmd : Option Bytes) : Prop :=
  (cstr "/menu/" ++ fname).length < maxLineLength ∧
    (shellcmd ≠ none → (cstr "MENU_FILE=/menu/" ++ fname).length < 256)

/-- The file has fewer than 50 items, they can be shown, and the pieces that are read of the file
stand for the same items as its lines. -/
structure MenuFits (env : MenuEnv) (content : Bytes) : Prop where
  count : (menuLines (fileLines content)).length < maxMenuItems
  breaks : BreaksFit env (menuLines (fileLines content))
  pieces : (menuLines (pieces (maxLineLength - 1) content)).map (MenuLine.entry env) =
    (menuLines (fileLines content)).map (MenuLine.entry env)

/-- Lines that fit into the buffer are read as they are. -/
theorem menuFits_of_short {content : Bytes}
    (hshort : ∀ line ∈ fileLines content, line.length ≤ maxLineLength - 1)
    (hcount : (menuLines (fileLines content)).length < maxMenuItems)
    (hbreaks : BreaksFit env (menuLines (fileLines content))) : MenuFits env content :=
  ⟨hcount, hbreaks, by rw [pieces_eq_fileLines (by decide) hshort]⟩

theorem filled_iff (content : Bytes) :
    (∃ s, menuLoop env (pieces (maxLineLength - 1) content) ⟨0, true, deleteMenu m⟩ = some s ∧
      Filled env content s.menu) ↔ MenuFits env content := by
  obtain ⟨hall, hnone⟩ := menuLoop_start env m (pieces (maxLineLength - 1) content)
  constructor
  · rintro ⟨s, hloop, entries, hlt, hshows, hlines⟩
    obtain ⟨read, hread⟩ := exists_map_some fun h => by
      rw [hnone h] at hloop
      -- a menu is there, so none of the items that are read is missing
      cases hloop
    -- what is read is what the arrays show, so fewer than 50 items are read
    obtain ⟨s', hloop', hshows'⟩ := hall read hread
    rw [hloop, Option.some.injEq] at hloop'
    subst hloop'
    have heq := hshows'.unique hshows hlt
    subst heq
    have hshort := congrArg List.length hread
    rw [List.length_map, List.length_take] at hshort
    rw [List.take_of_length_le (by omega)] at hread
    refine ⟨?_, ?_, ?_⟩
    · have hlen := congrArg List.length hlines
      rw [List.length_map, List.length_map] at hlen
      omega
    · rw [breaksFit_iff fun _ => menuLines_name, hlines]
      simp
    · rw [hlines, hread]
  · rintro ⟨hcount, hbreaks, hpieces⟩
    -- the file has fewer items than the arrays have cells, so that all of them are read
    rw [breaksFit_iff fun _ => menuLines_name] at hbreaks
    obtain ⟨entries, hentries⟩ := exists_map_some hbreaks
    have hlen := congrArg List.length hentries
    rw [List.length_map, List.length_map] at hlen
    obtain ⟨s, hloop, hshows⟩ := hall entries (by
      rw [hpieces, hentries, List.take_of_length_le]
      rw [List.length_map]
      omega)
    exact ⟨s, hloop, entries, by omega, hshows, hentries⟩

theorem createMenu_eq {fname : Bytes} {shellcmd : Option Bytes} (h : NameFits fname shellcmd)
    (file : Option Bytes) :
    createMenu env fname shellcmd file m =
      match file with
      | none => some (-1, m)
      | some content =>
          (menuLoop env (pieces (maxLineLength - 1) content) ⟨0, true, deleteMenu m⟩).map
            fun s => (0, s.menu) := by
  obtain ⟨hpath, hvar⟩ := h
  have hvar' : ¬ (shellcmd ≠ none ∧ 256 < (cstr "MENU_FILE=/menu/" ++ fname).length + 1) := by
    rintro ⟨hshell, hlong⟩
    exact absurd (hvar hshell) (by omega)
  exact (if_neg hvar').trans (if_neg (by omega))

theorem createMenu_eq_none {fname : Bytes} {shellcmd : Option Bytes} (h : ¬ NameFits fname shellcmd)
    (file : Option Bytes) : createMenu env fname shellcmd file m = none := by
  unfold createMenu
  split
  · rfl
  · next hvar =>
      refine if_pos ?_
      by_contra hpath
      refine h ⟨by omega, fun hshell => ?_⟩
      by_contra hlong
      exact hvar ⟨hshell, by omega⟩

/-- `create_menu` stays within its buffers. -/
def LoadFits (env : MenuEnv) (fname : Bytes) (shellcmd file : Option Bytes) : Prop :=
  NameFits fname shellcmd ∧ ∀ content, file = some content →
    BreaksFit env ((menuLines (pieces (maxLineLength - 1) content)).take maxMenuItems)

theorem createMenu_isSome_iff {fname : Bytes} {shellcmd file : Option Bytes} :
    (createMenu env fname shellcmd file m).isSome = true ↔ LoadFits env fname shellcmd file := by
  by_cases hname : NameFits fname shellcmd
  · rw [createMenu_eq hname]
    cases file with
    -- the file cannot be opened
    | none =>
        refine iff_of_true rfl ⟨hname, fun content h => ?_⟩
        cases h
    | some content =>
        have hnames : ∀ l ∈ (menuLines (pieces (maxLineLength - 1) content)).take maxMenuItems,
            l.name ≠ [42] := fun l hl => menuLines_name (List.mem_of_mem_take hl)
        obtain ⟨hall, hnone⟩ := menuLoop_start env m (pieces (maxLineLength - 1) content)
        rw [← List.map_take] at hnone
        constructor
        · intro h
          refine ⟨hname, fun content' hcontent => ?_⟩
          cases hcontent
          rw [breaksFit_iff hnames]
          intro hmem
          simp only [hnone hmem] at h
          cases h
        · rintro ⟨-, hbreaks⟩
          obtain ⟨entries, hentries⟩ :=
            exists_map_some ((breaksFit_iff hnames).mp (hbreaks content rfl))
          obtain ⟨s, hloop, -⟩ := hall entries (by rw [← List.map_take, hentries])
          simp only [hloop]
          rfl
  · rw [createMenu_eq_none hname]
    exact iff_of_false (by simp) fun h => hname h.1

/-- `create_menu` fails exactly if the file cannot be opened, and leaves the arrays then. -/
theorem createMenu_result {fname : Bytes} {shellcmd file : Option Bytes} {r : ℤ} {m' : MenuArrays}
    (h : createMenu env fname shellcmd file m = some (r, m')) :
    file = none ∧ r = -1 ∧ m' = m ∨ file ≠ none ∧ r = 0 := by
  by_cases hname : NameFits fname shellcmd
  · rw [createMenu_eq hname] at h
    cases file with
    | none =>
        cases h
        exact .inl ⟨rfl, rfl, rfl⟩
    | some content =>
        obtain ⟨s, -, hs⟩ := Option.map_eq_some_iff.mp h
        cases hs
        exact .inr ⟨Option.some_ne_none _, rfl⟩
  · rw [createMenu_eq_none hname] at h
    cases h

/-- After 50 items there is no `NULL` in the list. -/
theorem items_full {content : Bytes} {s : MenuRead}
    (hloop : menuLoop env (pieces (maxLineLength - 1) content) ⟨0, true, deleteMenu m⟩ = some s)
    (hcount : maxMenuItems ≤ (menuLines (pieces (maxLineLength - 1) content)).length) {i : ℕ}
    (hi : i < maxMenuItems) : s.menu.items i ≠ none := by
  obtain ⟨hall, hnone⟩ := menuLoop_start env m (pieces (maxLineLength - 1) content)
  obtain ⟨entries, hentries⟩ := exists_map_some fun h => by
    rw [hnone h] at hloop
    cases hloop
  obtain ⟨s', hloop', hshows⟩ := hall entries hentries
  rw [hloop, Option.some.injEq] at hloop'
  subst hloop'
  have hlen := congrArg List.length hentries
  rw [List.length_take, List.length_map, List.length_map, Nat.min_eq_left hcount] at hlen
  rw [(hshows.cells i _ (List.getElem?_eq_getElem (by omega))).item]
  exact Option.some_ne_none _

/-- `create_menu` leaves consistent arrays exactly when the names and the file fit. -/
theorem createsMenu_iff (env : MenuEnv) (fname : Bytes) (shellcmd file : Option Bytes)
    (m : MenuArrays) :
    CreatesMenu env fname shellcmd file m ↔
      NameFits fname shellcmd ∧ ∀ content, file = some content → MenuFits env content := by
  by_cases hname : NameFits fname shellcmd
  · unfold CreatesMenu
    rw [createMenu_eq hname]
    cases file with
    | none =>
        refine iff_of_true ⟨-1, m, rfl, rfl, rfl⟩ ⟨hname, fun content h => ?_⟩
        cases h
    | some content =>
        constructor
        · rintro ⟨r, m', hcreate, -, hfilled⟩
          obtain ⟨s, hloop, hs⟩ := Option.map_eq_some_iff.mp hcreate
          cases hs
          refine ⟨hname, fun content' h => ?_⟩
          cases h
          exact (filled_iff content).mp ⟨s, hloop, hfilled⟩
        · rintro ⟨-, hfits⟩
          obtain ⟨s, hloop, hfilled⟩ := (filled_iff content).mpr (hfits content rfl)
          exact ⟨0, s.menu, Option.map_eq_some_iff.mpr ⟨s, hloop, rfl⟩, rfl, hfilled⟩
  · refine iff_of_false ?_ fun h => hname h.1
    rintro ⟨r, m', hcreate, -⟩
    rw [createMenu_eq_none hname] at hcreate
    cases hcreate

end Condition

/-- A title and 50 items. -/
def fiftyItems : Bytes := cstr "Tools\n" ++ (List.replicate 50 (cstr "Log:menu:log\n")).flatten

theorem fifty_items_no_end :
    ¬ CreatesMenu ⟨48, fun _ => false⟩ (cstr "tools.menu") none (some fiftyItems)
      ⟨fun _ => none, fun _ => none, fun _ => 0xFF, fun _ => none, fun _ => none, fun _ => 0xFF⟩ := by
  rintro ⟨r, m', hcreate, -, entries, hlt, hshows, -⟩
  rw [createMenu_eq ⟨by decide, fun h => absurd rfl h⟩] at hcreate
  obtain ⟨s, hloop, hs⟩ := Option.map_eq_some_iff.mp hcreate
  cases hs
  have hcount : maxMenuItems ≤ (menuLines (pieces (maxLineLength - 1) fiftyItems)).length := by
    decide +kernel
  exact items_full hloop hcount hlt (hshows.rest _ (le_refl _) hlt).1

end OpenRecovery.Recovery
