import OpenRecovery.Interactive.Shm
import Mathlib.Tactic

/-!
# When a menu shows the items of its own request

`imenu` terminates its items two places too far: after `n` items it clears item `n + 2`. What stood
in item `n` before decides what is shown. `occupied` follows the items that are left over from
earlier calls, and `requests_exact` says that a session shows and answers every request as it was
made, as long as each `imenu` call has at most 17 items and finds the place after them empty.

The invariant `Phase` goes through one request: the memory is always what a quiet memory becomes
after the writes made so far.
-/

set_option autoImplicit false

namespace OpenRecovery.Interactive

open OpenRecovery.Storage

/-! ## Fields -/

/-- A field of the struct; its last byte is never written. -/
structure IsField (f : Bytes) : Prop where
  length : f.length = 50
  last : f[49]? = some 0

theorem isField_strncpy {f : Bytes} (hf : IsField f) (s : Bytes) : IsField (strncpy f s 49) := by
  have hlen : (s.take 49 ++ List.replicate (49 - s.length) (0 : UInt8)).length = 49 := by
    simp
    omega
  constructor
  · rw [strncpy, List.length_append, hlen, List.length_drop, hf.length]
  · rw [strncpy, List.getElem?_append_right (by omega), hlen, List.getElem?_drop]
    exact hf.last

theorem isField_clear {f : Bytes} (hf : IsField f) : IsField (clear f) := by
  constructor
  · rw [clear, List.length_set, hf.length]
  · rw [clear, List.getElem?_set_ne (by omega)]
    exact hf.last

theorem isField_zero : IsField (List.replicate 50 0) := ⟨by simp, by decide⟩

theorem isSet_clear {f : Bytes} (hf : IsField f) : isSet (clear f) = false := by
  obtain ⟨c, f, rfl⟩ := List.exists_cons_of_length_pos (show 0 < f.length by rw [hf.length]; omega)
  simp [isSet, clear]

theorem text_clear {f : Bytes} (hf : IsField f) : text (clear f) = [] := by
  obtain ⟨c, f, rfl⟩ := List.exists_cons_of_length_pos (show 0 < f.length by rw [hf.length]; omega)
  simp [text, clear]

/-- A string of at most 49 bytes reads back as it was copied. -/
theorem text_strncpy {f s : Bytes} (hf : IsField f) (hlen : s.length ≤ 49) (hs : 0 ∉ s) :
    text (strncpy f s 49) = s := by
  have hall : ∀ c ∈ s, decide (c ≠ 0) = true := by
    intro c hc
    have hne : c ≠ 0 := fun h => hs (h ▸ hc)
    simp [hne]
  have hlast : f.drop 49 = [0] := by
    have hone : (f.drop 49).length = 1 := by rw [List.length_drop, hf.length]
    obtain ⟨c, hc⟩ := List.length_eq_one_iff.mp hone
    have hget := hf.last
    rw [show f[49]? = (f.drop 49)[0]? by rw [List.getElem?_drop], hc] at hget
    simp at hget
    rw [hc, hget]
  rw [text, strncpy, List.take_of_length_le hlen, List.append_assoc, hlast,
    List.takeWhile_append_of_pos hall]
  cases h : 49 - s.length <;> simp [List.replicate_succ]

theorem isSet_strncpy {f s : Bytes} (hne : s ≠ []) (hs : 0 ∉ s) : isSet (strncpy f s 49) = true := by
  obtain ⟨c, s, rfl⟩ := List.exists_cons_of_ne_nil hne
  have hc : c ≠ 0 := fun h => hs (by simp [h])
  simp [isSet, strncpy, hc]

/-! ## Quiet memories -/

/-- Is item `i` left non-empty by the call, given whether it was before? -/
def occupiedAfter (i : Nat) (before : Bool) : Call → Bool
  | .imenu c =>
      -- an empty item string is never copied, so the items of the call are set afterwards
      if i < c.items.length then true else if i = c.items.length + 2 then false else before
  | .iinput _ => before

/-- Is item `i` (not the first) left non-empty by the calls? -/
def occupied (calls : List Call) (i : Nat) : Bool := calls.foldl (occupiedAfter i) false

theorem occupied_append (calls : List Call) (c : Call) (i : Nat) :
    occupied (calls ++ [c]) i = occupiedAfter i (occupied calls i) c := by
  simp [occupied]

/-- The items are fields, and those that no call has left behind are empty. -/
structure Items (free : Nat → Prop) (items : List Bytes) : Prop where
  length : items.length = 20
  field : ∀ f ∈ items, IsField f
  empty : ∀ i f, free i → items[i]? = some f → isSet f = false

/-- The memory between two requests. -/
structure Quiet (free : Nat → Prop) (m : Shm) : Prop where
  inTrigger : m.inTrigger = 0
  reply : IsField m.reply
  items : Items free m.items

theorem Items.mono {free free' : Nat → Prop} {items : List Bytes} (h : Items free items)
    (hsub : ∀ i, free' i → free i) : Items free' items :=
  ⟨h.length, h.field, fun i f hi hf => h.empty i f (hsub i hi) hf⟩

/-- One item changed to a field again. -/
theorem Items.modify {free : Nat → Prop} {items : List Bytes} (h : Items free items) (i : Nat)
    {g : Bytes → Bytes} (hg : ∀ f, IsField f → IsField (g f)) :
    Items (fun j => free j ∧ j ≠ i) (items.modify i g) := by
  constructor
  · rw [List.length_modify, h.length]
  · intro f hf
    obtain ⟨j, hj⟩ := List.mem_iff_getElem?.mp hf
    rw [List.getElem?_modify] at hj
    obtain ⟨f', hf', rfl⟩ := Option.map_eq_some_iff.mp hj
    have hfield := h.field f' (List.mem_of_getElem? hf')
    split
    · exact hg f' hfield
    · exact hfield
  · rintro j f ⟨hfree, hne⟩ hf
    rw [List.getElem?_modify_ne _ _ (Ne.symm hne)] at hf
    exact h.empty j f hfree hf

theorem Items.clear {free : Nat → Prop} {items : List Bytes} (h : Items free items) (i : Nat) :
    Items (fun j => free j ∨ j = i) (items.modify i clear) := by
  have hmod := h.modify i (g := Interactive.clear) fun f hf => isField_clear hf
  refine ⟨hmod.length, hmod.field, ?_⟩
  rintro j f hfree hf
  by_cases hj : j = i
  · subst hj
    rw [List.getElem?_modify_eq] at hf
    obtain ⟨f', hf', rfl⟩ := Option.map_eq_some_iff.mp hf
    exact isSet_clear (h.field f' (List.mem_of_getElem? hf'))
  · exact hmod.empty j f ⟨hfree.resolve_right hj, hj⟩ hf

/-! ## The writes of a request -/

@[simp] theorem applyAll_nil (m : Shm) : applyAll [] m = m := rfl

@[simp] theorem applyAll_cons (w : Write) (ws : List Write) (m : Shm) :
    applyAll (w :: ws) m = applyAll ws (w.apply m) := rfl

/-- A field after the string was copied to it, if there is one. -/
def overwritten (f : Bytes) (s : Option Bytes) : Bytes := (s.map fun s => strncpy f s 49).getD f

/-- The writes of the items change nothing else, and put each string into its field. -/
theorem applyAll_itemWrites (ss : List Bytes) (k : Nat) (m : Shm) :
    applyAll (itemWrites k ss) m =
      { m with items := m.items.mapIdx fun j f => if k ≤ j then overwritten f ss[j - k]? else f } := by
  -- induction on the strings still to copy; `k` is the place the next one goes to
  induction ss generalizing k m with
  | nil =>
      have hid : (m.items.mapIdx fun _ f => f) = m.items := by
        apply List.ext_getElem?
        intro j
        simp
      simp [itemWrites, overwritten, hid]
  | cons s ss ih =>
      rw [itemWrites, applyAll_cons, ih]
      simp only [Write.apply]
      congr 1
      apply List.ext_getElem?
      intro j
      rw [List.getElem?_mapIdx, List.getElem?_mapIdx]
      rcases Nat.lt_trichotomy j k with hlt | heq | hgt
      · -- items before `k` are not written again
        rw [List.getElem?_modify_ne _ _ (by omega)]
        simp [show ¬ k ≤ j by omega, show ¬ k + 1 ≤ j by omega]
      · subst heq
        rw [List.getElem?_modify_eq]
        cases m.items[j]? <;> simp [overwritten]
      · have hsub : j - k = j - (k + 1) + 1 := by omega
        rw [List.getElem?_modify_ne _ _ (by omega), hsub]
        simp [show k ≤ j by omega, show k + 1 ≤ j by omega]

/-- The items of a quiet memory after the first of them were overwritten. -/
theorem Items.overwrite {free : Nat → Prop} {items : List Bytes} (h : Items free items)
    (ss : List Bytes) :
    Items (fun i => free i ∧ ss.length ≤ i) (items.mapIdx fun j f => overwritten f ss[j]?) := by
  constructor
  · rw [List.length_mapIdx, h.length]
  · intro f hf
    obtain ⟨j, hj⟩ := List.mem_iff_getElem?.mp hf
    rw [List.getElem?_mapIdx] at hj
    obtain ⟨f', hf', rfl⟩ := Option.map_eq_some_iff.mp hj
    have hfield := h.field f' (List.mem_of_getElem? hf')
    cases ss[j]? with
    | none => exact hfield
    | some s => exact isField_strncpy hfield s
  · rintro i f ⟨hfree, hi⟩ hf
    rw [List.getElem?_mapIdx, List.getElem?_eq_none hi] at hf
    obtain ⟨f', hf', rfl⟩ := Option.map_eq_some_iff.mp hf
    exact h.empty i f' hfree hf'

/-- The items in the memory after the writes of an `imenu` call. -/
def menuItems (c : MenuCall) (items : List Bytes) : List Bytes :=
  (items.mapIdx fun j f => overwritten f c.items[j]?).modify (c.items.length + 2) clear

theorem applyAll_imenu {c : MenuCall} (hc : c.items.length ≤ 17) (m : Shm) :
    applyAll (Call.imenu c).writes m =
      ⟨triggerMenu, 0, strncpy m.header c.header 49, menuItems c m.items, m.reply⟩ := by
  have htake : c.items.take 19 = c.items := List.take_of_length_le c.le
  -- with at most 17 items neither the cut at 19 nor the bound 21 of the loop counter is reached
  have hmin : min (c.items.length + 2) 21 = c.items.length + 2 := by omega
  rw [Call.writes, htake, hmin, List.cons_append, applyAll_cons, applyAll_append,
    applyAll_itemWrites]
  simp [Write.apply, menuItems, show ¬ c.items.length + 2 = 20 by omega]

/-- Which items are empty after an `imenu` call. -/
theorem items_imenu {free : Nat → Prop} {items : List Bytes} (h : Items free items) (c : MenuCall) :
    Items (fun i => (free i ∧ c.items.length ≤ i) ∨ i = c.items.length + 2)
      (menuItems c items) := (h.overwrite c.items).clear _

/-- The fields of the strings. -/
theorem menuItems_getElem? {free : Nat → Prop} {items : List Bytes} (h : Items free items)
    (c : MenuCall) {i : Nat} {s : Bytes} (hs : c.items[i]? = some s) :
    ∃ f, (menuItems c items)[i]? = some f ∧ isSet f = true ∧ text f = s := by
  have hmem := List.mem_of_getElem? hs
  have hi := (List.getElem?_eq_some_iff.mp hs).1
  have hlen : i < items.length := by
    have := c.le
    have := h.length
    omega
  refine ⟨strncpy items[i] s 49, ?_, isSet_strncpy (c.nonempty s hmem) (c.isString s hmem),
    text_strncpy (h.field _ (List.getElem_mem hlen)) (c.short s hmem) (c.isString s hmem)⟩
  rw [menuItems, List.getElem?_modify_ne _ _ (by omega), List.getElem?_mapIdx,
    List.getElem?_eq_getElem hlen, hs]
  rfl

/-- Items that are set up to the first that is not. -/
theorem takeWhile_isSet {items : List Bytes} {n : Nat}
    (hset : ∀ i f, i < n → items[i]? = some f → isSet f = true)
    (hend : ∃ f, items[n]? = some f ∧ isSet f = false) :
    items.takeWhile isSet = items.take n := by
  induction items generalizing n with
  | nil => simp at hend
  | cons f items ih =>
      cases n with
      | zero =>
          obtain ⟨f', hf', hclear⟩ := hend
          cases hf'
          simp [hclear]
      | succ n =>
          rw [List.takeWhile_cons_of_pos (hset 0 f (by omega) rfl), List.take_succ_cons,
            ih (fun i f' hi hf' => hset (i + 1) f' (Nat.succ_lt_succ hi) hf') (by simpa using hend)]

/-- A menu whose end is marked shows its own items. -/
theorem shownItems_imenu {free : Nat → Prop} {m : Shm} (h : Items free m.items) (c : MenuCall)
    (hc : c.items.length ≤ 17) (hfree : free c.items.length) :
    shownItems (applyAll (Call.imenu c).writes m) = c.items ∧
      scansOutside (applyAll (Call.imenu c).writes m) = false := by
  have hitems := items_imenu h c
  -- the call does not write item `n`: it is still as empty as it was found
  have hend : ∃ f, (menuItems c m.items)[c.items.length]? = some f ∧ isSet f = false := by
    have hlt : c.items.length < (menuItems c m.items).length := by
      have := hitems.length
      omega
    exact ⟨_, List.getElem?_eq_getElem hlt,
      hitems.empty _ _ (.inl ⟨hfree, Nat.le_refl _⟩) (List.getElem?_eq_getElem hlt)⟩
  rw [applyAll_imenu hc]
  constructor
  · have hset : ∀ i f, i < c.items.length → (menuItems c m.items)[i]? = some f →
        isSet f = true := by
      intro i f hi hf
      obtain ⟨f', hf', hset, -⟩ := menuItems_getElem? h c (List.getElem?_eq_getElem hi)
      rw [hf] at hf'
      cases hf'
      exact hset
    rw [shownItems, takeWhile_isSet hset hend]
    apply List.ext_getElem?
    intro i
    rw [List.getElem?_map, List.getElem?_take]
    by_cases hi : i < c.items.length
    · obtain ⟨f, hf, -, htext⟩ := menuItems_getElem? h c (List.getElem?_eq_getElem hi)
      rw [if_pos hi, hf, Option.map_some, htext, List.getElem?_eq_getElem hi]
    · rw [if_neg hi, List.getElem?_eq_none (by omega)]
      rfl
  · obtain ⟨f, hf, hclear⟩ := hend
    rw [scansOutside, List.all_eq_false]
    exact ⟨f, List.mem_of_getElem? hf, by simp [hclear]⟩

/-! ## Replies and rounds -/

/-- The place after the items of a call is free, and the call stays inside the array. -/
def Fits (before : List Call) (c : MenuCall) : Prop :=
  c.items.length ≤ 17 ∧ occupied before c.items.length = false

def Call.Fits (before : List Call) : Call → Prop
  | .imenu c => Interactive.Fits before c
  | .iinput _ => True

/-- The items that the calls have left empty. -/
def Left (calls : List Call) (i : Nat) : Prop := 1 ≤ i ∧ occupied calls i = false

/-- A request that is served right: the menu shows its items and prints the choice, a text comes
back as it was typed, and without a keyboard there is no text. -/
inductive Round (hasQwerty : Bool) : List Event → Prop where
  | menu (c : MenuCall) (k : Nat) : k < c.items.length →
      Round hasQwerty [.started (.imenu c), .shown c.items, .chose k, .printed k]
  | typed (header s : Bytes) : hasQwerty = true →
      Round hasQwerty [.started (.iinput header), .typed s, .printedReply s]
  | refused (header : Bytes) : hasQwerty = false →
      Round hasQwerty [.started (.iinput header), .printedReply []]

/-- What the server writes for a call, and what was seen of the call until then. -/
inductive Serves (hasQwerty : Bool) : Call → List Write → List Event → Prop where
  | menu (c : MenuCall) (k : Nat) : k < c.items.length →
      Serves hasQwerty (.imenu c) (menuReply k) [.started (.imenu c), .shown c.items, .chose k]
  | typed (header s : Bytes) : hasQwerty = true → s.length ≤ 32 → 0 ∉ s →
      Serves hasQwerty (.iinput header) (textReply s) [.started (.iinput header), .typed s]
  | refused (header : Bytes) : hasQwerty = false →
      Serves hasQwerty (.iinput header) defaultReply [.started (.iinput header)]

def Call.trigger : Call → Int
  | .imenu _ => triggerMenu
  | .iinput _ => triggerText

/-- The memory after the writes of a call. -/
structure Requested (before : List Call) (c : Call) (m : Shm) : Prop where
  inTrigger : m.inTrigger = c.trigger
  outTrigger : m.outTrigger = 0
  reply : IsField m.reply
  items : Items (Left (before ++ [c])) m.items

theorem requested_writes {before : List Call} {m : Shm} (h : Quiet (Left before) m) {c : Call}
    (hc : c.Fits before) : Requested before c (applyAll c.writes m) := by
  cases c with
  | imenu c =>
      rw [applyAll_imenu hc.1]
      refine ⟨rfl, rfl, h.reply, (items_imenu h.items c).mono ?_⟩
      rintro i ⟨hi, hocc⟩
      rw [occupied_append, occupiedAfter] at hocc
      by_cases hlt : i < c.items.length
      · simp [hlt] at hocc
      · -- item `n + 2` is what the call clears, in place of the end mark
        by_cases hend : i = c.items.length + 2
        · exact .inr hend
        · rw [if_neg hlt, if_neg hend] at hocc
          exact .inl ⟨⟨hi, hocc⟩, by omega⟩
  | iinput header =>
      refine ⟨rfl, rfl, isField_clear h.reply, (h.items.clear 0).mono ?_⟩
      rintro i ⟨hi, hocc⟩
      rw [occupied_append] at hocc
      exact .inl ⟨hi, hocc⟩

/-- A request that was served leaves a quiet memory, and its answer is that of a right round. -/
theorem served {hasQwerty : Bool} {before : List Call} {c : Call} {m : Shm}
    (h : Requested before c m) {reply : List Write} {events : List Event}
    (hserves : Serves hasQwerty c reply events) :
    Quiet (Left (before ++ [c])) (applyAll reply m) ∧ (applyAll reply m).outTrigger ≠ 0 ∧
      Round hasQwerty (events ++ [c.output (applyAll reply m)]) := by
  -- every answer clears item 0, which `Left` does not speak about
  have hitems : Items (Left (before ++ [c])) (m.items.modify 0 clear) :=
    (h.items.clear 0).mono fun i hi => .inl hi
  cases hserves with
  | menu c k hk =>
      refine ⟨⟨rfl, isField_clear h.reply, hitems⟩, ?_, ?_⟩
      · change (k : Int) + 1 ≠ 0
        omega
      · have hprint : (Call.imenu c).output (applyAll (menuReply k) m) = .printed k := by
          change Event.printed ((k : Int) + 1 - 1) = _
          rw [Int.add_sub_cancel]
        rw [hprint]
        exact .menu c k hk
  | typed header s hq hlen hs =>
      refine ⟨⟨rfl, isField_strncpy h.reply s, hitems⟩, (show (1 : Int) ≠ 0 by decide), ?_⟩
      have hprint : (Call.iinput header).output (applyAll (textReply s) m) = .printedReply s :=
        congrArg Event.printedReply (text_strncpy h.reply (by omega) hs)
      rw [hprint]
      exact .typed header s hq
  | refused header hq =>
      refine ⟨⟨rfl, isField_clear h.reply, hitems⟩, (show (1 : Int) ≠ 0 by decide), ?_⟩
      have hprint : (Call.iinput header).output (applyAll defaultReply m) = .printedReply [] :=
        congrArg Event.printedReply (text_clear h.reply)
      rw [hprint]
      exact .refused header hq

/-! ## Triggers come last -/

/-- Writes that leave `in_trigger` alone. -/
def Write.keepsIn : Write → Bool
  | .inTrigger _ => false
  | _ => true

def Write.keepsOut : Write → Bool
  | .outTrigger _ => false
  | _ => true

theorem inTrigger_applyAll {ws : List Write} (h : ∀ w ∈ ws, w.keepsIn = true) (m : Shm) :
    (applyAll ws m).inTrigger = m.inTrigger := by
  induction ws generalizing m with
  | nil => rfl
  | cons w ws ih =>
      rw [applyAll_cons, ih fun w' hw' => h w' (List.mem_cons_of_mem _ hw')]
      have hw := h w (List.mem_cons_self ..)
      cases w with
      | clearItem i => simp only [Write.apply]; split <;> rfl
      | inTrigger v => cases hw
      | _ => rfl

theorem outTrigger_applyAll {ws : List Write} (h : ∀ w ∈ ws, w.keepsOut = true) (m : Shm) :
    (applyAll ws m).outTrigger = m.outTrigger := by
  induction ws generalizing m with
  | nil => rfl
  | cons w ws ih =>
      rw [applyAll_cons, ih fun w' hw' => h w' (List.mem_cons_of_mem _ hw')]
      have hw := h w (List.mem_cons_self ..)
      cases w with
      | clearItem i => simp only [Write.apply]; split <;> rfl
      | outTrigger v => cases hw
      | _ => rfl

/-- Before the last element of a list. -/
theorem mem_of_split {α : Type} {l init pre ws : List α} {a : α} (hl : l = init ++ [a])
    (hsplit : l = pre ++ ws) (hws : ws ≠ []) {x : α} (hx : x ∈ pre) : x ∈ init := by
  have hinit : init = l.dropLast := by rw [hl, List.dropLast_concat]
  rw [hinit, hsplit, List.dropLast_append_of_ne_nil hws]
  exact List.mem_append_left _ hx

theorem keepsIn_itemWrites (ss : List Bytes) (k : Nat) :
    ∀ w ∈ itemWrites k ss, w.keepsIn = true := by
  induction ss generalizing k with
  | nil => simp [itemWrites]
  | cons s ss ih =>
      intro w hw
      rcases List.mem_cons.mp hw with rfl | hw
      · rfl
      · exact ih (k + 1) w hw

theorem exists_writes_eq (c : Call) :
    ∃ init v, c.writes = init ++ [.inTrigger v] ∧ ∀ w ∈ init, w.keepsIn = true := by
  cases c with
  | imenu c =>
      refine ⟨.header c.header :: itemWrites 0 (c.items.take 19) ++
        [.clearItem (min (c.items.length + 2) 21), .outTrigger 0], triggerMenu, ?_, ?_⟩
      · simp [Call.writes]
      · intro w hw
        rcases List.mem_append.mp hw with hw | hw
        · rcases List.mem_cons.mp hw with rfl | hw
          · rfl
          · exact keepsIn_itemWrites _ 0 w hw
        · simp only [List.mem_cons, List.not_mem_nil, or_false] at hw
          rcases hw with rfl | rfl
          · rfl
          · rfl
  | iinput header =>
      refine ⟨[.header header, .clearReply, .clearItem 0, .outTrigger 0], triggerText, rfl, ?_⟩
      intro w hw
      simp only [List.mem_cons, List.not_mem_nil, or_false] at hw
      rcases hw with rfl | rfl | rfl | rfl <;> rfl

/-- The server sees nothing of a request before its last write. -/
theorem inTrigger_pending {c : Call} {pre ws : List Write} (hsplit : c.writes = pre ++ ws)
    (hws : ws ≠ []) (m : Shm) : (applyAll pre m).inTrigger = m.inTrigger := by
  obtain ⟨init, v, hinit, hkeeps⟩ := exists_writes_eq c
  exact inTrigger_applyAll (fun w hw => hkeeps w (mem_of_split hinit hsplit hws hw)) m

theorem exists_reply_eq {hasQwerty : Bool} {c : Call} {reply : List Write} {events : List Event}
    (h : Serves hasQwerty c reply events) :
    ∃ init v, reply = init ++ [.outTrigger v] ∧ ∀ w ∈ init, w.keepsOut = true := by
  cases h with
  | menu c k _ =>
      refine ⟨[.clearHeader, .clearItem 0, .clearReply, .inTrigger 0], _, rfl, ?_⟩
      simp [Write.keepsOut]
  | typed header s _ _ _ =>
      refine ⟨[.clearHeader, .clearItem 0, .reply s, .inTrigger 0], _, rfl, ?_⟩
      simp [Write.keepsOut]
  | refused header _ =>
      refine ⟨[.clearHeader, .clearItem 0, .clearReply, .inTrigger 0], _, rfl, ?_⟩
      simp [Write.keepsOut]

/-- The client sees nothing of the answer before its last write. -/
theorem outTrigger_pending {hasQwerty : Bool} {c : Call} {reply : List Write}
    {events : List Event} (h : Serves hasQwerty c reply events) {pre ws : List Write}
    (hsplit : reply = pre ++ ws) (hws : ws ≠ []) (m : Shm) :
    (applyAll pre m).outTrigger = m.outTrigger := by
  obtain ⟨init, v, hinit, hkeeps⟩ := exists_reply_eq h
  exact outTrigger_applyAll (fun w hw => hkeeps w (mem_of_split hinit hsplit hws hw)) m

/-! ## Inside the array -/

theorem inside_itemWrites (ss : List Bytes) (k : Nat) (h : k + ss.length ≤ 20) :
    ∀ w ∈ itemWrites k ss, w.isOutside = false := by
  induction ss generalizing k with
  | nil => simp [itemWrites]
  | cons s ss ih =>
      rw [List.length_cons] at h
      intro w hw
      rcases List.mem_cons.mp hw with rfl | hw
      · simp [Write.isOutside]
        omega
      · exact ih (k + 1) (by omega) w hw

theorem inside_writes {before : List Call} {c : Call} (hc : c.Fits before) :
    ∀ w ∈ c.writes, w.isOutside = false := by
  cases c with
  | imenu c =>
      have hle := hc.1
      intro w hw
      rcases List.mem_append.mp hw with hw | hw
      · rcases List.mem_cons.mp hw with rfl | hw
        · rfl
        · exact inside_itemWrites _ 0 (by simp) w hw
      · simp only [List.mem_cons, List.not_mem_nil, or_false] at hw
        rcases hw with rfl | rfl | rfl
        · simp [Write.isOutside]
          omega
        · rfl
        · rfl
  | iinput header =>
      intro w hw
      simp only [Call.writes, List.mem_cons, List.not_mem_nil, or_false] at hw
      rcases hw with rfl | rfl | rfl | rfl | rfl <;> rfl

theorem inside_reply {hasQwerty : Bool} {c : Call} {reply : List Write} {events : List Event}
    (h : Serves hasQwerty c reply events) : ∀ w ∈ reply, w.isOutside = false := by
  cases h with
  | menu c k _ => simp [menuReply, Write.isOutside]
  | typed header s _ _ _ => simp [textReply, Write.isOutside]
  | refused header _ => simp [defaultReply, Write.isOutside]

/-! ## A session -/

/-- Every call of the session finds the place after its items free and stays inside the array. -/
def Orderly (calls : List Call) : Prop :=
  ∀ before c after, calls = before ++ c :: after → c.Fits before

/-- Where a session stands: `before` was served, and now the request of `c` is written, asked,
shown and answered. -/
inductive Phase (hasQwerty : Bool) (calls : List Call) : State → Prop where
  | idle {before after : List Call} {rounds : List (List Event)} {m : Shm} :
      calls = before ++ after → (∀ r ∈ rounds, Round hasQwerty r) → Quiet (Left before) m →
      Phase hasQwerty calls ⟨m, .idle, .polling, after, rounds.flatten, false⟩
  | writing {before after : List Call} {c : Call} {rounds : List (List Event)} {m : Shm}
      {pre ws : List Write} :
      calls = before ++ c :: after → (∀ r ∈ rounds, Round hasQwerty r) → Quiet (Left before) m →
      c.writes = pre ++ ws → ws ≠ [] →
      Phase hasQwerty calls
        ⟨applyAll pre m, .writing c ws, .polling, after, rounds.flatten ++ [.started c], false⟩
  | asked {before after : List Call} {c : Call} {rounds : List (List Event)} {m : Shm} :
      calls = before ++ c :: after → (∀ r ∈ rounds, Round hasQwerty r) → Quiet (Left before) m →
      Phase hasQwerty calls
        ⟨applyAll c.writes m, .waiting c, .polling, after, rounds.flatten ++ [.started c], false⟩
  | menu {before after : List Call} {c : MenuCall} {rounds : List (List Event)} {m : Shm} :
      calls = before ++ .imenu c :: after → (∀ r ∈ rounds, Round hasQwerty r) →
      Requested before (.imenu c) m →
      Phase hasQwerty calls
        ⟨m, .waiting (.imenu c), .menu c.items, after,
          rounds.flatten ++ [.started (.imenu c), .shown c.items], false⟩
  | typing {before after : List Call} {header : Bytes} {rounds : List (List Event)} {m : Shm} :
      calls = before ++ .iinput header :: after → (∀ r ∈ rounds, Round hasQwerty r) →
      Requested before (.iinput header) m → hasQwerty = true →
      Phase hasQwerty calls
        ⟨m, .waiting (.iinput header), .typing, after,
          rounds.flatten ++ [.started (.iinput header)], false⟩
  | replying {before after : List Call} {c : Call} {rounds : List (List Event)} {m : Shm}
      {reply pre ws : List Write} {events : List Event} :
      calls = before ++ c :: after → (∀ r ∈ rounds, Round hasQwerty r) → Requested before c m →
      Serves hasQwerty c reply events → reply = pre ++ ws → ws ≠ [] →
      Phase hasQwerty calls
        ⟨applyAll pre m, .waiting c, .writing ws, after, rounds.flatten ++ events, false⟩
  | replied {before after : List Call} {c : Call} {rounds : List (List Event)} {m : Shm}
      {reply : List Write} {events : List Event} :
      calls = before ++ c :: after → (∀ r ∈ rounds, Round hasQwerty r) → Requested before c m →
      Serves hasQwerty c reply events →
      Phase hasQwerty calls
        ⟨applyAll reply m, .waiting c, .polling, after, rounds.flatten ++ events, false⟩

theorem phase_init (hasQwerty : Bool) (calls : List Call) :
    Phase hasQwerty calls (State.init calls) := by
  -- nothing was served, and the zeroed memory is quiet
  refine @Phase.idle hasQwerty calls [] calls [] _ rfl (by simp) ⟨rfl, isField_zero, ?_, ?_, ?_⟩
  · rfl
  · intro f hf
    rw [List.eq_of_mem_replicate hf]
    exact isField_zero
  · intro i f _ hf
    rw [List.eq_of_mem_replicate (List.mem_of_getElem? hf)]
    rfl

/-- The client's next write. -/
theorem phase_clientWrite {hasQwerty : Bool} {calls before after : List Call} {c : Call}
    {rounds : List (List Event)} {m : Shm} {pre ws : List Write} {w : Write}
    (hcalls : calls = before ++ c :: after) (hrounds : ∀ r ∈ rounds, Round hasQwerty r)
    (hquiet : Quiet (Left before) m) (hsplit : c.writes = pre ++ w :: ws) :
    Phase hasQwerty calls
      ⟨w.apply (applyAll pre m), .next c ws, .polling, after, rounds.flatten ++ [.started c],
        false⟩ := by
  have happly : w.apply (applyAll pre m) = applyAll (pre ++ [w]) m := by
    rw [applyAll_append]
    rfl
  cases ws with
  | nil =>
      rw [happly, ← hsplit]
      exact .asked hcalls hrounds hquiet
  | cons w' ws =>
      rw [happly]
      exact .writing hcalls hrounds hquiet (by rw [hsplit]; simp) (by simp)

/-- The server's next write. -/
theorem phase_serverWrite {hasQwerty : Bool} {calls before after : List Call} {c : Call}
    {rounds : List (List Event)} {m : Shm} {reply pre ws : List Write} {w : Write}
    {events : List Event} (hcalls : calls = before ++ c :: after)
    (hrounds : ∀ r ∈ rounds, Round hasQwerty r) (hreq : Requested before c m)
    (hserves : Serves hasQwerty c reply events) (hsplit : reply = pre ++ w :: ws) :
    Phase hasQwerty calls
      ⟨w.apply (applyAll pre m), .waiting c, .next ws, after, rounds.flatten ++ events, false⟩ := by
  have happly : w.apply (applyAll pre m) = applyAll (pre ++ [w]) m := by
    rw [applyAll_append]
    rfl
  cases ws with
  | nil =>
      rw [happly, ← hsplit]
      exact .replied hcalls hrounds hreq hserves
  | cons w' ws =>
      rw [happly]
      exact .replying hcalls hrounds hreq hserves (by rw [hsplit]; simp) (by simp)

theorem triggerMenu_ne_text : triggerMenu ≠ triggerText := by decide

/-- As long as nothing is asked, only the client moves. -/
theorem step_unasked {hasQwerty : Bool} {m : Shm} {cl : Client} {cs : List Call} {log : List Event}
    {o : Bool} {t : State} (hin : m.inTrigger = 0)
    (hstep : Step hasQwerty ⟨m, cl, .polling, cs, log, o⟩ t) :
    (∃ c cs', cl = .idle ∧ cs = c :: cs' ∧
        t = ⟨m, .writing c c.writes, .polling, cs', log ++ [.started c], o⟩) ∨
      (∃ c w ws, cl = .writing c (w :: ws) ∧
        t = ⟨w.apply m, .next c ws, .polling, cs, log, o || w.isOutside⟩) ∨
      ∃ c, cl = .waiting c ∧ m.outTrigger ≠ 0 ∧
        t = ⟨m, .idle, .polling, cs, log ++ [c.output m], o⟩ := by
  cases hstep with
  | start => exact .inl ⟨_, _, rfl, rfl, rfl⟩
  | clientWrite => exact .inr (.inl ⟨_, _, _, rfl, rfl⟩)
  | clientRead hout => exact .inr (.inr ⟨_, rfl, hout, rfl⟩)
  | serverMenu htrigger =>
      rw [hin] at htrigger
      cases htrigger
  | serverText htrigger _ =>
      rw [hin] at htrigger
      cases htrigger
  | serverDefault hne _ _ => exact absurd hin hne

/-! ### The steps from each phase -/

section PhaseSteps

variable {hasQwerty : Bool} {calls before after : List Call} {rounds : List (List Event)} {m : Shm}
variable {t : State}

/-- The next call is started. -/
theorem phase_idle (hsplit : calls = before ++ after) (hrounds : ∀ r ∈ rounds, Round hasQwerty r)
    (hquiet : Quiet (Left before) m)
    (hstep : Step hasQwerty ⟨m, .idle, .polling, after, rounds.flatten, false⟩ t) :
    Phase hasQwerty calls t := by
  obtain ⟨c, cs, -, rfl, rfl⟩ | ⟨c, w, ws, hcl, -⟩ | ⟨c, hcl, -⟩ :=
    step_unasked hquiet.inTrigger hstep
  · refine @Phase.writing hasQwerty calls _ _ c _ _ [] _ hsplit hrounds hquiet rfl ?_
    cases c <;> simp [Call.writes]
  · cases hcl
  · cases hcl

/-- The server sees nothing of the request that is being written. -/
theorem phase_writing {c : Call} {pre ws : List Write} (hcalls : Orderly calls)
    (hsplit : calls = before ++ c :: after) (hrounds : ∀ r ∈ rounds, Round hasQwerty r)
    (hquiet : Quiet (Left before) m) (hwrites : c.writes = pre ++ ws) (hws : ws ≠ [])
    (hstep : Step hasQwerty
      ⟨applyAll pre m, .writing c ws, .polling, after, rounds.flatten ++ [.started c], false⟩ t) :
    Phase hasQwerty calls t := by
  have hin : (applyAll pre m).inTrigger = 0 :=
    (inTrigger_pending hwrites hws m).trans hquiet.inTrigger
  obtain ⟨c', cs, hcl, -⟩ | ⟨c', w, ws', hcl, rfl⟩ | ⟨c', hcl, -⟩ := step_unasked hin hstep
  · cases hcl
  · cases hcl
    have hw : w.isOutside = false :=
      inside_writes (hcalls _ _ _ hsplit) w (by rw [hwrites]; simp)
    rw [hw]
    exact phase_clientWrite hsplit hrounds hquiet hwrites
  · cases hcl

/-- The request is complete: the server takes it up. -/
theorem phase_asked {c : Call} (hcalls : Orderly calls) (hsplit : calls = before ++ c :: after)
    (hrounds : ∀ r ∈ rounds, Round hasQwerty r) (hquiet : Quiet (Left before) m)
    (hstep : Step hasQwerty
      ⟨applyAll c.writes m, .waiting c, .polling, after, rounds.flatten ++ [.started c], false⟩ t) :
    Phase hasQwerty calls t := by
  have hfits := hcalls _ _ _ hsplit
  have hreq := requested_writes hquiet hfits
  cases hstep with
  | clientRead hout => exact absurd hreq.outTrigger hout
  | serverMenu htrigger =>
      rw [hreq.inTrigger] at htrigger
      cases c with
      | iinput header => exact absurd htrigger.symm triggerMenu_ne_text
      | imenu c =>
          -- item `n` has to be free, or the menu would go on with items that were left over
          obtain ⟨hshown, hinside⟩ := shownItems_imenu hquiet.items c hfits.1 ⟨c.pos, hfits.2⟩
          rw [hshown, hinside, List.append_assoc]
          exact .menu hsplit hrounds hreq
  | serverText htrigger hq =>
      rw [hreq.inTrigger] at htrigger
      cases c with
      | imenu c => exact absurd htrigger triggerMenu_ne_text
      | iinput header => exact .typing hsplit hrounds hreq hq
  | serverDefault hne hmenu htext =>
      rw [hreq.inTrigger] at hmenu htext
      cases c with
      | imenu c => exact absurd rfl hmenu
      | iinput header =>
          -- the default branch is taken for a text only when there is no keyboard to type it on
          have hq : hasQwerty = false := by
            by_contra hq
            exact htext ⟨rfl, by simpa using hq⟩
          exact @Phase.replying hasQwerty calls _ _ _ _ _ _ [] _ _ hsplit hrounds hreq
            (.refused header hq) rfl (by simp [defaultReply])

/-- The user chooses an item of the menu. -/
theorem phase_menu {c : MenuCall} (hsplit : calls = before ++ .imenu c :: after)
    (hrounds : ∀ r ∈ rounds, Round hasQwerty r) (hreq : Requested before (.imenu c) m)
    (hstep : Step hasQwerty ⟨m, .waiting (.imenu c), .menu c.items, after,
      rounds.flatten ++ [.started (.imenu c), .shown c.items], false⟩ t) :
    Phase hasQwerty calls t := by
  cases hstep with
  | clientRead hout => exact absurd hreq.outTrigger hout
  | serverChoose hk =>
      rw [List.append_assoc]
      exact @Phase.replying hasQwerty calls _ _ _ _ _ _ [] _ _ hsplit hrounds hreq
        (.menu c _ hk) rfl (by simp [menuReply])

/-- The user types a text. -/
theorem phase_typing {header : Bytes} (hsplit : calls = before ++ .iinput header :: after)
    (hrounds : ∀ r ∈ rounds, Round hasQwerty r) (hreq : Requested before (.iinput header) m)
    (hq : hasQwerty = true)
    (hstep : Step hasQwerty ⟨m, .waiting (.iinput header), .typing, after,
      rounds.flatten ++ [.started (.iinput header)], false⟩ t) :
    Phase hasQwerty calls t := by
  cases hstep with
  | clientRead hout => exact absurd hreq.outTrigger hout
  | serverType hlen hs =>
      rw [List.append_assoc]
      exact @Phase.replying hasQwerty calls _ _ _ _ _ _ [] _ _ hsplit hrounds hreq
        (.typed header _ hq hlen hs) rfl (by simp [textReply])

/-- The server goes on with its answer, which the client does not see before it is complete. -/
theorem phase_replying {c : Call} {reply pre ws : List Write} {events : List Event}
    (hsplit : calls = before ++ c :: after) (hrounds : ∀ r ∈ rounds, Round hasQwerty r)
    (hreq : Requested before c m) (hserves : Serves hasQwerty c reply events)
    (hreply : reply = pre ++ ws) (hws : ws ≠ [])
    (hstep : Step hasQwerty
      ⟨applyAll pre m, .waiting c, .writing ws, after, rounds.flatten ++ events, false⟩ t) :
    Phase hasQwerty calls t := by
  cases hstep with
  | clientRead hout =>
      exact absurd ((outTrigger_pending hserves hreply hws m).trans hreq.outTrigger) hout
  | @serverWrite _ _ w ws _ _ _ =>
      have hw : w.isOutside = false := inside_reply hserves w (by rw [hreply]; simp)
      rw [hw]
      exact phase_serverWrite hsplit hrounds hreq hserves hreply

/-- The client reads the answer, and the round joins those before it. -/
theorem phase_replied {c : Call} {reply : List Write} {events : List Event}
    (hsplit : calls = before ++ c :: after) (hrounds : ∀ r ∈ rounds, Round hasQwerty r)
    (hreq : Requested before c m) (hserves : Serves hasQwerty c reply events)
    (hstep : Step hasQwerty
      ⟨applyAll reply m, .waiting c, .polling, after, rounds.flatten ++ events, false⟩ t) :
    Phase hasQwerty calls t := by
  obtain ⟨hquiet, -, hround⟩ := served hreq hserves
  obtain ⟨c', cs, hcl, -⟩ | ⟨c', w, ws, hcl, -⟩ | ⟨c', hcl, -, rfl⟩ :=
    step_unasked hquiet.inTrigger hstep
  · cases hcl
  · cases hcl
  · cases hcl
    have hlog : rounds.flatten ++ events ++ [c.output (applyAll reply m)] =
        (rounds ++ [events ++ [c.output (applyAll reply m)]]).flatten := by simp
    rw [hlog]
    refine @Phase.idle hasQwerty calls (before ++ [c]) _ _ _ (by rw [hsplit]; simp) ?_ hquiet
    intro r hr
    rcases List.mem_append.mp hr with hr | hr
    · exact hrounds r hr
    · rw [List.mem_singleton.mp hr]
      exact hround

end PhaseSteps

theorem phase_step {hasQwerty : Bool} {calls : List Call} (hcalls : Orderly calls) {s t : State}
    (h : Phase hasQwerty calls s) (hstep : Step hasQwerty s t) : Phase hasQwerty calls t := by
  cases h with
  | idle hsplit hrounds hquiet => exact phase_idle hsplit hrounds hquiet hstep
  | writing hsplit hrounds hquiet hwrites hws =>
      exact phase_writing hcalls hsplit hrounds hquiet hwrites hws hstep
  | asked hsplit hrounds hquiet => exact phase_asked hcalls hsplit hrounds hquiet hstep
  | menu hsplit hrounds hreq => exact phase_menu hsplit hrounds hreq hstep
  | typing hsplit hrounds hreq hq => exact phase_typing hsplit hrounds hreq hq hstep
  | replying hsplit hrounds hreq hserves hreply hws =>
      exact phase_replying hsplit hrounds hreq hserves hreply hws hstep
  | replied hsplit hrounds hreq hserves => exact phase_replied hsplit hrounds hreq hserves hstep

/-- What was seen is a number of right rounds, the last one perhaps not complete. -/
def Exact (hasQwerty : Bool) (log : List Event) : Prop :=
  ∃ rounds : List (List Event), (∀ r ∈ rounds, Round hasQwerty r) ∧ log <+: rounds.flatten

theorem exact_of_round {hasQwerty : Bool} {rounds : List (List Event)} {events rest : List Event}
    (hrounds : ∀ r ∈ rounds, Round hasQwerty r) (hround : Round hasQwerty (events ++ rest)) :
    Exact hasQwerty (rounds.flatten ++ events) := by
  refine ⟨rounds ++ [events ++ rest], ?_, rest, by simp⟩
  intro r hr
  rcases List.mem_append.mp hr with hr | hr
  · exact hrounds r hr
  · rw [List.mem_singleton.mp hr]
    exact hround

/-- Every request can be served. -/
theorem exists_round (hasQwerty : Bool) (c : Call) :
    ∃ rest, Round hasQwerty ([.started c] ++ rest) := by
  cases c with
  | imenu c => exact ⟨_, .menu c 0 c.pos⟩
  | iinput header =>
      cases hasQwerty with
      | true => exact ⟨_, .typed header [] rfl⟩
      | false => exact ⟨_, .refused header rfl⟩

theorem phase_exact {hasQwerty : Bool} {calls : List Call} {s : State}
    (h : Phase hasQwerty calls s) : s.outside = false ∧ Exact hasQwerty s.log := by
  cases h with
  | @idle before after rounds m hsplit hrounds hquiet =>
      exact ⟨rfl, rounds, hrounds, List.prefix_rfl⟩
  | @writing before after c rounds m pre ws hsplit hrounds hquiet hwrites hws =>
      obtain ⟨rest, hround⟩ := exists_round hasQwerty c
      exact ⟨rfl, exact_of_round hrounds hround⟩
  | @asked before after c rounds m hsplit hrounds hquiet =>
      obtain ⟨rest, hround⟩ := exists_round hasQwerty c
      exact ⟨rfl, exact_of_round hrounds hround⟩
  | @menu before after c rounds m hsplit hrounds hreq =>
      exact ⟨rfl, @exact_of_round _ _ _ [.chose 0, .printed 0] hrounds (.menu c 0 c.pos)⟩
  | @typing before after header rounds m hsplit hrounds hreq hq =>
      exact ⟨rfl, @exact_of_round _ _ _ [.typed [], .printedReply []] hrounds
        (.typed header [] hq)⟩
  | @replying before after c rounds m reply pre ws events hsplit hrounds hreq hserves hreply hws =>
      exact ⟨rfl, exact_of_round hrounds (served hreq hserves).2.2⟩
  | @replied before after c rounds m reply events hsplit hrounds hreq hserves =>
      exact ⟨rfl, exact_of_round hrounds (served hreq hserves).2.2⟩

/-- In a session of orderly calls no index leaves the array, every menu shows the items of its own
call, and every call prints the answer to its own request. -/
theorem requests_exact (hasQwerty : Bool) (calls : List Call) (hcalls : Orderly calls) (s : State)
    (hreach : Reachable hasQwerty calls s) : s.outside = false ∧ Exact hasQwerty s.log := by
  refine @phase_exact hasQwerty calls s ?_
  induction hreach with
  | refl => exact phase_init hasQwerty calls
  | tail _ hstep ih => exact phase_step hcalls ih hstep

/-! ## Runs -/

section Runs

variable {hasQwerty : Bool} {cs : List Call} {log : List Event}

/-- The client makes all its writes. -/
theorem run_clientWrites {c : Call} {sv : Server} (w : Write) (ws : List Write) (m : Shm)
    (o : Bool) :
    Relation.ReflTransGen (Step hasQwerty) ⟨m, .writing c (w :: ws), sv, cs, log, o⟩
      ⟨applyAll (w :: ws) m, .waiting c, sv, cs, log, o || (w :: ws).any Write.isOutside⟩ := by
  induction ws generalizing w m o with
  | nil =>
      have hstep : Step hasQwerty ⟨m, .writing c [w], sv, cs, log, o⟩
          ⟨w.apply m, .waiting c, sv, cs, log, o || w.isOutside⟩ := .clientWrite
      simpa using Relation.ReflTransGen.single hstep
  | cons w' ws ih =>
      have hstep : Step hasQwerty ⟨m, .writing c (w :: w' :: ws), sv, cs, log, o⟩
          ⟨w.apply m, .writing c (w' :: ws), sv, cs, log, o || w.isOutside⟩ := .clientWrite
      have hrest := ih w' (w.apply m) (o || w.isOutside)
      rw [Bool.or_assoc] at hrest
      exact .head hstep hrest

theorem run_serverWrites {cl : Client} (w : Write) (ws : List Write) (m : Shm) (o : Bool) :
    Relation.ReflTransGen (Step hasQwerty) ⟨m, cl, .writing (w :: ws), cs, log, o⟩
      ⟨applyAll (w :: ws) m, cl, .polling, cs, log, o || (w :: ws).any Write.isOutside⟩ := by
  induction ws generalizing w m o with
  | nil =>
      have hstep : Step hasQwerty ⟨m, cl, .writing [w], cs, log, o⟩
          ⟨w.apply m, cl, .polling, cs, log, o || w.isOutside⟩ := .serverWrite
      simpa using Relation.ReflTransGen.single hstep
  | cons w' ws ih =>
      have hstep : Step hasQwerty ⟨m, cl, .writing (w :: w' :: ws), cs, log, o⟩
          ⟨w.apply m, cl, .writing (w' :: ws), cs, log, o || w.isOutside⟩ := .serverWrite
      have hrest := ih w' (w.apply m) (o || w.isOutside)
      rw [Bool.or_assoc] at hrest
      exact .head hstep hrest

/-- The start of an `imenu` call, up to the menu. -/
theorem run_menu (c : MenuCall) (m : Shm) (o : Bool)
    (hin : (applyAll (Call.imenu c).writes m).inTrigger = triggerMenu) :
    Relation.ReflTransGen (Step hasQwerty) ⟨m, .idle, .polling, .imenu c :: cs, log, o⟩
      ⟨applyAll (Call.imenu c).writes m, .waiting (.imenu c),
        .menu (shownItems (applyAll (Call.imenu c).writes m)), cs,
        log ++ [.started (.imenu c)] ++ [.shown (shownItems (applyAll (Call.imenu c).writes m))],
        o || (Call.imenu c).writes.any Write.isOutside ||
          scansOutside (applyAll (Call.imenu c).writes m)⟩ := by
  refine .head .start ((run_clientWrites _ _ m o).trans (.single ?_))
  exact .serverMenu hin

/-- The choice, the answer and the output of an `imenu` call. -/
theorem run_choose (c : MenuCall) (m : Shm) (o : Bool) {shown : List Bytes} {k : Nat}
    (hk : k < shown.length) :
    Relation.ReflTransGen (Step hasQwerty) ⟨m, .waiting (.imenu c), .menu shown, cs, log, o⟩
      ⟨applyAll (menuReply k) m, .idle, .polling, cs, log ++ [.chose k] ++ [.printed k], o⟩ := by
  refine .head (.serverChoose hk) ?_
  have hwrites := @run_serverWrites hasQwerty cs (log ++ [.chose k]) (.waiting (.imenu c)) .clearHeader
    [.clearItem 0, .clearReply, .inTrigger 0, .outTrigger (k + 1)] m o
  rw [show (o || [Write.clearHeader, .clearItem 0, .clearReply, .inTrigger 0,
    .outTrigger (k + 1)].any Write.isOutside) = o by simp [Write.isOutside]] at hwrites
  refine hwrites.trans (.single ?_)
  have hread : Step hasQwerty
      ⟨applyAll (menuReply k) m, .waiting (.imenu c), .polling, cs, log ++ [.chose k], o⟩
      ⟨applyAll (menuReply k) m, .idle, .polling, cs,
        log ++ [.chose k] ++ [(Call.imenu c).output (applyAll (menuReply k) m)], o⟩ :=
    .clientRead (show (k : Int) + 1 ≠ 0 by omega)
  have hprint : (Call.imenu c).output (applyAll (menuReply k) m) = .printed k := by
    change Event.printed ((k : Int) + 1 - 1) = _
    rw [Int.add_sub_cancel]
  rwa [hprint] at hread

end Runs

namespace Sample

/-- A menu with one, and one with three items. -/
def one : MenuCall := ⟨cstr "a", [cstr "x"], by decide, by decide, by decide, by decide, by decide⟩

def three : MenuCall :=
  ⟨cstr "b", [cstr "p", cstr "q", cstr "r"], by decide, by decide, by decide, by decide, by decide⟩

theorem orderly_growing : Orderly [.imenu one, .imenu three] := by
  intro before c after h
  match before, h with
  | [], h =>
      cases h
      exact ⟨by decide, by decide⟩
  | [_], h =>
      cases h
      exact ⟨by decide, by decide⟩
  | [_, _], h => cases h
  | _ :: _ :: _ :: _, h => simp at h

/-- The memory after the menu with one item was shown and its item chosen. -/
def afterOne : Shm := applyAll (menuReply 0) (applyAll (Call.imenu one).writes .fresh)

/-- Both menus are served, and of the second one the last item is chosen. -/
theorem requests_exact_growing :
    ∃ s, Reachable false [.imenu one, .imenu three] s ∧ s.calls = [] ∧ s.log.length = 8 ∧
      s.outside = false ∧ Exact false s.log := by
  have hone : Reachable false [.imenu one, .imenu three] _ :=
    (run_menu one .fresh false (by decide)).trans (run_choose one _ _ (k := 0) (by decide))
  have hrun := (hone.trans (run_menu three afterOne _ (by decide))).trans
    (run_choose three _ _ (k := 2) (by decide))
  exact ⟨_, hrun, rfl, rfl, requests_exact false _ orderly_growing _ hrun⟩

/-- The memory after the menu with three items was shown and its first item chosen. -/
def afterThree : Shm := applyAll (menuReply 0) (applyAll (Call.imenu three).writes .fresh)

theorem shown_after_three :
    shownItems (applyAll (Call.imenu one).writes afterThree) = [cstr "x", cstr "q", cstr "r"] := by
  decide

/-- After a menu with three items, one with a single item shows two of the earlier ones. -/
theorem shrinking_not_exact :
    ∃ s, Reachable false [.imenu three, .imenu one] s ∧ ¬ Exact false s.log := by
  have hfirst : Reachable false [.imenu three, .imenu one] _ :=
    run_menu three .fresh false (by decide)
  have hrun := (hfirst.trans (run_choose three _ _ (k := 0) (by decide))).trans
    (run_menu one afterThree _ (by decide))
  refine ⟨_, hrun, ?_⟩
  simp only [shown_after_three]
  rintro ⟨rounds, hrounds, rest, hlog⟩
  match rounds, hrounds, hlog with
  | [], _, hlog => simp at hlog
  | [r], hrounds, hlog =>
      cases hrounds r (by simp) <;> simp at hlog
  | r :: r' :: rs, hrounds, hlog =>
      cases hrounds r (by simp) with
      | typed header s hq => simp at hlog
      | refused header hq => simp at hlog
      | menu c k hk =>
          cases hrounds r' (by simp) with
          | typed header s hq => simp at hlog
          | refused header hq => simp at hlog
          | menu c' k' hk' =>
              simp only [List.nil_append, List.cons_append, List.flatten_cons, List.cons.injEq,
                Event.started.injEq, Event.shown.injEq, Call.imenu.injEq] at hlog
              obtain ⟨-, -, -, -, hcall, hshown, -⟩ := hlog
              rw [← hcall] at hshown
              exact absurd hshown (by decide)

end Sample

end OpenRecovery.Interactive
