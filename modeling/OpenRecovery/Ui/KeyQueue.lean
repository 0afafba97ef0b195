import OpenRecovery.Storage.BoundedQueue
import OpenRecovery.Storage.Bytes

/-!
# The key queue

`key_queue` and the sections of `ui.c` that hold its mutex. `input_callback` and `kbd_thread` test
for room before they append a key, `ui_cancel_wait_key` does not (`step_cancel`). All of them work
on the queue as on a `QueueStep` as long as a wait is not cancelled while the queue is full
(`step_simulates`), and then no key is lost, doubled or moved (`keys_delivered_iff`).
-/

set_option autoImplicit false

namespace OpenRecovery.Ui

open OpenRecovery.Storage

/-! ## The state -/

/-- The cells of `key_queue`. -/
def queueMax : ℕ := 256

/-- The variables under `key_queue_mutex`, with the ones of the threads that append keys. -/
structure KeyState where
  keyQueue : ℕ → ℤ := fun _ => 0
  keyQueueLen : ℤ := 0
  waitKeyBreak : Bool := false
  relSum : ℤ := 0
  handlingKey : ℤ := -1
  noAccumTicks : ℤ := 0
  firstAccum : Bool := true

/-- The keys that wait for a consumer. -/
def KeyState.keys (s : KeyState) : List ℤ := (List.range s.keyQueueLen.toNat).map s.keyQueue

/-! ## input_callback -/

/-- A `struct input_event`. -/
structure InputEvent where
  type : ℕ
  code : ℕ
  value : ℤ

def evSyn : ℕ := 0
def evKey : ℕ := 1
def evRel : ℕ := 2
def relY : ℕ := 1
def keyMax : ℕ := 0x2ff

def keyUp : ℕ := 103
def keyDown : ℕ := 108

/-- The event as the rest of the function sees it, and the motion of the trackball that is left. -/
def rollTrackball (ev : InputEvent) (relSum : ℤ) : InputEvent × ℤ :=
  if ev.type = evRel then
    if ev.code = relY then
      if 3 < relSum + ev.value then (⟨evKey, keyDown, 1⟩, 0)
      else if relSum + ev.value < -3 then (⟨evKey, keyUp, 1⟩, 0)
      else (ev, relSum + ev.value)
    else (ev, relSum)
  else (ev, 0)

/-- The event of a key that is pressed, after `rollTrackball`. -/
def pressedKey (ev : InputEvent) : Option ℤ :=
  if ev.type ≠ evKey ∨ keyMax < ev.code then none
  else if 0 < ev.value then some ev.code
  else none

/-- `key_queue[key_queue_len++] = key`. -/
def KeyState.append (s : KeyState) (key : ℤ) : Option KeyState :=
  if 0 ≤ s.keyQueueLen ∧ s.keyQueueLen < queueMax then
    some { s with
      keyQueue := Function.update s.keyQueue s.keyQueueLen.toNat key
      keyQueueLen := s.keyQueueLen + 1 }
  else none

/-- The same, after the test for room. -/
def KeyState.appendIfRoom (s : KeyState) (key : ℤ) : Option KeyState :=
  if s.keyQueueLen < queueMax then s.append key else some s

/-- `input_callback`, with the event that it has read. -/
def inputCallback (ev : InputEvent) (s : KeyState) : Option KeyState :=
  if ev.type = evSyn then some s
  else
    let (ev, relSum) := rollTrackball ev s.relSum
    let s := { s with relSum := relSum }
    match pressedKey ev with
    | none => some s
    | some key => s.appendIfRoom key

/-! ## kbd_thread -/

def keyLeftShift : ℤ := 42
def keyRightShift : ℤ := 54
def keyCapsLock : ℤ := 58
def keyLeftAlt : ℤ := 56
def keyRightAlt : ℤ := 100

def noAction : ℤ := -1
def highlightUp : ℤ := -2
def highlightDown : ℤ := -3
def selectItem : ℤ := -4

/-- `menu_handle_key`; `KEY_POWER` selects on devices without a camera key. -/
def menuHandleKey (hasCameraKey : Bool) (keyCode : ℤ) (visible : Bool) : ℤ :=
  if visible then
    -- KEY_DOWN, KEY_VOLUMEDOWN
    if keyCode = 108 ∨ keyCode = 114 then highlightDown
    -- KEY_UP, KEY_VOLUMEUP
    else if keyCode = 103 ∨ keyCode = 115 then highlightUp
    -- KEY_REPLY, KEY_CAMERA, KEY_ENTER
    else if keyCode = 232 ∨ keyCode = 212 ∨ keyCode = 28 then selectItem
    -- KEY_POWER
    else if keyCode = 116 ∧ hasCameraKey = false then selectItem
    else noAction
  else noAction

/-- One round of `kbd_thread`. `last_key_down` is read without the lock, and other threads write it:
`tested` is what the tests see of it, `kept` what `handling_key` is set to. -/
def kbdThread (hasCameraKey : Bool) (tested kept : ℤ) (s : KeyState) : Option KeyState :=
  if s.handlingKey ≠ -1 then
    if tested = -1 ∨ tested ≠ s.handlingKey then some { s with handlingKey := -1 }
    else if s.firstAccum then
      some { s with
        noAccumTicks := s.noAccumTicks + 1
        firstAccum := s.noAccumTicks + 1 ≠ 14 }
    else s.appendIfRoom s.handlingKey
  else if tested ≠ -1 ∧ tested ≠ keyLeftShift ∧ tested ≠ keyRightShift ∧ tested ≠ keyCapsLock ∧
      tested ≠ keyLeftAlt ∧ tested ≠ keyRightAlt ∧
      menuHandleKey hasCameraKey tested true ≠ selectItem then
    some { s with firstAccum := true, noAccumTicks := 0, handlingKey := kept }
  else some s

/-! ## ui_cancel_wait_key, ui_get_key, ui_wait_key and ui_clear_key_queue -/

/-- The key that cancels a wait. -/
def cancelKey : ℤ := -2

def uiCancelWaitKey (s : KeyState) : Option KeyState := s.append cancelKey

/-- The first key, and `memcpy` of the others. The areas of this `memcpy` overlap; it copies
upwards. -/
def KeyState.shift (s : KeyState) : Option (KeyState × ℤ) :=
  if 0 < s.keyQueueLen ∧ s.keyQueueLen ≤ queueMax then
    some ({ s with
      keyQueue := fun i => if (i : ℤ) < s.keyQueueLen - 1 then s.keyQueue (i + 1) else s.keyQueue i
      keyQueueLen := s.keyQueueLen - 1 }, s.keyQueue 0)
  else none

def uiGetKey (s : KeyState) : Option (KeyState × ℤ) :=
  if s.keyQueueLen ≠ 0 then s.shift else some (s, -1)

/-- A section of `ui_wait_key`: from taking the lock, or from the end of `pthread_cond_timedwait`,
to giving it back or to the next wait; with what the function returns, if it does. -/
def uiWaitKey (woken timedOut usbConnected : Bool) (s : KeyState) : Option (KeyState × Option ℤ) :=
  if woken ∧ s.waitKeyBreak then some ({ s with waitKeyBreak := false }, some (-1))
  else if s.keyQueueLen = 0 ∧ (timedOut = false ∨ usbConnected) then some (s, none)
  else if 0 < s.keyQueueLen then s.shift.map fun r => (r.1, some r.2)
  else some (s, some (-1))

def uiWakeKeyWaitingThread (s : KeyState) : KeyState := { s with waitKeyBreak := true }

def uiClearKeyQueue (s : KeyState) : KeyState := { s with keyQueueLen := 0 }

/-! ## Runs -/

/-- The sections that hold the mutex. -/
inductive Section where
  | inputCallback (ev : InputEvent)
  | kbdThread (tested kept : ℤ)
  | uiCancelWaitKey
  | uiGetKey
  | uiWaitKey (woken timedOut usbConnected : Bool)
  | uiWakeKeyWaitingThread
  | uiClearKeyQueue

/-- One section, with what a consumer returns. No result if it leaves `key_queue`. -/
def Section.step (hasCameraKey : Bool) : Section → KeyState → Option (KeyState × Option ℤ)
  | .inputCallback ev, s => (Ui.inputCallback ev s).map (·, none)
  | .kbdThread tested kept, s => (Ui.kbdThread hasCameraKey tested kept s).map (·, none)
  | .uiCancelWaitKey, s => (Ui.uiCancelWaitKey s).map (·, none)
  | .uiGetKey, s => (Ui.uiGetKey s).map fun r => (r.1, some r.2)
  | .uiWaitKey woken timedOut usbConnected, s => Ui.uiWaitKey woken timedOut usbConnected s
  | .uiWakeKeyWaitingThread, s => some (Ui.uiWakeKeyWaitingThread s, none)
  | .uiClearKeyQueue, s => some (Ui.uiClearKeyQueue s, none)

/-- What a section does to the queue, as its callers see it. A consumer that gets no key returns -1.
-/
def Section.event : Section → KeyState → Option ℤ → Option (QueueEvent ℤ)
  | .inputCallback ev, s, _ =>
      if ev.type = evSyn then none else (pressedKey (rollTrackball ev s.relSum).1).map .offer
  | .kbdThread tested _, s, _ =>
      if s.handlingKey = -1 ∨ tested ≠ s.handlingKey ∨ s.firstAccum then none
      else some (.offer s.handlingKey)
  | .uiCancelWaitKey, _, _ => some (.offer cancelKey)
  | .uiGetKey, _, ret => (ret.filter (· ≠ -1)).map .take
  | .uiWaitKey _ _ _, _, ret => (ret.filter (· ≠ -1)).map .take
  | .uiWakeKeyWaitingThread, _, _ => none
  | .uiClearKeyQueue, _, _ => some .clear

/-- One section more, with its event. -/
def record (hasCameraKey : Bool) (r : KeyState × List (QueueEvent ℤ)) (sec : Section) :
    Option (KeyState × List (QueueEvent ℤ)) :=
  (sec.step hasCameraKey r.1).map fun t => (t.1, r.2 ++ (sec.event r.1 t.2).toList)

/-- The sections in the order in which they get the mutex. -/
def runSections (hasCameraKey : Bool) (secs : List Section) :
    Option (KeyState × List (QueueEvent ℤ)) :=
  secs.foldlM (record hasCameraKey) ({}, [])

/-! ## The queue as a list -/

/-- The length is one of a queue in `key_queue`, and no key looks like a missing one. -/
structure KeyState.Inv (s : KeyState) : Prop where
  len_nonneg : 0 ≤ s.keyQueueLen
  len_le : s.keyQueueLen ≤ queueMax
  ne_none : -1 ∉ s.keys

section Keys

variable {s t : KeyState} {key : ℤ}

/-- As many keys wait as `key_queue_len` says. -/
theorem length_keys (s : KeyState) : s.keys.length = s.keyQueueLen.toNat := by
  rw [KeyState.keys, List.length_map, List.length_range]

theorem keys_eq_nil (h : s.keyQueueLen ≤ 0) : s.keys = [] := by
  rw [KeyState.keys, Int.toNat_of_nonpos h]
  rfl

/-- The key goes behind those that wait. -/
theorem append_keys (h : s.append key = some t) : t.keys = s.keys ++ [key] := by
  rw [KeyState.append] at h
  split at h
  · next hroom =>
      cases h
      have hlen : (s.keyQueueLen + 1).toNat = s.keyQueueLen.toNat + 1 := by omega
      rw [KeyState.keys, hlen, List.range_succ, List.map_append]
      congr 1
      · refine List.map_congr_left fun i hi => ?_
        exact Function.update_of_ne (List.mem_range.mp hi).ne _ _
      · simp only [List.map_cons, List.map_nil, Function.update_self]
  · cases h

/-- With room, the key is stored. -/
theorem append_some (key : ℤ) (h : s.Inv) (hroom : s.keyQueueLen < queueMax) :
    ∃ t, s.append key = some t ∧ t.keyQueueLen = s.keyQueueLen + 1 :=
  ⟨_, if_pos ⟨h.len_nonneg, hroom⟩, rfl⟩

/-- Appending a key keeps the invariant. -/
theorem Inv.append (h : s.Inv) (hkey : key ≠ -1) (happend : s.append key = some t) : t.Inv := by
  have hkeys := append_keys happend
  rw [KeyState.append] at happend
  split at happend
  · next hroom =>
      cases happend
      refine ⟨?_, ?_, ?_⟩
      · exact Int.le_add_one h.len_nonneg
      · exact hroom.2
      · rw [hkeys, List.mem_append, not_or, List.mem_singleton]
        exact ⟨h.ne_none, hkey.symm⟩
  · cases happend

/-- The first key is taken off the list. -/
theorem shift_keys (h : s.Inv) (hpos : 0 < s.keyQueueLen) :
    ∃ t key, s.shift = some (t, key) ∧ s.keys = key :: t.keys ∧ t.Inv := by
  obtain ⟨n, hn⟩ : ∃ n : ℕ, s.keyQueueLen = n + 1 := ⟨(s.keyQueueLen - 1).toNat, by omega⟩
  refine ⟨_, _, if_pos ⟨hpos, h.len_le⟩, ?_⟩
  have hkeys : s.keys = s.keyQueue 0 :: (List.range n).map fun i => s.keyQueue (i + 1) := by
    have hlen : s.keyQueueLen.toNat = n + 1 := by omega
    rw [KeyState.keys, hlen, List.range_succ_eq_map, List.map_cons, List.map_map]
    rfl
  -- what `memcpy` has moved
  have hrest : ({ s with
      keyQueue := fun i => if (i : ℤ) < s.keyQueueLen - 1 then s.keyQueue (i + 1) else s.keyQueue i
      keyQueueLen := s.keyQueueLen - 1 } : KeyState).keys =
        (List.range n).map fun i => s.keyQueue (i + 1) := by
    have hlen : (s.keyQueueLen - 1).toNat = n := by omega
    rw [KeyState.keys]
    simp only [hlen]
    refine List.map_congr_left fun i hi => if_pos ?_
    have hi := List.mem_range.mp hi
    omega
  rw [hrest]
  refine ⟨hkeys, ?_, ?_, ?_⟩
  · show 0 ≤ s.keyQueueLen - 1
    omega
  · exact (Int.sub_le_self _ (by decide)).trans h.len_le
  · rw [hrest]
    intro hmem
    exact h.ne_none (hkeys ▸ List.mem_cons_of_mem _ hmem)

/-- Room in the list is room in the array. -/
theorem length_keys_lt_iff (h : s.Inv) : s.keys.length < queueMax ↔ s.keyQueueLen < queueMax := by
  have hnonneg := h.len_nonneg
  rw [length_keys]
  omega

end Keys

/-! ## One section -/

/-- A section keeps the invariant, and what it does to the keys is its event. -/
structure Simulates (s : KeyState) (e : Option (QueueEvent ℤ)) (t : KeyState) : Prop where
  inv : t.Inv
  none_imp : e = none → t.keys = s.keys
  some_imp : ∀ ev, e = some ev → QueueStep queueMax s.keys ev t.keys

section Step

variable {s t : KeyState} {key : ℤ}

/-- Nothing happens to the queue. -/
theorem simulates_none (h : s.Inv) (hqueue : t.keyQueue = s.keyQueue)
    (hlen : t.keyQueueLen = s.keyQueueLen) : Simulates s none t := by
  have hkeys : t.keys = s.keys := by rw [KeyState.keys, KeyState.keys, hqueue, hlen]
  refine ⟨⟨?_, ?_, ?_⟩, fun _ => hkeys, fun _ h => by cases h⟩
  · rw [hlen]
    exact h.len_nonneg
  · rw [hlen]
    exact h.len_le
  · rw [hkeys]
    exact h.ne_none

/-- The test for room drops the key or accepts it. -/
theorem appendIfRoom_simulates (h : s.Inv) (hkey : key ≠ -1) :
    ∃ t, s.appendIfRoom key = some t ∧ Simulates s (some (.offer key)) t := by
  rw [KeyState.appendIfRoom]
  by_cases hroom : s.keyQueueLen < queueMax
  · obtain ⟨t, happend, -⟩ := append_some key h hroom
    rw [if_pos hroom]
    refine ⟨t, happend, Inv.append h hkey happend, nofun, ?_⟩
    rintro ev ⟨⟩
    rw [append_keys happend]
    exact .accept ((length_keys_lt_iff h).mpr hroom)
  · -- the key is dropped
    rw [if_neg hroom]
    refine ⟨s, rfl, h, nofun, ?_⟩
    rintro ev ⟨⟩
    exact .drop (Nat.not_lt.mp (mt (length_keys_lt_iff h).mp hroom))

/-- A pressed key is never the "no key" of the queue. -/
theorem pressedKey_ne {ev : InputEvent} (h : pressedKey ev = some key) : key ≠ -1 := by
  rw [pressedKey] at h
  split_ifs at h
  cases h
  omega

/-- `input_callback` offers the key of its event, if there is one. -/
theorem inputCallback_simulates (ev : InputEvent) (h : s.Inv) :
    ∃ t, inputCallback ev s = some t ∧ Simulates s ((Section.inputCallback ev).event s none) t := by
  rw [inputCallback, Section.event]
  by_cases hsyn : ev.type = evSyn
  · rw [if_pos hsyn, if_pos hsyn]
    exact ⟨s, rfl, simulates_none h rfl rfl⟩
  rw [if_neg hsyn, if_neg hsyn]
  have hrolled : ({ s with relSum := (rollTrackball ev s.relSum).2 } : KeyState).Inv := ⟨h.1, h.2, h.3⟩
  simp only
  cases hkey : pressedKey (rollTrackball ev s.relSum).1 with
  | none => exact ⟨_, rfl, simulates_none h rfl rfl⟩
  | some key =>
      -- the trackball does not change the keys
      obtain ⟨t, happend, hsim⟩ := appendIfRoom_simulates hrolled (pressedKey_ne hkey)
      exact ⟨t, happend, hsim.inv, hsim.none_imp, hsim.some_imp⟩

/-- `kbd_thread` offers a key that is held down. -/
theorem kbdThread_simulates (hasCameraKey : Bool) (tested kept : ℤ) (h : s.Inv) :
    ∃ t, kbdThread hasCameraKey tested kept s = some t ∧
      Simulates s ((Section.kbdThread tested kept).event s none) t := by
  rw [kbdThread, Section.event]
  by_cases hhandling : s.handlingKey = -1
  · -- a key may be picked up
    have hquiet : s.handlingKey = -1 ∨ tested ≠ s.handlingKey ∨ s.firstAccum = true := .inl hhandling
    rw [if_neg (not_not.mpr hhandling), if_pos hquiet]
    split
    · exact ⟨_, rfl, simulates_none h rfl rfl⟩
    · exact ⟨_, rfl, simulates_none h rfl rfl⟩
  rw [if_pos hhandling]
  by_cases hup : tested = -1 ∨ tested ≠ s.handlingKey
  · -- the key is no longer down
    have hother : tested ≠ s.handlingKey := by
      rcases hup with rfl | hother
      · exact Ne.symm hhandling
      · exact hother
    rw [if_pos hup, if_pos (.inr (.inl hother))]
    exact ⟨_, rfl, simulates_none h rfl rfl⟩
  rw [if_neg hup]
  by_cases hfirst : s.firstAccum = true
  · rw [if_pos hfirst, if_pos (.inr (.inr hfirst))]
    exact ⟨_, rfl, simulates_none h rfl rfl⟩
  · rw [if_neg hfirst, if_neg]
    · exact appendIfRoom_simulates h hhandling
    · rintro (h' | h' | h')
      · exact hhandling h'
      · exact hup (.inr h')
      · exact hfirst h'

/-- Taking the first key moves the others up. -/
theorem shift_simulates (h : s.Inv) (hpos : 0 < s.keyQueueLen) :
    ∃ t key, s.shift = some (t, key) ∧ s.keys.head? = some key ∧
      Simulates s (((some key).filter (· ≠ -1)).map .take) t := by
  obtain ⟨t, key, hshift, hkeys, hinv⟩ := shift_keys h hpos
  have hne : key ≠ -1 := by
    rintro rfl
    exact h.ne_none (hkeys ▸ List.mem_cons_self)
  have hevent : ((some key).filter (· ≠ -1)).map QueueEvent.take = some (.take key) := by simp [hne]
  refine ⟨t, key, hshift, by rw [hkeys]; rfl, ?_⟩
  rw [hevent]
  refine ⟨hinv, nofun, ?_⟩
  rintro ev ⟨⟩
  rw [hkeys]
  exact .take

/-- `ui_get_key` takes the first key, and returns -1 if there is none. -/
theorem uiGetKey_simulates (h : s.Inv) :
    ∃ t key, uiGetKey s = some (t, key) ∧ key = s.keys.headD (-1) ∧
      Simulates s (Section.uiGetKey.event s (some key)) t := by
  rw [uiGetKey]
  by_cases hlen : s.keyQueueLen = 0
  · rw [if_neg (not_not.mpr hlen), keys_eq_nil hlen.le]
    exact ⟨s, -1, rfl, rfl, simulates_none h rfl rfl⟩
  · rw [if_pos hlen]
    obtain ⟨t, key, hshift, hhead, hsim⟩ :=
      shift_simulates h (lt_of_le_of_ne h.len_nonneg (Ne.symm hlen))
    refine ⟨t, key, hshift, ?_, hsim⟩
    rw [List.headD_eq_head?_getD, hhead, Option.getD_some]

/-- `ui_wait_key` returns the first key unless it was woken or timed out. -/
theorem uiWaitKey_simulates (woken timedOut usbConnected : Bool) (h : s.Inv) :
    ∃ t ret, uiWaitKey woken timedOut usbConnected s = some (t, ret) ∧
      (woken = false → s.keys ≠ [] → ret = s.keys.head?) ∧
      Simulates s ((Section.uiWaitKey woken timedOut usbConnected).event s ret) t := by
  rw [uiWaitKey]
  by_cases hbreak : woken = true ∧ s.waitKeyBreak = true
  · -- the wait is broken off, and the keys stay
    rw [if_pos hbreak]
    refine ⟨_, _, rfl, fun hwoken => ?_, simulates_none h rfl rfl⟩
    rw [hbreak.1] at hwoken
    cases hwoken
  rw [if_neg hbreak]
  by_cases hwait : s.keyQueueLen = 0 ∧ (timedOut = false ∨ usbConnected = true)
  · rw [if_pos hwait]
    exact ⟨_, _, rfl, fun _ hne => absurd (keys_eq_nil hwait.1.le) hne, simulates_none h rfl rfl⟩
  rw [if_neg hwait]
  by_cases hpos : 0 < s.keyQueueLen
  · obtain ⟨t, key, hshift, hhead, hsim⟩ := shift_simulates h hpos
    rw [if_pos hpos, hshift]
    exact ⟨t, some key, rfl, fun _ _ => hhead.symm, hsim⟩
  · rw [if_neg hpos]
    exact ⟨s, _, rfl, fun _ hne => absurd (keys_eq_nil (not_lt.mp hpos)) hne, simulates_none h rfl rfl⟩

/-- `ui_clear_key_queue` takes all keys away. -/
theorem uiClearKeyQueue_simulates (s : KeyState) :
    Simulates s (some .clear) (uiClearKeyQueue s) := by
  have hkeys : (uiClearKeyQueue s).keys = [] := keys_eq_nil le_rfl
  refine ⟨⟨le_rfl, Int.natCast_nonneg _, ?_⟩, nofun, ?_⟩
  · rw [hkeys]
    exact List.not_mem_nil
  · rintro ev ⟨⟩
    rw [hkeys]
    exact .clear

/-- Only `ui_cancel_wait_key` appends without a test for room. -/
theorem step_cancel (hasCameraKey : Bool) (h : s.Inv) :
    Section.uiCancelWaitKey.step hasCameraKey s = none ↔ ¬ s.keyQueueLen < queueMax := by
  rw [Section.step, Option.map_eq_none_iff, uiCancelWaitKey]
  constructor
  · intro hnone hroom
    obtain ⟨t, happend, -⟩ := append_some cancelKey h hroom
    rw [hnone] at happend
    cases happend
  · exact fun hfull => if_neg fun hroom => hfull hroom.2

/-- A section that stays inside `key_queue` found room for the key that it appends without a test.
-/
theorem room_of_step {hasCameraKey : Bool} {sec : Section} {ret : Option ℤ} (h : s.Inv)
    (hstep : sec.step hasCameraKey s = some (t, ret)) (hcancel : sec = .uiCancelWaitKey) :
    s.keyQueueLen < queueMax := by
  subst hcancel
  by_contra hfull
  rw [(step_cancel hasCameraKey h).mpr hfull] at hstep
  cases hstep

/-- Each section does to the list of keys what its event says. -/
theorem step_simulates (hasCameraKey : Bool) (sec : Section) (h : s.Inv)
    (hroom : sec = .uiCancelWaitKey → s.keyQueueLen < queueMax) :
    ∃ t ret, sec.step hasCameraKey s = some (t, ret) ∧ Simulates s (sec.event s ret) t := by
  cases sec with
  | inputCallback ev =>
      obtain ⟨t, hstep, hsim⟩ := inputCallback_simulates ev h
      exact ⟨t, none, by rw [Section.step, hstep]; rfl, hsim⟩
  | kbdThread tested kept =>
      obtain ⟨t, hstep, hsim⟩ := kbdThread_simulates hasCameraKey tested kept h
      exact ⟨t, none, by rw [Section.step, hstep]; rfl, hsim⟩
  | uiCancelWaitKey =>
      obtain ⟨t, happend, -⟩ := append_some cancelKey h (hroom rfl)
      refine ⟨t, none, by rw [Section.step, uiCancelWaitKey, happend]; rfl, ?_⟩
      refine ⟨Inv.append h (by decide) happend, nofun, ?_⟩
      rintro ev ⟨⟩
      rw [append_keys happend]
      exact .accept ((length_keys_lt_iff h).mpr (hroom rfl))
  | uiGetKey =>
      obtain ⟨t, key, hstep, -, hsim⟩ := uiGetKey_simulates h
      exact ⟨t, some key, by rw [Section.step, hstep]; rfl, hsim⟩
  | uiWaitKey woken timedOut usbConnected =>
      obtain ⟨t, ret, hstep, -, hsim⟩ := uiWaitKey_simulates woken timedOut usbConnected h
      exact ⟨t, ret, hstep, hsim⟩
  | uiWakeKeyWaitingThread => exact ⟨_, none, rfl, simulates_none h rfl rfl⟩
  | uiClearKeyQueue => exact ⟨_, none, rfl, uiClearKeyQueue_simulates s⟩

end Step

/-! ## All interleavings -/

section Runs

variable {hasCameraKey : Bool} {secs : List Section} {s t : KeyState} {es : List (QueueEvent ℤ)}

/-- One section more. -/
theorem runSections_concat (secs : List Section) (sec : Section) :
    runSections hasCameraKey (secs ++ [sec]) =
      (runSections hasCameraKey secs).bind fun r => record hasCameraKey r sec := by
  rw [runSections, List.foldlM_append]
  refine congrArg (Option.bind _) (funext fun r => ?_)
  exact bind_pure (record hasCameraKey r sec)

/-- A run keeps the invariant, and its events are a run of the queue. -/
theorem run_simulates (hrun : runSections hasCameraKey secs = some (s, es)) :
    s.Inv ∧ QueueRun queueMax [] es s.keys := by
  induction secs using List.reverseRecOn generalizing s es with
  | nil =>
      cases hrun
      exact ⟨⟨le_rfl, Int.natCast_nonneg _, List.not_mem_nil⟩, .nil⟩
  | append_singleton secs sec ih =>
      rw [runSections_concat] at hrun
      obtain ⟨⟨u, fs⟩, hfirst, hlast⟩ := Option.bind_eq_some_iff.mp hrun
      obtain ⟨hinv, hqueue⟩ := ih hfirst
      obtain ⟨⟨t, ret⟩, hstep, heq⟩ := Option.map_eq_some_iff.mp hlast
      cases heq
      obtain ⟨t', ret', hstep', hsim⟩ :=
        step_simulates hasCameraKey sec hinv (room_of_step hinv hstep)
      cases hstep.symm.trans hstep'
      refine ⟨hsim.inv, ?_⟩
      cases hevent : sec.event u ret with
      | none =>
          simp only [Option.toList_none, List.append_nil]
          rw [hsim.none_imp hevent]
          exact hqueue
      | some ev => exact .snoc hqueue (hsim.some_imp ev hevent)

/-- The state after some sections: the length is in range, what the consumers have received since
the last clear is what was enqueued without the keys in the queue, and the first of these is the
next one that a consumer gets. -/
structure Delivers (s : KeyState) (es : List (QueueEvent ℤ)) : Prop where
  len_nonneg : 0 ≤ s.keyQueueLen
  len_le : s.keyQueueLen ≤ queueMax
  balanced : (ledgerOf queueMax es).Balanced s.keys
  getKey : ∃ t, uiGetKey s = some (t, s.keys.headD (-1))
  waitKey : s.keys ≠ [] → ∀ timedOut usbConnected,
    ∃ t, uiWaitKey false timedOut usbConnected s = some (t, s.keys.head?)

/-- In every run, the keys that were accepted are those delivered, cleared and waiting. Induction on
the sections. -/
theorem run_delivers (hrun : runSections hasCameraKey secs = some (s, es)) : Delivers s es := by
  obtain ⟨hinv, hqueue⟩ := run_simulates hrun
  refine ⟨hinv.len_nonneg, hinv.len_le, hqueue.balanced.1, ?_, fun hne timedOut usbConnected => ?_⟩
  · obtain ⟨t, key, hget, rfl, -⟩ := uiGetKey_simulates hinv
    exact ⟨t, hget⟩
  · obtain ⟨t, ret, hwait, hret, -⟩ := uiWaitKey_simulates false timedOut usbConnected hinv
    rw [hret rfl hne] at hwait
    exact ⟨t, hwait⟩

end Runs

/-- After each part of the run. -/
def AlwaysDelivers (hasCameraKey : Bool) (secs : List Section) : Prop :=
  ∀ done, done <+: secs → ∃ s es, runSections hasCameraKey done = some (s, es) ∧ Delivers s es

/-- The queue is a bounded FIFO in every interleaving in which no wait is cancelled while it is
full, and in no other. -/
theorem keys_delivered_iff (hasCameraKey : Bool) (secs : List Section) :
    AlwaysDelivers hasCameraKey secs ↔
      ∀ done s es, done ++ [.uiCancelWaitKey] <+: secs →
        runSections hasCameraKey done = some (s, es) → s.keyQueueLen < queueMax := by
  constructor
  · intro h done s es hbegins hrun
    by_contra hfull
    obtain ⟨t, fs, hcancel, -⟩ := h _ hbegins
    have hnone := (step_cancel hasCameraKey (run_simulates hrun).1).mpr hfull
    rw [runSections_concat, hrun, Option.bind_some, record, hnone] at hcancel
    cases hcancel
  · intro h done hdone
    suffices hsome : ∃ s es, runSections hasCameraKey done = some (s, es) by
      obtain ⟨s, es, hrun⟩ := hsome
      exact ⟨s, es, hrun, run_delivers hrun⟩
    induction done using List.reverseRecOn with
    | nil => exact ⟨_, _, rfl⟩
    | append_singleton done sec ih =>
        obtain ⟨s, es, hrun⟩ := ih ((List.prefix_append done [sec]).trans hdone)
        have hroom : sec = .uiCancelWaitKey → s.keyQueueLen < queueMax := by
          rintro rfl
          exact h done s es hdone hrun
        obtain ⟨t, ret, hstep, -⟩ := step_simulates hasCameraKey sec (run_simulates hrun).1 hroom
        refine ⟨t, es ++ (sec.event s ret).toList, ?_⟩
        rw [runSections_concat, hrun, Option.bind_some, record, hstep]
        rfl

/-- 256 presses of a key while nobody takes any, and then a wait is cancelled. -/
theorem full_cancel_not_delivered :
    ¬ AlwaysDelivers true (List.replicate 256 (.inputCallback ⟨evKey, 30, 1⟩) ++ [.uiCancelWaitKey]) := by
  intro h
  obtain ⟨s, es, hrun, -⟩ := h _ (List.prefix_refl _)
  have hnone : (runSections true
      (List.replicate 256 (.inputCallback ⟨evKey, 30, 1⟩) ++ [.uiCancelWaitKey])).isNone = true := by
    decide +kernel
  rw [hrun] at hnone
  cases hnone

end OpenRecovery.Ui
