import OpenRecovery.Recovery.MenuSelection

/-!
# The screen and its timer

`screen_off_timer` is also the record of whether the screen is on. A key that is dropped turns the
screen on and leaves the timer as it is, so the two disagree up to the head of the loop; nothing but
`get_menu_selection` itself looks at the timer there (`TimerAgrees`). Outside of a call the timer is
off, so `battery_thread` never turns the screen off there (`screen_follows_timer`).
-/

set_option autoImplicit false

namespace OpenRecovery.Recovery

open OpenRecovery.Storage OpenRecovery.Ui

/-- The timer is off and the screen is on. -/
def MenuState.Awake (s : MenuState) : Prop :=
  s.screenOn = true ∧ s.screenOffTimer = screenTimeoutTimerOff

/-- The timer says whether the screen is on. -/
def MenuState.Agrees (s : MenuState) : Prop :=
  s.screenOn = false ↔ s.screenOffTimer = screenTimeoutScreenOff

/-- What holds of the timer at each place of a call. -/
def TimerAgrees (s : MenuState) : Prop :=
  match s.place with
  | .notCalled | .handling _ | .returned _ => s.Awake
  | .waiting | .got _ => s.Agrees ∧ s.call.keyTimeout = false
  | .head => if s.call.keyTimeout then s.Agrees else s.screenOn = true ∧ s.screenOffTimer < 0

section Steps

variable {hasCameraKey : Bool} {s t : MenuState}

/-- A screen that was just switched on agrees with its timer. -/
theorem MenuState.Awake.agrees (h : s.Awake) : s.Agrees := by
  rw [MenuState.Agrees, h.1, h.2]
  decide

/-- With a timer that is running, the screen is on. -/
theorem MenuState.Agrees.screenOn (h : s.Agrees) (hon : s.screenOffTimer ≠ screenTimeoutScreenOff) :
    s.screenOn = true := Bool.eq_true_of_not_eq_false (mt h.mp hon)

/-- The battery thread does not move the menu thread. -/
theorem batteryThread_place (s : MenuState) : (batteryThread s).place = s.place := by
  simp only [batteryThread]
  split_ifs
  all_goals rfl

/-- Nor does it call anything for it. -/
theorem batteryThread_call (s : MenuState) : (batteryThread s).call = s.call := by
  simp only [batteryThread]
  split_ifs
  all_goals rfl

/-- The timer runs only while it is not negative. -/
theorem batteryThread_idle (h : s.screenOffTimer < 0) : batteryThread s = s := by
  have hne : s.screenOffTimer ≠ 15 := by omega
  simp only [batteryThread, if_neg (not_le.mpr h), if_neg hne]

/-- It keeps screen and timer in step. -/
theorem batteryThread_agrees (h : s.Agrees) : (batteryThread s).Agrees := by
  by_cases hidle : s.screenOffTimer < 0
  · rwa [batteryThread_idle hidle]
  · have htimer := not_lt.mp hidle
    simp only [batteryThread, if_pos htimer]
    split
    · -- the screen is turned off
      exact iff_of_true rfl rfl
    · have hstopped : ∀ timer : ℤ, 0 ≤ timer → timer ≠ screenTimeoutScreenOff := by
        intro timer htimer
        rw [screenTimeoutScreenOff]
        omega
      exact iff_of_false (mt h.mp (hstopped _ htimer)) (hstopped (s.screenOffTimer + 1) (by omega))

/-- The same at each place of the menu thread. -/
theorem batteryThread_timerAgrees (h : TimerAgrees s) : TimerAgrees (batteryThread s) := by
  have hawake : s.Awake → (batteryThread s).Awake := fun hs => by
    rwa [batteryThread_idle (by rw [hs.2]; decide)]
  rw [TimerAgrees] at h
  rw [TimerAgrees, batteryThread_place, batteryThread_call]
  cases hplace : s.place with
  | notCalled => exact hawake (by simpa only [hplace] using h)
  | handling key => exact hawake (by simpa only [hplace] using h)
  | returned item => exact hawake (by simpa only [hplace] using h)
  | waiting =>
      simp only [hplace] at h
      exact ⟨batteryThread_agrees h.1, h.2⟩
  | got key =>
      simp only [hplace] at h
      exact ⟨batteryThread_agrees h.1, h.2⟩
  | head =>
      simp only [hplace] at h ⊢
      by_cases htimeout : s.call.keyTimeout = true
      · rw [if_pos htimeout] at h ⊢
        exact batteryThread_agrees h
      · rw [if_neg htimeout] at h ⊢
        rwa [batteryThread_idle h.2]

/-- A step of another thread. -/
theorem OtherThread.timerAgrees (hstep : OtherThread s t) (h : TimerAgrees s) : TimerAgrees t := by
  cases hstep with
  | battery => exact batteryThread_timerAgrees h
  | print formatted hprint => exact h

/-- The head of the loop. -/
theorem loopHead_timerAgrees (hplace : s.place = .head) (h : TimerAgrees s) :
    TimerAgrees (loopHead s) := by
  rw [TimerAgrees] at h
  simp only [hplace] at h
  rw [loopHead]
  by_cases htimeout : s.call.keyTimeout = true
  · rw [if_pos htimeout] at h ⊢
    exact ⟨h, rfl⟩
  · -- the screen is on, and the timer starts
    rw [if_neg htimeout] at h ⊢
    have hon : s.screenOn ≠ false := by
      rw [h.1]
      decide
    have hstarted : (0 : ℤ) ≠ screenTimeoutScreenOff := by decide
    exact ⟨iff_of_false hon hstarted, Bool.eq_false_of_not_eq_true htimeout⟩

/-- The body of the loop, with a key. -/
theorem takeKey_timerAgrees {key : ℤ} (hplace : s.place = .got key) (h : TimerAgrees s) :
    TimerAgrees (takeKey key s) := by
  rw [TimerAgrees] at h
  simp only [hplace] at h
  obtain ⟨hagrees, htimeout⟩ := h
  rw [takeKey]
  by_cases hcancel : key = cancelKey
  · rw [if_pos hcancel]
    refine ⟨?_, rfl⟩
    show (if s.screenOffTimer = screenTimeoutScreenOff then true else s.screenOn) = true
    split
    · rfl
    · next hon => exact hagrees.screenOn hon
  rw [if_neg hcancel]
  by_cases hnokey : key < 0
  · rw [if_pos hnokey]
    exact hagrees
  rw [if_neg hnokey]
  by_cases hoff : s.screenOffTimer = screenTimeoutScreenOff
  · -- on again, while the timer still says off
    rw [if_pos hoff]
    simp only [TimerAgrees, htimeout, Bool.false_eq_true, if_false, hoff]
    decide
  · rw [if_neg hoff]
    exact ⟨hagrees.screenOn hoff, rfl⟩

/-- Whatever a key does, the timer is off then. -/
theorem finishKey_timerAgrees {key : ℤ} {r : KeyResult} (hplace : s.place = .handling key)
    (h : TimerAgrees s) (hfinish : finishKey s r = some t) : TimerAgrees t := by
  rw [TimerAgrees] at h
  simp only [hplace] at h
  -- back at the head of the loop, with the screen on
  have hhead : if s.call.keyTimeout = true then s.Agrees
      else s.screenOn = true ∧ s.screenOffTimer < 0 := by
    split
    · exact h.agrees
    · exact ⟨h.1, by rw [h.2]; decide⟩
  cases r with
  | next selected ui =>
      cases hfinish
      exact hhead
  | chosen item =>
      cases hfinish
      by_cases hitem : item < 0
      · simp only [TimerAgrees, if_pos hitem]
        exact hhead
      · simp only [TimerAgrees, if_neg hitem]
        exact h
  | outside => cases hfinish
  | running => cases hfinish

/-- A step of the menu thread. -/
theorem MenuThread.timerAgrees (hstep : MenuThread hasCameraKey s t) (h : TimerAgrees s) :
    TimerAgrees t := by
  cases hstep with
  | call headers c titleLength startSel menuOnly n hplace hstart hmenu =>
      rw [TimerAgrees] at h
      simp only [hplace] at h
      exact ⟨h.1, by show s.screenOffTimer < 0; rw [h.2]; decide⟩
  | head hplace => exact loopHead_timerAgrees hplace h
  | wait key hplace =>
      rw [TimerAgrees] at h
      simp only [hplace] at h
      exact h
  | take hplace => exact takeKey_timerAgrees hplace h
  | handle visible n hplace hfinish => exact finishKey_timerAgrees hplace h hfinish
  | leave hplace =>
      rw [TimerAgrees] at h
      simp only [hplace] at h
      exact h
  | endMenu hplace =>
      rw [TimerAgrees] at h ⊢
      simp only [hplace] at h ⊢
      exact h

/-- Any number of steps of either. -/
theorem MenuState.Reachable.timerAgrees (h : s.Reachable hasCameraKey) : TimerAgrees s := by
  induction h with
  | boot rows cols => exact ⟨rfl, rfl⟩
  | step _ hstep ih =>
      rcases hstep with hmenu | hother
      · exact hmenu.timerAgrees ih
      · exact hother.timerAgrees ih

end Steps

/-! ## Keys taken while the screen is off -/

/-- Steps of the other threads only. -/
abbrev Meanwhile : MenuState → MenuState → Prop := Relation.ReflTransGen OtherThread

/-- While the screen is off, the other threads change nothing but the log. -/
theorem OtherThread.asleep {s t : MenuState} (hstep : OtherThread s t)
    (hoff : s.screenOffTimer = screenTimeoutScreenOff) :
    t.screenOffTimer = screenTimeoutScreenOff ∧ t.call = s.call ∧ t.place = s.place := by
  cases hstep with
  | battery =>
      rw [batteryThread_idle (by rw [hoff]; decide)]
      exact ⟨hoff, rfl, rfl⟩
  | print formatted hprint => exact ⟨hoff, rfl, rfl⟩

/-- While the menu thread waits, the screen stays off. -/
theorem Meanwhile.asleep {s t : MenuState} (h : Meanwhile s t)
    (hoff : s.screenOffTimer = screenTimeoutScreenOff) :
    t.screenOffTimer = screenTimeoutScreenOff ∧ t.call = s.call ∧ t.place = s.place := by
  induction h with
  | refl => exact ⟨hoff, rfl, rfl⟩
  | tail _ hstep ih =>
      obtain ⟨hoff', hcall, hplace⟩ := ih
      obtain ⟨hoff'', hcall', hplace'⟩ := hstep.asleep hoff'
      exact ⟨hoff'', hcall'.trans hcall, hplace'.trans hplace⟩

/-- The key does nothing but turn the screen on: when the section behind `ui_wait_key` is over, the
call is at the head of its loop with the same selection. -/
def OnlyWakes (hasCameraKey : Bool) (s : MenuState) (key : ℤ) : Prop :=
  ∀ t u, Meanwhile { s with place := .got key } t → MenuThread hasCameraKey t u →
    u.screenOn = true ∧ u.place = .head ∧ u.call = s.call ∧ u.ui = t.ui

/-- A key that comes while the screen is off does nothing else. -/
theorem onlyWakes_of_off {hasCameraKey : Bool} {s : MenuState} {key : ℤ} (hkey : 0 ≤ key)
    (hoff : s.screenOffTimer = screenTimeoutScreenOff) : OnlyWakes hasCameraKey s key := by
  intro t u hmeanwhile hstep
  obtain ⟨hoff', hcall, hplace⟩ := hmeanwhile.asleep hoff
  -- a call that has got its key can only go on with it
  have hu : u = takeKey key t := by
    cases hstep with
    | take hplace' =>
        cases hplace.symm.trans hplace'
        rfl
    | call headers c titleLength startSel menuOnly n hplace' => cases hplace.symm.trans hplace'
    | head hplace' => cases hplace.symm.trans hplace'
    | wait key hplace' => cases hplace.symm.trans hplace'
    | handle visible n hplace' => cases hplace.symm.trans hplace'
    | leave hplace' => cases hplace.symm.trans hplace'
    | endMenu hplace' => cases hplace.symm.trans hplace'
  have hcancel : key ≠ cancelKey := by
    rw [cancelKey]
    omega
  rw [hu, takeKey, if_neg hcancel, if_neg (not_lt.mpr hkey), if_pos hoff']
  exact ⟨rfl, rfl, hcall, rfl⟩

/-- In `ui_wait_key` the screen is off exactly if the timer says so, a key that is taken then only
turns it on, and outside of the loop the screen is on and the timer is off. -/
theorem screen_follows_timer {hasCameraKey : Bool} {s : MenuState} (h : s.Reachable hasCameraKey) :
    (s.place = .waiting →
        (s.screenOn = false ↔ s.screenOffTimer = screenTimeoutScreenOff) ∧
          (s.screenOn = false → ∀ key, 0 ≤ key → OnlyWakes hasCameraKey s key)) ∧
      (s.place = .notCalled ∨ (∃ chosenItem, s.place = .returned chosenItem) →
        s.screenOn = true ∧ s.screenOffTimer = screenTimeoutTimerOff) := by
  have hagrees := h.timerAgrees
  rw [TimerAgrees] at hagrees
  constructor
  · intro hplace
    simp only [hplace] at hagrees
    exact ⟨hagrees.1, fun hoff key hkey => onlyWakes_of_off hkey (hagrees.1.mp hoff)⟩
  · rintro (hplace | ⟨chosenItem, hplace⟩)
    · simp only [hplace] at hagrees
      exact hagrees
    · simp only [hplace] at hagrees
      exact hagrees

namespace Sample

/-- A menu of one item on a screen without rows. -/
def oneItem : Choices := ⟨[cstr "No"], [1], rfl⟩

/-- In `ui_wait_key`, and the timer has run out. -/
def asleep : MenuState :=
  batteryThread^[15] (loopHead (called (booted 0 0) oneItem false 0 (uiInit 0 0)))

theorem asleep_reachable : asleep.Reachable true := by
  have hmenu : uiStartMenu [] oneItem.items 0 0 (uiInit 0 0) = some (uiInit 0 0) :=
    startMenu_off (by decide)
  have hcalled : (called (booted 0 0) oneItem false 0 (uiInit 0 0)).Reachable true :=
    .step (.boot 0 0) (.inl (.call [] oneItem 0 0 false 1 rfl rfl hmenu))
  -- fifteen ticks of the battery thread
  have hticks : ∀ n s, MenuState.Reachable true s → (batteryThread^[n] s).Reachable true := by
    intro n
    induction n with
    | zero => exact fun s hs => hs
    | succ n ih => exact fun s hs => ih _ (.step hs (.inr (.battery s)))
  exact hticks 15 _ (.step hcalled (.inl (.head rfl)))

theorem asleep_wakes :
    asleep.screenOn = false ∧ ∀ key, 0 ≤ key → OnlyWakes true asleep key :=
  ⟨rfl, ((screen_follows_timer asleep_reachable).1 rfl).2 rfl⟩

end Sample

end OpenRecovery.Recovery
