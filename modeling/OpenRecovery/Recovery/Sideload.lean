import Mathlib.Logic.Relation
import OpenRecovery.Ui.KeyQueue

/-!
# The cancel token of a sideload

`sideload_package` starts the sideloader and `adb_sideload_thread`, and shows a menu with the single
item "Cancel". When the sideloader exits, the thread puts the token `-2` into the key queue, which
ends the menu (`ui_cancel_wait_key`). The main thread, the thread, the sideloader and the keyboard
take their steps in any order; the menu loops of the rest of the recovery are `elsewhere`.

The menu begins by clearing the key queue. A token that is there by then is lost: `cancel_kept` says
that it is kept if it comes after that, and into a queue that is not full. The queue of a state is
the list of the keys in `key_queue` (`step_keys`).
-/

set_option autoImplicit false

namespace OpenRecovery.Recovery.Sideload

open OpenRecovery.Storage
open OpenRecovery.Ui (KeyState cancelKey menuHandleKey queueMax room_of_step selectItem step_simulates)

/-- Where the main thread is. `menu` stands for `ui_wait_key` in the loop of `get_menu_selection`,
`handling` for the rest of its body, and the number is what the menu has returned. -/
inductive Main where
  | elsewhere
  | starting
  | menu
  | handling (key : Int)
  | chosen (item : Int)
  | killed (item : Int)
  | joined (item : Int)
  deriving DecidableEq

/-- `adb_sideload_thread`: before it exists, in `waitpid`, before `ui_cancel_wait_key`, after. -/
inductive Thread where
  | absent
  | waiting
  | reaped
  | finished
  deriving DecidableEq

structure State where
  queue : List Int
  main : Main
  thread : Thread
  /-- Has the sideloader exited? -/
  exited : Bool
  /-- Was the token written outside the array? -/
  overrun : Bool
  deriving DecidableEq

/-- The steps. A key comes from the input thread or the thread for long presses; `endWait` is the
end of `ui_wait_key` without a key. -/
inductive Action where
  | key (code : Nat)
  | otherKey
  | otherClear
  | begin
  | clearQueue
  | waitKey
  | endWait
  | handle (screenOff visible : Bool)
  | exit
  | reap
  | cancel
  | kill
  | join
  | finish

section Steps

variable (hasCameraKey : Bool)

/-- What the menu loop does with a key: a key while the screen is off is dropped, and the only item
stays selected. -/
def menuStep (key : Int) (screenOff visible : Bool) : Main :=
  if screenOff then .menu
  else if menuHandleKey hasCameraKey key visible = selectItem then .chosen 0
  else .menu

/-- One step, or `none` where it is not possible. -/
def step (s : State) : Action → Option State
  | .key code =>
      if s.queue.length < queueMax then some { s with queue := s.queue ++ [(code : Int)] }
      else some s
  | .otherKey =>
      if s.main = .elsewhere then some { s with queue := s.queue.tail } else none
  | .otherClear =>
      if s.main = .elsewhere then some { s with queue := [] } else none
  | .begin =>
      if s.main = .elsewhere then
        some { s with main := .starting, thread := .waiting, exited := false }
      else none
  | .clearQueue =>
      if s.main = .starting then some { s with queue := [], main := .menu } else none
  | .waitKey =>
      match s.main, s.queue with
      | .menu, key :: queue =>
          some { s with
            queue := queue
            main := if key = cancelKey then .chosen (-1) else .handling key }
      | _, _ => none
  | .endWait => if s.main = .menu then some s else none
  | .handle screenOff visible =>
      match s.main with
      | .handling key => some { s with main := menuStep hasCameraKey key screenOff visible }
      | _ => none
  | .exit => some { s with exited := true }
  | .reap =>
      if s.thread = .waiting ∧ s.exited = true then some { s with thread := .reaped } else none
  | .cancel =>
      if s.thread = .reaped then
        if s.queue.length < queueMax then
          some { s with queue := s.queue ++ [cancelKey], thread := .finished }
        else some { s with thread := .finished, overrun := true }
      else none
  | .kill =>
      match s.main with
      | .chosen item => some { s with main := .killed item }
      | _ => none
  | .join =>
      match s.main with
      | .killed item => if s.thread = .finished then some { s with main := .joined item } else none
      | _ => none
  | .finish =>
      match s.main with
      | .joined _ => some { s with queue := [], main := .elsewhere }
      | _ => none

/-- The runs whose steps all meet a condition. -/
def Run (cond : State → Action → Prop) : State → State → Prop :=
  Relation.ReflTransGen fun s t => ∃ a, cond s a ∧ step hasCameraKey s a = some t

end Steps

/-! ## The queue -/

/-- What an action does to the queue. -/
def Action.event (s : State) : Action → Option (QueueEvent Int)
  | .key code => some (.offer code)
  | .otherKey => s.queue.head?.map .take
  | .waitKey => s.queue.head?.map .take
  | .otherClear => some .clear
  | .clearQueue => some .clear
  | .finish => some .clear
  | .cancel => some (.offer cancelKey)
  | _ => none

theorem queueStep_offer (queue : List Int) (key : Int) :
    QueueStep queueMax queue (.offer key)
      (if queue.length < queueMax then queue ++ [key] else queue) := by
  split
  · next hroom => exact .accept hroom
  · next hfull => exact .drop (Nat.not_lt.mp hfull)

/-- The first key is taken, if there is one. -/
theorem queueStep_tail {queue : List Int} {e : QueueEvent Int} (h : queue.head?.map .take = some e) :
    QueueStep queueMax queue e queue.tail := by
  cases queue with
  | nil => cases h
  | cons key queue =>
      cases h
      exact .take

/-- A step does its event to the queue, or nothing. -/
theorem step_event {hasCameraKey : Bool} {s t : State} {a : Action}
    (hstep : step hasCameraKey s a = some t) :
    (a.event s = none → t.queue = s.queue) ∧
      ∀ e, a.event s = some e → QueueStep queueMax s.queue e t.queue := by
  cases a with
  | key code =>
      refine ⟨nofun, ?_⟩
      rintro e ⟨⟩
      have hqueue := queueStep_offer s.queue code
      simp only [step] at hstep
      split_ifs at hstep hqueue
      · cases hstep
        exact hqueue
      · cases hstep
        exact hqueue
  | otherKey =>
      simp only [step] at hstep
      split_ifs at hstep
      cases hstep
      refine ⟨fun hnone => ?_, fun e => queueStep_tail⟩
      rw [Action.event, Option.map_eq_none_iff, List.head?_eq_none_iff] at hnone
      simp only [hnone, List.tail_nil]
  | waitKey =>
      simp only [step] at hstep
      split at hstep
      · next key queue _ hqueue =>
          cases hstep
          simp only [Action.event, hqueue, List.head?_cons, Option.map_some]
          refine ⟨nofun, ?_⟩
          rintro e ⟨⟩
          exact .take
      · cases hstep
  | otherClear =>
      simp only [step] at hstep
      split_ifs at hstep
      cases hstep
      exact ⟨nofun, by rintro e ⟨⟩; exact .clear⟩
  | clearQueue =>
      simp only [step] at hstep
      split_ifs at hstep
      cases hstep
      exact ⟨nofun, by rintro e ⟨⟩; exact .clear⟩
  | finish =>
      simp only [step] at hstep
      split at hstep
      · cases hstep
        exact ⟨nofun, by rintro e ⟨⟩; exact .clear⟩
      · cases hstep
  | cancel =>
      refine ⟨nofun, ?_⟩
      rintro e ⟨⟩
      have hqueue := queueStep_offer s.queue cancelKey
      simp only [step] at hstep
      split_ifs at hstep hqueue
      · cases hstep
        exact hqueue
      · cases hstep
        exact hqueue
  | begin | endWait | reap =>
      simp only [step] at hstep
      split_ifs at hstep
      cases hstep
      exact ⟨fun _ => rfl, nofun⟩
  | handle screenOff visible =>
      simp only [step] at hstep
      split at hstep
      · cases hstep
        exact ⟨fun _ => rfl, nofun⟩
      · cases hstep
  | exit =>
      cases hstep
      exact ⟨fun _ => rfl, nofun⟩
  | kill =>
      simp only [step] at hstep
      split at hstep
      · cases hstep
        exact ⟨fun _ => rfl, nofun⟩
      · cases hstep
  | join =>
      simp only [step] at hstep
      split at hstep
      · split_ifs at hstep
        cases hstep
        exact ⟨fun _ => rfl, nofun⟩
      · cases hstep

/-- When a section of `ui.c` does to `key_queue` what a step does to the queue of the state, the
queue stays the list of its keys. -/
theorem step_keys {hasCameraKey : Bool} {s t : State} {a : Action} {k k' : KeyState}
    {sec : Ui.Section} {ret : Option Int} (hinv : k.Inv) (hkeys : k.keys = s.queue)
    (hsec : sec.step hasCameraKey k = some (k', ret)) (hevent : sec.event k ret = a.event s)
    (hstep : step hasCameraKey s a = some t) : k'.Inv ∧ k'.keys = t.queue := by
  obtain ⟨k₁, ret₁, hsec₁, hsim⟩ := step_simulates hasCameraKey sec hinv (room_of_step hinv hsec)
  cases hsec.symm.trans hsec₁
  obtain ⟨hnone, hsome⟩ := step_event hstep
  refine ⟨hsim.inv, ?_⟩
  cases he : a.event s with
  | none =>
      rw [hsim.none_imp (hevent.trans he), hkeys]
      exact (hnone he).symm
  | some e =>
      have hqueue := hsim.some_imp e (hevent.trans he)
      rw [hkeys] at hqueue
      exact hqueue.unique (hsome e he)

/-! ## Runs -/

/-- Before the first sideload: any keys may be in the queue. -/
def Starts (s : State) : Prop :=
  s.main = .elsewhere ∧ s.thread = .absent ∧ s.overrun = false ∧ cancelKey ∉ s.queue

/-- The sideloader has exited, the thread has sent the token, the user has not chosen "Cancel", and
the menu waits without the token in the queue. -/
def Lost (s : State) : Prop :=
  s.exited = true ∧ s.thread = .finished ∧ s.main = .menu ∧ cancelKey ∉ s.queue

/-- A token in the queue while other menus read from it. -/
def Leaked (s : State) : Prop := s.main = .elsewhere ∧ cancelKey ∈ s.queue

/-- The token is sent only after the menu has cleared the queue, and there is room for it. -/
def InTime (s : State) : Action → Prop
  | .cancel => s.main ≠ .starting ∧ s.queue.length < queueMax
  | _ => True

/-- What holds of the queue at each place of the main thread. -/
def Kept (s : State) : Prop :=
  match s.main with
  | .elsewhere => cancelKey ∉ s.queue ∧ (s.thread = .absent ∨ s.thread = .finished)
  | .starting => s.thread = .waiting ∨ s.thread = .reaped
  | .menu => s.thread = .finished → cancelKey ∈ s.queue
  | .handling _ => s.thread = .finished → cancelKey ∈ s.queue
  | .joined _ => s.thread = .finished
  | .chosen _ => True
  | .killed _ => True

theorem key_ne_cancelKey (code : Nat) : (code : Int) ≠ cancelKey := by
  unfold cancelKey
  omega

/-- A key from outside is no token. -/
theorem cancelKey_mem_append (queue : List Int) (code : Nat) :
    cancelKey ∈ queue ++ [(code : Int)] ↔ cancelKey ∈ queue := by
  have hne := (key_ne_cancelKey code).symm
  simp [hne]

/-- `Kept` looks only at the place, the thread and whether the token is there. -/
theorem Kept.of_eq {s t : State} (h : Kept s) (hmain : t.main = s.main)
    (hthread : t.thread = s.thread) (hqueue : cancelKey ∈ t.queue ↔ cancelKey ∈ s.queue) :
    Kept t := by
  unfold Kept at h ⊢
  rw [hmain, hthread, hqueue]
  exact h

/-- The other menus take keys away, and put no token into the queue. -/
theorem kept_elsewhere {s : State} {queue : List Int} (h : Kept s) (hmain : s.main = .elsewhere)
    (hsub : cancelKey ∈ queue → cancelKey ∈ s.queue) : Kept { s with queue := queue } := by
  unfold Kept at h ⊢
  rw [hmain] at h
  simp only [hmain]
  exact ⟨fun hmem => h.1 (hsub hmem), h.2⟩

/-- The menu begins before the thread has sent the token. -/
theorem kept_clearQueue {s : State} (h : Kept s) (hmain : s.main = .starting) :
    Kept { s with queue := [], main := .menu } := by
  unfold Kept at h
  rw [hmain] at h
  intro hfinished
  rcases h with hthread | hthread
  · cases hthread.symm.trans hfinished
  · cases hthread.symm.trans hfinished

/-- The menu takes a key. -/
theorem kept_waitKey {s : State} {key : Int} {queue : List Int} (h : Kept s) (hmain : s.main = .menu)
    (hqueue : s.queue = key :: queue) :
    Kept { s with queue := queue, main := if key = cancelKey then .chosen (-1) else .handling key } := by
  unfold Kept at h
  rw [hmain, hqueue] at h
  by_cases hkey : key = cancelKey
  · simp only [hkey, if_true]
    trivial
  · simp only [hkey, if_false]
    intro hfinished
    rcases List.mem_cons.mp (h hfinished) with heq | hmem
    · exact absurd heq.symm hkey
    · exact hmem

/-- The menu handles it. -/
theorem kept_handle {hasCameraKey : Bool} {s : State} {key : Int} (screenOff visible : Bool)
    (h : Kept s) (hmain : s.main = .handling key) :
    Kept { s with main := menuStep hasCameraKey key screenOff visible } := by
  unfold Kept at h
  rw [hmain] at h
  unfold menuStep
  split_ifs
  · exact h
  · trivial
  · exact h

/-- The thread finds that the sideloader has exited. -/
theorem kept_reap {s : State} (h : Kept s) (hwaiting : s.thread = .waiting) :
    Kept { s with thread := .reaped } := by
  unfold Kept at h ⊢
  cases hm : s.main with
  | elsewhere =>
      rw [hm, hwaiting] at h
      rcases h.2 with hthread | hthread <;> cases hthread
  | starting => exact .inr rfl
  | menu => nofun
  | handling key => nofun
  | chosen item => trivial
  | killed item => trivial
  | joined item =>
      rw [hm, hwaiting] at h
      cases h

/-- The token is sent. -/
theorem kept_cancel {s : State} (h : Kept s) (hreaped : s.thread = .reaped)
    (hmain : s.main ≠ .starting) :
    Kept { s with queue := s.queue ++ [cancelKey], thread := .finished } := by
  unfold Kept at h ⊢
  cases hm : s.main with
  | elsewhere =>
      rw [hm, hreaped] at h
      rcases h.2 with hthread | hthread <;> cases hthread
  | starting => exact absurd hm hmain
  | menu => exact fun _ => List.mem_append_right _ (List.mem_singleton_self _)
  | handling key => exact fun _ => List.mem_append_right _ (List.mem_singleton_self _)
  | chosen item => trivial
  | killed item => trivial
  | joined item => rfl

/-- The main thread leaves the sideload with an empty queue. -/
theorem kept_finish {s : State} {item : Int} (h : Kept s) (hmain : s.main = .joined item) :
    Kept { s with queue := [], main := .elsewhere } := by
  unfold Kept at h
  rw [hmain] at h
  exact ⟨List.not_mem_nil, .inr h⟩

theorem kept_step {hasCameraKey : Bool} {s t : State} {a : Action} (h : Kept s) (hin : InTime s a)
    (hstep : step hasCameraKey s a = some t) : Kept t := by
  cases a with
  | key code =>
      simp only [step] at hstep
      split at hstep
      · cases hstep
        exact h.of_eq rfl rfl (cancelKey_mem_append s.queue code)
      · cases hstep
        exact h
  | otherKey =>
      obtain ⟨hmain, ⟨⟩⟩ := Option.ite_none_right_eq_some.mp hstep
      exact kept_elsewhere h hmain List.mem_of_mem_tail
  | otherClear =>
      obtain ⟨hmain, ⟨⟩⟩ := Option.ite_none_right_eq_some.mp hstep
      exact kept_elsewhere h hmain fun hmem => absurd hmem List.not_mem_nil
  | begin =>
      obtain ⟨-, ⟨⟩⟩ := Option.ite_none_right_eq_some.mp hstep
      exact .inl rfl
  | clearQueue =>
      obtain ⟨hmain, ⟨⟩⟩ := Option.ite_none_right_eq_some.mp hstep
      exact kept_clearQueue h hmain
  | waitKey =>
      simp only [step] at hstep
      split at hstep
      · next key queue hmain hqueue =>
          cases hstep
          exact kept_waitKey h hmain hqueue
      · cases hstep
  | endWait =>
      obtain ⟨-, ⟨⟩⟩ := Option.ite_none_right_eq_some.mp hstep
      exact h
  | handle screenOff visible =>
      simp only [step] at hstep
      split at hstep
      · next key hmain =>
          cases hstep
          exact kept_handle screenOff visible h hmain
      · cases hstep
  | exit =>
      cases hstep
      exact h.of_eq rfl rfl Iff.rfl
  | reap =>
      obtain ⟨hcond, ⟨⟩⟩ := Option.ite_none_right_eq_some.mp hstep
      exact kept_reap h hcond.1
  | cancel =>
      obtain ⟨hreaped, hstep⟩ := Option.ite_none_right_eq_some.mp hstep
      rw [if_pos hin.2] at hstep
      cases hstep
      exact kept_cancel h hreaped hin.1
  | kill =>
      simp only [step] at hstep
      split at hstep
      · cases hstep
        trivial
      · cases hstep
  | join =>
      simp only [step] at hstep
      split at hstep
      · obtain ⟨hfinished, ⟨⟩⟩ := Option.ite_none_right_eq_some.mp hstep
        exact hfinished
      · cases hstep
  | finish =>
      simp only [step] at hstep
      split at hstep
      · next item hmain =>
          cases hstep
          exact kept_finish h hmain
      · cases hstep

theorem kept_run {hasCameraKey : Bool} {s t : State} (h : Kept s)
    (hrun : Run hasCameraKey InTime s t) : Kept t := by
  induction hrun with
  | refl => exact h
  | tail _ hstep ih =>
      obtain ⟨a, hin, hstep⟩ := hstep
      exact kept_step ih hin hstep

/-- In every run in which the token is sent in time, over any number of sideloads, the token is
neither lost nor left behind. -/
theorem cancel_kept (hasCameraKey : Bool) (s t : State) (hstart : Starts s)
    (hrun : Run hasCameraKey InTime s t) : ¬ Lost t ∧ ¬ Leaked t := by
  have hkept : Kept t := by
    refine kept_run ?_ hrun
    unfold Kept
    rw [hstart.1]
    exact ⟨hstart.2.2.2, .inl hstart.2.1⟩
  unfold Kept at hkept
  constructor
  · rintro ⟨-, hfinished, hmain, hqueue⟩
    rw [hmain] at hkept
    exact hqueue (hkept hfinished)
  · rintro ⟨hmain, hqueue⟩
    rw [hmain] at hkept
    exact hkept.1 hqueue

namespace Sample

def idle : State := ⟨[], .elsewhere, .absent, false, false⟩

/-- A run of the given steps that all meet the condition. -/
def runActions (s : State) : List Action → Option State
  | [] => some s
  | a :: as => (step true s a).bind fun t => runActions t as

theorem run_of_runActions {cond : State → Action → Prop} {s t : State} (as : List Action)
    (hcond : ∀ a ∈ as, ∀ s, cond s a) (h : runActions s as = some t) : Run true cond s t := by
  induction as generalizing s with
  | nil =>
      cases h
      exact .refl
  | cons a as ih =>
      obtain ⟨u, hu, hrest⟩ := Option.bind_eq_some_iff.mp h
      exact .head ⟨a, hcond a (List.mem_cons_self ..) s, hu⟩
        (ih (fun b hb => hcond b (List.mem_cons_of_mem a hb)) hrest)

/-- The sideloader exits while the menu is shown. -/
def waitingForToken : State := ⟨[], .menu, .reaped, true, false⟩

theorem run_waiting : Run true InTime idle waitingForToken :=
  run_of_runActions [.begin, .clearQueue, .exit, .reap]
    (by simp [InTime]) (by decide)

theorem cancel_kept_late :
    ¬ Lost ⟨[cancelKey], .menu, .finished, true, false⟩ ∧
      ¬ Leaked ⟨[cancelKey], .menu, .finished, true, false⟩ :=
  cancel_kept true idle _ ⟨rfl, rfl, rfl, by decide⟩
    (run_waiting.tail ⟨.cancel, ⟨by decide, by decide⟩, rfl⟩)

/-- The sideloader exits at once: the thread sends the token before the menu clears the queue. -/
theorem cancel_lost_early : ∃ t, Run true (fun _ _ => True) idle t ∧ Lost t := by
  refine ⟨⟨[], .menu, .finished, true, false⟩, ?_, rfl, rfl, rfl, by decide⟩
  exact run_of_runActions [.begin, .exit, .reap, .cancel, .clearQueue]
    (fun _ _ _ => trivial) (by decide)

end Sample

end OpenRecovery.Recovery.Sideload
