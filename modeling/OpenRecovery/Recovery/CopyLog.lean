import OpenRecovery.Recovery.FileLines

/-!
# The copies of the log

`copy_log_file`, what `finish_recovery` does with the logs, and `erase_volume`. `tmplog_offset`
counts the bytes of the temporary log that are in the log on `/cache`; `erase_volume` sets it to 0
before `/cache` is formatted, whatever comes of the format. `onceEach_iff` says in which runs the
log on `/cache` has each byte of the temporary log once.

A file that is missing counts as empty. The intent, the install log, the boot message and the
command file are left out, and what a function itself prints is an append before or after it.
-/

set_option autoImplicit false

namespace OpenRecovery.Recovery

open OpenRecovery.Storage OpenRecovery.Updater

/-! ## The program -/

/-- What is written to a log: text without a NUL. -/
structure LogText where
  bytes : Bytes
  nul : 0 ∉ bytes

namespace LogText

def append (t u : LogText) : LogText where
  bytes := t.bytes ++ u.bytes
  nul := by
    rw [List.mem_append, not_or]
    exact ⟨t.nul, u.nul⟩

@[simp] theorem bytes_append (t u : LogText) : (t.append u).bytes = t.bytes ++ u.bytes := rfl

end LogText

structure LogState where
  /-- `/tmp/recovery.log` -/
  tmpLog : LogText
  tmplogOffset : ℕ
  /-- `/cache/recovery/log` -/
  log : Bytes
  /-- `/cache/recovery/last_log` -/
  lastLog : Bytes

/-- `fgets` into `buf` and `fputs` from it until the end of the file. -/
def copyRest (rest : Bytes) : Bytes := (pieces 4095 rest).flatMap cText

/-- `copy_log_file`: the destination and `tmplog_offset` after it. -/
def copyLogFile (source destination : Bytes) (append : Bool) (tmplogOffset : ℕ) : Bytes × ℕ :=
  if append then
    -- behind what was copied the last time
    let rest := source.drop tmplogOffset
    (destination ++ copyRest rest, tmplogOffset + rest.length)
  else (copyRest source, tmplogOffset)

/-- The copies that `finish_recovery` makes. -/
def finishRecovery (s : LogState) : LogState :=
  let (log, tmplogOffset) := copyLogFile s.tmpLog.bytes s.log true s.tmplogOffset
  let (lastLog, tmplogOffset) := copyLogFile s.tmpLog.bytes s.lastLog false tmplogOffset
  { s with log := log, lastLog := lastLog, tmplogOffset := tmplogOffset }

/-- How a format ends. One that fails may have emptied the volume. -/
inductive Format where
  | succeeds
  | fails (emptied : Bool)

def Format.empties : Format → Bool
  | succeeds => true
  | fails emptied => emptied

def cacheRoot : Bytes := cstr "/cache"

def formatVolume (volume : Bytes) (format : Format) (s : LogState) : LogState :=
  if volume = cacheRoot ∧ format.empties = true then { s with log := [], lastLog := [] } else s

/-- `erase_volume`. -/
def eraseVolumeLogs (volume : Bytes) (format : Format) (s : LogState) : LogState :=
  -- before it is known whether the format succeeds
  let s := if volume = cacheRoot then { s with tmplogOffset := 0 } else s
  formatVolume volume format s

/-! ## Runs -/

inductive LogEvent where
  | append (text : LogText)
  | finish
  | erase (volume : Bytes) (format : Format)

def logStep (s : LogState) : LogEvent → LogState
  | .append text => { s with tmpLog := s.tmpLog.append text }
  | .finish => finishRecovery s
  | .erase volume format => eraseVolumeLogs volume format s

def logRun (s : LogState) (events : List LogEvent) : LogState := events.foldl logStep s

/-- The beginning of a run, with what has been left by earlier ones. -/
def LogState.first (tmpLog : LogText) (log lastLog : Bytes) : LogState := ⟨tmpLog, 0, log, lastLog⟩

/-- `erase_volume("/cache")`. -/
def LogEvent.Erases : LogEvent → Prop
  | .erase volume _ => volume = cacheRoot
  | _ => False

/-- `/cache` is empty after it. -/
def LogEvent.Empties : LogEvent → Prop
  | .erase volume format => volume = cacheRoot ∧ format.empties = true
  | _ => False

instance : DecidablePred LogEvent.Empties
  | .append _ => instDecidableFalse
  | .finish => instDecidableFalse
  | .erase _ _ => instDecidableAnd

def Emptied (events : List LogEvent) : Prop := ∃ e ∈ events, e.Empties

instance (events : List LogEvent) : Decidable (Emptied events) :=
  inferInstanceAs (Decidable (∃ e ∈ events, e.Empties))

section Step

variable {s : LogState} {e : LogEvent}

/-- Without a NUL nothing is lost between `fgets` and `fputs`. -/
theorem copyRest_eq {rest : Bytes} (h : 0 ∉ rest) : copyRest rest = rest := by
  have hflat : (pieces 4095 rest).flatten = rest := flatten_pieces (by decide) rest
  -- no piece has a NUL in which `fputs` would stop
  have hpieces : (pieces 4095 rest).map cText = (pieces 4095 rest).map id := by
    refine List.map_congr_left fun piece hpiece => cText_eq_self fun hnul => h ?_
    rw [← hflat]
    exact List.mem_flatten.mpr ⟨piece, hpiece, hnul⟩
  rw [copyRest, List.flatMap_def, hpieces, List.map_id, hflat]

theorem finishRecovery_eq (s : LogState) : finishRecovery s =
    { s with
      log := s.log ++ s.tmpLog.bytes.drop s.tmplogOffset
      lastLog := s.tmpLog.bytes
      tmplogOffset := s.tmplogOffset + (s.tmpLog.bytes.drop s.tmplogOffset).length } := by
  have hrest : 0 ∉ s.tmpLog.bytes.drop s.tmplogOffset := fun h => s.tmpLog.nul (List.mem_of_mem_drop h)
  simp only [finishRecovery, copyLogFile, copyRest_eq hrest, copyRest_eq s.tmpLog.nul, if_true,
    Bool.false_eq_true, if_false]

/-- The three ends of `erase_volume`. -/
theorem eraseVolumeLogs_cases (volume : Bytes) (format : Format) (s : LogState) :
    ((LogEvent.erase volume format).Empties ∧
        eraseVolumeLogs volume format s = { s with tmplogOffset := 0, log := [], lastLog := [] }) ∨
      ((LogEvent.erase volume format).Erases ∧ ¬ (LogEvent.erase volume format).Empties ∧
        eraseVolumeLogs volume format s = { s with tmplogOffset := 0 }) ∨
      (¬ (LogEvent.erase volume format).Erases ∧ eraseVolumeLogs volume format s = s) := by
  rw [eraseVolumeLogs, formatVolume]
  by_cases hvolume : volume = cacheRoot
  · by_cases hempties : format.empties = true
    · exact .inl ⟨⟨hvolume, hempties⟩, by rw [if_pos ⟨hvolume, hempties⟩, if_pos hvolume]⟩
    · refine .inr (.inl ⟨hvolume, fun h => hempties h.2, ?_⟩)
      rw [if_neg fun h => hempties h.2, if_pos hvolume]
  · refine .inr (.inr ⟨hvolume, ?_⟩)
    rw [if_neg fun h => hvolume h.1, if_neg hvolume]

end Step

/-! ## What is copied twice -/

/-- A call of `erase_volume("/cache")` while a part of the log has been copied, of which the format
has left the files alone; and `/cache` has not been emptied since. -/
def CopiesAgain (s : LogState) (events : List LogEvent) : Prop :=
  ∃ before e after, events = before ++ e :: after ∧ e.Erases ∧ ¬ Emptied (e :: after) ∧
    (logRun s before).tmplogOffset ≠ 0

section Run

variable {s : LogState} {events : List LogEvent} {e : LogEvent}

theorem logRun_concat (s : LogState) (events : List LogEvent) (e : LogEvent) :
    logRun s (events ++ [e]) = logStep (logRun s events) e := List.foldl_concat ..

theorem erases_of_empties (h : e.Empties) : e.Erases := by
  cases e with
  | append text => exact h
  | finish => exact h
  | erase volume format => exact h.1

theorem emptied_concat : Emptied (events ++ [e]) ↔ Emptied events ∨ e.Empties := by
  simp [Emptied, or_and_right, exists_or]

theorem emptied_cons : Emptied (e :: events) ↔ e.Empties ∨ Emptied events := by
  simp [Emptied]

theorem copiesAgain_concat : CopiesAgain s (events ++ [e]) ↔
    ¬ e.Empties ∧ (CopiesAgain s events ∨ e.Erases ∧ (logRun s events).tmplogOffset ≠ 0) := by
  constructor
  · rintro ⟨before, first, after, hsplit, herases, hkept, hoffset⟩
    rcases List.eq_nil_or_concat after with rfl | ⟨after, last, rfl⟩
    · -- the last event is the erase itself
      obtain ⟨rfl, hlast⟩ := List.append_inj' hsplit rfl
      cases hlast
      exact ⟨fun h => hkept ⟨e, List.mem_cons_self .., h⟩, .inr ⟨herases, hoffset⟩⟩
    · rw [List.concat_eq_append] at hsplit hkept
      rw [← List.cons_append, ← List.append_assoc] at hsplit
      obtain ⟨rfl, hlast⟩ := List.append_inj' hsplit rfl
      cases hlast
      rw [← List.cons_append, emptied_concat, not_or] at hkept
      exact ⟨hkept.2, .inl ⟨before, first, after, rfl, herases, hkept.1, hoffset⟩⟩
  · rintro ⟨hempties, ⟨before, first, after, rfl, herases, hkept, hoffset⟩ | ⟨herases, hoffset⟩⟩
    · refine ⟨before, first, after ++ [e], by simp, herases, ?_, hoffset⟩
      rw [← List.cons_append, emptied_concat, not_or]
      exact ⟨hkept, hempties⟩
    · refine ⟨events, e, [], rfl, herases, ?_, hoffset⟩
      rw [emptied_cons, not_or]
      exact ⟨hempties, fun h => absurd h (by simp [Emptied])⟩

end Run

/-- What the log on `/cache` has in a run: the log of the earlier runs unless it is gone, then what
is there a second time, then the temporary log as far as `tmplog_offset`. -/
structure LogInv (old : Bytes) (emptied again : Prop) (s : LogState) : Prop where
  offset_le : s.tmplogOffset ≤ s.tmpLog.bytes.length
  log_eq : ∃ base extra, s.log = base ++ extra ++ s.tmpLog.bytes.take s.tmplogOffset ∧
    (emptied → base = []) ∧ (¬ emptied → base = old) ∧ (extra ≠ [] ↔ again)

namespace LogInv

variable {old : Bytes} {emptied again : Prop} {s : LogState}

theorem congr (h : LogInv old emptied again s) {emptied' again' : Prop} (hemptied : emptied' ↔ emptied)
    (hagain : again' ↔ again) : LogInv old emptied' again' s := by
  rwa [propext hemptied, propext hagain]

theorem append (h : LogInv old emptied again s) (text : LogText) :
    LogInv old emptied again (logStep s (.append text)) := by
  obtain ⟨hle, base, extra, hlog, hbase⟩ := h
  refine ⟨?_, base, extra, ?_, hbase⟩
  · show s.tmplogOffset ≤ (s.tmpLog.bytes ++ text.bytes).length
    rw [List.length_append]
    exact Nat.le_add_right_of_le hle
  · show s.log = base ++ extra ++ (s.tmpLog.bytes ++ text.bytes).take s.tmplogOffset
    rw [List.take_append_of_le_length hle, hlog]

theorem offset_finish (h : LogInv old emptied again s) :
    (finishRecovery s).tmplogOffset = s.tmpLog.bytes.length := by
  rw [finishRecovery_eq]
  show s.tmplogOffset + (s.tmpLog.bytes.drop s.tmplogOffset).length = _
  rw [List.length_drop]
  exact Nat.add_sub_cancel' h.offset_le

/-- All of the temporary log is there. -/
theorem finish (h : LogInv old emptied again s) : LogInv old emptied again (finishRecovery s) := by
  have hoffset := h.offset_finish
  have htmp : (finishRecovery s).tmpLog = s.tmpLog := rfl
  obtain ⟨hle, base, extra, hlog, hbase⟩ := h
  refine ⟨by rw [hoffset, htmp], base, extra, ?_, hbase⟩
  rw [hoffset, htmp, List.take_length, finishRecovery_eq]
  show s.log ++ s.tmpLog.bytes.drop s.tmplogOffset = _
  rw [hlog, List.append_assoc (base ++ extra), List.take_append_drop]

theorem empty (s : LogState) :
    LogInv old True False { s with tmplogOffset := 0, log := [], lastLog := [] } :=
  ⟨Nat.zero_le _, [], [], rfl, fun _ => rfl, fun h => absurd trivial h, by simp⟩

/-- The offset is lost, and what has been copied is going to be copied again. -/
theorem reset (h : LogInv old emptied again s) :
    LogInv old emptied (again ∨ s.tmplogOffset ≠ 0) { s with tmplogOffset := 0 } := by
  obtain ⟨hle, base, extra, hlog, hbase, hold, hextra⟩ := h
  refine ⟨Nat.zero_le _, base, extra ++ s.tmpLog.bytes.take s.tmplogOffset, ?_, hbase, hold, ?_⟩
  · show s.log = _
    rw [hlog, List.take_zero, List.append_nil, List.append_assoc]
  · -- nothing is copied again if nothing has been copied
    have htake : s.tmpLog.bytes.take s.tmplogOffset = [] ↔ s.tmplogOffset = 0 := by
      rw [← List.length_eq_zero_iff, List.length_take, Nat.min_eq_left hle]
    rw [← hextra, ne_eq, List.append_eq_nil_iff, not_and_or, htake]

end LogInv

/-! ## Each byte once -/

section Once

variable (tmpLog : LogText) (old lastLog : Bytes)

theorem logRun_inv (events : List LogEvent) :
    LogInv old (Emptied events) (CopiesAgain (.first tmpLog old lastLog) events)
      (logRun (.first tmpLog old lastLog) events) := by
  induction events using List.reverseRecOn with
  | nil =>
    refine ⟨Nat.zero_le _, old, [], by simp [logRun, LogState.first], ?_, fun _ => rfl, ?_⟩
    · simp [Emptied]
    · simp [CopiesAgain]
  | append_singleton events e ih =>
    rw [logRun_concat]
    cases e with
    | append text =>
      refine (ih.append text).congr (emptied_concat.trans (or_iff_left id)) ?_
      rw [copiesAgain_concat]
      exact ⟨fun h => h.2.resolve_right fun h' => h'.1, fun h => ⟨id, .inl h⟩⟩
    | finish =>
      refine ih.finish.congr (emptied_concat.trans (or_iff_left id)) ?_
      rw [copiesAgain_concat]
      exact ⟨fun h => h.2.resolve_right fun h' => h'.1, fun h => ⟨id, .inl h⟩⟩
    | erase volume format =>
      rw [logStep]
      rcases eraseVolumeLogs_cases volume format (logRun (.first tmpLog old lastLog) events) with
        ⟨hempties, heq⟩ | ⟨herases, hkept, heq⟩ | ⟨hother, heq⟩
      · rw [heq]
        refine (LogInv.empty _).congr (iff_true_intro (emptied_concat.mpr (.inr hempties))) ?_
        exact iff_false_intro fun h => (copiesAgain_concat.mp h).1 hempties
      · rw [heq]
        refine ih.reset.congr (emptied_concat.trans (or_iff_left hkept)) ?_
        rw [copiesAgain_concat, and_iff_right hkept, and_iff_right herases]
      · rw [heq]
        have hkept := mt erases_of_empties hother
        refine ih.congr (emptied_concat.trans (or_iff_left hkept)) ?_
        rw [copiesAgain_concat, and_iff_right hkept, or_iff_left fun h => hother h.1]

/-- The temporary log only grows. -/
theorem tmpLog_grows (s : LogState) (events : List LogEvent) :
    s.tmpLog.bytes <+: (logRun s events).tmpLog.bytes := by
  induction events using List.reverseRecOn with
  | nil => exact List.prefix_refl _
  | append_singleton events e ih =>
    rw [logRun_concat]
    cases e with
    | append text => exact ih.trans (List.prefix_append _ _)
    | finish => exact ih
    | erase volume format =>
      rw [logStep]
      rcases eraseVolumeLogs_cases volume format (logRun s events) with
        ⟨-, heq⟩ | ⟨-, -, heq⟩ | ⟨-, heq⟩
      · rwa [heq]
      · rwa [heq]
      · rwa [heq]

/-- Right after each `finish_recovery` the log on `/cache` has the temporary log, from its beginning
if `/cache` has been emptied, and otherwise behind the log of the earlier runs from the beginning of
this run; and `last_log` has all of it. -/
def OnceEach (s : LogState) (events : List LogEvent) : Prop :=
  ∀ before after, events = before ++ .finish :: after →
    let t := logRun s (before ++ [.finish])
    (t.log = if Emptied before then t.tmpLog.bytes
      else s.log ++ t.tmpLog.bytes.drop s.tmpLog.bytes.length) ∧ t.lastLog = t.tmpLog.bytes

/-- `finish_recovery` after some events. -/
theorem onceEach_finish (events : List LogEvent) :
    let s := LogState.first tmpLog old lastLog
    let t := logRun s (events ++ [.finish])
    ((t.log = if Emptied events then t.tmpLog.bytes
        else s.log ++ t.tmpLog.bytes.drop s.tmpLog.bytes.length) ∧ t.lastLog = t.tmpLog.bytes) ↔
      ¬ CopiesAgain s events ∧ (Emptied events ∨ tmpLog.bytes = []) := by
  intro s t
  have ht : t = finishRecovery (logRun s events) := logRun_concat ..
  have hinv := logRun_inv tmpLog old lastLog events
  have hoffset := hinv.offset_finish
  obtain ⟨-, base, extra, hlog, hemptied, hkept, hextra⟩ := hinv.finish
  rw [hoffset] at hlog
  have hlast : t.lastLog = t.tmpLog.bytes := by
    rw [ht, finishRecovery_eq]
  have htlog : t.log = base ++ extra ++ t.tmpLog.bytes := by
    rw [ht, hlog]
    exact congrArg _ (List.take_length)
  obtain ⟨rest, hrest⟩ := tmpLog_grows s (events ++ [.finish])
  have htmp : t.tmpLog.bytes = tmpLog.bytes ++ rest := hrest.symm
  rw [and_iff_left hlast, htlog, ← not_congr hextra, not_not]
  -- behind the part that is there twice, the whole temporary log follows in both cases
  by_cases h : Emptied events
  · rw [if_pos h, hemptied h, List.nil_append, List.append_left_eq_self, and_iff_left (.inl h)]
  · have hdrop : t.tmpLog.bytes.drop s.tmpLog.bytes.length = rest := by
      rw [htmp]
      exact List.drop_left
    rw [if_neg h, hkept h, hdrop, htmp, or_iff_right h, List.append_assoc,
      show s.log = old from rfl, List.append_cancel_left_eq, ← List.append_assoc,
      List.append_left_eq_self, List.append_eq_nil_iff]

/-- In which runs the log on `/cache` has each byte once. -/
theorem onceEach_iff (events : List LogEvent) :
    OnceEach (.first tmpLog old lastLog) events ↔
      ∀ before after, events = before ++ .finish :: after →
        ¬ CopiesAgain (.first tmpLog old lastLog) before ∧
          (Emptied before ∨ tmpLog.bytes = []) := by
  refine forall_congr' fun before => forall_congr' fun after => imp_congr_right fun _ => ?_
  exact onceEach_finish tmpLog old lastLog before

end Once

namespace Sample

/-- `/cache` cannot be formatted. -/
def failedErase : List LogEvent :=
  [.append ⟨[97], by decide⟩, .finish, .erase cacheRoot (.fails false), .finish]

theorem failed_erase_copies_again : ¬ OnceEach (.first ⟨[], by decide⟩ [] []) failedErase := by
  intro h
  have hlog := (h [.append ⟨[97], by decide⟩, .finish, .erase cacheRoot (.fails false)] [] rfl).1
  revert hlog
  decide

end Sample

end OpenRecovery.Recovery
