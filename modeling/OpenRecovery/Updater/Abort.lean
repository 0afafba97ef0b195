import OpenRecovery.ApplyPatch.CrashSafety
import OpenRecovery.Updater.Script

/-!
# Aborts

The rule of `edify/expr.c`: if an argument evaluates to NULL, a function returns NULL. `nullMonitor`
watches for the notes of NULL arguments and demands that nothing else happens after the first of
them. `Quits P x` says that an evaluation which has met a NULL argument ends with a result in `P`.
The rules of the first section follow the combinators of `Edify.Function`, and every function is
put together from them.

`swallows` lists the calls that break the rule: `retouch_binaries` and `undo_retouch_binaries`
return `"t"`, `delete` runs wild in its cleanup loop, and `apply_patch` and `apply_patch_check`
follow the null pointer they get in place of their later arguments. `abort_propagates_iff` says that
there are no others, and that a script in which none of these calls meets a NULL argument returns
NULL as soon as one subexpression does.
-/

set_option autoImplicit false

namespace OpenRecovery.Updater

open OpenRecovery.ApplyPatch OpenRecovery.Crash OpenRecovery.Edify OpenRecovery.Edify.Eval
open OpenRecovery.Storage

/-- The calls and argument positions at which a NULL argument does not make the function return
NULL. -/
def swallows (fn : Fn) (argc k : Nat) : Bool :=
  match fn with
  -- the loop that frees the paths read so far increments `i` in place of its own `j`
  | .delete => 1 ≤ k ∧ k < argc
  | .retouchBinaries => k < argc
  | .undoRetouchBinaries => k < argc
  -- the result of `ReadArgs` for the first four is tested, that of `ReadValueVarArgs` is not
  | .applyPatch => 6 ≤ argc ∧ argc % 2 = 0 ∧ 4 ≤ k ∧ k < argc
  | .applyPatchCheck => 1 ≤ k ∧ k < argc
  | _ => false

/-- The note of a NULL argument. -/
def isNull : Sys → Bool
  | .null .. => true
  | _ => false

/-- The note of a NULL argument that is swallowed. -/
def isSwallowed : Sys → Bool
  | .null fn argc k => swallows fn argc k
  | _ => false

/-- After the first NULL argument nothing happens but the notes of the calls around it. -/
def nullMonitor : Monitor Bool Sys Sys.Res where
  skip _ o _ := isSwallowed o = true
  demand nulled o := nulled = true → isNull o = true
  next nulled o _ := nulled || isNull o

section Rules

variable {α β : Type}

/-- If a NULL argument was met, the evaluation returns, and its result is in `P`. -/
def Post (P : α → Prop) (out : Option (α × Option Bytes)) (nulled : Bool) : Prop :=
  nulled = true → ∃ a m, out = some (a, m) ∧ P a

/-- An evaluation that ends in `P` once it has met a NULL argument. -/
def Quits (P : α → Prop) (x : Eval α) : Prop :=
  ∀ m, watch nullMonitor (Post P) (x m) false

/-- What may come after a NULL argument: an evaluation that does nothing and ends in `P`. -/
def Quiet (P : α → Prop) (x : Eval α) : Prop :=
  ∀ m, watch nullMonitor (Post P) (x m) true

variable {P : α → Prop} {Q : β → Prop}

theorem quiet_pure {a : α} (h : P a) : Quiet P (Eval.pure a) := fun m _ => ⟨a, m, rfl, h⟩

/-- A value without any operation. -/
theorem quits_pure (a : α) : Quits P (Eval.pure a) := fun _ h => absurd h Bool.false_ne_true

/-- A run that ends here. -/
theorem quits_die : Quits P (die : Eval α) := fun _ h => absurd h Bool.false_ne_true

/-- A weaker statement about the result. -/
theorem Quits.mono {P P' : α → Prop} {x : Eval α} (h : Quits P x) (hP : ∀ a, P a → P' a) :
    Quits P' x := by
  intro m
  apply watch_mono _ (h m)
  intro out nulled hpost hnulled
  obtain ⟨a, m', hout, ha⟩ := hpost hnulled
  exact ⟨a, m', hout, hP a ha⟩

/-- After an argument that quits, the rest has to be quiet; otherwise it quits on its own account.
-/
theorem quits_bind {x : Eval α} {f : α → Eval β} (hx : Quits P x) (hf : ∀ a, Quits Q (f a))
    (hP : ∀ a, P a → Quiet Q (f a)) : Quits Q (x.bind f) := by
  intro m
  apply watch_bind (hx m)
  · intro nulled hpost hnulled
    obtain ⟨a, m', hout, -⟩ := hpost hnulled
    cases hout
  · intro r nulled hpost
    cases nulled with
    | false => exact hf r.1 r.2
    | true =>
        obtain ⟨a, m', hout, ha⟩ := hpost rfl
        cases hout
        exact hP a ha m'

/-- After an evaluation that meets no NULL argument. -/
theorem quits_bind_of_never {x : Eval α} {f : α → Eval β} (hx : Quits (fun _ => False) x)
    (hf : ∀ a, Quits Q (f a)) : Quits Q (x.bind f) :=
  quits_bind hx hf fun _ h => absurd h id

theorem quits_ite {p : Prop} [Decidable p] {x y : Eval α} (hx : Quits P x) (hy : Quits P y) :
    Quits P (if p then x else y) := by
  split
  · exact hx
  · exact hy

/-- The operations of a function's own body say nothing about arguments. -/
theorem quits_own (p : OwnProg α) : Quits P (own p) := by
  intro m
  apply watch_bind (R := fun _ nulled => nulled = false)
  · exact watch_lift (fun o r _ => ⟨nofun, rfl⟩) fun _ => rfl
  · rintro nulled rfl
    exact nofun
  · rintro r nulled rfl
    exact nofun

theorem quits_setErrmsg (msg : Bytes) {P : Unit → Prop} : Quits P (setErrmsg msg) :=
  fun _ h => absurd h Bool.false_ne_true

theorem quits_noteArgs (fn : Fn) (vals : List Bytes) {P : Unit → Prop} :
    Quits P (note (.args fn vals)) :=
  fun _ _ _ => ⟨nofun, fun h => absurd h Bool.false_ne_true⟩

end Rules

/-- The result is NULL. -/
abbrev IsNull {α : Type} (r : Option α) : Prop := r = none

section Combinators

variable {α β : Type}

/-- `R` and `R'` are what is known of the NULL argument. -/
theorem quits_orNull_of {R R' : Prop} {x : Eval (Option α)} {f : α → Eval (Option β)}
    (hx : Quits (fun r => IsNull r ∧ R) x) (hf : ∀ a, Quits (fun r => IsNull r ∧ R') (f a))
    (hR : R → R') : Quits (fun r => IsNull r ∧ R') (orNull x f) := by
  apply quits_bind hx
  · intro r
    cases r with
    | none => exact quits_pure none
    | some a => exact hf a
  · rintro r ⟨rfl, hr⟩
    exact quiet_pure ⟨rfl, hR hr⟩

/-- `if (x == NULL) return NULL`. -/
theorem quits_orNull {x : Eval (Option α)} {f : α → Eval (Option β)} (hx : Quits IsNull x)
    (hf : ∀ a, Quits IsNull (f a)) : Quits IsNull (orNull x f) := by
  have h := @quits_orNull_of _ _ True True _ _ (hx.mono fun _ h => ⟨h, trivial⟩)
    (fun a => (hf a).mono fun _ h => ⟨h, trivial⟩) id
  exact h.mono fun _ h => h.1

/-- `ErrorAbort` returns `NULL`. -/
theorem quits_errorAbort (msg : Bytes) : Quits IsNull (errorAbort msg) :=
  quits_bind_of_never (quits_setErrmsg _) fun _ => quits_pure none

/-- A message, and `NULL`. -/
theorem quits_nullWith (msg : Bytes) : Quits IsNull (nullWith msg) :=
  quits_bind_of_never (quits_setErrmsg _) fun _ => quits_pure none

/-- Setting a message evaluates nothing. -/
theorem quiet_nullWith (msg : Bytes) : Quiet IsNull (nullWith msg) :=
  fun _ _ => ⟨none, some msg, rfl, rfl⟩

/-- A body of its own never makes anything of an argument that was `NULL`. -/
theorem quits_finish (p : OwnProg (Except Bytes Result)) : Quits IsNull (finish p) := by
  apply quits_bind_of_never (quits_own p)
  intro r
  cases r with
  | error msg => exact quits_errorAbort msg
  | ok v => exact quits_pure _

theorem quits_stringOf (v : Value) : Quits IsNull (stringOf v) := by
  unfold stringOf
  split
  · exact quits_bind (P := IsNull) (quits_errorAbort _) (fun _ => quits_pure none)
      fun _ _ => quiet_pure rfl
  · exact quits_pure _

/-- `Evaluate` is `EvaluateValue` with a string made of the value. -/
theorem quits_evaluate {x : Eval (Option Value)} (hx : Quits IsNull x) :
    Quits IsNull (Edify.evaluate x) :=
  quits_orNull hx quits_stringOf

end Combinators

/-! ## Reading arguments -/

/-- The arguments of a call keep the rule. -/
def ArgsQuit (c : Call) : Prop := ∀ a ∈ c.argv, Quits IsNull a.eval

section Arguments

variable {c : Call}

/-- A note outside `swallows` leaves a NULL result behind. -/
theorem watch_noteNull {α : Type} (k : Nat) (m : Option Bytes) (nulled : Bool) :
    watch nullMonitor (Post fun r => IsNull r ∧ swallows c.fn c.argc k = false)
      (c.noteNull k (none : Option α) m) nulled := by
  intro r hskip
  exact ⟨fun _ => rfl, fun _ => ⟨none, m, rfl, rfl, Bool.eq_false_iff.mpr hskip⟩⟩

/-- An argument whose `NULL` is noted: if it was not swallowed, the rest returns `NULL`. -/
theorem quits_noteNull {α : Type} {x : Eval (Option α)} (hx : Quits IsNull x) (k : Nat) :
    Quits (fun r => IsNull r ∧ swallows c.fn c.argc k = false) (x.bind (c.noteNull k)) := by
  apply quits_bind hx
  · intro r
    cases r with
    | none => exact fun m => watch_noteNull k m false
    | some a => exact quits_pure _
  · rintro r rfl m
    exact watch_noteNull k m true

/-- An argument that is not there ends the run. -/
theorem quits_outside {α : Type} {P : α → Prop} (k : Nat) : Quits P (c.outside k : Eval α) :=
  fun _ _ _ => ⟨nofun, fun h => absurd h Bool.false_ne_true⟩

/-- An argument of the call, with what is known of its position when it is `NULL`. -/
theorem quits_call_evaluateValue (h : ArgsQuit c) (k : Nat) :
    Quits (fun r => IsNull r ∧ swallows c.fn c.argc k = false) (c.evaluateValue k) := by
  unfold Call.evaluateValue
  cases hk : c.argv[k]? with
  | none => exact quits_outside k
  | some a => exact quits_noteNull (h a (List.mem_of_getElem? hk)) k

/-- The same for an argument that is a string. -/
theorem quits_call_evaluate (h : ArgsQuit c) (k : Nat) :
    Quits (fun r => IsNull r ∧ swallows c.fn c.argc k = false) (c.evaluate k) := by
  unfold Call.evaluate
  cases hk : c.argv[k]? with
  | none => exact quits_outside k
  | some a => exact quits_noteNull (quits_evaluate (h a (List.mem_of_getElem? hk))) k

/-- An argument of the call is `NULL` when it was not swallowed. -/
theorem quits_value (h : ArgsQuit c) (k : Nat) : Quits IsNull (c.evaluateValue k) :=
  (quits_call_evaluateValue h k).mono fun _ hr => hr.1

/-- A string argument of the call is `NULL` when it was not swallowed. -/
theorem quits_string (h : ArgsQuit c) (k : Nat) : Quits IsNull (c.evaluate k) :=
  (quits_call_evaluate h k).mono fun _ hr => hr.1

/-- Reading stops at a NULL argument that is not swallowed. -/
theorem quits_readFrom (h : ArgsQuit c) (count first : Nat) :
    Quits (fun r => ∃ k, first ≤ k ∧ k < first + count ∧ r = .error k ∧
      swallows c.fn c.argc k = false) (c.readFrom count first) := by
  induction count generalizing first with
  | zero => exact quits_pure _
  | succ n ih =>
      apply quits_bind (quits_call_evaluate h first)
      · intro r
        cases r with
        | none => exact quits_pure _
        | some s =>
            apply quits_bind (ih (first + 1))
            · intro rest
              exact quits_pure _
            · rintro rest ⟨k, hlow, hhigh, rfl, hk⟩
              exact quiet_pure ⟨k, by omega, by omega, rfl, hk⟩
      · rintro r ⟨rfl, hk⟩
        exact quiet_pure ⟨first, le_rfl, by omega, rfl, hk⟩

/-- `ReadArgs` returns `NULL` only for an argument among those it reads. -/
theorem quits_readArgs (h : ArgsQuit c) (first count : Nat) :
    Quits (fun r => IsNull r ∧ ∃ k, first ≤ k ∧ k < first + count ∧
      swallows c.fn c.argc k = false) (c.readArgs first count) := by
  apply quits_bind (quits_readFrom h count first)
  · intro r
    cases r with
    | error k => exact quits_pure _
    | ok vals =>
        exact quits_bind_of_never (quits_noteArgs _ _) fun _ => quits_pure _
  · rintro r ⟨k, hlow, hhigh, rfl, hk⟩
    exact quiet_pure ⟨rfl, k, hlow, hhigh, hk⟩

/-- `ReadArgs`, without the position. -/
theorem quits_strings (h : ArgsQuit c) (first count : Nat) :
    Quits IsNull (c.readArgs first count) :=
  (quits_readArgs h first count).mono fun _ hr => hr.1

/-- `ReadValueArgs` returns `NULL` only for an argument among those it reads. -/
theorem quits_readValues (h : ArgsQuit c) (first count : Nat) :
    Quits (fun r => IsNull r ∧ ∃ k, first ≤ k ∧ k < first + count ∧
      swallows c.fn c.argc k = false) (c.readValues first count) := by
  induction count generalizing first with
  | zero => exact quits_pure _
  | succ n ih =>
      apply quits_orNull_of (quits_call_evaluateValue h first)
      · intro v
        apply quits_orNull_of (ih (first + 1))
        · intro vs
          exact quits_pure _
        · rintro ⟨k, hlow, hhigh, hk⟩
          exact ⟨k, by omega, by omega, hk⟩
      · intro hk
        exact ⟨first, le_rfl, by omega, hk⟩

/-- A function that reads its arguments and then works on the strings. -/
theorem quits_withArgs (h : ArgsQuit c) (count : Nat)
    (body : List Bytes → OwnProg (Except Bytes Result)) : Quits IsNull (withArgs c count body) :=
  quits_orNull (quits_strings h 0 count) fun _ => quits_finish _

end Arguments

/-! ## The functions that check the number of arguments and read them -/

section Functions

variable {c : Call}

/-- The message about the number of arguments. -/
theorem quits_wrongArgs (c : Call) (expects : String) : Quits IsNull (wrongArgs c expects) :=
  quits_errorAbort _

/-- `ifelse` evaluates the condition and one of the branches. -/
theorem quits_ifElseFn (h : ArgsQuit c) : Quits IsNull (ifElseFn c) := by
  apply quits_ite (quits_nullWith _)
  apply quits_orNull (quits_string h 0)
  intro cond
  exact quits_ite (quits_value h 1) (quits_ite (quits_value h 2) (quits_pure _))

/-- `AbortFn` goes on after a NULL argument, but only to set the message. -/
theorem quits_abortFn (h : ArgsQuit c) : Quits IsNull (abortFn c) := by
  apply quits_ite _ (quits_nullWith _)
  exact quits_bind (quits_string h 0) (fun _ => quits_nullWith _) fun _ _ => quiet_nullWith _

/-- `assert` stops at the first `NULL`. -/
theorem quits_assertLoop (h : ArgsQuit c) (n k : Nat) : Quits IsNull (assertLoop c n k) := by
  induction n generalizing k with
  | zero => exact quits_pure _
  | succ n ih =>
      apply quits_orNull (quits_string h k)
      intro v
      apply quits_ite (ih (k + 1))
      split
      · exact quits_die
      · exact quits_nullWith _

/-- `stdout` stops at the first `NULL`. -/
theorem quits_stdoutLoop (h : ArgsQuit c) (n k : Nat) : Quits IsNull (stdoutLoop c n k) := by
  induction n generalizing k with
  | zero => exact quits_pure _
  | succ n ih =>
      apply quits_orNull (quits_string h k)
      intro v
      exact quits_bind_of_never (quits_own _) fun _ => ih (k + 1)

theorem quits_logicalAndFn (h : ArgsQuit c) : Quits IsNull (logicalAndFn c) :=
  quits_orNull (quits_string h 0) fun _ => quits_ite (quits_value h 1) (quits_pure _)

theorem quits_logicalOrFn (h : ArgsQuit c) : Quits IsNull (logicalOrFn c) :=
  quits_orNull (quits_string h 0) fun _ => quits_ite (quits_value h 1) (quits_pure _)

theorem quits_sequenceFn (h : ArgsQuit c) : Quits IsNull (sequenceFn c) :=
  quits_orNull (quits_value h 0) fun _ => quits_value h 1

theorem quits_lessThanIntFn (w : Nat) (h : ArgsQuit c) : Quits IsNull (lessThanIntFn w c) :=
  quits_ite (quits_nullWith _) (quits_withArgs h _ _)

theorem quits_greaterThanIntFn (w : Nat) (h : ArgsQuit c) :
    Quits IsNull (greaterThanIntFn w c) := by
  apply quits_ite (quits_nullWith _)
  -- the call is handed on with its two arguments swapped
  apply quits_lessThanIntFn
  intro a ha
  exact h a (List.mem_reverse.mp ha)

theorem quits_formatFn (h : ArgsQuit c) : Quits IsNull (formatFn c) := by
  apply quits_ite (quits_wrongArgs _ _)
  apply quits_orNull (quits_strings h 0 4)
  intro vals
  unfold formatArgs
  split
  · split
    · exact quits_errorAbort _
    · apply quits_bind_of_never (quits_own _)
      intro mountPoint
      cases mountPoint with
      | none => exact quits_die
      | some mountPoint =>
          apply quits_ite (quits_errorAbort _)
          apply quits_ite _ (quits_pure none)
          exact quits_bind_of_never (quits_own _) fun _ => quits_pure _
  · exact quits_die

theorem quits_symlinkFn (h : ArgsQuit c) : Quits IsNull (symlinkFn c) := by
  apply quits_ite (quits_wrongArgs _ _)
  apply quits_orNull (quits_string h 0)
  intro target
  exact quits_orNull (quits_strings h 1 _) fun _ => quits_finish _

theorem quits_packageExtractFileFn (h : ArgsQuit c) : Quits IsNull (packageExtractFileFn c) :=
  quits_ite (quits_wrongArgs _ _) (quits_ite (quits_withArgs h _ _) (quits_withArgs h _ _))

/-- Comparing the digests that were read. -/
theorem quits_matchDigest (digest : Bytes) (vs : List Value) :
    Quits IsNull (matchDigest digest vs) := by
  induction vs with
  | nil => exact quits_pure _
  | cons v rest ih =>
      apply quits_ite ih
      split
      · exact quits_die
      · exact quits_ite (quits_pure _) ih

theorem quits_sha1CheckFn (L : Libs) (h : ArgsQuit c) : Quits IsNull (sha1CheckFn L c) := by
  apply quits_ite (quits_errorAbort _)
  apply quits_orNull ((quits_readValues h 0 _).mono fun _ hr => hr.1)
  intro vs
  cases vs with
  | nil => exact quits_die
  | cons v rest =>
      apply quits_ite (quits_pure _)
      split
      · exact quits_die
      · exact quits_ite (quits_pure _) (quits_matchDigest _ _)

/-! ## The functions that do not notice a NULL argument -/

/-- `delete`: a NULL argument after the first is swallowed. -/
theorem quits_deleteFn (hfn : c.fn = .delete) (h : ArgsQuit c) : Quits IsNull (deleteFn c) := by
  apply quits_bind (quits_readFrom h c.argc 0)
  · intro r
    match r with
    | .error 0 => exact quits_pure none
    | .error (_ + 1) => exact quits_die
    | .ok paths => exact quits_finish _
  · -- only with the first argument is there nothing to free
    rintro r ⟨k, -, hk, rfl, hgood⟩
    rw [hfn] at hgood
    cases k with
    | zero => exact quiet_pure rfl
    | succ k => simp [swallows] at hgood; omega

/-- A report on the way has no value. -/
theorem quits_report (ok : Bool) (msg : Bytes) {P : Unit → Prop} : Quits P (report ok msg) :=
  quits_ite (quits_pure ()) (quits_setErrmsg _)

/-- The loops over pairs of strings always return something. -/
theorem quits_pairLoop {σ : Type} (verb : String)
    (step : Bytes → Bytes → σ → OwnProg (Bool × σ)) (entries : List Bytes) (success : Bool)
    (v : σ) : Quits (fun _ => False) (pairLoop verb step entries success v) := by
  induction entries using List.twoStepInduction generalizing success v with
  | nil => exact quits_pure _
  | singleton name => exact quits_pure _
  | cons_cons name sha1 rest ih _ =>
      apply quits_bind_of_never (quits_own _)
      intro r
      exact quits_bind_of_never (quits_report _ _) fun _ => ih r.1 r.2

/-- `swallows` names all of its positions, so that nothing is asked of a `NULL` here. -/
theorem quits_retouchBinariesFn (hfn : c.fn = .retouchBinaries) (h : ArgsQuit c) :
    Quits IsNull (retouchBinariesFn c) := by
  apply quits_bind (quits_readArgs h 0 c.argc)
  · intro r
    cases r with
    | none => exact quits_pure _
    | some entries =>
        simp only [retouchArgs]
        apply quits_bind_of_never (quits_own _)
        intro base
        exact quits_bind_of_never (quits_pairLoop _ _ _ _ _) fun _ => quits_pure _
  · -- every position is swallowed
    rintro r ⟨-, k, -, hk, hgood⟩
    rw [hfn] at hgood
    simp [swallows] at hgood
    omega

theorem quits_undoRetouchBinariesFn (hfn : c.fn = .undoRetouchBinaries) (h : ArgsQuit c) :
    Quits IsNull (undoRetouchBinariesFn c) := by
  apply quits_bind (quits_readArgs h 0 c.argc)
  · intro r
    cases r with
    | none => exact quits_pure _
    | some entries =>
        simp only [undoArgs]
        exact quits_bind_of_never (quits_pairLoop _ _ _ _ _) fun _ => quits_pure _
  · rintro r ⟨-, k, -, hk, hgood⟩
    rw [hfn] at hgood
    simp [swallows] at hgood
    omega

/-- Only the first four arguments are looked at; the rest is left to `swallows`. -/
theorem quits_applyPatchFn (w : Nat) (hfn : c.fn = .applyPatch) (h : ArgsQuit c) :
    Quits IsNull (applyPatchFn w c) := by
  by_cases hargc : c.argc < 6 ∨ c.argc % 2 = 1
  · rw [applyPatchFn, if_pos hargc]
    exact quits_wrongArgs _ _
  · rw [applyPatchFn, if_neg hargc]
    apply quits_orNull (quits_strings h 0 4)
    intro vals
    unfold applyPatchRest
    split
    · split
      · exact quits_errorAbort _
      · apply quits_bind (quits_readValues h 4 (c.argc - 4))
        · intro r
          cases r with
          | none => exact quits_die
          | some values =>
              simp only [applyPatchValues]
              split
              · exact quits_errorAbort _
              · exact quits_finish _
        · -- a NULL among the digests and patches is swallowed
          rintro r ⟨-, k, hlow, hhigh, hgood⟩
          rw [hfn] at hgood
          simp [swallows] at hgood
          omega
    · exact quits_die

theorem quits_applyPatchCheckFn (hfn : c.fn = .applyPatchCheck) (h : ArgsQuit c) :
    Quits IsNull (applyPatchCheckFn c) := by
  apply quits_ite (quits_wrongArgs _ _)
  apply quits_orNull (quits_strings h 0 1)
  intro vals
  unfold applyPatchCheckRest
  split
  · apply quits_bind (quits_readArgs h 1 (c.argc - 1))
    · intro r
      cases r with
      | none =>
          exact quits_bind_of_never (quits_own (runCheck _ none)) fun _ => quits_die
      | some sha1s => exact quits_finish _
    · rintro r ⟨-, k, hlow, hhigh, hgood⟩
      rw [hfn] at hgood
      simp [swallows] at hgood
      omega
  · exact quits_die

/-- Every function keeps the rule outside the calls of `swallows`. -/
theorem quits_run (L : Libs) (h : ArgsQuit c) : Quits IsNull (run L c) := by
  cases hfn : c.fn <;> simp only [run, hfn]
  case literal => exact quits_pure _
  case logicalAnd => exact quits_logicalAndFn h
  case logicalOr => exact quits_logicalOrFn h
  case sequence => exact quits_sequenceFn h
  case ifElse => exact quits_ifElseFn h
  case abort => exact quits_abortFn h
  case assert => exact quits_assertLoop h _ _
  case stdout => exact quits_stdoutLoop h _ _
  case lessThanInt => exact quits_lessThanIntFn _ h
  case greaterThanInt => exact quits_greaterThanIntFn _ h
  case format => exact quits_formatFn h
  case delete => exact quits_deleteFn hfn h
  case packageExtractFile => exact quits_packageExtractFileFn h
  case retouchBinaries => exact quits_retouchBinariesFn hfn h
  case undoRetouchBinaries => exact quits_undoRetouchBinariesFn hfn h
  case symlink => exact quits_symlinkFn h
  case setPerm => exact quits_ite (quits_finish _) (quits_withArgs h _ _)
  case applyPatch => exact quits_applyPatchFn _ hfn h
  case applyPatchCheck => exact quits_applyPatchCheckFn hfn h
  case sha1Check => exact quits_sha1CheckFn L h
  case wipeCache => exact quits_ite (quits_wrongArgs _ _) (quits_finish _)
  case runProgram => exact quits_ite (quits_errorAbort _) (quits_withArgs h _ _)
  case mount | isMounted | unmount | showProgress | setProgress | packageExtractDir | getProp |
      readFile =>
    exact quits_ite (quits_wrongArgs _ _) (quits_withArgs h _ _)
  all_goals exact quits_withArgs h _ _

end Functions

/-! ## Scripts -/

namespace Expr

mutual

/-- Every expression quits: structural recursion together with `argsQuit`. -/
theorem quits_eval (L : Libs) (script : Bytes) : (e : Expr) → Quits IsNull (e.eval L script)
  | node _ _ argv _ _ => by
      rw [eval]
      exact quits_run L (argsQuit L script argv)

/-- So do the arguments of a call. -/
theorem argsQuit (L : Libs) (script : Bytes) :
    (argv : List Expr) → ∀ a ∈ evalArgs L script argv, Quits IsNull a.eval
  | [] => by
      intro a ha
      simp [evalArgs] at ha
  | e :: es => by
      intro a ha
      rw [evalArgs, List.mem_cons] at ha
      rcases ha with rfl | ha
      · exact quits_eval L script e
      · exact argsQuit L script es a ha

end

end Expr

/-- After a NULL argument nothing is done and NULL is returned. -/
def Aborts {α : Type} (t : Trace Sys Sys.Res) (out : Option (Option α × Option Bytes)) : Prop :=
  ∀ t₁ e t₂, t = t₁ ++ e :: t₂ → isNull e.1 = true →
    (∀ e' ∈ t₂, isNull e'.1 = true) ∧ ∃ m, out = some (none, m)

section Traces

variable {t : Trace Sys Sys.Res}

/-- A trace without a swallowed `NULL` is one that the monitor takes. -/
theorem admits_nullMonitor (nulled : Bool) (h : ∀ e ∈ t, isSwallowed e.1 = false) :
    nullMonitor.Admits nulled t := by
  induction t generalizing nulled with
  | nil => trivial
  | cons e t ih =>
      refine ⟨?_, ih _ fun e' he' => h e' (List.mem_cons_of_mem e he')⟩
      exact Bool.eq_false_iff.mp (h e List.mem_cons_self)

/-- After a `NULL` nothing else happens than further `NULL`s. -/
theorem meets_nulled (h : nullMonitor.Meets true t) : ∀ e ∈ t, isNull e.1 = true := by
  induction t with
  | nil => simp
  | cons e t ih =>
      obtain ⟨hdemand, hrest⟩ := h
      intro e' he'
      rcases List.mem_cons.mp he' with rfl | he'
      · exact hdemand rfl
      · exact ih hrest e' he'

/-- The monitor never forgets. -/
theorem after_nulled (t : Trace Sys Sys.Res) : nullMonitor.after true t = true := by
  induction t with
  | nil => rfl
  | cons e t ih => exact ih

/-- At a NULL argument the monitor starts to demand silence. -/
theorem meets_split {t₁ t₂ : Trace Sys Sys.Res} {e : (o : Sys) × Sys.Res o} {nulled : Bool}
    (he : isNull e.1 = true) (h : nullMonitor.Meets nulled (t₁ ++ e :: t₂)) :
    (∀ e' ∈ t₂, isNull e'.1 = true) ∧ nullMonitor.after nulled (t₁ ++ e :: t₂) = true := by
  induction t₁ generalizing nulled with
  | nil =>
      obtain ⟨-, hrest⟩ := h
      have hnext : nullMonitor.next nulled e.1 e.2 = true := by
        simp only [nullMonitor, he, Bool.or_true]
      rw [hnext] at hrest
      refine ⟨meets_nulled hrest, ?_⟩
      simp only [List.nil_append, Monitor.after]
      rw [hnext]
      exact after_nulled t₂
  | cons e₁ t₁ ih => exact ih h.2

/-- From `Quits` to the outcome of a whole run. -/
theorem Quits.aborts {α : Type} {x : Eval (Option α)} {m : Option Bytes}
    {out : Option (Option α × Option Bytes)} (h : Quits IsNull x) (hy : Yields (x m) t out)
    (hgood : ∀ e ∈ t, isSwallowed e.1 = false) : Aborts t out := by
  obtain ⟨hmeets, hpost⟩ := watch_sound (h m) hy (admits_nullMonitor false hgood)
  rintro t₁ e t₂ rfl he
  obtain ⟨hquiet, hafter⟩ := meets_split he hmeets
  obtain ⟨a, m', hout, rfl⟩ := hpost hafter
  exact ⟨hquiet, m', hout⟩

end Traces

/-- The function returns NULL and does nothing more when argument `k` of `argc` is the one that
comes back as NULL. -/
def Propagates (L : Libs) (name : Name) (fn : Fn) (argc k : Nat) : Prop :=
  ∀ script argv start stop m t out, argv.length = argc →
    Yields ((Expr.node fn name argv start stop).eval L script m) t out →
    (∀ e ∈ t, isNull e.1 = true → e.1 = .null fn argc k) → Aborts t out

/-- The positions that `swallows` leaves out propagate. -/
theorem propagates_of_not_swallows {L : Libs} {name : Name} {fn : Fn} {argc k : Nat}
    (h : swallows fn argc k = false) : Propagates L name fn argc k := by
  intro script argv start stop m t out _ hy hnull
  apply (Expr.quits_eval L script _).aborts hy
  intro e he
  cases hcase : e.1 with
  | own o => rfl
  | args fn vals => rfl
  | outside fn argc k => rfl
  | null fn' argc' k' =>
      have heq := hnull e he (by rw [hcase]; rfl)
      rw [hcase] at heq
      cases heq
      exact h

/-! ## Calls that swallow an abort -/

/-- A literal. -/
def literal (s : Bytes) : Expr := .node .literal s [] 0 0

/-- `abort()`. -/
def abortCall : Expr := .node .abort (cstr "abort") [] 0 0

/-- `"1"` at every position but `k`, where `abort()` stands. -/
def abortingArgs (argc k : Nat) : List Expr := (List.replicate argc (literal (cstr "1"))).set k abortCall

/-- The message of `abort()`. -/
def abortMsg : Option Bytes := some (cstr "called abort()")

/-- A call with `abort()` at position `k` and `"1"` elsewhere. -/
structure AbortsAt (c : Call) (k : Nat) : Prop where
  lt : k < c.argc
  one : ∀ i, i < c.argc → i ≠ k → ∃ a, c.argv[i]? = some a ∧
    ∀ m, a.eval m = .ret (some (stringValue (cstr "1")), m)
  abort : ∃ a, c.argv[k]? = some a ∧ ∀ m, a.eval m = .ret (none, abortMsg)

/-- Arguments of which the one at `k` aborts. -/
theorem abortsAt_abortingArgs (L : Libs) (script : Bytes) (fn : Fn) (name : Name) {argc k : Nat}
    (hk : k < argc) :
    AbortsAt ⟨fn, name, Expr.evalArgs L script (abortingArgs argc k), script⟩ k := by
  have hlen : (Expr.evalArgs L script (abortingArgs argc k)).length = argc := by
    simp [Expr.evalArgs_eq_map, abortingArgs]
  refine ⟨hk.trans_eq hlen.symm, ?_, ?_⟩
  · intro i hi hne
    have hi' : i < argc := hlen ▸ hi
    refine ⟨⟨(literal (cstr "1")).eval L script, 0, 0⟩, ?_, ?_⟩
    · simp [Expr.evalArgs_eq_map, abortingArgs, hi', Ne.symm hne, literal, Expr.start, Expr.stop]
    · intro m
      simp only [literal, Expr.eval, run]
      rfl
  · refine ⟨⟨abortCall.eval L script, 0, 0⟩, ?_, ?_⟩
    · simp [Expr.evalArgs_eq_map, abortingArgs, hk, abortCall, Expr.start, Expr.stop]
    · intro m
      simp only [abortCall, Expr.eval, Expr.evalArgs, run]
      rfl

section Swallow

variable {c : Call} {k : Nat}

/-- What the note of the NULL argument and the rest of the call look like. -/
def noted {α : Type} (c : Call) (k : Nat) (a : α) : SysProg (α × Option Bytes) :=
  .op (.null c.fn c.argc k) fun _ => .ret (a, abortMsg)

/-- The other arguments are the string "1". -/
theorem AbortsAt.evaluate_one (h : AbortsAt c k) {i : Nat} (hi : i < c.argc) (hne : i ≠ k)
    (m : Option Bytes) : c.evaluate i m = .ret (some (cstr "1"), m) := by
  obtain ⟨a, ha, heval⟩ := h.one i hi hne
  simp only [Call.evaluate, ha, Edify.evaluate, orNull, Eval.bind, heval]
  rfl

/-- The argument at `k` gives `NULL`, which is noted. -/
theorem AbortsAt.evaluate_abort (h : AbortsAt c k) (m : Option Bytes) :
    c.evaluate k m = noted c k none := by
  obtain ⟨a, ha, heval⟩ := h.abort
  simp only [Call.evaluate, ha, Edify.evaluate, orNull, Eval.bind, heval]
  rfl

/-- The other arguments are the string "1", as values too. -/
theorem AbortsAt.evaluateValue_one (h : AbortsAt c k) {i : Nat} (hi : i < c.argc) (hne : i ≠ k)
    (m : Option Bytes) : c.evaluateValue i m = .ret (some (stringValue (cstr "1")), m) := by
  obtain ⟨a, ha, heval⟩ := h.one i hi hne
  simp only [Call.evaluateValue, ha, Eval.bind, heval]
  rfl

/-- The argument at `k` gives `NULL` as a value too. -/
theorem AbortsAt.evaluateValue_abort (h : AbortsAt c k) (m : Option Bytes) :
    c.evaluateValue k m = noted c k none := by
  obtain ⟨a, ha, heval⟩ := h.abort
  simp only [Call.evaluateValue, ha, Eval.bind, heval]
  rfl

/-- Reading stays before the argument that aborts. -/
theorem AbortsAt.readFrom_before (h : AbortsAt c k) (n first : Nat) (hlast : first + n ≤ k)
    (m : Option Bytes) :
    c.readFrom n first m = .ret (.ok (List.replicate n (cstr "1")), m) := by
  induction n generalizing first m with
  | zero => rfl
  | succ n ih =>
      have hlt := h.lt
      simp only [Call.readFrom, Eval.bind, h.evaluate_one (show first < c.argc by omega)
        (show first ≠ k by omega)]
      simp only [Prog.bind, Eval.bind, ih (first + 1) (by omega)]
      rfl

/-- Reading stops at the argument that aborts. -/
theorem AbortsAt.readFrom_through (h : AbortsAt c k) (n first : Nat) (hfirst : first ≤ k)
    (hlast : k < first + n) (m : Option Bytes) :
    c.readFrom n first m = noted c k (.error k) := by
  induction n generalizing first m with
  | zero => omega
  | succ n ih =>
      rcases Nat.lt_or_eq_of_le hfirst with hlt | rfl
      · have hargc := h.lt
        simp only [Call.readFrom, Eval.bind, h.evaluate_one (show first < c.argc by omega)
          (show first ≠ k by omega)]
        simp only [Prog.bind, Eval.bind, ih (first + 1) (by omega) (by omega)]
        rfl
      · simp only [Call.readFrom, Eval.bind, h.evaluate_abort]
        rfl

/-- `ReadArgs` before the argument that aborts: nothing is wrong yet. -/
theorem AbortsAt.readArgs_before (h : AbortsAt c k) (n first : Nat) (hlast : first + n ≤ k)
    (m : Option Bytes) :
    c.readArgs first n m = .op (.args c.fn (List.replicate n (cstr "1"))) fun _ =>
      .ret (some (List.replicate n (cstr "1")), m) := by
  simp only [Call.readArgs, Eval.bind, h.readFrom_before n first hlast]
  rfl

/-- `ReadArgs` over the argument that aborts. -/
theorem AbortsAt.readArgs_through (h : AbortsAt c k) (n first : Nat) (hfirst : first ≤ k)
    (hlast : k < first + n) (m : Option Bytes) : c.readArgs first n m = noted c k none := by
  simp only [Call.readArgs, Eval.bind, h.readFrom_through n first hfirst hlast]
  rfl

/-- `ReadValueArgs` over the argument that aborts. -/
theorem AbortsAt.readValues_through (h : AbortsAt c k) (n first : Nat) (hfirst : first ≤ k)
    (hlast : k < first + n) (m : Option Bytes) : c.readValues first n m = noted c k none := by
  induction n generalizing first m with
  | zero => omega
  | succ n ih =>
      rcases Nat.lt_or_eq_of_le hfirst with hlt | rfl
      · have hargc := h.lt
        simp only [Call.readValues, orNull, Eval.bind,
          h.evaluateValue_one (show first < c.argc by omega) (show first ≠ k by omega)]
        simp only [Prog.bind, Eval.bind, ih (first + 1) (by omega) (by omega)]
        rfl
      · simp only [Call.readValues, orNull, Eval.bind, h.evaluateValue_abort]
        rfl

/-- A run in which argument `k` is NULL and the call does not return NULL. -/
def Swallowed (c : Call) (k : Nat) (p : SysProg (Option Value × Option Bytes)) : Prop :=
  ∃ t₁ t₂ out, Yields p (t₁ ++ ⟨.null c.fn c.argc k, ()⟩ :: t₂) out ∧
    (∀ e ∈ t₁ ++ t₂, isNull e.1 = false) ∧ ∀ m, out ≠ some (none, m)

/-- The cleanup loop of `delete` never ends once a path was read. -/
theorem swallowed_deleteFn (h : AbortsAt c k) (hk : 1 ≤ k) (m : Option Bytes) :
    Swallowed c k (deleteFn c m) := by
  have hlt := h.lt
  simp only [deleteFn, Eval.bind, h.readFrom_through c.argc 0 (by omega) (by omega)]
  obtain ⟨j, rfl⟩ : ∃ j, k = j + 1 := ⟨k - 1, by omega⟩
  exact ⟨[], [], none, .op .halt, by simp, by rintro m' ⟨⟩⟩

/-- `retouch_binaries` returns "t" for arguments that are `NULL`. -/
theorem swallowed_retouchBinariesFn (h : AbortsAt c k) (m : Option Bytes) :
    Swallowed c k (retouchBinariesFn c m) := by
  have hlt := h.lt
  simp only [retouchBinariesFn, Eval.bind, h.readArgs_through c.argc 0 (by omega) (by omega)]
  exact ⟨[], [], _, .op (.ret _), by simp, by rintro m' ⟨⟩⟩

/-- So does `undo_retouch_binaries`. -/
theorem swallowed_undoRetouchBinariesFn (h : AbortsAt c k) (m : Option Bytes) :
    Swallowed c k (undoRetouchBinariesFn c m) := by
  have hlt := h.lt
  simp only [undoRetouchBinariesFn, Eval.bind, h.readArgs_through c.argc 0 (by omega) (by omega)]
  exact ⟨[], [], _, .op (.ret _), by simp, by rintro m' ⟨⟩⟩

/-- `apply_patch_check` follows the null pointer it got for the digests. -/
theorem swallowed_applyPatchCheckFn (h : AbortsAt c k) (hk : 1 ≤ k) (m : Option Bytes) :
    Swallowed c k (applyPatchCheckFn c m) := by
  have hlt := h.lt
  rw [applyPatchCheckFn, if_neg (by omega)]
  simp only [orNull, Eval.bind, h.readArgs_before 1 0 (by omega)]
  simp only [Prog.bind, List.replicate, applyPatchCheckRest, Eval.bind,
    h.readArgs_through (c.argc - 1) 1 hk (by omega)]
  -- the check is made with a null pointer, and dies on it
  refine ⟨[⟨.args c.fn [cstr "1"], ()⟩], [⟨.own (.applypatchCheck (cstr "1") none), none⟩], none, ?_,
    by simp [isNull], by rintro m' ⟨⟩⟩
  exact .op (.op (.op .halt))

/-- `apply_patch` follows the null pointer it got for the digests and patches. -/
theorem swallowed_applyPatchFn (w : Nat) (h : AbortsAt c k) (hargc : 6 ≤ c.argc)
    (heven : c.argc % 2 = 0) (hk : 4 ≤ k) (m : Option Bytes) :
    Swallowed c k (applyPatchFn w c m) := by
  have hlt := h.lt
  have hcount : byteCount w (cstr "1") = some ((strtol w (cstr "1")).1 % 2 ^ w).toNat := rfl
  rw [applyPatchFn, if_neg (by omega)]
  simp only [orNull, Eval.bind, h.readArgs_before 4 0 (by omega)]
  simp only [Prog.bind, List.replicate, applyPatchRest, hcount, Eval.bind,
    h.readValues_through (c.argc - 4) 4 hk (by omega)]
  exact ⟨[⟨.args c.fn [cstr "1", cstr "1", cstr "1", cstr "1"], ()⟩], [], none, .op (.op .halt),
    by simp [isNull], by rintro m' ⟨⟩⟩

/-- Each call of `swallows` has such a run. -/
theorem swallowed_run (L : Libs) (h : AbortsAt c k) (hs : swallows c.fn c.argc k = true)
    (m : Option Bytes) : Swallowed c k (run L c m) := by
  cases hfn : c.fn <;> rw [hfn] at hs <;> simp only [swallows, Bool.false_eq_true, decide_eq_true_eq] at hs
  case delete =>
      simp only [run, hfn]
      exact swallowed_deleteFn h hs.1 m
  case retouchBinaries =>
      simp only [run, hfn]
      exact swallowed_retouchBinariesFn h m
  case undoRetouchBinaries =>
      simp only [run, hfn]
      exact swallowed_undoRetouchBinariesFn h m
  case applyPatch =>
      simp only [run, hfn]
      exact swallowed_applyPatchFn _ h hs.1 hs.2.1 hs.2.2.1 m
  case applyPatchCheck =>
      simp only [run, hfn]
      exact swallowed_applyPatchCheckFn h hs.1 m

end Swallow

/-- A position that is swallowed is one of the call. -/
theorem lt_of_swallows {fn : Fn} {argc k : Nat} (h : swallows fn argc k = true) : k < argc := by
  cases fn <;> simp only [swallows, Bool.false_eq_true, decide_eq_true_eq] at h <;> omega

/-- At each position that `swallows` names, a run swallows the `NULL`. -/
theorem not_propagates_of_swallows {L : Libs} {name : Name} {fn : Fn} {argc k : Nat}
    (h : swallows fn argc k = true) : ¬ Propagates L name fn argc k := by
  intro hp
  have hk := lt_of_swallows h
  have hargs := abortsAt_abortingArgs L [] fn name hk
  have hargc : Call.argc ⟨fn, name, Expr.evalArgs L [] (abortingArgs argc k), []⟩ = argc := by
    simp [Call.argc, Expr.evalArgs_eq_map, abortingArgs]
  obtain ⟨t₁, t₂, out, hy, hother, hout⟩ := swallowed_run L hargs (by rw [hargc]; exact h) none
  rw [hargc] at hy
  have hlen : (abortingArgs argc k).length = argc := by simp [abortingArgs]
  have haborts := hp [] (abortingArgs argc k) 0 0 none _ out hlen (by rw [Expr.eval]; exact hy) ?_
  · obtain ⟨-, m, hm⟩ := haborts t₁ _ t₂ rfl rfl
    exact hout m hm
  · intro e he hnull
    rcases List.mem_append.mp he with he | he
    · rw [hother e (List.mem_append_left _ he)] at hnull
      cases hnull
    · rcases List.mem_cons.mp he with rfl | he
      · rfl
      · rw [hother e (List.mem_append_right _ he)] at hnull
        cases hnull

/-- An abort is passed on by exactly the calls outside `swallows`; and in every run of a script
without a swallowed NULL, the first NULL ends the script with NULL and nothing is done after it. -/
theorem abort_propagates_iff (L : Libs) :
    (∀ name fn, (name, fn) ∈ registered → ∀ argc k,
      (Propagates L name fn argc k ↔ swallows fn argc k = false)) ∧
    ∀ script root m t out, Yields (Expr.evaluateRoot L script root m) t out →
      (∀ e ∈ t, isSwallowed e.1 = false) → Aborts t out := by
  constructor
  · intro name fn _ argc k
    constructor
    · intro hp
      by_contra hs
      exact not_propagates_of_swallows (Bool.eq_true_of_not_eq_false hs) hp
    · exact propagates_of_not_swallows
  · intro script root m t out hy hgood
    exact (quits_evaluate (Expr.quits_eval L script root)).aborts hy hgood

namespace Sample

open OpenRecovery.ApplyPatch.Sample

/-- `concat("1", abort())`. -/
def concatAborted : Expr := .node .concat (cstr "concat") (abortingArgs 2 1) 0 0

/-- `retouch_binaries(abort(), "1")`. -/
def retouchAborted : Expr := .node .retouchBinaries (cstr "retouch_binaries") (abortingArgs 2 0) 0 0

theorem abort_propagates_concat :
    (cstr "concat", Fn.concat) ∈ registered ∧ Propagates libs (cstr "concat") .concat 2 1 ∧
    ∃ t, Yields (Expr.evaluateRoot libs [] concatAborted none) t (some (none, abortMsg)) ∧
      (∃ e ∈ t, isNull e.1 = true) ∧
      Aborts t (some ((none : Option Bytes), abortMsg)) := by
  have hmem : (cstr "concat", Fn.concat) ∈ registered := by decide
  have hrun : Yields (Expr.evaluateRoot libs [] concatAborted none)
      [⟨.null .concat 2 1, ()⟩] (some (none, abortMsg)) := .op (.ret _)
  refine ⟨hmem, ((abort_propagates_iff libs).1 _ _ hmem 2 1).2 rfl, _, hrun,
    ⟨_, List.mem_singleton_self _, rfl⟩, ?_⟩
  apply (abort_propagates_iff libs).2 [] concatAborted none _ _ hrun
  intro e he
  rw [List.mem_singleton.mp he]
  rfl

/-- An aborted argument, and the script is a success. -/
theorem retouchAborted_succeeds :
    ∃ t, Yields (Expr.evaluateRoot libs [] retouchAborted none) t
        (some (some (cstr "t"), abortMsg)) ∧
      (∃ e ∈ t, isNull e.1 = true) ∧ ¬ Aborts t (some (some (cstr "t"), abortMsg)) := by
  refine ⟨[⟨.null .retouchBinaries 2 0, ()⟩], .op (.ret _), ⟨_, List.mem_singleton_self _, rfl⟩, ?_⟩
  intro h
  obtain ⟨-, m, hm⟩ := h [] _ [] rfl rfl
  cases hm

end Sample

end OpenRecovery.Updater
