import OpenRecovery.Updater.Abort

/-!
# Results and error messages

A script that fails carries a message, and one that reported an error does not end as a success:
`Evaluate` returns NULL if and only if `errmsg` is set. Every function keeps this (`tells_run`) if
its arguments do, except in the events of `Misreports`: `retouch_binaries` and
`undo_retouch_binaries` report a failure and return a value, or fail without a report, and `format`
returns NULL for an unsupported file system without a message. `message_iff_null` is about every
script and every run without these events.
-/

set_option autoImplicit false

namespace OpenRecovery.Updater

open OpenRecovery.ApplyPatch OpenRecovery.Crash OpenRecovery.Edify OpenRecovery.Edify.Eval
open OpenRecovery.Storage

/-- `retouch_binaries` and `undo_retouch_binaries`. -/
def isRetouch (fn : Fn) : Bool := fn = .retouchBinaries ∨ fn = .undoRetouchBinaries

/-- A file system type that `format` does not support, in a call that passes its checks. -/
def unsupported : List Bytes → Bool
  | [fsType, partitionType, location, _] =>
      fsType ≠ [] ∧ fsType ≠ cstr "ext4" ∧ partitionType ≠ [] ∧ location ≠ []
  | _ => false

/-- Arguments with which the function returns a result that does not fit the message: an entry
without a partner, an unsupported file system. -/
def misleadingArgs (fn : Fn) (vals : List Bytes) : Bool :=
  (isRetouch fn ∧ vals.length % 2 = 1) ∨ (fn = .format ∧ unsupported vals)

/-- The events after which result and message can differ. -/
def Misreports : (o : Sys) → o.Res → Prop
  -- a library that could not be retouched sets a message, and the loop goes on
  | .own (.retouchOneLibrary _ _ _ _), r => (show Bool × BitVec 32 from r).1 = false
  -- a NULL argument stops the two with a value, and the message of the argument stays
  | .null fn _ _, _ => isRetouch fn = true
  | .args fn vals, _ => misleadingArgs fn vals = true
  | _, _ => False

/-- The runs without such an event. -/
def reportMonitor : Monitor Unit Sys Sys.Res where
  skip _ o r := Misreports o r
  demand _ _ := True
  next _ _ _ := ()

section Rules

variable {α β : Type}

/-- From the message `m` on, the evaluation returns only in `P`. -/
def Tells (P : α → Option Bytes → Prop) (x : Eval α) (m : Option Bytes) : Prop :=
  watch reportMonitor (fun out _ => ∀ a m', out = some (a, m') → P a m') (x m) ()

variable {P : α → Option Bytes → Prop} {Q : β → Option Bytes → Prop} {m : Option Bytes}

/-- A value without any operation. -/
theorem tells_pure {a : α} (h : P a m) : Tells P (Eval.pure a) m := by
  rintro a' m' ⟨⟩
  exact h

theorem tells_die : Tells P (die : Eval α) m := nofun

/-- A weaker statement about the result. -/
theorem Tells.mono {P P' : α → Option Bytes → Prop} {x : Eval α} (h : Tells P x m)
    (hP : ∀ a m', P a m' → P' a m') : Tells P' x m := by
  apply watch_mono _ h
  intro out _ hout a m' heq
  exact hP a m' (hout a m' heq)

/-- Two evaluations, one after the other. -/
theorem tells_bind {x : Eval α} {f : α → Eval β} (hx : Tells P x m)
    (hf : ∀ a m', P a m' → Tells Q (f a) m') : Tells Q (x.bind f) m := by
  apply watch_bind hx
  · intro _ _ b m' h
    cases h
  · intro r _ hr
    exact hf r.1 r.2 (hr r.1 r.2 rfl)

/-- The operations of a function's own body set no message. -/
theorem tells_own {p : OwnProg α} (h : ∀ a, P a m) : Tells P (own p) m := by
  apply watch_bind (R := fun _ _ => True)
  · exact watch_lift (fun o r _ => ⟨trivial, rfl⟩) fun _ => trivial
  · intro _ _ a m' heq
    cases heq
  · intro a _ _ a' m' heq
    cases heq
    exact h a

/-- The message is the one that was set. -/
theorem tells_setErrmsg {msg : Bytes} {P : Unit → Option Bytes → Prop} (h : P () (some msg)) :
    Tells P (setErrmsg msg) m := by
  rintro a m' ⟨⟩
  exact h

/-- A note that misreports ends what can be said. -/
theorem tells_note {e : Sys} {P : Unit → Option Bytes → Prop}
    (h : ∀ r, ¬ Misreports e r → P () m) : Tells P (note e) m := by
  intro r hskip
  refine ⟨trivial, ?_⟩
  rintro a m' ⟨⟩
  exact h r hskip

end Rules

/-- The result is NULL if and only if there is a message. -/
def Agree {α : Type} (r : Option α) (m : Option Bytes) : Prop := r = none ↔ m ≠ none

/-- Result and message agree, and a string is not NULL. -/
def Proper (r : Option Value) (m : Option Bytes) : Prop :=
  Agree r m ∧ ∀ v, r = some v → v.type = .string → v.data ≠ none

theorem agree_none {α : Type} (msg : Bytes) : Agree (none : Option α) (some msg) :=
  ⟨nofun, fun _ => rfl⟩

theorem agree_some {α : Type} (a : α) : Agree (some a) none := ⟨nofun, fun h => absurd rfl h⟩

theorem proper_none (msg : Bytes) : Proper none (some msg) := ⟨agree_none msg, nofun⟩

theorem proper_some {v : Value} (h : v.type = .string → v.data ≠ none) : Proper (some v) none := by
  refine ⟨agree_some v, ?_⟩
  rintro v' ⟨⟩
  exact h

/-- A string is a proper value. -/
theorem proper_string (s : Bytes) : Proper (some (stringValue s)) none :=
  proper_some fun _ => nofun

/-- A NULL comes with its message. -/
theorem Agree.null {α : Type} {m : Option Bytes} (h : Agree (none : Option α) m) :
    ∃ msg, m = some msg := Option.ne_none_iff_exists'.mp (h.1 rfl)

/-- A value comes without a message. -/
theorem Agree.value {α : Type} {a : α} {m : Option Bytes} (h : Agree (some a) m) : m = none := by
  by_contra hm
  cases h.2 hm

section Combinators

variable {α β : Type} {m : Option Bytes}

/-- `if (x == NULL) return NULL`, with a condition on the value. -/
theorem tells_orNull {R : α → Prop} {Q : Option β → Option Bytes → Prop} {x : Eval (Option α)}
    {f : α → Eval (Option β)}
    (hx : Tells (fun r m' => Agree r m' ∧ ∀ a, r = some a → R a) x m)
    (hnull : ∀ msg, Q none (some msg)) (hf : ∀ a, R a → Tells Q (f a) none) :
    Tells Q (orNull x f) m := by
  apply tells_bind hx
  rintro r m' ⟨hagree, hr⟩
  cases r with
  | none =>
      obtain ⟨msg, rfl⟩ := hagree.null
      exact tells_pure (hnull msg)
  | some a =>
      rw [hagree.value]
      exact hf a (hr a rfl)

/-- Set a message and return NULL. -/
theorem tells_failure (msg : Bytes) :
    Tells (fun r m' => r = none ∧ m' = some msg) (nullWith msg) m :=
  tells_bind (P := fun _ m' => m' = some msg) (tells_setErrmsg rfl)
    fun _ _ h => tells_pure ⟨rfl, h⟩

/-- A message and `NULL`. -/
theorem tells_nullWith (msg : Bytes) : Tells Proper (nullWith msg) m := by
  refine (tells_failure msg).mono ?_
  rintro r m' ⟨rfl, rfl⟩
  exact proper_none msg

/-- `ErrorAbort` sets a message. -/
theorem tells_errorAbort (msg : Bytes) : Tells Proper (errorAbort msg) m :=
  tells_nullWith (msg.take 4095)

/-- The values that functions return are proper. -/
theorem proper_result (r : Result) : Proper (some r.value) none := by
  cases r with
  | string s => exact proper_string s
  | blob size data => exact proper_some nofun

/-- The body of a function returns a value, or `NULL` with a message. -/
theorem tells_finish (p : OwnProg (Except Bytes Result)) : Tells Proper (finish p) none := by
  apply tells_bind (P := fun _ m' => m' = none) (tells_own fun _ => rfl)
  rintro r m' rfl
  cases r with
  | error msg => exact tells_errorAbort msg
  | ok v => exact tells_pure (proper_result v)

/-- `Evaluate` of a value that is not a null string. -/
theorem tells_stringOf {v : Value} (hv : v.type = .string → v.data ≠ none) :
    Tells Agree (stringOf v) none := by
  by_cases htype : v.type = .string
  · rw [stringOf, if_neg (by simpa using htype)]
    obtain ⟨s, hs⟩ := Option.ne_none_iff_exists'.mp (hv htype)
    rw [hs]
    exact tells_pure (agree_some s)
  · rw [stringOf, if_pos htype]
    apply tells_bind (tells_failure ((cstr "expecting string, got value type 2").take 4095))
    rintro r m' ⟨-, rfl⟩
    exact tells_pure (agree_none _)

end Combinators

/-! ## Reading arguments -/

/-- The arguments of a call tell their errors. -/
def ArgsTell (c : Call) : Prop := ∀ a ∈ c.argv, Tells Proper a.eval none

section Arguments

variable {c : Call}

/-- `Evaluate` of a proper value. -/
theorem tells_evaluate {x : Eval (Option Value)} (hx : Tells Proper x none) :
    Tells Agree (Edify.evaluate x) none :=
  tells_orNull hx agree_none fun _ hv => tells_stringOf hv

/-- The note of a NULL argument is left behind by functions other than the two of `isRetouch`. -/
theorem tells_noteNull {α : Type} {P : Option α → Option Bytes → Prop} {x : Eval (Option α)}
    (hx : Tells P x none) (k : Nat) :
    Tells (fun r m => P r m ∧ (r = none → isRetouch c.fn = false)) (x.bind (c.noteNull k)) none := by
  apply tells_bind hx
  intro r m hr
  cases r with
  | none =>
      simp only [Call.noteNull]
      apply tells_bind (P := fun _ m' => m' = m ∧ isRetouch c.fn = false)
      · apply tells_note
        intro _ hskip
        -- the note is not one of `Misreports`, so the function is not one of the two
        exact ⟨rfl, Bool.eq_false_iff.mpr hskip⟩
      · rintro _ m' ⟨rfl, hfn⟩
        exact tells_pure ⟨hr, fun _ => hfn⟩
  | some a => exact tells_pure ⟨hr, nofun⟩

/-- An argument that is not there ends the run. -/
theorem tells_outside {α : Type} {P : α → Option Bytes → Prop} {m : Option Bytes} (k : Nat) :
    Tells P (c.outside k : Eval α) m :=
  tells_bind (P := fun _ _ => True) (tells_note fun _ _ => trivial) fun _ _ _ => tells_die

/-- An argument of the call; `NULL` is seen by every function but the two that retouch. -/
theorem tells_call_evaluateValue (h : ArgsTell c) (k : Nat) :
    Tells (fun r m => Proper r m ∧ (r = none → isRetouch c.fn = false)) (c.evaluateValue k)
      none := by
  unfold Call.evaluateValue
  cases hk : c.argv[k]? with
  | none => exact tells_outside k
  | some a => exact tells_noteNull (h a (List.mem_of_getElem? hk)) k

/-- The same for a string argument. -/
theorem tells_call_evaluate (h : ArgsTell c) (k : Nat) :
    Tells (fun r m => Agree r m ∧ (r = none → isRetouch c.fn = false)) (c.evaluate k) none := by
  unfold Call.evaluate
  cases hk : c.argv[k]? with
  | none => exact tells_outside k
  | some a => exact tells_noteNull (tells_evaluate (h a (List.mem_of_getElem? hk))) k

/-- An argument of the call is proper. -/
theorem tells_value (h : ArgsTell c) (k : Nat) : Tells Proper (c.evaluateValue k) none :=
  (tells_call_evaluateValue h k).mono fun _ _ hr => hr.1

/-- A string argument agrees with the message. -/
theorem tells_string (h : ArgsTell c) (k : Nat) :
    Tells (fun r m => Agree r m ∧ ∀ s, r = some s → True) (c.evaluate k) none :=
  (tells_call_evaluate h k).mono fun _ _ hr => ⟨hr.1, fun _ _ => trivial⟩

/-- What has been read, or that there is a message and the function is not one of `isRetouch`. -/
def ReadPost (c : Call) (r : Except Nat (List Bytes)) (m : Option Bytes) : Prop :=
  match r with
  | .ok _ => m = none
  | .error _ => m ≠ none ∧ isRetouch c.fn = false

/-- Reading arguments stops at the first `NULL`. Induction on their number. -/
theorem tells_readFrom (h : ArgsTell c) (count first : Nat) :
    Tells (ReadPost c) (c.readFrom count first) none := by
  induction count generalizing first with
  | zero => exact tells_pure rfl
  | succ n ih =>
      apply tells_bind (tells_call_evaluate h first)
      rintro r m ⟨hagree, hfn⟩
      cases r with
      | none => exact tells_pure ⟨hagree.1 rfl, hfn rfl⟩
      | some s =>
          rw [hagree.value]
          apply tells_bind (ih (first + 1))
          intro rest m' hrest
          cases rest with
          | error k => exact tells_pure hrest
          | ok vals => exact tells_pure hrest

/-- The strings a function goes on with are not misleading. -/
theorem tells_readArgs (h : ArgsTell c) (first count : Nat) :
    Tells (fun r m => (Agree r m ∧ ∀ vals, r = some vals → misleadingArgs c.fn vals = false) ∧
      (r = none → isRetouch c.fn = false)) (c.readArgs first count) none := by
  apply tells_bind (tells_readFrom h count first)
  intro r m hr
  cases r with
  | error k =>
      obtain ⟨msg, rfl⟩ := Option.ne_none_iff_exists'.mp hr.1
      exact tells_pure ⟨⟨agree_none msg, nofun⟩, fun _ => hr.2⟩
  | ok vals =>
      -- the strings that were read are noted, which rules out the misleading ones
      apply tells_bind (P := fun _ m' => m' = none ∧ misleadingArgs c.fn vals = false)
      · apply tells_note
        intro _ hskip
        exact ⟨hr, Bool.eq_false_iff.mpr hskip⟩
      · rintro _ m' ⟨rfl, hvals⟩
        refine tells_pure ⟨⟨agree_some vals, ?_⟩, nofun⟩
        rintro vals' ⟨⟩
        exact hvals

/-- `ReadArgs` returns `NULL` with a message. -/
theorem tells_strings (h : ArgsTell c) (first count : Nat) :
    Tells (fun r m => Agree r m ∧ ∀ vals, r = some vals → misleadingArgs c.fn vals = false)
      (c.readArgs first count) none :=
  (tells_readArgs h first count).mono fun _ _ hr => hr.1

/-- `ReadValueArgs` returns `NULL` with a message. -/
theorem tells_readValues (h : ArgsTell c) (first count : Nat) :
    Tells (fun r m => Agree r m ∧ ∀ vs, r = some vs → True) (c.readValues first count) none := by
  induction count generalizing first with
  | zero => exact tells_pure ⟨agree_some [], fun _ _ => trivial⟩
  | succ n ih =>
      apply tells_orNull (tells_value h first)
      · intro msg
        exact ⟨agree_none msg, fun _ _ => trivial⟩
      · intro v _
        apply tells_orNull (ih (first + 1))
        · intro msg
          exact ⟨agree_none msg, fun _ _ => trivial⟩
        · intro vs _
          exact tells_pure ⟨agree_some _, fun _ _ => trivial⟩

/-- A function that reads its arguments, and works on the strings. -/
theorem tells_withArgs (h : ArgsTell c) (count : Nat)
    (body : List Bytes → OwnProg (Except Bytes Result)) :
    Tells Proper (withArgs c count body) none :=
  tells_orNull (tells_strings h 0 count) proper_none fun _ _ => tells_finish _

end Arguments

/-! ## The functions -/

section Functions

variable {c : Call} {m : Option Bytes}

/-- Each branch, under its condition. -/
theorem tells_ite {α : Type} {P : α → Option Bytes → Prop} {p : Prop} [Decidable p] {x y : Eval α}
    (hx : p → Tells P x m) (hy : ¬ p → Tells P y m) : Tells P (if p then x else y) m := by
  split
  · rename_i h
    exact hx h
  · rename_i h
    exact hy h

/-- A check of the number of arguments, and then the arguments. -/
theorem tells_checked {p : Prop} [Decidable p] (h : ArgsTell c) (count : Nat)
    (body : List Bytes → OwnProg (Except Bytes Result)) (msg : Bytes) :
    Tells Proper (if p then errorAbort msg else withArgs c count body) none :=
  tells_ite (fun _ => tells_errorAbort msg) fun _ => tells_withArgs h count body

theorem tells_ifElseFn (h : ArgsTell c) : Tells Proper (ifElseFn c) none := by
  refine tells_ite (fun _ => tells_nullWith _) fun _ => ?_
  refine tells_orNull (tells_string h 0) proper_none fun cond _ => ?_
  exact tells_ite (fun _ => tells_value h 1) fun _ =>
    tells_ite (fun _ => tells_value h 2) fun _ => tells_pure (proper_string cond)

theorem tells_abortFn (h : ArgsTell c) : Tells Proper (abortFn c) none := by
  refine tells_ite (fun _ => ?_) fun _ => tells_nullWith _
  exact tells_bind (tells_string h 0) fun _ _ _ => tells_nullWith _

theorem tells_assertLoop (h : ArgsTell c) (n k : Nat) : Tells Proper (assertLoop c n k) none := by
  induction n generalizing k with
  | zero => exact tells_pure (proper_string [])
  | succ n ih =>
      refine tells_orNull (tells_string h k) proper_none fun v _ => ?_
      refine tells_ite (fun _ => ih (k + 1)) fun _ => ?_
      split
      · exact tells_die
      · exact tells_nullWith _

theorem tells_stdoutLoop (h : ArgsTell c) (n k : Nat) : Tells Proper (stdoutLoop c n k) none := by
  induction n generalizing k with
  | zero => exact tells_pure (proper_string [])
  | succ n ih =>
      refine tells_orNull (tells_string h k) proper_none fun v _ => ?_
      apply tells_bind (P := fun _ m' => m' = none) (tells_own fun _ => rfl)
      rintro _ m' rfl
      exact ih (k + 1)

theorem tells_logicalAndFn (h : ArgsTell c) : Tells Proper (logicalAndFn c) none :=
  tells_orNull (tells_string h 0) proper_none fun left _ =>
    tells_ite (fun _ => tells_value h 1) fun _ => tells_pure (proper_string left)

theorem tells_logicalOrFn (h : ArgsTell c) : Tells Proper (logicalOrFn c) none :=
  tells_orNull (tells_string h 0) proper_none fun left _ =>
    tells_ite (fun _ => tells_value h 1) fun _ => tells_pure (proper_string left)

theorem tells_sequenceFn (h : ArgsTell c) : Tells Proper (sequenceFn c) none :=
  tells_orNull (tells_value h 0) proper_none fun _ _ => tells_value h 1

theorem tells_lessThanIntFn (w : Nat) (h : ArgsTell c) : Tells Proper (lessThanIntFn w c) none :=
  tells_ite (fun _ => tells_nullWith _) fun _ => tells_withArgs h _ _

theorem tells_greaterThanIntFn (w : Nat) (h : ArgsTell c) :
    Tells Proper (greaterThanIntFn w c) none := by
  refine tells_ite (fun _ => tells_nullWith _) fun _ => ?_
  -- `GreaterThanIntFn` swaps its arguments and calls `LessThanIntFn`
  apply tells_lessThanIntFn
  intro a ha
  exact h a (List.mem_reverse.mp ha)

/-- The checks of `FormatFn` find the first empty argument. -/
theorem emptyArg_eq_none {name : Name} {args : List (String × Bytes)}
    (h : emptyArg name args = none) : ∀ a ∈ args, a.2 ≠ [] := by
  induction args with
  | nil => simp
  | cons a args ih =>
      simp only [emptyArg] at h
      split at h
      · cases h
      · rename_i hne
        intro b hb
        rcases List.mem_cons.mp hb with rfl | hb
        · exact hne
        · exact ih h b hb

/-- `format` sets its messages itself. -/
theorem tells_formatFn (hfn : c.fn = .format) (h : ArgsTell c) : Tells Proper (formatFn c) none := by
  refine tells_ite (fun _ => tells_errorAbort _) fun _ => ?_
  refine tells_orNull (tells_strings h 0 4) proper_none fun vals hvals => ?_
  unfold formatArgs
  split
  · rename_i fsType partitionType location fsSize
    split
    · exact tells_errorAbort _
    · rename_i hempty
      have hne := emptyArg_eq_none hempty
      apply tells_bind (P := fun _ m' => m' = none) (tells_own fun _ => rfl)
      rintro mountPoint m' rfl
      cases mountPoint with
      | none => exact tells_die
      | some mountPoint =>
          refine tells_ite (fun _ => tells_errorAbort _) fun _ => ?_
          refine tells_ite (fun _ => ?_) fun htype => ?_
          · apply tells_bind (P := fun _ m' => m' = none) (tells_own fun _ => rfl)
            rintro status m' rfl
            exact tells_pure (proper_string _)
          · -- an unsupported file system is one of the misleading arguments
            simp only [misleadingArgs, unsupported, hfn] at hvals
            simp_all
  · exact tells_die

/-- `delete` loses no message that it got. -/
theorem tells_deleteFn (h : ArgsTell c) : Tells Proper (deleteFn c) none := by
  apply tells_bind (tells_readFrom h c.argc 0)
  intro r m' hr
  match r with
  | .error 0 =>
      obtain ⟨msg, rfl⟩ := Option.ne_none_iff_exists'.mp hr.1
      exact tells_pure (proper_none msg)
  | .error (_ + 1) => exact tells_die
  | .ok paths =>
      cases hr
      exact tells_finish _

theorem tells_symlinkFn (h : ArgsTell c) : Tells Proper (symlinkFn c) none := by
  refine tells_ite (fun _ => tells_errorAbort _) fun _ => ?_
  refine tells_orNull (tells_string h 0) proper_none fun target _ => ?_
  exact tells_orNull (tells_strings h 1 _) proper_none fun _ _ => tells_finish _

/-- `package_extract_file` in both of its forms. -/
theorem tells_packageExtractFileFn (h : ArgsTell c) :
    Tells Proper (packageExtractFileFn c) none :=
  tells_ite (fun _ => tells_errorAbort _) fun _ =>
    tells_ite (fun _ => tells_withArgs h _ _) fun _ => tells_withArgs h _ _

/-- As long as every library is retouched, nothing is reported. -/
theorem tells_pairLoop {σ : Type} {verb : String} {step : Bytes → Bytes → σ → OwnProg (Bool × σ)}
    (hstep : ∀ name sha1 v, Tells (fun r m' => r.1 = true ∧ m' = none) (own (step name sha1 v)) none)
    (entries : List Bytes) (v : σ) :
    Tells (fun ok m' => ok = true ∧ m' = none) (pairLoop verb step entries true v) none := by
  -- two arguments are one library, so the induction takes two at a time
  induction entries using List.twoStepInduction generalizing v with
  | nil => exact tells_pure ⟨rfl, rfl⟩
  | singleton name => exact tells_pure ⟨rfl, rfl⟩
  | cons_cons name sha1 rest ih _ =>
      apply tells_bind (hstep name sha1 v)
      rintro ⟨ok, v'⟩ m' ⟨hok, rfl⟩
      simp only at hok
      subst hok
      apply tells_bind (P := fun _ m' => m' = none) (tells_pure rfl)
      rintro _ m' rfl
      exact ih v'

/-- One pair of `undo_retouch_binaries` sets no message. -/
theorem tells_undoStep (name sha1 : Bytes) (v : Unit) :
    Tells (fun r m' => r.1 = true ∧ m' = none) (own (undoStep name sha1 v)) none := by
  intro r hskip
  refine ⟨trivial, ?_⟩
  rintro a m' ⟨⟩
  exact ⟨Bool.eq_true_of_not_eq_false hskip, rfl⟩

/-- One pair of `retouch_binaries` sets no message. -/
theorem tells_retouchStep (name sha1 : Bytes) (v : RetouchVars) :
    Tells (fun r m' => r.1 = true ∧ m' = none) (own (retouchStep name sha1 v)) none := by
  unfold retouchStep
  split
  · intro r hskip
    refine ⟨trivial, ?_⟩
    rintro a m' ⟨⟩
    exact ⟨Bool.eq_true_of_not_eq_false hskip, rfl⟩
  · intro r hskip
    refine ⟨trivial, ?_⟩
    rintro a m' ⟨⟩
    exact ⟨Bool.eq_true_of_not_eq_false hskip, rfl⟩

/-- An even number of entries that were all retouched gives `"t"`. -/
theorem tells_pairResult {entries : List Bytes} (hfn : isRetouch c.fn = true)
    (h : misleadingArgs c.fn entries = false) :
    Tells Proper (Eval.pure (some (pairResult entries true))) none := by
  -- an odd number would be misleading
  have heven : entries.length % 2 = 0 := by
    simp only [misleadingArgs, hfn] at h
    simp at h
    omega
  rw [pairResult, if_pos ⟨rfl, heven⟩]
  exact tells_pure (proper_string _)

/-- `retouch_binaries` returns "t" when it has read all its arguments. -/
theorem tells_retouchBinariesFn (hfn : c.fn = .retouchBinaries) (h : ArgsTell c) :
    Tells Proper (retouchBinariesFn c) none := by
  have hretouch : isRetouch c.fn = true := by rw [hfn]; rfl
  apply tells_bind (tells_readArgs h 0 c.argc)
  rintro r m' ⟨⟨hagree, hvals⟩, hnull⟩
  cases r with
  | none =>
      rw [hretouch] at hnull
      cases hnull rfl
  | some entries =>
      rw [hagree.value]
      simp only [retouchArgs]
      apply tells_bind (P := fun _ m' => m' = none) (tells_own fun _ => rfl)
      rintro base m' rfl
      apply tells_bind (tells_pairLoop tells_retouchStep entries _)
      rintro ok m' ⟨rfl, rfl⟩
      exact tells_pairResult hretouch (hvals entries rfl)

theorem tells_undoRetouchBinariesFn (hfn : c.fn = .undoRetouchBinaries) (h : ArgsTell c) :
    Tells Proper (undoRetouchBinariesFn c) none := by
  have hretouch : isRetouch c.fn = true := by rw [hfn]; rfl
  apply tells_bind (tells_readArgs h 0 c.argc)
  rintro r m' ⟨⟨hagree, hvals⟩, hnull⟩
  cases r with
  | none =>
      rw [hretouch] at hnull
      cases hnull rfl
  | some entries =>
      rw [hagree.value]
      simp only [undoArgs]
      apply tells_bind (tells_pairLoop tells_undoStep entries _)
      rintro ok m' ⟨rfl, rfl⟩
      exact tells_pairResult hretouch (hvals entries rfl)

/-- `apply_patch` sets a message for what it refuses. -/
theorem tells_applyPatchFn (w : Nat) (h : ArgsTell c) : Tells Proper (applyPatchFn w c) none := by
  refine tells_ite (fun _ => tells_errorAbort _) fun _ => ?_
  refine tells_orNull (tells_strings h 0 4) proper_none fun vals _ => ?_
  unfold applyPatchRest
  split
  · split
    · exact tells_errorAbort _
    · apply tells_bind (tells_readValues h 4 (c.argc - 4))
      rintro r m' ⟨hagree, -⟩
      cases r with
      | none => exact tells_die
      | some values =>
          rw [hagree.value]
          simp only [applyPatchValues]
          split
          · exact tells_errorAbort _
          · exact tells_finish _
  · exact tells_die

theorem tells_applyPatchCheckFn (h : ArgsTell c) : Tells Proper (applyPatchCheckFn c) none := by
  refine tells_ite (fun _ => tells_errorAbort _) fun _ => ?_
  refine tells_orNull (tells_strings h 0 1) proper_none fun vals _ => ?_
  unfold applyPatchCheckRest
  split
  · apply tells_bind (tells_strings h 1 (c.argc - 1))
    rintro r m' ⟨hagree, -⟩
    cases r with
    | none => exact tells_bind (P := fun _ _ => True) (tells_own fun _ => trivial) fun _ _ _ => tells_die
    | some sha1s =>
        rw [hagree.value]
        exact tells_finish _
  · exact tells_die

/-- The comparison with the digests. -/
theorem tells_matchDigest (digest : Bytes) (vs : List Value) :
    Tells Proper (matchDigest digest vs) none := by
  induction vs with
  | nil => exact tells_pure (proper_string [])
  | cons v rest ih =>
      refine tells_ite (fun _ => ih) fun _ => ?_
      split
      · exact tells_die
      · rename_i str hdata
        refine tells_ite (fun _ => tells_pure (proper_some fun _ => ?_)) fun _ => ih
        rw [hdata]
        exact nofun

theorem tells_sha1CheckFn (L : Libs) (h : ArgsTell c) : Tells Proper (sha1CheckFn L c) none := by
  refine tells_ite (fun _ => tells_errorAbort _) fun _ => ?_
  refine tells_orNull (tells_readValues h 0 _) proper_none fun vs _ => ?_
  cases vs with
  | nil => exact tells_die
  | cons v rest =>
      refine tells_ite (fun _ => tells_pure (proper_string [])) fun _ => ?_
      split
      · exact tells_die
      · exact tells_ite (fun _ => tells_pure (proper_string _)) fun _ => tells_matchDigest _ _

/-- Every function tells its errors if its arguments do. -/
theorem tells_run (L : Libs) (h : ArgsTell c) : Tells Proper (run L c) none := by
  cases hfn : c.fn <;> simp only [run, hfn]
  case literal => exact tells_pure (proper_string _)
  case logicalAnd => exact tells_logicalAndFn h
  case logicalOr => exact tells_logicalOrFn h
  case sequence => exact tells_sequenceFn h
  case ifElse => exact tells_ifElseFn h
  case abort => exact tells_abortFn h
  case assert => exact tells_assertLoop h _ _
  case stdout => exact tells_stdoutLoop h _ _
  case lessThanInt => exact tells_lessThanIntFn _ h
  case greaterThanInt => exact tells_greaterThanIntFn _ h
  case format => exact tells_formatFn hfn h
  case delete => exact tells_deleteFn h
  case packageExtractFile => exact tells_packageExtractFileFn h
  case retouchBinaries => exact tells_retouchBinariesFn hfn h
  case undoRetouchBinaries => exact tells_undoRetouchBinariesFn hfn h
  case symlink => exact tells_symlinkFn h
  case setPerm => exact tells_ite (fun _ => tells_finish _) fun _ => tells_withArgs h _ _
  case applyPatch => exact tells_applyPatchFn _ h
  case applyPatchCheck => exact tells_applyPatchCheckFn h
  case sha1Check => exact tells_sha1CheckFn L h
  case wipeCache => exact tells_ite (fun _ => tells_errorAbort _) fun _ => tells_finish _
  case mount | isMounted | unmount | showProgress | setProgress | packageExtractDir | getProp |
      readFile | runProgram =>
    -- these check the number of their arguments and do the rest in one program
    exact tells_checked h _ _ _
  -- the remaining functions have no check of their own
  all_goals exact tells_withArgs h _ _

end Functions

/-! ## Scripts -/

namespace Expr

mutual

/-- Every expression tells: structural recursion together with `argsTell`. -/
theorem tells_eval (L : Libs) (script : Bytes) : (e : Expr) → Tells Proper (e.eval L script) none
  | node _ _ argv _ _ => by
      rw [eval]
      exact tells_run L (argsTell L script argv)

/-- So do the arguments of a call. -/
theorem argsTell (L : Libs) (script : Bytes) :
    (argv : List Expr) → ∀ a ∈ evalArgs L script argv, Tells Proper a.eval none
  | [] => by
      intro a ha
      simp [evalArgs] at ha
  | e :: es => by
      intro a ha
      rw [evalArgs, List.mem_cons] at ha
      rcases ha with rfl | ha
      · exact tells_eval L script e
      · exact argsTell L script es a ha

end

end Expr

/-- A trace without misreports is one that the monitor takes. -/
theorem admits_reportMonitor {t : Trace Sys Sys.Res} (h : ∀ e ∈ t, ¬ Misreports e.1 e.2) :
    reportMonitor.Admits () t := by
  induction t with
  | nil => trivial
  | cons e t ih =>
      exact ⟨h e List.mem_cons_self, ih fun e' he' => h e' (List.mem_cons_of_mem e he')⟩

/-- Every expression tree, so every script that parses: in each run that returns and has none of the
events of `Misreports`, the result is NULL if and only if there is an error message. -/
theorem message_iff_null (L : Libs) (script : Bytes) (root : Expr) (t : Trace Sys Sys.Res)
    (r : Option Bytes) (m : Option Bytes)
    (hrun : Yields (Expr.evaluateRoot L script root none) t (some (r, m)))
    (hgood : ∀ e ∈ t, ¬ Misreports e.1 e.2) : r = none ↔ m ≠ none := by
  have htells : Tells Agree (Expr.evaluateRoot L script root) none :=
    tells_evaluate (Expr.tells_eval L script root)
  obtain ⟨-, hpost⟩ := watch_sound htells hrun (admits_reportMonitor hgood)
  exact hpost r m rfl

namespace Sample

open OpenRecovery.ApplyPatch.Sample

/-- `concat("1", abort())` fails with a message. -/
theorem message_iff_null_concat :
    ∃ t, Yields (Expr.evaluateRoot libs [] concatAborted none) t (some (none, abortMsg)) ∧
      ((none : Option Bytes) = none ↔ abortMsg ≠ none) := by
  have hrun : Yields (Expr.evaluateRoot libs [] concatAborted none)
      [⟨.null .concat 2 1, ()⟩] (some (none, abortMsg)) := .op (.ret _)
  refine ⟨_, hrun, message_iff_null libs [] concatAborted _ _ _ hrun ?_⟩
  intro e he
  rw [List.mem_singleton.mp he]
  exact Bool.false_ne_true

/-- `undo_retouch_binaries("1", "1"); "1"`. -/
def undoThenOne : Expr :=
  .node .sequence (cstr "(operator)")
    [.node .undoRetouchBinaries (cstr "undo_retouch_binaries")
      [literal (cstr "1"), literal (cstr "1")] 0 0, literal (cstr "1")] 0 0

/-- The library cannot be put back, this is reported, and the script is a success. -/
theorem undoThenOne_succeeds :
    ∃ t, Yields (Expr.evaluateRoot libs [] undoThenOne none) t
        (some (some (cstr "1"), some (cstr "Failed to unretouch '1'."))) ∧
      ¬ ((some (cstr "1") : Option Bytes) = none ↔
        (some (cstr "Failed to unretouch '1'.") : Option Bytes) ≠ none) := by
  have hmsg : (cstr "Failed to unretouch '1'.").take 4095 = cstr "Failed to unretouch '1'." := by
    decide
  refine ⟨[⟨.args .undoRetouchBinaries [cstr "1", cstr "1"], ()⟩,
    ⟨.own (.retouchOneLibrary (cstr "1") (cstr "1") 0 none), (false, (0 : BitVec 32))⟩], ?_, ?_⟩
  · rw [← hmsg]
    exact .op (.op (.ret _))
  · intro h
    exact absurd (h.2 nofun) nofun

end Sample

end OpenRecovery.Updater
