import OpenRecovery.Edify.Spans
import OpenRecovery.Updater.Script

/-!
# Argument counts

The parser accepts any number of arguments for any function, so every function has to check for
itself that the arguments it reads are there. `Careful x` says that an evaluation never looks for an
argument behind the last one and never uses a variable that reading the arguments has left
unassigned. `takes` are the argument counts of the functions, from their checks and, where there is
no check, from the comments above them.

`careless` lists the calls that go wrong: `sleep`, `is_substring`, `file_getprop` and
`apply_patch_space` do not check their arguments, and `format` reads four arguments into five
variables. `arity_safe_iff` says that there are no others.
-/

set_option autoImplicit false

namespace OpenRecovery.Updater

open OpenRecovery.Crash OpenRecovery.Edify OpenRecovery.Edify.Eval OpenRecovery.Storage

/-- The argument counts of a function. -/
def takes (name : Name) : Fn → Nat → Bool
  | .ifElse, n => n = 2 || n = 3
  | .substring, n => n = 2
  | .sleep, n => n = 1
  | .lessThanInt, n => n = 2
  | .greaterThanInt, n => n = 2
  | .mount, n => n = 4
  | .isMounted, n => n = 1
  | .unmount, n => n = 1
  | .format, n => n = 4
  | .showProgress, n => n = 2
  | .setProgress, n => n = 1
  | .packageExtractDir, n => n = 2
  | .packageExtractFile, n => n = 1 || n = 2
  | .symlink, n => n ≠ 0
  | .setPerm, n => (if name = cstr "set_perm_recursive" then 5 else 4) ≤ n
  | .getProp, n => n = 1
  | .fileGetProp, n => n = 2
  | .applyPatch, n => 6 ≤ n && n % 2 = 0
  | .applyPatchCheck, n => 1 ≤ n
  | .applyPatchSpace, n => n = 1
  | .readFile, n => n = 1
  | .sha1Check, n => 1 ≤ n
  | .wipeCache, n => n = 0
  | .runProgram, n => 1 ≤ n
  | _, _ => true

/-- The calls with which a function reads arguments that are not there, uses an unassigned variable,
or goes on with a wrong number of arguments. -/
def careless : Fn → Nat → Bool
  | .sleep, n => n ≠ 1
  | .substring, n => n ≠ 2
  | .fileGetProp, n => n ≠ 2
  | .applyPatchSpace, n => n ≠ 1
  | .format, n => n = 4
  | _, _ => false

/-- The argument counts of the operators; only the parser makes calls of them. -/
def operands : Fn → Nat → Bool
  | .logicalNot, n => n = 1
  | .logicalAnd, n => n = 2
  | .logicalOr, n => n = 2
  | .equality, n => n = 2
  | .inequality, n => n = 2
  | .sequence, n => n = 2
  | _, _ => true

/-- A read behind the last argument, or of a variable that was not assigned. -/
def Wild : Sys → Prop
  | .outside .. => True
  | .own .uninitString => True
  | _ => False

section Rules

variable {α β : Type}

/-- A program that uses no unassigned variable. -/
def Clean (p : OwnProg α) : Prop := p.Every fun o => ¬ Wild (.own o)

/-- An evaluation without a wild read. -/
def Careful (x : Eval α) : Prop := ∀ m, (x m).Every fun o => ¬ Wild o

/-- A call of the library that is not the use of an unassigned variable. -/
theorem clean_ask {o : Own} (h : ¬ Wild (.own o)) : Clean (ask o) := every_call h

/-- Two clean programs, one after the other. -/
theorem clean_bind {p : OwnProg α} {f : α → OwnProg β} (hp : Clean p) (hf : ∀ a, Clean (f a)) :
    Clean (p >>= f) := every_bind hp hf

theorem clean_ret (a : α) : Clean (pure a : OwnProg α) := trivial

theorem clean_halt : Clean (.halt : OwnProg α) := trivial

/-- Each branch is clean. -/
theorem clean_ite {p : Prop} [Decidable p] {x y : OwnProg α} (hx : Clean x) (hy : Clean y) :
    Clean (if p then x else y) := by
  split
  · exact hx
  · exact hy

/-- A value without any operation. -/
theorem careful_pure (a : α) : Careful (Eval.pure a) := fun _ => trivial

theorem careful_die : Careful (die : Eval α) := fun _ => trivial

/-- Two careful evaluations, one after the other. -/
theorem careful_bind {x : Eval α} {f : α → Eval β} (hx : Careful x) (hf : ∀ a, Careful (f a)) :
    Careful (x.bind f) := fun m => every_bind (hx m) fun r => hf r.1 r.2

/-- Each branch is careful, under its condition. -/
theorem careful_ite {p : Prop} [Decidable p] {x y : Eval α} (hx : p → Careful x)
    (hy : ¬ p → Careful y) : Careful (if p then x else y) := by
  split
  · exact hx ‹_›
  · exact hy ‹_›

/-- A clean body makes no wild read. -/
theorem careful_own {p : OwnProg α} (hp : Clean p) : Careful (own p) := fun _ =>
  every_bind (every_lift hp) fun _ => trivial

theorem careful_setErrmsg (msg : Bytes) : Careful (setErrmsg msg) := fun _ => trivial

theorem careful_note {e : Sys} (h : ¬ Wild e) : Careful (note e) := fun _ => ⟨h, fun _ => trivial⟩

/-- `if (x == NULL) return NULL`. -/
theorem careful_orNull {x : Eval (Option α)} {f : α → Eval (Option β)} (hx : Careful x)
    (hf : ∀ a, Careful (f a)) : Careful (orNull x f) := by
  apply careful_bind hx
  intro r
  cases r with
  | none => exact careful_pure none
  | some a => exact hf a

theorem careful_errorAbort (msg : Bytes) : Careful (errorAbort msg) :=
  careful_bind (careful_setErrmsg _) fun _ => careful_pure none

theorem careful_nullWith (msg : Bytes) : Careful (nullWith msg) :=
  careful_bind (careful_setErrmsg _) fun _ => careful_pure none

/-- The body of a function, and its value or message. -/
theorem careful_finish {p : OwnProg (Except Bytes Result)} (hp : Clean p) : Careful (finish p) := by
  apply careful_bind (careful_own hp)
  intro r
  cases r with
  | error msg => exact careful_errorAbort msg
  | ok v => exact careful_pure _

/-- `Evaluate` is as careful as `EvaluateValue`. -/
theorem careful_evaluate {x : Eval (Option Value)} (hx : Careful x) :
    Careful (Edify.evaluate x) := by
  apply careful_orNull hx
  intro v
  unfold stringOf
  split
  · exact careful_bind (careful_errorAbort _) fun _ => careful_pure none
  · exact careful_pure _

end Rules

/-! ## Reading arguments -/

/-- The arguments of a call make no wild read. -/
def ArgsCareful (c : Call) : Prop := ∀ a ∈ c.argv, Careful a.eval

section Arguments

variable {c : Call} (h : ArgsCareful c)

/-- The note that an argument was `NULL` reads nothing. -/
theorem careful_noteNull {α : Type} (k : Nat) (r : Option α) : Careful (c.noteNull k r) := by
  cases r with
  | none => exact careful_bind (careful_note id) fun _ => careful_pure none
  | some a => exact careful_pure _

include h

/-- An argument that is there is read carefully. -/
theorem careful_value {k : Nat} (hk : k < c.argc) : Careful (c.evaluateValue k) := by
  have harg : c.argv[k]? = some c.argv[k] := List.getElem?_eq_getElem hk
  rw [Call.evaluateValue, harg]
  exact careful_bind (h _ (List.getElem_mem hk)) fun r => careful_noteNull k r

/-- The same for a string argument. -/
theorem careful_string {k : Nat} (hk : k < c.argc) : Careful (c.evaluate k) := by
  have harg : c.argv[k]? = some c.argv[k] := List.getElem?_eq_getElem hk
  rw [Call.evaluate, harg]
  exact careful_bind (careful_evaluate (h _ (List.getElem_mem hk))) fun r => careful_noteNull k r

/-- Reading arguments that are all there. Induction on their number. -/
theorem careful_readFrom {count first : Nat} (hle : first + count ≤ c.argc) :
    Careful (c.readFrom count first) := by
  induction count generalizing first with
  | zero => exact careful_pure _
  | succ n ih =>
      apply careful_bind (careful_string h (by omega))
      intro r
      cases r with
      | none => exact careful_pure _
      | some s => exact careful_bind (ih (by omega)) fun _ => careful_pure _

/-- `ReadArgs` of arguments that are all there. -/
theorem careful_readArgs {first count : Nat} (hle : first + count ≤ c.argc) :
    Careful (c.readArgs first count) := by
  apply careful_bind (careful_readFrom h hle)
  intro r
  cases r with
  | error k => exact careful_pure none
  | ok vals => exact careful_bind (careful_note id) fun _ => careful_pure _

/-- `ReadValueArgs` of arguments that are all there. -/
theorem careful_readValues {first count : Nat} (hle : first + count ≤ c.argc) :
    Careful (c.readValues first count) := by
  induction count generalizing first with
  | zero => exact careful_pure _
  | succ n ih =>
      apply careful_orNull (careful_value h (by omega))
      intro v
      exact careful_orNull (ih (by omega)) fun _ => careful_pure _

/-- A function that reads its arguments, and works on the strings. -/
theorem careful_withArgs {count : Nat} (hle : count ≤ c.argc)
    {body : List Bytes → OwnProg (Except Bytes Result)} (hbody : ∀ vals, Clean (body vals)) :
    Careful (withArgs c count body) :=
  careful_orNull (careful_readArgs h (by omega)) fun vals => careful_finish (hbody vals)

end Arguments

/-! ## What the functions do by themselves -/

section Bodies

/-- The body of `mount`, with its checks for empty arguments. -/
theorem clean_mount (name : Name) (location mountPoint fsType : Bytes)
    (fields : List (String × Bytes)) :
    Clean (match emptyArg name fields with
      | some msg => return .error msg
      | none => do
          let _ ← ask (.mkdir mountPoint)
          let ok : Bool ← ask (.mount location mountPoint fsType)
          return .ok (.string (if ok then mountPoint else [])) :
        OwnProg (Except Bytes Result)) := by
  split
  · exact clean_ret _
  · exact clean_bind (clean_ask id) fun _ => clean_bind (clean_ask id) fun _ => clean_ret _

/-- The loop of `delete`. -/
theorem clean_deletePaths (recursive : Bool) (paths : List Bytes) (success : Nat) :
    Clean (deletePaths recursive paths success) := by
  induction paths generalizing success with
  | nil => exact clean_ret _
  | cons path paths ih =>
      exact clean_bind (clean_ite (clean_ask id) (clean_ask id)) fun _ => ih _

/-- The loop of `symlink`. -/
theorem clean_symlinkAll (target : Bytes) (srcs : List Bytes) : Clean (symlinkAll target srcs) := by
  induction srcs with
  | nil => exact clean_ret _
  | cons src srcs ih => exact clean_bind (clean_ask id) fun _ => clean_bind (clean_ask id) fun _ => ih

/-- The loop of `set_perm`. -/
theorem clean_chownChmodAll (uid gid mode : Int) (paths : List Bytes) :
    Clean (chownChmodAll uid gid mode paths) := by
  induction paths with
  | nil => exact clean_ret _
  | cons path paths ih =>
      exact clean_bind (clean_ask id) fun _ => clean_bind (clean_ask id) fun _ => ih

/-- The loop of `set_perm_recursive`. -/
theorem clean_setHierarchyAll (uid gid dirMode fileMode : Int) (paths : List Bytes) :
    Clean (setHierarchyAll uid gid dirMode fileMode paths) := by
  induction paths with
  | nil => exact clean_ret _
  | cons path paths ih => exact clean_bind (clean_ask id) fun _ => ih

/-- `SetPermFn` parses each number before it uses it. -/
theorem clean_setPermArgs (w : Nat) (name : Name) (vals : List Bytes) :
    Clean (setPermArgs w name vals) := by
  unfold setPermArgs
  split
  · split
    · exact clean_ret _
    · split
      · exact clean_ret _
      · apply clean_ite
        · unfold setPermRecursive
          split
          · split
            · exact clean_ret _
            · split
              · exact clean_ret _
              · exact clean_bind (clean_setHierarchyAll ..) fun _ => clean_ret _
          · exact clean_halt
        · unfold setPermFlat
          split
          · split
            · exact clean_ret _
            · exact clean_bind (clean_chownChmodAll ..) fun _ => clean_ret _
          · exact clean_halt
  · exact clean_halt

/-- The loop of `ui_print` over its lines. -/
theorem clean_uiPrintLines (lines : List Bytes) : Clean (uiPrintLines lines) := by
  induction lines with
  | nil => exact clean_bind (clean_ask id) fun _ => clean_ret _
  | cons line lines ih => exact clean_bind (clean_ask id) fun _ => ih

/-- `package_extract_file` to a file. -/
theorem clean_extractFile (zipPath destPath : Bytes) : Clean (extractFile zipPath destPath) := by
  apply clean_bind (clean_ask id)
  intro (entry : Option Int)
  apply clean_ite (clean_ret _)
  exact clean_bind (clean_ask id) fun _ => clean_ite (clean_ask id) (clean_ret _)

/-- `package_extract_file` to memory. -/
theorem clean_extractBlob (zipPath : Bytes) : Clean (extractBlob zipPath) := by
  apply clean_bind (clean_ask id)
  intro entry
  cases entry with
  | none => exact clean_ret _
  | some size => exact clean_bind (clean_ask id) fun _ => clean_ret _

/-- The choice of the base address. -/
theorem clean_chooseBase : Clean chooseBase :=
  clean_bind (clean_ask id) fun _ => clean_bind (clean_ask id) fun _ =>
    clean_bind (clean_ask id) fun _ => clean_bind (clean_ask id) fun _ => clean_ret _

/-- A step that is taken only after a success. -/
theorem clean_andThen {σ : Type} {step : σ → OwnProg (Bool × σ)} (h : ∀ v, Clean (step v))
    (success : Bool) (v : σ) : Clean (andThen success step v) :=
  clean_ite (h v) (clean_ret _)

/-- One pair of `retouch_binaries`. -/
theorem clean_retouchStep (name sha1 : Bytes) (v : RetouchVars) :
    Clean (retouchStep name sha1 v) :=
  clean_ite (clean_bind (clean_ask id) fun _ => clean_ret _)
    (clean_bind (clean_ask id) fun _ => clean_ret _)

/-- One pair of `undo_retouch_binaries`. -/
theorem clean_undoStep (name sha1 : Bytes) (v : Unit) : Clean (undoStep name sha1 v) :=
  clean_bind (clean_ask id) fun _ => clean_ret _

/-- `file_getprop` after its arguments were read. -/
theorem clean_fileGetProp (name : Name) (vals : List Bytes) : Clean (fileGetProp name vals) := by
  unfold fileGetProp
  split
  · apply clean_bind (clean_ask id)
    intro st
    cases st with
    | none => exact clean_bind (clean_ask id) fun _ => clean_ret _
    | some size =>
        apply clean_ite (clean_ret _)
        apply clean_bind (clean_ask id)
        intro opened
        apply clean_ite (clean_bind (clean_ask id) fun _ => clean_ret _)
        apply clean_bind (clean_ask id)
        intro read
        cases read with
        | none => exact clean_ret _
        | some data =>
            simp only [scanProps]
            split
            · exact clean_halt
            · exact clean_ret _
  · exact clean_halt

/-- The call of `applypatch`. -/
theorem clean_runApplypatch (source target sha1 : Bytes) (size : Nat)
    (patches : List (Option Bytes × Value)) :
    Clean (runApplypatch source target sha1 size patches) := by
  apply clean_bind (clean_ask id)
  intro result
  cases result with
  | none => exact clean_halt
  | some r => exact clean_ret _

/-- The call of `applypatch_check`. -/
theorem clean_runCheck (filename : Bytes) (sha1s : Option (List Bytes)) :
    Clean (runCheck filename sha1s) := by
  apply clean_bind (clean_ask id)
  intro result
  cases result with
  | none => exact clean_halt
  | some r => exact clean_ret _

end Bodies

/-! ## The functions -/

section Functions

variable {c : Call} (h : ArgsCareful c)

/-- The loops over pairs of strings. -/
theorem careful_pairLoop {σ : Type} (verb : String)
    {step : Bytes → Bytes → σ → OwnProg (Bool × σ)} (hstep : ∀ a b v, Clean (step a b v))
    (entries : List Bytes) (success : Bool) (v : σ) :
    Careful (pairLoop verb step entries success v) := by
  induction entries using List.twoStepInduction generalizing success v with
  | nil => exact careful_pure _
  | singleton name => exact careful_pure _
  | cons_cons name sha1 rest ih _ =>
      apply careful_bind (careful_own (clean_andThen (hstep name sha1) success v))
      intro r
      apply careful_bind (careful_ite (fun _ => careful_pure ()) fun _ => careful_setErrmsg _)
      exact fun _ => ih r.1 r.2

/-- The comparison with the digests. -/
theorem careful_matchDigest (digest : Bytes) (vs : List Value) :
    Careful (matchDigest digest vs) := by
  induction vs with
  | nil => exact careful_pure _
  | cons v rest ih =>
      apply careful_ite (fun _ => ih)
      intro _
      split
      · exact careful_die
      · exact careful_ite (fun _ => careful_pure _) fun _ => ih

include h

/-- `assert` reads the arguments from `k` on. -/
theorem careful_assertLoop {n k : Nat} (hle : k + n ≤ c.argc) : Careful (assertLoop c n k) := by
  induction n generalizing k with
  | zero => exact careful_pure _
  | succ n ih =>
      apply careful_orNull (careful_string h (by omega))
      intro v
      apply careful_ite (fun _ => ih (by omega))
      intro _
      split
      · exact careful_die
      · exact careful_nullWith _

/-- `stdout` reads the arguments from `k` on. -/
theorem careful_stdoutLoop {n k : Nat} (hle : k + n ≤ c.argc) : Careful (stdoutLoop c n k) := by
  induction n generalizing k with
  | zero => exact careful_pure _
  | succ n ih =>
      apply careful_orNull (careful_string h (by omega))
      intro v
      exact careful_bind (careful_own (clean_ask id)) fun _ => ih (by omega)

/-- `ifelse` reads its third argument only if there are three. -/
theorem careful_ifElseFn : Careful (ifElseFn c) := by
  apply careful_ite (fun _ => careful_nullWith _)
  intro hargc
  apply careful_orNull (careful_string h (by omega))
  intro cond
  apply careful_ite (fun _ => careful_value h (by omega))
  intro _
  exact careful_ite (fun hthree => careful_value h (by omega)) fun _ => careful_pure _

/-- `abort` reads a message only if there is one. -/
theorem careful_abortFn : Careful (abortFn c) := by
  apply careful_ite _ fun _ => careful_nullWith _
  intro hargc
  exact careful_bind (careful_string h hargc) fun _ => careful_nullWith _

/-- `less_than_int` counts its arguments first. -/
theorem careful_lessThanIntFn (w : Nat) : Careful (lessThanIntFn w c) := by
  apply careful_ite (fun _ => careful_nullWith _)
  intro hargc
  apply careful_withArgs h (by omega)
  intro vals
  split
  · exact clean_ret _
  · exact clean_halt

/-- `symlink` needs a target. -/
theorem careful_symlinkFn : Careful (symlinkFn c) := by
  apply careful_ite (fun _ => careful_errorAbort _)
  intro hargc
  apply careful_orNull (careful_string h (by omega))
  intro target
  apply careful_orNull (careful_readArgs h (by omega))
  intro srcs
  exact careful_finish (clean_bind (clean_symlinkAll ..) fun _ => clean_ret _)

/-- `sha1_check` needs a value. -/
theorem careful_sha1CheckFn (L : Libs) : Careful (sha1CheckFn L c) := by
  apply careful_ite (fun _ => careful_errorAbort _)
  intro hargc
  apply careful_orNull (careful_readValues h (by omega))
  intro vs
  cases vs with
  | nil => exact careful_die
  | cons v rest =>
      apply careful_ite (fun _ => careful_pure _)
      intro _
      split
      · exact careful_die
      · exact careful_ite (fun _ => careful_pure _) fun _ => careful_matchDigest _ _

/-- `apply_patch` needs six arguments at least, and an even number of them. -/
theorem careful_applyPatchFn (w : Nat) : Careful (applyPatchFn w c) := by
  apply careful_ite (fun _ => careful_errorAbort _)
  intro hargc
  apply careful_orNull (careful_readArgs h (by omega))
  intro vals
  unfold applyPatchRest
  split
  · split
    · exact careful_errorAbort _
    · apply careful_bind (careful_readValues h (by omega))
      intro r
      cases r with
      | none => exact careful_die
      | some values =>
          simp only [applyPatchValues]
          split
          · exact careful_errorAbort _
          · exact careful_finish (clean_runApplypatch ..)
  · exact careful_die

/-- `apply_patch_check` needs a file name. -/
theorem careful_applyPatchCheckFn : Careful (applyPatchCheckFn c) := by
  apply careful_ite (fun _ => careful_errorAbort _)
  intro hargc
  apply careful_orNull (careful_readArgs h (by omega))
  intro vals
  unfold applyPatchCheckRest
  split
  · apply careful_bind (careful_readArgs h (by omega))
    intro r
    cases r with
    | none => exact careful_bind (careful_own (clean_runCheck ..)) fun _ => careful_die
    | some sha1s => exact careful_finish (clean_runCheck ..)
  · exact careful_die

/-- The loop of `delete` has the paths that were read. -/
theorem careful_deleteFn : Careful (deleteFn c) := by
  apply careful_bind (careful_readFrom h (by omega))
  intro r
  match r with
  | .error 0 => exact careful_pure none
  | .error (_ + 1) => exact careful_die
  | .ok paths => exact careful_finish (clean_bind (clean_deletePaths ..) fun _ => clean_ret _)

/-- The results of the library functions are no messages, and the loop sets its own. -/
theorem careful_retouchBinariesFn : Careful (retouchBinariesFn c) := by
  apply careful_bind (careful_readArgs h (by omega))
  intro r
  cases r with
  | none => exact careful_pure _
  | some entries =>
      simp only [retouchArgs]
      apply careful_bind (careful_own clean_chooseBase)
      intro base
      exact careful_bind (careful_pairLoop _ clean_retouchStep _ _ _) fun _ => careful_pure _

/-- The same for `undo_retouch_binaries`. -/
theorem careful_undoRetouchBinariesFn : Careful (undoRetouchBinariesFn c) := by
  apply careful_bind (careful_readArgs h (by omega))
  intro r
  cases r with
  | none => exact careful_pure _
  | some entries =>
      simp only [undoArgs]
      exact careful_bind (careful_pairLoop _ clean_undoStep _ _ _) fun _ => careful_pure _

/-- With one argument the contents are the result, with two they go to a file. -/
theorem careful_packageExtractFileFn : Careful (packageExtractFileFn c) := by
  apply careful_ite (fun _ => careful_errorAbort _)
  intro hargc
  apply careful_ite
  · intro htwo
    apply careful_withArgs h (by omega)
    intro vals
    split
    · exact clean_bind (clean_extractFile ..) fun _ => clean_ret _
    · exact clean_halt
  · intro hone
    apply careful_withArgs h (by omega)
    intro vals
    split
    · exact clean_bind (clean_extractBlob _) fun _ => clean_ret _
    · exact clean_halt

/-- `mount` checks its count first. -/
theorem careful_mountFn : Careful (mountFn c) := by
  apply careful_ite (fun _ => careful_errorAbort _)
  intro hargc
  apply careful_withArgs h (by omega)
  intro vals
  split
  · exact clean_mount ..
  · exact clean_halt

/-- `is_mounted` checks its count first. -/
theorem careful_isMountedFn : Careful (isMountedFn c) := by
  apply careful_ite (fun _ => careful_errorAbort _)
  intro hargc
  apply careful_withArgs h (by omega)
  intro vals
  split
  · exact clean_ite (clean_ret _) (clean_bind (clean_ask id) fun _ => clean_ret _)
  · exact clean_halt

/-- `unmount` checks its count first. -/
theorem careful_unmountFn : Careful (unmountFn c) := by
  apply careful_ite (fun _ => careful_errorAbort _)
  intro hargc
  apply careful_withArgs h (by omega)
  intro vals
  split
  · apply clean_ite (clean_ret _)
    apply clean_bind (clean_ask id)
    intro (found : Bool)
    exact clean_ite (clean_bind (clean_ask id) fun _ => clean_ret _) (clean_ret _)
  · exact clean_halt

/-- The message is set when the file cannot be read. -/
theorem careful_readFileFn : Careful (readFileFn c) := by
  apply careful_ite (fun _ => careful_errorAbort _)
  intro hargc
  apply careful_withArgs h (by omega)
  intro vals
  split
  · apply clean_bind (clean_ask id)
    intro contents
    cases contents with
    | none => exact clean_bind (clean_ask id) fun _ => clean_ret _
    | some data => exact clean_ret _
  · exact clean_halt

/-- `is_substring` does not check its count. -/
theorem careful_substringFn (hargc : c.argc = 2) : Careful (substringFn c) := by
  apply careful_withArgs h (by omega)
  intro vals
  split
  · exact clean_ret _
  · exact clean_halt

/-- Nor does `sleep`. -/
theorem careful_sleepFn (w : Nat) (hargc : c.argc = 1) : Careful (sleepFn w c) := by
  apply careful_withArgs h (by omega)
  intro vals
  split
  · exact clean_bind (clean_ask id) fun _ => clean_ret _
  · exact clean_halt

/-- Nor does `apply_patch_space`. -/
theorem careful_applyPatchSpaceFn (w : Nat) (hargc : c.argc = 1) :
    Careful (applyPatchSpaceFn w c) := by
  apply careful_withArgs h (by omega)
  intro vals
  split
  · split
    · exact clean_ret _
    · exact clean_bind (clean_ask id) fun _ => clean_ret _
  · exact clean_halt

/-- Every function is careful with the counts outside `careless`. -/
theorem careful_run (L : Libs) (hcareless : careless c.fn c.argc = false)
    (hoperands : operands c.fn c.argc = true) : Careful (run L c) := by
  cases hfn : c.fn <;> rw [hfn] at hcareless hoperands <;> simp only [run, hfn]
  case literal => exact careful_pure _
  case concat => exact careful_withArgs h (Nat.le_refl _) fun _ => clean_ret _
  case logicalAnd =>
    have hargc : c.argc = 2 := by simpa [operands] using hoperands
    apply careful_orNull (careful_string h (by omega))
    intro left
    exact careful_ite (fun _ => careful_value h (by omega)) fun _ => careful_pure _
  case logicalOr =>
    have hargc : c.argc = 2 := by simpa [operands] using hoperands
    apply careful_orNull (careful_string h (by omega))
    intro left
    exact careful_ite (fun _ => careful_value h (by omega)) fun _ => careful_pure _
  case sequence =>
    have hargc : c.argc = 2 := by simpa [operands] using hoperands
    exact careful_orNull (careful_value h (by omega)) fun _ => careful_value h (by omega)
  case ifElse => exact careful_ifElseFn h
  case abort => exact careful_abortFn h
  case assert => exact careful_assertLoop h (by omega)
  case stdout => exact careful_stdoutLoop h (by omega)
  case lessThanInt => exact careful_lessThanIntFn h _
  case greaterThanInt =>
    apply careful_ite (fun _ => careful_nullWith _)
    intro _
    apply careful_lessThanIntFn
    exact fun a ha => h a (List.mem_reverse.mp ha)
  case delete => exact careful_deleteFn h
  case retouchBinaries => exact careful_retouchBinariesFn h
  case undoRetouchBinaries => exact careful_undoRetouchBinariesFn h
  case symlink => exact careful_symlinkFn h
  case setPerm =>
    apply careful_ite
    · exact fun _ => careful_finish (clean_bind (clean_ask id) fun _ => clean_ret _)
    · exact fun _ => careful_withArgs h (Nat.le_refl _) (clean_setPermArgs _ _)
  case applyPatch => exact careful_applyPatchFn h _
  case applyPatchCheck => exact careful_applyPatchCheckFn h
  case sha1Check => exact careful_sha1CheckFn h L
  case format =>
    have hargc : c.argc ≠ 4 := by simpa [careless] using hcareless
    rw [formatFn, if_pos hargc]
    exact careful_errorAbort _
  case fileGetProp =>
    have hargc : c.argc = 2 := by simpa [careless] using hcareless
    exact careful_withArgs h (by omega) (clean_fileGetProp _)
  case uiPrint =>
    exact careful_withArgs h (Nat.le_refl _) fun _ =>
      clean_bind (clean_uiPrintLines _) fun _ => clean_ret _
  case wipeCache =>
    apply careful_ite (fun _ => careful_errorAbort _)
    exact fun _ => careful_finish (clean_bind (clean_ask id) fun _ => clean_ret _)
  case runProgram =>
    apply careful_ite (fun _ => careful_errorAbort _)
    exact fun _ => careful_withArgs h (Nat.le_refl _) fun _ =>
      clean_bind (clean_ask id) fun _ => clean_ret _
  case packageExtractFile => exact careful_packageExtractFileFn h
  case logicalNot =>
    have hargc : c.argc = 1 := by simpa [operands] using hoperands
    apply careful_withArgs h (by omega)
    intro vals
    split
    · exact clean_ret _
    · exact clean_halt
  case equality | inequality =>
    have hargc : c.argc = 2 := by simpa [operands] using hoperands
    apply careful_withArgs h (by omega)
    intro vals
    split
    · exact clean_ret _
    · exact clean_halt
  case substring =>
    have hargc : c.argc = 2 := by simpa [careless] using hcareless
    exact careful_substringFn h hargc
  case sleep =>
    have hargc : c.argc = 1 := by simpa [careless] using hcareless
    exact careful_sleepFn h _ hargc
  case applyPatchSpace =>
    have hargc : c.argc = 1 := by simpa [careless] using hcareless
    exact careful_applyPatchSpaceFn h _ hargc
  case mount => exact careful_mountFn h
  case isMounted => exact careful_isMountedFn h
  case unmount => exact careful_unmountFn h
  case readFile => exact careful_readFileFn h
  -- the functions that check their count and make one call
  case showProgress | setProgress | packageExtractDir | getProp =>
    apply careful_ite (fun _ => careful_errorAbort _)
    intro hargc
    apply careful_withArgs h (by omega)
    intro vals
    split
    · exact clean_bind (clean_ask id) fun _ => clean_ret _
    · exact clean_halt

end Functions

/-! ## Wrong counts -/

/-- The evaluation comes back with NULL and a message. -/
def Refuses (x : Eval (Option Value)) : Prop :=
  ∀ m t out, Yields (x m) t out → ∃ msg, out = some (none, some msg)

/-- A message and `NULL` refuse the call. -/
theorem refuses_nullWith (msg : Bytes) : Refuses (nullWith msg) := by
  intro m t out h
  obtain ⟨-, rfl⟩ := yields_ret h
  exact ⟨msg, rfl⟩

/-- So does `ErrorAbort`. -/
theorem refuses_errorAbort (msg : Bytes) : Refuses (errorAbort msg) := refuses_nullWith _

/-- A check that fails. -/
theorem refuses_ite {p : Prop} [Decidable p] {x y : Eval (Option Value)} (hp : p)
    (hx : Refuses x) : Refuses (if p then x else y) := by
  rwa [if_pos hp]

/-- The message for `set_perm` has a number that nobody passes. -/
theorem refuses_uninitInt (f : Int → Bytes) :
    Refuses (finish do
      let garbage : Int ← ask .uninitInt
      return .error (f garbage)) := by
  intro m t out h
  cases h with
  | @op _ _ r t out h =>
      obtain ⟨-, rfl⟩ := yields_ret h
      exact ⟨(f r).take 4095, rfl⟩

/-- A function that has to check its number of arguments and does so refuses the wrong ones. -/
theorem refuses_run (L : Libs) {c : Call} (hcareless : careless c.fn c.argc = false)
    (htakes : takes c.name c.fn c.argc = false) : Refuses (run L c) := by
  cases hfn : c.fn <;> rw [hfn] at hcareless htakes <;> simp only [run, hfn]
  case ifElse | lessThanInt | greaterThanInt =>
    exact refuses_ite (by simpa [takes] using htakes) (refuses_nullWith _)
  case mount | isMounted | unmount | format | showProgress | setProgress | packageExtractDir
      | packageExtractFile | symlink | getProp | applyPatchCheck | readFile | sha1Check | wipeCache
      | runProgram =>
    exact refuses_ite (by simpa [takes] using htakes) (refuses_errorAbort _)
  case applyPatch =>
    have hargc : 6 ≤ c.argc → c.argc % 2 = 1 := by simpa [takes] using htakes
    exact refuses_ite (by omega) (refuses_errorAbort _)
  case setPerm =>
    exact refuses_ite (by simpa [takes] using htakes) (refuses_uninitInt _)
  -- these go on whatever the count is, but then they are careless about it
  case substring | sleep | fileGetProp | applyPatchSpace =>
    simp_all [takes, careless]
  -- and for these every count is right
  all_goals simp [takes] at htakes

/-! ## Scripts -/

/-- The function of a node. -/
def function : Expr → Fn
  | .node fn _ _ _ _ => fn

/-- The name it is called by. -/
def calledBy : Expr → Name
  | .node _ name _ _ _ => name

/-- The operators of an expression have their operands. -/
def Formed (e : Expr) : Prop :=
  ∀ d, Node d e → operands (function d) (arguments d).length = true

/-- Expressions of the parser have operators with the right number of operands. -/
theorem formed_node {fn : Fn} {name : Name} {argv : List Expr} {start stop : Nat}
    (hself : operands fn argv.length = true) (hargs : ∀ a ∈ argv, Formed a) :
    Formed (.node fn name argv start stop) := by
  intro d hd
  cases hd with
  | root => exact hself
  | arg _ ha h => exact hargs _ ha d h

/-- The span does not matter. -/
theorem formed_setSpan {e : Expr} (h : Formed e) (loc : Loc) : Formed (setSpan e loc) := by
  obtain ⟨fn, name, argv, start, stop⟩ := e
  exact formed_node (h _ (.root _)) fun a ha d hd => h d (.arg _ ha hd)

/-- No name stands for an operator. -/
theorem operands_of_mem {name : Name} {fn : Fn} (h : (name, fn) ∈ registered) (n : Nat) :
    operands fn n = true := by
  have hall : ∀ p ∈ registered, operands p.2 n = true := by
    simp [registered, operands]
  exact hall (name, fn) h

/-- A function that is found was registered. -/
theorem mem_of_findFunction {name : Name} {fn : Fn} (h : findFunction name = some fn) :
    (name, fn) ∈ registered := by
  obtain ⟨l₁, l₂, hl, -⟩ := List.lookup_eq_some_iff.mp h
  rw [hl]
  simp

/-- The actions of the grammar give every operator its operands. -/
theorem formed_of_der {c : Cat} {n : Nat} {ts : List Lexeme} {es : List Expr} (h : Der c n ts es) :
    ∀ e ∈ es, Formed e := by
  induction h with
  | literal str l => simpa using formed_node rfl (by simp)
  | paren l r h ih => simpa using formed_setSpan (by simpa using ih) _
  | post r h ih => simpa using formed_setSpan (by simpa using ih) _
  | @binary _ _ _ _ o _ _ _ _ m _ _ _ _ ih₁ ih₂ =>
      have hop : operands o.fn 2 = true := by cases o <;> rfl
      simp only [List.forall_mem_singleton] at ih₁ ih₂ ⊢
      exact formed_node hop (by simp [ih₁, ih₂])
  | bang l h ih =>
      simp only [List.forall_mem_singleton] at ih ⊢
      exact formed_node rfl (by simp [ih])
  | ifThen l m r h₁ h₂ ih₁ ih₂ =>
      simp only [List.forall_mem_singleton] at ih₁ ih₂ ⊢
      exact formed_node rfl (by simp [ih₁, ih₂])
  | ifElse l m m' r h₁ h₂ h₃ ih₁ ih₂ ih₃ =>
      simp only [List.forall_mem_singleton] at ih₁ ih₂ ih₃ ⊢
      exact formed_node rfl (by simp [ih₁, ih₂, ih₃])
  | call l m r hfn h ih =>
      simp only [List.forall_mem_singleton]
      exact formed_node (operands_of_mem (mem_of_findFunction hfn) _) ih
  | noArgs => simp
  | firstArg h ih => exact ih
  | nextArg m h₁ h₂ ih₁ ih₂ =>
      intro e he
      rcases List.mem_append.mp he with he | he
      · exact ih₁ e he
      · exact ih₂ e he

/-- No call in the expression is careless. -/
def Cautious (e : Expr) : Prop :=
  ∀ d, Node d e → careless (function d) (arguments d).length = false

/-- What is asked of a node: whatever the answers are, its evaluation makes no wild read, and it
returns NULL with a message if the number of arguments is wrong. -/
def ArityOk (L : Libs) (script : Bytes) (e : Expr) : Prop :=
  ∀ m t out, Yields (e.eval L script m) t out →
    (∀ x ∈ t, ¬ Wild x.1) ∧
      (takes (calledBy e) (function e) (arguments e).length = false →
        ∃ msg, out = some (none, some msg))

section Nodes

variable (L : Libs) (script : Bytes)

/-- The number of arguments of a call is that of its expressions. -/
theorem argc_evalArgs (fn : Fn) (name : Name) (argv : List Expr) :
    Call.argc ⟨fn, name, Expr.evalArgs L script argv, script⟩ = argv.length := by
  simp [Call.argc, Expr.evalArgs_eq_map]

/-- One node, above arguments that make no wild read. -/
theorem careful_node {fn : Fn} {name : Name} {argv : List Expr} (start stop : Nat)
    (hcareless : careless fn argv.length = false) (hoperands : operands fn argv.length = true)
    (hargs : ∀ a ∈ argv, Careful (a.eval L script)) :
    Careful ((Expr.node fn name argv start stop).eval L script) := by
  rw [Expr.eval]
  rw [← argc_evalArgs L script fn name] at hcareless hoperands
  apply careful_run _ L hcareless hoperands
  intro a ha
  rw [Expr.evalArgs_eq_map] at ha
  obtain ⟨e, he, rfl⟩ := List.mem_map.mp ha
  exact hargs e he

/-- The node itself answers for its number of arguments. -/
theorem arityOk_of_careful {fn : Fn} {name : Name} {argv : List Expr} {start stop : Nat}
    (hcareless : careless fn argv.length = false)
    (h : Careful ((Expr.node fn name argv start stop).eval L script)) :
    ArityOk L script (.node fn name argv start stop) := by
  intro m t out hyields
  refine ⟨hyields.every (h m), ?_⟩
  intro htakes
  rw [Expr.eval] at hyields
  rw [← argc_evalArgs L script fn name] at hcareless
  simp only [calledBy, function, arguments] at htakes
  rw [← argc_evalArgs L script fn name] at htakes
  exact refuses_run L hcareless htakes m t out hyields

mutual

/-- A tree without careless calls makes no wild read. -/
theorem careful_eval : ∀ e, Formed e → Cautious e → Careful (e.eval L script)
  | .node _ _ argv start stop, hformed, hcautious =>
      careful_node L script start stop (hcautious _ (.root _)) (hformed _ (.root _))
        (careful_args argv (fun _ ha d hd => hformed d (.arg _ ha hd))
          fun _ ha d hd => hcautious d (.arg _ ha hd))

/-- The arguments of a call, given that each of them is careful. -/
theorem careful_args : ∀ es : List Expr, (∀ e ∈ es, Formed e) → (∀ e ∈ es, Cautious e) →
    ∀ e ∈ es, Careful (e.eval L script)
  | [], _, _, _, he => by simp at he
  | e :: es, hformed, hcautious, d, hd => by
      rcases List.mem_cons.mp hd with heq | hd
      · rw [heq]
        exact careful_eval e (hformed e (List.mem_cons_self ..)) (hcautious e (List.mem_cons_self ..))
      · exact careful_args es (fun a ha => hformed a (List.mem_cons_of_mem _ ha))
          (fun a ha => hcautious a (List.mem_cons_of_mem _ ha)) d hd

end

end Nodes

/-! ## The careless calls -/

/-- A call with `n` literals `1` as arguments. -/
def onesCall (fn : Fn) (name : Name) (n : Nat) : Expr :=
  .node fn name (List.replicate n (.node .literal (cstr "1") [] 0 0)) 0 0

section Careless

variable {L : Libs} {script : Bytes} {e : Expr}

/-- A run with a wild read shows that the expression is not in order. -/
theorem not_arityOk_of_wild {t : Trace Sys Sys.Res} {out : Option (Option Value × Option Bytes)}
    (h : Yields (e.eval L script none) t out) {x : (o : Sys) × Sys.Res o} (hx : x ∈ t)
    (hwild : Wild x.1) : ¬ ArityOk L script e :=
  fun hok => (hok _ _ _ h).1 x hx hwild

/-- So does a run that reads behind the last argument. -/
theorem not_arityOk_of_outside {fn : Fn} {argc k : Nat}
    (h : Yields (e.eval L script none) [⟨.outside fn argc k, ()⟩] none) : ¬ ArityOk L script e :=
  not_arityOk_of_wild h (List.mem_singleton_self _) trivial

/-- So does a value for a wrong number of arguments. -/
theorem not_arityOk_of_value {t : Trace Sys Sys.Res} {v : Value} {m : Option Bytes}
    (h : Yields (e.eval L script none) t (some (some v, m)))
    (htakes : takes (calledBy e) (function e) (arguments e).length = false) :
    ¬ ArityOk L script e := by
  intro hok
  obtain ⟨msg, hmsg⟩ := (hok _ _ _ h).2 htakes
  simp at hmsg

variable (L script) (name : Name)

/-- `sleep` reads one argument whatever the number is. -/
theorem onesCall_sleep {n : Nat} (h : n ≠ 1) : ¬ ArityOk L script (onesCall .sleep name n) := by
  match n with
  | 0 => exact not_arityOk_of_outside (.op .halt)
  | n + 2 =>
      have hyields : Yields ((onesCall .sleep name (n + 2)).eval L script none)
          [⟨.args .sleep [cstr "1"], ()⟩, ⟨.own (.sleep _), ()⟩]
          (some (some (stringValue (cstr "1")), none)) := .op (.op (.ret _))
      exact not_arityOk_of_value hyields (by simp [onesCall, takes, function, arguments])

/-- `is_substring` reads two arguments whatever the number is. -/
theorem onesCall_substring {n : Nat} (h : n ≠ 2) :
    ¬ ArityOk L script (onesCall .substring name n) := by
  match n with
  | 0 => exact not_arityOk_of_outside (.op .halt)
  | 1 => exact not_arityOk_of_outside (.op .halt)
  | n + 3 =>
      have hyields : Yields ((onesCall .substring name (n + 3)).eval L script none)
          [⟨.args .substring [cstr "1", cstr "1"], ()⟩]
          (some (some (stringValue (cstr "t")), none)) := .op (.ret _)
      exact not_arityOk_of_value hyields (by simp [onesCall, takes, function, arguments])

/-- `apply_patch_space` reads one argument whatever the number is. -/
theorem onesCall_applyPatchSpace {n : Nat} (h : n ≠ 1) :
    ¬ ArityOk L script (onesCall .applyPatchSpace name n) := by
  match n with
  | 0 => exact not_arityOk_of_outside (.op .halt)
  | n + 2 =>
      have hyields : Yields ((onesCall .applyPatchSpace name (n + 2)).eval L script none)
          [⟨.args .applyPatchSpace [cstr "1"], ()⟩, ⟨.own (.cacheSizeCheck _), (0 : Int)⟩]
          (some (some (stringValue (cstr "t")), none)) := .op (.op (.ret _))
      exact not_arityOk_of_value hyields (by simp [onesCall, takes, function, arguments])

/-- `file_getprop` reads two arguments whatever the number is. -/
theorem onesCall_fileGetProp {n : Nat} (h : n ≠ 2) :
    ¬ ArityOk L script (onesCall .fileGetProp name n) := by
  match n with
  | 0 => exact not_arityOk_of_outside (.op .halt)
  | 1 => exact not_arityOk_of_outside (.op .halt)
  | n + 3 =>
      have hyields : Yields ((onesCall .fileGetProp name (n + 3)).eval L script none)
          [⟨.args .fileGetProp [cstr "1", cstr "1"], ()⟩, ⟨.own (.stat (cstr "1")), some 2⟩,
            ⟨.own (.openForRead (cstr "1")), true⟩, ⟨.own (.fread (cstr "1") 2), some (cstr "1=")⟩]
          (some (some (stringValue []), none)) := .op (.op (.op (.op (.ret _))))
      exact not_arityOk_of_value hyields (by simp [onesCall, takes, function, arguments])

/-- `format` with four arguments uses a variable that was not assigned. -/
theorem onesCall_format : ¬ ArityOk L script (onesCall .format name 4) := by
  have hyields : Yields ((onesCall .format name 4).eval L script none)
      [⟨.args .format [cstr "1", cstr "1", cstr "1", cstr "1"], ()⟩, ⟨.own .uninitString, none⟩]
      none := .op (.op .halt)
  exact not_arityOk_of_wild hyields (List.mem_cons_of_mem _ (List.mem_singleton_self _)) trivial

/-- Every careless call goes wrong when its arguments are strings. -/
theorem onesCall_careless {fn : Fn} {argc : Nat} (h : careless fn argc = true) :
    ¬ ArityOk L script (onesCall fn name argc) := by
  cases fn <;> simp only [careless, decide_eq_true_eq, reduceCtorEq] at h
  case sleep => exact onesCall_sleep L script name h
  case substring => exact onesCall_substring L script name h
  case fileGetProp => exact onesCall_fileGetProp L script name h
  case applyPatchSpace => exact onesCall_applyPatchSpace L script name h
  case format =>
    rw [h]
    exact onesCall_format L script name

end Careless

end OpenRecovery.Updater
