import OpenRecovery.Updater.Install

/-!
# Scripts

The function tables of `RegisterBuiltins` and `RegisterInstallFunctions`, and the evaluation of an
expression tree. `Expr.eval` calls the function of a node on its arguments, which the function
evaluates as it likes. `literalCall` is a call with strings for arguments, and `reportResult` the
end of `main`.
-/

set_option autoImplicit false

namespace OpenRecovery.Updater

open OpenRecovery.Crash OpenRecovery.Edify OpenRecovery.Storage

/-- `RegisterBuiltins` and `RegisterInstallFunctions`. -/
def registered : List (Name × Fn) :=
  [(cstr "ifelse", .ifElse), (cstr "abort", .abort), (cstr "assert", .assert),
    (cstr "concat", .concat), (cstr "is_substring", .substring), (cstr "stdout", .stdout),
    (cstr "sleep", .sleep), (cstr "less_than_int", .lessThanInt),
    (cstr "greater_than_int", .greaterThanInt),
    (cstr "mount", .mount), (cstr "is_mounted", .isMounted), (cstr "unmount", .unmount),
    (cstr "format", .format), (cstr "show_progress", .showProgress),
    (cstr "set_progress", .setProgress), (cstr "delete", .delete),
    (cstr "delete_recursive", .delete), (cstr "package_extract_dir", .packageExtractDir),
    (cstr "package_extract_file", .packageExtractFile),
    (cstr "retouch_binaries", .retouchBinaries),
    (cstr "undo_retouch_binaries", .undoRetouchBinaries), (cstr "symlink", .symlink),
    (cstr "set_perm", .setPerm), (cstr "set_perm_recursive", .setPerm),
    (cstr "getprop", .getProp), (cstr "file_getprop", .fileGetProp),
    (cstr "apply_patch", .applyPatch), (cstr "apply_patch_check", .applyPatchCheck),
    (cstr "apply_patch_space", .applyPatchSpace), (cstr "read_file", .readFile),
    (cstr "sha1_check", .sha1Check), (cstr "wipe_cache", .wipeCache), (cstr "ui_print", .uiPrint),
    (cstr "run_program", .runProgram)]

/-- The function behind a function pointer. -/
def run (L : Libs) (c : Call) : Eval (Option Value) :=
  match c.fn with
  | .literal => literalFn c
  | .concat => concatFn c
  | .logicalAnd => logicalAndFn c
  | .logicalOr => logicalOrFn c
  | .logicalNot => logicalNotFn c
  | .equality => equalityFn c
  | .inequality => inequalityFn c
  | .sequence => sequenceFn c
  | .ifElse => ifElseFn c
  | .abort => abortFn c
  | .assert => assertFn c
  | .substring => substringFn c
  | .stdout => stdoutFn c
  | .sleep => sleepFn L.sizeBits c
  | .lessThanInt => lessThanIntFn L.sizeBits c
  | .greaterThanInt => greaterThanIntFn L.sizeBits c
  | .mount => mountFn c
  | .isMounted => isMountedFn c
  | .unmount => unmountFn c
  | .format => formatFn c
  | .showProgress => showProgressFn L.sizeBits c
  | .setProgress => setProgressFn c
  | .delete => deleteFn c
  | .packageExtractDir => packageExtractDirFn c
  | .packageExtractFile => packageExtractFileFn c
  | .retouchBinaries => retouchBinariesFn c
  | .undoRetouchBinaries => undoRetouchBinariesFn c
  | .symlink => symlinkFn c
  | .setPerm => setPermFn L.sizeBits c
  | .getProp => getPropFn c
  | .fileGetProp => fileGetPropFn c
  | .applyPatch => applyPatchFn L.sizeBits c
  | .applyPatchCheck => applyPatchCheckFn c
  | .applyPatchSpace => applyPatchSpaceFn L.sizeBits c
  | .readFile => readFileFn c
  | .sha1Check => sha1CheckFn L c
  | .wipeCache => wipeCacheFn c
  | .uiPrint => uiPrintFn c
  | .runProgram => runProgramFn c

/-- `Expr`. -/
inductive Expr where
  | node (fn : Fn) (name : Name) (argv : List Expr) (start stop : Nat)

namespace Expr

def start : Expr → Nat
  | node _ _ _ start _ => start

def stop : Expr → Nat
  | node _ _ _ _ stop => stop

mutual

/-- `EvaluateValue` on an expression of `script`. -/
def eval (L : Libs) (script : Bytes) : Expr → Eval (Option Value)
  -- the arguments are not evaluated here: a function decides which it needs
  | node fn name argv _ _ => run L ⟨fn, name, evalArgs L script argv, script⟩

/-- The arguments of a call. -/
def evalArgs (L : Libs) (script : Bytes) : List Expr → List Arg
  | [] => []
  | e :: es => ⟨eval L script e, e.start, e.stop⟩ :: evalArgs L script es

end

theorem evalArgs_eq_map (L : Libs) (script : Bytes) (es : List Expr) :
    evalArgs L script es = es.map fun e => ⟨e.eval L script, e.start, e.stop⟩ := by
  induction es with
  | nil => rfl
  | cons e es ih =>
      rw [evalArgs, ih]
      rfl

/-- `Evaluate(state, root)`. -/
def evaluateRoot (L : Libs) (script : Bytes) (root : Expr) : Eval (Option Bytes) :=
  Edify.evaluate (root.eval L script)

end Expr

/-! ## Calls with literal arguments -/

/-- A call with string literals as arguments. -/
def literalCall (fn : Fn) (name : Name) (entries : List Bytes) : Call :=
  ⟨fn, name, entries.map fun s => ⟨Eval.pure (some (stringValue s)), 0, 0⟩, []⟩

section Literals

variable (fn : Fn) (name : Name)

theorem evaluate_literalCall {entries : List Bytes} {k : Nat} {str : Bytes}
    (h : entries[k]? = some str) (m : Option Bytes) :
    (literalCall fn name entries).evaluate k m = .ret (some str, m) := by
  have harg : (literalCall fn name entries).argv[k]? =
      some ⟨Eval.pure (some (stringValue str)), 0, 0⟩ := by
    simp [literalCall, h]
  rw [Call.evaluate, harg]
  rfl

theorem readFrom_literalCall {entries rest : List Bytes} {k : Nat} (h : entries.drop k = rest)
    (m : Option Bytes) :
    (literalCall fn name entries).readFrom rest.length k m = .ret (.ok rest, m) := by
  induction rest generalizing k with
  | nil => rfl
  | cons str rest ih =>
      have hk : entries[k]? = some str := by
        rw [← List.head?_drop, h]
        rfl
      -- the arguments after the first are the entries from the next index on
      have hrest : entries.drop (k + 1) = rest := by
        rw [← List.drop_drop, h]
        rfl
      -- an argument is a string value, so reading it neither fails nor acts
      simp only [List.length_cons, Call.readFrom, Eval.bind, evaluate_literalCall fn name hk]
      simp only [Prog.bind, Eval.bind, ih hrest]
      rfl

theorem readArgs_literalCall (entries : List Bytes) (m : Option Bytes) :
    (literalCall fn name entries).readArgs 0 (literalCall fn name entries).argc m =
      .op (.args fn entries) fun _ => .ret (some entries, m) := by
  have hargc : (literalCall fn name entries).argc = entries.length := by
    simp [Call.argc, literalCall]
  rw [hargc]
  simp only [Call.readArgs, Eval.bind,
    readFrom_literalCall fn name (List.drop_zero (l := entries))]
  rfl

end Literals

/-! ## The end of `main` -/

/-- What `main` does with the result of the script: it sends the message of a script that was
aborted to the recovery and exits with 7. -/
def reportResult (result errmsg : Option Bytes) : OwnProg Nat :=
  match result, errmsg with
  -- a message without a failure is not looked at
  | some _, _ => return 0
  | none, none => do
      let _ ← ask (.cmdPipe (cstr "ui_print script aborted (no error message)\n"))
      return 7
  | none, some msg => do
      let _ ← uiPrintLines (strtok newline msg)
      return 7

end OpenRecovery.Updater
