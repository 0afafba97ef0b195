import OpenRecovery.Crash.Trace
import OpenRecovery.Edify.Value
import OpenRecovery.Storage.CString

/-!
# Functions of the update script language

`edify/expr.c`: how a function gets at its arguments, and the functions of the language itself.

A function is given its arguments unevaluated, as programs (`Arg`). What it does besides evaluating
arguments is a program over `Own`: the calls that the functions of `expr.c` and of
`updater/install.c` make into the C library, the kernel and the other modules, each of which may be
answered in any way. Messages to standard error are left out. `null`, `args` and `outside` are no
operations of the program: they note in the trace that the evaluation of an argument has come back
as NULL, the argument strings a function has read, and that it has looked for an argument behind the
last one.

The state of an evaluation is `state->errmsg`. `orNull` is the pattern
`if (x == NULL) return NULL`, and `withArgs` the pattern of most functions: read some arguments and
then work with the strings alone. A function that ends with `finish` reports an error with a message
or returns a value, never both and never neither.
-/

set_option autoImplicit false

namespace OpenRecovery.Edify

open OpenRecovery.Crash OpenRecovery.Storage

/-- The functions an expression can refer to. -/
inductive Fn where
  | literal | concat | logicalAnd | logicalOr | logicalNot | equality | inequality | sequence
  | ifElse | abort | assert | substring | stdout | sleep | lessThanInt | greaterThanInt
  | mount | isMounted | unmount | format | showProgress | setProgress | delete
  | packageExtractDir | packageExtractFile | retouchBinaries | undoRetouchBinaries | symlink
  | setPerm | getProp | fileGetProp | applyPatch | applyPatchCheck | applyPatchSpace
  | readFile | sha1Check | wipeCache | uiPrint | runProgram
  deriving DecidableEq

/-- The calls the functions make. -/
inductive Own where
  | sleep (seconds : Nat)
  | fputs (text : Bytes)
  | cmdPipe (text : Bytes)
  | progress (frac : Bytes) (seconds : Option Int)
  | mkdir (path : Name)
  | mount (location mountPoint fsType : Bytes)
  | findMountedVolume (mountPoint : Name)
  | unmountMountedVolume (mountPoint : Name)
  | uninitString
  | uninitInt
  | makeExt4fs (location : Bytes) (fsSize : Int) (mountPoint : Bytes)
  | unlink (path : Name)
  | dirUnlinkHierarchy (path : Name)
  | extractRecursive (zipPath destPath : Name)
  | findZipEntry (zipPath : Name)
  | openForWrite (path : Name)
  | extractToFile (zipPath destPath : Name)
  | extractToBuffer (zipPath : Name) (size : Int)
  | time
  | devRandom
  | retouchOneLibrary (name sha1 : Bytes) (offset : BitVec 32) (override : Option (BitVec 32))
  | symlink (target path : Name)
  | chown (path : Name) (uid gid : Int)
  | chmod (path : Name) (mode : Int)
  | setHierarchyPermissions (path : Name) (uid gid dirMode fileMode : Int)
  | propertyGet (key : Bytes)
  | stat (path : Name)
  | openForRead (path : Name)
  | fread (path : Name) (size : Nat)
  | cacheSizeCheck (bytes : Nat)
  | applypatch (source target sha1 : Bytes) (size : Nat) (patches : List (Option Bytes × Value))
  | applypatchCheck (filename : Name) (sha1s : Option (List Bytes))
  | loadFileContents (filename : Name)
  | waitForProgram (args : List Bytes)
  | strerror

/-- The answers. A call that can kill the process answers `none` for that; the strings and numbers
of `uninitString` and `uninitInt` are those of uninitialised variables. -/
def Own.Res : Own → Type
  | .mount .. => Bool
  | .findMountedVolume .. => Bool
  | .uninitString => Option Bytes
  | .uninitInt => Int
  | .makeExt4fs .. => Int
  | .unlink .. => Bool
  | .dirUnlinkHierarchy .. => Bool
  | .extractRecursive .. => Bool
  | .findZipEntry .. => Option Int
  | .openForWrite .. => Bool
  | .extractToFile .. => Bool
  | .extractToBuffer .. => Option Bytes
  | .time => Int
  | .devRandom => Nat
  | .retouchOneLibrary .. => Bool × BitVec 32
  | .propertyGet .. => Bytes
  | .stat .. => Option Nat
  | .openForRead .. => Bool
  | .fread .. => Option Bytes
  | .cacheSizeCheck .. => Int
  | .applypatch .. => Option Int
  | .applypatchCheck .. => Option Int
  | .loadFileContents .. => Option Bytes
  | .waitForProgram .. => Int
  | .strerror => Bytes
  | _ => Unit

/-- Calls, and notes about the evaluation. -/
inductive Sys where
  | own (o : Own)
  | null (fn : Fn) (argc k : Nat)
  | args (fn : Fn) (vals : List Bytes)
  | outside (fn : Fn) (argc k : Nat)

/-- Notes have no answer. -/
def Sys.Res : Sys → Type
  | .own o => o.Res
  | .null .. => Unit
  | .args .. => Unit
  | .outside .. => Unit

/-- What a function does by itself. -/
abbrev OwnProg := Prog Own Own.Res

abbrev SysProg := Prog Sys Sys.Res

/-- One call. -/
def ask (o : Own) : OwnProg o.Res := Prog.call o

/-- An evaluation; the state is `state->errmsg`. -/
abbrev Eval (α : Type) := Option Bytes → SysProg (α × Option Bytes)

namespace Eval

variable {α β : Type}

def pure (a : α) : Eval α := fun errmsg => .ret (a, errmsg)

def bind (x : Eval α) (f : α → Eval β) : Eval β := fun errmsg =>
  (x errmsg).bind fun r => f r.1 r.2

instance : Monad Eval where
  pure := pure
  bind := bind

/-- The process dies, or never comes back. -/
def die : Eval α := fun _ => .halt

/-- A note in the trace. -/
def note (e : Sys) : Eval Unit := fun errmsg => .op e fun _ => .ret ((), errmsg)

/-- What a function does by itself. -/
def own (p : OwnProg α) : Eval α := fun errmsg =>
  (p.lift Sys.own fun _ r => r).bind fun a => .ret (a, errmsg)

/-- Set `errmsg`. -/
def setErrmsg (msg : Bytes) : Eval Unit := fun _ => .ret ((), some msg)

/-- `if (x == NULL) return NULL`. -/
def orNull (x : Eval (Option α)) (f : α → Eval (Option β)) : Eval (Option β) :=
  x.bind fun r =>
    match r with
    | none => pure none
    | some a => f a

end Eval

open Eval

/-- The decimal digits of a number. -/
def decimal (n : Int) : Bytes := cstr (toString n)

/-- `ErrorAbort`: at most 4095 characters of the message. -/
def errorAbort (msg : Bytes) : Eval (Option Value) :=
  (setErrmsg (msg.take 4095)).bind fun _ => Eval.pure none

/-- `errmsg` set to a copy of a text, and NULL returned. -/
def nullWith (msg : Bytes) : Eval (Option Value) :=
  (setErrmsg msg).bind fun _ => Eval.pure none

/-! ## Arguments -/

/-- An argument: its evaluation, and the place of its text in the script. -/
structure Arg where
  eval : Eval (Option Value)
  start : Nat
  stop : Nat

/-- A call of a function. -/
structure Call where
  fn : Fn
  name : Name
  argv : List Arg
  script : Bytes

/-- `Evaluate` on the value an expression has given. -/
def stringOf (v : Value) : Eval (Option Bytes) :=
  if v.type ≠ .string then
    (errorAbort (cstr "expecting string, got value type 2")).bind fun _ => Eval.pure none
  else Eval.pure v.data

/-- `Evaluate`. -/
def evaluate (x : Eval (Option Value)) : Eval (Option Bytes) := orNull x stringOf

namespace Call

variable (c : Call)

def argc : Nat := c.argv.length

/-- Note that argument `k` has come back as NULL. -/
def noteNull {α : Type} (k : Nat) : Option α → Eval (Option α)
  | none => (note (.null c.fn c.argc k)).bind fun _ => Eval.pure none
  | some a => Eval.pure (some a)

/-- `argv[k]` with `k >= argc`: what lies there is taken for an expression. -/
def outside {α : Type} (k : Nat) : Eval α :=
  (note (.outside c.fn c.argc k)).bind fun _ => die

/-- `EvaluateValue(state, argv[k])`. -/
def evaluateValue (k : Nat) : Eval (Option Value) :=
  match c.argv[k]? with
  | none => c.outside k
  | some a => a.eval.bind (c.noteNull k)

/-- `Evaluate(state, argv[k])`. -/
def evaluate (k : Nat) : Eval (Option Bytes) :=
  match c.argv[k]? with
  | none => c.outside k
  | some a => (Edify.evaluate a.eval).bind (c.noteNull k)

/-- The strings of `n` arguments from number `k` on, or the number of the first that is NULL. -/
def readFrom : Nat → Nat → Eval (Except Nat (List Bytes))
  | 0, _ => Eval.pure (.ok [])
  | n + 1, k =>
      (c.evaluate k).bind fun r =>
        match r with
        | none => Eval.pure (.error k)
        | some s => (readFrom n (k + 1)).bind fun rest => Eval.pure (rest.map (s :: ·))

/-- `ReadArgs` and `ReadVarArgs`: the strings of `count` arguments from number `first` on. -/
def readArgs (first count : Nat) : Eval (Option (List Bytes)) :=
  (c.readFrom count first).bind fun r =>
    match r with
    | .error _ => Eval.pure none
    | .ok vals => (note (.args c.fn vals)).bind fun _ => Eval.pure (some vals)

/-- `ReadValueVarArgs`: the values of `count` arguments from number `first` on. -/
def readValues : Nat → Nat → Eval (Option (List Value))
  | _, 0 => Eval.pure (some [])
  | first, count + 1 =>
      orNull (c.evaluateValue first) fun v =>
        orNull (readValues (first + 1) count) fun vs => Eval.pure (some (v :: vs))

end Call

/-! ## Results -/

/-- What a function returns if it reports no error: a string or a blob. -/
inductive Result where
  | string (s : Bytes)
  | blob (size : Int) (data : Option Bytes)

def Result.value : Result → Value
  | .string s => stringValue s
  | .blob size data => ⟨.blob, size, data⟩

/-- `"t"` or `""`. -/
def Result.bool (b : Bool) : Result := .string (if b then cstr "t" else [])

/-- The end of a function: an error message, or a value. -/
def finish (p : OwnProg (Except Bytes Result)) : Eval (Option Value) :=
  (own p).bind fun r =>
    match r with
    | .error msg => errorAbort msg
    | .ok v => Eval.pure (some v.value)

/-- Read the first `count` arguments and work with their strings. -/
def withArgs (c : Call) (count : Nat) (body : List Bytes → OwnProg (Except Bytes Result)) :
    Eval (Option Value) :=
  orNull (c.readArgs 0 count) fun vals => finish (body vals)

/-! ## The functions of `expr.c` -/

/-- `Literal`. -/
def literalFn (c : Call) : Eval (Option Value) := Eval.pure (some (stringValue c.name))

/-- `ConcatFn`. -/
def concatFn (c : Call) : Eval (Option Value) :=
  withArgs c c.argc fun vals => return .ok (.string vals.flatten)

/-- `IfElseFn`. -/
def ifElseFn (c : Call) : Eval (Option Value) :=
  if c.argc ≠ 2 ∧ c.argc ≠ 3 then nullWith (cstr "ifelse expects 2 or 3 arguments")
  else
    orNull (c.evaluate 0) fun cond =>
      if cond ≠ [] then c.evaluateValue 1
      else if c.argc = 3 then c.evaluateValue 2
      else Eval.pure (some (stringValue cond))

/-- `AbortFn`: NULL whatever becomes of the argument. -/
def abortFn (c : Call) : Eval (Option Value) :=
  if c.argc > 0 then
    (c.evaluate 0).bind fun msg => nullWith (msg.getD (cstr "called abort()"))
  else nullWith (cstr "called abort()")

/-- The loop of `AssertFn`, at argument `k` with `n` to go. -/
def assertLoop (c : Call) : Nat → Nat → Eval (Option Value)
  | 0, _ => Eval.pure (some (stringValue []))
  | n + 1, k =>
      orNull (c.evaluate k) fun v =>
        if v ≠ [] then assertLoop c n (k + 1)
        else
          match (c.argv[k]?).bind fun a => slice c.script a.start (a.stop - a.start) with
          | none => die
          | some text => nullWith (cstr "assert failed: " ++ text)

/-- `AssertFn`. -/
def assertFn (c : Call) : Eval (Option Value) := assertLoop c c.argc 0

/-- `SleepFn`, with a `long` of `w` bits. -/
def sleepFn (w : Nat) (c : Call) : Eval (Option Value) :=
  withArgs c 1 fun
    | [val] => do
        let _ ← ask (.sleep ((strtol w val).1 % 2 ^ 32).toNat)
        return .ok (.string val)
    | _ => .halt

/-- The loop of `StdoutFn`. -/
def stdoutLoop (c : Call) : Nat → Nat → Eval (Option Value)
  | 0, _ => Eval.pure (some (stringValue []))
  | n + 1, k =>
      orNull (c.evaluate k) fun v =>
        (own (ask (.fputs v))).bind fun _ => stdoutLoop c n (k + 1)

/-- `StdoutFn`. -/
def stdoutFn (c : Call) : Eval (Option Value) := stdoutLoop c c.argc 0

/-- `LogicalAndFn`. -/
def logicalAndFn (c : Call) : Eval (Option Value) :=
  orNull (c.evaluate 0) fun left =>
    if left ≠ [] then c.evaluateValue 1 else Eval.pure (some (stringValue left))

/-- `LogicalOrFn`. -/
def logicalOrFn (c : Call) : Eval (Option Value) :=
  orNull (c.evaluate 0) fun left =>
    if left = [] then c.evaluateValue 1 else Eval.pure (some (stringValue left))

/-- `LogicalNotFn`. -/
def logicalNotFn (c : Call) : Eval (Option Value) :=
  withArgs c 1 fun
    | [val] => return .ok (.bool (val = []))
    | _ => .halt

/-- `SubstringFn`. -/
def substringFn (c : Call) : Eval (Option Value) :=
  withArgs c 2 fun
    | [needle, haystack] => return .ok (.bool (strstr haystack needle))
    | _ => .halt

/-- `EqualityFn`. -/
def equalityFn (c : Call) : Eval (Option Value) :=
  withArgs c 2 fun
    | [left, right] => return .ok (.bool (left = right))
    | _ => .halt

/-- `InequalityFn`. -/
def inequalityFn (c : Call) : Eval (Option Value) :=
  withArgs c 2 fun
    | [left, right] => return .ok (.bool (left ≠ right))
    | _ => .halt

/-- `SequenceFn`. -/
def sequenceFn (c : Call) : Eval (Option Value) :=
  orNull (c.evaluateValue 0) fun _ => c.evaluateValue 1

/-- A whole string as a number: not empty, and read to its end. -/
def wholeInt (w : Nat) (s : Bytes) : Option Int :=
  if s = [] ∨ (strtol w s).2 ≠ [] then none else some (strtol w s).1

/-- `l_int < r_int`, false if one of the strings is not a number. -/
def lessThan (w : Nat) (left right : Bytes) : Bool :=
  match wholeInt w left, wholeInt w right with
  | some l, some r => l < r
  | _, _ => false

/-- `LessThanIntFn`. -/
def lessThanIntFn (w : Nat) (c : Call) : Eval (Option Value) :=
  if c.argc ≠ 2 then nullWith (cstr "less_than_int expects 2 arguments")
  else
    withArgs c 2 fun
      | [left, right] => return .ok (.bool (lessThan w left right))
      | _ => .halt

/-- `GreaterThanIntFn`: `LessThanIntFn` on the arguments in reverse order. -/
def greaterThanIntFn (w : Nat) (c : Call) : Eval (Option Value) :=
  if c.argc ≠ 2 then nullWith (cstr "greater_than_int expects 2 arguments")
  else lessThanIntFn w { c with argv := c.argv.reverse }

end OpenRecovery.Edify
