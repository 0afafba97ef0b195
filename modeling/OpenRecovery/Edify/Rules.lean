import OpenRecovery.Crash.ProgLogic
import OpenRecovery.Edify.Printer

/-!
# Rules for scripts

A handler carries out the calls that the functions of a script make, by programs over any other
operations. `Triple` and `Meets` are judgements about an evaluation and about an expression, in the
form of a precondition, a condition on the value and the state, and a condition on the state in case
of NULL. They are relative to a `ProgLogic`, so that the rules are those of runs that can be cut off
and those of uninterrupted runs at the same time.

`Meets` speaks of an expression without its place in the script. The rules for the constructs follow
the syntax tree, and `Gives` is for expressions that only look something up.
-/

set_option autoImplicit false

namespace OpenRecovery.Edify

open OpenRecovery.Crash OpenRecovery.Storage
open OpenRecovery.Updater (Expr run)
open OpenRecovery.Updater.Expr (eval evalArgs)

variable {σ Op : Type} {Res : Op → Type} {α β γ : Type}

/-- What carries out the calls of the functions. -/
abbrev Handler (Op : Type) (Res : Op → Type) := (o : Own) → Prog Op Res o.Res

/-- The notes of the trace are no operations. -/
def Handler.carry (h : Handler Op Res) : (o : Sys) → Prog Op Res o.Res
  | .own o => h o
  | .null .. => .ret ()
  | .args .. => .ret ()
  | .outside .. => .ret ()

/-- An evaluation with its calls carried out. -/
def Eval.under (h : Handler Op Res) (x : Eval α) (errmsg : Option Bytes) :
    Prog Op Res (α × Option Bytes) :=
  (x errmsg).interp h.carry

section Under

variable (h : Handler Op Res)

/-- Two evaluations, one after the other. -/
theorem under_bind (x : Eval α) (f : α → Eval β) (m : Option Bytes) :
    (x.bind f).under h m = x.under h m >>= fun r => (f r.1).under h r.2 :=
  Prog.interp_bind h.carry (x m) fun r => f r.1 r.2

/-- `if (x == NULL) return NULL`. -/
theorem under_orNull (x : Eval (Option α)) (f : α → Eval (Option β)) (m : Option Bytes) :
    (Eval.orNull x f).under h m =
      x.under h m >>= fun r => (r.1.elim (Eval.pure none) f).under h r.2 := by
  rw [Eval.orNull, under_bind]
  congr 1
  funext r
  cases r.1 <;> rfl

/-- The operations of a function's own body. -/
theorem under_own (p : OwnProg α) (m : Option Bytes) :
    (Eval.own p).under h m = p.interp h >>= fun a => .ret (a, m) := by
  have hlift : (p.lift Sys.own fun _ r => r).interp h.carry = p.interp h := by
    induction p with
    | ret a => rfl
    | halt => rfl
    | op o k ih =>
        show (h o).bind _ = (h o).bind _
        congr 1
        funext r
        exact ih r
  show ((p.lift Sys.own fun _ r => r) >>= fun a => .ret (a, m)).interp h.carry = _
  rw [Prog.interp_bind, hlift]
  rfl

/-- Coming back as NULL is noted, and nothing else. -/
theorem under_noteNull (c : Call) (k : Nat) (x : Eval (Option α)) (m : Option Bytes) :
    (x.bind (c.noteNull k)).under h m = x.under h m := by
  rw [under_bind]
  have hnote : ∀ r : Option α × Option Bytes, (c.noteNull k r.1).under h r.2 = .ret r := by
    rintro ⟨r, m⟩
    cases r <;> rfl
  simp only [hnote]
  exact Prog.bind_ret _

end Under

/-! ## Judgements -/

section Judgements

variable (J : ProgLogic σ Op Res) (h : Handler Op Res) (L : Libs)

/-- From a state that meets `P`, a value comes back with `Q`, or NULL with `A`. -/
def Triple (P : σ → Prop) (x : Eval (Option β)) (Q : β → σ → Prop) (A : σ → Prop) : Prop :=
  ∀ m s, P s → J.Holds (fun r t => r.1.elim (A t) fun v => Q v t) (x.under h m) s

/-- The value is a string that meets `Q`. -/
def IsString (Q : Bytes → σ → Prop) (v : Value) (s : σ) : Prop := ∃ str, v = stringValue str ∧ Q str s

/-- The expression, wherever it stands in a script. -/
def Meets (P : σ → Prop) (a : Tree) (Q : Value → σ → Prop) (A : σ → Prop) : Prop :=
  ∀ script e, strip e = a.expr → Triple J h P (e.eval L script) Q A

/-- The expression always has this value, and its evaluation does nothing. -/
def Gives (a : Tree) (v : Value) : Prop :=
  ∀ script e, strip e = a.expr → ∀ m, (e.eval L script).under h m = .ret (some v, m)

end Judgements

section Evaluations

variable {J : ProgLogic σ Op Res} {h : Handler Op Res} {P R : σ → Prop} {A : σ → Prop}

/-- A message and `NULL`: the evaluation aborts. -/
theorem triple_nullWith {msg : Bytes} {Q : Value → σ → Prop} (hP : ∀ s, P s → A s) :
    Triple J h P (nullWith msg) Q A :=
  fun _ s hs => J.ret.2 (hP s hs)

/-- Two evaluations, where the first may abort. -/
theorem triple_orNull {x : Eval (Option α)} {f : α → Eval (Option β)} {R : α → σ → Prop}
    {Q : β → σ → Prop} (hx : Triple J h P x R A) (hf : ∀ a, Triple J h (R a) (f a) Q A) :
    Triple J h P (Eval.orNull x f) Q A := by
  intro m s hs
  rw [under_orNull]
  refine J.seq (hx m s hs) ?_
  rintro ⟨r, m'⟩ t ht
  cases r with
  | none => exact J.ret.2 ht
  | some a => exact hf a m' t ht

/-- `Evaluate` of a string value. -/
theorem triple_evaluate {x : Eval (Option Value)} {Q : Bytes → σ → Prop}
    (hx : Triple J h P x (IsString Q) A) : Triple J h P (evaluate x) Q A := by
  refine triple_orNull hx fun v m s hs => ?_
  obtain ⟨str, rfl, hQ⟩ := hs
  exact J.ret.2 hQ

/-- An argument of the call. -/
theorem triple_argument {c : Call} {k : Nat} {a : Arg} (ha : c.argv[k]? = some a)
    {Q : Value → σ → Prop} (hx : Triple J h P a.eval Q A) : Triple J h P (c.evaluateValue k) Q A := by
  intro m s hs
  rw [Call.evaluateValue, ha, under_noteNull]
  exact hx m s hs

/-- A string argument of the call. -/
theorem triple_argument_string {c : Call} {k : Nat} {a : Arg} (ha : c.argv[k]? = some a)
    {Q : Bytes → σ → Prop} (hx : Triple J h P a.eval (IsString Q) A) :
    Triple J h P (c.evaluate k) Q A := by
  intro m s hs
  rw [Call.evaluate, ha, under_noteNull]
  exact triple_evaluate hx m s hs

end Evaluations

/-! ## Expressions and their places -/

/-- An expression that is a call in a tree is one in the script. -/
theorem node_of_strip {e : Expr} {fn : Fn} {name : Name} {args : List Expr} {start stop : Nat}
    (he : strip e = .node fn name args start stop) :
    ∃ argv start' stop', e = .node fn name argv start' stop' ∧ stripArgs argv = args := by
  cases e with
  | node fn' name' argv start' stop' =>
      rw [strip, Expr.node.injEq] at he
      obtain ⟨rfl, rfl, hargs, -, -⟩ := he
      exact ⟨argv, start', stop', rfl, hargs⟩

/-- As many expressions as trees. -/
theorem length_of_stripArgs {argv : List Expr} {args : List Tree}
    (h : stripArgs argv = Tree.exprs args) : argv.length = args.length := by
  induction args generalizing argv with
  | nil =>
      cases argv with
      | nil => rfl
      | cons e argv => cases h
  | cons a args ih =>
      cases argv with
      | nil => cases h
      | cons e argv =>
          rw [stripArgs, Tree.exprs, List.cons.injEq] at h
          rw [List.length_cons, List.length_cons, ih h.2]

/-- The expression of an argument. -/
theorem argument_of_stripArgs {argv : List Expr} {args : List Tree} {k : Nat} {a : Tree}
    (h : stripArgs argv = Tree.exprs args) (ha : args[k]? = some a) :
    ∃ e, argv[k]? = some e ∧ strip e = a.expr := by
  induction args generalizing argv k with
  | nil => cases ha
  | cons b args ih =>
      cases argv with
      | nil => cases h
      | cons e argv =>
          rw [stripArgs, Tree.exprs, List.cons.injEq] at h
          cases k with
          | zero =>
              cases ha
              exact ⟨e, rfl, h.1⟩
          | succ k =>
              obtain ⟨e', he', hstrip⟩ := ih h.2 ha
              exact ⟨e', he', hstrip⟩

/-- The call behind an expression, with its arguments. -/
structure CallOf (L : Libs) (fn : Fn) (name : Name) (args : List Tree) (c : Call) : Prop where
  fn_eq : c.fn = fn
  name_eq : c.name = name
  argc_eq : c.argc = args.length
  arg : ∀ (k : Nat) (a : Tree), args[k]? = some a → ∃ (e : Expr) (x : Arg), c.argv[k]? = some x ∧
    x.eval = e.eval L c.script ∧ strip e = a.expr

/-- The call that an expression makes. -/
theorem callOf_of_strip {L : Libs} {script : Bytes} {e : Expr} {fn : Fn} {name : Name}
    {args : List Tree} {start stop : Nat} (he : strip e = .node fn name (Tree.exprs args) start stop) :
    ∃ c, e.eval L script = run L c ∧ CallOf L fn name args c := by
  obtain ⟨argv, start', stop', rfl, hargs⟩ := node_of_strip he
  refine ⟨⟨fn, name, evalArgs L script argv, script⟩, rfl, rfl, rfl, ?_, ?_⟩
  · show (evalArgs L script argv).length = _
    rw [Updater.Expr.evalArgs_eq_map, List.length_map, length_of_stripArgs hargs]
  · intro k a ha
    obtain ⟨e, hk, hstrip⟩ := argument_of_stripArgs hargs ha
    refine ⟨e, ⟨e.eval L script, e.start, e.stop⟩, ?_, rfl, hstrip⟩
    show (evalArgs L script argv)[k]? = _
    rw [Updater.Expr.evalArgs_eq_map, List.getElem?_map, hk]
    rfl

/-! ## Rules for the constructs -/

section Constructs

variable {J : ProgLogic σ Op Res} {h : Handler Op Res} {L : Libs} {P A : σ → Prop}
  {Q : Value → σ → Prop}

/-- A stronger precondition, and weaker conditions afterwards. -/
theorem Meets.weaken {P' A' : σ → Prop} {Q' : Value → σ → Prop} {a : Tree} (ha : Meets J h L P a Q A)
    (hP : ∀ s, P' s → P s) (hQ : ∀ v s, Q v s → Q' v s) (hA : ∀ s, A s → A' s) :
    Meets J h L P' a Q' A' := by
  intro script e he m s hs
  refine J.mono ?_ (ha script e he m s (hP s hs))
  rintro ⟨r, m'⟩ t ht
  cases r with
  | none => exact hA t ht
  | some v => exact hQ v t ht

/-- A rule for the function is a rule for the expression. -/
theorem meets_of_call {a : Tree} {fn : Fn} {name : Name} {args : List Tree}
    (ha : a.expr = .node fn name (Tree.exprs args) 0 0)
    (hrun : ∀ c, CallOf L fn name args c → Triple J h P (run L c) Q A) : Meets J h L P a Q A := by
  intro script e he
  obtain ⟨c, heval, hc⟩ := callOf_of_strip (he.trans ha)
  rw [heval]
  exact hrun c hc

variable {fn : Fn} {name : Name} {args : List Tree} {c : Call}

/-- An argument keeps the rule of its tree. -/
theorem CallOf.argument (hc : CallOf L fn name args c) {k : Nat} {a : Tree} (hk : args[k]? = some a)
    (ha : Meets J h L P a Q A) : Triple J h P (c.evaluateValue k) Q A := by
  obtain ⟨e, x, hx, heval, hstrip⟩ := hc.arg k a hk
  apply triple_argument hx
  rw [heval]
  exact ha c.script e hstrip

/-- A string argument keeps the rule of its tree. -/
theorem CallOf.argument_string (hc : CallOf L fn name args c) {k : Nat} {a : Tree}
    (hk : args[k]? = some a) {Q : Bytes → σ → Prop} (ha : Meets J h L P a (IsString Q) A) :
    Triple J h P (c.evaluate k) Q A := by
  obtain ⟨e, x, hx, heval, hstrip⟩ := hc.arg k a hk
  apply triple_argument_string hx
  rw [heval]
  exact ha c.script e hstrip

/-- `a; b`. -/
theorem meets_seq {a b : Tree} {R : σ → Prop} (ha : Meets J h L P a (fun _ s => R s) A)
    (hb : Meets J h L R b Q A) : Meets J h L P (.bin .seq a b) Q A := by
  have hcall : (Tree.bin .seq a b).expr = .node .sequence (cstr "(operator)") (Tree.exprs [a, b]) 0 0 :=
    rfl
  refine meets_of_call hcall fun c hc => ?_
  rw [show run L c = sequenceFn c by rw [run, hc.fn_eq]]
  exact triple_orNull (hc.argument rfl ha) fun _ => hc.argument rfl hb

/-- `assert(a)`. A string that is not empty goes on; the message of a failed assertion is the text
of the argument, if that is in the script. -/
theorem meets_assert {a : Tree} {R : Bytes → σ → Prop} {f : Registered}
    (hf : f.1.2 = .assert) (ha : Meets J h L P a (IsString R) A)
    (hgo : ∀ str s, str ≠ [] → R str s → Q (stringValue []) s)
    (hstop : ∀ s, R [] s → A s ∧ J.Dies s) :
    Meets J h L P (.call f [a]) Q A := by
  have hcall : (Tree.call f [a]).expr = .node .assert f.1.1 (Tree.exprs [a]) 0 0 := by
    rw [← hf]
    rfl
  refine meets_of_call hcall fun c hc => ?_
  rw [show run L c = assertLoop c 1 0 by rw [run, hc.fn_eq, assertFn, hc.argc_eq]; rfl]
  refine triple_orNull (hc.argument_string rfl ha) fun str => ?_
  intro m s hs
  by_cases hstr : str ≠ []
  · rw [if_pos hstr]
    exact J.ret.2 (hgo str s hstr hs)
  · rw [if_neg hstr]
    obtain rfl := not_not.1 hstr
    obtain ⟨hA, hdies⟩ := hstop s hs
    split
    · exact hdies _
    · exact triple_nullWith (P := A) (fun _ ht => ht) m s hA

/-! ### Expressions that only look something up -/

/-- A string literal gives its string. -/
theorem gives_lit (str : Literal) : Gives h L (.lit str) (stringValue str) := by
  intro script e he m
  obtain ⟨argv, start, stop, rfl, -⟩ := node_of_strip he
  rfl

/-- The values of arguments that look something up. -/
theorem CallOf.evaluateValue_gives (hc : CallOf L fn name args c) {k : Nat} {a : Tree} {v : Value}
    (hk : args[k]? = some a) (ha : Gives h L a v) (m : Option Bytes) :
    (c.evaluateValue k).under h m = .ret (some v, m) := by
  obtain ⟨e, x, hx, heval, hstrip⟩ := hc.arg k a hk
  rw [Call.evaluateValue, hx, under_noteNull, heval]
  exact ha c.script e hstrip m

/-- An argument that gives a string. -/
theorem CallOf.evaluate_gives (hc : CallOf L fn name args c) {k : Nat} {a : Tree} {str : Bytes}
    (hk : args[k]? = some a) (ha : Gives h L a (stringValue str)) (m : Option Bytes) :
    (c.evaluate k).under h m = .ret (some str, m) := by
  obtain ⟨e, x, hx, heval, hstrip⟩ := hc.arg k a hk
  rw [Call.evaluate, hx, under_noteNull, evaluate, under_orNull, heval, ha c.script e hstrip]
  rfl

/-- Reading arguments that give strings. Induction on them. -/
theorem CallOf.readFrom_gives (hc : CallOf L fn name args c) {strs : List Bytes} {k : Nat}
    (hargs : List.Forall₂ (fun a str => Gives h L a (stringValue str))
      ((args.drop k).take strs.length) strs) (m : Option Bytes) :
    (c.readFrom strs.length k).under h m = .ret (.ok strs, m) := by
  induction strs generalizing k with
  | nil => rfl
  | cons str strs ih =>
      cases hdrop : args.drop k with
      | nil => rw [hdrop] at hargs; cases hargs
      | cons a rest =>
          have hk : args[k]? = some a := by
            rw [← List.head?_drop, hdrop]
            rfl
          have hrest : args.drop (k + 1) = rest := by
            rw [← List.drop_drop, hdrop]
            rfl
          rw [hdrop, List.length_cons, List.take_succ_cons] at hargs
          cases hargs with
          | cons ha hrests =>
              rw [List.length_cons, Call.readFrom, under_bind, hc.evaluate_gives hk ha m,
                Prog.ret_bind]
              simp only
              rw [under_bind, ih (by rwa [hrest])]
              rfl

/-- `ReadArgs` and `ReadVarArgs`. -/
theorem CallOf.readArgs_gives (hc : CallOf L fn name args c) {strs : List Bytes} {k : Nat}
    (hargs : List.Forall₂ (fun a str => Gives h L a (stringValue str))
      ((args.drop k).take strs.length) strs) (m : Option Bytes) :
    (c.readArgs k strs.length).under h m = .ret (some strs, m) := by
  rw [Call.readArgs, under_bind, hc.readFrom_gives hargs]
  rfl

/-- `ReadValueVarArgs`. -/
theorem CallOf.readValues_gives (hc : CallOf L fn name args c) {vs : List Value} {k : Nat}
    (hargs : List.Forall₂ (Gives h L) ((args.drop k).take vs.length) vs) (m : Option Bytes) :
    (c.readValues k vs.length).under h m = .ret (some vs, m) := by
  induction vs generalizing k with
  | nil => rfl
  | cons v vs ih =>
      cases hdrop : args.drop k with
      | nil => rw [hdrop] at hargs; cases hargs
      | cons a rest =>
          have hk : args[k]? = some a := by
            rw [← List.head?_drop, hdrop]
            rfl
          have hrest : args.drop (k + 1) = rest := by
            rw [← List.drop_drop, hdrop]
            rfl
          rw [hdrop, List.length_cons, List.take_succ_cons] at hargs
          cases hargs with
          | cons ha hrests =>
              rw [List.length_cons, Call.readValues, under_orNull, hc.evaluateValue_gives hk ha m,
                Prog.ret_bind]
              simp only [Option.elim_some]
              rw [under_orNull, ih (by rwa [hrest])]
              rfl

end Constructs

end OpenRecovery.Edify
