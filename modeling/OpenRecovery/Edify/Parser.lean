import OpenRecovery.Edify.Lexer
import OpenRecovery.Updater.Script

/-!
# The parser of the script language

`edify/parser.y`, as the machine bison makes of it. The stack of the machine is a list of frames,
the beginnings of expressions whose next part is still missing, and the part that has been read on
top of them. `settle` makes the reductions that come before the next token, `shift` moves on over
it, and the reductions that need no next token (a closing parenthesis, `ENDIF`) are part of `shift`.
Where the grammar is ambiguous the declared precedences decide: `binds`.

A frame keeps the location of what it has read (`@1`, `@2`), so that the locations of `Build` and of
the rules for parentheses and for a semicolon at the end are those of `YYLLOC_DEFAULT`.

The stack of bison's skeleton has a place for the state of each symbol and one for the state at its
bottom, `YYMAXDEPTH` at most. `pushed` counts the symbols, and a token without a place for it ends
the parse with `memory exhausted`.

The parser starts with `error_count` 0, and a syntax error, an unknown function or an exhausted
stack makes it positive. What bison's error recovery does after that is left out: `Parsed.errors`.
-/

set_option autoImplicit false

namespace OpenRecovery.Edify

open OpenRecovery.Storage
open OpenRecovery.Updater (Expr registered)

/-- From the start of the first location to the end of the second. -/
def Loc.join (l r : Loc) : Loc := ⟨l.start, r.stop⟩

/-- The binary operators. -/
inductive BinOp where
  | seq | or | and | eq | ne | plus
  deriving DecidableEq

namespace BinOp

/-- The declared precedences; the comma has 1. All these operators are left-associative. -/
def prec : BinOp → Nat
  | seq => 0
  | or => 2
  | and => 3
  | eq => 4
  | ne => 4
  | plus => 5

def fn : BinOp → Fn
  | seq => .sequence
  | or => .logicalOr
  | and => .logicalAnd
  | eq => .equality
  | ne => .inequality
  | plus => .concat

def token : BinOp → Token
  | seq => .semi
  | or => .or
  | and => .and
  | eq => .eq
  | ne => .ne
  | plus => .plus

end BinOp

/-- The operator of a token. -/
def Token.binOp : Token → Option BinOp
  | semi => some .seq
  | or => some .or
  | and => some .and
  | eq => some .eq
  | ne => some .ne
  | plus => some .plus
  | _ => none

/-- An expression can begin with the token. -/
def Token.starts : Token → Bool
  | string _ => true
  | lparen => true
  | bang => true
  | if_ => true
  | _ => false

/-- `FindFunction`. -/
def findFunction (name : Name) : Option Fn := registered.lookup name

/-- `Build`. -/
def build (fn : Fn) (loc : Loc) (argv : List Expr) : Expr :=
  .node fn (cstr "(operator)") argv loc.start loc.stop

/-- Overwrite the place of an expression. -/
def setSpan : Expr → Loc → Expr
  | .node fn name argv _ _, loc => .node fn name argv loc.start loc.stop

/-! ## The stack -/

/-- The beginning of an expression: `(`, `expr op`, `!`, `IF`, `IF expr THEN`,
`IF expr THEN expr ELSE`, and `STRING ( arglist`, the last one after a comma or without one. -/
inductive Frame where
  | paren (l : Loc)
  | binary (left : Expr) (l : Loc) (o : BinOp) (m : Loc)
  | bang (l : Loc)
  | ifCond (l : Loc)
  | ifThen (l : Loc) (cond : Expr)
  | ifElse (l : Loc) (cond branch : Expr)
  | call (l : Loc) (name : Bytes) (argv : List Expr) (comma : Bool)

/-- On top of the frames: nothing, a `STRING`, or an `expr` with its location. -/
inductive Top where
  | operand
  | name (str : Bytes) (l : Loc)
  | expr (e : Expr) (l : Loc)

/-- The stack of the machine. -/
structure Stack where
  frames : List Frame
  top : Top

/-- The next token belongs to the right operand of `o`: it is shifted before `expr o expr` is
reduced. -/
def binds (t : Option Token) (o : BinOp) : Bool :=
  match t.bind Token.binOp with
  | some o' => o.prec < o'.prec
  | none => false

/-- The next token begins an expression. -/
def starts (t : Option Token) : Bool := t.any Token.starts

/-- The reductions `! expr` and `expr op expr` before the token `t`. -/
def reduceExpr (t : Option Token) : List Frame → Expr → Loc → Stack
  | .bang l :: fs, e, r => reduceExpr t fs (build .logicalNot (l.join r) [e]) (l.join r)
  | .binary left l o m :: fs, e, r =>
      if binds t o then ⟨.binary left l o m :: fs, .expr e r⟩
      else reduceExpr t fs (build o.fn (l.join r) [left, e]) (l.join r)
  | fs, e, r => ⟨fs, .expr e r⟩

/-- The reductions before the token `t`, `none` at the end of the input. -/
def settle (t : Option Token) : Stack → Stack
  | ⟨fs, .name str l⟩ =>
      if t = some .lparen then ⟨fs, .name str l⟩
      else reduceExpr t fs (.node .literal str [] l.start l.stop) l
  -- `expr ;` with nothing after it
  | ⟨.binary left l .seq m :: fs, .operand⟩ =>
      if starts t then ⟨.binary left l .seq m :: fs, .operand⟩
      else reduceExpr t fs (setSpan left l) (l.join m)
  | ⟨fs, .operand⟩ => ⟨fs, .operand⟩
  | ⟨fs, .expr e l⟩ => reduceExpr t fs e l

/-- `STRING ( arglist )`. -/
def finishCall (fs : List Frame) (l : Loc) (name : Bytes) (argv : List Expr) (r : Loc) :
    Option Stack :=
  (findFunction name).map fun fn =>
    ⟨fs, .expr (.node fn name argv l.start r.stop) (l.join r)⟩

/-- A token where an expression is expected. -/
def shiftOperand (t : Token) (m : Loc) (fs : List Frame) : Option Stack :=
  match t, fs with
  | .string str, fs => some ⟨fs, .name str m⟩
  | .lparen, fs => some ⟨.paren m :: fs, .operand⟩
  | .bang, fs => some ⟨.bang m :: fs, .operand⟩
  | .if_, fs => some ⟨.ifCond m :: fs, .operand⟩
  -- the empty argument list
  | .rparen, .call l name argv false :: fs => finishCall fs l name argv m
  | .comma, .call l name argv false :: fs => some ⟨.call l name argv true :: fs, .operand⟩
  | _, _ => none

/-- A token after an expression. -/
def shiftExpr (t : Token) (m : Loc) (fs : List Frame) (e : Expr) (l : Loc) : Option Stack :=
  match t.binOp with
  | some o => some ⟨.binary e l o m :: fs, .operand⟩
  | none =>
      match t, fs with
      | .rparen, .paren b :: fs => some ⟨fs, .expr (setSpan e (b.join m)) (b.join m)⟩
      | .rparen, .call b name argv _ :: fs => finishCall fs b name (argv ++ [e]) m
      | .comma, .call b name argv _ :: fs => some ⟨.call b name (argv ++ [e]) true :: fs, .operand⟩
      | .then_, .ifCond b :: fs => some ⟨.ifThen b e :: fs, .operand⟩
      | .else_, .ifThen b cond :: fs => some ⟨.ifElse b cond e :: fs, .operand⟩
      | .endif, .ifThen b cond :: fs =>
          some ⟨fs, .expr (build .ifElse (b.join m) [cond, e]) (b.join m)⟩
      | .endif, .ifElse b cond branch :: fs =>
          some ⟨fs, .expr (build .ifElse (b.join m) [cond, branch, e]) (b.join m)⟩
      | _, _ => none

/-- Move on over a token, `none` for a syntax error or an unknown function. -/
def shift (t : Token) (m : Loc) : Stack → Option Stack
  | ⟨fs, .operand⟩ => shiftOperand t m fs
  | ⟨fs, .name str l⟩ => if t = .lparen then some ⟨.call l str [] false :: fs, .operand⟩ else none
  | ⟨fs, .expr e l⟩ => shiftExpr t m fs e l

/-- One token with its location. -/
abbrev Lexeme := Token × Loc

/-- What the machine does with a token that has a place on the stack. -/
def move (x : Lexeme) (s : Stack) : Option Stack := shift x.1 x.2 (settle (some x.1) s)

/-! ## The size of the stack -/

/-- The symbols of a frame. -/
def Frame.size : Frame → Nat
  | paren _ => 1
  | binary .. => 2
  | bang _ => 1
  | ifCond _ => 1
  | ifThen .. => 3
  | ifElse .. => 5
  | call _ _ _ comma => if comma then 4 else 2

/-- The symbols of the frames. -/
def framesSize : List Frame → Nat
  | [] => 0
  | f :: fs => framesSize fs + f.size

/-- The symbols on the stack before the token `t` is pushed, after the reductions of `settle`.
Before the end of an argument, `STRING ( arglist` has become of the frame and the part above it. -/
def sizeBefore (t : Token) : Stack → Nat
  | ⟨fs, .operand⟩ =>
      match fs with
      | .call _ _ _ false :: fs => framesSize fs + if t.starts then 2 else 3
      | fs => framesSize fs
  | ⟨fs, .name _ _⟩ => framesSize fs + 1
  | ⟨fs, .expr _ _⟩ =>
      match fs with
      | .call _ _ _ comma :: fs =>
          framesSize fs + if t.binOp.isSome then (if comma then 5 else 3) else 3
      | fs => framesSize fs + 1

/-- The symbols on the stack when a token has been pushed, before a rule that ends with it is
reduced. Reductions leave no more symbols than there were, but for the empty argument list, and
after that one a token comes. -/
def pushed (x : Lexeme) (s : Stack) : Nat := sizeBefore x.1 (settle (some x.1) s) + 1

/-- `YYMAXDEPTH`, which `parser.y` leaves at bison's own value. -/
def yyMaxDepth : Nat := 10000

/-- The stack is extended when its last place is taken, and cannot be when it has all its places:
the symbols and the state at the bottom have to leave one free. -/
def HasRoom (n : Nat) : Prop := n + 1 < yyMaxDepth

instance (n : Nat) : Decidable (HasRoom n) := inferInstanceAs (Decidable (n + 1 < yyMaxDepth))

theorem HasRoom.mono {m n : Nat} (h : HasRoom n) (hle : m ≤ n) : HasRoom m :=
  Nat.lt_of_le_of_lt (Nat.succ_le_succ hle) h

/-- What the machine does with a token: `none` also for `memory exhausted`. -/
def feed (x : Lexeme) (s : Stack) : Option Stack :=
  if HasRoom (pushed x s) then move x s else none

/-- What the machine does with a list of tokens. -/
def feedAll : List Lexeme → Stack → Option Stack
  | [], s => some s
  | x :: xs, s => (feed x s).bind (feedAll xs)

/-- The end of the input: `input: expr`. The two symbols of its last rule have their places. -/
def accept (s : Stack) : Option Expr :=
  match settle none s with
  | ⟨[], .expr e _⟩ => some e
  | _ => none

/-! ## The parser -/

/-- The result of `yyparse`: no errors and `*root`, or `error_count` positive. A write outside
`string_buffer` is a fault. -/
inductive Parsed where
  | ok (root : Expr)
  | errors
  | fault

/-- `yyparse`. -/
def yyparse : Nat → Scanner → Stack → Parsed
  | 0, _, _ => .errors
  | n + 1, sc, s =>
      match yylex sc with
      | .overflow => .fault
      | .eof =>
          match accept s with
          | some e => .ok e
          | none => .errors
      | .token t sc =>
          match feed (t, sc.yylloc) s with
          | some s => yyparse n sc s
          | none => .errors

/-- The first parse of a process. Every token takes a byte of the script, so there is fuel for all
of them and for the end. -/
def parse (script : Bytes) : Parsed :=
  yyparse (script.length + 1) (Scanner.init script) ⟨[], .operand⟩

end OpenRecovery.Edify
