import OpenRecovery.Edify.Parser

/-!
# The grammar and the parser

`Der` is the grammar of the script language with the precedences built in: a derivation of an
expression has a `Kind`, which says what the outermost rule is and so where the expression can be an
operand. An expression that ends in a semicolon can be a left operand only, and so can one that
begins with such an expression (`tailed`), because the semicolon closes everything before it.

A derivation also counts the symbols that the machine has on its stack at most while it reads it.

`reads_of_der`: the machine reads the tokens of a derivation, above any frames that admit its
kind, and its stack grows by that count. `der_of_accept`: what the machine has accepted has a
derivation. Both leave the end of the stack aside; `accept_of_der` and `der_of_accept` bring it in.
-/

set_option autoImplicit false

namespace OpenRecovery.Edify

open OpenRecovery.Storage
open OpenRecovery.Updater (Expr)

/-! ## Derivations -/

/-- The place of a list of tokens. -/
def span (ts : List Lexeme) : Loc :=
  ⟨(ts.head?.map fun x => x.2.start).getD 0, (ts.getLast?.map fun x => x.2.stop).getD 0⟩

/-- The outermost rule of an expression: one that no operator can come into, a binary operator, or a
semicolon at the end. -/
inductive Kind where
  | closed
  | op (o : BinOp) (tailed : Bool)
  | post

/-- The expression, or its leftmost operand, ends in a semicolon. -/
def Kind.tailed : Kind → Bool
  | closed => false
  | op _ tailed => tailed
  | post => true

/-- Left operands. -/
def LeftOf (o : BinOp) : Kind → Prop
  | .closed => True
  | .op o₁ _ => o.prec ≤ o₁.prec
  | .post => True

/-- Right operands. -/
def RightOf (o : BinOp) : Kind → Prop
  | .closed => True
  | .op o₂ tailed => tailed = false ∧ o.prec < o₂.prec
  | .post => False

/-- The nonterminals. -/
inductive Cat where
  | expr (k : Kind)
  | args

/-- Derivations, with the most symbols that are on the stack while they are read and the expressions
that the actions make. -/
inductive Der : Cat → Nat → List Lexeme → List Expr → Prop where
  | literal (str : Bytes) (l : Loc) :
      Der (.expr .closed) 1 [(.string str, l)] [.node .literal str [] l.start l.stop]
  | paren {k : Kind} {n : Nat} {ts : List Lexeme} {e : Expr} (l r : Loc)
      (h : Der (.expr k) n ts [e]) :
      Der (.expr .closed) (max (1 + n) 3) ((.lparen, l) :: (ts ++ [(.rparen, r)]))
        [setSpan e (l.join r)]
  | post {k : Kind} {n : Nat} {ts : List Lexeme} {e : Expr} (r : Loc) (h : Der (.expr k) n ts [e]) :
      Der (.expr .post) (max n 2) (ts ++ [(.semi, r)]) [setSpan e (span ts)]
  | binary {k₁ k₂ : Kind} {n₁ n₂ : Nat} {o : BinOp} {ts us : List Lexeme} {e₁ e₂ : Expr} (m : Loc)
      (hleft : LeftOf o k₁) (hright : RightOf o k₂) (h₁ : Der (.expr k₁) n₁ ts [e₁])
      (h₂ : Der (.expr k₂) n₂ us [e₂]) :
      Der (.expr (.op o k₁.tailed)) (max n₁ (2 + n₂)) (ts ++ (o.token, m) :: us)
        [build o.fn ((span ts).join (span us)) [e₁, e₂]]
  | bang {n : Nat} {ts : List Lexeme} {e : Expr} (l : Loc) (h : Der (.expr .closed) n ts [e]) :
      Der (.expr .closed) (1 + n) ((.bang, l) :: ts) [build .logicalNot (l.join (span ts)) [e]]
  | ifThen {k₁ k₂ : Kind} {n₁ n₂ : Nat} {ts us : List Lexeme} {c e : Expr} (l m r : Loc)
      (h₁ : Der (.expr k₁) n₁ ts [c]) (h₂ : Der (.expr k₂) n₂ us [e]) :
      Der (.expr .closed) (max (1 + n₁) (max (3 + n₂) 5))
        ((.if_, l) :: (ts ++ (.then_, m) :: (us ++ [(.endif, r)])))
        [build .ifElse (l.join r) [c, e]]
  | ifElse {k₁ k₂ k₃ : Kind} {n₁ n₂ n₃ : Nat} {ts us vs : List Lexeme} {c e e' : Expr}
      (l m m' r : Loc) (h₁ : Der (.expr k₁) n₁ ts [c]) (h₂ : Der (.expr k₂) n₂ us [e])
      (h₃ : Der (.expr k₃) n₃ vs [e']) :
      Der (.expr .closed) (max (1 + n₁) (max (3 + n₂) (max (5 + n₃) 7)))
        ((.if_, l) :: (ts ++ (.then_, m) :: (us ++ (.else_, m') :: (vs ++ [(.endif, r)]))))
        [build .ifElse (l.join r) [c, e, e']]
  | call {n : Nat} {ts : List Lexeme} {argv : List Expr} {name : Bytes} {fn : Fn} (l m r : Loc)
      (hfn : findFunction name = some fn) (h : Der .args n ts argv) :
      Der (.expr .closed) (max (2 + n) 4)
        ((.string name, l) :: (.lparen, m) :: (ts ++ [(.rparen, r)]))
        [.node fn name argv l.start r.stop]
  | noArgs : Der .args 0 [] []
  | firstArg {k : Kind} {n : Nat} {ts : List Lexeme} {e : Expr} (h : Der (.expr k) n ts [e]) :
      Der .args n ts [e]
  | nextArg {k : Kind} {n₁ n₂ : Nat} {ts us : List Lexeme} {argv : List Expr} {e : Expr} (m : Loc)
      (h₁ : Der .args n₁ ts argv) (h₂ : Der (.expr k) n₂ us [e]) :
      Der .args (max n₁ (2 + n₂)) (ts ++ (.comma, m) :: us) (argv ++ [e])

/-- An expression has a lexeme. -/
theorem Der.ne_nil {k : Kind} {n : Nat} {ts : List Lexeme} {es : List Expr}
    (h : Der (.expr k) n ts es) : ts ≠ [] := by
  cases h <;> simp

/-- An expression is a symbol of its own. -/
theorem Der.pos {k : Kind} {n : Nat} {ts : List Lexeme} {es : List Expr}
    (h : Der (.expr k) n ts es) : 0 < n := by
  cases h <;> omega

/-- The span of one lexeme more. -/
theorem span_cons (x : Lexeme) {ts : List Lexeme} (h : ts ≠ []) :
    span (x :: ts) = x.2.join (span ts) := by
  obtain ⟨y, ys, rfl⟩ := List.exists_cons_of_ne_nil h
  rfl

/-- The span of two lists is from the first to the second. -/
theorem span_append {ts us : List Lexeme} (hts : ts ≠ []) (hus : us ≠ []) :
    span (ts ++ us) = (span ts).join (span us) := by
  obtain ⟨x, xs, rfl⟩ := List.exists_cons_of_ne_nil hts
  have hlast : (x :: xs ++ us).getLast? = us.getLast? := by
    rw [List.getLast?_append_of_ne_nil _ hus]
  simp only [span, Loc.join, hlast]
  rfl

@[simp] theorem join_join (l m r : Loc) : l.join (m.join r) = l.join r := rfl

@[simp] theorem span_singleton (x : Lexeme) : span [x] = x.2 := rfl

@[simp] theorem join_span_concat (l : Loc) (ts : List Lexeme) (x : Lexeme) :
    l.join (span (ts ++ [x])) = l.join x.2 := by
  simp [Loc.join, span]

/-! ## Completeness -/

@[simp] theorem binOp_token (o : BinOp) : o.token.binOp = some o := by cases o <;> rfl

@[simp] theorem starts_token (o : BinOp) : o.token.starts = false := by cases o <;> rfl

/-- The frames below an expression of the kind `k`. -/
def Admits (k : Kind) : List Frame → Prop
  | .bang _ :: _ => k = .closed
  | .binary _ _ o _ :: _ => RightOf o k
  | _ => True

/-- No operator waits for its right operand. -/
def Delimited : List Frame → Prop
  | .bang _ :: _ => False
  | .binary .. :: _ => False
  | _ => True

/-- Case distinction by the operator that waits for its right operand. -/
@[elab_as_elim]
theorem frames_cases {motive : List Frame → Prop} (fs : List Frame)
    (bang : ∀ l fs, motive (.bang l :: fs))
    (binary : ∀ left l o m fs, motive (.binary left l o m :: fs))
    (delimited : ∀ fs, Delimited fs → motive fs) : motive fs := by
  cases fs with
  | nil => exact delimited _ trivial
  | cons f fs =>
      cases f with
      | bang l => exact bang l fs
      | binary left l o m => exact binary left l o m fs
      | _ => exact delimited _ trivial

/-- Between delimiters any expression may stand. -/
theorem Delimited.admits {fs : List Frame} (h : Delimited fs) (k : Kind) : Admits k fs := by
  unfold Delimited at h
  split at h
  · cases h
  · cases h
  · next hbang hbinary =>
      rw [Admits]
      · trivial
      · exact hbang
      · exact hbinary

/-- Between delimiters there is nothing to reduce. -/
theorem Delimited.reduceExpr {fs : List Frame} (h : Delimited fs) (t : Option Token) (e : Expr)
    (l : Loc) : reduceExpr t fs e l = ⟨fs, .expr e l⟩ := by
  unfold Delimited at h
  split at h
  · cases h
  · cases h
  · next hbang hbinary => rw [Edify.reduceExpr] <;> assumption

theorem admits_closed (fs : List Frame) : Admits .closed fs := by
  cases fs using frames_cases with
  | bang l fs => rfl
  | binary left l o m fs => trivial
  | delimited fs h => exact h.admits _

/-- An expression with a semicolon at its end stands between delimiters. -/
theorem delimited_of_admits_post {fs : List Frame} (h : Admits .post fs) : Delimited fs := by
  cases fs using frames_cases with
  | bang l fs => cases h
  | binary left l o m fs => cases h
  | delimited fs h => exact h

/-- The token after an expression of the kind `k` does not belong to it. -/
def Ends (t : Option Token) : Kind → Prop
  | .op o _ => binds t o = false
  | _ => True

/-- A token that is no operator ends every expression. -/
theorem ends_of_binOp_eq_none {t : Token} (h : t.binOp = none) (k : Kind) : Ends (some t) k := by
  cases k with
  | op o _ => simp [Ends, binds, h]
  | closed => trivial
  | post => trivial

/-- Nothing binds weaker than the semicolon. -/
theorem ends_semi (k : Kind) : Ends (some .semi) k := by
  cases k with
  | op o _ => simp [Ends, binds, Token.binOp, BinOp.prec]
  | closed => trivial
  | post => trivial

/-- An operator ends its left operand. -/
theorem ends_of_leftOf {o : BinOp} {k : Kind} (h : LeftOf o k) : Ends (some o.token) k := by
  cases k with
  | op o₁ _ => simpa [Ends, binds, LeftOf] using h
  | closed => trivial
  | post => trivial

/-- What does not bind an operator does not bind those that bind more tightly. -/
theorem binds_mono {t : Option Token} {o o' : BinOp} (hle : o.prec ≤ o'.prec)
    (h : binds t o = false) : binds t o' = false := by
  cases hop : t.bind Token.binOp with
  | none => simp [binds, hop]
  | some o₁ =>
      simp only [binds, hop, decide_eq_false_iff_not, Nat.not_lt] at h ⊢
      exact h.trans hle

/-- What ends an operator's expression ends its right operand. -/
theorem ends_right {t : Option Token} {o : BinOp} {k : Kind} (hright : RightOf o k)
    (h : binds t o = false) : Ends t k := by
  cases k with
  | op o₂ _ => exact binds_mono (Nat.le_of_lt hright.2) h
  | closed => trivial
  | post => trivial

/-- Frames that admit an expression with the operator `o` stay as they are before the token of
`o`. -/
theorem reduceExpr_left {o : BinOp} {tailed : Bool} {fs : List Frame}
    (h : Admits (.op o tailed) fs) (e : Expr) (l : Loc) :
    reduceExpr (some o.token) fs e l = ⟨fs, .expr e l⟩ := by
  cases fs using frames_cases with
  | bang l fs => cases h
  | binary left m o' m' fs =>
      have hbinds : binds (some o.token) o' = true := by simpa [binds] using h.2
      rw [reduceExpr, if_pos hbinds]
  | delimited fs hfs => exact hfs.reduceExpr ..

/-- They admit its left operand. -/
theorem admits_left {o : BinOp} {k : Kind} {fs : List Frame} (hleft : LeftOf o k)
    (h : Admits (.op o k.tailed) fs) : Admits k fs := by
  cases fs using frames_cases with
  | bang l fs => cases h
  | binary left m o' m' fs =>
      obtain ⟨htailed, hprec⟩ := h
      cases k with
      | closed => trivial
      | op o₁ tailed => exact ⟨htailed, Nat.lt_of_lt_of_le hprec hleft⟩
      | post => cases htailed
  | delimited fs hfs => exact hfs.admits k

/-- What the machine does with a list of tokens, whatever the size of its stack. -/
def moveAll : List Lexeme → Stack → Option Stack
  | [], s => some s
  | x :: xs, s => (move x s).bind (moveAll xs)

/-- The most symbols on the stack while the machine reads the tokens. -/
def peak : List Lexeme → Stack → Nat
  | [], _ => 0
  | x :: xs, s => max (pushed x s) (((move x s).map (peak xs)).getD 0)

@[simp] theorem peak_nil (s : Stack) : peak [] s = 0 := rfl

/-- The depth of the stack over one token more. -/
theorem peak_cons {x : Lexeme} {xs : List Lexeme} {s s' : Stack} (h : move x s = some s') :
    peak (x :: xs) s = max (pushed x s) (peak xs s') := by
  rw [peak, h]
  rfl

theorem hasRoom_zero : HasRoom 0 := by decide

/-- Room for two is room for the larger. -/
theorem hasRoom_max {m n : Nat} : HasRoom (max m n) ↔ HasRoom m ∧ HasRoom n := by
  unfold HasRoom
  omega

/-- A list of tokens is read when all its pushes have their places. -/
theorem feedAll_eq_some_iff {ts : List Lexeme} {s s' : Stack} :
    feedAll ts s = some s' ↔ moveAll ts s = some s' ∧ HasRoom (peak ts s) := by
  induction ts generalizing s with
  | nil => exact ⟨fun h => ⟨h, hasRoom_zero⟩, fun h => h.1⟩
  | cons x xs ih =>
      rw [feedAll, moveAll, feed]
      cases hx : move x s with
      | none => simp
      | some s₁ =>
          rw [peak_cons hx, Option.bind_some]
          split
          · next hroom =>
              rw [Option.bind_some, ih, hasRoom_max]
              exact ⟨fun h => ⟨h.1, hroom, h.2⟩, fun h => ⟨h.1, h.2.2⟩⟩
          · next hfull =>
              refine ⟨fun h => (by cases h), fun h => ?_⟩
              exact absurd (hasRoom_max.mp h.2).1 hfull

/-- The moves of two lists, one after the other. -/
theorem moveAll_append (ts us : List Lexeme) (s : Stack) :
    moveAll (ts ++ us) s = (moveAll ts s).bind (moveAll us) := by
  induction ts generalizing s with
  | nil => rfl
  | cons x ts ih =>
      rw [List.cons_append, moveAll, moveAll, Option.bind_assoc]
      congr 1
      funext s'
      exact ih s'

/-- The depth over two lists. -/
theorem peak_append {ts us : List Lexeme} {s s' : Stack} (h : moveAll ts s = some s') :
    peak (ts ++ us) s = max (peak ts s) (peak us s') := by
  induction ts generalizing s with
  | nil =>
      cases h
      exact (Nat.zero_max _).symm
  | cons x ts ih =>
      obtain ⟨s₁, hx, hts⟩ := Option.bind_eq_some_iff.mp h
      rw [List.cons_append, peak_cons hx, peak_cons hx, ih hts, Nat.max_assoc]

/-- What comes after an argument list: the end of the call, or a comma. -/
def afterArgs (x : Lexeme) (fs : List Frame) (l : Loc) (name : Bytes) (argv : List Expr) :
    Option Stack :=
  if x.1 = .rparen then finishCall fs l name argv x.2
  else some ⟨.call l name argv true :: fs, .operand⟩

/-- The machine reads the tokens and makes the expressions of them, whatever frames are below and
whatever token comes next, as long as these leave the expression alone. The stack grows by `n`
symbols, for arguments with `STRING (` below them and the token after them counted in. -/
def Reads : Cat → Nat → List Lexeme → List Expr → Prop
  | .expr k, n, ts, [e] =>
      ∀ (fs : List Frame) (t : Option Token), Admits k fs → Ends t k → starts t = false →
        ∃ s, moveAll ts ⟨fs, .operand⟩ = some s ∧ settle t s = reduceExpr t fs e (span ts) ∧
          peak ts ⟨fs, .operand⟩ = framesSize fs + n
  | .args, n, ts, argv =>
      ∀ (fs : List Frame) (l : Loc) (name : Bytes) (x : Lexeme),
        x.1 = .rparen ∨ x.1 = .comma →
          ∃ s, moveAll ts ⟨.call l name [] false :: fs, .operand⟩ = some s ∧
            move x s = afterArgs x fs l name argv ∧
            max (peak ts ⟨.call l name [] false :: fs, .operand⟩) (pushed x s) =
              framesSize fs + max (2 + n) 4
  | _, _, _, _ => True

section Reads

variable {k : Kind} {n : Nat} {ts : List Lexeme} {e : Expr} {s' : Stack}

/-- An expression that the token after it leaves alone, and that token. -/
theorem Reads.next {fs : List Frame} (h : Reads (.expr k) n ts [e]) (x : Lexeme) (us : List Lexeme)
    (hfs : Admits k fs) (hends : Ends (some x.1) k) (hx : x.1.starts = false)
    (hreduce : reduceExpr (some x.1) fs e (span ts) = ⟨fs, .expr e (span ts)⟩)
    (hshift : shiftExpr x.1 x.2 fs e (span ts) = some s') :
    moveAll (ts ++ x :: us) ⟨fs, .operand⟩ = moveAll us s' ∧
      peak (ts ++ x :: us) ⟨fs, .operand⟩ =
        max (framesSize fs + n)
          (max (sizeBefore x.1 ⟨fs, .expr e (span ts)⟩ + 1) (peak us s')) := by
  obtain ⟨s, hread, hsettle, hpeak⟩ := h fs (some x.1) hfs hends hx
  rw [hreduce] at hsettle
  have hmove : move x s = some s' := by rw [move, hsettle, shift, hshift]
  constructor
  · rw [moveAll_append, hread, Option.bind_some, moveAll, hmove, Option.bind_some]
  · rw [peak_append hread, hpeak, peak_cons hmove, pushed, hsettle]

/-- Between delimiters the expression comes to stand on top of the frames. -/
theorem Reads.next_delimited (h : Reads (.expr k) n ts [e]) (fs : List Frame) (x : Lexeme)
    (us : List Lexeme) (hfs : Delimited fs) (hop : x.1.binOp = none) (hx : x.1.starts = false)
    (hshift : shiftExpr x.1 x.2 fs e (span ts) = some s') :
    moveAll (ts ++ x :: us) ⟨fs, .operand⟩ = moveAll us s' ∧
      peak (ts ++ x :: us) ⟨fs, .operand⟩ =
        max (framesSize fs + n)
          (max (sizeBefore x.1 ⟨fs, .expr e (span ts)⟩ + 1) (peak us s')) :=
  h.next x us (hfs.admits k) (ends_of_binOp_eq_none hop k) hx (hfs.reduceExpr ..) hshift

variable (fs : List Frame)

/-- A token that begins an operand reduces nothing. -/
theorem settle_start {t : Token} (ht : t.starts = true) :
    settle (some t) ⟨fs, .operand⟩ = ⟨fs, .operand⟩ := by
  unfold settle
  split
  · next h => cases h
  · next h =>
      cases h
      exact if_pos ht
  · next h => exact h.symm
  · next h => cases h

/-- Nor does it find anything but the frames. -/
theorem sizeBefore_start {t : Token} (ht : t.starts = true) :
    sizeBefore t ⟨fs, .operand⟩ = framesSize fs := by
  simp only [sizeBefore, ht, if_true]
  split
  · rfl
  · rfl

/-- The token that begins an expression. -/
theorem moveAll_start (x : Lexeme) (ts : List Lexeme) (hx : x.1.starts = true)
    (hshift : shiftOperand x.1 x.2 fs = some s') :
    moveAll (x :: ts) ⟨fs, .operand⟩ = moveAll ts s' ∧
      peak (x :: ts) ⟨fs, .operand⟩ = max (framesSize fs + 1) (peak ts s') := by
  have hmove : move x ⟨fs, .operand⟩ = some s' := by rw [move, settle_start fs hx, shift, hshift]
  constructor
  · rw [moveAll, hmove, Option.bind_some]
  · rw [peak_cons hmove, pushed, settle_start fs hx, sizeBefore_start fs hx]

/-- An operator finds the frames and the expression. -/
theorem sizeBefore_op (o : BinOp) (e : Expr) (l : Loc) :
    sizeBefore o.token ⟨fs, .expr e l⟩ = framesSize fs + 1 := by
  simp only [sizeBefore, binOp_token, Option.isSome_some, if_true]
  split
  · next comma fs => cases comma <;> rfl
  · rfl

end Reads

/-- An expression and a semicolon. -/
theorem reads_post {k : Kind} {n : Nat} {ts : List Lexeme} {e : Expr} (r : Loc) (hpos : 0 < n)
    (h : Reads (.expr k) n ts [e]) (hts : ts ≠ []) :
    Reads (.expr .post) (max n 2) (ts ++ [(.semi, r)]) [setSpan e (span ts)] := by
  intro fs t hfs _ ht
  have hfs := delimited_of_admits_post hfs
  obtain ⟨hread, hpeak⟩ := h.next (.semi, r) [] (hfs.admits k) (ends_semi k) rfl
    (hfs.reduceExpr ..) rfl
  refine ⟨⟨.binary e (span ts) .seq r :: fs, .operand⟩, hread, ?_, ?_⟩
  · rw [settle, if_neg (by rw [ht]; decide), hfs.reduceExpr, hfs.reduceExpr,
      span_append hts (List.cons_ne_nil _ _)]
    rfl
  · have hsize := sizeBefore_op fs .seq e (span ts)
    rw [BinOp.token] at hsize
    rw [hpeak, hsize, peak]
    omega

/-- Two operands and their operator. -/
theorem reads_binary {k₁ k₂ : Kind} {n₁ n₂ : Nat} {o : BinOp} {ts us : List Lexeme}
    {e₁ e₂ : Expr} (m : Loc) (hleft : LeftOf o k₁) (hright : RightOf o k₂) (hpos : 0 < n₂)
    (h₁ : Reads (.expr k₁) n₁ ts [e₁]) (h₂ : Reads (.expr k₂) n₂ us [e₂]) (hts : ts ≠ [])
    (hus : us ≠ []) :
    Reads (.expr (.op o k₁.tailed)) (max n₁ (2 + n₂)) (ts ++ (o.token, m) :: us)
      [build o.fn ((span ts).join (span us)) [e₁, e₂]] := by
  intro fs t hfs hends ht
  obtain ⟨s, hread₂, hsettle, hpeak₂⟩ :=
    h₂ (.binary e₁ (span ts) o m :: fs) t hright (ends_right hright hends) ht
  have hshift : shiftExpr o.token m fs e₁ (span ts) =
      some ⟨.binary e₁ (span ts) o m :: fs, .operand⟩ := by simp [shiftExpr]
  obtain ⟨hread, hpeak⟩ := h₁.next (o.token, m) us (admits_left hleft hfs)
    (ends_of_leftOf hleft) (starts_token o) (reduceExpr_left hfs ..) hshift
  refine ⟨s, hread.trans hread₂, ?_, ?_⟩
  · rw [hsettle, reduceExpr, if_neg (by rw [hends]; decide), span_append hts (List.cons_ne_nil _ _),
      span_cons _ hus]
    rfl
  · rw [hpeak, hpeak₂, sizeBefore_op, framesSize, Frame.size]
    omega

/-- A negation. -/
theorem reads_bang {n : Nat} {ts : List Lexeme} {e : Expr} (l : Loc)
    (h : Reads (.expr .closed) n ts [e]) (hts : ts ≠ []) :
    Reads (.expr .closed) (1 + n) ((.bang, l) :: ts)
      [build .logicalNot (l.join (span ts)) [e]] := by
  intro fs t _ _ ht
  obtain ⟨s, hread, hsettle, hpeak⟩ := h (.bang l :: fs) t rfl trivial ht
  obtain ⟨hstart, hpeak₁⟩ := moveAll_start fs (.bang, l) ts rfl rfl
  refine ⟨s, hstart.trans hread, ?_, ?_⟩
  · rw [hsettle, reduceExpr, span_cons _ hts]
  · rw [hpeak₁, hpeak, framesSize, Frame.size]
    omega

/-- An expression that is reduced without a look at the next token. -/
theorem reads_closed {n : Nat} {ts : List Lexeme} {e : Expr} (l : Loc) (hl : span ts = l)
    (h : ∀ fs, moveAll ts ⟨fs, .operand⟩ = some ⟨fs, .expr e l⟩ ∧
      peak ts ⟨fs, .operand⟩ = framesSize fs + n) :
    Reads (.expr .closed) n ts [e] := by
  intro fs t _ _ _
  obtain ⟨hread, hpeak⟩ := h fs
  exact ⟨_, hread, by rw [hl, settle], hpeak⟩

/-- An expression in parentheses. -/
theorem reads_paren {k : Kind} {n : Nat} {ts : List Lexeme} {e : Expr} (l r : Loc)
    (h : Reads (.expr k) n ts [e]) (hts : ts ≠ []) :
    Reads (.expr .closed) (max (1 + n) 3) ((.lparen, l) :: (ts ++ [(.rparen, r)]))
      [setSpan e (l.join r)] := by
  apply reads_closed (l.join r)
  · simp [span_cons, span_append, hts]
  · intro fs
    obtain ⟨hstart, hpeak₀⟩ := moveAll_start fs (.lparen, l) (ts ++ [(.rparen, r)]) rfl rfl
    obtain ⟨hread, hpeak⟩ := h.next_delimited (.paren l :: fs) (.rparen, r) [] trivial rfl rfl rfl
    have hsize : sizeBefore .rparen ⟨.paren l :: fs, .expr e (span ts)⟩ = framesSize fs + 2 := rfl
    refine ⟨hstart.trans hread, ?_⟩
    rw [hpeak₀, hpeak, hsize, framesSize, Frame.size, peak_nil]
    omega

/-- A size that a larger one follows does not count. -/
theorem max_absorb {a b c : Nat} (h : a ≤ b) : max a (max b c) = max b c :=
  max_eq_right (le_max_of_le_left h)

/-- An `if` without an `else`. -/
theorem reads_ifThen {k₁ k₂ : Kind} {n₁ n₂ : Nat} {ts us : List Lexeme} {c e : Expr}
    (l m r : Loc) (h₁ : Reads (.expr k₁) n₁ ts [c]) (h₂ : Reads (.expr k₂) n₂ us [e])
    (hts : ts ≠ []) :
    Reads (.expr .closed) (max (1 + n₁) (max (3 + n₂) 5))
      ((.if_, l) :: (ts ++ (.then_, m) :: (us ++ [(.endif, r)])))
      [build .ifElse (l.join r) [c, e]] := by
  apply reads_closed (l.join r)
  · simp [span_cons, span_append, hts]
  · intro fs
    obtain ⟨hstart, hpeak₀⟩ := moveAll_start fs (.if_, l)
      (ts ++ (.then_, m) :: (us ++ [(.endif, r)])) rfl rfl
    obtain ⟨hread₁, hpeak₁⟩ := h₁.next_delimited (.ifCond l :: fs) (.then_, m)
      (us ++ [(.endif, r)]) trivial rfl rfl rfl
    obtain ⟨hread₂, hpeak₂⟩ := h₂.next_delimited (.ifThen l c :: fs) (.endif, r) []
      trivial rfl rfl rfl
    have hsize₁ : sizeBefore .then_ ⟨.ifCond l :: fs, .expr c (span ts)⟩ = framesSize fs + 2 := rfl
    have hsize₂ : sizeBefore .endif ⟨.ifThen l c :: fs, .expr e (span us)⟩ = framesSize fs + 4 :=
      rfl
    refine ⟨hstart.trans (hread₁.trans hread₂), ?_⟩
    have hthen : framesSize fs + 2 + 1 ≤ framesSize fs + 3 + n₂ := Nat.le_add_right ..
    rw [hpeak₀, hpeak₁, hpeak₂, hsize₁, hsize₂, peak_nil]
    simp only [framesSize, Frame.size]
    -- the sizes before `if` and before `then` do not count
    rw [max_absorb (Nat.le_add_right _ n₁), max_absorb hthen]
    simp only [Nat.max_zero, Nat.add_assoc, Nat.add_max_add_left, Nat.reduceAdd]

/-- An `if` with an `else`. -/
theorem reads_ifElse {k₁ k₂ k₃ : Kind} {n₁ n₂ n₃ : Nat} {ts us vs : List Lexeme}
    {c e e' : Expr} (l m m' r : Loc) (h₁ : Reads (.expr k₁) n₁ ts [c])
    (h₂ : Reads (.expr k₂) n₂ us [e]) (h₃ : Reads (.expr k₃) n₃ vs [e']) (hts : ts ≠ [])
    (hus : us ≠ []) :
    Reads (.expr .closed) (max (1 + n₁) (max (3 + n₂) (max (5 + n₃) 7)))
      ((.if_, l) :: (ts ++ (.then_, m) :: (us ++ (.else_, m') :: (vs ++ [(.endif, r)]))))
      [build .ifElse (l.join r) [c, e, e']] := by
  apply reads_closed (l.join r)
  · simp [span_cons, span_append, hts, hus]
  · intro fs
    obtain ⟨hstart, hpeak₀⟩ := moveAll_start fs (.if_, l)
      (ts ++ (.then_, m) :: (us ++ (.else_, m') :: (vs ++ [(.endif, r)]))) rfl rfl
    obtain ⟨hread₁, hpeak₁⟩ := h₁.next_delimited (.ifCond l :: fs) (.then_, m)
      (us ++ (.else_, m') :: (vs ++ [(.endif, r)])) trivial rfl rfl rfl
    obtain ⟨hread₂, hpeak₂⟩ := h₂.next_delimited (.ifThen l c :: fs) (.else_, m')
      (vs ++ [(.endif, r)]) trivial rfl rfl rfl
    obtain ⟨hread₃, hpeak₃⟩ := h₃.next_delimited (.ifElse l c e :: fs) (.endif, r) []
      trivial rfl rfl rfl
    have hsize₁ : sizeBefore .then_ ⟨.ifCond l :: fs, .expr c (span ts)⟩ = framesSize fs + 2 := rfl
    have hsize₂ : sizeBefore .else_ ⟨.ifThen l c :: fs, .expr e (span us)⟩ = framesSize fs + 4 :=
      rfl
    have hsize₃ : sizeBefore .endif ⟨.ifElse l c e :: fs, .expr e' (span vs)⟩ =
        framesSize fs + 6 := rfl
    refine ⟨hstart.trans (hread₁.trans (hread₂.trans hread₃)), ?_⟩
    have hthen : framesSize fs + 2 + 1 ≤ framesSize fs + 3 + n₂ := Nat.le_add_right ..
    have helse : framesSize fs + 4 + 1 ≤ framesSize fs + 5 + n₃ := Nat.le_add_right ..
    rw [hpeak₀, hpeak₁, hpeak₂, hpeak₃, hsize₁, hsize₂, hsize₃, peak_nil]
    simp only [framesSize, Frame.size]
    -- the sizes before `if`, before `then` and before `else` do not count
    rw [max_absorb (Nat.le_add_right _ n₁), max_absorb hthen, max_absorb helse]
    simp only [Nat.max_zero, Nat.add_assoc, Nat.add_max_add_left, Nat.reduceAdd]

/-- A call. -/
theorem reads_call {n : Nat} {ts : List Lexeme} {argv : List Expr} {name : Bytes} {fn : Fn}
    (l m r : Loc) (hfn : findFunction name = some fn) (h : Reads .args n ts argv) :
    Reads (.expr .closed) (max (2 + n) 4)
      ((.string name, l) :: (.lparen, m) :: (ts ++ [(.rparen, r)]))
      [.node fn name argv l.start r.stop] := by
  apply reads_closed (l.join r)
  · simp [span_cons]
  · intro fs
    obtain ⟨s, hread, hnext, hpeak⟩ := h fs l name (.rparen, r) (.inl rfl)
    have hend : move (.rparen, r) s =
        some ⟨fs, .expr (.node fn name argv l.start r.stop) (l.join r)⟩ := by
      rw [hnext, afterArgs, if_pos rfl, finishCall, hfn]
      rfl
    obtain ⟨hstart, hpeak₀⟩ := moveAll_start fs (.string name, l)
      ((.lparen, m) :: (ts ++ [(.rparen, r)])) rfl rfl
    have hlparen : moveAll ((.lparen, m) :: (ts ++ [(.rparen, r)])) ⟨fs, .name name l⟩ =
        moveAll (ts ++ [(.rparen, r)]) ⟨.call l name [] false :: fs, .operand⟩ := rfl
    have hpeak₁ : peak ((.lparen, m) :: (ts ++ [(.rparen, r)])) ⟨fs, .name name l⟩ =
        max (framesSize fs + 2)
          (peak (ts ++ [(.rparen, r)]) ⟨.call l name [] false :: fs, .operand⟩) := peak_cons rfl
    constructor
    · rw [hstart, hlparen, moveAll_append, hread, Option.bind_some, moveAll, hend]
      rfl
    · rw [hpeak₀, hpeak₁, peak_append hread, peak_cons hend, peak_nil, Nat.max_zero, hpeak]
      omega

/-- The argument before a closing parenthesis or a comma. -/
theorem Reads.lastArg {k : Kind} {n : Nat} {ts : List Lexeme} {e : Expr}
    (h : Reads (.expr k) n ts [e]) (fs : List Frame) (l : Loc) (name : Bytes) (argv : List Expr)
    (comma : Bool) {x : Lexeme} (hx : x.1 = .rparen ∨ x.1 = .comma) :
    ∃ s, Edify.moveAll ts ⟨.call l name argv comma :: fs, .operand⟩ = some s ∧
      move x s = afterArgs x fs l name (argv ++ [e]) ∧
      peak ts ⟨.call l name argv comma :: fs, .operand⟩ =
        framesSize fs + (if comma then 4 else 2) + n ∧
      pushed x s = framesSize fs + 4 := by
  obtain ⟨t, m⟩ := x
  have hends : Ends (some t) k := by
    apply ends_of_binOp_eq_none
    rcases hx with rfl | rfl <;> rfl
  have hstarts : t.starts = false := by rcases hx with rfl | rfl <;> rfl
  obtain ⟨s, hread, hsettle, hpeak⟩ :=
    h (.call l name argv comma :: fs) (some t) trivial hends hstarts
  refine ⟨s, hread, ?_, hpeak, ?_⟩
  · rw [move, hsettle]
    rcases hx with rfl | rfl <;> rfl
  · rw [pushed, hsettle]
    rcases hx with rfl | rfl <;> cases comma <;> rfl

/-- No arguments. -/
theorem reads_noArgs : Reads .args 0 [] [] := by
  rintro fs l name ⟨t, m⟩ hx
  refine ⟨_, rfl, ?_, ?_⟩
  · rcases hx with rfl | rfl <;> rfl
  · rw [peak, Nat.zero_max]
    rcases hx with rfl | rfl <;> rfl

/-- One argument more. -/
theorem reads_nextArg {k : Kind} {n₁ n₂ : Nat} {ts us : List Lexeme} {argv : List Expr}
    {e : Expr} (m : Loc) (h₁ : Reads .args n₁ ts argv) (h₂ : Reads (.expr k) n₂ us [e]) :
    Reads .args (max n₁ (2 + n₂)) (ts ++ (.comma, m) :: us) (argv ++ [e]) := by
  intro fs l name x hx
  obtain ⟨s, hread, hnext, hpeak⟩ := h₁ fs l name (.comma, m) (.inr rfl)
  obtain ⟨s', hread', hlast, hpeak', hpushed⟩ := h₂.lastArg fs l name argv true hx
  have hcomma : move (.comma, m) s = some ⟨.call l name argv true :: fs, .operand⟩ := hnext
  refine ⟨s', ?_, hlast, ?_⟩
  · rw [moveAll_append, hread, Option.bind_some, moveAll, hcomma]
    exact hread'
  · rw [if_pos rfl] at hpeak'
    rw [peak_append hread, peak_cons hcomma, hpeak', hpushed, ← max_assoc, hpeak]
    omega

/-- The tokens of a derivation are read. -/
theorem reads_of_der {c : Cat} {n : Nat} {ts : List Lexeme} {es : List Expr} (h : Der c n ts es) :
    Reads c n ts es := by
  induction h with
  | literal str l =>
      intro fs t _ _ ht
      obtain ⟨hread, hpeak⟩ := moveAll_start fs (.string str, l) [] rfl rfl
      refine ⟨⟨fs, .name str l⟩, hread, ?_, hpeak⟩
      have hne : t ≠ some .lparen := by
        rintro rfl
        cases ht
      rw [settle, if_neg hne]
      rfl
  | paren l r h ih => exact reads_paren l r ih h.ne_nil
  | post r h ih => exact reads_post r h.pos ih h.ne_nil
  | binary m hleft hright h₁ h₂ ih₁ ih₂ =>
      exact reads_binary m hleft hright h₂.pos ih₁ ih₂ h₁.ne_nil h₂.ne_nil
  | bang l h ih => exact reads_bang l ih h.ne_nil
  | ifThen l m r h₁ h₂ ih₁ ih₂ => exact reads_ifThen l m r ih₁ ih₂ h₁.ne_nil
  | ifElse l m m' r h₁ h₂ h₃ ih₁ ih₂ ih₃ =>
      exact reads_ifElse l m m' r ih₁ ih₂ ih₃ h₁.ne_nil h₂.ne_nil
  | call l m r hfn h ih => exact reads_call l m r hfn ih
  | noArgs => exact reads_noArgs
  | firstArg h ih =>
      intro fs l name x hx
      obtain ⟨s, hread, hlast, hpeak, hpushed⟩ := ih.lastArg fs l name [] false hx
      refine ⟨s, hread, hlast, ?_⟩
      rw [if_neg Bool.false_ne_true] at hpeak
      rw [hpeak, hpushed]
      omega
  | nextArg m h₁ h₂ ih₁ ih₂ => exact reads_nextArg m ih₁ ih₂

/-- A derivation is read, and its number is the depth of the stack. -/
theorem peak_of_der {k : Kind} {n : Nat} {ts : List Lexeme} {e : Expr}
    (h : Der (.expr k) n ts [e]) :
    peak ts ⟨[], .operand⟩ = n ∧
      ∃ s, moveAll ts ⟨[], .operand⟩ = some s ∧ accept s = some e := by
  have hends : Ends none k := by cases k <;> first | rfl | trivial
  obtain ⟨s, hread, hsettle, hpeak⟩ := reads_of_der h [] none trivial hends rfl
  refine ⟨hpeak.trans (Nat.zero_add n), s, hread, ?_⟩
  rw [accept, hsettle]
  rfl

/-- The machine accepts the tokens of an expression that have their places. -/
theorem accept_of_der {k : Kind} {n : Nat} {ts : List Lexeme} {e : Expr}
    (h : Der (.expr k) n ts [e]) (hroom : HasRoom n) :
    ∃ s, feedAll ts ⟨[], .operand⟩ = some s ∧ accept s = some e := by
  obtain ⟨hpeak, s, hread, haccept⟩ := peak_of_der h
  exact ⟨s, feedAll_eq_some_iff.mpr ⟨hread, by rwa [hpeak]⟩, haccept⟩

/-! ## Soundness -/

/-- The tokens that the frames have read. -/
inductive Framed : List Frame → List Lexeme → Prop where
  | nil : Framed [] []
  | paren {fs : List Frame} {ts : List Lexeme} (l : Loc) (h : Framed fs ts) :
      Framed (.paren l :: fs) (ts ++ [(.lparen, l)])
  | binary {fs : List Frame} {ts us : List Lexeme} {k : Kind} {n : Nat} {e : Expr} {o : BinOp}
      (m : Loc) (h : Framed fs ts) (he : Der (.expr k) n us [e]) (hleft : LeftOf o k)
      (hfs : Admits (.op o k.tailed) fs) :
      Framed (.binary e (span us) o m :: fs) (ts ++ (us ++ [(o.token, m)]))
  | bang {fs : List Frame} {ts : List Lexeme} (l : Loc) (h : Framed fs ts) :
      Framed (.bang l :: fs) (ts ++ [(.bang, l)])
  | ifCond {fs : List Frame} {ts : List Lexeme} (l : Loc) (h : Framed fs ts) :
      Framed (.ifCond l :: fs) (ts ++ [(.if_, l)])
  | ifThen {fs : List Frame} {ts us : List Lexeme} {k : Kind} {n : Nat} {c : Expr} (l m : Loc)
      (h : Framed fs ts) (hc : Der (.expr k) n us [c]) :
      Framed (.ifThen l c :: fs) (ts ++ (.if_, l) :: (us ++ [(.then_, m)]))
  | ifElse {fs : List Frame} {ts us vs : List Lexeme} {k k' : Kind} {n n' : Nat} {c e : Expr}
      (l m m' : Loc) (h : Framed fs ts) (hc : Der (.expr k) n us [c])
      (he : Der (.expr k') n' vs [e]) :
      Framed (.ifElse l c e :: fs)
        (ts ++ (.if_, l) :: (us ++ (.then_, m) :: (vs ++ [(.else_, m')])))
  | callFirst {fs : List Frame} {ts : List Lexeme} (name : Bytes) (l m : Loc) (h : Framed fs ts) :
      Framed (.call l name [] false :: fs) (ts ++ [(.string name, l), (.lparen, m)])
  | callNext {fs : List Frame} {ts us : List Lexeme} {n : Nat} {argv : List Expr} (name : Bytes)
      (l m m' : Loc) (h : Framed fs ts) (hargs : Der .args n us argv) :
      Framed (.call l name argv true :: fs)
        (ts ++ (.string name, l) :: (.lparen, m) :: (us ++ [(.comma, m')]))

/-- The part on top has been read as `vs`; an expression is as `P` says. -/
def Topped (P : Kind → Prop) : Top → List Lexeme → Prop
  | .operand, vs => vs = []
  | .name str l, vs => vs = [(.string str, l)]
  | .expr e l, vs => l = span vs ∧ ∃ k n, Der (.expr k) n vs [e] ∧ P k

/-- The stack has read `ts`, and an expression on top is as `P` says. -/
def Stacked (P : List Frame → Kind → Prop) (s : Stack) (ts : List Lexeme) : Prop :=
  ∃ us vs, ts = us ++ vs ∧ Framed s.frames us ∧ Topped (P s.frames) s.top vs

/-- Between two tokens an expression on top is closed. -/
def Valid (s : Stack) (ts : List Lexeme) : Prop := Stacked (fun _ k => k = .closed) s ts

/-- After the reductions before `t`: the operator `t` can follow, or the expression is between
delimiters. -/
def Atop (t : Option Token) (fs : List Frame) (k : Kind) : Prop :=
  match t.bind Token.binOp with
  | some o => LeftOf o k ∧ Admits (.op o k.tailed) fs
  | none => Delimited fs

/-- Between delimiters every expression may stand on top. -/
theorem atop_of_delimited {t : Option Token} {fs : List Frame} {k : Kind} (h : Delimited fs)
    (hleft : ∀ o, t.bind Token.binOp = some o → LeftOf o k) : Atop t fs k := by
  unfold Atop
  split
  · next o ho => exact ⟨hleft o ho, h.admits _⟩
  · exact h

theorem tailed_of_rightOf {o : BinOp} {k : Kind} (h : RightOf o k) : k.tailed = false := by
  cases k with
  | closed => rfl
  | op o₂ tailed => exact h.1
  | post => cases h

/-- The operator that waits for its right operand binds less than `t`. -/
theorem atop_of_binds {t : Option Token} {left : Expr} {l m : Loc} {o : BinOp} {fs : List Frame}
    {k : Kind} (hbinds : binds t o = true) (hk : RightOf o k)
    (hleft : ∀ o, t.bind Token.binOp = some o → LeftOf o k) :
    Atop t (.binary left l o m :: fs) k := by
  cases ho : t.bind Token.binOp with
  | none => simp [binds, ho] at hbinds
  | some o' =>
      simp only [binds, ho, decide_eq_true_eq] at hbinds
      simp only [Atop, ho]
      exact ⟨hleft o' ho, tailed_of_rightOf hk, hbinds⟩

/-- An operator that was not bound may be a left operand of the next one. -/
theorem leftOf_of_not_binds {t : Option Token} {o : BinOp} {tailed : Bool}
    (h : ¬ binds t o = true) : ∀ o', t.bind Token.binOp = some o' → LeftOf o' (.op o tailed) := by
  intro o' ho'
  simpa [binds, ho', LeftOf] using h

/-- Nothing is reduced above a delimiter. -/
theorem reduceExpr_stacked_delimited {t : Option Token} {fs : List Frame} {us vs : List Lexeme}
    {k : Kind} {n : Nat} {e : Expr} (hfs : Framed fs us) (h : Delimited fs)
    (he : Der (.expr k) n vs [e])
    (hleft : ∀ o, t.bind Token.binOp = some o → LeftOf o k) :
    Stacked (Atop t) (reduceExpr t fs e (span vs)) (us ++ vs) := by
  rw [h.reduceExpr]
  exact ⟨us, vs, rfl, hfs, rfl, k, n, he, atop_of_delimited h hleft⟩

/-- Reductions keep the tokens that have been read. -/
theorem reduceExpr_stacked {t : Option Token} {fs : List Frame} {us vs : List Lexeme} {k : Kind}
    {n : Nat} {e : Expr} (hfs : Framed fs us) (he : Der (.expr k) n vs [e]) (hadm : Admits k fs)
    (hleft : ∀ o, t.bind Token.binOp = some o → LeftOf o k) :
    Stacked (Atop t) (reduceExpr t fs e (span vs)) (us ++ vs) := by
  induction hfs generalizing vs k n e with
  | @binary fs ts us k₁ n₁ left o m h hl hleft₁ hfs₁ ih =>
      rw [reduceExpr]
      split
      · next hbinds =>
          exact ⟨_, vs, rfl, .binary m h hl hleft₁ hfs₁, rfl, k, n, he,
            atop_of_binds hbinds hadm hleft⟩
      · next hbinds =>
          have hspan : span (us ++ (o.token, m) :: vs) = (span us).join (span vs) := by
            rw [span_append hl.ne_nil (List.cons_ne_nil _ _), span_cons _ he.ne_nil, join_join]
          have hstack := ih (.binary m hleft₁ hadm hl he) hfs₁ (leftOf_of_not_binds hbinds)
          rw [hspan] at hstack
          simpa using hstack
  | @bang fs ts l h ih =>
      rw [reduceExpr]
      -- below `!` there are closed expressions only
      cases hadm
      have hstack := ih (.bang l he) (admits_closed fs) fun _ _ => trivial
      rw [span_cons _ he.ne_nil] at hstack
      simpa using hstack
  | nil => exact reduceExpr_stacked_delimited .nil trivial he hleft
  | paren l h ih => exact reduceExpr_stacked_delimited (.paren l h) trivial he hleft
  | ifCond l h ih => exact reduceExpr_stacked_delimited (.ifCond l h) trivial he hleft
  | ifThen l m h hc ih => exact reduceExpr_stacked_delimited (.ifThen l m h hc) trivial he hleft
  | ifElse l m m' h hc he' ih =>
      exact reduceExpr_stacked_delimited (.ifElse l m m' h hc he') trivial he hleft
  | callFirst name l m h ih =>
      exact reduceExpr_stacked_delimited (.callFirst name l m h) trivial he hleft
  | callNext name l m m' h hargs ih =>
      exact reduceExpr_stacked_delimited (.callNext name l m m' h hargs) trivial he hleft

/-- A sequence stands between delimiters. -/
theorem delimited_of_admits_seq {tailed : Bool} {fs : List Frame}
    (h : Admits (.op .seq tailed) fs) : Delimited fs := by
  cases fs using frames_cases with
  | bang l fs => cases h
  | binary left l o m fs => exact absurd h.2 (Nat.not_lt_zero _)
  | delimited fs h => exact h

/-- The reductions before a token keep the stack a derivation of what was read. -/
theorem settle_stacked {s : Stack} {ts : List Lexeme} (h : Valid s ts) (t : Option Token) :
    Stacked (Atop t) (settle t s) ts := by
  obtain ⟨us, vs, rfl, hfs, htop⟩ := h
  unfold settle
  split
  · next fs str l =>
      cases htop
      split
      · exact ⟨us, _, rfl, hfs, rfl⟩
      · exact reduceExpr_stacked hfs (.literal str l) (admits_closed fs) fun _ _ => trivial
  · next left l m fs =>
      cases htop
      split
      · exact ⟨us, [], rfl, hfs, rfl⟩
      · cases hfs with
        | @binary _ ts us k n e o m h he hleft hfs =>
            have hdelim := delimited_of_admits_seq hfs
            have hstack := reduceExpr_stacked (t := t) h (.post m he) (hdelim.admits _)
              fun _ _ => trivial
            rw [span_append he.ne_nil (List.cons_ne_nil _ _)] at hstack
            rw [List.append_nil]
            exact hstack
  · exact ⟨us, vs, rfl, hfs, htop⟩
  · next fs e l =>
      obtain ⟨rfl, k, n, he, rfl⟩ := htop
      exact reduceExpr_stacked hfs he (admits_closed fs) fun _ _ => trivial

/-- The token of an operator. -/
theorem eq_token_of_binOp {t : Token} {o : BinOp} (h : t.binOp = some o) : t = o.token := by
  cases t <;> cases h <;> rfl

/-- A closed expression on top. -/
theorem valid_closed {fs : List Frame} {us vs : List Lexeme} {n : Nat} {e : Expr}
    {l : Loc} (hfs : Framed fs us) (he : Der (.expr .closed) n vs [e]) (hl : l = span vs) :
    Valid ⟨fs, .expr e l⟩ (us ++ vs) := ⟨us, vs, rfl, hfs, hl, .closed, n, he, rfl⟩

/-- Frames that wait for an operand. -/
theorem valid_operand {fs : List Frame} {us : List Lexeme} (hfs : Framed fs us) :
    Valid ⟨fs, .operand⟩ us := ⟨us, [], (List.append_nil us).symm, hfs, rfl⟩

/-- A call that is finished is a derivation. -/
theorem finishCall_valid {fs : List Frame} {us ts : List Lexeme} {n : Nat} {l m r : Loc}
    {name : Bytes} {argv : List Expr} {s : Stack} (hfs : Framed fs us) (hargs : Der .args n ts argv)
    (h : finishCall fs l name argv r = some s) :
    Valid s (us ++ (.string name, l) :: (.lparen, m) :: (ts ++ [(.rparen, r)])) := by
  obtain ⟨fn, hfn, rfl⟩ := Option.map_eq_some_iff.mp h
  exact valid_closed hfs (.call l m r hfn hargs) (by simp [span_cons])

/-- A token where an operand is expected. -/
theorem shiftOperand_valid {t : Token} {m : Loc} {fs : List Frame} {us : List Lexeme} {s : Stack}
    (hfs : Framed fs us) (h : shiftOperand t m fs = some s) : Valid s (us ++ [(t, m)]) := by
  unfold shiftOperand at h
  split at h
  · next str fs =>
      cases h
      exact ⟨us, _, rfl, hfs, rfl⟩
  · cases h
    exact valid_operand (.paren m hfs)
  · cases h
    exact valid_operand (.bang m hfs)
  · cases h
    exact valid_operand (.ifCond m hfs)
  · cases hfs with
    | callFirst name l m' hfs =>
        have hvalid := finishCall_valid (m := m') hfs .noArgs h
        simpa using hvalid
  · next l name argv fs =>
      cases hfs with
      | callFirst _ _ m' hfs =>
          cases h
          have hvalid := valid_operand (.callNext name l m' m hfs .noArgs)
          simpa using hvalid
  · cases h

/-- A token after an expression. -/
theorem shiftExpr_valid {t : Token} {m : Loc} {fs : List Frame} {us vs : List Lexeme} {k : Kind}
    {n : Nat} {e : Expr} {s : Stack} (hfs : Framed fs us) (he : Der (.expr k) n vs [e])
    (hatop : Atop (some t) fs k) (h : shiftExpr t m fs e (span vs) = some s) :
    Valid s (us ++ vs ++ [(t, m)]) := by
  unfold shiftExpr at h
  split at h
  · next o ho =>
      cases h
      cases eq_token_of_binOp ho
      simp only [Atop, Option.bind_some, ho] at hatop
      have hvalid := valid_operand (.binary m hfs he hatop.1 hatop.2)
      simpa using hvalid
  · next ho =>
      split at h
      · next l fs =>
          cases h
          cases hfs with
          | paren _ hfs =>
              have hvalid := valid_closed hfs (.paren l m he) rfl
              simpa [span_cons] using hvalid
      · next l name argv comma fs =>
          cases hfs with
          | callFirst _ _ m' hfs =>
              have hvalid := finishCall_valid (m := m') hfs (.firstArg he) h
              simpa using hvalid
          | callNext _ _ m' m'' hfs hargs =>
              have hvalid := finishCall_valid (m := m') hfs (.nextArg m'' hargs he) h
              simpa using hvalid
      · next l name argv comma fs =>
          cases h
          cases hfs with
          | callFirst _ _ m' hfs =>
              have hvalid := valid_operand (.callNext name l m' m hfs (.firstArg he))
              simpa using hvalid
          | callNext _ _ m' m'' hfs hargs =>
              have hvalid := valid_operand (.callNext name l m' m hfs (.nextArg m'' hargs he))
              simpa using hvalid
      · next l fs =>
          cases h
          cases hfs with
          | ifCond _ hfs =>
              have hvalid := valid_operand (.ifThen l m hfs he)
              simpa using hvalid
      · next l cond fs =>
          cases h
          cases hfs with
          | ifThen _ m' hfs hc =>
              have hvalid := valid_operand (.ifElse l m' m hfs hc he)
              simpa using hvalid
      · next l cond fs =>
          cases h
          cases hfs with
          | ifThen _ m' hfs hc =>
              have hvalid := valid_closed hfs (.ifThen l m' m hc he) rfl
              simpa [span_cons, span_append, hc.ne_nil] using hvalid
      · next l cond branch fs =>
          cases h
          cases hfs with
          | ifElse _ m' m'' hfs hc he' =>
              have hvalid := valid_closed hfs (.ifElse l m' m'' m hc he' he) rfl
              simpa [span_cons, span_append, hc.ne_nil, he'.ne_nil] using hvalid
      · cases h

/-- One token keeps the stack valid. -/
theorem move_valid {s s' : Stack} {ts : List Lexeme} {x : Lexeme} (h : Valid s ts)
    (hmove : move x s = some s') : Valid s' (ts ++ [x]) := by
  obtain ⟨t, m⟩ := x
  obtain ⟨us, vs, rfl, hfs, htop⟩ := settle_stacked h (some t)
  rw [move] at hmove
  generalize settle (some t) s = s₁ at hfs htop hmove
  obtain ⟨fs, top⟩ := s₁
  cases top with
  | operand =>
      cases htop
      rw [List.append_nil]
      exact shiftOperand_valid hfs hmove
  | name str l =>
      cases htop
      simp only [shift] at hmove
      split at hmove
      · next ht =>
          cases hmove
          subst ht
          have hvalid := valid_operand (.callFirst str l m hfs)
          simpa using hvalid
      · cases hmove
  | expr e l =>
      obtain ⟨rfl, k, n, he, hatop⟩ := htop
      exact shiftExpr_valid hfs he hatop hmove

/-- Any number of tokens. Induction on them. -/
theorem moveAll_valid {s s' : Stack} {ts us : List Lexeme} (h : Valid s ts)
    (hmove : moveAll us s = some s') : Valid s' (ts ++ us) := by
  induction us generalizing s ts with
  | nil =>
      cases hmove
      rwa [List.append_nil]
  | cons x us ih =>
      obtain ⟨s₁, hx, hus⟩ := Option.bind_eq_some_iff.mp hmove
      have hvalid := ih (move_valid h hx) hus
      rwa [List.append_assoc] at hvalid

/-- What the machine accepts is an expression of the grammar, and its symbols have their places. -/
theorem der_of_accept {s : Stack} {ts : List Lexeme} {e : Expr}
    (hread : feedAll ts ⟨[], .operand⟩ = some s) (h : accept s = some e) :
    ∃ k n, Der (.expr k) n ts [e] ∧ HasRoom n := by
  obtain ⟨hmoves, hroom⟩ := feedAll_eq_some_iff.mp hread
  obtain ⟨us, vs, rfl, hfs, htop⟩ := settle_stacked (moveAll_valid (valid_operand .nil) hmoves) none
  rw [accept] at h
  split at h
  · next e' l hs =>
      cases h
      rw [hs] at hfs htop
      cases hfs
      obtain ⟨-, k, n, he, -⟩ := htop
      rw [List.nil_append, (peak_of_der he).1] at hroom
      exact ⟨k, n, he, hroom⟩
  · cases h

/-- The count of a derivation does not depend on the derivation. -/
theorem Der.unique {k k' : Kind} {n n' : Nat} {ts : List Lexeme} {e e' : Expr}
    (h : Der (.expr k) n ts [e]) (h' : Der (.expr k') n' ts [e']) : n = n' ∧ e = e' := by
  obtain ⟨hpeak, s, hread, haccept⟩ := peak_of_der h
  obtain ⟨hpeak', s', hread', haccept'⟩ := peak_of_der h'
  refine ⟨hpeak.symm.trans hpeak', ?_⟩
  cases hread.symm.trans hread'
  exact Option.some.inj (haccept.symm.trans haccept')

end OpenRecovery.Edify
