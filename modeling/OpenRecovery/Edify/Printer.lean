import OpenRecovery.Edify.Spans

/-!
# Printing and parsing

`Tree` is an expression as a programmer thinks of it, `Tree.print` its tokens with parentheses only
where the precedences ask for them, and `Typeset` a text for a row of tokens: layout of any kind
between them, and literals with any of their escapes. `parse_print` is the round trip. It fails for
two reasons only, a literal that does not fit into the scanner's buffer and a tree that is nested
too deeply for the parser's stack (`Tree.depth`).
-/

set_option autoImplicit false

namespace OpenRecovery.Edify

open OpenRecovery.Storage
open OpenRecovery.Updater (Expr registered)

/-- The strings that a literal can stand for. -/
abbrev Literal := { str : Bytes // 0 ∉ str }

/-- The functions that can be called, by name. -/
abbrev Registered := { p : Name × Fn // p ∈ registered }

/-- Expression trees. -/
inductive Tree where
  | lit (str : Literal)
  | not (a : Tree)
  | bin (o : BinOp) (a b : Tree)
  | ite (c a : Tree)
  | iteElse (c a b : Tree)
  | call (f : Registered) (args : List Tree)

/-- A token to print: a literal in quotes, or a token with its only text. -/
inductive Piece where
  | literal (str : Literal)
  | fixed (t : Token) (w : Bytes)

namespace Piece

def token : Piece → Token
  | literal str => .string str
  | fixed t _ => t

/-- The texts of a piece. -/
inductive Written : Piece → Bytes → Prop where
  | literal {str : Literal} {body : Bytes} (h : Encodes str body) :
      Written (.literal str) (34 :: (body ++ [34]))
  | fixed (t : Token) (w : Bytes) : Written (.fixed t w) w

def op : BinOp → Piece
  | .seq => fixed .semi [59]
  | .or => fixed .or [124, 124]
  | .and => fixed .and [38, 38]
  | .eq => fixed .eq [61, 61]
  | .ne => fixed .ne [33, 61]
  | .plus => fixed .plus [43]

def bang : Piece := fixed .bang [33]
def lparen : Piece := fixed .lparen [40]
def rparen : Piece := fixed .rparen [41]
def comma : Piece := fixed .comma [44]
def if_ : Piece := fixed .if_ [105, 102]
def then_ : Piece := fixed .then_ [116, 104, 101, 110]
def else_ : Piece := fixed .else_ [101, 108, 115, 101]
def endif : Piece := fixed .endif [101, 110, 100, 105, 102]
def name (str : Name) : Piece := fixed (.string str) str

end Piece

namespace Tree

/-- The kind of the derivation. -/
def kind : Tree → Kind
  | bin o _ _ => .op o false
  | _ => .closed

/-- A binary operation that is not allowed here has to be put into parentheses. -/
def needsParens (allowed : BinOp → Bool) : Tree → Bool
  | bin o _ _ => !allowed o
  | _ => false

/-- Parentheses. -/
def wrap (parens : Bool) (ps : List Piece) : List Piece :=
  if parens then .lparen :: (ps ++ [.rparen]) else ps

mutual

/-- The tokens of a tree. -/
def print : Tree → List Piece
  | lit str => [.literal str]
  | not a => .bang :: wrap (needsParens (fun _ => false) a) (print a)
  | bin o a b =>
      wrap (needsParens (fun o₁ => o.prec ≤ o₁.prec) a) (print a) ++
        .op o :: wrap (needsParens (fun o₂ => o.prec < o₂.prec) b) (print b)
  | ite c a => .if_ :: (print c ++ .then_ :: (print a ++ [.endif]))
  | iteElse c a b => .if_ :: (print c ++ .then_ :: (print a ++ .else_ :: (print b ++ [.endif])))
  | call f args => .name f.1.1 :: .lparen :: (printArgs args ++ [.rparen])

def printArgs : List Tree → List Piece
  | [] => []
  | a :: args => print a ++ printRest args

def printRest : List Tree → List Piece
  | [] => []
  | a :: args => .comma :: (print a ++ printRest args)

end

mutual

/-- The expression the parser makes, without places. -/
def expr : Tree → Expr
  | lit str => .node .literal str [] 0 0
  | not a => build .logicalNot ⟨0, 0⟩ [expr a]
  | bin o a b => build o.fn ⟨0, 0⟩ [expr a, expr b]
  | ite c a => build .ifElse ⟨0, 0⟩ [expr c, expr a]
  | iteElse c a b => build .ifElse ⟨0, 0⟩ [expr c, expr a, expr b]
  | call f args => .node f.1.2 f.1.1 (exprs args) 0 0

def exprs : List Tree → List Expr
  | [] => []
  | a :: args => expr a :: exprs args

end

mutual

/-- The literals of a tree. -/
def literals : Tree → List Literal
  | lit str => [str]
  | not a => literals a
  | bin _ a b => literals a ++ literals b
  | ite c a => literals c ++ literals a
  | iteElse c a b => literals c ++ (literals a ++ literals b)
  | call _ args => literalsArgs args

def literalsArgs : List Tree → List Literal
  | [] => []
  | a :: args => literals a ++ literalsArgs args

end

/-- With parentheses, one symbol below and one above. -/
def wrapDepth (parens : Bool) (n : Nat) : Nat := if parens then max (1 + n) 3 else n

mutual

/-- The most symbols that the parser has to keep while it reads the tree: those of the beginnings of
expressions around the place where it is. -/
def depth : Tree → Nat
  | lit _ => 1
  | not a => 1 + wrapDepth (needsParens (fun _ => false) a) (depth a)
  | bin o a b =>
      max (wrapDepth (needsParens (fun o₁ => o.prec ≤ o₁.prec) a) (depth a))
        (2 + wrapDepth (needsParens (fun o₂ => o.prec < o₂.prec) b) (depth b))
  | ite c a => max (1 + depth c) (max (3 + depth a) 5)
  | iteElse c a b => max (1 + depth c) (max (3 + depth a) (max (5 + depth b) 7))
  | call _ args => max (2 + depthArgs args) 4

def depthArgs : List Tree → Nat
  | [] => 0
  | a :: args => max (depth a) (depthRest args)

def depthRest : List Tree → Nat
  | [] => 0
  | a :: args => max (2 + depth a) (depthRest args)

end

/-- A list of arguments takes no more symbols for having many of them. -/
theorem depthRest_le {n : Nat} {args : List Tree} (h : ∀ a ∈ args, 2 + a.depth ≤ n) :
    depthRest args ≤ n := by
  induction args with
  | nil => exact Nat.zero_le n
  | cons a args ih =>
      obtain ⟨ha, hargs⟩ := List.forall_mem_cons.mp h
      exact Nat.max_le.mpr ⟨ha, ih hargs⟩

/-- The arguments of a call need no more room than the deepest of them. -/
theorem depthArgs_le {n : Nat} {args : List Tree} (h : ∀ a ∈ args, 2 + a.depth ≤ n) :
    depthArgs args ≤ n := by
  cases args with
  | nil => exact Nat.zero_le n
  | cons a args =>
      obtain ⟨ha, hargs⟩ := List.forall_mem_cons.mp h
      exact Nat.max_le.mpr ⟨by omega, depthRest_le hargs⟩

end Tree

/-! ## Derivations of printed trees -/

/-- A registered name is found. -/
theorem findFunction_registered (f : Registered) : findFunction f.1.1 = some f.1.2 := by
  have hall : ∀ p ∈ registered, findFunction p.1 = some p.2 := by decide +kernel
  exact hall f.1 f.2

@[simp] theorem token_op (o : BinOp) : (Piece.op o).token = o.token := by cases o <;> rfl

@[simp] theorem strip_build (fn : Fn) (loc : Loc) (argv : List Expr) :
    strip (build fn loc argv) = build fn ⟨0, 0⟩ (stripArgs argv) := rfl

/-- Spans are removed argument by argument. -/
theorem stripArgs_append (es es' : List Expr) :
    stripArgs (es ++ es') = stripArgs es ++ stripArgs es' := by
  induction es with
  | nil => rfl
  | cons e es ih => rw [List.cons_append, stripArgs, stripArgs, ih, List.cons_append]

/-- The lexemes of a row of pieces, wherever they stand. -/
def LexemesOf (ts : List Lexeme) (ps : List Piece) : Prop :=
  ts.map Prod.fst = ps.map Piece.token

/-- The first lexeme, and the others. -/
theorem lexemesOf_cons {ts : List Lexeme} {p : Piece} {ps : List Piece}
    (h : LexemesOf ts (p :: ps)) : ∃ l us, ts = (p.token, l) :: us ∧ LexemesOf us ps := by
  obtain ⟨⟨t, l⟩, us, rfl, rfl, hus⟩ := List.map_eq_cons_iff.mp h
  exact ⟨l, us, rfl, hus⟩

/-- Lexemes of two lists of pieces. -/
theorem lexemesOf_append {ts : List Lexeme} {ps qs : List Piece} (h : LexemesOf ts (ps ++ qs)) :
    ∃ us vs, ts = us ++ vs ∧ LexemesOf us ps ∧ LexemesOf vs qs := by
  unfold LexemesOf at h
  rw [List.map_append] at h
  exact List.map_eq_append_iff.mp h

/-- No pieces, no lexemes. -/
theorem lexemesOf_nil {ts : List Lexeme} (h : LexemesOf ts []) : ts = [] :=
  List.map_eq_nil_iff.mp h

/-- The tokens of a tree derive it. -/
def Derives (ps : List Piece) (k : Kind) (n : Nat) (e : Expr) : Prop :=
  ∀ ts, LexemesOf ts ps → ∃ e', Der (.expr k) n ts [e'] ∧ strip e' = e

/-- Parentheses around a derivation. -/
theorem derives_wrap {ps : List Piece} {k : Kind} {n : Nat} {e : Expr} (h : Derives ps k n e)
    (parens : Bool) :
    Derives (Tree.wrap parens ps) (if parens then .closed else k) (Tree.wrapDepth parens n) e := by
  cases parens with
  | false => exact h
  | true =>
      intro ts hts
      obtain ⟨l, us, rfl, hus⟩ := lexemesOf_cons hts
      obtain ⟨vs, ws, rfl, hvs, hws⟩ := lexemesOf_append hus
      obtain ⟨r, xs, rfl, hxs⟩ := lexemesOf_cons hws
      cases lexemesOf_nil hxs
      obtain ⟨e', hder, hstrip⟩ := h vs hvs
      -- parentheses only widen the place of the expression, which `strip` forgets
      exact ⟨_, .paren l r hder, (strip_setSpan e' _).trans hstrip⟩

/-- In parentheses, nothing can follow an `else` by mistake. -/
theorem tailed_operand (a : Tree) (parens : Bool) :
    (if parens then Kind.closed else a.kind).tailed = false := by
  cases parens <;> cases a <;> rfl

/-- A left operand is put into parentheses where its operator binds less tightly. -/
theorem leftOf_operand (o : BinOp) (a : Tree) :
    LeftOf o (if a.needsParens (fun o₁ => o.prec ≤ o₁.prec) then .closed else a.kind) := by
  cases a with
  | bin o₁ a b =>
      by_cases h : o.prec ≤ o₁.prec
      · simp [Tree.needsParens, h, Tree.kind, LeftOf]
      · simp [Tree.needsParens, h, LeftOf]
  | _ => trivial

/-- A right operand is put into parentheses where its operator binds no more tightly. -/
theorem rightOf_operand (o : BinOp) (b : Tree) :
    RightOf o (if b.needsParens (fun o₂ => o.prec < o₂.prec) then .closed else b.kind) := by
  cases b with
  | bin o₂ a b =>
      by_cases h : o.prec < o₂.prec
      · simp [Tree.needsParens, h, Tree.kind, RightOf]
      · simp [Tree.needsParens, h, RightOf]
  | _ => trivial

/-- The operand of `!` is an atom or in parentheses. -/
theorem closed_operand (a : Tree) :
    (if a.needsParens (fun _ => false) then Kind.closed else a.kind) = .closed := by
  cases a <;> rfl

mutual

/-- What is printed derives the tree. Recursion on the tree. -/
theorem derives_print : ∀ a : Tree, Derives a.print a.kind a.depth a.expr
  | .lit str => by
      intro ts hts
      obtain ⟨l, us, rfl, hus⟩ := lexemesOf_cons hts
      cases lexemesOf_nil hus
      exact ⟨_, .literal _ l, rfl⟩
  | .not a => by
      intro ts hts
      obtain ⟨l, us, rfl, hus⟩ := lexemesOf_cons hts
      obtain ⟨e, hder, hstrip⟩ := derives_wrap (derives_print a) _ us hus
      -- `!` binds tightest, so a binary operation under it stands in parentheses
      rw [closed_operand] at hder
      refine ⟨_, .bang l hder, ?_⟩
      rw [strip_build, stripArgs, hstrip]
      rfl
  | .bin o a b => by
      intro ts hts
      obtain ⟨us, vs, rfl, hus, hvs⟩ := lexemesOf_append hts
      obtain ⟨m, ws, rfl, hws⟩ := lexemesOf_cons hvs
      obtain ⟨e₁, hder₁, hstrip₁⟩ := derives_wrap (derives_print a) _ us hus
      obtain ⟨e₂, hder₂, hstrip₂⟩ := derives_wrap (derives_print b) _ ws hws
      -- the operators associate to the left: only the right operand needs a higher precedence
      have hder := Der.binary m (leftOf_operand o a) (rightOf_operand o b) hder₁ hder₂
      rw [tailed_operand, ← token_op] at hder
      refine ⟨_, hder, ?_⟩
      rw [strip_build, stripArgs, stripArgs, hstrip₁, hstrip₂]
      rfl
  | .ite c a => by
      intro ts hts
      obtain ⟨l, us, rfl, hus⟩ := lexemesOf_cons hts
      obtain ⟨vs, ws, rfl, hvs, hws⟩ := lexemesOf_append hus
      obtain ⟨m, xs, rfl, hxs⟩ := lexemesOf_cons hws
      obtain ⟨ys, zs, rfl, hys, hzs⟩ := lexemesOf_append hxs
      obtain ⟨r, rest, rfl, hrest⟩ := lexemesOf_cons hzs
      cases lexemesOf_nil hrest
      obtain ⟨e₁, hder₁, hstrip₁⟩ := derives_print c vs hvs
      obtain ⟨e₂, hder₂, hstrip₂⟩ := derives_print a ys hys
      refine ⟨_, .ifThen l m r hder₁ hder₂, ?_⟩
      rw [strip_build, stripArgs, stripArgs, hstrip₁, hstrip₂]
      rfl
  | .iteElse c a b => by
      intro ts hts
      obtain ⟨l, us, rfl, hus⟩ := lexemesOf_cons hts
      obtain ⟨vs, ws, rfl, hvs, hws⟩ := lexemesOf_append hus
      obtain ⟨m, xs, rfl, hxs⟩ := lexemesOf_cons hws
      obtain ⟨ys, zs, rfl, hys, hzs⟩ := lexemesOf_append hxs
      obtain ⟨m', us', rfl, hus'⟩ := lexemesOf_cons hzs
      obtain ⟨vs', ws', rfl, hvs', hws'⟩ := lexemesOf_append hus'
      obtain ⟨r, rest, rfl, hrest⟩ := lexemesOf_cons hws'
      cases lexemesOf_nil hrest
      obtain ⟨e₁, hder₁, hstrip₁⟩ := derives_print c vs hvs
      obtain ⟨e₂, hder₂, hstrip₂⟩ := derives_print a ys hys
      obtain ⟨e₃, hder₃, hstrip₃⟩ := derives_print b vs' hvs'
      refine ⟨_, .ifElse l m m' r hder₁ hder₂ hder₃, ?_⟩
      rw [strip_build, stripArgs, stripArgs, stripArgs, hstrip₁, hstrip₂, hstrip₃]
      rfl
  | .call f [] => by
      intro ts hts
      obtain ⟨l, us, rfl, hus⟩ := lexemesOf_cons hts
      obtain ⟨m, vs, rfl, hvs⟩ := lexemesOf_cons hus
      obtain ⟨r, rest, rfl, hrest⟩ := lexemesOf_cons hvs
      cases lexemesOf_nil hrest
      exact ⟨_, .call l m r (findFunction_registered f) .noArgs, rfl⟩
  | .call f (a :: args) => by
      intro ts hts
      obtain ⟨l, us, rfl, hus⟩ := lexemesOf_cons hts
      obtain ⟨m, vs, rfl, hvs⟩ := lexemesOf_cons hus
      obtain ⟨ws, xs, rfl, hws, hxs⟩ := lexemesOf_append hvs
      obtain ⟨r, rest, rfl, hrest⟩ := lexemesOf_cons hxs
      cases lexemesOf_nil hrest
      obtain ⟨ys, zs, rfl, hys, hzs⟩ := lexemesOf_append hws
      obtain ⟨e, hder, hstrip⟩ := derives_print a ys hys
      -- the first argument starts the list, and the others are added to it one by one
      obtain ⟨argv, hargs, hstrips⟩ := derives_printRest args (.firstArg hder) zs hzs
      refine ⟨_, .call l m r (findFunction_registered f) hargs, ?_⟩
      rw [strip, stripArgs_append, stripArgs, hstrip, hstrips]
      rfl

/-- Further arguments after those that have been read. -/
theorem derives_printRest : ∀ (args : List Tree) {n : Nat} {us : List Lexeme} {argv : List Expr},
    Der .args n us argv → ∀ ts, LexemesOf ts (Tree.printRest args) →
      ∃ argv', Der .args (max n (Tree.depthRest args)) (us ++ ts) (argv ++ argv') ∧
        stripArgs argv' = Tree.exprs args
  | [], n, us, argv, h, ts, hts => by
      cases lexemesOf_nil hts
      exact ⟨[], by simpa [Tree.depthRest] using h, rfl⟩
  | a :: args, n, us, argv, h, ts, hts => by
      obtain ⟨m, vs, rfl, hvs⟩ := lexemesOf_cons hts
      obtain ⟨ws, xs, rfl, hws, hxs⟩ := lexemesOf_append hvs
      obtain ⟨e, hder, hstrip⟩ := derives_print a ws hws
      obtain ⟨argv', hargs, hstrips⟩ := derives_printRest args (.nextArg m h hder) xs hxs
      rw [List.append_assoc, List.append_assoc, Nat.max_assoc] at hargs
      refine ⟨e :: argv', hargs, ?_⟩
      rw [stripArgs, hstrip, hstrips]
      rfl

end

/-! ## Texts of printed trees -/

/-- The piece is a keyword or a function name. -/
def Piece.isWord : Piece → Bool
  | literal _ => false
  | fixed _ w => w.all Edify.isWord

/-- A text for a row of pieces, with layout before, between and after them. Two words must not run
together. -/
inductive Typeset : List Piece → Bytes → Prop where
  | nil {lay : Bytes} (hlay : Layout lay) : Typeset [] lay
  | cons {p : Piece} {ps : List Piece} {lay w text : Bytes} (hlay : Layout lay)
      (hw : p.Written w) (hsep : p.isWord = true → ∀ c ∈ text.head?, isWord c = false)
      (h : Typeset ps text) : Typeset (p :: ps) (lay ++ (w ++ text))

/-- The pieces with one text are read as their token. -/
def Piece.Sound : Piece → Prop
  | literal _ => True
  | fixed t w => Spells t w

def Piece.isBang : Piece → Bool
  | literal _ => false
  | fixed _ w => w = [33]

/-- The equals sign that would make `!` longer. -/
def Piece.startsEq : Piece → Bool
  | literal _ => false
  | fixed _ w => w.head? = some 61

/-- What the text of a row of pieces needs: every piece is read as its token, and no `!` stands
before an equals sign. -/
structure Tame (ps : List Piece) : Prop where
  sound : ∀ p ∈ ps, p.Sound
  chain : ps.IsChain fun p q => p.isBang = true → q.startsEq = false
  last : ∀ p ∈ ps.getLast?, p.isBang = false

theorem tame_nil : Tame [] := ⟨by simp, .nil, by simp⟩

/-- Two tame lists of pieces. -/
theorem Tame.append {ps qs : List Piece} (h : Tame ps) (h' : Tame qs) : Tame (ps ++ qs) where
  sound := by
    intro p hp
    rcases List.mem_append.mp hp with hp | hp
    · exact h.sound p hp
    · exact h'.sound p hp
  chain := List.isChain_append.mpr
    -- where the rows meet there is no `!`, since neither row ends with one
    ⟨h.chain, h'.chain, fun p hp _ _ hbang => absurd hbang (by simp [h.last p hp])⟩
  last := by
    intro p hp
    rw [List.getLast?_append] at hp
    cases hq : qs.getLast? with
    | none =>
        rw [hq, Option.none_or] at hp
        exact h.last p hp
    | some q =>
        rw [hq, Option.some_or] at hp
        cases hp
        exact h'.last _ hq

/-- A piece other than `!`. -/
def Plain (p : Piece) : Prop := p.Sound ∧ p.isBang = false

/-- Symbols other than `!` are plain. -/
theorem plain_symbol {w : Bytes} {t : Token} (h : (w, t) ∈ symbols) (hw : w ≠ [33]) :
    Plain (.fixed t w) := ⟨spells_symbol h, by simpa [Piece.isBang] using hw⟩

/-- The key words are plain. -/
theorem plain_word {w : Bytes} {t : Token} (hne : w ≠ []) (hw : w.all isWord = true)
    (ht : wordToken w = t) : Plain (.fixed t w) := by
  refine ⟨ht ▸ spells_word hne (List.all_eq_true.mp hw), ?_⟩
  simp only [Piece.isBang, decide_eq_false_iff_not]
  rintro rfl
  cases hw

/-- The operators are plain. -/
theorem plain_op (o : BinOp) : Plain (.op o) := by
  cases o <;> exact plain_symbol (by decide) (by decide)

theorem plain_lparen : Plain .lparen := plain_symbol (by decide) (by decide)

theorem plain_rparen : Plain .rparen := plain_symbol (by decide) (by decide)

theorem plain_comma : Plain .comma := plain_symbol (by decide) (by decide)

theorem plain_if : Plain .if_ := plain_word (by decide) (by decide) (by decide)

theorem plain_then : Plain .then_ := plain_word (by decide) (by decide) (by decide)

theorem plain_else : Plain .else_ := plain_word (by decide) (by decide) (by decide)

theorem plain_endif : Plain .endif := plain_word (by decide) (by decide) (by decide)

/-- The registered names are plain words. -/
theorem plain_name (f : Registered) :
    Plain (.name f.1.1) ∧ (Piece.name f.1.1).startsEq = false := by
  have hall : ∀ p ∈ registered, p.1 ≠ [] ∧ p.1.all isWord = true ∧
      wordToken p.1 = .string p.1 ∧ p.1.head? ≠ some 61 := by decide +kernel
  obtain ⟨hne, hword, htoken, heq⟩ := hall f.1 f.2
  exact ⟨plain_word hne hword htoken, by simpa [Piece.startsEq, Piece.name] using heq⟩

/-- A plain piece can stand before anything. -/
theorem Plain.tame {p : Piece} (h : Plain p) : Tame [p] :=
  ⟨by simpa using h.1, .singleton p, by simpa using h.2⟩

/-- A plain piece may be put before a tame list. -/
theorem Tame.cons {p : Piece} {ps : List Piece} (h : Tame ps) (hp : Plain p) : Tame (p :: ps) :=
  hp.tame.append h

/-- `!` and what it is applied to. -/
theorem Tame.cons_bang {q : Piece} {ps : List Piece} (hq : q.startsEq = false)
    (h : Tame (q :: ps)) : Tame (.bang :: q :: ps) where
  sound := by
    intro p hp
    rcases List.mem_cons.mp hp with rfl | hp
    · exact spells_symbol (by decide)
    · exact h.sound p hp
  chain := .cons_cons (fun _ => hq) h.chain
  last := by
    intro p hp
    rw [List.getLast?_cons_cons] at hp
    exact h.last p hp

/-- A list in parentheses begins as the list does, or with the parenthesis. -/
theorem wrap_head {q : Piece} {ps : List Piece} (hq : q.startsEq = false) (parens : Bool) :
    ∃ q' ps', Tree.wrap parens (q :: ps) = q' :: ps' ∧ q'.startsEq = false := by
  cases parens with
  | false => exact ⟨q, ps, rfl, hq⟩
  | true => exact ⟨.lparen, _, rfl, rfl⟩

/-- What is printed never begins with `=`. -/
theorem print_head : ∀ a : Tree, ∃ q ps, a.print = q :: ps ∧ q.startsEq = false
  | .lit str => ⟨_, _, rfl, rfl⟩
  | .not a => ⟨_, _, rfl, rfl⟩
  | .bin o a b => by
      obtain ⟨q, ps, hprint, hq⟩ := print_head a
      obtain ⟨q', ps', hwrap, hq'⟩ := wrap_head hq (a.needsParens fun o₁ => o.prec ≤ o₁.prec)
      rw [Tree.print, hprint, hwrap]
      exact ⟨q', _, rfl, hq'⟩
  | .ite c a => ⟨_, _, rfl, rfl⟩
  | .iteElse c a b => ⟨_, _, rfl, rfl⟩
  | .call f args => ⟨_, _, rfl, (plain_name f).2⟩

/-- Parentheses keep a list tame. -/
theorem tame_wrap {ps : List Piece} (h : Tame ps) (parens : Bool) : Tame (Tree.wrap parens ps) := by
  cases parens with
  | false => exact h
  | true => exact (h.append plain_rparen.tame).cons plain_lparen

mutual

/-- What is printed is tame. Recursion on the tree. -/
theorem tame_print : ∀ a : Tree, Tame a.print
  | .lit str => Plain.tame ⟨trivial, rfl⟩
  | .not a => by
      obtain ⟨q, ps, hprint, hq⟩ := print_head a
      obtain ⟨q', ps', hwrap, hq'⟩ := wrap_head hq (a.needsParens fun _ => false)
      have htame := tame_wrap (tame_print a) (a.needsParens fun _ => false)
      rw [hprint, hwrap] at htame
      rw [Tree.print, hprint, hwrap]
      exact htame.cons_bang hq'
  | .bin o a b =>
      (tame_wrap (tame_print a) _).append ((tame_wrap (tame_print b) _).cons (plain_op o))
  | .ite c a =>
      ((tame_print c).append (((tame_print a).append plain_endif.tame).cons plain_then)).cons plain_if
  | .iteElse c a b =>
      ((tame_print c).append (((tame_print a).append
        (((tame_print b).append plain_endif.tame).cons plain_else)).cons plain_then)).cons plain_if
  | .call f [] => (plain_rparen.tame.cons plain_lparen).cons (plain_name f).1
  | .call f (a :: args) =>
      ((((tame_print a).append (tame_printRest args)).append plain_rparen.tame).cons
        plain_lparen).cons (plain_name f).1

/-- So are the arguments of a call. -/
theorem tame_printRest : ∀ args : List Tree, Tame (Tree.printRest args)
  | [] => tame_nil
  | a :: args => ((tame_print a).append (tame_printRest args)).cons plain_comma

end

/-- Layout never begins with `=`. -/
theorem Layout.head_ne {lay : Bytes} (h : Layout lay) : lay.head? ≠ some 61 := by
  cases h with
  | nil => simp
  | blank hc _ =>
      intro heq
      cases heq
      cases hc
  | newline _ => simp
  | comment _ _ => simp

/-- The text begins with an equals sign only if the first piece does. -/
theorem Typeset.startsEq {ps : List Piece} {text : Bytes} (h : Typeset ps text)
    (hsound : ∀ p ∈ ps, p.Sound) (heq : text.head? = some 61) : ∃ p ∈ ps.head?, p.startsEq = true := by
  cases h with
  | nil hlay => exact absurd heq hlay.head_ne
  | @cons p ps lay w text hlay hw _ _ =>
      cases lay with
      | cons c lay => exact absurd heq hlay.head_ne
      | nil =>
          refine ⟨p, rfl, ?_⟩
          cases hw with
          | literal _ => cases heq
          | fixed t _ =>
              have hspells : Spells t w := hsound _ (List.mem_cons_self ..)
              obtain ⟨c, w, rfl⟩ := List.exists_cons_of_ne_nil hspells.ne_nil
              simpa [Piece.startsEq] using heq

/-- The lexer stops at the end of each piece, whatever comes next. -/
theorem Typeset.stops {p : Piece} {ps : List Piece} {w text : Bytes} (hw : p.Written w)
    (hsep : p.isWord = true → ∀ c ∈ text.head?, isWord c = false) (h : Typeset ps text)
    (htame : Tame (p :: ps)) : Stops w text := by
  cases hw with
  | literal _ => exact stops_quoted _ text
  | fixed t _ =>
      intro c hc
      refine ⟨fun hword => hsep hword c hc, ?_⟩
      rintro rfl rfl
      -- `!` before `=` would be read as `!=`; the chain rules this out
      obtain ⟨q, hq, heq⟩ := h.startsEq (fun q hq => htame.sound q (List.mem_cons_of_mem _ hq)) hc
      obtain ⟨ps, rfl⟩ := List.head?_eq_some_iff.mp hq
      have hne := (List.isChain_cons_cons.mp htame.chain).1 rfl
      rw [hne] at heq
      cases heq

/-- The pieces after the first one. -/
theorem Tame.tail {p : Piece} {ps : List Piece} (h : Tame (p :: ps)) : Tame ps where
  sound := fun q hq => h.sound q (List.mem_cons_of_mem _ hq)
  chain := h.chain.tail
  last := by
    intro q hq
    cases ps with
    | nil => cases hq
    | cons r ps =>
        apply h.last q
        rwa [List.getLast?_cons_cons]

/-- A literal that fits into the buffer is read as its string. -/
theorem spells_literal {str : Literal} {body : Bytes} (h : Encodes str body)
    (hlen : str.1.length < maxStringLen) : Spells (.string str) (34 :: (body ++ [34])) := by
  apply spells_quoted
  intro n rest s hn hs
  have hfuel : str.1.length < n := Nat.lt_of_le_of_lt h.length_le hn
  have hbuf : ([] : Bytes).length + str.1.length < maxStringLen := by simpa using hlen
  obtain ⟨s', hlex, hrest, -, hpos, hloc⟩ := strLoop_encodes h hfuel hbuf hs
  have hval : ([] ++ str.1).takeWhile (· ≠ 0) = str.1 := cText_eq_self str.2
  exact ⟨s', by rw [hlex, hval], hrest, hpos, hloc⟩

/-- The literal fits into the buffer. -/
def Piece.Fits : Piece → Prop
  | literal str => str.1.length < maxStringLen
  | fixed _ _ => True

/-- A piece as it is written is read as its token. -/
theorem Piece.Written.spells {p : Piece} {w : Bytes} (hw : p.Written w) (hsound : p.Sound)
    (hfits : p.Fits) : Spells p.token w := by
  cases hw with
  | literal h => exact spells_literal h hfits
  | fixed t _ => exact hsound

/-- The text of pieces that fit is a row of their tokens. -/
theorem Typeset.lexes {ps : List Piece} {text : Bytes} (h : Typeset ps text) (htame : Tame ps)
    (hfits : ∀ p ∈ ps, p.Fits) (pos : Nat) :
    ∃ ts text' lay, text = text' ++ lay ∧ Layout lay ∧ Lexes pos ts text' lay ∧
      LexemesOf ts ps := by
  induction h generalizing pos with
  | nil hlay => exact ⟨[], [], _, rfl, hlay, .nil _ _, rfl⟩
  | @cons p ps lay w text hlay hw hsep h ih =>
      have hspells := hw.spells (htame.sound p (List.mem_cons_self ..))
        (hfits p (List.mem_cons_self ..))
      obtain ⟨ts, text', lay', rfl, hlay', hlexes, hts⟩ := ih htame.tail
        (fun q hq => hfits q (List.mem_cons_of_mem _ hq)) (pos + lay.length + w.length)
      have hstop := Typeset.stops hw hsep h htame
      refine ⟨_, lay ++ (w ++ text'), lay', by simp, hlay', .cons hlay hspells hstop hlexes, ?_⟩
      exact congrArg (p.token :: ·) hts

/-- A string that does not fit into the buffer of the lexer overflows it. -/
theorem yylex_long {p : Piece} {lay w text : Bytes} (hlay : Layout lay) (hw : p.Written w)
    (hlong : ¬ p.Fits) {s : Scanner} (hs : s.rest = lay ++ (w ++ text)) : yylex s = .overflow := by
  cases hw with
  | fixed t _ => exact absurd trivial hlong
  | @literal str body h =>
      obtain ⟨s₁, hlex, hrest, -⟩ := yylex_layout hlay (sharp_cons (by decide) _) hs
      rw [hlex]
      have hrest' : s₁.rest = 34 :: (body ++ 34 :: text) := by simpa using hrest
      exact yylex_overflow h hrest' (Nat.le_of_not_lt hlong)

/-- A literal that does not fit is never read to its end. -/
theorem Typeset.not_scans {ps : List Piece} {text : Bytes} (h : Typeset ps text)
    (htame : Tame ps) (hlong : ∃ p ∈ ps, ¬ p.Fits) {s s' : Scanner} (hs : s.rest = text)
    {ts : List Lexeme} (hscan : Scans s ts s') : yylex s' ≠ .eof := by
  -- the scanner reads piece by piece up to the first that does not fit, and stops there
  induction h generalizing s ts with
  | nil _ =>
      obtain ⟨p, hp, -⟩ := hlong
      cases hp
  | @cons p ps lay w text hlay hw hsep h ih =>
      intro heof
      by_cases hfits : p.Fits
      · have hspells := hw.spells (htame.sound p (List.mem_cons_self ..)) hfits
        have hstop := Typeset.stops hw hsep h htame
        obtain ⟨s₁, hlex, hrest, -⟩ := yylex_of_spells hlay hspells hstop hs
        cases hscan with
        | nil =>
            rw [heof] at hlex
            cases hlex
        | cons hlex' hscan =>
            rw [hlex] at hlex'
            cases hlex'
            obtain ⟨q, hq, hlong⟩ := hlong
            rcases List.mem_cons.mp hq with rfl | hq
            · exact hlong hfits
            · exact ih htame.tail ⟨q, hq, hlong⟩ hrest hscan heof
      · -- the overflow is no end of the text and no token either
        have hover := yylex_long hlay hw hfits hs
        cases hscan with
        | nil =>
            rw [heof] at hover
            cases hover
        | cons hlex _ =>
            rw [hover] at hlex
            cases hlex

/-! ## The round trip -/

def Piece.literals : Piece → List Literal
  | literal str => [str]
  | fixed _ _ => []

/-- Parentheses hold no strings. -/
theorem literals_wrap (parens : Bool) (ps : List Piece) :
    (Tree.wrap parens ps).flatMap Piece.literals = ps.flatMap Piece.literals := by
  cases parens <;> simp [Tree.wrap, Piece.lparen, Piece.rparen, Piece.literals]

theorem literals_op (o : BinOp) : (Piece.op o).literals = [] := by cases o <;> rfl

mutual

/-- The strings that are printed are those of the tree. -/
theorem literals_print : ∀ a : Tree, a.print.flatMap Piece.literals = a.literals
  | .lit str => rfl
  | .not a => by
      rw [Tree.print, List.flatMap_cons, literals_wrap, literals_print a]
      rfl
  | .bin o a b => by
      rw [Tree.print, List.flatMap_append, List.flatMap_cons, literals_wrap, literals_wrap,
        literals_print a, literals_print b, literals_op]
      rfl
  | .ite c a => by
      rw [Tree.print]
      simp only [List.flatMap_cons, List.flatMap_append, literals_print c, literals_print a]
      simp [Piece.if_, Piece.then_, Piece.endif, Piece.literals, Tree.literals]
  | .iteElse c a b => by
      rw [Tree.print]
      simp only [List.flatMap_cons, List.flatMap_append, literals_print c, literals_print a,
        literals_print b]
      simp [Piece.if_, Piece.then_, Piece.else_, Piece.endif, Piece.literals, Tree.literals]
  | .call f [] => rfl
  | .call f (a :: args) => by
      rw [Tree.print, Tree.printArgs]
      simp only [List.flatMap_cons, List.flatMap_append, literals_print a, literals_printRest args]
      simp [Piece.name, Piece.lparen, Piece.rparen, Piece.literals, Tree.literals,
        Tree.literalsArgs]

/-- The same for the arguments of a call. -/
theorem literals_printRest : ∀ args : List Tree,
    (Tree.printRest args).flatMap Piece.literals = Tree.literalsArgs args
  | [] => rfl
  | a :: args => by
      rw [Tree.printRest]
      simp only [List.flatMap_cons, List.flatMap_append, literals_print a, literals_printRest args]
      rfl

end

/-- All pieces fit if all literals of the tree do. -/
theorem fits_iff (ps : List Piece) :
    (∀ p ∈ ps, p.Fits) ↔ ∀ str ∈ ps.flatMap Piece.literals, str.1.length < maxStringLen := by
  simp only [List.mem_flatMap, forall_exists_index, and_imp]
  constructor
  · intro h str p hp hstr
    cases p with
    | literal str' =>
        cases List.mem_singleton.mp hstr
        exact h _ hp
    | fixed t w => cases hstr
  · intro h p hp
    cases p with
    | literal str => exact h str _ hp (List.mem_singleton_self str)
    | fixed t w => trivial

/-- The tokens of a tree, with a semicolon after them or not. -/
def printScript (a : Tree) (semi : Bool) : List Piece :=
  a.print ++ if semi then [.op .seq] else []

theorem tame_printScript (a : Tree) (semi : Bool) : Tame (printScript a semi) := by
  cases semi with
  | false => exact (tame_print a).append tame_nil
  | true => exact (tame_print a).append (plain_op .seq).tame

theorem literals_printScript (a : Tree) (semi : Bool) :
    (printScript a semi).flatMap Piece.literals = a.literals := by
  rw [printScript, List.flatMap_append, literals_print]
  cases semi <;> simp [Piece.op, Piece.literals]

/-- The symbols for a tree, with a semicolon above it or not. -/
def scriptDepth (a : Tree) (semi : Bool) : Nat := if semi then max a.depth 2 else a.depth

theorem derives_printScript (a : Tree) (semi : Bool) :
    ∃ k, Derives (printScript a semi) k (scriptDepth a semi) a.expr := by
  cases semi with
  | false =>
      refine ⟨a.kind, ?_⟩
      rw [printScript, if_neg Bool.false_ne_true, List.append_nil]
      exact derives_print a
  | true =>
      refine ⟨.post, ?_⟩
      intro ts hts
      obtain ⟨us, vs, rfl, hus, hvs⟩ := lexemesOf_append hts
      obtain ⟨r, ws, rfl, hws⟩ := lexemesOf_cons hvs
      cases lexemesOf_nil hws
      obtain ⟨e, hder, hstrip⟩ := derives_print a us hus
      exact ⟨_, .post r hder, (strip_setSpan e _).trans hstrip⟩

/-- A text with literals that fit is a row of tokens that derive the tree. -/
theorem lexes_printScript {a : Tree} {semi : Bool} {text : Bytes}
    (h : Typeset (printScript a semi) text)
    (hshort : ∀ str ∈ a.literals, str.1.length < maxStringLen) :
    ∃ ts text' lay k e, text = text' ++ lay ∧ Layout lay ∧ Lexes 0 ts text' lay ∧
      Der (.expr k) (scriptDepth a semi) ts [e] ∧ strip e = a.expr := by
  have hfits : ∀ p ∈ printScript a semi, p.Fits := by
    rw [fits_iff, literals_printScript]
    exact hshort
  obtain ⟨ts, text', lay, htext, hlay, hlexes, hts⟩ := h.lexes (tame_printScript a semi) hfits 0
  obtain ⟨k, hderives⟩ := derives_printScript a semi
  obtain ⟨e, hder, hstrip⟩ := hderives ts hts
  exact ⟨ts, text', lay, k, e, htext, hlay, hlexes, hder, hstrip⟩

/-- A tree that is printed in any layout is parsed back, up to the spans. -/
theorem parse_typeset {a : Tree} {semi : Bool} {text : Bytes}
    (h : Typeset (printScript a semi) text)
    (hshort : ∀ str ∈ a.literals, str.1.length < maxStringLen)
    (hroom : HasRoom (scriptDepth a semi)) : ∃ e, parse text = .ok e ∧ strip e = a.expr := by
  obtain ⟨ts, text', lay, k, e, rfl, hlay, hlexes, hder, hstrip⟩ := lexes_printScript h hshort
  exact ⟨e, parse_of_lexes hlay hlexes hder hroom, hstrip⟩

/-- With a string that is too long it is not. -/
theorem not_parse_typeset {a : Tree} {semi : Bool} {text : Bytes}
    (h : Typeset (printScript a semi) text)
    (hlong : ¬ ∀ str ∈ a.literals, str.1.length < maxStringLen) (e : Expr) :
    parse text ≠ .ok e := by
  intro hparse
  obtain ⟨ts, s', st', hscan, heof, -⟩ := scans_of_yyparse hparse
  refine h.not_scans (tame_printScript a semi) ?_ rfl hscan heof
  rw [← literals_printScript a semi, ← fits_iff] at hlong
  push Not at hlong
  exact hlong

/-- A printed tree is parsed back exactly when all its literals fit into the buffer and its symbols
have their places on the stack. -/
theorem parse_print {a : Tree} {semi : Bool} {text : Bytes}
    (h : Typeset (printScript a semi) text) :
    (∃ e, parse text = .ok e ∧ strip e = a.expr) ↔
      (∀ str ∈ a.literals, str.1.length < maxStringLen) ∧ HasRoom (scriptDepth a semi) := by
  constructor
  · rintro ⟨root, hparse, -⟩
    have hshort : ∀ str ∈ a.literals, str.1.length < maxStringLen := by
      by_contra hlong
      exact not_parse_typeset h hlong root hparse
    obtain ⟨ts, text', lay, k, e, rfl, hlay, hlexes, hder, -⟩ := lexes_printScript h hshort
    exact ⟨hshort, room_of_parse hlay hlexes hder hparse⟩
  · rintro ⟨hshort, hroom⟩
    exact parse_typeset h hshort hroom

/-- `! ("a"+"b")` with an end of line and a semicolon after it. -/
theorem parse_print_not :
    ∃ e, parse [33, 32, 40, 34, 97, 34, 43, 34, 98, 34, 41, 10, 59] = .ok e ∧
      strip e = (Tree.not (.bin .plus (.lit ⟨[97], by decide⟩) (.lit ⟨[98], by decide⟩))).expr := by
  have ha : Encodes [97] [97] := .cons (.raw (by decide) (by decide)) .nil
  have hb : Encodes [98] [98] := .cons (.raw (by decide) (by decide)) .nil
  have hend : Typeset [.rparen, .op .seq] ([] ++ ([41] ++ ([10] ++ ([59] ++ [])))) :=
    .cons .nil (.fixed .rparen [41]) (fun h => by cases h)
      (.cons (.newline .nil) (.fixed .semi [59]) (fun h => by cases h) (.nil .nil))
  have hright : Typeset [.literal ⟨[98], by decide⟩, .rparen, .op .seq] _ :=
    .cons .nil (.literal hb) (fun h => by cases h) hend
  have hsum : Typeset [.literal ⟨[97], by decide⟩, .op .plus, .literal ⟨[98], by decide⟩, .rparen,
      .op .seq] _ :=
    .cons .nil (.literal ha) (fun h => by cases h)
      (.cons .nil (.fixed .plus [43]) (fun h => by cases h) hright)
  have htext : Typeset (printScript (.not (.bin .plus (.lit ⟨[97], by decide⟩)
      (.lit ⟨[98], by decide⟩))) true) _ :=
    .cons .nil (.fixed .bang [33]) (fun h => by cases h) (.cons (.blank (c := 32) rfl .nil)
      (.fixed .lparen [40]) (fun h => by cases h) hsum)
  exact (parse_print htext).mpr (by decide)

/-- A tree with one literal of 1024 letters is not parsed back. -/
theorem parse_print_long :
    Typeset (printScript (.lit ⟨List.replicate 1024 97, by
        intro h; cases List.eq_of_mem_replicate h⟩) false)
      (34 :: (List.replicate 1024 97 ++ [34])) ∧
    ¬ ∃ e, parse (34 :: (List.replicate 1024 97 ++ [34])) = .ok e ∧
      strip e = (Tree.lit ⟨List.replicate 1024 97, by
        intro h; cases List.eq_of_mem_replicate h⟩).expr := by
  have htext : Typeset (printScript (.lit ⟨List.replicate 1024 97, by
        intro h; cases List.eq_of_mem_replicate h⟩) false)
      ([] ++ (34 :: (List.replicate 1024 97 ++ [34]) ++ [])) :=
    .cons .nil (.literal (encodes_replicate 1024)) (fun h => by cases h) (.nil .nil)
  rw [List.nil_append, List.append_nil] at htext
  refine ⟨htext, ?_⟩
  rintro ⟨e, hparse, -⟩
  refine not_parse_typeset htext ?_ e hparse
  intro hshort
  have hlt := hshort _ (List.mem_singleton_self _)
  rw [List.length_replicate] at hlt
  exact absurd hlt (by decide)

end OpenRecovery.Edify
