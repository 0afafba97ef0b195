import OpenRecovery.Edify.Lexemes

/-!
# Source spans

Every node of a script that parses without errors has the place of its text in the script: the
places of its arguments lie inside it, one after the other, and the text there, parsed on its own,
gives the same expression. So the text that a failing `assert` quotes is the text of the argument.

Both facts go through the derivation of the script. `Spanned ts e` says that the place of `e` is
that of a part of the tokens `ts` which derives `e`; a derivation whose tokens are placed one after
the other has it for all its nodes (`located_of_der`). A part of a row of tokens is a row on its own
and takes no more of the parser's stack than the whole, so the parser accepts it.
-/

set_option autoImplicit false

namespace OpenRecovery.Edify

open OpenRecovery.Storage
open OpenRecovery.Updater (Expr)

/-! ## Trees without places -/

mutual

/-- An expression with all places set to 0. -/
def strip : Expr → Expr
  | .node fn name argv _ _ => .node fn name (stripArgs argv) 0 0

def stripArgs : List Expr → List Expr
  | [] => []
  | e :: es => strip e :: stripArgs es

end

mutual

/-- The places without the first `d` bytes of the script. -/
def moveExpr (d : Nat) : Expr → Expr
  | .node fn name argv start stop => .node fn name (moveArgs d argv) (start - d) (stop - d)

def moveArgs (d : Nat) : List Expr → List Expr
  | [] => []
  | e :: es => moveExpr d e :: moveArgs d es

end

mutual

/-- Moving the spans does not change the tree. -/
theorem strip_move (d : Nat) : ∀ e, strip (moveExpr d e) = strip e
  | .node fn name argv start stop => by rw [moveExpr, strip, strip, stripArgs_move d argv]

/-- The same for arguments. -/
theorem stripArgs_move (d : Nat) : ∀ es, stripArgs (moveArgs d es) = stripArgs es
  | [] => rfl
  | e :: es => by rw [moveArgs, stripArgs, stripArgs, strip_move d e, stripArgs_move d es]

end

@[simp] theorem strip_setSpan (e : Expr) (loc : Loc) : strip (setSpan e loc) = strip e := by
  cases e
  rfl

/-- Arguments are moved one by one. -/
theorem moveArgs_append (d : Nat) (es es' : List Expr) :
    moveArgs d (es ++ es') = moveArgs d es ++ moveArgs d es' := by
  induction es with
  | nil => rfl
  | cons e es ih => rw [List.cons_append, moveArgs, moveArgs, ih, List.cons_append]

/-! ## Derivations at another place -/

/-- The span of lexemes that are moved. -/
theorem span_move (d : Nat) (ts : List Lexeme) :
    span (ts.map (moveLexeme d)) = (span ts).move d := by
  -- a missing token counts as place 0, which moving leaves at 0
  have hmove : ∀ o : Option Lexeme, ∀ f : Loc → Nat, (∀ l : Loc, f (l.move d) = f l - d) →
      ((o.map (moveLexeme d)).map fun x => f x.2).getD 0 = (o.map fun x => f x.2).getD 0 - d := by
    intro o f hf
    cases o with
    | none => exact (Nat.zero_sub d).symm
    | some x => exact hf x.2
  simp only [span, List.head?_map, List.getLast?_map]
  rw [hmove _ Loc.start fun _ => rfl, hmove _ Loc.stop fun _ => rfl]
  rfl

/-- A new span, and a move. -/
theorem setSpan_move (d : Nat) (e : Expr) (loc : Loc) :
    moveExpr d (setSpan e loc) = setSpan (moveExpr d e) (loc.move d) := by
  cases e
  rfl

/-- The same tokens at another place have the same derivation. -/
theorem Der.move (d : Nat) {c : Cat} {n : Nat} {ts : List Lexeme} {es : List Expr}
    (h : Der c n ts es) : Der c n (ts.map (moveLexeme d)) (moveArgs d es) := by
  induction h with
  | literal str l => exact .literal str (l.move d)
  | paren l r h ih =>
      simp only [List.map_cons, List.map_append, List.map_nil, moveArgs, setSpan_move] at ih ⊢
      exact .paren (l.move d) (r.move d) ih
  | post r h ih =>
      simp only [List.map_append, List.map_cons, List.map_nil, moveArgs, setSpan_move,
        ← span_move] at ih ⊢
      exact .post (r.move d) ih
  | binary m hleft hright h₁ h₂ ih₁ ih₂ =>
      have hder := Der.binary (m.move d) hleft hright ih₁ ih₂
      rw [span_move, span_move] at hder
      simp only [List.map_append, List.map_cons]
      exact hder
  | bang l h ih =>
      have hder := Der.bang (l.move d) ih
      rw [span_move] at hder
      exact hder
  | ifThen l m r h₁ h₂ ih₁ ih₂ =>
      have hder := Der.ifThen (l.move d) (m.move d) (r.move d) ih₁ ih₂
      simp only [List.map_append, List.map_cons, List.map_nil]
      exact hder
  | ifElse l m m' r h₁ h₂ h₃ ih₁ ih₂ ih₃ =>
      have hder := Der.ifElse (l.move d) (m.move d) (m'.move d) (r.move d) ih₁ ih₂ ih₃
      simp only [List.map_append, List.map_cons, List.map_nil]
      exact hder
  | call l m r hfn h ih =>
      have hder := Der.call (l.move d) (m.move d) (r.move d) hfn ih
      simp only [List.map_append, List.map_cons, List.map_nil]
      exact hder
  | noArgs => exact .noArgs
  | firstArg h ih => exact .firstArg ih
  | nextArg m h₁ h₂ ih₁ ih₂ =>
      rw [List.map_append, List.map_cons, moveArgs_append]
      exact .nextArg (m.move d) ih₁ ih₂

/-! ## Places of nodes -/

/-- The expressions lie between `lo` and `hi`, one after the other. -/
def InOrder (lo : Nat) : List Expr → Nat → Prop
  | [], hi => lo ≤ hi
  | e :: es, hi => lo ≤ e.start ∧ e.start ≤ e.stop ∧ InOrder e.stop es hi

/-- The arguments of a node. -/
def arguments : Expr → List Expr
  | .node _ _ argv _ _ => argv

/-- The nodes of an expression. -/
inductive Node : Expr → Expr → Prop where
  | root (e : Expr) : Node e e
  | arg {d a : Expr} (e : Expr) (ha : a ∈ arguments e) (h : Node d a) : Node d e

/-- The arguments of a node are nodes. -/
theorem Node.argument {root e a : Expr} (h : Node e root) (ha : a ∈ arguments e) :
    Node a root := by
  induction h with
  | root => exact .arg _ ha (.root a)
  | arg _ ha' _ ih => exact .arg _ ha' ih

/-- The nodes of a node are nodes. -/
theorem Node.trans {root e d : Expr} (hd : Node d e) (he : Node e root) : Node d root := by
  induction hd with
  | root => exact he
  | arg e ha h ih => exact ih (he.argument ha)

/-- The place of `e` is that of a part of the tokens which derives `e` and has its places on the
stack, and the places of its arguments are inside it. -/
structure Spanned (ts : List Lexeme) (e : Expr) : Prop where
  inOrder : InOrder e.start (arguments e) e.stop
  derived : ∃ us k n e', us <:+: ts ∧ Der (.expr k) n us [e'] ∧ HasRoom n ∧ strip e' = strip e ∧
    span us = ⟨e.start, e.stop⟩

/-- A larger text has the same part. -/
theorem Spanned.mono {ts us : List Lexeme} {e : Expr} (h : Spanned us e) (hus : us <:+: ts) :
    Spanned ts e := by
  obtain ⟨vs, k, n, e', hvs, hrest⟩ := h.derived
  exact ⟨h.inOrder, vs, k, n, e', hvs.trans hus, hrest⟩

/-- The end is not before the start. -/
theorem InOrder.le {lo hi : Nat} {es : List Expr} (h : InOrder lo es hi) : lo ≤ hi := by
  induction es generalizing lo with
  | nil => exact h
  | cons e es ih => exact h.1.trans (h.2.1.trans (ih h.2.2))

/-- Wider bounds. -/
theorem InOrder.mono {lo lo' hi hi' : Nat} {es : List Expr} (hlo : lo' ≤ lo) (hhi : hi ≤ hi')
    (h : InOrder lo es hi) : InOrder lo' es hi' := by
  induction es generalizing lo lo' with
  | nil => exact hlo.trans (h.trans hhi)
  | cons e es ih => exact ⟨hlo.trans h.1, h.2.1, ih (Nat.le_refl _) h.2.2⟩

/-- Two lists, one after the other. -/
theorem InOrder.append {lo mid hi : Nat} {es es' : List Expr} (h : InOrder lo es mid)
    (h' : InOrder mid es' hi) : InOrder lo (es ++ es') hi := by
  induction es generalizing lo with
  | nil => exact h'.mono h (Nat.le_refl _)
  | cons e es ih => exact ⟨h.1, h.2.1, ih h.2.2⟩

/-- A part of the text lies within the same bounds. -/
theorem Placed.mono {ts us : List Lexeme} {lo hi : Nat} (h : Placed ts lo hi)
    (hus : us <:+: ts) : Placed us lo hi where
  ordered := h.ordered.sublist hus.sublist
  start_le_stop := fun x hx => h.start_le_stop x (hus.subset hx)
  lo_le := fun x hx => h.lo_le x (hus.subset hx)
  le_hi := fun x hx => h.le_hi x (hus.subset hx)

/-- Two parts of a row with a token between them. -/
theorem Placed.split {ts us : List Lexeme} {x : Lexeme} {lo hi : Nat}
    (h : Placed (ts ++ x :: us) lo hi) :
    Placed ts lo x.2.start ∧ Placed us x.2.stop hi ∧
      lo ≤ x.2.start ∧ x.2.start ≤ x.2.stop ∧ x.2.stop ≤ hi := by
  obtain ⟨hts, hxus, hbetween⟩ := List.pairwise_append.mp h.ordered
  obtain ⟨hx, hus⟩ := List.pairwise_cons.mp hxus
  have hmem : x ∈ ts ++ x :: us := List.mem_append_right ts (List.mem_cons_self ..)
  refine ⟨⟨hts, ?_, ?_, ?_⟩, ⟨hus, ?_, ?_, ?_⟩, h.lo_le x hmem, h.start_le_stop x hmem,
    h.le_hi x hmem⟩
  · exact fun y hy => h.start_le_stop y (by simp [hy])
  · exact fun y hy => h.lo_le y (by simp [hy])
  · exact fun y hy => hbetween y hy x (by simp)
  · exact fun y hy => h.start_le_stop y (by simp [hy])
  · exact fun y hy => hx y hy
  · exact fun y hy => h.le_hi y (by simp [hy])

/-- A row lies between its first and its last token. -/
theorem Placed.tighten {ts : List Lexeme} {lo hi : Nat} (h : Placed ts lo hi) (hne : ts ≠ []) :
    lo ≤ (span ts).start ∧ (span ts).start ≤ (span ts).stop ∧ (span ts).stop ≤ hi ∧
      Placed ts (span ts).start (span ts).stop := by
  obtain ⟨x, xs, rfl⟩ := List.exists_cons_of_ne_nil hne
  obtain ⟨ys, z, hlast⟩ := List.eq_nil_or_concat (x :: xs) |>.resolve_left hne
  have hstop : (span (x :: xs)).stop = z.2.stop := by
    rw [hlast]
    simp [span]
  have hlo : ∀ y ∈ x :: xs, x.2.start ≤ y.2.start := by
    intro y hy
    rcases List.mem_cons.mp hy with rfl | hy
    · exact Nat.le_refl _
    · have hx := h.start_le_stop x (List.mem_cons_self ..)
      exact hx.trans ((List.pairwise_cons.mp h.ordered).1 y hy)
  have hz : z ∈ x :: xs := by
    rw [hlast]
    simp
  have hhi : ∀ y ∈ x :: xs, y.2.stop ≤ z.2.stop := by
    intro y hy
    rw [hlast, List.concat_eq_append] at hy
    rcases List.mem_append.mp hy with hy | hy
    · have hordered := h.ordered
      rw [hlast, List.concat_eq_append] at hordered
      -- `y` ends before the last token starts
      have hyz := (List.pairwise_append.mp hordered).2.2 y hy z (List.mem_singleton_self z)
      exact hyz.trans (h.start_le_stop z hz)
    · rw [List.mem_singleton.mp hy]
  rw [hstop]
  exact ⟨h.lo_le x (List.mem_cons_self ..), (hlo z hz).trans (h.start_le_stop z hz), h.le_hi z hz,
    ⟨h.ordered, h.start_le_stop, hlo, hhi⟩⟩

/-- The expressions have the places of their texts. -/
def Located (ts : List Lexeme) (es : List Expr) : Prop :=
  ∀ lo hi, lo ≤ hi → Placed ts lo hi →
    InOrder lo es hi ∧ ∀ e ∈ es, ∀ d, Node d e → Spanned ts d

/-- Two parts with a token between them. -/
theorem Located.sep {ts us : List Lexeme} {es es' : List Expr} (x : Lexeme) (h : Located ts es)
    (h' : Located us es') : Located (ts ++ x :: us) (es ++ es') := by
  intro lo hi _ hplaced
  obtain ⟨hts, hus, hlo, hx, hhi⟩ := hplaced.split
  obtain ⟨hin, hnodes⟩ := h lo _ hlo hts
  obtain ⟨hin', hnodes'⟩ := h' _ hi hhi hus
  refine ⟨hin.append (hin'.mono hx (Nat.le_refl _)), ?_⟩
  intro e he d hd
  rcases List.mem_append.mp he with he | he
  · exact (hnodes e he d hd).mono List.infix_append_left
  · exact (hnodes' e he d hd).mono
      (List.infix_append_of_infix_right (List.infix_cons List.infix_rfl))

theorem located_nil (ts : List Lexeme) : Located ts [] :=
  fun _ _ hle _ => ⟨hle, fun _ he => by cases he⟩

/-- A lexeme before does not matter. -/
theorem Located.after {ts : List Lexeme} {es : List Expr} (x : Lexeme) (h : Located ts es) :
    Located (x :: ts) es := (located_nil []).sep x h

/-- A lexeme after does not matter. -/
theorem Located.before {ts : List Lexeme} {es : List Expr} (x : Lexeme) (h : Located ts es) :
    Located (ts ++ [x]) es := by
  have hsep := h.sep x (located_nil [])
  rwa [List.append_nil] at hsep

/-- The arguments of an expression lie in its text. -/
theorem Located.args {ts : List Lexeme} {e : Expr} (h : Located ts [e]) :
    Located ts (arguments e) := by
  intro lo hi hle hplaced
  obtain ⟨⟨hlo, -, hhi⟩, hnodes⟩ := h lo hi hle hplaced
  have hroot := hnodes e (List.mem_singleton_self e)
  exact ⟨(hroot e (.root e)).inOrder.mono hlo hhi, fun a ha d hd => hroot d (.arg e ha hd)⟩

/-- An expression with the place of all its tokens. -/
theorem located_node {k : Kind} {n : Nat} {ts : List Lexeme} {e : Expr}
    (h : Der (.expr k) n ts [e]) (hroom : HasRoom n) (hspan : span ts = ⟨e.start, e.stop⟩)
    (hargs : Located ts (arguments e)) : Located ts [e] := by
  intro lo hi _ hplaced
  obtain ⟨hlo, hle, hhi, htight⟩ := hplaced.tighten h.ne_nil
  rw [hspan] at hlo hle hhi htight
  obtain ⟨hin, hnodes⟩ := hargs _ _ hle htight
  refine ⟨⟨hlo, hle, hhi⟩, ?_⟩
  intro e' he' d hd
  cases List.mem_singleton.mp he'
  cases hd with
  -- the expression itself has the place of all the tokens
  | root => exact ⟨hin, ts, k, n, e, List.infix_refl ts, h, hroom, rfl, hspan⟩
  | arg _ ha hd => exact hnodes _ ha d hd

@[simp] theorem arguments_setSpan (e : Expr) (l : Loc) :
    arguments (setSpan e l) = arguments e := by
  cases e
  rfl

@[simp] theorem start_setSpan (e : Expr) (l : Loc) : (setSpan e l).start = l.start := by
  cases e
  rfl

@[simp] theorem stop_setSpan (e : Expr) (l : Loc) : (setSpan e l).stop = l.stop := by
  cases e
  rfl

/-- The place of an expression before a semicolon is that of the tokens before it. -/
theorem located_post {k : Kind} {n : Nat} {ts : List Lexeme} {e : Expr} (r : Loc)
    (h : Der (.expr k) n ts [e]) (hroom : HasRoom n) (ih : Located ts [e]) :
    Located (ts ++ [(.semi, r)]) [setSpan e (span ts)] := by
  intro lo hi hle hplaced
  -- the semicolon is not part of the place
  have hinfix : ts <:+: ts ++ [(.semi, r)] := List.infix_append_left
  obtain ⟨hlo, hle', hhi, htight⟩ := (hplaced.mono hinfix).tighten h.ne_nil
  obtain ⟨hin, -⟩ := ih.args _ _ hle' htight
  refine ⟨by simpa [InOrder] using ⟨hlo, hle', hhi⟩, ?_⟩
  intro e' he' d hd
  cases List.mem_singleton.mp he'
  cases hd with
  | root =>
      refine ⟨by simpa using hin, ts, k, n, e, hinfix, h, hroom, (strip_setSpan e _).symm, ?_⟩
      rw [start_setSpan, stop_setSpan]
  | arg _ ha hd =>
      rw [arguments_setSpan] at ha
      exact ((ih.args.before _) lo hi hle hplaced).2 _ ha d hd

/-- The expressions of a derivation that has its places on the stack have the places of their
texts. -/
theorem located_of_der {c : Cat} {n : Nat} {ts : List Lexeme} {es : List Expr} (h : Der c n ts es)
    (hroom : HasRoom n) : Located ts es := by
  induction h with
  | literal str l => exact located_node (.literal str l) hroom rfl (located_nil _)
  | paren l r h ih =>
      have hin := ih (hroom.mono (by omega))
      apply located_node (.paren l r h) hroom
      · rw [start_setSpan, stop_setSpan, span_cons _ (by simp), join_span_concat]
      · rw [arguments_setSpan]
        exact (hin.args.before _).after _
  | post r h ih =>
      have hle := hroom.mono (Nat.le_max_left _ _)
      exact located_post r h hle (ih hle)
  | binary m hleft hright h₁ h₂ ih₁ ih₂ =>
      have hin₁ := ih₁ (hroom.mono (by omega))
      have hin₂ := ih₂ (hroom.mono (by omega))
      apply located_node (.binary m hleft hright h₁ h₂) hroom
      · rw [span_append h₁.ne_nil (List.cons_ne_nil _ _), span_cons _ h₂.ne_nil]
        rfl
      · exact hin₁.sep _ hin₂
  | bang l h ih =>
      have hin := ih (hroom.mono (by omega))
      apply located_node (.bang l h) hroom
      · rw [span_cons _ h.ne_nil]
        rfl
      · exact hin.after _
  | @ifThen k₁ k₂ n₁ n₂ ts us c e l m r h₁ h₂ ih₁ ih₂ =>
      have hin₁ := ih₁ (hroom.mono (by omega))
      have hin₂ := ih₂ (hroom.mono (by omega))
      apply located_node (.ifThen l m r h₁ h₂) hroom
      · rw [span_cons _ (by simp), span_append h₁.ne_nil (List.cons_ne_nil _ _), join_join,
          span_cons _ (by simp), join_join, join_span_concat]
        rfl
      · have hin := ((hin₁.sep (.then_, m) hin₂).before (.endif, r)).after (.if_, l)
        rw [List.append_assoc] at hin
        exact hin
  | @ifElse k₁ k₂ k₃ n₁ n₂ n₃ ts us vs c e e' l m m' r h₁ h₂ h₃ ih₁ ih₂ ih₃ =>
      have hin₁ := ih₁ (hroom.mono (by omega))
      have hin₂ := ih₂ (hroom.mono (by omega))
      have hin₃ := ih₃ (hroom.mono (by omega))
      apply located_node (.ifElse l m m' r h₁ h₂ h₃) hroom
      · rw [span_cons _ (by simp), span_append h₁.ne_nil (List.cons_ne_nil _ _), join_join,
          span_cons _ (by simp), join_join, span_append h₂.ne_nil (List.cons_ne_nil _ _), join_join,
          span_cons _ (by simp), join_join, join_span_concat]
        rfl
      · have hin := ((hin₁.sep (.then_, m) (hin₂.sep (.else_, m') hin₃)).before (.endif, r)).after
          (.if_, l)
        rw [List.append_assoc, List.cons_append, List.append_assoc] at hin
        exact hin
  | call l m r hfn h ih =>
      have hin := ih (hroom.mono (by omega))
      apply located_node (.call l m r hfn h) hroom
      · rw [span_cons _ (List.cons_ne_nil _ _), span_cons _ (by simp), join_join, join_span_concat]
        rfl
      · exact ((hin.before _).after _).after _
  | noArgs => exact located_nil _
  | firstArg h ih => exact ih hroom
  | nextArg m h₁ h₂ ih₁ ih₂ =>
      exact (ih₁ (hroom.mono (by omega))).sep _ (ih₂ (hroom.mono (by omega)))

/-! ## Scripts -/

/-- The place of the node is in the script, its arguments are inside it one after the other, and the
text there is parsed to the same expression. -/
structure ExactSpan (script : Bytes) (e : Expr) : Prop where
  start_le_stop : e.start ≤ e.stop
  stop_le_length : e.stop ≤ script.length
  inOrder : InOrder e.start (arguments e) e.stop
  parse_text : ∃ text e', slice script e.start (e.stop - e.start) = some text ∧
    parse text = .ok e' ∧ strip e' = strip e

/-- Part of a row of tokens, cut out of the script. -/
theorem parse_part {script text rest : Bytes} {ts us : List Lexeme} {k : Kind} {n : Nat} {e : Expr}
    (hscript : script = text ++ rest) (h : Lexes 0 ts text rest) (hus : us <:+: ts)
    (hder : Der (.expr k) n us [e]) (hroom : HasRoom n) :
    (span us).stop ≤ script.length ∧
      ∃ w e', slice script (span us).start ((span us).stop - (span us).start) = some w ∧
        parse w = .ok e' ∧ strip e' = strip e := by
  obtain ⟨before, after, rfl⟩ := hus
  obtain ⟨ab, c, rfl, hab, -⟩ := h.split
  obtain ⟨a, b, rfl, -, hb⟩ := hab.split
  -- the text of the part without the layout in front of it
  obtain ⟨lay, w, rfl, hstart, halone⟩ := hb.alone hder.ne_nil
  have hstop := hb.stop_eq hder.ne_nil
  rw [hscript, hstart, hstop]
  simp only [Nat.zero_add, List.length_append]
  refine ⟨by omega, w, moveExpr (span us).start e, ?_, ?_, strip_move _ e⟩
  · have hcut : a ++ (lay ++ w) ++ c ++ rest = (a ++ lay) ++ (w ++ (c ++ rest)) := by simp
    rw [hcut]
    apply slice_append
    · simp
    · omega
  · -- the same derivation, with the places counted from the start of the part
    have hparse := parse_of_lexes .nil halone (hder.move (span us).start) hroom
    rwa [List.append_nil] at hparse

/-- Every node of a script that is parsed has the span of its text. -/
theorem exactSpan_of_parse {script : Bytes} {root : Expr} (h : parse script = .ok root) {e : Expr}
    (he : Node e root) : ExactSpan script e := by
  obtain ⟨ts, k, n, text, rest, hscript, hlexes, hder, hroom⟩ := lexes_of_parse h
  obtain ⟨-, hnodes⟩ := located_of_der hder hroom _ _ (Nat.zero_le _) hlexes.placed
  obtain ⟨hin, us, k', n', e', hus, hder', hroom', hstrip, hspan⟩ :=
    hnodes root (List.mem_singleton_self root) e he
  obtain ⟨hstop, w, e'', hslice, hparse, hstrip'⟩ := parse_part hscript hlexes hus hder' hroom'
  rw [hspan] at hstop hslice
  exact ⟨hin.le, hstop, hin, w, e'', hslice, hparse, hstrip'.trans hstrip⟩

/-- The arguments are evaluated from their expressions, with the spans. -/
theorem getElem?_evalArgs (L : Libs) (script : Bytes) {argv : List Expr} {k : Nat} {a : Expr}
    (h : argv[k]? = some a) :
    (Expr.evalArgs L script argv)[k]? = some ⟨a.eval L script, a.start, a.stop⟩ := by
  rw [Expr.evalArgs_eq_map, List.getElem?_map, h]
  rfl

/-- The places of the nodes of a script are exact. A failing `assert` quotes the text of its
argument. -/
theorem parse_spans {script : Bytes} {root : Expr} (h : parse script = .ok root) {e : Expr}
    (he : Node e root) :
    ExactSpan script e ∧
      ∀ (L : Libs) (name : Name) (argv : List Expr) (start stop : Nat),
        e = .node .assert name argv start stop → ∀ (n k : Nat) (a : Expr), argv[k]? = some a →
          ∃ text a', slice script a.start (a.stop - a.start) = some text ∧
            parse text = .ok a' ∧ strip a' = strip a ∧
            assertLoop ⟨.assert, name, Expr.evalArgs L script argv, script⟩ (n + 1) k =
              Eval.orNull
                (Call.evaluate ⟨.assert, name, Expr.evalArgs L script argv, script⟩ k) fun v =>
                  if v ≠ [] then
                    assertLoop ⟨.assert, name, Expr.evalArgs L script argv, script⟩ n (k + 1)
                  else nullWith (cstr "assert failed: " ++ text) := by
  refine ⟨exactSpan_of_parse h he, ?_⟩
  rintro L name argv start stop rfl n k a ha
  have hnode : Node a root := he.argument (List.mem_of_getElem? ha)
  obtain ⟨text, a', hslice, hparse, hstrip⟩ := (exactSpan_of_parse h hnode).parse_text
  refine ⟨text, a', hslice, hparse, hstrip, ?_⟩
  rw [assertLoop]
  simp only [getElem?_evalArgs L script ha, Option.bind_some, hslice]

/-- `assert((a;))`: the text of the argument has the parentheses and the semicolon. -/
theorem parse_spans_assert :
    ∃ root a, parse [97, 115, 115, 101, 114, 116, 40, 40, 97, 59, 41, 41] = .ok root ∧
      root = .node .assert [97, 115, 115, 101, 114, 116] [a] 0 12 ∧ a.start = 7 ∧ a.stop = 11 ∧
      ExactSpan [97, 115, 115, 101, 114, 116, 40, 40, 97, 59, 41, 41] root := by
  have hparse : parse [97, 115, 115, 101, 114, 116, 40, 40, 97, 59, 41, 41] =
      .ok (.node .assert [97, 115, 115, 101, 114, 116] [.node .literal [97] [] 7 11] 0 12) := rfl
  exact ⟨_, _, hparse, rfl, rfl, rfl, (parse_spans hparse (.root _)).1⟩

end OpenRecovery.Edify
