import OpenRecovery.ApplyPatch.Completes
import OpenRecovery.Edify.Rules

/-!
# Scripts that patch files

The script of an update, from its text on: a row of messages and of asserted calls of `apply_patch`,
with the patches in the package. `updater` is the end of `main`, with the functions carried out on
the file system (`onFiles`).

A call of `apply_patch` in such a script is a call of `applypatch` (`under_applyPatchFn`), so a
script goes on after a statement exactly when the list of calls does. The rules for both kinds of
runs are one (`Served`, `meets_tree`): every text of the script is safe to cut off and to run again,
and a run that nothing interrupts finishes the update (`update_completes`).
-/

set_option autoImplicit false

namespace OpenRecovery.Updater

open OpenRecovery.Crash OpenRecovery.Edify OpenRecovery.Storage OpenRecovery.ApplyPatch

/-! ## The end of `main` -/

/-- The digests, unless one of them is a null pointer. -/
def digestStrings : List (Option Bytes × Value) → Option (List (Bytes × Option Value))
  | [] => some []
  | (sha1, patch) :: rest => do
      let sha1 ← sha1
      let rest ← digestStrings rest
      return (sha1, some patch) :: rest

/-- The calls of such scripts, carried out: the messages go nowhere, the package is its entries by
name, and a digest that is a null pointer is followed. -/
def onFiles (L : Libs) (package : Name → Option Bytes) : Handler Op Op.Res
  | .cmdPipe _ => .ret ()
  | .findZipEntry zipPath => .ret ((package zipPath).map fun data => (data.length : Int))
  | .extractToBuffer zipPath _ => .ret (package zipPath)
  | .applypatch source target sha1 size patches =>
      match digestStrings patches with
      | none => .halt
      | some patches => applypatch L ⟨source, target, sha1, size, patches⟩ >>= fun r => .ret (some r)
  | _ => .halt

/-- `main`, from the text of the script, which is a C string and has no NUL, to the exit status. -/
def updater (L : Libs) (package : Name → Option Bytes) (script : Bytes) : FsProg Nat :=
  match parse script with
  | .errors => return 6
  | .fault => .halt
  | .ok root => do
      let (result, errmsg) ← (root.evaluateRoot L script).under (onFiles L package) none
      (reportResult result errmsg).interp (onFiles L package)

/-! ## The scripts -/

def assertFunction : Registered := ⟨(cstr "assert", .assert), by decide⟩

def uiPrintFunction : Registered := ⟨(cstr "ui_print", .uiPrint), by decide⟩

def applyPatchFunction : Registered := ⟨(cstr "apply_patch", .applyPatch), by decide⟩

def packageExtractFileFunction : Registered :=
  ⟨(cstr "package_extract_file", .packageExtractFile), by decide⟩

/-- A digest with the name and the contents of a patch in the package. -/
structure PackedPatch where
  sha1 : Literal
  file : Literal
  content : Bytes

namespace PackedPatch

/-- `"<sha1>", package_extract_file("<file>")`. -/
def trees (e : PackedPatch) : List Tree :=
  [.lit e.sha1, .call packageExtractFileFunction [.lit e.file]]

/-- The values of the two arguments. -/
def values (e : PackedPatch) : List Value := [stringValue e.sha1.1, blobValue e.content]

/-- What `applypatch` gets. -/
def patch (e : PackedPatch) : Bytes × Option Value := (e.sha1.1, some (blobValue e.content))

end PackedPatch

/-- A call of `apply_patch` on files, with its patches in the package. -/
structure PatchStatement (L : Libs) (package : Name → Option Bytes) where
  call : FileCall L
  source : Literal
  target : Literal
  sha1 : Literal
  size : Literal
  patches : List PackedPatch
  args_eq : call.args =
    ⟨source.1, target.1, sha1.1, call.args.targetSize, patches.map PackedPatch.patch⟩
  size_eq : byteCount L.sizeBits size.1 = some call.args.targetSize
  packed : ∀ e ∈ patches, package e.file.1 = some e.content

/-- `ui_print("<text>")` and `assert(apply_patch(...))`. -/
inductive Statement (L : Libs) (package : Name → Option Bytes) where
  | message (text : Literal)
  | patch (p : PatchStatement L package)

variable {L : Libs} {package : Name → Option Bytes}

/-- The arguments of `apply_patch`. -/
def PatchStatement.arguments (p : PatchStatement L package) : List Tree :=
  [.lit p.source, .lit p.target, .lit p.sha1, .lit p.size] ++ p.patches.flatMap PackedPatch.trees

namespace Statement

def tree : Statement L package → Tree
  | message text => .call uiPrintFunction [.lit text]
  | patch p => .call assertFunction [.call applyPatchFunction p.arguments]

/-- The calls of `applypatch` it makes. -/
def calls : Statement L package → List (FileCall L)
  | message _ => []
  | patch p => [p.call]

end Statement

/-- The statements of an update, with the plan they carry out. -/
structure UpdateScript (L : Libs) where
  package : Name → Option Bytes
  first : Statement L package
  rest : List (Statement L package)
  plan : PatchPlan L
  calls_eq : plan.calls = (first :: rest).flatMap Statement.calls

/-- The statements with semicolons between them. -/
def UpdateScript.tree (U : UpdateScript L) : Tree :=
  U.rest.foldl (fun a st => .bin .seq a st.tree) U.first.tree

/-- Assertions of `apply_patch` are nested no deeper than this, however many patches they have. -/
theorem Statement.depth_tree (st : Statement L package) : st.tree.depth ≤ 10 := by
  cases st with
  | message text =>
      show (4 : Nat) ≤ 10
      decide
  | patch p =>
      have hlit : ∀ str : Literal, 2 + (Tree.lit str).depth ≤ 6 := by simp [Tree.depth]
      have hargs : ∀ a ∈ p.arguments, 2 + a.depth ≤ 6 := by
        intro a ha
        rcases List.mem_append.mp ha with ha | ha
        · simp only [List.mem_cons, List.not_mem_nil, or_false] at ha
          rcases ha with rfl | rfl | rfl | rfl <;> exact hlit _
        · obtain ⟨e, -, ha⟩ := List.mem_flatMap.mp ha
          simp only [PackedPatch.trees, List.mem_cons, List.not_mem_nil, or_false] at ha
          rcases ha with rfl | rfl
          · exact hlit _
          · simp [Tree.depth, Tree.depthArgs, Tree.depthRest]
      have hle := Tree.depthArgs_le hargs
      simp only [Statement.tree, Tree.depth, Tree.depthArgs, Tree.depthRest]
      omega

/-- A chain of statements leans to the left, so that its length does not count. -/
theorem depth_foldl {a : Tree} (rest : List (Statement L package)) (ha : a.depth ≤ 12)
    (hparens : a.needsParens (fun o => BinOp.seq.prec ≤ o.prec) = false) :
    (rest.foldl (fun a st => .bin .seq a st.tree) a).depth ≤ 12 := by
  induction rest generalizing a with
  | nil => exact ha
  | cons st rest ih =>
      have hcall : ∀ allowed, st.tree.needsParens allowed = false := by
        intro allowed
        cases st <;> rfl
      have hdepth := st.depth_tree
      refine ih ?_ rfl
      rw [Tree.depth, hparens, hcall, Tree.wrapDepth, Tree.wrapDepth]
      simp only [Bool.false_eq_true, if_false]
      omega

/-- An update has its places on the parser's stack. -/
theorem UpdateScript.hasRoom (U : UpdateScript L) (semi : Bool) :
    HasRoom (scriptDepth U.tree semi) := by
  have hfirst : ∀ allowed, U.first.tree.needsParens allowed = false := by
    intro allowed
    cases U.first <;> rfl
  have hle : U.tree.depth ≤ 12 :=
    depth_foldl U.rest (U.first.depth_tree.trans (by decide)) (hfirst _)
  have hroom : HasRoom 12 := by decide
  apply hroom.mono
  cases semi with
  | false => exact hle
  | true => exact Nat.max_le.mpr ⟨hle, by decide⟩

/-- A text of the script: any layout, any escapes, a semicolon at the end or not. No string is too
long for the scanner. -/
structure UpdateScript.IsText (U : UpdateScript L) (text : Bytes) : Prop where
  typeset : ∃ semi, Typeset (printScript U.tree semi) text
  short : ∀ str ∈ U.tree.literals, str.1.length < maxStringLen

/-! ## The functions, carried out -/

section Functions

variable {fn : Fn} {name : Name} {c : Call}

/-- The first arguments are literals. -/
theorem readArgs_literals {h : Handler Op Op.Res} {args rest : List Tree}
    (hc : CallOf L fn name args c) (lits : List Literal) (hargs : args = lits.map Tree.lit ++ rest)
    (m : Option Bytes) :
    (c.readArgs 0 lits.length).under h m = .ret (some (lits.map Subtype.val), m) := by
  have hgives : List.Forall₂ (fun a str => Gives h L a (stringValue str))
      ((args.drop 0).take (lits.map Subtype.val).length) (lits.map Subtype.val) := by
    rw [hargs, List.drop_zero, List.length_map, List.take_left' (List.length_map Tree.lit),
      List.forall₂_map_left_iff, List.forall₂_map_right_iff]
    exact List.forall₂_same.2 fun str _ => gives_lit str
  have hread := hc.readArgs_gives hgives m
  rwa [List.length_map] at hread

theorem interp_uiPrintLines (lines : List Bytes) :
    (uiPrintLines lines).interp (onFiles L package) = .ret () := by
  induction lines with
  | nil => rfl
  | cons line lines ih => exact ih

theorem interp_reportResult (result errmsg : Option Bytes) :
    (reportResult result errmsg).interp (onFiles L package) =
      .ret (if result.isSome then 0 else 7) := by
  cases result with
  | some _ => rfl
  | none =>
      cases errmsg with
      | none => rfl
      | some msg =>
          show (uiPrintLines (strtok newline msg) >>= fun _ => .ret 7).interp _ = _
          rw [Prog.interp_bind, interp_uiPrintLines]
          rfl

/-- The end of a function that reports no error. -/
theorem under_finish {h : Handler Op Op.Res} {p : OwnProg (Except Bytes Result)} {α : Type}
    {q : FsProg α} {v : α → Result} (hp : p.interp h = q >>= fun a => .ret (.ok (v a)))
    (m : Option Bytes) :
    (finish p).under h m = q >>= fun a => .ret (some (v a).value, m) := by
  rw [finish, under_bind, under_own, hp, Prog.bind_bind, Prog.bind_bind]
  rfl

/-- A message gives a string. -/
theorem gives_message (text : Literal) :
    Gives (onFiles L package) L (.call uiPrintFunction [.lit text])
      (stringValue (firstLine text.1)) := by
  intro script e he m
  obtain ⟨c, heval, hc⟩ := callOf_of_strip he
  have hargs : (c.readArgs 0 1).under (onFiles L package) m = .ret (some [text.1], m) :=
    readArgs_literals hc [text] (List.append_nil _).symm m
  have hprint : (uiPrintLines (strtok newline [text.1].flatten) >>= fun _ =>
      (.ret (.ok (.string (firstLine [text.1].flatten))) : OwnProg (Except Bytes Result))).interp
        (onFiles L package) =
      (.ret () : FsProg Unit) >>= fun _ => .ret (.ok (.string (firstLine [text.1].flatten))) := by
    rw [Prog.interp_bind, interp_uiPrintLines]
    rfl
  have hflatten : [text.1].flatten = text.1 := List.flatten_singleton
  rw [heval, run, hc.fn_eq]
  show (uiPrintFn c).under _ _ = _
  rw [uiPrintFn, withArgs, hc.argc_eq]
  show (Eval.orNull (c.readArgs 0 1) _).under _ _ = _
  rw [under_orNull, hargs, Prog.ret_bind, Option.elim_some]
  refine (under_finish hprint m).trans ?_
  rw [hflatten]
  rfl

/-- A patch comes out of the package. -/
theorem gives_packed {e : PackedPatch} (hfile : package e.file.1 = some e.content) :
    Gives (onFiles L package) L (.call packageExtractFileFunction [.lit e.file])
      (blobValue e.content) := by
  intro script e' he m
  obtain ⟨c, heval, hc⟩ := callOf_of_strip he
  have hargs : (c.readArgs 0 1).under (onFiles L package) m = .ret (some [e.file.1], m) :=
    readArgs_literals hc [e.file] (List.append_nil _).symm m
  have hblob : (extractBlob e.file.1).interp (onFiles L package) =
      .ret (.blob e.content.length (some e.content)) := by
    show (Prog.ret _).bind _ = _
    rw [hfile]
    show Prog.ret (Result.blob _ (package e.file.1)) = _
    rw [hfile]
    rfl
  rw [heval, run, hc.fn_eq]
  show (packageExtractFileFn c).under _ _ = _
  rw [packageExtractFileFn, hc.argc_eq, if_neg (by simp), if_neg (by simp), withArgs, under_orNull,
    hargs, Prog.ret_bind, Option.elim_some]
  have hreturn : (extractBlob e.file.1 >>= fun blob =>
      (.ret (.ok blob) : OwnProg (Except Bytes Result))).interp (onFiles L package) =
      (.ret () : FsProg Unit) >>= fun _ => .ret (.ok (.blob e.content.length (some e.content))) := by
    rw [Prog.interp_bind, hblob]
    rfl
  exact under_finish hreturn m

/-! ### `apply_patch` -/

theorem digestStrings_patches (patches : List PackedPatch) :
    digestStrings (patches.map fun e => (some e.sha1.1, blobValue e.content)) =
      some (patches.map PackedPatch.patch) := by
  induction patches with
  | nil => rfl
  | cons e patches ih =>
      rw [List.map_cons, digestStrings, ih]
      rfl

theorem patchPairs_values (i : Nat) (patches : List PackedPatch) :
    patchPairs name i (patches.flatMap PackedPatch.values) =
      .ok (patches.map fun e => (some e.sha1.1, blobValue e.content)) := by
  induction patches generalizing i with
  | nil => rfl
  | cons e patches ih =>
      show (patchPairs name (i + 1) (patches.flatMap PackedPatch.values)).map _ = _
      rw [ih]
      rfl

theorem gives_trees {patches : List PackedPatch}
    (hpacked : ∀ e ∈ patches, package e.file.1 = some e.content) :
    List.Forall₂ (Gives (onFiles L package) L) (patches.flatMap PackedPatch.trees)
      (patches.flatMap PackedPatch.values) := by
  induction patches with
  | nil => exact .nil
  | cons e patches ih =>
      refine .cons (gives_lit e.sha1) (.cons (gives_packed (hpacked e List.mem_cons_self)) ?_)
      exact ih fun e' he' => hpacked e' (List.mem_cons_of_mem e he')

namespace PatchStatement

variable (p : PatchStatement L package)

theorem length_arguments : p.arguments.length = 4 + 2 * p.patches.length := by
  rw [arguments, List.length_append, List.length_flatMap]
  simp [PackedPatch.trees, Nat.mul_comm]

/-- There is a patch for the source. -/
theorem patches_pos : 0 < p.patches.length := by
  by_contra hnone
  have hnil : p.patches = [] := List.length_eq_zero_iff.1 (by omega)
  have hlisted := p.call.listed
  rw [p.args_eq, hnil] at hlisted
  cases hlisted

theorem interp_runApplypatch :
    (runApplypatch p.source.1 p.target.1 p.sha1.1 p.call.args.targetSize
      (p.patches.map fun e => (some e.sha1.1, blobValue e.content))).interp (onFiles L package) =
      applypatch L p.call.args >>= fun r => .ret (.ok (.bool (r = 0))) := by
  have hcall : onFiles L package (.applypatch p.source.1 p.target.1 p.sha1.1 p.call.args.targetSize
      (p.patches.map fun e => (some e.sha1.1, blobValue e.content))) =
      applypatch L p.call.args >>= fun r => .ret (some r) := by
    rw [onFiles, digestStrings_patches]
    simp only
    rw [← p.args_eq]
    rfl
  have hanswer : ∀ q : FsProg (Option Int), q = (applypatch L p.call.args >>= fun r => .ret (some r)) →
      (q >>= fun r => (r.elim .halt fun r => .ret (.ok (.bool (r = 0))) :
        OwnProg (Except Bytes Result)).interp (onFiles L package)) =
        applypatch L p.call.args >>= fun r => .ret (.ok (.bool (r = 0))) := by
    rintro _ rfl
    rw [Prog.bind_bind]
    rfl
  refine Eq.trans (congrArg (Prog.bind (onFiles L package _)) (funext fun r => ?_))
    (hanswer _ hcall)
  change Option Int at r
  cases r with
  | none => rfl
  | some r => rfl

/-- A call of `apply_patch` is the call of `applypatch`. -/
theorem under_applyPatchFn (hc : CallOf L fn name p.arguments c) (m : Option Bytes) :
    (applyPatchFn L.sizeBits c).under (onFiles L package) m =
      applypatch L p.call.args >>= fun r =>
        .ret (some (stringValue (if r = 0 then cstr "t" else [])), m) := by
  have hargc : c.argc = 4 + 2 * p.patches.length := hc.argc_eq.trans p.length_arguments
  have hpos := p.patches_pos
  have hread : (c.readArgs 0 4).under (onFiles L package) m =
      .ret (some [p.source.1, p.target.1, p.sha1.1, p.size.1], m) :=
    readArgs_literals hc [p.source, p.target, p.sha1, p.size] rfl m
  have hvalues : (c.readValues 4 (c.argc - 4)).under (onFiles L package) m =
      .ret (some (p.patches.flatMap PackedPatch.values), m) := by
    have hgives := gives_trees (L := L) p.packed
    have hlen : (p.patches.flatMap PackedPatch.values).length = c.argc - 4 := by
      rw [← hgives.length_eq, hargc]
      have hlength := p.length_arguments
      rw [arguments, List.length_append] at hlength
      exact (Nat.add_left_cancel hlength).trans (by omega)
    rw [← hlen]
    apply hc.readValues_gives
    show List.Forall₂ _ ((p.patches.flatMap PackedPatch.trees).take _) _
    rw [← hgives.length_eq, List.take_length]
    exact hgives
  rw [applyPatchFn, if_neg (by omega), under_orNull, hread, Prog.ret_bind, Option.elim_some]
  simp only [applyPatchRest, p.size_eq]
  rw [under_bind, hvalues, Prog.ret_bind]
  simp only [applyPatchValues, patchPairs_values]
  rw [under_finish p.interp_runApplypatch]
  congr 1
  funext r
  by_cases hr : r = 0
  · rw [if_pos hr, hr]
    rfl
  · rw [if_neg hr, Result.bool, decide_eq_false hr]
    rfl

end PatchStatement

end Functions

/-! ## The statements -/

section Statements

variable {J : ProgLogic Fs Op Op.Res} {A : Fs → Prop}

/-- A call between others that are done keeps the invariant of the plan, and is done if it returns
zero; if it does not, or if the process dies, the state meets `A`. -/
structure Served (J : ProgLogic Fs Op Op.Res) (P : PatchPlan L) (A : Fs → Prop) : Prop where
  call : ∀ before c after, P.calls = before ++ c :: after → ∀ s, P.Secured s →
    (∀ d ∈ before, d.Done s) → J.Holds (fun r t =>
      if r = 0 then P.Secured t ∧ ∀ d ∈ before ++ [c], d.Done t else A t) (applypatch L c.args) s
  dies : ∀ s, A s → J.Dies s

/-- The invariant of the plan, with some calls done. -/
structure Reached (P : PatchPlan L) (done : List (FileCall L)) (s : Fs) : Prop where
  secured : P.Secured s
  done : ∀ d ∈ done, d.Done s

theorem PatchStatement.meets_tree (p : PatchStatement L package) {P R : Fs → Prop}
    (hcall : ∀ s, P s → J.Holds (fun r t => if r = 0 then R t else A t) (applypatch L p.call.args) s)
    (hdies : ∀ s, A s → J.Dies s) :
    Meets J (onFiles L package) L P (Statement.patch p).tree (IsString fun _ => R) A := by
  have hpatch : Meets J (onFiles L package) L P (.call applyPatchFunction p.arguments)
      (IsString fun str s => if str = [] then A s else R s) A := by
    refine meets_of_call rfl fun c hc => ?_
    rw [show run L c = applyPatchFn L.sizeBits c by rw [run, hc.fn_eq]; rfl]
    intro m s hs
    rw [p.under_applyPatchFn hc m]
    refine J.seq (hcall s hs) fun r t ht => J.ret.2 ⟨_, rfl, ?_⟩
    by_cases hr : r = 0
    · rw [if_pos hr] at ht
      rw [if_pos hr, if_neg (by decide)]
      exact ht
    · rw [if_neg hr] at ht
      rw [if_neg hr, if_pos rfl]
      exact ht
  refine meets_assert rfl hpatch ?_ ?_
  · intro str s hne hs
    rw [if_neg hne] at hs
    exact ⟨[], rfl, hs⟩
  · intro s hs
    rw [if_pos rfl] at hs
    exact ⟨hs, hdies s hs⟩

/-- One statement. -/
theorem Statement.meets_tree {P : PatchPlan L} (h : Served J P A) (st : Statement L package)
    {before after : List (FileCall L)} (hsplit : P.calls = before ++ (st.calls ++ after)) :
    Meets J (onFiles L package) L (Reached P before) st.tree
      (IsString fun _ => Reached P (before ++ st.calls)) A := by
  cases st with
  | message text =>
      intro script e he m s hs
      rw [gives_message text script e he m]
      exact J.ret.2 ⟨_, rfl, by rwa [calls, List.append_nil]⟩
  | patch p =>
      refine p.meets_tree (fun s hs => ?_) h.dies
      refine J.mono (fun r t ht => ?_) (h.call before p.call after hsplit s hs.secured hs.done)
      by_cases hr : r = 0
      · rw [if_pos hr] at ht ⊢
        exact ⟨ht.1, ht.2⟩
      · rwa [if_neg hr] at ht ⊢

/-- The statements after the ones in `a`. -/
theorem meets_foldl {P : PatchPlan L} (h : Served J P A) {R : Fs → Prop} {a : Tree}
    {before : List (FileCall L)} {rest : List (Statement L package)}
    (ha : Meets J (onFiles L package) L R a (IsString fun _ => Reached P before) A)
    (hsplit : P.calls = before ++ rest.flatMap Statement.calls) :
    Meets J (onFiles L package) L R (rest.foldl (fun a st => .bin .seq a st.tree) a)
      (IsString fun _ => Reached P P.calls) A := by
  -- induction on the statements that follow, with the calls before them done
  induction rest generalizing a before with
  | nil =>
      rw [List.flatMap_nil, List.append_nil] at hsplit
      rw [hsplit]
      exact ha
  | cons st rest ih =>
      rw [List.flatMap_cons] at hsplit
      refine ih (meets_seq (ha.weaken (fun _ hs => hs) ?_ fun _ hs => hs)
        (st.meets_tree h hsplit)) (hsplit.trans (List.append_assoc _ _ _).symm)
      rintro _ s ⟨_, -, hs⟩
      exact hs

variable (U : UpdateScript L)

theorem UpdateScript.meets_tree (h : Served J U.plan A) :
    Meets J (onFiles L U.package) L (Reached U.plan []) U.tree
      (IsString fun _ => Reached U.plan U.plan.calls) A := by
  have hsplit := U.calls_eq
  rw [List.flatMap_cons] at hsplit
  have hfirst : Meets J (onFiles L U.package) L (Reached U.plan []) U.first.tree
      (IsString fun _ => Reached U.plan U.first.calls) A := U.first.meets_tree h hsplit
  exact meets_foldl h hfirst hsplit

/-- The whole run, from the text. -/
theorem UpdateScript.holds_updater (h : Served J U.plan A) {text : Bytes} (htext : U.IsText text)
    {s : Fs} (hs : U.plan.Secured s) :
    J.Holds (fun status t => if status = 0 then Reached U.plan U.plan.calls t else A t)
      (updater L U.package text) s := by
  obtain ⟨semi, htypeset⟩ := htext.typeset
  obtain ⟨root, hparse, hstrip⟩ := parse_typeset htypeset htext.short (U.hasRoom semi)
  rw [updater, hparse]
  have hstart : Reached U.plan [] s := ⟨hs, by rintro d ⟨⟩⟩
  refine J.seq (triple_evaluate (U.meets_tree h text root hstrip) none s hstart) ?_
  rintro ⟨result, errmsg⟩ t ht
  show J.Holds _ ((reportResult result errmsg).interp _) t
  rw [interp_reportResult]
  cases result with
  | none => exact J.ret.2 ht
  | some str => exact J.ret.2 ht

end Statements

/-! ## The update -/

/-- The rules for runs that may be cut off. -/
theorem served_safely (P : PatchPlan L) : Served (.safely fsMachine P.Secured) P P.Secured where
  call _ _ _ hsplit s hs hdone := by
    refine wp_mono ?_ (fun _ h => h) (P.wp_call hsplit hs hdone)
    rintro r t ⟨hst, hzero⟩
    by_cases hr : r = 0
    · rw [if_pos hr]
      exact ⟨hst, hzero hr⟩
    · rwa [if_neg hr]
  dies _ hs _ _ := hs

/-- The rules for runs that nothing interrupts. -/
theorem served_returning (P : PatchPlan L) {k : Nat} (hk : k < 2 ^ L.sizeBits)
    (hroom : ∀ c ∈ P.calls, toSize L c.S.length ≤ k) :
    Served (.returning (roomyMachine L.sizeBits k)) P fun _ => False where
  call _ c _ hsplit s hs hdone := by
    have hc : c ∈ P.calls := by
      rw [hsplit]
      exact List.mem_append_right _ List.mem_cons_self
    refine returns_mono ?_ (P.returns_call hk hsplit (hroom c hc) hs hdone)
    rintro r t ⟨hr, hst, hdone⟩
    rw [if_pos hr]
    exact ⟨hst, hdone⟩
  dies _ hs := hs.elim

/-- However often a script of patches is cut off and started again, whatever its text looks like,
the contents of every call are at its target, at its source, or in the saved copy, and the next run
that nothing interrupts, with room on `/cache` for each source, exits with zero and every target
patched. -/
theorem update_completes (U : UpdateScript L) (text : Bytes) (htext : U.IsText text) (s₀ s : Fs)
    (h₀ : ∀ c ∈ U.plan.calls, s₀.Holds c.source c.S)
    (h : Reachable fsMachine (updater L U.package text) s₀ s) :
    (∀ c ∈ U.plan.calls,
      s.Holds c.target c.T ∨ s.Holds c.source c.S ∨ s.Holds cacheTempSource c.S) ∧
    ∀ k, k < 2 ^ L.sizeBits → (∀ c ∈ U.plan.calls, toSize L c.S.length ≤ k) →
      Returns (roomyMachine L.sizeBits k) (fun status t => status = 0 ∧ ∀ c ∈ U.plan.calls, c.Done t)
        (updater L U.package text) s := by
  have hs : U.plan.Secured s := by
    refine h.invariant U.plan.Secured (.inl fun c hc => .inl (h₀ c hc)) ?_
    intro t ht _
    refine wp_mono ?_ (fun _ h => h) (U.holds_updater (served_safely U.plan) htext ht)
    intro status u hu
    by_cases hstatus : status = 0
    · rw [if_pos hstatus] at hu
      exact hu.secured
    · rwa [if_neg hstatus] at hu
  refine ⟨fun c hc => hs.recoverable hc, fun k hk hroom => ?_⟩
  refine returns_mono ?_ (U.holds_updater (served_returning U.plan hk hroom) htext hs)
  intro status u hu
  by_cases hstatus : status = 0
  · rw [if_pos hstatus] at hu
    exact ⟨hstatus, hu.done⟩
  · rw [if_neg hstatus] at hu
    exact hu.elim

namespace Sample

open OpenRecovery.ApplyPatch.Sample

/-- The text of a row of tokens with nothing between them and no escapes. -/
def compact : List Edify.Piece → Bytes
  | [] => []
  | .literal str :: ps => 34 :: (str.1 ++ [34]) ++ compact ps
  | .fixed _ w :: ps => w ++ compact ps

/-- No byte of a literal needs an escape, and no words run together. -/
def isCompact : List Edify.Piece → Bool
  | [] => true
  | .literal str :: ps => str.1.all (fun b => b ≠ 34 && b ≠ 92) && isCompact ps
  | .fixed t w :: ps =>
      (!(Edify.Piece.fixed t w).isWord || (compact ps).head?.all fun c => !isWord c) && isCompact ps

theorem encodes_raw {str : Bytes} (h : str.all (fun b => b ≠ 34 && b ≠ 92) = true) :
    Encodes str str := by
  induction str with
  | nil => exact .nil
  | cons b str ih =>
      rw [List.all_cons, Bool.and_eq_true, Bool.and_eq_true, decide_eq_true_eq, decide_eq_true_eq] at h
      exact .cons (.raw h.1.1 h.1.2) (ih h.2)

theorem typeset_compact {ps : List Edify.Piece} (h : isCompact ps = true) :
    Typeset ps (compact ps) := by
  induction ps with
  | nil => exact .nil .nil
  | cons p ps ih =>
      cases p with
      | literal str =>
          rw [isCompact, Bool.and_eq_true] at h
          exact .cons .nil (.literal (encodes_raw h.1)) (by rintro ⟨⟩) (ih h.2)
      | fixed t w =>
          rw [isCompact, Bool.and_eq_true, Bool.or_eq_true, Bool.not_eq_true', Option.all_eq_true] at h
          refine .cons .nil (.fixed t w) (fun hword c hc => ?_) (ih h.2)
          rcases h.1 with hnot | hsep
          · rw [hword] at hnot
            cases hnot
          · exact (Bool.not_eq_true' _).mp (hsep c hc)

/-- A package with the two patches. -/
def patches (n : Name) : Option Bytes :=
  if n = cstr "x.p" then (rawPatch (cstr "b")).data
  else if n = cstr "y.p" then (rawPatch (cstr "d")).data
  else none

/-- `assert(apply_patch("/system/x","-","<sha1 of b>","1","<sha1 of a>",...))`. -/
def patchX : PatchStatement libs patches where
  call := callX
  source := ⟨cstr "/system/x", by decide⟩
  target := ⟨cstr "-", by decide⟩
  sha1 := ⟨hex (cstr "b"), by decide⟩
  size := ⟨cstr "1", by decide⟩
  patches := [⟨⟨hex (cstr "a"), by decide⟩, ⟨cstr "x.p", by decide⟩,
    cstr "IMGDIFF2" ++ write4 1 ++ write4 3 ++ write4 1 ++ cstr "b"⟩]
  args_eq := rfl
  size_eq := by decide
  packed := by decide

/-- The same for `/system/y`, from `c` to `d`. -/
def patchY : PatchStatement libs patches where
  call := callY
  source := ⟨cstr "/system/y", by decide⟩
  target := ⟨cstr "-", by decide⟩
  sha1 := ⟨hex (cstr "d"), by decide⟩
  size := ⟨cstr "1", by decide⟩
  patches := [⟨⟨hex (cstr "c"), by decide⟩, ⟨cstr "y.p", by decide⟩,
    cstr "IMGDIFF2" ++ write4 1 ++ write4 3 ++ write4 1 ++ cstr "d"⟩]
  args_eq := rfl
  size_eq := by decide
  packed := by decide

/-- `ui_print("Patching system files...")`. -/
def greeting : Statement libs patches :=
  .message ⟨cstr "Patching system files...", by decide⟩

theorem calls_statements :
    plan.calls = (greeting :: [.patch patchX, .patch patchY]).flatMap Statement.calls := rfl

/-- A message and both patches. -/
def script : UpdateScript libs where
  package := patches
  first := greeting
  rest := [.patch patchX, .patch patchY]
  plan := plan
  calls_eq := calls_statements

/-- Its text without blanks. -/
def scriptText : Bytes := compact (printScript script.tree true)

theorem isText_scriptText : script.IsText scriptText where
  typeset := ⟨true, typeset_compact (by decide +kernel)⟩
  short := by decide +kernel

/-- The state after a crash right after the first source was unlinked. -/
def scriptCrashed : Fs :=
  (exec fsMachine crashAfterUnlink 0 start (updater libs script.package scriptText)).1

/-- After a crash of the script the first file exists under neither name. -/
theorem exists_crashed : ∃ text s, script.IsText text ∧
    Reachable fsMachine (updater libs script.package text) start s ∧
    s.files (cstr "/system/x") = none := by
  have hfile : scriptCrashed.files (cstr "/system/x") = none := by decide +kernel
  exact ⟨scriptText, scriptCrashed, isText_scriptText, .rerun .start trivial
    (exec_run crashAfterUnlink_possible (updater libs script.package scriptText) 0 start), hfile⟩

/-- One more run of the script patches both. -/
theorem update_completes_crashed : ∃ text s, script.IsText text ∧
    s.files (cstr "/system/x") = none ∧
    (∀ c ∈ script.plan.calls,
      s.Holds c.target c.T ∨ s.Holds c.source c.S ∨ s.Holds cacheTempSource c.S) ∧
    Returns (roomyMachine libs.sizeBits 1)
      (fun status t => status = 0 ∧ ∀ c ∈ script.plan.calls, c.Done t)
      (updater libs script.package text) s := by
  have hcalls : ∀ c ∈ script.plan.calls, start.Holds c.source c.S ∧ toSize libs c.S.length ≤ 1 := by
    intro c hc
    simp only [script, plan, List.mem_cons, List.not_mem_nil, or_false] at hc
    rcases hc with rfl | rfl
    · exact ⟨⟨⟨cstr "a", ⟨0o644, 0, 0⟩⟩, by decide, rfl⟩, by decide⟩
    · exact ⟨⟨⟨cstr "c", ⟨0o644, 0, 0⟩⟩, by decide, rfl⟩, by decide⟩
  obtain ⟨text, s, htext, hreach, hfile⟩ := exists_crashed
  have h := update_completes script text htext start s (fun c hc => (hcalls c hc).1) hreach
  exact ⟨text, s, htext, hfile, h.1, h.2 1 (by decide) fun c hc => (hcalls c hc).2⟩

end Sample

end OpenRecovery.Updater
