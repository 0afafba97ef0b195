import OpenRecovery.ApplyPatch.Check
import OpenRecovery.ApplyPatch.Completes
import OpenRecovery.ApplyPatch.Frame
import OpenRecovery.ApplyPatch.FreeSpace
import OpenRecovery.Updater.DigestStrings

/-!
# The `applypatch` command

`applypatch/main.c`: `main` with its modes, and `ParsePatchArgs`, which reads the patches from files
named on the command line. The texts it prints are left out.

A `Command` is a command line for a `FileCall`: on a file system on which the patch files hold the
listed patches (`Stocked`) it does what the call does. A `Session` is a list of commands that are
run one after the other up to the first that fails. The patch files are among the files no call of
the session touches, so every run of the session is one of the calls, and what `CrashSafety` and
`Completes` say about the calls holds for the commands (`session_completes`).
-/

set_option autoImplicit false

namespace OpenRecovery.ApplyPatch

open OpenRecovery.Crash OpenRecovery.Edify OpenRecovery.Storage

/-! ## main.c -/

/-- `CheckMode`. -/
def checkMode (L : Libs) : List Bytes → FsProg Int
  | _ :: _ :: filename :: sha1s => applypatchCheck L filename sha1s
  | _ => return 2

/-- `SpaceMode`. -/
def spaceMode (L : Libs) : List Bytes → FsProg Int
  | [_, _, str] =>
      let (bytes, endptr) := strtol L.sizeBits str
      if toSize L bytes = 0 ∧ endptr = str then return 1 else cacheSizeCheck L (toSize L bytes)
  | _ => return 2

/-- `ParsePatchArgs`: the digests with their patches; `none` is the error return. -/
def parsePatchArgs (L : Libs) : List Bytes → FsProg (Option (List (Bytes × Option Value)))
  | [] => return some []
  | arg :: args => do
      let sha1 := arg.takeWhile (· ≠ colon)
      if parseSha1 sha1 = none then return none
      match arg.dropWhile (· ≠ colon) with
      | [] => do
          let rest ← parsePatchArgs L args
          return rest.map ((sha1, none) :: ·)
      | _ :: filename => do
          let fc ← sysUninit
          let (r, fc) ← loadFileContents L filename fc false
          if r ≠ 0 then return none
          let rest ← parsePatchArgs L args
          return rest.map ((sha1, some ⟨.blob, fc.size, fc.data⟩) :: ·)

/-- `PatchMode`. -/
def patchMode (L : Libs) : List Bytes → FsProg Int
  | _ :: source :: target :: targetSha1 :: size :: arg :: args => do
      let (targetSize, endptr) := strtol L.sizeBits size
      if toSize L targetSize = 0 ∧ endptr = size then return 1
      match ← parsePatchArgs L (arg :: args) with
      | none => return 1
      | some patches => applypatch L ⟨source, target, targetSha1, toSize L targetSize, patches⟩
  | _ => return 2

/-- `main`. A result of 2 also prints the usage. -/
def main (L : Libs) : List Bytes → FsProg Int
  | argv0 :: argv1 :: args =>
      if argv1 = cstr "-l" then return 0
      else if argv1 = cstr "-c" then checkMode L (argv0 :: argv1 :: args)
      else if argv1 = cstr "-s" then spaceMode L (argv0 :: argv1 :: args)
      else patchMode L (argv0 :: argv1 :: args)
  | _ => return 2

/-! ## Patches on the command line -/

/-- An argument `<sha1>` or `<sha1>:<file>`, with the contents of the file. -/
structure PatchEntry where
  sha1 : Bytes
  file : Option (Name × Bytes)

namespace PatchEntry

/-- The argument. -/
def arg (e : PatchEntry) : Bytes := e.sha1 ++ e.file.elim [] fun p => colon :: p.1

/-- What `ParsePatchArgs` makes of it. -/
def value (e : PatchEntry) : Bytes × Option Value := (e.sha1, e.file.map fun p => blobValue p.2)

/-- The digest is one, and the patch is in a file. -/
structure Valid (e : PatchEntry) : Prop where
  digest : parseSha1 e.sha1 ≠ none
  isFile : ∀ p ∈ e.file, isEmmc p.1 = false

/-- The patch file is there. -/
def Stocked (e : PatchEntry) (s : Fs) : Prop := ∀ p ∈ e.file, s.Holds p.1 p.2

theorem colon_notMem {str : Bytes} (h : parseSha1 str ≠ none) : colon ∉ str := by
  have hdigits := (Updater.parseHexPairs_isSome.mp (Option.isSome_iff_ne_none.mpr h)).2
  intro hc
  exact absurd (hdigits colon hc) (by unfold Updater.IsHexDigit; decide)

theorem Valid.takeWhile_arg {e : PatchEntry} (h : e.Valid) :
    e.arg.takeWhile (· ≠ colon) = e.sha1 := by
  have hall : ∀ c ∈ e.sha1, decide (c ≠ colon) = true := fun c hc =>
    decide_eq_true fun heq => colon_notMem h.digest (heq ▸ hc)
  unfold arg
  rw [List.takeWhile_append_of_pos hall]
  cases e.file with
  | none => exact List.append_nil _
  | some p =>
      rw [Option.elim_some, List.takeWhile_cons_of_neg (by decide)]
      exact List.append_nil _

theorem Valid.dropWhile_arg {e : PatchEntry} (h : e.Valid) :
    e.arg.dropWhile (· ≠ colon) = e.file.elim [] fun p => colon :: p.1 := by
  have hall : ∀ c ∈ e.sha1, decide (c ≠ colon) = true := fun c hc =>
    decide_eq_true fun heq => colon_notMem h.digest (heq ▸ hc)
  unfold arg
  rw [List.dropWhile_append_of_pos hall]
  cases e.file with
  | none => rfl
  | some p => rw [Option.elim_some, List.dropWhile_cons_of_neg (by decide)]

end PatchEntry

/-! ## Reading the patches -/

section Parsing

variable {L : Libs} {s : Fs} {α β : Type}

/-- Whatever the uninitialised locals hold, the program only reads files and returns `a`. -/
inductive Reads (s : Fs) (a : α) : FsProg α → Prop
  | ret : Reads s a (.ret a)
  | uninit {k : FileContents → FsProg α} : (∀ f, Reads s a (k f)) → Reads s a (.op .uninit k)
  | load {n : Name} {k : Option Node → FsProg α} :
      Reads s a (k (s.files n)) → Reads s a (.op (.load n) k)

theorem Reads.bind {a : α} {b : β} {p : FsProg α} {f : α → FsProg β} (hp : Reads s a p)
    (hf : Reads s b (f a)) : Reads s b (p >>= f) := by
  induction hp with
  | ret => exact hf
  | uninit _ ih => exact .uninit ih
  | load _ ih => exact .load ih

theorem Reads.wp {a : α} {p : FsProg α} (hp : Reads s a p) {Q : α → Fs → Prop} {C : Fs → Prop}
    (hC : C s) (hQ : Q a s) : wp fsMachine Q C p s := by
  induction hp with
  | ret => exact hQ
  | uninit _ ih => exact ⟨hC, fun _ ht => absurd ht id, fun r _ => ih r⟩
  | load _ ih =>
      refine ⟨hC, fun _ ht => absurd ht id, ?_⟩
      rintro r rfl
      exact ih

theorem Reads.returns {k : Nat} {a : α} {p : FsProg α} (hp : Reads s a p) {Q : α → Fs → Prop}
    (hQ : Q a s) : Returns (roomyMachine L.sizeBits k) Q p s := by
  induction hp with
  | ret => exact hQ
  | uninit _ ih => exact ⟨⟨⟨[], none, 0, newStat⟩, trivial, trivial⟩, fun r _ => ih r⟩
  | load _ ih =>
      refine ⟨⟨_, rfl, trivial⟩, ?_⟩
      rintro r ⟨rfl, -⟩
      exact ih

/-- Loading a patch file gives its bytes. -/
theorem reads_loadFileContents {n : Name} (hn : isEmmc n = false) {d : Bytes} (h : s.Holds n d)
    (file : FileContents) :
    ∃ st, Reads s (0, ⟨L.sha1 d, some d, d.length, st⟩) (loadFileContents L n file false) := by
  obtain ⟨f, hf, rfl⟩ := h
  refine ⟨f.st, ?_⟩
  rw [loadFileContents_eq L hn]
  refine .load ?_
  rw [hf]
  exact .ret

theorem reads_parsePatchArgs {es : List PatchEntry} (hvalid : ∀ e ∈ es, e.Valid)
    (hs : ∀ e ∈ es, e.Stocked s) :
    Reads s (some (es.map PatchEntry.value)) (parsePatchArgs L (es.map PatchEntry.arg)) := by
  induction es with
  | nil => exact .ret
  | cons e es ih =>
      have he := hvalid e List.mem_cons_self
      have hfile := hs e List.mem_cons_self
      have hrest := ih (fun e h => hvalid e (List.mem_cons_of_mem _ h))
        fun e h => hs e (List.mem_cons_of_mem _ h)
      have hisFile := he.isFile
      simp only [List.map_cons, parsePatchArgs, he.takeWhile_arg, he.digest, if_false,
        he.dropWhile_arg, PatchEntry.value]
      unfold PatchEntry.Stocked at hfile
      cases hp : e.file with
      | none => exact hrest.bind .ret
      | some p =>
          rw [hp] at hfile hisFile
          refine .uninit fun fc => ?_
          obtain ⟨st, hst⟩ := reads_loadFileContents (L := L) (hisFile p rfl) (hfile p rfl) fc
          exact hst.bind (hrest.bind .ret)

end Parsing

/-! ## One command -/

/-- A command line for a call. -/
structure Command (L : Libs) where
  call : FileCall L
  program : Bytes
  size : Bytes
  entries : List PatchEntry
  patches_eq : call.args.patches = entries.map PatchEntry.value
  targetSize_eq : call.args.targetSize = toSize L (strtol L.sizeBits size).1
  size_isNumber : (strtol L.sizeBits size).2 ≠ size
  valid : ∀ e ∈ entries, e.Valid
  no_flag : call.source ∉ [cstr "-l", cstr "-c", cstr "-s"]

namespace Command

variable {L : Libs} (c : Command L)

/-- `argv`. -/
def argv : List Bytes :=
  c.program :: c.call.args.sourceFilename :: c.call.args.targetFilename ::
    c.call.args.targetSha1Str :: c.size :: c.entries.map PatchEntry.arg

/-- The patch files of the command are there. -/
def Stocked (s : Fs) : Prop := ∀ e ∈ c.entries, e.Stocked s

/-- A command that makes a call lists a patch. -/
theorem entries_ne_nil : c.entries ≠ [] := by
  intro hnil
  have hlisted := c.call.listed
  rw [PatchArgs.patchFor, c.patches_eq, hnil] at hlisted
  cases hlisted

/-- The command reads its patches and makes the call. -/
theorem main_eq : main L c.argv = (do
    match ← parsePatchArgs L (c.entries.map PatchEntry.arg) with
    | none => return 1
    | some patches => applypatch L { c.call.args with patches := patches }) := by
  have hflag := c.no_flag
  simp only [FileCall.source, List.mem_cons, List.not_mem_nil, or_false, not_or] at hflag
  obtain ⟨hl, hc, hs⟩ := hflag
  have hnum : ¬ (toSize L (strtol L.sizeBits c.size).1 = 0 ∧ (strtol L.sizeBits c.size).2 = c.size) :=
    fun h => c.size_isNumber h.2
  obtain ⟨e, es, hes⟩ := List.exists_cons_of_ne_nil c.entries_ne_nil
  simp only [main, argv, hl, hc, hs, if_false, hes, List.map_cons, patchMode, hnum]
  rw [← c.targetSize_eq]

theorem wp_main {s : Fs} (hs : c.Stocked s) {Q : Int → Fs → Prop} {C : Fs → Prop} (hC : C s)
    (h : wp fsMachine Q C (applypatch L c.call.args) s) : wp fsMachine Q C (main L c.argv) s := by
  rw [c.main_eq, wp_bind]
  refine (reads_parsePatchArgs c.valid hs).wp hC ?_
  rw [← c.patches_eq]
  exact h

theorem returns_main {s : Fs} (hs : c.Stocked s) {k : Nat} {Q : Int → Fs → Prop}
    (h : Returns (roomyMachine L.sizeBits k) Q (applypatch L c.call.args) s) :
    Returns (roomyMachine L.sizeBits k) Q (main L c.argv) s := by
  rw [c.main_eq]
  refine returns_bind ((reads_parsePatchArgs c.valid hs).returns ?_)
  rw [← c.patches_eq]
  exact h

end Command

/-! ## Commands one after the other -/

/-- Programs in order, up to the first that returns nonzero. -/
def runAll : List (FsProg Int) → FsProg Int
  | [] => return 0
  | p :: ps => do
      let r ← p
      if r ≠ 0 then return r else runAll ps

theorem patchAll_eq_runAll (L : Libs) (as : List PatchArgs) :
    patchAll L as = runAll (as.map (applypatch L)) := by
  induction as with
  | nil => rfl
  | cons a as ih =>
      rw [patchAll, List.map_cons, runAll, ih]

section RunAll

variable {ι : Type} {is : List ι} {p q : ι → FsProg Int} {I : Fs → Prop}

/-- Programs that keep an invariant may be replaced by others that do the same where it holds. -/
theorem wp_runAll_of {Q : Int → Fs → Prop} {C : Fs → Prop} (hQ : ∀ r t, Q r t → C t)
    (hkeep : ∀ i ∈ is, ∀ s, I s → wp fsMachine (fun _ t => I t) I (q i) s)
    (hpq : ∀ i ∈ is, ∀ s {R : Int → Fs → Prop} {D : Fs → Prop}, I s → D s →
      wp fsMachine R D (q i) s → wp fsMachine R D (p i) s)
    {s : Fs} (hs : I s) (h : wp fsMachine Q C (runAll (is.map q)) s) :
    wp fsMachine (fun r t => Q r t ∧ I t) (fun t => C t ∧ I t) (runAll (is.map p)) s := by
  induction is generalizing s with
  | nil => exact ⟨h, hs⟩
  | cons i is ih =>
      have hC := h.now hQ
      simp only [List.map_cons, runAll] at h ⊢
      rw [wp_bind] at h ⊢
      refine hpq i List.mem_cons_self s hs ⟨hC, hs⟩ (wp_mono ?_ (fun _ ht => ht)
        (wp_and h (hkeep i List.mem_cons_self s hs)))
      rintro r t ⟨hrest, hI⟩
      split at hrest
      · rename_i hr
        rw [if_pos hr]
        exact ⟨hrest, hI⟩
      · rename_i hr
        rw [if_neg hr]
        exact ih (fun i hi => hkeep i (List.mem_cons_of_mem _ hi))
          (fun i hi => hpq i (List.mem_cons_of_mem _ hi)) hI hrest

theorem returns_runAll_of {L : Libs} {k : Nat} {Q : Int → Fs → Prop}
    (hkeep : ∀ i ∈ is, ∀ s, I s → wp fsMachine (fun _ t => I t) I (q i) s)
    (hpq : ∀ i ∈ is, ∀ s {R : Int → Fs → Prop}, I s →
      Returns (roomyMachine L.sizeBits k) R (q i) s → Returns (roomyMachine L.sizeBits k) R (p i) s)
    {s : Fs} (hs : I s) (h : Returns (roomyMachine L.sizeBits k) Q (runAll (is.map q)) s) :
    Returns (roomyMachine L.sizeBits k) Q (runAll (is.map p)) s := by
  induction is generalizing s with
  | nil => exact h
  | cons i is ih =>
      simp only [List.map_cons, runAll] at h ⊢
      refine returns_bind (hpq i List.mem_cons_self s hs (returns_mono ?_
        (h.of_bind.and_wp (hkeep i List.mem_cons_self s hs))))
      rintro r t ⟨hrest, hI⟩
      split at hrest
      · rename_i hr
        rw [if_pos hr]
        exact hrest
      · rename_i hr
        rw [if_neg hr]
        exact ih (fun i hi => hkeep i (List.mem_cons_of_mem _ hi))
          (fun i hi => hpq i (List.mem_cons_of_mem _ hi)) hI hrest

end RunAll

/-- Commands for the calls of a plan. No call touches the patch file of a command. -/
structure Session (L : Libs) where
  commands : List (Command L)
  plan : PatchPlan L
  calls_eq : plan.calls = commands.map Command.call
  patches_apart : ∀ c ∈ commands, ∀ e ∈ c.entries, ∀ p ∈ e.file, ∀ d ∈ commands,
    ¬ d.call.args.Touches p.1

namespace Session

variable {L : Libs} (X : Session L)

/-- The commands one after the other. -/
def run : FsProg Int := runAll (X.commands.map fun c => main L c.argv)

/-- All patch files are there. -/
def Stocked (s : Fs) : Prop := ∀ c ∈ X.commands, c.Stocked s

theorem patchAll_eq : patchAll L X.plan.args =
    runAll (X.commands.map fun c => applypatch L c.call.args) := by
  rw [patchAll_eq_runAll, PatchPlan.args, X.calls_eq, List.map_map, List.map_map]
  rfl

/-- The calls leave the patch files alone. -/
theorem stocked_kept {d : Command L} (hd : d ∈ X.commands) {s : Fs} (hs : X.Stocked s) :
    wp fsMachine (fun _ t => X.Stocked t) X.Stocked (applypatch L d.call.args) s := by
  refine (stays_applypatch L d.call.args).keeps ?_ hs
  intro s t hst h c hc e he p hp
  exact (h c hc e he p hp).of_files_eq (hst.files p.1 (X.patches_apart c hc e he p hp d hd))

/-- A run of the session keeps the patch files and the invariant of the plan, wherever it ends. -/
theorem wp_run {s : Fs} (hs : X.plan.Secured s ∧ X.Stocked s) :
    wp fsMachine (fun _ t => X.plan.Secured t ∧ X.Stocked t)
      (fun t => X.plan.Secured t ∧ X.Stocked t) X.run s := by
  have hcalls : wp fsMachine (fun _ t => X.plan.Secured t) X.plan.Secured
      (patchAll L X.plan.args) s := by
    refine X.plan.wp_patchAll (show X.plan.calls = [] ++ X.plan.calls from rfl) hs.1 ?_
    intro d hd
    cases hd
  rw [X.patchAll_eq] at hcalls
  refine wp_runAll_of (C := X.plan.Secured) (fun _ _ h => h) (fun c hc s => X.stocked_kept hc) ?_
    hs.2 hcalls
  intro c hc s R D hst hD hcall
  exact c.wp_main (hst c hc) hD hcall

/-- A run that nothing interrupts finishes every call. -/
theorem returns_run {s : Fs} (hs : X.plan.Secured s ∧ X.Stocked s) {k : Nat}
    (hk : k < 2 ^ L.sizeBits) (hroom : ∀ c ∈ X.plan.calls, toSize L c.S.length ≤ k) :
    Returns (roomyMachine L.sizeBits k) (fun r t => r = 0 ∧ ∀ c ∈ X.plan.calls, c.Done t) X.run s := by
  have hcalls := X.plan.returns_patchAll hk hroom (show X.plan.calls = [] ++ X.plan.calls from rfl)
    hs.1 (by rintro d ⟨⟩)
  rw [← PatchPlan.args, X.patchAll_eq] at hcalls
  refine returns_runAll_of (fun c hc s => X.stocked_kept hc) ?_ hs.2 hcalls
  intro c hc s R hst hcall
  exact c.returns_main (hst c hc) hcall

end Session

/-- However often a session is cut off and started again, the contents of every call are at its
target, at its source, or in the saved copy, and the next run of the commands that nothing
interrupts, with room on `/cache` for each source, exits with zero and every target patched. -/
theorem session_completes {L : Libs} (X : Session L) (s₀ s : Fs)
    (h₀ : ∀ c ∈ X.plan.calls, s₀.Holds c.source c.S) (hstock : X.Stocked s₀)
    (h : Reachable fsMachine X.run s₀ s) :
    (∀ c ∈ X.plan.calls,
      s.Holds c.target c.T ∨ s.Holds c.source c.S ∨ s.Holds cacheTempSource c.S) ∧
    ∀ k, k < 2 ^ L.sizeBits → (∀ c ∈ X.plan.calls, toSize L c.S.length ≤ k) →
      Returns (roomyMachine L.sizeBits k) (fun r t => r = 0 ∧ ∀ c ∈ X.plan.calls, c.Done t)
        X.run s := by
  have hs : X.plan.Secured s ∧ X.Stocked s := by
    refine h.invariant (fun s => X.plan.Secured s ∧ X.Stocked s) ⟨?_, hstock⟩ ?_
    · exact .inl fun c hc => .inl (h₀ c hc)
    · intro t ht _
      exact X.wp_run ht
  exact ⟨fun c hc => hs.1.recoverable hc, fun k hk hroom => X.returns_run hs hk hroom⟩

namespace Sample

/-- The bytes of a sample patch. -/
def patchBytes (y : Bytes) : Bytes :=
  cstr "IMGDIFF2" ++ write4 1 ++ write4 3 ++ write4 y.length ++ y

/-- `applypatch /system/x - <sha1 of b> 1 <sha1 of a>:/data/x.p`. -/
def commandX : Command libs where
  call := callX
  program := cstr "applypatch"
  size := cstr "1"
  entries := [⟨hex (cstr "a"), some (cstr "/data/x.p", patchBytes (cstr "b"))⟩]
  patches_eq := rfl
  targetSize_eq := by decide
  size_isNumber := by decide
  valid := by
    intro e he
    obtain rfl := List.mem_singleton.mp he
    refine ⟨by decide, ?_⟩
    rintro p ⟨⟩
    decide
  no_flag := by decide

/-- `applypatch /system/y - <sha1 of d> 1 <sha1 of c>:/data/y.p`. -/
def commandY : Command libs where
  call := callY
  program := cstr "applypatch"
  size := cstr "1"
  entries := [⟨hex (cstr "c"), some (cstr "/data/y.p", patchBytes (cstr "d"))⟩]
  patches_eq := rfl
  targetSize_eq := by decide
  size_isNumber := by decide
  valid := by
    intro e he
    obtain rfl := List.mem_singleton.mp he
    refine ⟨by decide, ?_⟩
    rintro p ⟨⟩
    decide
  no_flag := by decide

/-- Both commands. -/
def session : Session libs where
  commands := [commandX, commandY]
  plan := plan
  calls_eq := rfl
  patches_apart := by
    simp only [List.mem_cons, List.not_mem_nil, or_false]
    rintro c (rfl | rfl) e he p hp d (rfl | rfl)
    all_goals
      obtain rfl := List.mem_singleton.mp he
      obtain rfl := Option.some.inj hp
      unfold PatchArgs.Touches Expendable
      decide

/-- The sources and the patch files. -/
def stockedStart : Fs where
  files n :=
    if n = cstr "/data/x.p" then some ⟨patchBytes (cstr "b"), ⟨0o644, 0, 0⟩⟩
    else if n = cstr "/data/y.p" then some ⟨patchBytes (cstr "d"), ⟨0o644, 0, 0⟩⟩
    else start.files n
  parts _ := none
  opened _ := false

/-- A crash before operation number `n`, with little space until then. -/
def crashAt (n i : Nat) (s : Fs) (o : Op) : Event Fs o.Res :=
  if i = n then .crash s else .reply (smoothReply (1, 1000) s o)

theorem crashAt_possible (n i : Nat) (s : Fs) (o : Op) : (crashAt n i s o).Possible fsMachine s o := by
  unfold crashAt
  split
  · exact .inl rfl
  · exact smoothReply_allowed (1, 1000) s o

/-- The state after a crash before the first target is in place. -/
def sessionCrashed : Fs := (exec fsMachine (crashAt 15) 0 stockedStart session.run).1

/-- The first file exists under neither name then, and one more run of the commands patches both. -/
theorem session_completes_crashed :
    sessionCrashed.files (cstr "/system/x") = none ∧
      (∀ c ∈ plan.calls, sessionCrashed.Holds c.target c.T ∨ sessionCrashed.Holds c.source c.S ∨
        sessionCrashed.Holds cacheTempSource c.S) ∧
      Returns (roomyMachine libs.sizeBits 1) (fun r t => r = 0 ∧ ∀ c ∈ plan.calls, c.Done t)
        session.run sessionCrashed := by
  have h := session_completes session stockedStart sessionCrashed ?_ ?_ ?_
  · refine ⟨by decide, h.1, h.2 1 (by decide) ?_⟩
    intro c hc
    simp only [session, plan, List.mem_cons, List.not_mem_nil, or_false] at hc
    rcases hc with rfl | rfl
    · decide
    · decide
  · intro c hc
    simp only [session, plan, List.mem_cons, List.not_mem_nil, or_false] at hc
    rcases hc with rfl | rfl
    · exact ⟨⟨cstr "a", ⟨0o644, 0, 0⟩⟩, by decide, rfl⟩
    · exact ⟨⟨cstr "c", ⟨0o644, 0, 0⟩⟩, by decide, rfl⟩
  · intro c hc e he p hp
    simp only [session, List.mem_cons, List.not_mem_nil, or_false] at hc
    rcases hc with rfl | rfl
    · obtain rfl := List.mem_singleton.mp he
      obtain rfl := Option.some.inj hp
      exact ⟨⟨patchBytes (cstr "b"), ⟨0o644, 0, 0⟩⟩, by decide, rfl⟩
    · obtain rfl := List.mem_singleton.mp he
      obtain rfl := Option.some.inj hp
      exact ⟨⟨patchBytes (cstr "d"), ⟨0o644, 0, 0⟩⟩, by decide, rfl⟩
  · exact .rerun .start trivial (exec_run (crashAt_possible 15) session.run 0 stockedStart)

end Sample

end OpenRecovery.ApplyPatch
