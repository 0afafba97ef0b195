import OpenRecovery.ApplyPatch.CrashSafety

/-!
# Interrupted calls of `applypatch` can be completed

`CrashSafety` says that no schedule of crashes and reruns loses the contents of a call. Here the
next run that nothing interrupts, with enough room on `/cache`, is shown to finish the job: it
returns zero with every target patched (`patchAll_completes`). The `returns_` lemmas follow the
stages of a call, with the part of the state each of them needs.
-/

set_option autoImplicit false

namespace OpenRecovery.ApplyPatch

open OpenRecovery.Crash OpenRecovery.Edify OpenRecovery.Retouch OpenRecovery.Storage

/-! ## The stages of a call -/

section Stages

variable {L : Libs} {k : Nat} (hk : k < 2 ^ L.sizeBits) {s : Fs}

include hk

theorem returns_fileSinkFn {n : Name} {d : Bytes} {Q : Int × Unit → Fs → Prop}
    (h : Q (d.length, ()) (s.append n d)) :
    Returns (roomyMachine L.sizeBits k) Q (fileSinkFn n () d) s := by
  unfold fileSinkFn
  refine returns_bind (returns_fileSink hk ?_)
  exact h

/-- The file sink takes every piece of a patch. -/
theorem returns_emit_file {n : Name} {ps : List Piece} {ctx : Bytes}
    {Q : Int × Unit × Bytes → Fs → Prop}
    (h : Q (0, (), ctx ++ allBytes ps) (s.append n (allBytes ps))) :
    Returns (roomyMachine L.sizeBits k) Q (emit (fileSinkFn n) ps .done () ctx) s := by
  induction ps generalizing s ctx with
  | nil =>
      rw [allBytes, List.flatMap_nil, List.append_nil, append_nil] at h
      exact h
  | cons p ps ih =>
      -- after one full write the rest is a patch with one piece less
      have hrest : Returns (roomyMachine L.sizeBits k) Q
          (emit (fileSinkFn n) ps .done () (ctx ++ p.data)) (s.append n p.data) := by
        apply ih
        rw [allBytes, List.flatMap_cons, ← List.append_assoc, ← append_append] at h
        exact h
      cases p with
      | normal d =>
          simp only [emit]
          refine returns_bind (returns_fileSinkFn hk ?_)
          simp only [lt_irrefl, if_false]
          exact hrest
      | raw d =>
          simp only [emit]
          refine returns_bind (returns_fileSinkFn hk ?_)
          simp only [ne_eq, not_true_eq_false, if_false]
          exact hrest
      | block d =>
          simp only [emit]
          refine returns_bind (returns_fileSinkFn hk ?_)
          simp only [ne_eq, not_true_eq_false, if_false]
          exact hrest

/-- A right patch puts the target data into the file and into the SHA context. -/
theorem Turns.returns_applyBlob {patch : Value} {x y : Bytes} (ht : Turns L patch x y)
    {src : FileContents} (hdata : src.data = some x) (hsize : src.size = x.length) {n : Name}
    {Q : Option (Int × Unit × Bytes) → Fs → Prop} (h : Q (some (0, (), y)) (s.append n y)) :
    Returns (roomyMachine L.sizeBits k) Q (applyBlob (fileSinkFn n) L src patch ()) s := by
  unfold applyBlob
  rcases ht.cases with ⟨hb, hmem⟩ | ⟨hb, hi, hfin, hy⟩
  · simp only [hb, applyBSDiffPatch, hdata, hsize, Option.getD_some, hmem]
    refine returns_bind (returns_bind (returns_fileSinkFn hk ?_))
    simp only [lt_irrefl, if_false, List.nil_append]
    exact h
  · simp only [hb, hi, hdata, Option.getD_some]
    rw [applyImagePatch_eq_emit, hfin]
    refine returns_bind (returns_emit_file hk ?_)
    rw [hy]
    exact h

theorem returns_freeSpaceForFile {path : Name} {Q : Nat → Fs → Prop} (h : ∀ free, Q free s) :
    Returns (roomyMachine L.sizeBits k) Q (freeSpaceForFile L path) s := by
  unfold freeSpaceForFile
  refine returns_bind (returns_sysStatfs hk ?_)
  intro bsize bfree _
  exact h _

theorem returns_testSpace {a : PatchArgs} {retry : Nat} {Q : Bool → Fs → Prop} (h : ∀ b, Q b s) :
    Returns (roomyMachine L.sizeBits k) Q (testSpace L a retry) s := by
  unfold testSpace
  split
  · refine returns_bind (returns_freeSpaceForFile hk ?_)
    intro free
    exact h _
  · exact h false

/-- Loading a file answers by its contents. -/
theorem returns_loadFileContents {n : Name} (hn : isEmmc n = false) (file : FileContents)
    (flag : Bool) {Q : Int × FileContents → Fs → Prop} (h : Q (loadNode L file flag (s.files n)) s) :
    Returns (roomyMachine L.sizeBits k) Q (loadFileContents L n file flag) s := by
  rw [loadFileContents_eq L hn]
  refine returns_bind (returns_sysLoad hk ?_)
  exact h

/-- The end of a call on files whose output file is there and has the target digest. -/
theorem returns_finishPatch {a : PatchArgs} (ht : isEmmc a.target = false) {src : FileContents}
    {ctx buffer : Bytes} {madeCopy : Bool} {f : Node} (hf : s.files a.outname = some f) :
    Returns (roomyMachine L.sizeBits k) (fun r _ => r = 0)
      (finishPatch L a (L.sha1 ctx) src ctx buffer madeCopy) s := by
  unfold finishPatch
  simp only [ne_eq, not_true_eq_false, if_false, ht, Bool.false_eq_true]
  refine returns_bind (returns_sysChmod hk (by rw [hf]; rfl) ?_)
  simp only [Bool.not_true, Bool.false_eq_true, if_false]
  refine returns_bind (returns_sysChown hk (by rw [modify_files_self, hf]; rfl) ?_)
  simp only [Bool.not_true, Bool.false_eq_true, if_false]
  refine returns_bind (returns_sysRename hk (by rw [modify_files_self, modify_files_self, hf]; rfl) ?_)
  simp only [Bool.not_true, Bool.false_eq_true, if_false]
  cases madeCopy with
  | false => rfl
  | true => exact returns_bind (returns_sysUnlink hk rfl)

end Stages

/-! ## One call -/

namespace FileCall

variable {L : Libs} (c : FileCall L) {k : Nat} (hk : k < 2 ^ L.sizeBits) {s : Fs}

include hk

/-- With room for a copy of the source, the first half of a pass is passed. -/
theorem returns_makeRoom {sel : Selection} (hp : c.Picked sel) (hroom : toSize L c.S.length ≤ k)
    {retry : Nat} {madeCopy : Bool} {Q : Except Int (Nat × Bool) → Fs → Prop}
    (h : ∀ x t, Q (.ok x) t) :
    Returns (roomyMachine L.sizeBits k) Q (makeRoom L c.args sel retry madeCopy) s := by
  simp only [makeRoom, c.target_isFile, Bool.false_eq_true, if_false]
  refine returns_bind (returns_testSpace hk ?_)
  intro enough
  split
  · -- low on space: the copy is saved and the source unlinked
    rename_i hlow
    have hsize := hp.source_size hlow.2
    simp only [c.source_isFile, Bool.false_eq_true, if_false]
    refine returns_bind (returns_makeFreeSpaceOnCache hk (by rw [hsize]; exact hroom) ?_)
    simp only [lt_irrefl, if_false]
    refine returns_bind (returns_saveFileContents hk (hp.source_data hlow.2) hsize ?_)
    intro t _ _
    simp only [lt_irrefl, if_false]
    refine returns_bind (returns_sysUnlink hk ?_)
    refine returns_bind (returns_freeSpaceForFile hk ?_)
    intro _
    exact h _ _
  · exact h _ _

/-- The second half of a pass leaves the output file and the target data in the SHA context. -/
theorem returns_runPatch {src : FileContents} (hdata : src.data = some c.S)
    (hsize : src.size = c.S.length) {Q : Except Int (Int × Bytes × Bytes) → Fs → Prop}
    (h : ∀ t f, t.files c.args.outname = some f → Q (.ok (0, c.T, [])) t) :
    Returns (roomyMachine L.sizeBits k) Q (runPatch L c.args src c.patch) s := by
  simp only [runPatch, c.blob, ne_eq, not_true_eq_false, if_false, c.target_isFile,
    Bool.false_eq_true]
  refine returns_bind (returns_sysOpenTrunc hk ?_)
  simp only [Bool.not_true, Bool.false_eq_true, if_false]
  refine returns_bind (c.turns.returns_applyBlob hk hdata hsize ?_)
  refine h _ ⟨c.T, (s.files c.args.outname).elim newStat Node.st⟩ ?_
  rw [append_set, set_files_self]
  rfl

/-- The first pass succeeds. -/
theorem returns_attemptLoop {sel : Selection} (hp : c.Picked sel) (hroom : toSize L c.S.length ≤ k)
    {retry : Nat} {madeCopy : Bool} {Q : Except Int Pass → Fs → Prop}
    (h : ∀ p t f, t.files c.args.outname = some f → p.ctx = c.T → Q (.ok p) t) :
    Returns (roomyMachine L.sizeBits k) Q (attemptLoop L c.args sel retry madeCopy) s := by
  have hattempt : ∀ retry madeCopy, Returns (roomyMachine L.sizeBits k)
      (fun res t => ∃ p f, res = .ok p ∧ p.result = 0 ∧ p.ctx = c.T ∧
        t.files c.args.outname = some f) (attempt L c.args sel retry madeCopy) s := by
    intro retry madeCopy
    unfold attempt
    refine returns_bind (c.returns_makeRoom hk hp hroom ?_)
    rintro ⟨retry', madeCopy'⟩ t
    obtain ⟨hpatch, hdata, hsize, -, -⟩ := hp
    rcases huse : sel.toUse with ⟨src, p⟩
    rw [huse] at hpatch hdata hsize
    cases hpatch
    simp only
    refine returns_bind (c.returns_runPatch hk hdata hsize ?_)
    intro u f hf
    exact ⟨_, f, rfl, rfl, rfl, hf⟩
  cases retry with
  | zero =>
      unfold attemptLoop
      refine returns_bind (returns_mono ?_ (hattempt 0 madeCopy))
      rintro res t ⟨p, f, rfl, hzero, hctx, hf⟩
      simp only [hzero, if_true]
      exact h p t f hf hctx
  | succ retry =>
      unfold attemptLoop
      refine returns_bind (returns_mono ?_ (hattempt (retry + 1) madeCopy))
      rintro res t ⟨p, f, rfl, hzero, hctx, hf⟩
      simp only [hzero, if_true]
      exact h p t f hf hctx

/-- Whichever way the source is loaded, it is loaded from the source file. -/
theorem returns_loadSource {file₀ file : FileContents} {r : Int} {Q : FileContents → Fs → Prop}
    (hfile : loadNode L file₀ true (s.files c.args.target) = (r, file))
    (hQ : ∀ g, Q (loadNode L g true (s.files c.source)).2 s) :
    Returns (roomyMachine L.sizeBits k) Q (loadSource L c.args file) s := by
  unfold loadSource
  split
  · exact returns_bind (returns_loadFileContents hk c.source_isFile _ _ (hQ file))
  · rename_i hne
    rw [not_or, not_not] at hne
    have hQ' := hQ file₀
    rw [FileCall.source, ← hne.2, hfile] at hQ'
    exact hQ'

/-- A call that is not done finds the contents to patch. -/
theorem returns_selectSource (h : c.Ready s) {Q : Except Int Selection → Fs → Prop}
    (hQ : ∀ sel, c.Picked sel → Q (.ok sel) s) :
    Returns (roomyMachine L.sizeBits k) Q (selectSource L c.args (L.sha1 c.T)) s := by
  unfold selectSource
  refine returns_bind (returns_sysUninit hk ?_)
  intro copy₀
  refine returns_bind (returns_sysUninit hk ?_)
  intro src₀
  refine returns_bind (returns_loadFileContents hk c.target_isFile _ _ ?_)
  have hnl := c.not_loaded h.1 src₀
  generalize hx : loadNode L src₀ true (s.files c.args.target) = x
  rw [FileCall.target, hx] at hnl
  obtain ⟨r, file⟩ := x
  simp only [chooseSource, hnl, if_false]
  refine returns_bind (c.returns_loadSource hk hx ?_)
  intro g
  rcases h.2 with hsrc | ⟨hnone, hcopy⟩
  · -- the source file is intact
    obtain ⟨st, hst⟩ := c.load_source hsrc g
    rw [hst]
    simp only [PatchArgs.patchForFile, reduceCtorEq, if_false, c.listed]
    exact hQ _ ⟨rfl, rfl, rfl, fun _ => rfl, fun _ => rfl⟩
  · -- the source file is gone, and the copy is loaded
    rw [hnone]
    simp only [PatchArgs.patchForFile, loadNode, if_true, chooseCopy]
    refine returns_bind (returns_loadFileContents hk (by decide) _ _ ?_)
    obtain ⟨st, hst⟩ := c.load_source hcopy copy₀
    rw [hst]
    simp only [lt_irrefl, if_false, c.listed]
    exact hQ _ ⟨rfl, rfl, rfl, fun hn => absurd rfl hn, fun hn => absurd rfl hn⟩

/-- A call with work to do that is not interrupted returns zero. -/
theorem returns_applypatch_ready (h : c.Ready s) (hroom : toSize L c.S.length ≤ k) :
    Returns (roomyMachine L.sizeBits k) (fun r _ => r = 0) (applypatch L c.args) s := by
  simp only [applypatch, c.digest]
  refine returns_bind (c.returns_selectSource hk h ?_)
  intro sel hp
  unfold patchSelected
  refine returns_bind (c.returns_attemptLoop hk hp hroom ?_)
  intro p t f hf hctx
  rw [← hctx]
  exact returns_finishPatch hk c.target_isFile hf

/-- So does a call that finds its target patched. -/
theorem returns_applypatch_done (h : c.Done s) :
    Returns (roomyMachine L.sizeBits k) (fun r _ => r = 0) (applypatch L c.args) s := by
  obtain ⟨f, x, off, hf, hm, hx⟩ := h
  rw [FileCall.target] at hf
  simp only [applypatch, c.digest, selectSource]
  refine returns_bind (returns_bind (returns_sysUninit hk ?_))
  intro copy₀
  refine returns_bind (returns_sysUninit hk ?_)
  intro src₀
  refine returns_bind (returns_loadFileContents hk c.target_isFile _ _ ?_)
  rw [hf, loadNode_matched L src₀ hm]
  simp only [chooseSource, hx, and_self, if_true]
  rfl

end FileCall

/-! ## All calls -/

namespace PatchPlan

variable {L : Libs} (P : PatchPlan L) {k : Nat} (hk : k < 2 ^ L.sizeBits)

include hk

/-- An uninterrupted call returns zero and is done. -/
theorem returns_call {before after : List (FileCall L)}
    {c : FileCall L} (hsplit : P.calls = before ++ c :: after) (hroom : toSize L c.S.length ≤ k)
    {s : Fs} (hs : P.Secured s) (hdone : ∀ d ∈ before, d.Done s) :
    Returns (roomyMachine L.sizeBits k)
      (fun r t => r = 0 ∧ P.Secured t ∧ ∀ d ∈ before ++ [c], d.Done t) (applypatch L c.args) s := by
  have hzero : Returns (roomyMachine L.sizeBits k) (fun r _ => r = 0) (applypatch L c.args) s := by
    by_cases hc : c.Done s
    · exact c.returns_applypatch_done hk hc
    · exact c.returns_applypatch_ready hk (hs.ready hsplit hdone hc).1 hroom
  refine returns_mono ?_ (hzero.and_wp (P.wp_call hsplit hs hdone))
  rintro r t ⟨hr, hst, hdt⟩
  exact ⟨hr, hst, hdt hr⟩

/-- From the call after `before` on, an uninterrupted run finishes every call. -/
theorem returns_patchAll (hroom : ∀ c ∈ P.calls, toSize L c.S.length ≤ k)
    {before rest : List (FileCall L)} (hsplit : P.calls = before ++ rest) {s : Fs}
    (hs : P.Secured s) (hdone : ∀ d ∈ before, d.Done s) :
    Returns (roomyMachine L.sizeBits k) (fun r t => r = 0 ∧ ∀ c ∈ P.calls, c.Done t)
      (patchAll L (rest.map FileCall.args)) s := by
  -- induction on the calls still to be made, with the ones before them done
  induction rest generalizing before s with
  | nil =>
      rw [List.append_nil] at hsplit
      exact ⟨rfl, hsplit ▸ hdone⟩
  | cons c rest ih =>
      have hsplit' : P.calls = (before ++ [c]) ++ rest := by
        rw [hsplit, List.append_assoc]
        rfl
      have hcroom := hroom c (by rw [hsplit]; exact List.mem_append_right _ List.mem_cons_self)
      simp only [List.map_cons, patchAll]
      refine returns_bind (returns_mono ?_ (P.returns_call hk hsplit hcroom hs hdone))
      rintro r t ⟨rfl, hst, hdt⟩
      simp only [ne_eq, not_true_eq_false, if_false]
      exact ih hsplit' hst hdt

end PatchPlan

/-- However often a run of the calls has been cut off and started again, the next run that nothing
interrupts, with room on `/cache` for each source, returns zero with every target patched. -/
theorem patchAll_completes {L : Libs} (P : PatchPlan L) (s₀ s : Fs)
    (h₀ : ∀ c ∈ P.calls, s₀.Holds c.source c.S)
    (h : Reachable fsMachine (patchAll L P.args) s₀ s) (k : Nat) (hk : k < 2 ^ L.sizeBits)
    (hroom : ∀ c ∈ P.calls, toSize L c.S.length ≤ k) :
    Returns (roomyMachine L.sizeBits k) (fun r t => r = 0 ∧ ∀ c ∈ P.calls, c.Done t)
      (patchAll L P.args) s := by
  have hs : P.Secured s := by
    refine h.invariant P.Secured ?_ ?_
    · exact .inl fun c hc => .inl (h₀ c hc)
    · intro t ht _
      refine P.wp_patchAll (show P.calls = [] ++ P.calls from rfl) ht ?_
      intro d hd
      cases hd
  refine P.returns_patchAll hk hroom (show P.calls = [] ++ P.calls from rfl) hs ?_
  intro d hd
  cases hd

namespace Sample

/-- After the crash that took the first source away, one more run finishes both calls. -/
theorem patchAll_completes_crashed :
    Returns (roomyMachine libs.sizeBits 1) (fun r t => r = 0 ∧ ∀ c ∈ plan.calls, c.Done t)
      (patchAll libs plan.args) crashed := by
  refine patchAll_completes plan start crashed ?_ ?_ 1 (by decide) ?_
  · intro c hc
    simp only [plan, List.mem_cons, List.not_mem_nil, or_false] at hc
    rcases hc with rfl | rfl
    · exact ⟨⟨cstr "a", ⟨0o644, 0, 0⟩⟩, by decide, rfl⟩
    · exact ⟨⟨cstr "c", ⟨0o644, 0, 0⟩⟩, by decide, rfl⟩
  · exact .rerun .start trivial (exec_run crashAfterUnlink_possible (patchAll libs plan.args) 0 start)
  · intro c hc
    simp only [plan, List.mem_cons, List.not_mem_nil, or_false] at hc
    rcases hc with rfl | rfl
    · decide
    · decide

end Sample

end OpenRecovery.ApplyPatch
