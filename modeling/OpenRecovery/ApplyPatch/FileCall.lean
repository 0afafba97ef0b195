import OpenRecovery.ApplyPatch.SinkSpec

/-!
# One call of `applypatch` on files

`FileCall` is a call whose source and target are files, with the contents it is about: the patch
listed for `S` turns `S` into `T`, and `T` has the target digest. `Done` is what the already-patched
test of the code looks for. `Ready` is the condition under which the call still has to work and can:
the source is intact, or it is gone and the saved copy has its contents.

`wp_applypatch_done`: a call that finds its target patched returns zero and changes nothing.
`wp_applypatch_ready`: any other call, cut off anywhere, touches only its own names and `/cache`,
and leaves `S` at the source, `T` at the target, or `S` in the saved copy with the source gone; when
it returns zero the target holds `T`.
-/

set_option autoImplicit false

namespace OpenRecovery.ApplyPatch

open OpenRecovery.Crash OpenRecovery.Edify OpenRecovery.Retouch OpenRecovery.Storage

/-- The contents load through retouch masking unchanged. -/
def MaskFixed (x : Bytes) : Prop :=
  (retouchMaskData x (some 0)).1 = .matched ∧ (retouchMaskData x (some 0)).2.1 = x

instance (x : Bytes) : Decidable (MaskFixed x) := inferInstanceAs (Decidable (_ ∧ _))

/-- A call of `applypatch` that turns the file contents `S` into `T`. The digest is only asked to
tell `T` from what applying the patch to `S` can feed to it. -/
structure FileCall (L : Libs) where
  args : PatchArgs
  S : Bytes
  T : Bytes
  patch : Value
  source_isFile : isEmmc args.sourceFilename = false
  target_isFile : isEmmc args.target = false
  source_outside : ¬ cstr "/cache/" <+: args.sourceFilename
  target_outside : ¬ cstr "/cache/" <+: args.target
  source_ne_outname : args.sourceFilename ≠ args.outname
  digest : parseSha1 args.targetSha1Str = some (L.sha1 T)
  listed : args.patchFor (L.sha1 S) = some patch
  blob : patch.type = .blob
  turns : Turns L patch S T
  source_fixed : MaskFixed S
  target_fixed : MaskFixed T
  collisionFree : ∀ r stored absorbed, Outcome L (plainContents S) patch r stored absorbed →
    L.sha1 absorbed = L.sha1 T → absorbed = T

namespace FileCall

variable {L : Libs} (c : FileCall L)

/-- The source file of the call. -/
def source : Name := c.args.sourceFilename

/-- The target file of the call. -/
def target : Name := c.args.target

/-- The target file loads with the target digest. -/
def Done (s : Fs) : Prop :=
  ∃ f x off, s.files c.target = some f ∧ retouchMaskData f.data (some 0) = (.matched, x, off) ∧
    L.sha1 x = L.sha1 c.T

/-- The source or the target holds what it should. -/
def Stable (s : Fs) : Prop := s.Holds c.source c.S ∨ s.Holds c.target c.T

/-- The source is gone and the saved copy has its contents. -/
def Saved (s : Fs) : Prop := s.files c.source = none ∧ s.Holds cacheTempSource c.S

/-- The call has work to do and its input. -/
def Ready (s : Fs) : Prop := ¬ c.Done s ∧ (s.Holds c.source c.S ∨ c.Saved s)

/-- What a call leaves behind wherever it ends. -/
def Kept (s : Fs) : Prop := c.Ready s ∨ s.Holds c.target c.T

/-- The files a call touches. -/
def Touched (n : Name) : Prop :=
  n = c.source ∨ n = c.target ∨ n = c.args.outname ∨ n = cacheTempSource ∨ Expendable n

/-! ## Names -/

/-- The output file is never the saved copy: the last letters differ. -/
theorem outname_ne_cache : c.args.outname ≠ cacheTempSource := by
  intro h
  have hlast := congrArg List.getLast? h
  rw [PatchArgs.outname, List.getLast?_append] at hlast
  revert hlast
  have hp : (cstr ".patch").getLast? = some 104 := by decide
  have hc : cacheTempSource.getLast? = some 101 := by decide
  rw [hp, hc]
  simp

theorem cache_isInside : cstr "/cache/" <+: cacheTempSource := by decide

theorem source_ne_cache : c.source ≠ cacheTempSource := by
  intro h
  have hout : ¬ cstr "/cache/" <+: c.source := c.source_outside
  rw [h] at hout
  exact hout cache_isInside

theorem target_ne_cache : c.target ≠ cacheTempSource := by
  intro h
  have hout : ¬ cstr "/cache/" <+: c.target := c.target_outside
  rw [h] at hout
  exact hout cache_isInside

theorem source_not_expendable : ¬ Expendable c.source := fun h => c.source_outside h.1

theorem target_not_expendable : ¬ Expendable c.target := fun h => c.target_outside h.1

/-! ## Frames -/

theorem Done.of_files_eq {c : FileCall L} {s t : Fs} (h : c.Done s)
    (he : t.files c.target = s.files c.target) : c.Done t := by
  obtain ⟨f, x, off, hf, hx⟩ := h
  exact ⟨f, x, off, he.trans hf, hx⟩

theorem Stable.of_files_eq {c : FileCall L} {s t : Fs} (h : c.Stable s)
    (hs : t.files c.source = s.files c.source) (ht : t.files c.target = s.files c.target) :
    c.Stable t := by
  rcases h with h | h
  · exact .inl (h.of_files_eq hs)
  · exact .inr (h.of_files_eq ht)

/-- A change outside the three files the condition reads keeps it. -/
theorem Ready.frame {c : FileCall L} {N : Name → Prop} {s t : Fs} (h : c.Ready s)
    (hf : SameExcept N s t) (hs : ¬ N c.source) (ht : ¬ N c.target) (hc : ¬ N cacheTempSource) :
    c.Ready t := by
  obtain ⟨hnd, h⟩ := h
  refine ⟨fun hd => hnd (hd.of_files_eq (hf.1 _ ht).symm), ?_⟩
  rcases h with h | ⟨hnone, hcopy⟩
  · exact .inl (h.frame hf hs)
  · exact .inr ⟨(hf.1 _ hs).trans hnone, hcopy.frame hf hc⟩

/-- While the source is intact the saved copy does not matter. -/
theorem Ready.frame_of_source {c : FileCall L} {N : Name → Prop} {s t : Fs} (h : c.Ready s)
    (hsrc : s.Holds c.source c.S) (hf : SameExcept N s t) (hs : ¬ N c.source)
    (ht : ¬ N c.target) : c.Ready t :=
  ⟨fun hd => h.1 (hd.of_files_eq (hf.1 _ ht).symm), .inl (hsrc.frame hf hs)⟩

theorem Ready.frame_outname {c : FileCall L} {s t : Fs} (h : c.Ready s)
    (hf : SameExcept (OnlyFile c.args.outname) s t) : c.Ready t :=
  h.frame hf c.source_ne_outname (fun he => outname_ne_target c.args he.symm)
    (fun he => c.outname_ne_cache he.symm)

theorem touched_outname {n : Name} (h : OnlyFile c.args.outname n) : c.Touched n :=
  .inr (.inr (.inl h))

theorem touched_cache {n : Name} (h : OnlyFile cacheTempSource n) : c.Touched n :=
  .inr (.inr (.inr (.inl h)))

theorem touched_expendable {n : Name} (h : Expendable n) : c.Touched n :=
  .inr (.inr (.inr (.inr h)))

/-- A target that holds `T` is patched. -/
theorem done_of_holds {s : Fs} (h : s.Holds c.target c.T) : c.Done s := by
  obtain ⟨f, hf, hx⟩ := h
  obtain ⟨hm, hd⟩ := c.target_fixed
  refine ⟨f, c.T, (retouchMaskData c.T (some 0)).2.2, hf, ?_, rfl⟩
  rw [hx]
  exact Prod.ext hm (Prod.ext hd rfl)

end FileCall

/-! ## Choosing the source -/

namespace FileCall

variable {L : Libs} (c : FileCall L)

/-- What `selectSource` hands on: the contents to use are `S` with its patch, and a source file that
is kept for saving is `S` as well. -/
structure Picked (sel : Selection) : Prop where
  patch : sel.toUse.2 = some c.patch
  data : sel.toUse.1.data = some c.S
  size : sel.toUse.1.size = c.S.length
  source_data : sel.sourcePatch ≠ none → sel.sourceFile.data = some c.S
  source_size : sel.sourcePatch ≠ none → sel.sourceFile.size = c.S.length

/-- A selection that uses the source file has found it intact. -/
def Intact (sel : Selection) (s : Fs) : Prop := sel.sourcePatch ≠ none → s.Holds c.source c.S

/-- A file that holds `S` loads as it is. -/
theorem load_source {s : Fs} {n : Name} (h : s.Holds n c.S) (file : FileContents) :
    ∃ st, loadNode L file true (s.files n) = (0, ⟨L.sha1 c.S, some c.S, c.S.length, st⟩) := by
  obtain ⟨f, hf, hx⟩ := h
  obtain ⟨hm, hd⟩ := c.source_fixed
  refine ⟨f.st, ?_⟩
  have hmask : retouchMaskData f.data (some 0) =
      (.matched, c.S, (retouchMaskData c.S (some 0)).2.2) := by
    rw [hx]
    exact Prod.ext hm (Prod.ext hd rfl)
  rw [hf, loadNode_matched L file hmask, hx]

/-- The already-patched test of a call that is not done fails. -/
theorem not_loaded {s : Fs} (h : ¬ c.Done s) (file : FileContents) :
    ¬ ((loadNode L file true (s.files c.target)).1 = 0 ∧
      (loadNode L file true (s.files c.target)).2.sha1 = L.sha1 c.T) := by
  rintro ⟨h0, hsha⟩
  obtain ⟨f, x, off, hf, hm, hx⟩ := loadNode_zero h0
  exact h ⟨f, x, off, hf, hm, hx.symm.trans hsha⟩

/-- Whichever way the source is loaded, it is loaded from the source file. -/
theorem wp_loadSource {s : Fs} {C : Fs → Prop} {R : FileContents → Fs → Prop} (hC : C s)
    {file₀ file : FileContents} {r : Int}
    (hfile : loadNode L file₀ true (s.files c.args.target) = (r, file))
    (hR : ∀ g, R (loadNode L g true (s.files c.source)).2 s) :
    wp fsMachine R C (loadSource L c.args file) s := by
  unfold loadSource
  split
  · rw [wp_bind, wp_loadFileContents L c.source_isFile]
    exact ⟨hC, hR file⟩
  · rename_i hne
    rw [not_or, not_not] at hne
    have hR' := hR file₀
    rw [FileCall.source, ← hne.2, hfile] at hR'
    exact hR'

theorem wp_selectSource {s : Fs} (h : c.Ready s) {Q : Except Int Selection → Fs → Prop}
    {C : Fs → Prop} (hC : C s)
    (hQ : ∀ sel, c.Picked sel → c.Intact sel s → Q (.ok sel) s) :
    wp fsMachine Q C (selectSource L c.args (L.sha1 c.T)) s := by
  unfold selectSource
  rw [wp_bind, wp_sysUninit]
  refine ⟨hC, ?_⟩
  intro copy₀
  rw [wp_bind, wp_sysUninit]
  refine ⟨hC, ?_⟩
  intro src₀
  rw [wp_bind, wp_loadFileContents L c.target_isFile]
  refine ⟨hC, ?_⟩
  have hnl := c.not_loaded h.1 src₀
  generalize hx : loadNode L src₀ true (s.files c.args.target) = x
  rw [FileCall.target, hx] at hnl
  obtain ⟨r, file⟩ := x
  simp only [chooseSource, hnl, if_false]
  rw [wp_bind]
  refine c.wp_loadSource hC hx ?_
  intro g
  rcases h.2 with hsrc | ⟨hnone, hcopy⟩
  · -- the source file is intact
    obtain ⟨st, hst⟩ := c.load_source hsrc g
    rw [hst]
    simp only [PatchArgs.patchForFile, reduceCtorEq, if_false, c.listed]
    exact hQ _ ⟨rfl, rfl, rfl, fun _ => rfl, fun _ => rfl⟩ fun _ => hsrc
  · -- the source file is gone, and the copy is loaded
    rw [hnone]
    simp only [PatchArgs.patchForFile, loadNode, if_true, chooseCopy]
    rw [wp_bind, wp_loadFileContents L (by decide)]
    refine ⟨hC, ?_⟩
    obtain ⟨st, hst⟩ := c.load_source hcopy copy₀
    rw [hst]
    simp only [lt_irrefl, if_false, c.listed]
    exact hQ _ ⟨rfl, rfl, rfl, fun hn => absurd rfl hn, fun hn => absurd rfl hn⟩
      fun hn => absurd rfl hn

/-! ## The stages of a call

`Working s₀ t` is what every stage keeps, from the state `s₀` at the start of the call on: nothing
but the call's own files and `/cache` has changed, and the call is still ready. -/

/-- The condition every stage before the replacement of the target keeps. -/
def Working (s₀ t : Fs) : Prop := SameExcept c.Touched s₀ t ∧ c.Ready t

theorem Working.outname {c : FileCall L} {s₀ s t : Fs} (h : c.Working s₀ s)
    (hf : SameExcept (OnlyFile c.args.outname) s t) : c.Working s₀ t :=
  ⟨h.1.trans (hf.mono fun _ hn => c.touched_outname hn), h.2.frame_outname hf⟩

theorem Working.expendable {c : FileCall L} {s₀ s t : Fs} (h : c.Working s₀ s)
    (hsrc : s.Holds c.source c.S) (hf : SameExcept Expendable s t) : c.Working s₀ t :=
  ⟨h.1.trans (hf.mono fun _ hn => c.touched_expendable hn),
    h.2.frame_of_source hsrc hf c.source_not_expendable c.target_not_expendable⟩

theorem Working.cache {c : FileCall L} {s₀ s t : Fs} (h : c.Working s₀ s)
    (hsrc : s.Holds c.source c.S) (hf : SameExcept (OnlyFile cacheTempSource) s t) :
    c.Working s₀ t :=
  ⟨h.1.trans (hf.mono fun _ hn => c.touched_cache hn),
    h.2.frame_of_source hsrc hf c.source_ne_cache c.target_ne_cache⟩

/-- Unlinking the source when the saved copy has its contents. -/
theorem Working.unlink_source {c : FileCall L} {s₀ s : Fs} (h : c.Working s₀ s)
    (hcopy : s.Holds cacheTempSource c.S) : c.Working s₀ (s.set c.source none) := by
  refine ⟨h.1.trans (sameExcept_set s none (.inl rfl)), ?_, .inr ⟨set_files_self .., ?_⟩⟩
  · -- the target is unchanged, or it is the source and now gone
    intro hd
    by_cases hst : c.target = c.source
    · obtain ⟨f, x, off, hf, -⟩ := hd
      rw [hst, set_files_self] at hf
      cases hf
    · exact h.2.1 (hd.of_files_eq (set_files_of_ne s _ none hst).symm)
  · exact hcopy.of_files_eq (set_files_of_ne s _ none fun he => c.source_ne_cache he.symm)

theorem wp_testSpace {s : Fs} {retry : Nat} {Q : Bool → Fs → Prop} {C : Fs → Prop} (hC : C s)
    (hQ : ∀ b, Q b s) : wp fsMachine Q C (testSpace L c.args retry) s := by
  unfold testSpace
  split
  · rw [wp_bind]
    exact wp_freeSpaceForFile L _ hC fun _ => hQ _
  · exact hQ false

/-- After `makeRoom`: a retry is possible only while the source is where it was. -/
def RoomPost (s₀ : Fs) (sel : Selection) (x : Nat × Bool) (t : Fs) : Prop :=
  c.Working s₀ t ∧ (x.1 ≠ 0 → c.Intact sel t)

theorem wp_makeRoom {s₀ s : Fs} {sel : Selection} (hp : c.Picked sel) (hw : c.Working s₀ s)
    (hi : c.Intact sel s) (retry : Nat) (madeCopy : Bool) :
    wp fsMachine (Stage (c.Working s₀) (c.RoomPost s₀ sel)) (c.Working s₀)
      (makeRoom L c.args sel retry madeCopy) s := by
  simp only [makeRoom, c.target_isFile, Bool.false_eq_true, if_false]
  rw [wp_bind]
  refine c.wp_testSpace hw ?_
  intro enough
  split
  · -- low on space: save the source, then unlink it
    rename_i hlow
    have hsrc := hi hlow.2
    have hen : enough = false := by simpa using hlow.1
    simp only [c.source_isFile, Bool.false_eq_true, if_false]
    rw [wp_bind]
    refine wp_makeFreeSpaceOnCache L (fun t ht => hw.expendable hsrc ht) ?_
    intro m t ht
    have hwt := hw.expendable hsrc ht
    have hsrct : t.Holds c.source c.S := hsrc.frame ht c.source_not_expendable
    split
    · exact ⟨by decide, hwt⟩
    · rw [wp_bind]
      refine wp_saveFileContents (fun u hu => hwt.cache hsrct hu) ?_ ?_ ?_
      · intro u hu
        exact ⟨by decide, hwt.cache hsrct hu⟩
      · -- the copy is complete
        intro u d hu hd hlen hfile
        rw [hp.source_data hlow.2] at hd
        cases hd
        have hwu := hwt.cache hsrct hu
        have hwv := hwu.unlink_source ⟨_, hfile, rfl⟩
        simp only [lt_irrefl, if_false]
        rw [wp_bind, wp_sysUnlink]
        refine ⟨hwu, ?_⟩
        rw [wp_bind]
        refine wp_freeSpaceForFile L _ hwv ?_
        intro _
        refine ⟨hwv, ?_⟩
        intro hr
        rw [hen] at hr
        exact absurd rfl hr
      · -- a partial save cannot be reported as complete
        intro u _ hne
        exact absurd (hp.source_size hlow.2).symm (hne c.S (hp.source_data hlow.2))
  · exact ⟨hw, fun _ => hi⟩

/-- After a pass: the output file and the digest are an outcome of the patch, and a retry is
possible only while the source is where it was. -/
def PassPost (s₀ : Fs) (sel : Selection) (p : Pass) (t : Fs) : Prop :=
  c.Working s₀ t ∧ (p.retry ≠ 0 → c.Intact sel t) ∧
    ∃ f, t.files c.args.outname = some f ∧
      Outcome L (plainContents c.S) c.patch p.result f.data p.ctx

theorem wp_attempt {s₀ s : Fs} {sel : Selection} (hp : c.Picked sel) (hw : c.Working s₀ s)
    (hi : c.Intact sel s) (retry : Nat) (madeCopy : Bool) :
    wp fsMachine (Stage (c.Working s₀) (c.PassPost s₀ sel)) (c.Working s₀)
      (attempt L c.args sel retry madeCopy) s := by
  rw [attempt]
  refine wp_seq (c.wp_makeRoom hp hw hi retry madeCopy) ?_
  intro res t hres
  cases res with
  | error code => exact hres
  | ok x =>
      obtain ⟨retry', madeCopy'⟩ := x
      obtain ⟨hwt, hit⟩ := hres
      obtain ⟨hpatch, hdata, hsize, -, -⟩ := hp
      rcases huse : sel.toUse with ⟨src, p⟩
      rw [huse] at hpatch hdata hsize
      cases hpatch
      simp only
      rw [wp_bind]
      refine wp_runPatch_file L c.target_isFile (fun u hu => hwt.outname hu) ?_ ?_
      · intro u hu
        exact ⟨by decide, hwt.outname hu⟩
      · intro u r f ctx hu _ hf ho
        refine ⟨hwt.outname hu, ?_, f, hf, ho.of_plain hdata hsize⟩
        intro hr hn
        exact (hit hr hn).frame hu c.source_ne_outname

/-- A pass that is tried again has found the source intact. -/
theorem retry_ready {s₀ : Fs} {sel : Selection} (p : Pass) (t : Fs) (h : c.PassPost s₀ sel p t)
    (hr : p.retry ≠ 0) :
    c.Working s₀ t ∧ c.Working s₀ (if isEmmc c.args.target then t else t.set c.args.outname none) ∧
      c.Intact sel (if isEmmc c.args.target then t else t.set c.args.outname none) := by
  have hsame : SameExcept (OnlyFile c.args.outname) t (t.set c.args.outname none) :=
    sameExcept_set t none (onlyFile_self _)
  simp only [c.target_isFile, Bool.false_eq_true, if_false]
  refine ⟨h.1, h.1.outname hsame, ?_⟩
  intro hn
  exact (h.2.1 hr hn).frame hsame c.source_ne_outname

/-! ## The whole call -/

/-- A call that finds its target patched returns zero and changes nothing. -/
theorem wp_applypatch_done {s : Fs} (h : c.Done s) :
    wp fsMachine (fun r t => r = 0 ∧ t = s) (fun t => t = s) (applypatch L c.args) s := by
  obtain ⟨f, x, off, hf, hm, hx⟩ := h
  rw [FileCall.target] at hf
  simp only [applypatch, c.digest, selectSource]
  rw [wp_bind, wp_bind, wp_sysUninit]
  refine ⟨rfl, ?_⟩
  intro copy₀
  rw [wp_bind, wp_sysUninit]
  refine ⟨rfl, ?_⟩
  intro src₀
  rw [wp_bind, wp_loadFileContents L c.target_isFile, hf, loadNode_matched L src₀ hm]
  simp only [chooseSource, hx, and_self, if_true]
  exact ⟨trivial, rfl, rfl⟩

/-- Replacing the target by `T`. -/
theorem kept_of_replaced {s₀ s t : Fs} (hw : c.Working s₀ s)
    (hf : SameExcept (Replaced c.args) s t) (ht : t.Holds c.target c.T) :
    SameExcept c.Touched s₀ t ∧ c.Kept t := by
  refine ⟨hw.1.trans (hf.mono ?_), .inr ht⟩
  intro n hn
  rcases hn with hn | hn
  · exact .inr (.inr (.inl hn))
  · exact .inr (.inl hn)

/-- A call with work to do, wherever it ends, has touched only its own files and `/cache` and keeps
its input until the target is in place. -/
theorem wp_applypatch_ready {s : Fs} (h : c.Ready s) :
    wp fsMachine
      (fun r t => (SameExcept c.Touched s t ∧ c.Kept t) ∧ (r = 0 → t.Holds c.target c.T))
      (fun t => SameExcept c.Touched s t ∧ c.Kept t) (applypatch L c.args) s := by
  have hw : c.Working s s := ⟨.refl _ _, h⟩
  have hkeep : ∀ t, c.Working s t → SameExcept c.Touched s t ∧ c.Kept t :=
    fun t ht => ⟨ht.1, .inl ht.2⟩
  simp only [applypatch, c.digest]
  rw [wp_bind]
  refine c.wp_selectSource h (hkeep s hw) ?_
  intro sel hp hi
  simp only [patchSelected]
  rw [wp_bind]
  have hloop := wp_attemptLoop (I := fun _ t => c.Working s t ∧ c.Intact sel t)
    (fun retry madeCopy t ht => c.wp_attempt hp ht.1 ht.2 retry madeCopy) (fun p t ht => ht.1)
    (fun p t ht hr => c.retry_ready p t ht hr) 1 false ⟨hw, hi⟩
  refine wp_mono ?_ hkeep hloop
  intro res t hres
  cases res with
  | error code => exact ⟨hkeep t hres.2, fun h0 => absurd h0 hres.1⟩
  | ok p =>
      obtain ⟨⟨hwt, -, f, hf, ho⟩, hzero⟩ := hres
      refine wp_finishPatch_file L c.target_isFile hf ?_ ?_
      · intro u hu
        have hk := hkeep u (hwt.outname hu)
        exact ⟨hk, hk, fun h0 => absurd h0 (by decide)⟩
      · -- the digest has absorbed `T`, so the output file holds it
        intro u hu _ hfile hsha
        have habs : p.ctx = c.T := c.collisionFree _ _ _ ho hsha
        have hstored : f.data = c.T := c.turns.stored_eq ho hzero habs
        rw [hstored] at hfile
        have hk := c.kept_of_replaced hwt hu hfile
        refine ⟨hk, ?_⟩
        cases p.madeCopy with
        | false => exact ⟨hk, fun _ => hfile⟩
        | true =>
            have hsame : SameExcept (OnlyFile cacheTempSource) u (u.set cacheTempSource none) :=
              sameExcept_set u none rfl
            have hfile' := hfile.frame hsame c.target_ne_cache
            exact ⟨⟨hk.1.trans (hsame.mono fun _ hn => c.touched_cache hn), .inr hfile'⟩,
              fun _ => hfile'⟩

end FileCall

end OpenRecovery.ApplyPatch
