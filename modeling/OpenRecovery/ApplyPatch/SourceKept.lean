import OpenRecovery.ApplyPatch.Soundness

/-!
# What `applypatch` does to a source that is not the target

The comment over `applypatch` says that the source is not deleted on success if it is not the
target. It is deleted in the low-space branch, which does not look at the two names: whenever the
source file is in use and the space test fails, or the first attempt does. `How` records the
outcomes the claim of the comment depends on, `Went` is a successful call with these outcomes, and
`Spared` is the exact condition on them.
-/

set_option autoImplicit false

namespace OpenRecovery.ApplyPatch

open OpenRecovery.Crash OpenRecovery.Edify OpenRecovery.Storage

/-- The two names of a call are two files, or two partitions. -/
structure Different (a : PatchArgs) : Prop where
  names : a.target ≠ a.sourceFilename
  devices : isEmmc a.sourceFilename = true → isEmmc a.target = true →
    deviceOf a.target ≠ deviceOf a.sourceFilename

/-- The source has the contents in `t` that it has in `s`. -/
def SourceKept (a : PatchArgs) (s t : Fs) : Prop :=
  if isEmmc a.sourceFilename then
    ∀ dev, deviceOf a.sourceFilename = some dev → t.parts dev = s.parts dev
  else (t.files a.sourceFilename).map Node.data = (s.files a.sourceFilename).map Node.data

/-- The outcomes of a call that returns 0. The target had its contents already; or it is a file, and
these were the choice of the source and the first pass of the loop; or it is a partition, and
`freed` is the file system after `MakeFreeSpaceOnCache`. -/
inductive How where
  | already
  | file (sel : Selection) (first : Pass)
  | partition (sel : Selection) (freed : Fs)

/-! ## The call, cut at these outcomes -/

section Cut

variable (L : Libs) (a : PatchArgs) (sel : Selection)

/-- The rest of `makeRoom` for a partition, after `MakeFreeSpaceOnCache`. -/
def backUp (m : Int) : FsProg (Except Int (Nat × Bool)) :=
  if m < 0 then return .error 1
  else do
    let r ← saveFileContents cacheTempSource sel.sourceFile
    if r < 0 then return .error 1
    return .ok (0, true)

/-- The rest of a pass, after `makeRoom`. -/
def usePatch : Except Int (Nat × Bool) → FsProg (Except Int Pass)
  | .error code => return .error code
  | .ok (retry, madeCopy) =>
      match sel.toUse with
      | (_, none) => .halt
      | (src, some patch) => do
          match ← runPatch L a src patch with
          | .error code => return .error code
          | .ok (result, ctx, buffer) => return .ok ⟨result, ctx, buffer, retry, madeCopy⟩

/-- The rest of the loop, after the first pass. -/
def tryAgain : Except Int Pass → FsProg (Except Int Pass)
  | .error code => return .error code
  | .ok p =>
      if p.result = 0 then return .ok p
      else if p.retry = 0 then return .error 1
      else do
        if !isEmmc a.target then
          let _ ← sysUnlink a.outname
        attemptLoop L a sel 0 p.madeCopy

theorem attempt_eq (retry : Nat) (madeCopy : Bool) :
    attempt L a sel retry madeCopy = makeRoom L a sel retry madeCopy >>= usePatch L a sel := rfl

theorem attemptLoop_one :
    attemptLoop L a sel 1 false = attempt L a sel 1 false >>= tryAgain L a sel := rfl

theorem makeRoom_partition (ht : isEmmc a.target = true) :
    makeRoom L a sel 1 false =
      makeFreeSpaceOnCache L (toSize L sel.sourceFile.size) >>= backUp sel := by
  simp only [makeRoom, ht, if_true]
  rfl

end Cut

/-- A call from `s` to `t` that returns 0 with these outcomes. -/
def Went (L : Libs) (a : PatchArgs) (sha : Bytes) (s : Fs) : How → Fs → Prop
  | .already, t => Run fsMachine s (selectSource L a sha) t (some (.error 0))
  | .file sel first, t =>
      isEmmc a.target = false ∧ ∃ s' u v p,
        Run fsMachine s (selectSource L a sha) s' (some (.ok sel)) ∧
        Run fsMachine s' (attempt L a sel 1 false) u (some (.ok first)) ∧
        Run fsMachine u (tryAgain L a sel (.ok first)) v (some (.ok p)) ∧
        Run fsMachine v (finishPatch L a sha sel.toUse.1 p.ctx p.buffer p.madeCopy) t (some 0)
  | .partition sel freed, t =>
      isEmmc a.target = true ∧ ∃ s' m v p,
        Run fsMachine s (selectSource L a sha) s' (some (.ok sel)) ∧
        Run fsMachine s' (makeFreeSpaceOnCache L (toSize L sel.sourceFile.size)) freed (some m) ∧
        Run fsMachine freed (backUp sel m >>= usePatch L a sel >>= tryAgain L a sel) v
          (some (.ok p)) ∧
        Run fsMachine v (finishPatch L a sha sel.toUse.1 p.ctx p.buffer p.madeCopy) t (some 0)

/-- The outcomes with which the source survives. A file is unlinked where the source is in use and
the space test or the first attempt fails; besides, it must not be the output file, the saved copy
or one of the files that `MakeFreeSpaceOnCache` deletes. -/
def Spared (a : PatchArgs) (s : Fs) : How → Prop
  | .already => True
  | .file sel first =>
      isEmmc a.sourceFilename = true ∨
        if a.sourceFilename = a.outname then s.files a.sourceFilename = none
        else sel.sourcePatch = none ∨ first.retry ≠ 0 ∧ first.result = 0
  | .partition _ freed =>
      isEmmc a.sourceFilename = true ∨
        if a.sourceFilename = cacheTempSource then s.files a.sourceFilename = none
        else freed.files a.sourceFilename = s.files a.sourceFilename

/-! ## Every successful call has such outcomes -/

section Cut

variable {L : Libs} {a : PatchArgs} {sha : Bytes} {s t : Fs}

/-- Choosing the source changes nothing. -/
theorem wp_selectSource_same {Q : Except Int Selection → Fs → Prop}
    (h : ∀ copy file res, readResult s (selectFrom L a sha copy file) = some res → Q res s) :
    wp fsMachine Q Unless (selectSource L a sha) s := by
  rw [selectSource_eq, wp_bind, wp_sysUninit]
  refine ⟨trivial, ?_⟩
  intro copy
  rw [wp_bind, wp_sysUninit]
  refine ⟨trivial, ?_⟩
  intro file
  exact (readOnly_selectFrom L a sha copy file).wp trivial (h copy file)

theorem run_selectSource {res : Except Int Selection}
    (h : Run fsMachine s (selectSource L a sha) t (some res)) :
    t = s ∧ ∃ copy file, readResult s (selectFrom L a sha copy file) = some res := by
  have hwp : wp fsMachine (fun res t => t = s ∧ ∃ copy file,
      readResult s (selectFrom L a sha copy file) = some res) Unless (selectSource L a sha) s :=
    wp_selectSource_same fun copy file res hres => ⟨rfl, copy, file, hres⟩
  exact (wp_iff_run _ _).1 hwp t (some res) h

end Cut

/-! ## A file as the target -/

section FileTarget

variable {L : Libs} {a : PatchArgs} {sel : Selection} {s t u : Fs} {madeCopy : Bool}

/-- What has become of the source since `s`: it is gone if the low-space branch was taken with the
source in use, and otherwise it is as it was and no copy has been made. -/
structure Fate (a : PatchArgs) (sel : Selection) (s : Fs) (madeCopy : Bool) (low : Prop)
    (madeCopy' : Bool) (t : Fs) : Prop where
  parts : t.parts = s.parts
  gone : low → sel.sourcePatch ≠ none →
    isEmmc a.sourceFilename = false ∧ t.files a.sourceFilename = none
  same : ¬ (low ∧ sel.sourcePatch ≠ none) →
    t.files a.sourceFilename = s.files a.sourceFilename ∧ madeCopy' = madeCopy

theorem Fate.outname {low : Prop} {madeCopy' : Bool} (h : Fate a sel s madeCopy low madeCopy' t)
    (hsrc : a.sourceFilename ≠ a.outname) (hf : SameExcept (OnlyFile a.outname) t u) :
    Fate a sel s madeCopy low madeCopy' u := by
  have hfile := hf.1 a.sourceFilename hsrc
  refine ⟨hf.2.1.trans h.parts, ?_, ?_⟩
  · intro hlow hused
    exact ⟨(h.gone hlow hused).1, hfile.trans (h.gone hlow hused).2⟩
  · intro hnot
    exact ⟨hfile.trans (h.same hnot).1, (h.same hnot).2⟩

/-- The first half of a pass: `retry` is zero afterwards exactly if there was not enough space. -/
def RoomFate (a : PatchArgs) (sel : Selection) (s : Fs) (retry : Nat) (madeCopy : Bool)
    (x : Nat × Bool) (t : Fs) : Prop :=
  (retry = 0 → x.1 = 0) ∧ Fate a sel s madeCopy (x.1 = 0) x.2 t

theorem wp_makeRoom_fate (ht : isEmmc a.target = false) (retry : Nat) :
    wp fsMachine (Stage Unless (RoomFate a sel s retry madeCopy)) Unless
      (makeRoom L a sel retry madeCopy) s := by
  have herr : ∀ t, Stage Unless (RoomFate a sel s retry madeCopy) (.error 1) t :=
    fun t => ⟨by decide, trivial⟩
  simp only [makeRoom, ht, Bool.false_eq_true, if_false]
  refine wp_seq (R := fun enough t => t = s ∧ (retry = 0 → enough = false)) ?_ ?_
  · unfold testSpace
    split
    next hpos =>
      rw [wp_bind]
      exact wp_freeSpaceForFile L _ trivial fun _ => ⟨rfl, fun h => by omega⟩
    next => exact ⟨rfl, fun _ => rfl⟩
  · rintro enough t ⟨rfl, hretry⟩
    have hzero : retry = 0 → (if enough then retry else 0) = 0 := by
      intro h
      rw [h, ite_self]
    split
    next hlow =>
      have hen : enough = false := by simpa using hlow.1
      split
      · exact herr t
      next hsrc =>
        rw [wp_bind]
        refine wp_makeFreeSpaceOnCache L (fun _ _ => trivial) ?_
        intro m u hu
        split
        · exact herr u
        · rw [wp_bind]
          -- the source goes after the copy has been made
          have hrest : ∀ v, SameExcept (OnlyFile cacheTempSource) u v → wp fsMachine
              (Stage Unless (RoomFate a sel t retry madeCopy)) Unless (do
                let _ ← sysUnlink a.sourceFilename
                let _ ← freeSpaceForFile L (topLevelDir a.target)
                return .ok (if enough then retry else 0, true)) v := by
            intro v hv
            rw [wp_bind, wp_sysUnlink]
            refine ⟨trivial, ?_⟩
            rw [wp_bind]
            refine wp_freeSpaceForFile L _ trivial fun _ => ⟨hzero, ?_⟩
            refine ⟨hv.2.1.trans hu.2.1, ?_, ?_⟩
            · exact fun _ _ => ⟨by simpa using hsrc, set_files_self ..⟩
            · exact fun hnot => absurd ⟨by rw [hen]; rfl, hlow.2⟩ hnot
          refine wp_saveFileContents (fun _ _ => trivial) (fun v _ => herr v) ?_ ?_
          · intro v _ hv _ _ _
            simp only [lt_irrefl, if_false]
            exact hrest v hv
          · intro v hv _
            simp only [lt_irrefl, if_false]
            exact hrest v hv
    next hnot =>
      refine ⟨hzero, rfl, ?_, fun _ => ⟨rfl, rfl⟩⟩
      intro hlow hused
      cases enough with
      | false => exact absurd ⟨rfl, hused⟩ hnot
      | true =>
        have hr : retry = 0 := hlow
        exact absurd (hretry hr) (by decide)

/-- A pass, with what it leaves in the output file's place. -/
def PassFate (a : PatchArgs) (sel : Selection) (s : Fs) (retry : Nat) (madeCopy : Bool) (p : Pass)
    (t : Fs) : Prop :=
  (retry = 0 → p.retry = 0) ∧ (t.files a.outname).isSome = true ∧ t.parts = s.parts ∧
    (a.sourceFilename ≠ a.outname → Fate a sel s madeCopy (p.retry = 0) p.madeCopy t)

theorem wp_attempt_fate (ht : isEmmc a.target = false) (retry : Nat) :
    wp fsMachine (Stage Unless (PassFate a sel s retry madeCopy)) Unless
      (attempt L a sel retry madeCopy) s := by
  rw [attempt_eq]
  refine wp_seq (wp_makeRoom_fate ht retry) ?_
  intro res t hres
  cases res with
  | error code => exact hres
  | ok x =>
    obtain ⟨hzero, hfate⟩ := hres
    rcases huse : sel.toUse with ⟨src, patch⟩
    simp only [usePatch, huse]
    cases patch with
    | none => trivial
    | some patch =>
      simp only
      rw [wp_bind]
      refine wp_runPatch_file L ht (fun _ _ => trivial) ?_ ?_
      · exact fun _ _ => ⟨by decide, trivial⟩
      · intro u r f ctx hu _ hf _
        refine ⟨hzero, by rw [hf]; rfl, hu.2.1.trans hfate.parts, ?_⟩
        exact fun hsrc => hfate.outname hsrc hu

/-- The first pass did not do: there was not enough space, or the patch failed. -/
def Pass.FirstFails (first : Pass) : Prop := first.retry = 0 ∨ first.result ≠ 0

/-- The loop, after the first pass. -/
def LoopFate (a : PatchArgs) (sel : Selection) (s : Fs) (first p : Pass) (t : Fs) : Prop :=
  (t.files a.outname).isSome = true ∧ t.parts = s.parts ∧
    (a.sourceFilename ≠ a.outname → Fate a sel s false first.FirstFails p.madeCopy t)

/-- The second pass takes the low-space branch, whatever space there is. -/
theorem fate_secondPass {first p : Pass} (hretry : first.retry ≠ 0) (hresult : first.result ≠ 0)
    (hsrc : a.sourceFilename ≠ a.outname) (hfirst : Fate a sel s false (first.retry = 0) first.madeCopy u)
    (hp : p.retry = 0)
    (hsecond : Fate a sel (u.set a.outname none) first.madeCopy (p.retry = 0) p.madeCopy t) :
    Fate a sel s false first.FirstFails p.madeCopy t := by
  obtain ⟨hsame, hcopy⟩ := hfirst.same fun h => hretry h.1
  refine ⟨hsecond.parts.trans hfirst.parts, ?_, ?_⟩
  · exact fun _ hused => hsecond.gone hp hused
  · intro hnot
    have hunused : ¬ (p.retry = 0 ∧ sel.sourcePatch ≠ none) := fun h =>
      hnot ⟨.inr hresult, h.2⟩
    obtain ⟨hsame', hcopy'⟩ := hsecond.same hunused
    exact ⟨(hsame'.trans (set_files_of_ne _ _ _ hsrc)).trans hsame, hcopy'.trans hcopy⟩

theorem wp_tryAgain_fate (ht : isEmmc a.target = false) {first : Pass}
    (h : PassFate a sel s 1 false first u) :
    wp fsMachine (Stage Unless (LoopFate a sel s first)) Unless (tryAgain L a sel (.ok first)) u := by
  obtain ⟨-, hout, hparts, hfate⟩ := h
  simp only [tryAgain]
  split
  next hresult =>
    refine ⟨hout, hparts, fun hsrc => ?_⟩
    obtain ⟨hfparts, hgone, hsame⟩ := hfate hsrc
    -- the first pass has done it, so only the space test counts
    have hlow : first.FirstFails ↔ first.retry = 0 := or_iff_left (not_not.mpr hresult)
    exact ⟨hfparts, fun hfails => hgone (hlow.mp hfails), fun hnot =>
      hsame fun h => hnot ⟨hlow.mpr h.1, h.2⟩⟩
  next hresult =>
    split
    next => exact ⟨by decide, trivial⟩
    next hretry =>
      simp only [ht, Bool.not_false, if_true]
      rw [wp_bind, wp_sysUnlink]
      refine ⟨trivial, ?_⟩
      rw [attemptLoop, wp_bind]
      refine wp_mono ?_ (fun _ h => h) (wp_attempt_fate ht 0)
      intro res v hres
      cases res with
      | error code => exact hres
      | ok p =>
        obtain ⟨hzero, hout', hparts', hfate'⟩ := hres
        by_cases hdone : p.result = 0
        · have hloop : LoopFate a sel s first p v := by
            refine ⟨hout', hparts'.trans hparts, fun hsrc => ?_⟩
            exact fate_secondPass hretry hresult hsrc (hfate hsrc) (hzero rfl) (hfate' hsrc)
          simp only [hdone, if_true]
          exact hloop
        · simp only [hdone, if_false]
          exact ⟨by decide, trivial⟩

/-- The replacement of the target: the output file is gone, and nothing is there that was not,
but for the target; a copy goes only if this call has made it. -/
structure Replacing (a : PatchArgs) (s : Fs) (madeCopy : Bool) (t : Fs) : Prop where
  parts : t.parts = s.parts
  outname : t.files a.outname = none
  none : ∀ n, n ≠ a.target → s.files n = none → t.files n = none
  same : madeCopy = false → ∀ n, n ≠ a.target → n ≠ a.outname → t.files n = s.files n

theorem run_finishPatch_file (ht : isEmmc a.target = false) {sha : Bytes} {src : FileContents}
    {ctx buffer : Bytes} {madeCopy : Bool} (hout : (s.files a.outname).isSome = true)
    (h : Run fsMachine s (finishPatch L a sha src ctx buffer madeCopy) t (some 0)) :
    Replacing a s madeCopy t := by
  obtain ⟨f, hf⟩ := Option.isSome_iff_exists.mp hout
  have hwp : wp fsMachine (fun r t => r = 0 → Replacing a s madeCopy t) Unless
      (finishPatch L a sha src ctx buffer madeCopy) s := by
    refine wp_finishPatch_file L ht hf ?_ ?_
    · exact fun _ _ => ⟨trivial, fun h => absurd h (by decide)⟩
    · intro u hu hnone _ _
      refine ⟨trivial, fun _ => ?_⟩
      have hgone : ∀ n, n ≠ a.target → s.files n = none → u.files n = none := by
        intro n hn hs
        by_cases hname : n = a.outname
        · rw [hname]
          exact hnone
        · exact (hu.1 n fun h => h.elim hname hn).trans hs
      have hsame : ∀ n, n ≠ a.target → n ≠ a.outname → u.files n = s.files n :=
        fun n hn hname => hu.1 n fun h => h.elim hname hn
      cases madeCopy with
      | false => exact ⟨hu.2.1, hnone, hgone, fun _ => hsame⟩
      | true =>
        have hunlink : ∀ n, u.files n = none → (u.set cacheTempSource none).files n = none := by
          intro n hn
          by_cases hc : n = cacheTempSource
          · rw [hc]
            exact set_files_self ..
          · exact (set_files_of_ne u _ none hc).trans hn
        exact ⟨hu.2.1, hunlink _ hnone, fun n hn hs => hunlink n (hgone n hn hs), nofun⟩
  exact (wp_iff_run _ _).1 hwp t (some 0) h rfl

/-- A source in use has been loaded from its file. -/
theorem source_loaded {sha : Bytes} (hdiff : Different a) (hsrc : isEmmc a.sourceFilename = false)
    {copy file : FileContents}
    (h : readResult s (selectFrom L a sha copy file) = some (.ok sel))
    (hused : sel.sourcePatch ≠ none) : s.files a.sourceFilename ≠ none := by
  intro hnone
  obtain ⟨r, f, -, h⟩ := readResult_selectFrom h
  rw [chooseSource] at h
  split at h
  next => cases h
  next =>
    rw [(readOnly_loadSource L a f).readResult_bind] at h
    obtain ⟨src, hsource, h⟩ := Option.bind_eq_some_iff.1 h
    -- the names differ, so the source is loaded from its own file
    rw [loadSource, if_pos (.inr hdiff.names), (readOnly_loadFileContents L _ _ _).readResult_bind,
      readResult_loadFile L hsrc, hnone] at hsource
    cases hsource
    have hpatch : ∀ g : FileContents, g.data = none → a.patchForFile g = none :=
      fun _ h => if_pos h
    rw [hpatch _ rfl, chooseCopy, (readOnly_loadFileContents L _ _ _).readResult_bind] at h
    obtain ⟨⟨r', f'⟩, -, h⟩ := Option.bind_eq_some_iff.1 h
    simp only at h
    split at h
    next => cases h
    next =>
      split at h
      next => cases h
      next =>
        cases h
        exact hused rfl

/-- The fate of the source in a successful call. -/
theorem kept_iff_file (hdiff : Different a) {sha : Bytes} {first : Pass}
    (h : Went L a sha s (.file sel first) t) :
    SourceKept a s t ↔ Spared a s (.file sel first) := by
  obtain ⟨ht, s', u, v, p, hselect, hfirst, hagain, hfinish⟩ := h
  obtain ⟨rfl, copy, file, hsel⟩ := run_selectSource hselect
  have hpass := (wp_iff_run _ _).1 (wp_attempt_fate ht 1) u _ hfirst
  obtain ⟨hout, hparts, hfate⟩ := (wp_iff_run _ _).1 (wp_tryAgain_fate ht hpass) v _ hagain
  have hend := run_finishPatch_file ht hout hfinish
  cases hsrc : isEmmc a.sourceFilename with
  | true =>
    refine iff_of_true ?_ (.inl hsrc)
    simp only [SourceKept, hsrc, if_true, hend.parts, hparts, implies_true]
  | false =>
    simp only [SourceKept, Spared, hsrc, Bool.false_eq_true, if_false, false_or]
    split
    next heq =>
      -- the output file has been renamed
      rw [heq, hend.outname, Option.map_none, eq_comm, Option.map_eq_none_iff]
    next hne =>
      have htarget : a.sourceFilename ≠ a.target := fun h => hdiff.names h.symm
      by_cases hlow : first.FirstFails ∧ sel.sourcePatch ≠ none
      · have hgone := ((hfate hne).gone hlow.1 hlow.2).2
        rw [hend.none _ htarget hgone, Option.map_none, eq_comm, Option.map_eq_none_iff]
        refine iff_of_false (source_loaded hdiff hsrc hsel hlow.2) ?_
        rintro (hunused | ⟨hretry, hresult⟩)
        · exact hlow.2 hunused
        · exact hlow.1.elim hretry fun hfails => hfails hresult
      · obtain ⟨hsame, hcopy⟩ := (hfate hne).same hlow
        refine iff_of_true (congrArg _ ((hend.same hcopy _ htarget hne).trans hsame)) ?_
        by_cases hunused : sel.sourcePatch = none
        · exact .inl hunused
        · refine .inr ⟨fun hretry => hlow ⟨.inl hretry, hunused⟩, ?_⟩
          by_contra hresult
          exact hlow ⟨.inr hresult, hunused⟩

end FileTarget

/-! ## A partition as the target -/

section PartitionTarget

variable {L : Libs} {a : PatchArgs} {sel : Selection} {s t u : Fs}

/-- After the backup, only the saved copy has changed. -/
def BackedUp (s : Fs) (p : Pass) (t : Fs) : Prop :=
  SameExcept (OnlyFile cacheTempSource) s t ∧ p.madeCopy = true

theorem wp_afterFreed (ht : isEmmc a.target = true) (m : Int) :
    wp fsMachine (Stage Unless (BackedUp s)) Unless
      (backUp sel m >>= usePatch L a sel >>= tryAgain L a sel) s := by
  have hbackUp : wp fsMachine (Stage Unless fun x t => x = (0, true) ∧
      SameExcept (OnlyFile cacheTempSource) s t) Unless (backUp sel m) s := by
    unfold backUp
    split
    next => exact ⟨by decide, trivial⟩
    next =>
      rw [wp_bind]
      refine wp_saveFileContents (fun _ _ => trivial) ?_ ?_ ?_
      · exact fun _ _ => ⟨by decide, trivial⟩
      · intro t _ ht _ _ _
        exact ⟨rfl, ht⟩
      · intro t ht _
        exact ⟨rfl, ht⟩
  have hpass : wp fsMachine (Stage Unless fun p t => BackedUp s p t ∧ p.retry = 0) Unless
      (backUp sel m >>= usePatch L a sel) s := by
    refine wp_seq hbackUp ?_
    intro res t hres
    cases res with
    | error code => exact hres
    | ok x =>
      obtain ⟨rfl, hsame⟩ := hres
      rcases huse : sel.toUse with ⟨src, patch⟩
      simp only [usePatch, huse]
      cases patch with
      | none => trivial
      | some patch =>
        -- the patch is applied in memory
        simp only [runPatch, ht, if_true]
        split
        next => exact ⟨by decide, trivial⟩
        next =>
          rw [wp_bind, wp_bind]
          refine wp_applyBlob_memory L trivial ?_ ?_ ?_
          · exact ⟨by decide, trivial⟩
          · exact fun _ => ⟨⟨hsame, rfl⟩, rfl⟩
          · exact fun _ _ _ _ => ⟨⟨hsame, rfl⟩, rfl⟩
  refine wp_seq hpass ?_
  intro res t hres
  cases res with
  | error code => exact hres
  | ok p =>
    simp only [tryAgain, hres.2, if_true]
    split
    next => exact hres.1
    next => exact ⟨by decide, trivial⟩

/-- The end of the call writes the partition and removes the saved copy. -/
theorem run_finishPatch_part (ht : isEmmc a.target = true) {sha : Bytes} {src : FileContents}
    {ctx buffer : Bytes} {madeCopy : Bool} (hcopy : madeCopy = true)
    (h : Run fsMachine s (finishPatch L a sha src ctx buffer madeCopy) t (some 0)) :
    t.files = (s.set cacheTempSource none).files ∧
      ∀ dev, deviceOf a.target ≠ some dev → t.parts dev = s.parts dev := by
  have hwp : wp fsMachine (fun r t => r = 0 → t.files = (s.set cacheTempSource none).files ∧
      ∀ dev, deviceOf a.target ≠ some dev → t.parts dev = s.parts dev) Unless
      (finishPatch L a sha src ctx buffer madeCopy) s := by
    unfold finishPatch
    split
    next => exact fun h => absurd h (by decide)
    next =>
      rw [wp_bind]
      refine wp_writeToPartition ?_ ?_
      · exact fun _ h => absurd h (by decide)
      · intro dev old hdev _
        rw [if_neg (not_not.mpr rfl), wp_bind, wp_sysUnlink]
        refine ⟨trivial, fun _ => ⟨rfl, ?_⟩⟩
        intro dev' hdev'
        have hne : dev' ≠ dev := fun h => hdev' (h ▸ hdev)
        exact Function.update_of_ne hne ..
  exact (wp_iff_run _ _).1 hwp t (some 0) h rfl

theorem kept_iff_partition (hdiff : Different a) {sha : Bytes} {freed : Fs}
    (h : Went L a sha s (.partition sel freed) t) :
    SourceKept a s t ↔ Spared a s (.partition sel freed) := by
  obtain ⟨ht, s', m, v, p, hselect, hfree, hrest, hfinish⟩ := h
  obtain ⟨rfl, -⟩ := run_selectSource hselect
  have hpruned : Pruned s' freed := by
    have hwp : wp fsMachine (fun _ t => Pruned s' t) Unless
        (makeFreeSpaceOnCache L (toSize L sel.sourceFile.size)) s' :=
      wp_makeFreeSpaceOnCache_pruned L (fun _ _ => trivial) fun _ _ h => h
    exact (wp_iff_run _ _).1 hwp freed (some m) hfree
  obtain ⟨hsame, hcopy⟩ := (wp_iff_run _ _).1 (wp_afterFreed ht m) v _ hrest
  obtain ⟨hfiles, hparts⟩ := run_finishPatch_part ht hcopy hfinish
  cases hsrc : isEmmc a.sourceFilename with
  | true =>
    refine iff_of_true ?_ (.inl hsrc)
    simp only [SourceKept, hsrc, if_true]
    intro dev hdev
    rw [hparts dev (hdev ▸ hdiff.devices hsrc ht), hsame.2.1, hpruned.same.2.1]
  | false =>
    simp only [SourceKept, Spared, hsrc, Bool.false_eq_true, if_false, false_or, hfiles]
    split
    next heq => rw [heq, set_files_self, Option.map_none, eq_comm, Option.map_eq_none_iff]
    next hne =>
      rw [set_files_of_ne _ _ _ hne, hsame.1 _ hne]
      rcases hpruned.lost a.sourceFilename with hkept | hlost
      · simp only [hkept]
      · rw [hlost, Option.map_none, eq_comm, Option.map_eq_none_iff, eq_comm]

end PartitionTarget

/-! ## Every successful call -/

section Outcomes

variable {L : Libs} {a : PatchArgs} {sel : Selection} {s t : Fs}

theorem attemptLoop_partition (ht : isEmmc a.target = true) :
    attemptLoop L a sel 1 false =
      makeFreeSpaceOnCache L (toSize L sel.sourceFile.size) >>= fun m =>
        backUp sel m >>= usePatch L a sel >>= tryAgain L a sel := by
  rw [attemptLoop_one, attempt_eq, makeRoom_partition L a sel ht]
  simp only [Prog.bind_bind]

/-- The loop does not give up with status 0. -/
theorem attemptLoop_error {code : Int}
    (h : Run fsMachine s (attemptLoop L a sel 1 false) t (some (.error code))) : code ≠ 0 := by
  have hwp : wp fsMachine (Stage Unless fun _ _ => True) Unless (attemptLoop L a sel 1 false) s := by
    cases ht : isEmmc a.target with
    | true =>
      rw [attemptLoop_partition ht, wp_bind]
      refine wp_makeFreeSpaceOnCache L (fun _ _ => trivial) ?_
      intro m u _
      refine wp_mono ?_ (fun _ h => h) (wp_afterFreed ht m)
      intro res v hres
      cases res with
      | error code => exact hres
      | ok p => trivial
    | false =>
      rw [attemptLoop_one]
      refine wp_seq (wp_attempt_fate ht 1) ?_
      intro res u hres
      cases res with
      | error code => exact hres
      | ok first =>
        refine wp_mono ?_ (fun _ h => h) (wp_tryAgain_fate ht hres)
        intro res v hres
        cases res with
        | error code => exact hres
        | ok p => trivial
  exact ((wp_iff_run _ _).1 hwp t _ h).1

/-- A call that returns 0 has one of these outcomes. -/
theorem run_iff_went :
    Run fsMachine s (applypatch L a) t (some 0) ↔
      ∃ sha, parseSha1 a.targetSha1Str = some sha ∧ ∃ how, Went L a sha s how t := by
  unfold applypatch
  cases hsha : parseSha1 a.targetSha1Str with
  | none =>
    constructor
    · intro h
      cases h
    · rintro ⟨sha, h, -⟩
      cases h
  | some sha =>
    simp only [Option.some.injEq, exists_eq_left']
    rw [run_bind_some]
    constructor
    · rintro ⟨s', res, hselect, hrest⟩
      cases res with
      | error code =>
        cases hrest
        exact ⟨.already, hselect⟩
      | ok sel =>
        rw [patchSelected, run_bind_some] at hrest
        obtain ⟨v, res, hloop, hfinish⟩ := hrest
        cases res with
        | error code =>
          cases hfinish
          exact absurd rfl (attemptLoop_error hloop)
        | ok p =>
          cases ht : isEmmc a.target with
          | true =>
            rw [attemptLoop_partition ht, run_bind_some] at hloop
            obtain ⟨freed, m, hfree, hrest⟩ := hloop
            exact ⟨.partition sel freed, ht, s', m, v, p, hselect, hfree, hrest, hfinish⟩
          | false =>
            rw [attemptLoop_one, run_bind_some] at hloop
            obtain ⟨u, res, hfirst, hagain⟩ := hloop
            cases res with
            | error code => cases hagain
            | ok first =>
              exact ⟨.file sel first, ht, s', u, v, p, hselect, hfirst, hagain, hfinish⟩
    · rintro ⟨how, h⟩
      cases how with
      | already => exact ⟨t, .error 0, h, .ret t 0⟩
      | file sel first =>
        obtain ⟨ht, s', u, v, p, hselect, hfirst, hagain, hfinish⟩ := h
        refine ⟨s', .ok sel, hselect, ?_⟩
        rw [patchSelected, run_bind_some, attemptLoop_one]
        exact ⟨v, .ok p, hfirst.bind hagain, hfinish⟩
      | partition sel freed =>
        obtain ⟨ht, s', m, v, p, hselect, hfree, hrest, hfinish⟩ := h
        refine ⟨s', .ok sel, hselect, ?_⟩
        rw [patchSelected, run_bind_some, attemptLoop_partition ht]
        exact ⟨v, .ok p, hfree.bind hrest, hfinish⟩

end Outcomes

/-- The source of a successful call survives exactly with the outcomes that spare it. -/
theorem source_survives_iff (L : Libs) (a : PatchArgs) (hdiff : Different a) (s t : Fs) :
    (Run fsMachine s (applypatch L a) t (some 0) ↔
      ∃ sha, parseSha1 a.targetSha1Str = some sha ∧ ∃ how, Went L a sha s how t) ∧
    ∀ sha how, Went L a sha s how t → (SourceKept a s t ↔ Spared a s how) := by
  refine ⟨run_iff_went, ?_⟩
  intro sha how h
  cases how with
  | already =>
    obtain ⟨rfl, -⟩ := run_selectSource h
    refine iff_of_true ?_ trivial
    unfold SourceKept
    split
    · exact fun _ _ => rfl
    · rfl
  | file sel first => exact kept_iff_file hdiff h
  | partition sel freed => exact kept_iff_partition hdiff h

namespace Sample

/-- `/system/z` from the contents `a` of `/system/x`. -/
def copyArgs : PatchArgs :=
  { inPlace (cstr "/system/x") (cstr "a") (cstr "b") with targetFilename := cstr "/system/z" }

/-- Every system call succeeds, and `space` bytes are free. -/
def spaceOnly (space : Nat) (_ : Nat) (s : Fs) (o : Op) : Event Fs o.Res :=
  .reply (smoothReply (1, space) s o)

theorem spaceOnly_possible (space i : Nat) (s : Fs) (o : Op) :
    (spaceOnly space i s o).Possible fsMachine s o :=
  smoothReply_allowed (1, space) s o

/-- The call with that much free space. -/
def copyRun (space : Nat) : Fs × Option Int :=
  exec fsMachine (spaceOnly space) 0 start (applypatch libs copyArgs)

theorem copyArgs_different : Different copyArgs where
  names := by decide
  devices := by decide

theorem run_copyRun {space : Nat} (h : (copyRun space).2 = some 0) :
    Run fsMachine start (applypatch libs copyArgs) (copyRun space).1 (some 0) :=
  h ▸ exec_run (spaceOnly_possible space) (applypatch libs copyArgs) 0 start

end Sample

/-- With much space the call returns 0 and spares the source. -/
theorem source_survives_roomy :
    ∃ sha how, Went Sample.libs Sample.copyArgs sha Sample.start how (Sample.copyRun 1000000).1 ∧
      SourceKept Sample.copyArgs Sample.start (Sample.copyRun 1000000).1 ∧
      Spared Sample.copyArgs Sample.start how := by
  have hspec := source_survives_iff Sample.libs Sample.copyArgs Sample.copyArgs_different
    Sample.start (Sample.copyRun 1000000).1
  obtain ⟨sha, -, how, hwent⟩ := hspec.1.1 (Sample.run_copyRun (by decide +kernel))
  have hkept : SourceKept Sample.copyArgs Sample.start (Sample.copyRun 1000000).1 := by
    rw [SourceKept, if_neg (by decide)]
    decide +kernel
  exact ⟨sha, how, hwent, hkept, (hspec.2 sha how hwent).1 hkept⟩

/-- With little space the call returns 0 and the source is gone, though another file is the
target. -/
theorem source_deleted :
    Different Sample.copyArgs ∧
      Run fsMachine Sample.start (applypatch Sample.libs Sample.copyArgs) (Sample.copyRun 1000).1
        (some 0) ∧
      Sample.start.files (cstr "/system/x") = some ⟨cstr "a", ⟨0o644, 0, 0⟩⟩ ∧
      (Sample.copyRun 1000).1.files (cstr "/system/x") = none ∧
      ¬ SourceKept Sample.copyArgs Sample.start (Sample.copyRun 1000).1 := by
  have hzero : (Sample.copyRun 1000).2 = some 0 := by decide +kernel
  have hgone : (Sample.copyRun 1000).1.files (cstr "/system/x") = none := by decide +kernel
  refine ⟨Sample.copyArgs_different, Sample.run_copyRun hzero, by decide, hgone, ?_⟩
  intro hkept
  have hsource : (none : Option Node).map Node.data = some (cstr "a") := hgone ▸ hkept
  cases hsource

end OpenRecovery.ApplyPatch
