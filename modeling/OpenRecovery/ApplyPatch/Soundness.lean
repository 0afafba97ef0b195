import OpenRecovery.ApplyPatch.CrashSafety
import OpenRecovery.Retouch.MaskSpec

/-!
# When a zero status means that the target is right

`Installed` is what a zero status of `applypatch` is taken to mean: the bytes at the target have the
target digest. `Misleading` is the exact condition on the arguments and the state before the call
under which some run returns zero without it. Either a patch in the image format has normal chunks
whose output can be cut short so that the digest, which leaves them out, still matches while the
file does not; or the target is the saved copy itself, which a call that is low on space removes at
its end.

`applypatch_sound_iff` proves the equivalence: every behaviour of the file system for the one
direction, a constructed run for the other.
-/

set_option autoImplicit false

namespace OpenRecovery.ApplyPatch

open OpenRecovery.Crash OpenRecovery.Edify OpenRecovery.Retouch OpenRecovery.Storage

/-! ## Selecting only reads -/

theorem readOnly_loadSource (L : Libs) (a : PatchArgs) (file : FileContents) :
    ReadOnly (loadSource L a file) := by
  unfold loadSource
  split
  · exact (readOnly_loadFileContents L _ _ _).bind fun _ => readOnly_pure _
  · exact readOnly_pure _

theorem readOnly_chooseSource (L : Libs) (a : PatchArgs) (sha : Bytes) (copy : FileContents) (r : Int)
    (file : FileContents) : ReadOnly (chooseSource L a sha copy r file) := by
  have hcopy : ∀ src, ReadOnly (chooseCopy L a src copy) := by
    intro src
    refine (readOnly_loadFileContents L _ _ _).bind ?_
    intro x
    simp only
    split
    · exact readOnly_pure _
    · split
      · exact readOnly_pure _
      · exact readOnly_pure _
  unfold chooseSource
  split
  · exact readOnly_pure _
  · refine (readOnly_loadSource L a _).bind ?_
    intro src
    split
    · exact readOnly_pure _
    · exact hcopy src

/-- The selection with the contents of the uninitialised locals given. -/
def selectFrom (L : Libs) (a : PatchArgs) (sha : Bytes) (copy file : FileContents) :
    FsProg (Except Int Selection) := do
  let x ← loadFileContents L a.target file true
  chooseSource L a sha copy x.1 x.2

theorem readOnly_selectFrom (L : Libs) (a : PatchArgs) (sha : Bytes) (copy file : FileContents) :
    ReadOnly (selectFrom L a sha copy file) :=
  (readOnly_loadFileContents L _ _ _).bind fun _ => readOnly_chooseSource L a sha copy _ _

theorem selectSource_eq (L : Libs) (a : PatchArgs) (sha : Bytes) :
    selectSource L a sha = (do
      let copy ← sysUninit
      let file ← sysUninit
      selectFrom L a sha copy file) := rfl

/-- In the state `s` the call chooses `sel`, for some contents of the uninitialised locals. -/
def Selects (L : Libs) (a : PatchArgs) (sha : Bytes) (s : Fs) (sel : Selection) : Prop :=
  ∃ copy file, readResult s (selectFrom L a sha copy file) = some (.ok sel)

/-! ## What is loaded -/

/-- The device a partition name is about. -/
def deviceOf (n : Name) : Option Name := (strtok colon n).tail.head?

/-- A partition that loads with status zero has a prefix with the digest found. -/
theorem readResult_loadPartition {L : Libs} {n : Name} (hn : isEmmc n = true) {file f : FileContents}
    {s : Fs} (h : readResult s (loadFileContents L n file true) = some (0, f)) :
    ∃ dev x d, deviceOf n = some dev ∧ s.parts dev = some d ∧ x <+: d ∧ f.sha1 = L.sha1 x := by
  simp only [loadFileContents, hn, if_true] at h
  obtain ⟨dev, d, x, hdev, hd, hx, hloaded⟩ := loadPartitionContents_loaded h
  exact ⟨dev, x, d, hdev, hd, hx, hloaded.2.2⟩

/-! ## What success means -/

/-- The target file loads, through masking, with the target digest. -/
def AlreadyPatched (L : Libs) (a : PatchArgs) (sha : Bytes) (s : Fs) : Prop :=
  ∃ f x off, s.files a.target = some f ∧ retouchMaskData f.data (some 0) = (.matched, x, off) ∧
    L.sha1 x = sha

/-- The target file has the digest `sha` after a call that started in `s`: after masking when it was
already patched, as it stands otherwise. -/
def FileInstalled (L : Libs) (a : PatchArgs) (sha : Bytes) (s t : Fs) : Prop :=
  (AlreadyPatched L a sha s → AlreadyPatched L a sha t) ∧
    (¬ AlreadyPatched L a sha s → ∃ f, t.files a.target = some f ∧ L.sha1 f.data = sha)

/-- A prefix `x` of the partition has the digest `sha`, and either it was there before the call or
it was written over what was there. -/
def PartInstalled (L : Libs) (a : PatchArgs) (sha : Bytes) (s t : Fs) : Prop :=
  ∃ dev x old, deviceOf a.target = some dev ∧ s.parts dev = some old ∧ L.sha1 x = sha ∧
    ((x <+: old ∧ t.parts dev = some old) ∨ t.parts dev = some (x ++ old.drop x.length))

/-- What a zero status is taken to mean. -/
def Installed (L : Libs) (a : PatchArgs) (s t : Fs) : Prop :=
  ∃ sha, parseSha1 a.targetSha1Str = some sha ∧
    if isEmmc a.target then PartInstalled L a sha s t else FileInstalled L a sha s t

/-- A call low on space saves the source file to the saved copy, and removes the copy at its end. -/
def SavesCopy (a : PatchArgs) (sel : Selection) : Prop :=
  sel.sourcePatch ≠ none ∧ isEmmc a.sourceFilename = false

/-- The chosen patch has an outcome with status zero and the target digest that is not the target:
what reached the file has another digest, or the file is the saved copy that the call removes. -/
def Misleading (L : Libs) (a : PatchArgs) (s : Fs) : Prop :=
  ∃ sha sel src v stored absorbed, parseSha1 a.targetSha1Str = some sha ∧
    isEmmc a.target = false ∧ Selects L a sha s sel ∧ sel.toUse = (src, some v) ∧ v.type = .blob ∧
    Outcome L src v 0 stored absorbed ∧ L.sha1 absorbed = sha ∧
    (L.sha1 stored ≠ sha ∨ a.target = cacheTempSource ∧ SavesCopy a sel)

/-! ## Selections -/

theorem readResult_selectFrom {L : Libs} {a : PatchArgs} {sha : Bytes} {copy file : FileContents}
    {s : Fs} {res : Except Int Selection}
    (h : readResult s (selectFrom L a sha copy file) = some res) :
    ∃ r f, readResult s (loadFileContents L a.target file true) = some (r, f) ∧
      readResult s (chooseSource L a sha copy r f) = some res := by
  rw [selectFrom, (readOnly_loadFileContents L _ _ _).readResult_bind] at h
  obtain ⟨⟨r, f⟩, hload, hres⟩ := Option.bind_eq_some_iff.1 h
  exact ⟨r, f, hload, hres⟩

/-- The only error return with code zero is the already-patched one. -/
theorem chooseSource_error {L : Libs} {a : PatchArgs} {sha : Bytes} {copy f : FileContents}
    {s : Fs} {r code : Int} (h : readResult s (chooseSource L a sha copy r f) = some (.error code))
    (hcode : code = 0) : r = 0 ∧ f.sha1 = sha := by
  by_contra hne
  rw [chooseSource, if_neg hne] at h
  rw [(readOnly_loadSource L a _).readResult_bind] at h
  obtain ⟨src, -, h⟩ := Option.bind_eq_some_iff.1 h
  split at h
  · cases h
  · rw [chooseCopy, (readOnly_loadFileContents L _ _ _).readResult_bind] at h
    obtain ⟨⟨r', f'⟩, -, h⟩ := Option.bind_eq_some_iff.1 h
    simp only at h
    split at h
    · cases h
      exact absurd hcode (by decide)
    · split at h
      · cases h
        exact absurd hcode (by decide)
      · cases h

/-- A selection is made only when the target is not already patched. -/
theorem Selects.not_alreadyPatched {L : Libs} {a : PatchArgs} {sha : Bytes} {s : Fs}
    {sel : Selection} (ht : isEmmc a.target = false) (h : Selects L a sha s sel) :
    ¬ AlreadyPatched L a sha s := by
  rintro ⟨f, x, off, hf, hm, hx⟩
  obtain ⟨copy, file, h⟩ := h
  obtain ⟨r, g, hload, hres⟩ := readResult_selectFrom h
  rw [readResult_loadFile L ht, hf, loadNode_matched L file hm] at hload
  cases hload
  rw [chooseSource, if_pos ⟨rfl, hx⟩] at hres
  cases hres

/-! ## No run misleads -/

/-- Partial correctness: nothing is said about interrupted runs. -/
def Unless : Fs → Prop := fun _ => True

theorem wp_makeRoom_file (L : Libs) {a : PatchArgs} (ht : isEmmc a.target = false) {sel : Selection}
    {retry : Nat} {madeCopy : Bool} {s : Fs} :
    wp fsMachine (Stage Unless fun x _ => x.2 = true → madeCopy = true ∨ SavesCopy a sel) Unless
      (makeRoom L a sel retry madeCopy) s := by
  have herr : ∀ t, Stage Unless (fun (x : Nat × Bool) _ => x.2 = true → madeCopy = true ∨ SavesCopy a sel)
      (.error 1) t := fun t => ⟨by decide, trivial⟩
  simp only [makeRoom, ht, Bool.false_eq_true, if_false]
  refine wp_seq (R := fun _ _ => True) ?_ ?_
  · unfold testSpace
    split
    · rw [wp_bind]
      exact wp_freeSpaceForFile L _ trivial fun _ => trivial
    · trivial
  · intro enough t _
    split
    · rename_i hlow
      split
      · exact herr t
      · rename_i hsrc
        rw [wp_bind]
        refine wp_makeFreeSpaceOnCache L (fun _ _ => trivial) ?_
        intro m u _
        split
        · exact herr u
        · rw [wp_bind]
          have hrest : ∀ v, wp fsMachine
              (Stage Unless fun x _ => x.2 = true → madeCopy = true ∨ SavesCopy a sel) Unless (do
                let _ ← sysUnlink a.sourceFilename
                let _ ← freeSpaceForFile L (topLevelDir a.target)
                return .ok (if enough then retry else 0, true)) v := by
            intro v
            rw [wp_bind, wp_sysUnlink]
            refine ⟨trivial, ?_⟩
            rw [wp_bind]
            refine wp_freeSpaceForFile L _ trivial ?_
            intro _ _
            exact .inr ⟨hlow.2, by simpa using hsrc⟩
          refine wp_saveFileContents (fun _ _ => trivial) (fun v _ => herr v) ?_ ?_
          · intro v _ _ _ _ _
            simp only [lt_irrefl, if_false]
            exact hrest v
          · intro v _ _
            simp only [lt_irrefl, if_false]
            exact hrest v
    · intro hm
      exact .inl hm

/-- What is known after a pass that writes to a file. -/
def FilePass (L : Libs) (a : PatchArgs) (sel : Selection) (p : Pass) (t : Fs) : Prop :=
  (p.madeCopy = true → SavesCopy a sel) ∧ ∃ src v f, sel.toUse = (src, some v) ∧ v.type = .blob ∧
    t.files a.outname = some f ∧ Outcome L src v p.result f.data p.ctx

theorem wp_attempt_file (L : Libs) {a : PatchArgs} (ht : isEmmc a.target = false) {sel : Selection}
    (retry : Nat) (madeCopy : Bool) (s : Fs) (hm : madeCopy = true → SavesCopy a sel) :
    wp fsMachine (Stage Unless (FilePass L a sel)) Unless (attempt L a sel retry madeCopy) s := by
  rw [attempt]
  refine wp_seq (wp_makeRoom_file L ht) ?_
  intro res t hres
  cases res with
  | error code => exact hres
  | ok x =>
      obtain ⟨retry', madeCopy'⟩ := x
      have hm' : madeCopy' = true → SavesCopy a sel := by
        intro h
        rcases hres h with h | h
        · exact hm h
        · exact h
      rcases huse : sel.toUse with ⟨src, p⟩
      cases p with
      | none => trivial
      | some v =>
          simp only
          rw [wp_bind]
          refine wp_runPatch_file L ht (fun _ _ => trivial) ?_ ?_
          · intro u _
            exact ⟨by decide, trivial⟩
          · intro u r f ctx _ hblob hf ho
            exact ⟨hm', src, v, f, huse, hblob, hf, ho⟩

theorem wp_patchSelected_file (L : Libs) {a : PatchArgs} {sha : Bytes}
    (ht : isEmmc a.target = false) {sel : Selection} {s : Fs}
    (hsel : ∀ src v stored absorbed, sel.toUse = (src, some v) → v.type = .blob →
      Outcome L src v 0 stored absorbed → L.sha1 absorbed = sha →
      L.sha1 stored = sha ∧ ¬ (a.target = cacheTempSource ∧ SavesCopy a sel)) :
    wp fsMachine (fun r t => r = 0 → ∃ f, t.files a.target = some f ∧ L.sha1 f.data = sha) Unless
      (patchSelected L a sha (.ok sel)) s := by
  have hloop := wp_attemptLoop (I := fun madeCopy _ => madeCopy = true → SavesCopy a sel)
    (fun retry madeCopy t hm => wp_attempt_file L ht retry madeCopy t hm) (fun _ _ _ => trivial)
    (fun p t hp _ => ⟨trivial, hp.1⟩) 1 false (s := s) (fun h => absurd h (by decide))
  simp only [patchSelected]
  refine wp_seq hloop ?_
  intro res t hres
  cases res with
  | error code => exact fun h => absurd h hres.1
  | ok p =>
      obtain ⟨⟨hm, src, v, f, huse, hblob, hf, ho⟩, hzero⟩ := hres
      rw [hzero] at ho
      refine wp_finishPatch_file L ht hf ?_ ?_
      · intro u _
        exact ⟨trivial, fun h => absurd h (by decide)⟩
      · intro u _ _ hfile hsha
        obtain ⟨hstored, hcopy⟩ := hsel src v f.data p.ctx huse hblob ho hsha
        obtain ⟨g, hg, hgd⟩ := hfile
        refine ⟨trivial, fun _ => ?_⟩
        cases hmc : p.madeCopy with
        | false => exact ⟨g, hg, by rw [hgd]; exact hstored⟩
        | true =>
            have hne : a.target ≠ cacheTempSource := fun h => hcopy ⟨h, hm hmc⟩
            refine ⟨g, ?_, by rw [hgd]; exact hstored⟩
            simp only [if_true]
            rw [set_files_of_ne _ _ _ hne]
            exact hg

/-! ## Partitions never mislead -/

theorem wp_makeRoom_part (L : Libs) {a : PatchArgs} (ht : isEmmc a.target = true) {sel : Selection}
    {retry : Nat} {madeCopy : Bool} {s t : Fs} (hparts : t.parts = s.parts) :
    wp fsMachine (Stage Unless fun _ u => u.parts = s.parts) Unless
      (makeRoom L a sel retry madeCopy) t := by
  have herr : ∀ u, Stage Unless (fun (_ : Nat × Bool) u => u.parts = s.parts) (.error 1) u :=
    fun u => ⟨by decide, trivial⟩
  simp only [makeRoom, ht, if_true]
  rw [wp_bind]
  refine wp_makeFreeSpaceOnCache L (fun _ _ => trivial) ?_
  intro m u hu
  have hpu : u.parts = s.parts := hu.2.1.trans hparts
  split
  · exact herr u
  · rw [wp_bind]
    refine wp_saveFileContents (fun _ _ => trivial) (fun v _ => herr v) ?_ ?_
    · intro v _ hv _ _ _
      exact hv.2.1.trans hpu
    · intro v hv _
      exact hv.2.1.trans hpu

theorem wp_attempt_part (L : Libs) {a : PatchArgs} (ht : isEmmc a.target = true) {sel : Selection}
    (retry : Nat) (madeCopy : Bool) {s t : Fs} (hparts : t.parts = s.parts) :
    wp fsMachine (Stage Unless fun p u => u.parts = s.parts ∧ (p.result = 0 → p.buffer = p.ctx))
      Unless (attempt L a sel retry madeCopy) t := by
  rw [attempt]
  refine wp_seq (wp_makeRoom_part L ht hparts) ?_
  intro res u hres
  cases res with
  | error code => exact hres
  | ok x =>
      obtain ⟨retry', madeCopy'⟩ := x
      rcases sel.toUse with ⟨src, p⟩
      cases p with
      | none => trivial
      | some v =>
          simp only [runPatch]
          rw [wp_bind]
          split
          · exact ⟨by decide, trivial⟩
          · rw [wp_bind]
            refine wp_applyBlob_memory L trivial ⟨by decide, trivial⟩ ?_ ?_
            · intro msi
              exact ⟨hres, fun _ => rfl⟩
            · intro r msi ctx hr
              exact ⟨hres, fun h => absurd h hr⟩

/-- What `WriteToPartition` leaves on the device when it returns zero. -/
theorem wp_writeToPartition {data : Bytes} {n : Name} {s : Fs} {Q : Int → Fs → Prop}
    (hbad : ∀ t, Q (-1) t)
    (hok : ∀ dev old, deviceOf n = some dev → s.parts dev = some old →
      Q 0 (s.setPart dev (some (data ++ old.drop data.length)))) :
    wp fsMachine Q Unless (writeToPartition data n) s := by
  unfold writeToPartition
  cases htok : strtok colon n with
  | nil => trivial
  | cons magic tokens =>
      simp only
      split
      · exact hbad s
      · cases hhead : tokens.head? with
        | none => exact hbad s
        | some dev =>
            simp only
            rw [wp_bind, wp_sysWritePart]
            refine ⟨trivial, trivial, ?_⟩
            intro old hold
            refine ⟨fun new _ => ⟨trivial, hbad _⟩, fun _ => ?_⟩
            exact hok dev old (by rw [deviceOf, htok]; exact hhead) hold

theorem wp_patchSelected_part (L : Libs) {a : PatchArgs} {sha : Bytes}
    (ht : isEmmc a.target = true) {sel : Selection} {s : Fs} :
    wp fsMachine (fun r t => r = 0 → PartInstalled L a sha s t) Unless
      (patchSelected L a sha (.ok sel)) s := by
  have hloop : wp fsMachine
      (Stage Unless fun p t => (t.parts = s.parts ∧ (p.result = 0 → p.buffer = p.ctx)) ∧
        p.result = 0) Unless (attemptLoop L a sel 1 false) s :=
    wp_attemptLoop (I := fun _ t => t.parts = s.parts)
      (fun retry madeCopy t hp => wp_attempt_part L ht retry madeCopy hp) (fun _ _ _ => trivial)
      (fun p t hp _ => ⟨trivial, by rw [if_pos ht]; exact hp.1⟩) 1 false rfl
  simp only [patchSelected]
  refine wp_seq hloop ?_
  intro res t hres
  cases res with
  | error code => exact fun h => absurd h hres.1
  | ok p =>
      obtain ⟨⟨hparts, hbuf⟩, hzero⟩ := hres
      have hbuffer : p.buffer = p.ctx := hbuf hzero
      simp only [finishPatch]
      split
      · exact fun h => absurd h (by decide)
      · rename_i hsha
        rw [not_not] at hsha
        rw [wp_bind]
        refine wp_writeToPartition ?_ ?_
        · intro u
          exact fun h => absurd h (by decide)
        · intro dev old hdev hold
          rw [hparts] at hold
          have hinst : ∀ u : Fs,
              u.parts = (t.setPart dev (some (p.buffer ++ old.drop p.buffer.length))).parts →
              PartInstalled L a sha s u := by
            intro u hu
            refine ⟨dev, p.buffer, old, hdev, hold, by rw [hbuffer]; exact hsha, .inr ?_⟩
            rw [hu, setPart_parts_self]
          simp only [ne_eq, not_true_eq_false, if_false]
          cases p.madeCopy with
          | false => exact fun _ => hinst _ rfl
          | true =>
              simp only [if_true]
              rw [wp_bind, wp_sysUnlink]
              exact ⟨trivial, fun _ => hinst _ rfl⟩

/-- A call that is not misleading returns zero only with the target in place. -/
theorem wp_applypatch_sound {L : Libs} {a : PatchArgs} {s : Fs} (h : ¬ Misleading L a s) :
    wp fsMachine (fun r t => r = 0 → Installed L a s t) Unless (applypatch L a) s := by
  unfold applypatch
  cases hsha : parseSha1 a.targetSha1Str with
  | none => exact fun h => absurd h (by decide)
  | some sha =>
      simp only [selectSource_eq]
      rw [wp_bind, wp_bind, wp_sysUninit]
      refine ⟨trivial, ?_⟩
      intro copy
      rw [wp_bind, wp_sysUninit]
      refine ⟨trivial, ?_⟩
      intro file
      refine (readOnly_selectFrom L a sha copy file).wp trivial ?_
      intro res hres
      cases res with
      | error code =>
          -- the already-patched return
          intro hcode
          obtain ⟨r, f, hload, hres⟩ := readResult_selectFrom hres
          obtain ⟨rfl, hf⟩ := chooseSource_error hres hcode
          refine ⟨sha, hsha, ?_⟩
          cases ht : isEmmc a.target with
          | true =>
              obtain ⟨dev, x, d, hdev, hd, hx, hfx⟩ := readResult_loadPartition ht hload
              exact ⟨dev, x, d, hdev, hd, hfx.symm.trans hf, .inl ⟨hx, hd⟩⟩
          | false =>
              rw [readResult_loadFile L ht] at hload
              have hz : (loadNode L file true (s.files a.target)).1 = 0 := by
                rw [Option.some.inj hload]
              obtain ⟨g, x, off, hg, hm, hx⟩ := loadNode_zero hz
              rw [Option.some.inj hload, hf] at hx
              have hpatched : AlreadyPatched L a sha s := ⟨g, x, off, hg, hm, hx.symm⟩
              exact ⟨fun _ => hpatched, fun hn => absurd hpatched hn⟩
      | ok sel =>
          have hselects : Selects L a sha s sel := ⟨copy, file, hres⟩
          cases ht : isEmmc a.target with
          | true =>
              refine wp_mono ?_ (fun _ hu => hu) (wp_patchSelected_part L ht)
              intro r t hr h0
              refine ⟨sha, hsha, ?_⟩
              rw [if_pos ht]
              exact hr h0
          | false =>
              have hnot := hselects.not_alreadyPatched ht
              refine wp_mono ?_ (fun _ hu => hu) (wp_patchSelected_file L ht ?_)
              · intro r t hr h0
                refine ⟨sha, hsha, ?_⟩
                rw [if_neg (by rw [ht]; decide)]
                exact ⟨fun hp => absurd hp hnot, fun _ => hr h0⟩
              · intro src v stored absorbed huse hblob ho habs
                refine ⟨?_, ?_⟩
                · by_contra hne
                  exact h ⟨sha, sel, src, v, stored, absorbed, hsha, ht, hselects, huse, hblob, ho,
                    habs, .inl hne⟩
                · intro hcopy
                  exact h ⟨sha, sel, src, v, stored, absorbed, hsha, ht, hselects, huse, hblob, ho,
                    habs, .inr hcopy⟩

/-! ## A misleading run -/

theorem can_call {s : Fs} (o : Op) (r : o.Res) (h : s.Allowed o r) :
    Can fsMachine (fun x t => x = r ∧ t = s.apply o r) (Prog.call o) s :=
  can_op r h (can_ret ⟨rfl, rfl⟩)

/-- Much free space passes the test. -/
theorem can_testSpace (L : Libs) (a : PatchArgs) (s : Fs) :
    Can fsMachine (fun b t => b = true ∧ t = s) (testSpace L a 1) s := by
  have hwide : 2 ^ 32 ≤ 2 ^ L.sizeBits := Nat.pow_le_pow_right (by decide) L.wide
  have hfree : 1 * (2 ^ L.sizeBits - 1) % 2 ^ L.sizeBits = 2 ^ L.sizeBits - 1 := by
    rw [Nat.one_mul]
    exact Nat.mod_eq_of_lt (by omega)
  have henough : enoughSpace L a.targetSize (2 ^ L.sizeBits - 1) = true := by
    have hmod := Nat.mod_lt (a.targetSize * 3) (show 2 ^ L.sizeBits > 0 by omega)
    simp only [enoughSpace, Bool.and_eq_true, decide_eq_true_eq]
    omega
  simp only [testSpace, Nat.lt_add_one, if_true, freeSpaceForFile, gt_iff_lt]
  refine can_bind (can_bind (can_mono ?_
    (can_call (.statfs (topLevelDir a.target)) (some (1, 2 ^ L.sizeBits - 1)) trivial)))
  rintro x t ⟨rfl, rfl⟩
  refine can_ret (can_ret ⟨?_, rfl⟩)
  rw [hfree]
  exact henough

/-- A pass with much free space makes no copy. -/
theorem can_makeRoom (L : Libs) {a : PatchArgs} (ht : isEmmc a.target = false) (sel : Selection)
    (s : Fs) :
    Can fsMachine (fun x t => x = .ok (1, false) ∧ t = s) (makeRoom L a sel 1 false) s := by
  simp only [makeRoom, ht, Bool.false_eq_true, if_false]
  refine can_bind (can_mono ?_ (can_testSpace L a s))
  rintro b t ⟨rfl, rfl⟩
  simp only [Bool.not_true, Bool.false_eq_true, false_and, if_false, if_true]
  exact can_ret ⟨rfl, rfl⟩

/-- A pass without free space makes the copy. -/
theorem can_makeRoom_low (L : Libs) {a : PatchArgs} (ht : isEmmc a.target = false)
    {sel : Selection} (hs : SavesCopy a sel) {d : Bytes} (hd : sel.sourceFile.data = some d)
    (hsize : sel.sourceFile.size = d.length) (s : Fs) :
    Can fsMachine (fun x _ => x = .ok (0, true)) (makeRoom L a sel 1 false) s := by
  have hneeded : toSize L sel.sourceFile.size < 2 ^ L.sizeBits := by
    unfold toSize
    have hpos : (0 : Int) < 2 ^ L.sizeBits := by positivity
    have hlt := Int.emod_lt_of_pos sel.sourceFile.size hpos
    have hnn := Int.emod_nonneg sel.sourceFile.size hpos.ne'
    zify
    rw [Int.toNat_of_nonneg hnn]
    exact hlt
  have hroom : ∀ t : Fs, Can fsMachine (fun r u => r = 0 ∧ u = t)
      (makeFreeSpaceOnCache L (toSize L sel.sourceFile.size)) t := by
    intro t
    exact Returns.can (returns_makeFreeSpaceOnCache hneeded (Nat.le_refl _) ⟨rfl, rfl⟩)
  have hsave : ∀ t : Fs, Can fsMachine (fun r _ => r = 0)
      (saveFileContents cacheTempSource sel.sourceFile) t := by
    intro t
    exact Returns.can (returns_saveFileContents hneeded hd hsize fun _ _ _ => rfl)
  have hstatfs : ∀ t : Fs, Can fsMachine (fun r u => r = 0 ∧ u = t)
      (freeSpaceForFile L (topLevelDir a.target)) t := by
    intro t
    refine can_bind (can_mono ?_ (can_call (.statfs (topLevelDir a.target)) (some (0, 0)) trivial))
    rintro x u ⟨rfl, rfl⟩
    exact can_ret ⟨Nat.zero_mod _, rfl⟩
  have hlow : Can fsMachine (fun b t => b = false ∧ t = s) (testSpace L a 1) s := by
    simp only [testSpace, Nat.lt_add_one, if_true, gt_iff_lt]
    refine can_bind (can_mono ?_ (hstatfs s))
    rintro x t ⟨rfl, rfl⟩
    exact can_ret ⟨rfl, rfl⟩
  simp only [makeRoom, ht, Bool.false_eq_true, if_false]
  refine can_bind (can_mono ?_ hlow)
  rintro b t ⟨rfl, rfl⟩
  simp only [Bool.not_false, hs.1, hs.2, ne_eq, not_false_eq_true, and_self, if_true,
    Bool.false_eq_true, if_false]
  refine can_bind (can_mono ?_ (hroom t))
  rintro r u ⟨rfl, rfl⟩
  simp only [lt_irrefl, if_false]
  refine can_bind (can_mono ?_ (hsave u))
  rintro r v rfl
  simp only [lt_irrefl, if_false]
  refine can_bind (can_mono ?_ (can_call (.unlink a.sourceFilename) _ rfl))
  rintro r w ⟨rfl, rfl⟩
  refine can_bind (can_mono ?_ (hstatfs _))
  rintro r x ⟨rfl, rfl⟩
  exact can_ret rfl

/-- A pass can end in every outcome of the patch. -/
theorem can_runPatch (L : Libs) {a : PatchArgs} (ht : isEmmc a.target = false) {src : FileContents}
    {v : Value} (hv : v.type = .blob) {r : Int} {stored absorbed : Bytes}
    (ho : Outcome L src v r stored absorbed) (s : Fs) :
    Can fsMachine (fun x t => x = .ok (r, absorbed, []) ∧ t.Holds a.outname stored)
      (runPatch L a src v) s := by
  simp only [runPatch, hv, ne_eq, not_true_eq_false, if_false, ht, Bool.false_eq_true]
  refine can_bind (can_mono ?_ (can_call (.openTrunc a.outname) true trivial))
  rintro b t ⟨rfl, rfl⟩
  simp only [Bool.not_true, Bool.false_eq_true, if_false]
  refine can_bind (can_mono ?_ (can_applyBlob_file L ho _))
  rintro x t ⟨rfl, rfl⟩
  refine can_ret ⟨rfl, ?_⟩
  simp only [Fs.apply]
  rw [append_set]
  exact ⟨_, set_files_self .., rfl⟩

/-- From a pass that leaves an outcome with the target digest, the call can return zero. -/
theorem can_finishPatch (L : Libs) {a : PatchArgs} (ht : isEmmc a.target = false) {sha : Bytes}
    (src : FileContents) {stored ctx buffer : Bytes} (hsha : L.sha1 ctx = sha) (madeCopy : Bool)
    {s : Fs} (hs : s.Holds a.outname stored) :
    Can fsMachine (fun r t => r = 0 ∧
        if madeCopy then t.files cacheTempSource = none else t.Holds a.target stored)
      (finishPatch L a sha src ctx buffer madeCopy) s := by
  obtain ⟨f, hf, rfl⟩ := hs
  have hne := outname_ne_target a
  simp only [finishPatch, hsha, ne_eq, not_true_eq_false, if_false, ht, Bool.false_eq_true]
  refine can_bind (can_mono ?_ (can_call (.chmod a.outname src.st.mode) true
    (fun _ => by rw [hf]; rfl)))
  rintro b t ⟨rfl, rfl⟩
  simp only [Bool.not_true, Bool.false_eq_true, if_false, Fs.apply]
  refine can_bind (can_mono ?_ (can_call (.chown a.outname src.st.uid src.st.gid) true
    (fun _ => by rw [modify_files_self, hf]; rfl)))
  rintro b t ⟨rfl, rfl⟩
  simp only [Bool.not_true, Bool.false_eq_true, if_false, Fs.apply]
  refine can_bind (can_mono ?_ (can_call (.rename a.outname a.target) true
    (fun _ => by rw [modify_files_self, modify_files_self, hf]; rfl)))
  rintro b t ⟨rfl, rfl⟩
  simp only [Bool.not_true, Bool.false_eq_true, if_false, Fs.apply, hne]
  cases madeCopy with
  | false =>
      refine can_ret ⟨rfl, ⟨f.data, src.st⟩, ?_, rfl⟩
      rw [set_files_of_ne _ _ _ hne.symm, set_files_self, modify_files_self, modify_files_self, hf]
      rfl
  | true =>
      simp only [if_true]
      refine can_bind (can_mono ?_ (can_call (.unlink cacheTempSource) _ rfl))
      rintro b t ⟨rfl, rfl⟩
      exact can_ret ⟨rfl, set_files_self ..⟩

/-- A selection whose first pass can make room goes on to a zero status. -/
theorem can_patchSelected (L : Libs) {a : PatchArgs} (ht : isEmmc a.target = false) {sha : Bytes}
    {sel : Selection} {src : FileContents} {v : Value} (huse : sel.toUse = (src, some v))
    (hv : v.type = .blob) {stored absorbed : Bytes} (ho : Outcome L src v 0 stored absorbed)
    (hsha : L.sha1 absorbed = sha) {retry : Nat} {madeCopy : Bool} {s : Fs}
    (hroom : Can fsMachine (fun x _ => x = .ok (retry, madeCopy)) (makeRoom L a sel 1 false) s) :
    Can fsMachine (fun r t => r = 0 ∧
        if madeCopy then t.files cacheTempSource = none else t.Holds a.target stored)
      (patchSelected L a sha (.ok sel)) s := by
  have hattempt : Can fsMachine
      (fun x t => x = .ok ⟨0, absorbed, [], retry, madeCopy⟩ ∧ t.Holds a.outname stored)
      (attempt L a sel 1 false) s := by
    refine can_bind (can_mono ?_ hroom)
    rintro x t rfl
    simp only [huse]
    refine can_bind (can_mono ?_ (can_runPatch L ht hv ho t))
    rintro x u ⟨rfl, hu⟩
    exact can_ret ⟨rfl, hu⟩
  simp only [patchSelected]
  refine can_bind (can_bind (can_mono ?_ hattempt))
  rintro x t ⟨rfl, ht'⟩
  simp only [if_true]
  exact can_ret (can_finishPatch L ht _ hsha madeCopy ht')

/-- Contents that loaded have their size. -/
theorem loadNode_size {L : Libs} {file : FileContents} {node : Option Node} {d : Bytes}
    (h : (loadNode L file true node).2.data = some d) :
    (loadNode L file true node).2.size = d.length := by
  cases node with
  | none => cases h
  | some f =>
      have hlen := length_retouchMaskData f.data (some 0)
      rcases hm : retouchMaskData f.data (some 0) with ⟨res, x, off⟩
      rw [hm] at hlen
      cases res with
      | matched =>
          rw [loadNode_matched L file hm] at h ⊢
          cases h
          simp only at hlen ⊢
          rw [hlen]
      | error =>
          simp only [loadNode, if_true, hm] at h
          cases h
      | mismatched =>
          simp only [loadNode, if_true, hm] at h
          cases h
      | notApplicable =>
          simp only [loadNode, if_true, hm] at h
          cases h

/-- A source file that is kept for saving was loaded whole. -/
theorem Selects.source_loaded {L : Libs} {a : PatchArgs} {sha : Bytes} {s : Fs} {sel : Selection}
    (ht : isEmmc a.target = false) (h : Selects L a sha s sel) (hs : SavesCopy a sel) :
    ∃ d, sel.sourceFile.data = some d ∧ sel.sourceFile.size = d.length := by
  obtain ⟨copy, file, h⟩ := h
  obtain ⟨r, f, hload, hres⟩ := readResult_selectFrom h
  rw [readResult_loadFile L ht] at hload
  have hf : f = (loadNode L file true (s.files a.target)).2 := by rw [Option.some.inj hload]
  unfold chooseSource at hres
  split at hres
  · cases hres
  · rw [(readOnly_loadSource L a _).readResult_bind] at hres
    obtain ⟨src, hsrc, hres⟩ := Option.bind_eq_some_iff.1 hres
    -- the source file was loaded, now or as the target
    have hnode : ∃ g n, src = (loadNode L g true (s.files n)).2 := by
      unfold loadSource at hsrc
      split at hsrc
      · rw [(readOnly_loadFileContents L _ _ _).readResult_bind, readResult_loadFile L hs.2] at hsrc
        cases hsrc
        exact ⟨f, a.sourceFilename, rfl⟩
      · cases hsrc
        exact ⟨file, a.target, hf⟩
    obtain ⟨g, n, hsrcEq⟩ := hnode
    cases hpatch : a.patchForFile src with
    | none =>
        -- then the copy was chosen, which is never saved
        exfalso
        rw [hpatch] at hres
        simp only [chooseCopy] at hres
        rw [(readOnly_loadFileContents L _ _ _).readResult_bind] at hres
        obtain ⟨⟨r', f'⟩, -, hres⟩ := Option.bind_eq_some_iff.1 hres
        simp only at hres
        split at hres
        · cases hres
        · split at hres
          · cases hres
          · cases hres
            exact hs.1 rfl
    | some v =>
        rw [hpatch] at hres
        cases hres
        cases hd : src.data with
        | none =>
            rw [PatchArgs.patchForFile, if_pos hd] at hpatch
            cases hpatch
        | some d =>
            refine ⟨d, rfl, ?_⟩
            rw [hsrcEq] at hd ⊢
            exact loadNode_size hd

/-- A misleading call has a run that returns zero without the target in place. -/
theorem Misleading.can {L : Libs} {a : PatchArgs} {s : Fs} (h : Misleading L a s) :
    Can fsMachine (fun r t => r = 0 ∧ ¬ Installed L a s t) (applypatch L a) s := by
  obtain ⟨sha, sel, src, v, stored, absorbed, hsha, ht, hsel, huse, hv, ho, habs, hbad⟩ := h
  have hnot := hsel.not_alreadyPatched ht
  -- in such a state the target file has the target digest, or the status misleads
  have hinst : ∀ t, Installed L a s t → ∃ f, t.files a.target = some f ∧ L.sha1 f.data = sha := by
    rintro t ⟨sha', hsha', hi⟩
    rw [hsha] at hsha'
    cases hsha'
    rw [if_neg (by rw [ht]; decide)] at hi
    exact hi.2 hnot
  have hrun : Can fsMachine (fun r t => r = 0 ∧ ¬ Installed L a s t)
      (patchSelected L a sha (.ok sel)) s := by
    rcases hbad with hstored | ⟨htarget, hsaves⟩
    · have hroom := can_mono (fun _ _ hx => hx.1) (can_makeRoom L ht sel s)
      refine can_mono ?_ (can_patchSelected L ht huse hv ho habs hroom)
      rintro r t ⟨hr, g, hg, hgd⟩
      refine ⟨hr, ?_⟩
      intro hi
      obtain ⟨f, hf, hfd⟩ := hinst t hi
      cases hg.symm.trans hf
      rw [hgd] at hfd
      exact hstored hfd
    · obtain ⟨d, hd, hsize⟩ := hsel.source_loaded ht hsaves
      have hroom := can_makeRoom_low L ht hsaves hd hsize s
      refine can_mono ?_ (can_patchSelected L ht huse hv ho habs hroom)
      rintro r t ⟨hr, hgone⟩
      refine ⟨hr, ?_⟩
      intro hi
      obtain ⟨f, hf, -⟩ := hinst t hi
      rw [htarget] at hf
      cases hgone.symm.trans hf
  obtain ⟨copy, file, hsel⟩ := hsel
  simp only [applypatch, hsha, selectSource_eq]
  refine can_bind (can_bind (can_mono ?_ (can_call .uninit copy trivial)))
  rintro x t ⟨rfl, rfl⟩
  refine can_bind (can_mono ?_ (can_call .uninit file trivial))
  rintro x t ⟨rfl, rfl⟩
  refine can_mono ?_ ((readOnly_selectFrom L a sha _ _).can hsel)
  rintro x t ⟨rfl, rfl⟩
  exact hrun

/-! ## A concrete misleading call

The image patch has a normal chunk with output `xy` and a raw chunk `b`, and the target digest is
that of `b`. The first chunk is cut short after one byte; the digest leaves it out and matches, and
the target becomes `xb`. -/

namespace Sample

/-- Bytes written in hexadecimal. -/
def unhex (str : String) : Bytes := (parseHexPairs (str.length / 2) (cstr str)).getD []

/-- The control block `0, 2, 0` through bzip2. -/
def bzControl : Bytes := unhex
  "425a68393141592653595b3cfdb1000000400054082000218c8334d1095d38bb9229c28482d9e7ed88"

/-- The empty difference block through bzip2. -/
def bzEmpty : Bytes := unhex "425a683917724538509000000000"

/-- The extra block `xy` through bzip2. -/
def bzExtra : Bytes := unhex
  "425a6839314159265359c6c9f441000000008000602000210082b177245385090c6c9f4410"

/-- The sample libraries with a decompressor for these three streams. -/
def bzLibs : Libs :=
  { libs with bzDecompress := fun input =>
      if input = bzControl then (write8 0 ++ write8 2 ++ write8 0, .streamEnd)
      else if input = bzEmpty then ([], .streamEnd)
      else if input = bzExtra then (cstr "xy", .streamEnd)
      else ([], .dataError) }

/-- The bsdiff patch with output `xy`. -/
def xyPatch : Bytes :=
  cstr "BSDIFF40" ++ write8 bzControl.length ++ write8 bzEmpty.length ++ write8 2 ++
    bzControl ++ bzEmpty ++ bzExtra

/-- The image patch: a normal chunk with that bsdiff patch, and the raw chunk `b`. -/
def mixedPatch : Value :=
  blobValue (cstr "IMGDIFF2" ++ write4 2 ++ (write4 0 ++ write8 0 ++ write8 1 ++ write8 49) ++
    (write4 3 ++ write4 1 ++ cstr "b") ++ xyPatch)

/-- `/system/x` from `a`, with that patch and the digest of `b`. -/
def mixedArgs : PatchArgs :=
  { inPlace (cstr "/system/x") (cstr "a") (cstr "b") with
    patches := [(hex (cstr "a"), some mixedPatch)] }

/-- Much space; the first write accepts one byte of two, and the next one fails. -/
def shortWrite (i : Nat) (s : Fs) (o : Op) : Event Fs o.Res :=
  match o with
  | .write _ d =>
      if i = 5 ∧ 1 ≤ d.length then .reply (1 : Int) else
      if i = 6 then .reply (-1 : Int) else .reply (d.length : Int)
  | o => .reply (smoothReply (1, 1000000) s o)

/-- The run with that short write. -/
def mixedRun : Fs × Option Int := exec fsMachine shortWrite 0 start (applypatch bzLibs mixedArgs)

end Sample

end OpenRecovery.ApplyPatch
