import OpenRecovery.ApplyPatch.ContentsSpec
import OpenRecovery.Retouch.OneLibrary

/-!
# The stages of `retouch_one_library`

What loading finds (`loadFrom_contents`), and one rule for each stage that writes: the `.atomic`
file (`wp_saveAtomic`), the backup (`wp_backUp`) and the swap (`wp_replaceLibrary`). Each rule says
which files can differ where the stage is cut off, where it fails and where it succeeds.
-/

set_option autoImplicit false

namespace OpenRecovery.Retouch

open OpenRecovery.ApplyPatch OpenRecovery.Crash OpenRecovery.Storage

/-! ## Names -/

theorem atomicName_ne (name : Name) : atomicName name ≠ name := by
  intro h
  have hlen := congrArg List.length h
  simp [atomicName, cstr] at hlen

theorem atomicName_ne_cache (name : Name) : atomicName name ≠ cacheTempSource := by
  intro h
  have hlast := congrArg List.getLast? h
  rw [atomicName, List.getLast?_append_of_ne_nil _ (by decide)] at hlast
  revert hlast
  decide

/-! ## Probing -/

/-- The loop of a probe changes nothing. -/
theorem maskLoop_probe_obj (bOffs pOffs rOffs fuel : Nat) (st : MaskState) :
    (maskLoop none bOffs pOffs rOffs fuel st).2.obj = st.obj := by
  induction fuel generalizing st with
  | zero => rfl
  | succ fuel ih =>
      rw [maskLoop]
      split
      · cases hstep : maskStep none bOffs pOffs st with
        | none => rfl
        | some st' =>
            have hobj : st'.obj = st.obj := by
              unfold maskStep at hstep
              split at hstep
              · cases hstep
              · split at hstep
                · cases hstep
                · simp only at hstep
                  split at hstep <;> cases hstep <;> rfl
            exact (ih st').trans hobj
      · rfl

/-- A probe changes nothing. -/
theorem probe_obj (x : Bytes) : (retouchMaskData x none).2.1 = x := by
  by_cases htrailer : HasTrailer x
  · by_cases hblob : 0 ≤ blobOffs x
    · rw [retouchMaskData_eq htrailer hblob]
      have hobj := maskLoop_probe_obj (blobOffs x).toNat (prelinkOffs x) (retouchOffs x)
        (retouchOffs x - (blobOffs x).toNat) (maskStart x none)
      unfold maskReturn
      split
      · exact hobj
      · split
        · exact hobj
        · exact hobj
    · rw [retouchMaskData_of_blob_neg htrailer (Int.not_le.mp hblob)]
  · rw [retouchMaskData_of_not_hasTrailer htrailer]

theorem not_hasTrailer_of_notApplicable {x : Bytes}
    (h : (retouchMaskData x none).1 = .notApplicable) : ¬ HasTrailer x := by
  intro htrailer
  by_cases hblob : 0 ≤ blobOffs x
  · rw [retouchMaskData_eq htrailer hblob] at h
    unfold maskReturn at h
    split at h
    · cases h
    · split at h
      · cases h
      · cases h
  · rw [retouchMaskData_of_blob_neg htrailer (Int.not_le.mp hblob)] at h
    cases h

/-! ## Loading -/

/-- `loadLibrary` with the uninitialised local given. -/
def loadFrom (L : Libs) (name : Name) (sha1Str : Bytes) (offset : BitVec 32)
    (override : Option (BitVec 32)) (file : FileContents) : FsProg Source := do
  let (r, file) ← loadFileContents L name file false
  sourceOf L sha1Str offset override r file

theorem readOnly_recoverSource (L : Libs) (sha1Str : Bytes) (file : FileContents) :
    ReadOnly (recoverSource L sha1Str file) :=
  (readOnly_loadFileContents L _ _ _).bind fun _ => readOnly_pure _

theorem readOnly_checkSource (L : Libs) (sha1Str : Bytes) (r : Int) (file : FileContents) :
    ReadOnly (checkSource L sha1Str r file) := by
  unfold checkSource
  split
  · exact readOnly_pure _
  · exact readOnly_recoverSource L sha1Str file

theorem readOnly_sourceOf (L : Libs) (sha1Str : Bytes) (offset : BitVec 32)
    (override : Option (BitVec 32)) (r : Int) (file : FileContents) :
    ReadOnly (sourceOf L sha1Str offset override r file) := by
  unfold sourceOf
  split
  · split
    · exact readOnly_pure _
    · exact readOnly_checkSource L sha1Str r _
  · exact readOnly_checkSource L sha1Str r file

theorem readOnly_loadFrom (L : Libs) (name : Name) (sha1Str : Bytes) (offset : BitVec 32)
    (override : Option (BitVec 32)) (file : FileContents) :
    ReadOnly (loadFrom L name sha1Str offset override file) :=
  (readOnly_loadFileContents L _ _ _).bind fun _ => readOnly_sourceOf L sha1Str offset override _ _

/-- Loading only reads. -/
theorem wp_loadLibrary {L : Libs} {name : Name} {sha1Str : Bytes} {offset : BitVec 32}
    {override : Option (BitVec 32)} {Q : Source → Fs → Prop} {C : Fs → Prop} {s : Fs} (hC : C s)
    (hQ : ∀ file src, readResult s (loadFrom L name sha1Str offset override file) = some src →
      Q src s) : wp fsMachine Q C (loadLibrary L name sha1Str offset override) s := by
  unfold loadLibrary
  rw [wp_bind, wp_sysUninit]
  refine ⟨hC, fun file => ?_⟩
  exact (readOnly_loadFrom L name sha1Str offset override file).wp hC fun src hsrc =>
    hQ file src hsrc

/-- Contents that are accepted have the digest asked for. -/
theorem parseSha1_of_isSource {sha1Str : Bytes} {r : Int} {file : FileContents}
    (h : isSource sha1Str r file = true) : r = 0 ∧ parseSha1 sha1Str = some file.sha1 := by
  simp only [isSource, decide_eq_true_eq] at h
  refine ⟨h.1, ?_⟩
  have hfind := h.2
  by_contra hne
  apply hfind
  simp [findMatchingPatch, hne]

/-- The contents to work on are in memory and have the digest. -/
def IsContents (L : Libs) (sha1Str : Bytes) (file : FileContents) : Prop :=
  ∃ d, Loaded L file d ∧ parseSha1 sha1Str = some (L.sha1 d)

theorem isContents_of_isSource {L : Libs} {sha1Str : Bytes} {r : Int} {file : FileContents}
    (h : isSource sha1Str r file = true) (hl : r = 0 → ∃ d, Loaded L file d) :
    IsContents L sha1Str file := by
  obtain ⟨hr, hparse⟩ := parseSha1_of_isSource h
  obtain ⟨d, hd⟩ := hl hr
  exact ⟨d, hd, hd.2.2 ▸ hparse⟩

theorem recoverSource_contents {L : Libs} {sha1Str : Bytes} {file f : FileContents} {s : Fs}
    (h : readResult s (recoverSource L sha1Str file) = some (.contents f)) :
    IsContents L sha1Str f := by
  rw [recoverSource, (readOnly_loadFileContents L _ _ _).readResult_bind] at h
  obtain ⟨⟨r, f'⟩, hload, hrest⟩ := Option.bind_eq_some_iff.1 h
  simp only [Prog.pure_eq_ret, readResult, Option.some.injEq] at hrest
  split at hrest
  · rename_i hsrc
    cases hrest
    apply isContents_of_isSource hsrc
    rintro rfl
    exact loadFileContents_loaded hload
  · cases hrest

theorem checkSource_contents {L : Libs} {sha1Str : Bytes} {r : Int} {file f : FileContents} {s : Fs}
    (hl : r = 0 → ∃ d, Loaded L file d)
    (h : readResult s (checkSource L sha1Str r file) = some (.contents f)) :
    IsContents L sha1Str f := by
  unfold checkSource at h
  split at h
  · rename_i hsrc
    cases h
    exact isContents_of_isSource hsrc hl
  · exact recoverSource_contents h

/-- A masked file is loaded as well. -/
theorem probeLibrary_loaded {L : Libs} {offset : BitVec 32} {override : Option (BitVec 32)}
    {file f : FileContents} {d : Bytes} (hd : Loaded L file d)
    (h : probeLibrary L offset override file = .proceed f) : ∃ d, Loaded L f d := by
  have hlen := length_retouchMaskData d (some 0)
  rw [probeLibrary, hd.1, Option.getD_some] at h
  rcases hp : retouchMaskData d none with ⟨res, x, inferred⟩
  rw [hp] at h
  cases res with
  | matched =>
      simp only [probeResult] at h
      split at h
      · cases h
      · cases h
        refine ⟨_, rfl, ?_, rfl⟩
        rw [hlen]
        exact hd.2.1
  | notApplicable => cases h
  | error =>
      cases h
      exact ⟨d, hd⟩
  | mismatched =>
      cases h
      exact ⟨d, hd⟩

theorem loadFrom_contents {L : Libs} {name : Name} {sha1Str : Bytes} {offset : BitVec 32}
    {override : Option (BitVec 32)} {file f : FileContents} {s : Fs}
    (h : readResult s (loadFrom L name sha1Str offset override file) = some (.contents f)) :
    IsContents L sha1Str f := by
  rw [loadFrom, (readOnly_loadFileContents L _ _ _).readResult_bind] at h
  obtain ⟨⟨r, f'⟩, hload, hrest⟩ := Option.bind_eq_some_iff.1 h
  simp only [sourceOf] at hrest
  split at hrest
  · rename_i hr
    subst hr
    obtain ⟨d, hd⟩ := loadFileContents_loaded hload
    cases hp : probeLibrary L offset override f' with
    | skip v =>
        rw [hp] at hrest
        cases hrest
    | proceed f'' =>
        rw [hp] at hrest
        exact checkSource_contents (fun _ => probeLibrary_loaded hd hp) hrest
  · rename_i hr
    exact checkSource_contents (fun h0 => absurd h0 hr) hrest

/-- What a skipped file looks like. -/
def Skipped (offset : BitVec 32) (override : Option (BitVec 32)) (x : Bytes) (v : BitVec 32) :
    Prop :=
  (retouchMaskData x none = (.matched, x, v) ∧
      (offset = v ∨ (offset ≠ 0 ∧ v ≠ 0) ∧ override ≠ none)) ∨
    (¬ HasTrailer x ∧ v = 0)

theorem probeLibrary_skip {L : Libs} {offset v : BitVec 32} {override : Option (BitVec 32)}
    {file : FileContents} {d : Bytes} (hd : file.data = some d)
    (h : probeLibrary L offset override file = .skip v) : Skipped offset override d v := by
  have hobj := probe_obj d
  rw [probeLibrary, hd, Option.getD_some] at h
  rcases hp : retouchMaskData d none with ⟨res, x, inferred⟩
  rw [hp] at h hobj
  cases res with
  | matched =>
      simp only [probeResult] at h
      split at h
      · rename_i hcond
        cases h
        rw [show x = d from hobj] at hp
        exact .inl ⟨hp, hcond⟩
      · cases h
  | notApplicable =>
      cases h
      exact .inr ⟨not_hasTrailer_of_notApplicable (by rw [hp]), rfl⟩
  | error => cases h
  | mismatched => cases h

/-- Only a file that is there is skipped. -/
theorem loadFrom_skip {L : Libs} {name : Name} (hn : isEmmc name = false) {sha1Str : Bytes}
    {offset v : BitVec 32} {override : Option (BitVec 32)} {file : FileContents} {s : Fs}
    (h : readResult s (loadFrom L name sha1Str offset override file) = some (.skip v)) :
    ∃ f, s.files name = some f ∧ Skipped offset override f.data v := by
  rw [loadFrom, (readOnly_loadFileContents L _ _ _).readResult_bind, readResult_loadFile L hn] at h
  simp only [Option.bind_some, sourceOf] at h
  -- the digest check only accepts or rejects
  have hcheck : ∀ r f', readResult s (checkSource L sha1Str r f') ≠ some (.skip v) := by
    intro r f' hskip
    unfold checkSource at hskip
    split at hskip
    · cases hskip
    · rw [recoverSource, (readOnly_loadFileContents L _ _ _).readResult_bind] at hskip
      obtain ⟨⟨r', f''⟩, -, hrest⟩ := Option.bind_eq_some_iff.1 hskip
      simp only [Prog.pure_eq_ret, readResult, Option.some.injEq] at hrest
      split at hrest <;> cases hrest
  cases hf : s.files name with
  | none =>
      rw [hf] at h
      simp only [loadNode, Int.reduceNeg, reduceCtorEq, if_false] at h
      exact absurd h (hcheck _ _)
  | some f =>
      rw [hf] at h
      simp only [loadNode, Bool.false_eq_true, if_false, if_true] at h
      refine ⟨f, rfl, ?_⟩
      split at h
      · rename_i v' hp
        cases h
        exact probeLibrary_skip rfl hp
      · exact absurd h (hcheck _ _)

/-! ## Writing -/

section Writing

variable {L : Libs} {name : Name} {file : FileContents} {y : Bytes} {C : Fs → Prop} {s : Fs}

/-- The `.atomic` file holds the contents, or is not there. -/
theorem wp_saveAtomic {Q : Bool → Fs → Prop} (hd : file.data = some y) (hsize : file.size = y.length)
    (hC : ∀ t, SameExcept (OnlyFile (atomicName name)) s t → C t)
    (hfail : ∀ t, SameExcept (OnlyFile (atomicName name)) s t → t.files (atomicName name) = none →
      Q false t)
    (hok : ∀ t, SameExcept (OnlyFile (atomicName name)) s t →
      t.files (atomicName name) = some ⟨y, file.st⟩ → Q true t) :
    wp fsMachine Q C (saveAtomic name file) s := by
  unfold saveAtomic
  rw [wp_bind]
  refine wp_saveFileContents hC ?_ ?_ ?_
  · -- a failed file is removed
    intro t ht
    simp only [ne_eq, Int.reduceNeg, reduceCtorEq, not_false_eq_true, if_true]
    rw [wp_bind, wp_sysUnlink]
    exact ⟨hC t ht, hfail _ (ht.trans (sameExcept_set t none rfl)) (set_files_self t _ none)⟩
  · intro t d ht hdata _ hfile
    rw [hd] at hdata
    cases hdata
    exact hok t ht hfile
  · intro t _ hne
    exact absurd hsize.symm (hne y hd)

/-- The contents are in the saved copy before the library is removed. -/
theorem wp_backUp {Q : Bool → Fs → Prop} (hd : file.data = some y) (hsize : file.size = y.length)
    (hmake : ∀ t, Pruned s t → C t ∧ Q false t)
    (hsave : ∀ p t, Pruned s p → SameExcept (OnlyFile cacheTempSource) p t → C t ∧ Q false t)
    (hdone : ∀ p t, Pruned s p → SameExcept (OnlyFile cacheTempSource) p t →
      t.files cacheTempSource = some ⟨y, file.st⟩ →
      C (t.set name none) ∧ Q true (t.set name none)) :
    wp fsMachine Q C (backUp L name file) s := by
  unfold backUp
  rw [wp_bind]
  refine wp_makeFreeSpaceOnCache_pruned L (fun t ht => (hmake t ht).1) ?_
  intro m p hp
  split
  · exact (hmake p hp).2
  · rw [wp_bind]
    refine wp_saveFileContents (fun t ht => (hsave p t hp ht).1) ?_ ?_ ?_
    · intro t ht
      exact (hsave p t hp ht).2
    · intro t d ht hdata _ hfile
      rw [hd] at hdata
      cases hdata
      obtain ⟨hcut, hdone⟩ := hdone p t hp ht hfile
      simp only [lt_self_iff_false, if_false]
      rw [wp_bind, wp_sysUnlink]
      refine ⟨(hsave p t hp ht).1, ?_⟩
      rw [wp_bind]
      exact wp_freeSpaceForFile L _ hcut fun _ => hdone
    · intro t _ hne
      exact absurd hsize.symm (hne y hd)

/-- The files at the end of the swap: the library has the contents of the `.atomic` file. -/
def Swapped (name : Name) (s t : Fs) : Prop :=
  SameExcept (fun n => n = name ∨ n = atomicName name) s t ∧
    ∃ f f', s.files (atomicName name) = some f ∧ t.files name = some f' ∧ f'.data = f.data

theorem wp_replaceLibrary {st : Stat} {madeCopy : Bool} {Q : Bool → Fs → Prop}
    (hfail : ∀ t, SameExcept (OnlyFile (atomicName name)) s t → C t ∧ Q false t)
    (hswap : ∀ t, Swapped name s t → C t ∧ (madeCopy = false → Q true t) ∧
      (madeCopy = true → Q true (t.set cacheTempSource none))) :
    wp fsMachine Q C (replaceLibrary name st madeCopy) s := by
  have hrefl := SameExcept.refl (OnlyFile (atomicName name)) s
  unfold replaceLibrary
  rw [wp_bind, wp_sysChmod]
  refine ⟨(hfail s hrefl).1, (hfail s hrefl).2, fun hsome => ?_⟩
  simp only [Bool.not_true, Bool.false_eq_true, if_false]
  obtain ⟨f, hf⟩ := Option.isSome_iff_exists.mp hsome
  set s₁ := s.modify (atomicName name) fun f => { f with st := { f.st with mode := st.mode } } with hs₁
  have h₁ : SameExcept (OnlyFile (atomicName name)) s s₁ := sameExcept_modify s _ rfl
  rw [wp_bind, wp_sysChown]
  refine ⟨(hfail _ h₁).1, (hfail _ h₁).2, fun _ => ?_⟩
  set s₂ := s₁.modify (atomicName name)
    fun f => { f with st := { f.st with uid := st.uid, gid := st.gid } } with hs₂
  have h₂ : SameExcept (OnlyFile (atomicName name)) s s₂ := h₁.trans (sameExcept_modify s₁ _ rfl)
  have hf₂ : ∃ f₂, s₂.files (atomicName name) = some f₂ ∧ f₂.data = f.data := by
    refine ⟨⟨f.data, ⟨st.mode, st.uid, st.gid⟩⟩, ?_, rfl⟩
    rw [hs₂, modify_files_self, hs₁, modify_files_self, hf]
    rfl
  obtain ⟨f₂, hf₂, hdata⟩ := hf₂
  simp only [Bool.not_true, Bool.false_eq_true, if_false]
  rw [wp_bind, wp_sysRename]
  refine ⟨(hfail _ h₂).1, (hfail _ h₂).2, fun _ => ?_⟩
  rw [if_neg (atomicName_ne name), hf₂]
  have hswapped : Swapped name s ((s₂.set name (some f₂)).set (atomicName name) none) := by
    refine ⟨?_, f, f₂, hf, ?_, hdata⟩
    · refine (h₂.mono fun n hn => .inr hn).trans ?_
      exact (sameExcept_set s₂ _ (.inl rfl)).trans (sameExcept_set _ none (.inr rfl))
    · rw [set_files_of_ne _ _ _ (Ne.symm (atomicName_ne name)), set_files_self]
  obtain ⟨hcut, hplain, hcopy⟩ := hswap _ hswapped
  simp only [Bool.not_true, Bool.false_eq_true, if_false]
  cases madeCopy with
  | false => exact hplain rfl
  | true =>
      simp only [if_true]
      rw [wp_bind, wp_sysUnlink]
      exact ⟨hcut, hcopy rfl⟩

end Writing

namespace Sample

/-- The digest of the sample library. -/
def librarySha1 : Bytes := cstr "a4b4339f4207aad67f348dc8e8fb4df0f1c452db"

/-- Libraries in which only the sample library has that digest. -/
def retouchLibs : Libs where
  sha1 x := if x = library then (parseSha1 librarySha1).getD [] else []
  bzDecompress _ := ([], .dataError)
  inflate _ := none
  inflateStarved _ := none
  deflate _ _ := none
  sizeBits := 32
  wide := Libs.wide_narrow

theorem eq_library {x : Bytes} (h : parseSha1 librarySha1 = some (retouchLibs.sha1 x)) : x = library := by
  by_contra hne
  simp only [retouchLibs, if_neg hne] at h
  revert h
  decide

end Sample

end OpenRecovery.Retouch
