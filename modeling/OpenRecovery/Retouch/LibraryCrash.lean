import OpenRecovery.Retouch.LibrarySpec
import OpenRecovery.Storage.Smooth

/-!
# Crash safety of retouching a library

A call of `retouch_one_library` that is low on space writes the library to `/cache/saved.file` and
removes it. A call after a crash then takes the contents from the saved copy; if it is low on space
too, it opens the saved copy for writing while no other file has the contents.

`Calls` are the states reached by calls that end anywhere, without this step. `retouch_crash_safe`
says that there the contents are always in the library or in the saved copy, and that a call that is
not interrupted and has enough space returns true. `retouch_loses_library` is a run with the step.
-/

set_option autoImplicit false

namespace OpenRecovery.Retouch

open OpenRecovery.ApplyPatch OpenRecovery.Crash OpenRecovery.Storage

/-! ## Contents -/

section Contents

variable (L : Libs) (sha1Str : Bytes)

/-- The contents have the digest. -/
def HasDigest (x : Bytes) : Prop := parseSha1 sha1Str = some (L.sha1 x)

instance (x : Bytes) : Decidable (HasDigest L sha1Str x) := inferInstanceAs (Decidable (_ = _))

/-- The contents have the digest once they are masked. -/
def Masks (x : Bytes) : Prop := (retouchMaskData x (some 0)).1 = .matched ∧
  HasDigest L sha1Str (retouched 0 x)

/-- Contents of a library that is retouched as a whole, or not retouchable. -/
def Usable (x : Bytes) : Prop := Masks L sha1Str x ∧
  ((retouchMaskData x none).1 = .matched ∨ (retouchMaskData x none).1 = .notApplicable)

/-- Retouching the contents to the offset succeeds, and masking undoes it. -/
def Sound (offset : BitVec 32) : Prop := ∀ z, HasDigest L sha1Str z →
  (retouchMaskData z (some offset)).1 = .matched ∧ Usable L sha1Str (retouched offset z)

/-- The file has contents with the property. -/
def FileIs (P : Bytes → Prop) (s : Fs) (n : Name) : Prop := ∃ f, s.files n = some f ∧ P f.data

/-- The library or the saved copy can be used. -/
def Kept (name : Name) (s : Fs) : Prop :=
  FileIs (Usable L sha1Str) s name ∨ FileIs (Masks L sha1Str) s cacheTempSource

/-- The saved copy is opened for writing while the library cannot be used. -/
def Overwrites (name : Name) (s : Fs) (o : Op) : Prop :=
  o = .openTrunc cacheTempSource ∧ ¬ FileIs (Usable L sha1Str) s name

/-- The machine on which the saved copy is only overwritten while the library can be used. -/
def carefulMachine (name : Name) : Machine Fs Op Op.Res :=
  fsMachine.avoid (Overwrites L sha1Str name)

/-- The states after calls with any offsets, each of which ends anywhere. -/
inductive Calls (name : Name) (s₀ : Fs) : Fs → Prop
  | start : Calls name s₀ s₀
  | call {s t : Fs} {offset : BitVec 32} {override : Option (BitVec 32)}
      {out : Option (Bool × BitVec 32)} (before : Calls name s₀ s) (sound : Sound L sha1Str offset)
      (run : Run (carefulMachine L sha1Str name) s (retouchOneLibrary L name sha1Str offset override)
        t out) : Calls name s₀ t

end Contents

section Prepared

variable {L : Libs} {sha1Str : Bytes}

/-- Contents as the external encoder prepares them can be retouched to any offset. -/
theorem sound_of_prepared
    (h : ∀ z, HasDigest L sha1Str z → ¬ HasTrailer z ∨ (∃ es, Tidy z es) ∧ retouched 0 z = z)
    (offset : BitVec 32) : Sound L sha1Str offset := by
  intro z hz
  rcases h z hz with hplain | ⟨⟨es, hes⟩, hmasked⟩
  · have hsame : ∀ d, retouched d z = z := by
      intro d
      rw [retouched, retouchMaskData_of_not_hasTrailer hplain]
    refine ⟨by rw [retouchMaskData_of_not_hasTrailer hplain]; rfl, ?_⟩
    rw [hsame]
    refine ⟨⟨by rw [retouchMaskData_of_not_hasTrailer hplain]; rfl, ?_⟩, .inr ?_⟩
    · rw [hsame]
      exact hz
    · rw [retouchMaskData_of_not_hasTrailer hplain]
      rfl
  · have hback : retouched 0 (retouched offset z) = z := (hes.retouched_retouched 0 offset).trans hmasked
    refine ⟨by rw [hes.retouchMaskData_some], ⟨by rw [(hes.retouched offset).retouchMaskData_some], ?_⟩,
      .inl (by rw [hes.probe_retouched])⟩
    rw [hback]
    exact hz

end Prepared

/-! ## Frames -/

section Frames

variable {L : Libs} {sha1Str : Bytes} {name : Name} {s t : Fs}

theorem FileIs.of_eq {P : Bytes → Prop} {n : Name} (h : FileIs P s n)
    (heq : t.files n = s.files n) : FileIs P t n := by
  obtain ⟨f, hf, hP⟩ := h
  exact ⟨f, heq.trans hf, hP⟩

/-- What only concerns the `.atomic` file does not matter. -/
theorem Kept.atomic (h : Kept L sha1Str name s)
    (hsame : SameExcept (OnlyFile (atomicName name)) s t) : Kept L sha1Str name t := by
  rcases h with h | h
  · exact .inl (h.of_eq (hsame.1 name (Ne.symm (atomicName_ne name))))
  · exact .inr (h.of_eq (hsame.1 cacheTempSource (Ne.symm (atomicName_ne_cache name))))

theorem Kept.pruned (h : Kept L sha1Str name s) (hname : ¬ cstr "/cache/" <+: name)
    (hp : Pruned s t) : Kept L sha1Str name t := by
  rcases h with h | h
  · exact .inl (h.of_eq (hp.same.1 name fun hexp => hname hexp.1))
  · exact .inr (h.of_eq (hp.same.1 cacheTempSource fun hexp => hexp.2 rfl))

end Frames

/-! ## One call -/

section Call

variable {L : Libs} {sha1Str : Bytes} {name : Name} {file : FileContents} {y : Bytes} {s : Fs}

/-- The contents to be written can be used. -/
structure Writable (L : Libs) (sha1Str : Bytes) (file : FileContents) (y : Bytes) : Prop where
  data : file.data = some y
  size : file.size = y.length
  usable : Usable L sha1Str y

/-- After the loop: if a copy was made, it is good. The `.atomic` file has the new contents. -/
def SavedPost (L : Libs) (sha1Str : Bytes) (name : Name) (y : Bytes) (r : Option Bool) (t : Fs) :
    Prop :=
  Kept L sha1Str name t ∧ ∀ f, r ≠ none → t.files (atomicName name) = some f → f.data = y

theorem wp_saveAtomic_kept (hw : Writable L sha1Str file y) (h : Kept L sha1Str name s) :
    wp (carefulMachine L sha1Str name)
      (fun _ t => Kept L sha1Str name t ∧ SameExcept (OnlyFile (atomicName name)) s t ∧
        ∀ f, t.files (atomicName name) = some f → f.data = y)
      (Kept L sha1Str name) (saveAtomic name file) s := by
  apply wp_avoid
  refine wp_saveAtomic hw.data hw.size (fun t ht => h.atomic ht) ?_ ?_
  · intro t ht hnone
    refine ⟨h.atomic ht, ht, ?_⟩
    intro f hf
    rw [hnone] at hf
    cases hf
  · intro t ht hfile
    refine ⟨h.atomic ht, ht, ?_⟩
    intro f hf
    rw [hfile] at hf
    cases hf
    rfl

/-- The backup: while the library can be used, the saved copy is written and then the library
removed; otherwise the call is cut off before it opens the saved copy. -/
theorem wp_backUp_kept (hname : ¬ cstr "/cache/" <+: name) (hw : Writable L sha1Str file y)
    (h : Kept L sha1Str name s) :
    wp (carefulMachine L sha1Str name) (fun _ t => Kept L sha1Str name t) (Kept L sha1Str name)
      (backUp L name file) s := by
  have hne : name ≠ cacheTempSource := by
    rintro rfl
    exact hname (by decide)
  by_cases hlib : FileIs (Usable L sha1Str) s name
  · have hsave : ∀ p t, Pruned s p → SameExcept (OnlyFile cacheTempSource) p t →
        Kept L sha1Str name t := by
      intro p t hp ht
      refine .inl ((hlib.of_eq ?_).of_eq (ht.1 name hne))
      exact hp.same.1 name fun hexp => hname hexp.1
    apply wp_avoid
    refine wp_backUp hw.data hw.size (fun t ht => ⟨h.pruned hname ht, h.pruned hname ht⟩)
      (fun p t hp ht => ⟨hsave p t hp ht, hsave p t hp ht⟩) ?_
    intro p t _ _ hcopy
    have hgood : Kept L sha1Str name (t.set name none) := by
      refine .inr ⟨⟨y, file.st⟩, ?_, hw.usable.1⟩
      rw [set_files_of_ne t name none (Ne.symm hne)]
      exact hcopy
    exact ⟨hgood, hgood⟩
  · unfold backUp
    refine wp_seq (R := fun _ t => Pruned s t) ?_ ?_
    · apply wp_avoid
      exact wp_makeFreeSpaceOnCache_pruned L (fun t ht => h.pruned hname ht) fun _ t ht => ht
    · intro m p hp
      split
      · exact h.pruned hname hp
      · -- the library is as before, and the next operation opens the saved copy
        have hbad : Overwrites L sha1Str name p (.openTrunc cacheTempSource) := by
          refine ⟨rfl, ?_⟩
          intro hgood
          exact hlib (hgood.of_eq (hp.same.1 name fun hexp => hname hexp.1).symm)
        exact wp_avoid_op hbad (h.pruned hname hp)

theorem wp_saveWithBackup_kept (hname : ¬ cstr "/cache/" <+: name) (hw : Writable L sha1Str file y)
    (h : Kept L sha1Str name s) :
    wp (carefulMachine L sha1Str name) (SavedPost L sha1Str name y) (Kept L sha1Str name)
      (saveWithBackup L name file) s := by
  refine wp_seq (wp_backUp_kept hname hw h) ?_
  intro ok t ht
  cases ok with
  | false => exact ⟨ht, fun _ hr => absurd rfl hr⟩
  | true =>
      refine wp_seq (wp_saveAtomic_kept hw ht) ?_
      rintro _ u ⟨hu, -, hatomic⟩
      exact ⟨hu, fun f _ hf => hatomic f hf⟩

theorem wp_saveLibrary_kept (hname : ¬ cstr "/cache/" <+: name) (hw : Writable L sha1Str file y)
    (h : Kept L sha1Str name s) (enough : Bool) :
    wp (carefulMachine L sha1Str name) (SavedPost L sha1Str name y) (Kept L sha1Str name)
      (saveLibrary L name file enough) s := by
  cases enough with
  | false => exact wp_saveWithBackup_kept hname hw h
  | true =>
      simp only [saveLibrary, if_true]
      refine wp_seq (wp_saveAtomic_kept hw h) ?_
      rintro ok t ⟨ht, -, hatomic⟩
      cases ok with
      | true => exact ⟨ht, fun f _ hf => hatomic f hf⟩
      | false => exact wp_saveWithBackup_kept hname hw ht

theorem wp_writeLibrary_kept (hname : ¬ cstr "/cache/" <+: name) (hw : Writable L sha1Str file y)
    (h : Kept L sha1Str name s) :
    wp (carefulMachine L sha1Str name) (fun _ t => Kept L sha1Str name t) (Kept L sha1Str name)
      (writeLibrary L name file) s := by
  have hne : name ≠ cacheTempSource := by
    rintro rfl
    exact hname (by decide)
  unfold writeLibrary testLibrarySpace
  rw [Prog.bind_bind]
  refine wp_seq (R := fun _ t => Kept L sha1Str name t) ?_ ?_
  · exact wp_avoid _ (wp_freeSpaceForFile L _ h fun _ => h)
  · intro free t ht
    rw [pure_bind]
    refine wp_seq (wp_saveLibrary_kept hname hw ht _) ?_
    rintro r u ⟨hu, hatomic⟩
    cases r with
    | none => exact hu
    | some madeCopy =>
        apply wp_avoid
        refine wp_replaceLibrary (fun v hv => ⟨hu.atomic hv, hu.atomic hv⟩) ?_
        rintro v ⟨-, f, f', hf, hf', hdata⟩
        have hy : f'.data = y := hdata.trans (hatomic f nofun hf)
        have hlib : Usable L sha1Str f'.data := by
          rw [hy]
          exact hw.usable
        -- the library has its new contents, so the copy is not needed any more
        refine ⟨.inl ⟨f', hf', hlib⟩, fun _ => .inl ⟨f', hf', hlib⟩, fun _ => .inl ⟨f', ?_, hlib⟩⟩
        rw [set_files_of_ne v _ none hne]
        exact hf'

/-- What a call writes, if it writes. -/
theorem writable_of_contents {offset : BitVec 32} (hsound : Sound L sha1Str offset)
    (hfile : IsContents L sha1Str file) :
    ∃ data off, retouchMaskData (file.data.getD []) (some offset) = (.matched, data, off) ∧
      Writable L sha1Str { file with data := some data } data := by
  obtain ⟨x, hloaded, hx⟩ := hfile
  obtain ⟨hmatched, husable⟩ := hsound x hx
  rcases hm : retouchMaskData x (some offset) with ⟨res, data, off⟩
  have hlen := length_retouchMaskData x (some offset)
  rw [hm] at hmatched hlen
  simp only at hmatched hlen
  rw [retouched, hm] at husable
  refine ⟨data, off, ?_, rfl, ?_, husable⟩
  · rw [hloaded.1, Option.getD_some, hm, hmatched]
  · rw [hlen]
    exact hloaded.2.1

/-- A call keeps the library or the saved copy, wherever it ends. -/
theorem wp_retouchOneLibrary_kept (hname : ¬ cstr "/cache/" <+: name) {offset : BitVec 32}
    (hsound : Sound L sha1Str offset) (override : Option (BitVec 32)) (h : Kept L sha1Str name s) :
    wp (carefulMachine L sha1Str name) (fun _ t => Kept L sha1Str name t) (Kept L sha1Str name)
      (retouchOneLibrary L name sha1Str offset override) s := by
  unfold retouchOneLibrary
  refine wp_seq (R := fun src t => t = s ∧ ∀ f, src = .contents f → IsContents L sha1Str f) ?_ ?_
  · apply wp_avoid
    refine wp_loadLibrary h ?_
    rintro file src hsrc
    refine ⟨rfl, ?_⟩
    rintro f rfl
    exact loadFrom_contents hsrc
  · rintro src t ⟨rfl, hcontents⟩
    refine wp_seq (R := fun _ t => Kept L sha1Str name t) ?_ ?_
    · cases src with
      | skip v => exact h
      | missing => exact h
      | contents f =>
          obtain ⟨data, off, hm, hw⟩ := writable_of_contents hsound (hcontents f rfl)
          rw [retouchSource, hm]
          exact wp_seq (wp_writeLibrary_kept hname hw h) fun _ _ hu => hu
    · rintro ⟨ok, stored⟩ u hu
      apply wp_avoid
      rw [wp_bind, wp_sysUnlink]
      exact ⟨hu, hu.atomic (sameExcept_set u none rfl)⟩

end Call

/-! ## A call that is not interrupted -/

section Uninterrupted

variable {L : Libs} {sha1Str : Bytes} {name : Name} {s : Fs}

theorem isSource_of_parse {file : FileContents} (h : parseSha1 sha1Str = some file.sha1) :
    isSource sha1Str 0 file = true := by
  simp [isSource, findMatchingPatch, h]

/-- A good copy gives contents. -/
theorem recoverSource_of_masks (h : FileIs (Masks L sha1Str) s cacheTempSource) (file : FileContents) :
    ∃ f, readResult s (recoverSource L sha1Str file) = some (.contents f) := by
  obtain ⟨f, hf, hmatched, hdigest⟩ := h
  have hemmc : isEmmc cacheTempSource = false := by decide
  have hload := readResult_loadFile L hemmc file true s
  rcases hm : retouchMaskData f.data (some 0) with ⟨res, data, off⟩
  rw [hm] at hmatched
  simp only at hmatched
  subst hmatched
  rw [retouched, hm] at hdigest
  rw [hf] at hload
  simp only [loadNode, hm, if_true] at hload
  have hsource : isSource sha1Str 0 ⟨L.sha1 data, some data, f.data.length, f.st⟩ = true :=
    isSource_of_parse hdigest
  refine ⟨⟨L.sha1 data, some data, f.data.length, f.st⟩, ?_⟩
  rw [recoverSource, (readOnly_loadFileContents L _ _ _).readResult_bind, hload]
  simp only [Option.bind_some, Prog.pure_eq_ret, readResult]
  rw [if_pos hsource]

theorem checkSource_of_masks (h : FileIs (Masks L sha1Str) s cacheTempSource) (r : Int)
    (file : FileContents) : ∃ f, readResult s (checkSource L sha1Str r file) = some (.contents f) := by
  unfold checkSource
  split
  · exact ⟨file, rfl⟩
  · exact recoverSource_of_masks h file

/-- If the library or the saved copy can be used, then loading finds something. -/
theorem loadFrom_of_kept (hn : isEmmc name = false) (h : Kept L sha1Str name s) (offset : BitVec 32)
    (override : Option (BitVec 32)) (file : FileContents) :
    ∃ src, readResult s (loadFrom L name sha1Str offset override file) = some src ∧
      src ≠ .missing := by
  rw [loadFrom, (readOnly_loadFileContents L _ _ _).readResult_bind, readResult_loadFile L hn]
  simp only [Option.bind_some, sourceOf]
  have hcopy : ∀ r f', FileIs (Masks L sha1Str) s cacheTempSource →
      ∃ src, readResult s (checkSource L sha1Str r f') = some src ∧ src ≠ .missing := by
    intro r f' hgood
    obtain ⟨f, hf⟩ := checkSource_of_masks hgood r f'
    exact ⟨_, hf, by rintro ⟨⟩⟩
  cases hf : s.files name with
  | none =>
      simp only [loadNode, Int.reduceNeg, reduceCtorEq, if_false]
      rcases h with ⟨f, hlib, -⟩ | hgood
      · rw [hf] at hlib
        cases hlib
      · exact hcopy _ _ hgood
  | some f =>
      simp only [loadNode, Bool.false_eq_true, if_false, if_true]
      cases hp : probeLibrary L offset override ⟨L.sha1 f.data, some f.data, f.data.length, f.st⟩ with
      | skip v => exact ⟨_, rfl, by rintro ⟨⟩⟩
      | proceed f' =>
          rcases h with ⟨f₀, hlib, ⟨hmatched, hdigest⟩, hprobe⟩ | hgood
          · rw [hf] at hlib
            cases hlib
            rw [probeLibrary, Option.getD_some] at hp
            rcases hm : retouchMaskData f.data none with ⟨res, x, inferred⟩
            rw [hm] at hp hprobe
            simp only at hprobe
            rcases hprobe with rfl | rfl
            · -- masked for the digest check
              simp only [probeResult] at hp
              split at hp
              · cases hp
              · cases hp
                have hsource : isSource sha1Str 0 ⟨L.sha1 (retouchMaskData f.data (some 0)).2.1,
                    some (retouchMaskData f.data (some 0)).2.1, f.data.length, f.st⟩ = true :=
                  isSource_of_parse hdigest
                refine ⟨.contents ⟨L.sha1 (retouchMaskData f.data (some 0)).2.1,
                  some (retouchMaskData f.data (some 0)).2.1, f.data.length, f.st⟩, ?_, by rintro ⟨⟩⟩
                simp only [checkSource]
                exact congrArg (readResult s) (if_pos hsource)
            · cases hp
          · exact hcopy _ _ hgood

variable {k : Nat} (hk : k < 2 ^ L.sizeBits)

include hk

theorem returns_saveAtomic {file : FileContents} {y : Bytes} (hw : Writable L sha1Str file y)
    {Q : Bool → Fs → Prop}
    (h : ∀ t, t.files (atomicName name) = some ⟨y, file.st⟩ → Q true t) :
    Returns (roomyMachine L.sizeBits k) Q (saveAtomic name file) s := by
  unfold saveAtomic
  refine returns_bind (returns_saveFileContents hk hw.data hw.size ?_)
  intro t _ hfile
  exact h t hfile

theorem returns_replaceLibrary {st : Stat} {f : Node} (hf : s.files (atomicName name) = some f)
    {Q : Bool → Fs → Prop} (h : ∀ t, Q true t) :
    Returns (roomyMachine L.sizeBits k) Q (replaceLibrary name st false) s := by
  unfold replaceLibrary
  refine returns_bind (returns_sysChmod hk (by rw [hf]; rfl) ?_)
  simp only [Bool.not_true, Bool.false_eq_true, if_false]
  refine returns_bind (returns_sysChown hk (by rw [modify_files_self, hf]; rfl) ?_)
  simp only [Bool.not_true, Bool.false_eq_true, if_false]
  refine returns_bind (returns_sysRename hk (by rw [modify_files_self, modify_files_self, hf]; rfl) ?_)
  exact h _

theorem returns_writeLibrary {file : FileContents} {y : Bytes} (hw : Writable L sha1Str file y)
    (hspace : spaceLimit L file.size < k) {Q : Bool → Fs → Prop} (h : ∀ t, Q true t) :
    Returns (roomyMachine L.sizeBits k) Q (writeLibrary L name file) s := by
  unfold writeLibrary testLibrarySpace freeSpaceForFile
  refine returns_bind (returns_bind (returns_bind (returns_sysStatfs hk ?_)))
  intro bsize bfree hle
  have henough : librarySpace L file (bsize * bfree % 2 ^ L.sizeBits) = true := by
    rw [librarySpace, decide_eq_true_eq]
    omega
  simp only [Prog.pure_eq_ret, Returns, henough]
  refine returns_bind ?_
  simp only [saveLibrary, if_true]
  refine returns_bind (returns_saveAtomic hk hw ?_)
  intro t ht
  exact returns_replaceLibrary hk ht h

/-- With enough space a call that is not interrupted returns true. -/
theorem returns_retouchOneLibrary (hn : isEmmc name = false) {offset : BitVec 32}
    (hsound : Sound L sha1Str offset) (override : Option (BitVec 32)) (h : Kept L sha1Str name s)
    (hspace : ∀ z, HasDigest L sha1Str z → spaceLimit L z.length < k) :
    Returns (roomyMachine L.sizeBits k) (fun r _ => r.1 = true)
      (retouchOneLibrary L name sha1Str offset override) s := by
  unfold retouchOneLibrary loadLibrary
  refine returns_bind (returns_bind (returns_sysUninit hk ?_))
  intro file
  obtain ⟨src, hsrc, hne⟩ := loadFrom_of_kept hn h offset override file
  refine (readOnly_loadFrom L name sha1Str offset override file).returns hsrc ?_
  refine returns_bind ?_
  cases src with
  | missing => exact absurd rfl hne
  | skip v => exact returns_bind (returns_sysUnlink hk rfl)
  | contents f =>
      have hfile := loadFrom_contents hsrc
      obtain ⟨data, off, hm, hw⟩ := writable_of_contents hsound hfile
      obtain ⟨x, hloaded, hx⟩ := hfile
      rw [retouchSource, hm]
      refine returns_bind (returns_writeLibrary hk hw ?_ fun t => ?_)
      · show spaceLimit L f.size < k
        rw [hloaded.2.1]
        exact hspace x hx
      · exact returns_bind (returns_sysUnlink hk rfl)

end Uninterrupted

/-- As long as no call opens the saved copy for writing while the library cannot be used, the
library or the saved copy has contents that mask to the digest, and a call that is not interrupted
and has enough space returns true. -/
theorem retouch_crash_safe (L : Libs) (sha1Str : Bytes) (name : Name) (hn : isEmmc name = false)
    (hname : ¬ cstr "/cache/" <+: name) (s₀ s : Fs) (h₀ : FileIs (Usable L sha1Str) s₀ name)
    (h : Calls L sha1Str name s₀ s) :
    (FileIs (fun x => HasDigest L sha1Str (retouched 0 x)) s name ∨
      FileIs (fun x => HasDigest L sha1Str (retouched 0 x)) s cacheTempSource) ∧
    ∀ offset override k, Sound L sha1Str offset → k < 2 ^ L.sizeBits →
      (∀ z, HasDigest L sha1Str z → spaceLimit L z.length < k) →
      Returns (roomyMachine L.sizeBits k) (fun r _ => r.1 = true)
        (retouchOneLibrary L name sha1Str offset override) s := by
  have hkept : Kept L sha1Str name s := by
    induction h with
    | start => exact .inl h₀
    | @call s t offset override out before sound run ih =>
        have hwp := (wp_iff_run _ _).1 (wp_retouchOneLibrary_kept hname sound override ih) t out run
        cases out with
        | none => exact hwp
        | some r => exact hwp
  constructor
  · rcases hkept with ⟨f, hf, husable⟩ | ⟨f, hf, hmasks⟩
    · exact .inl ⟨f, hf, husable.1.2⟩
    · exact .inr ⟨f, hf, hmasks.2⟩
  · intro offset override k hsound hk hspace
    exact returns_retouchOneLibrary hk hn hsound override hkept hspace

namespace Sample

/-- The sample library alone. -/
def libraryStart : Fs where
  files n := if n = cstr "/system/lib/a.so" then some ⟨library, ⟨0o644, 0, 0⟩⟩ else none
  parts _ := none
  opened _ := false

def libraryCall : FsProg (Bool × BitVec 32) :=
  retouchOneLibrary retouchLibs (cstr "/system/lib/a.so") librarySha1 0xfffff000 none

theorem library_sound (offset : BitVec 32) : Sound retouchLibs librarySha1 offset := by
  apply sound_of_prepared
  intro z hz
  rw [eq_library hz]
  exact .inr ⟨⟨_, library_tidy⟩, by decide +kernel⟩

theorem libraryStart_usable :
    FileIs (Usable retouchLibs librarySha1) libraryStart (cstr "/system/lib/a.so") :=
  ⟨⟨library, ⟨0o644, 0, 0⟩⟩, by decide, ⟨by decide +kernel, by decide +kernel⟩,
    .inl (by decide +kernel)⟩

/-- Much space; a run that wants to make a copy is cut off. -/
def noCopy (_ : Nat) (s : Fs) : (o : Op) → Event Fs o.Res
  | .openTrunc n =>
      if n = cacheTempSource then .crash s else .reply (smoothReply (1, 1000) s (.openTrunc n))
  | o => .reply (smoothReply (1, 1000) s o)

theorem noCopy_possible (i : Nat) (s : Fs) (o : Op) : (noCopy i s o).Possible
    (carefulMachine retouchLibs librarySha1 (cstr "/system/lib/a.so")) s o := by
  unfold noCopy
  split
  next n =>
    split
    next => exact .inl rfl
    next hne =>
      refine ⟨smoothReply_allowed (1, 1000) s (.openTrunc n), ?_⟩
      rintro ⟨hopen, -⟩
      cases hopen
      exact hne rfl
  next hno =>
    refine ⟨smoothReply_allowed (1, 1000) s o, ?_⟩
    rintro ⟨hopen, -⟩
    exact hno _ hopen

/-- Little space, enough for a copy on `/cache`; the run is cut off before operation `n`. -/
def lowSpace (n i : Nat) (s : Fs) (o : Op) : Event Fs o.Res :=
  if i = n then .crash s else .reply (smoothReply (1, 60) s o)

theorem lowSpace_possible (n i : Nat) (s : Fs) (o : Op) :
    (lowSpace n i s o).Possible fsMachine s o := by
  unfold lowSpace
  split
  · exact .inl rfl
  · exact smoothReply_allowed (1, 60) s o

/-- The library is in the saved copy and has been removed. -/
def onlySaved : Fs := (exec fsMachine (lowSpace 9) 0 libraryStart libraryCall).1

/-- The next call has opened the saved copy for writing. -/
def libraryLost : Fs := (exec fsMachine (lowSpace 6) 0 onlySaved libraryCall).1

end Sample

/-- A call with much space. -/
theorem retouch_crash_safe_library :
    ∃ s out, Run (carefulMachine Sample.retouchLibs Sample.librarySha1 (cstr "/system/lib/a.so"))
        Sample.libraryStart Sample.libraryCall s (some out) ∧ out.1 = true ∧
      (FileIs (fun x => HasDigest Sample.retouchLibs Sample.librarySha1 (retouched 0 x)) s
          (cstr "/system/lib/a.so") ∨
        FileIs (fun x => HasDigest Sample.retouchLibs Sample.librarySha1 (retouched 0 x)) s
          cacheTempSource) := by
  have hrun := exec_run Sample.noCopy_possible Sample.libraryCall 0 Sample.libraryStart
  have hout : (exec (carefulMachine Sample.retouchLibs Sample.librarySha1 (cstr "/system/lib/a.so"))
      Sample.noCopy 0 Sample.libraryStart Sample.libraryCall).2 = some (true, 0xfffff000) := by
    decide +kernel
  rw [hout] at hrun
  refine ⟨_, _, hrun, rfl, ?_⟩
  exact (retouch_crash_safe Sample.retouchLibs Sample.librarySha1 (cstr "/system/lib/a.so") (by decide)
    (by decide) Sample.libraryStart _ Sample.libraryStart_usable
    (.call .start (Sample.library_sound 0xfffff000) hrun)).1

/-- Two calls that are low on space: the first is cut off when it has removed the library, and the
second when it has opened the saved copy for writing. No file has the contents any more. -/
theorem retouch_loses_library :
    FileIs (Usable Sample.retouchLibs Sample.librarySha1) Sample.libraryStart
        (cstr "/system/lib/a.so") ∧
      Reachable fsMachine Sample.libraryCall Sample.libraryStart Sample.libraryLost ∧
      ¬ FileIs (fun x => HasDigest Sample.retouchLibs Sample.librarySha1 (retouched 0 x))
        Sample.libraryLost (cstr "/system/lib/a.so") ∧
      ¬ FileIs (fun x => HasDigest Sample.retouchLibs Sample.librarySha1 (retouched 0 x))
        Sample.libraryLost cacheTempSource := by
  refine ⟨Sample.libraryStart_usable, ?_, ?_, ?_⟩
  · have hfirst := exec_run (Sample.lowSpace_possible 9) Sample.libraryCall 0 Sample.libraryStart
    have hsecond := exec_run (Sample.lowSpace_possible 6) Sample.libraryCall 0 Sample.onlySaved
    exact .rerun (.rerun .start trivial hfirst) trivial hsecond
  · rintro ⟨f, hf, -⟩
    have hnone : Sample.libraryLost.files (cstr "/system/lib/a.so") = none := by decide +kernel
    rw [hnone] at hf
    cases hf
  · rintro ⟨f, hf, hdigest⟩
    have hempty : (Sample.libraryLost.files cacheTempSource).map Node.data = some [] := by
      decide +kernel
    rw [hf] at hempty
    simp only [Option.map_some, Option.some.injEq] at hempty
    rw [hempty] at hdigest
    revert hdigest
    unfold HasDigest
    decide +kernel

end OpenRecovery.Retouch
