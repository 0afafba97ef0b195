import OpenRecovery.ApplyPatch.Soundness

/-!
# What a call of `applypatch` can touch

`Within R p` says that every run of `p`, wherever it ends, leaves a state related by `R` to the one
it started in; for a preorder `R` it is put together along the program (`within_bind`). `Confined a`
is such a relation: apart from the names in the arguments `a`, the output file and `/cache`, all
files are as before, and of the partitions at most the target is different. `applypatch_confined`
holds for every state and all arguments, also those that make no sense.
-/

set_option autoImplicit false

namespace OpenRecovery.ApplyPatch

open OpenRecovery.Crash OpenRecovery.Edify OpenRecovery.Storage

/-! ## Programs that stay within a relation -/

section Within

variable {σ Op : Type} {Res : Op → Type} {α β : Type} {m : Machine σ Op Res} {R : σ → σ → Prop}

/-- The state at the end of a run, wherever that is, is related to the one at its start. -/
def Within (m : Machine σ Op Res) (R : σ → σ → Prop) (p : Prog Op Res α) : Prop :=
  ∀ s, wp m (fun _ t => R s t) (R s) p s

/-- A program that does nothing stays within a reflexive relation. -/
theorem within_ret (hrefl : ∀ s, R s s) (a : α) : Within m R (.ret a : Prog Op Res α) :=
  fun s => hrefl s

/-- So does one that stops. -/
theorem within_halt (hrefl : ∀ s, R s s) : Within m R (.halt : Prog Op Res α) :=
  fun s => hrefl s

/-- Two programs one after the other stay within a transitive relation. -/
theorem within_bind (htrans : ∀ s t u, R s t → R t u → R s u) {p : Prog Op Res α}
    {f : α → Prog Op Res β} (hp : Within m R p) (hf : ∀ a, Within m R (f a)) :
    Within m R (p >>= f) := by
  intro s
  refine wp_seq (hp s) ?_
  intro a t ht
  -- what comes after `p` starts in a state that is related to the first
  exact wp_mono (fun _ u hu => htrans s t u ht hu) (fun u hu => htrans s t u ht hu) (hf a t)

/-- A condition that the relation carries over is kept. -/
theorem Within.keeps {p : Prog Op Res α} (hp : Within m R p) {I : σ → Prop}
    (hI : ∀ s t, R s t → I s → I t) {s : σ} (hs : I s) : wp m (fun _ t => I t) I p s :=
  wp_mono (fun _ t ht => hI s t ht hs) (fun t ht => hI s t ht hs) (hp s)

end Within

/-! ## The files and the partition of a call -/

/-- The files a call may change: those in `/cache`, and with a file as the target the source, the
target and the output file. -/
def PatchArgs.Touches (a : PatchArgs) (n : Name) : Prop :=
  n = cacheTempSource ∨ Expendable n ∨
    (isEmmc a.target = false ∧ (n = a.sourceFilename ∨ n = a.target ∨ n = a.outname))

/-- The partition a call may change. -/
def PatchArgs.Overwrites (a : PatchArgs) (dev : Name) : Prop :=
  isEmmc a.target = true ∧ deviceOf a.target = some dev

/-- Nothing else differs. -/
structure Confined (a : PatchArgs) (s t : Fs) : Prop where
  files : ∀ n, ¬ a.Touches n → t.files n = s.files n
  parts : ∀ dev, ¬ a.Overwrites dev → t.parts dev = s.parts dev

section Stages

variable {L : Libs} {a : PatchArgs}

/-- Nothing has changed. -/
theorem confined_refl (s : Fs) : Confined a s s := ⟨fun _ _ => rfl, fun _ _ => rfl⟩

/-- What two steps leave alone is left alone by both. -/
theorem confined_trans (s t u : Fs) (h : Confined a s t) (h' : Confined a t u) : Confined a s u :=
  ⟨fun n hn => (h'.files n hn).trans (h.files n hn),
    fun dev hdev => (h'.parts dev hdev).trans (h.parts dev hdev)⟩

/-- A step that changes only files the call may touch, and no partition. -/
theorem confined_of_same {N : Name → Prop} {s t : Fs} (h : SameExcept N s t)
    (hN : ∀ n, N n → a.Touches n) : Confined a s t :=
  ⟨fun n hn => h.1 n fun hk => hn (hN n hk), fun _ _ => by rw [h.2.1]⟩

/-- The copy of the source may be touched. -/
theorem touches_cache {n : Name} (h : OnlyFile cacheTempSource n) : a.Touches n := .inl h

/-- Files that `/cache` can spare may be touched. -/
theorem touches_expendable {n : Name} (h : Expendable n) : a.Touches n := .inr (.inl h)

/-- The file that is written before the rename may be touched. -/
theorem touches_outname (ht : isEmmc a.target = false) {n : Name} (h : OnlyFile a.outname n) :
    a.Touches n := .inr (.inr ⟨ht, .inr (.inr h)⟩)

/-- The programs below stay within `Confined a`. -/
abbrev Stays {α : Type} (a : PatchArgs) (p : FsProg α) : Prop := Within fsMachine (Confined a) p

variable {α β : Type}

theorem stays_ret (x : α) : Stays a (.ret x) := within_ret confined_refl x

theorem stays_halt : Stays a (.halt : FsProg α) := within_halt confined_refl

theorem stays_bind {p : FsProg α} {f : α → FsProg β} (hp : Stays a p) (hf : ∀ x, Stays a (f x)) :
    Stays a (p >>= f) := within_bind confined_trans hp hf

/-- Each branch stays inside. -/
theorem stays_ite {c : Prop} [Decidable c] {p q : FsProg α} (hp : Stays a p) (hq : Stays a q) :
    Stays a (if c then p else q) := by
  split
  · exact hp
  · exact hq

/-- Reading changes nothing. -/
theorem stays_readOnly {p : FsProg α} (hp : ReadOnly p) : Stays a p :=
  fun s => hp.wp (confined_refl s) fun _ _ => confined_refl s

theorem stays_sysUninit : Stays a sysUninit := by
  intro s
  rw [wp_sysUninit]
  exact ⟨confined_refl s, fun _ => confined_refl s⟩

theorem stays_sysUnlink {n : Name} (hn : a.Touches n) : Stays a (sysUnlink n) := by
  intro s
  rw [wp_sysUnlink]
  refine ⟨confined_refl s, confined_of_same (sameExcept_set s none (onlyFile_self n)) ?_⟩
  rintro k rfl
  exact hn

theorem stays_sysChmod {n : Name} (hn : a.Touches n) (mode : Nat) : Stays a (sysChmod n mode) := by
  have htouch : ∀ k, OnlyFile n k → a.Touches k := fun _ hk => hk ▸ hn
  intro s
  rw [wp_sysChmod]
  exact ⟨confined_refl s, confined_refl s,
    fun _ => confined_of_same (sameExcept_modify s _ (onlyFile_self n)) htouch⟩

theorem stays_sysChown {n : Name} (hn : a.Touches n) (uid gid : Nat) :
    Stays a (sysChown n uid gid) := by
  have htouch : ∀ k, OnlyFile n k → a.Touches k := fun _ hk => hk ▸ hn
  intro s
  rw [wp_sysChown]
  exact ⟨confined_refl s, confined_refl s,
    fun _ => confined_of_same (sameExcept_modify s _ (onlyFile_self n)) htouch⟩

theorem stays_sysRename {n k : Name} (hn : a.Touches n) (hk : a.Touches k) :
    Stays a (sysRename n k) := by
  intro s
  rw [wp_sysRename]
  refine ⟨confined_refl s, confined_refl s, ?_⟩
  intro _
  split
  · exact confined_refl s
  · exact confined_of_same (N := a.Touches) ((sameExcept_set s _ hk).trans (sameExcept_set _ none hn))
      fun _ h => h

/-- `FreeSpaceForFile` only asks. -/
theorem stays_freeSpaceForFile (path : Name) : Stays a (freeSpaceForFile L path) :=
  fun s => wp_freeSpaceForFile L path (confined_refl s) fun _ => confined_refl s

/-- `MakeFreeSpaceOnCache` deletes what can be spared. -/
theorem stays_makeFreeSpaceOnCache (needed : Nat) : Stays a (makeFreeSpaceOnCache L needed) :=
  fun _ => wp_makeFreeSpaceOnCache L (fun _ ht => confined_of_same ht fun _ => touches_expendable)
    fun _ _ ht => confined_of_same ht fun _ => touches_expendable

/-- Saving the source writes to the copy. -/
theorem stays_saveCopy (file : FileContents) : Stays a (saveFileContents cacheTempSource file) := by
  have hcopy : ∀ s t, SameExcept (OnlyFile cacheTempSource) s t → Confined a s t :=
    fun s t h => confined_of_same h fun _ => touches_cache
  intro s
  exact wp_saveFileContents (hcopy s) (hcopy s) (fun t _ ht _ _ _ => hcopy s t ht)
    fun t ht _ => hcopy s t ht

/-- Choosing the source only reads. -/
theorem stays_selectSource (sha : Bytes) : Stays a (selectSource L a sha) := by
  rw [selectSource_eq]
  refine stays_bind stays_sysUninit fun copy => ?_
  refine stays_bind stays_sysUninit fun file => ?_
  exact stays_readOnly (readOnly_selectFrom L a sha copy file)

/-- The test for space deletes what can be spared, if anything. -/
theorem stays_testSpace (retry : Nat) : Stays a (testSpace L a retry) := by
  unfold testSpace
  refine stays_ite ?_ (stays_ret _)
  exact stays_bind (stays_freeSpaceForFile _) fun _ => stays_ret _

/-- Saving the source, in either branch of the first half of a pass. -/
theorem stays_backUp {β : Type} (sel : Selection) {rest : FsProg (Except Int β)} (hrest : Stays a rest) :
    Stays a (do
      let m ← makeFreeSpaceOnCache L (toSize L sel.sourceFile.size)
      if m < 0 then return .error 1
      let r ← saveFileContents cacheTempSource sel.sourceFile
      if r < 0 then return .error 1
      rest) := by
  refine stays_bind (stays_makeFreeSpaceOnCache _) fun m => ?_
  refine stays_ite (stays_ret _) ?_
  refine stays_bind (stays_saveCopy _) fun r => ?_
  exact stays_ite (stays_ret _) hrest

/-- The branch for a full file system copies the source, and deletes it. -/
theorem stays_makeRoom (sel : Selection) (retry : Nat) (madeCopy : Bool) :
    Stays a (makeRoom L a sel retry madeCopy) := by
  unfold makeRoom
  cases ht : isEmmc a.target with
  | true => exact stays_backUp sel (stays_ret _)
  | false =>
      refine stays_bind (stays_testSpace _) fun enough => ?_
      refine stays_ite ?_ (stays_ret _)
      refine stays_ite (stays_ret _) (stays_backUp sel ?_)
      -- only here is the source unlinked
      refine stays_bind (stays_sysUnlink (.inr (.inr ⟨ht, .inl rfl⟩))) fun _ => ?_
      exact stays_bind (stays_freeSpaceForFile _) fun _ => stays_ret _

/-- Applying the patch happens in memory. -/
theorem stays_runPatch (src : FileContents) (patch : Value) : Stays a (runPatch L a src patch) := by
  intro s
  cases ht : isEmmc a.target with
  | true =>
      have hrefl := confined_refl (a := a) s
      unfold runPatch
      simp only [ht, if_true]
      split
      · exact hrefl
      · -- the buffer is in memory
        rw [wp_bind]
        exact wp_applyBlob_memory L hrefl hrefl (fun _ => hrefl) fun _ _ _ _ => hrefl
  | false =>
      have hout : ∀ t, SameExcept (OnlyFile a.outname) s t → Confined a s t :=
        fun t h => confined_of_same h fun _ => touches_outname ht
      exact wp_runPatch_file L ht hout hout fun t _ _ _ h _ _ _ => hout t h

/-- One round of the retry loop. -/
theorem stays_attempt (sel : Selection) (retry : Nat) (madeCopy : Bool) :
    Stays a (attempt L a sel retry madeCopy) := by
  unfold attempt
  refine stays_bind (stays_makeRoom _ _ _) fun res => ?_
  rcases res with code | ⟨retry, madeCopy⟩
  · exact stays_ret _
  · simp only
    rcases sel.toUse with ⟨src, _ | patch⟩
    · exact stays_halt
    · refine stays_bind (stays_runPatch _ _) fun res => ?_
      rcases res with code | ⟨result, ctx, buffer⟩
      · exact stays_ret _
      · exact stays_ret _

/-- The retry loop, by its rounds. -/
theorem stays_attemptLoop (sel : Selection) (retry : Nat) (madeCopy : Bool) :
    Stays a (attemptLoop L a sel retry madeCopy) := by
  induction retry generalizing madeCopy with
  | zero =>
      unfold attemptLoop
      refine stays_bind (stays_attempt _ _ _) fun res => ?_
      cases res with
      | error code => exact stays_ret _
      | ok p => exact stays_ret _
  | succ retry ih =>
      unfold attemptLoop
      refine stays_bind (stays_attempt _ _ _) fun res => ?_
      cases res with
      | error code => exact stays_ret _
      | ok p =>
          simp only
          refine stays_ite (stays_ret _) ?_
          refine stays_ite (stays_ret _) ?_
          cases ht : isEmmc a.target with
          | true => exact ih _
          | false => exact stays_bind (stays_sysUnlink (touches_outname ht rfl)) fun _ => ih _

/-- A device other than the target keeps its contents. -/
theorem stays_writeToPartition (ht : isEmmc a.target = true) (data : Bytes) :
    Stays a (writeToPartition data a.target) := by
  intro s
  have hrefl := confined_refl (a := a) s
  unfold writeToPartition
  cases htok : strtok colon a.target with
  | nil => exact hrefl
  | cons magic tokens =>
      simp only
      split
      · exact hrefl
      · cases hhead : tokens.head? with
        | none => exact hrefl
        | some dev =>
            have hdev : deviceOf a.target = some dev := by
              rw [deviceOf, htok]
              exact hhead
            have hpart : ∀ new, Confined a s (s.setPart dev (some new)) := by
              intro new
              refine ⟨fun _ _ => rfl, ?_⟩
              intro dev' hdev'
              have hne : dev' ≠ dev := by
                rintro rfl
                exact hdev' ⟨ht, hdev⟩
              exact Function.update_of_ne hne ..
            simp only
            rw [wp_bind, wp_sysWritePart]
            refine ⟨hrefl, hrefl, ?_⟩
            intro old _
            exact ⟨fun new _ => ⟨hpart new, hpart new⟩, fun _ => hpart _⟩

/-- Writing the target, and putting it into its place. -/
theorem stays_finishPatch (sha : Bytes) (src : FileContents) (ctx buffer : Bytes) (madeCopy : Bool) :
    Stays a (finishPatch L a sha src ctx buffer madeCopy) := by
  have hend : Stays a (do
      if madeCopy then
        let _ ← sysUnlink cacheTempSource
      return (0 : Int)) := by
    cases madeCopy with
    | false => exact stays_ret _
    | true => exact stays_bind (stays_sysUnlink (touches_cache rfl)) fun _ => stays_ret _
  unfold finishPatch
  refine stays_ite (stays_ret _) ?_
  cases ht : isEmmc a.target with
  | true =>
      refine stays_bind (stays_writeToPartition ht _) fun r => ?_
      exact stays_ite (stays_ret _) hend
  | false =>
      refine stays_bind (stays_sysChmod (touches_outname ht rfl) _) fun ok => ?_
      refine stays_ite (stays_ret _) ?_
      refine stays_bind (stays_sysChown (touches_outname ht rfl) _ _) fun ok => ?_
      refine stays_ite (stays_ret _) ?_
      refine stays_bind (stays_sysRename (touches_outname ht rfl)
        (.inr (.inr ⟨ht, .inr (.inl rfl)⟩))) fun ok => ?_
      exact stays_ite (stays_ret _) hend

/-- `applypatch` as a whole, crashes included. -/
theorem stays_applypatch (L : Libs) (a : PatchArgs) : Stays a (applypatch L a) := by
  unfold applypatch
  cases parseSha1 a.targetSha1Str with
  | none => exact stays_ret _
  | some sha =>
      refine stays_bind (stays_selectSource sha) fun sel => ?_
      unfold patchSelected
      cases sel with
      | error code => exact stays_ret _
      | ok sel =>
          refine stays_bind (stays_attemptLoop _ _ _) fun res => ?_
          cases res with
          | error code => exact stays_ret _
          | ok p => exact stays_finishPatch _ _ _ _ _

end Stages

/-- Whatever the state, the arguments and the answers of the system are, and wherever a call is cut
off: it has changed no file besides those of its arguments and in `/cache`, and no partition besides
its target. -/
theorem applypatch_confined (L : Libs) (a : PatchArgs) (s t : Fs) (out : Option Int)
    (h : Run fsMachine s (applypatch L a) t out) :
    (∀ n, ¬ a.Touches n → t.files n = s.files n) ∧
      ∀ dev, ¬ a.Overwrites dev → t.parts dev = s.parts dev := by
  have hrun := (wp_iff_run _ _).1 (stays_applypatch L a s) t out h
  cases out with
  | none => exact ⟨hrun.files, hrun.parts⟩
  | some r => exact ⟨hrun.files, hrun.parts⟩

namespace Sample

/-- The state after a crash in the call for `/system/x`. -/
def crashedX : Fs := (exec fsMachine crashAfterUnlink 0 start (applypatch libs callX.args)).1

/-- The call has unlinked its source and not touched the other file. -/
theorem applypatch_confined_crashed :
    crashedX.files (cstr "/system/x") = none ∧
      crashedX.files (cstr "/system/y") = start.files (cstr "/system/y") := by
  refine ⟨by decide, ?_⟩
  refine (applypatch_confined libs callX.args start crashedX _
    (exec_run crashAfterUnlink_possible (applypatch libs callX.args) 0 start)).1 _ ?_
  unfold PatchArgs.Touches Expendable
  decide

end Sample

end OpenRecovery.ApplyPatch
