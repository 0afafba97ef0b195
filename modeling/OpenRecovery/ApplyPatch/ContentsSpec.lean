import OpenRecovery.ApplyPatch.Contents
import OpenRecovery.Retouch.MaskSpec
import OpenRecovery.Storage.Smooth

/-!
# What the file helpers do to the file system

One rule for each helper of `Contents.lean`, in terms of `wp`. Loading a file reads it and nothing
else (`wp_loadFileContents`); saving touches only the file written and, on success, leaves exactly
the given contents there (`wp_saveFileContents`); making room deletes only names under `/cache`
other than the saved copy (`wp_makeFreeSpaceOnCache`).
-/

set_option autoImplicit false

namespace OpenRecovery.ApplyPatch

open OpenRecovery.Crash OpenRecovery.Retouch OpenRecovery.Storage

/-- Only the file `n` is touched. -/
def OnlyFile (n k : Name) : Prop := k = n

theorem onlyFile_self (n : Name) : OnlyFile n n := rfl

/-! ## Loading -/

/-- `LoadFileContents` once the file has been read. -/
def loadNode (L : Libs) (file : FileContents) (retouchFlag : Bool) : Option Node → Int × FileContents
  | none => (-1, { file with data := none })
  | some f =>
      if retouchFlag then
        match retouchMaskData f.data (some 0) with
        | (.matched, data, _) => (0, ⟨L.sha1 data, some data, f.data.length, f.st⟩)
        | _ => (-1, ⟨file.sha1, none, f.data.length, f.st⟩)
      else (0, ⟨L.sha1 f.data, some f.data, f.data.length, f.st⟩)

/-- A name that is no partition is loaded as a file. -/
theorem loadFileContents_eq (L : Libs) {n : Name} (hn : isEmmc n = false) (file : FileContents)
    (flag : Bool) :
    loadFileContents L n file flag = (do return loadNode L file flag (← sysLoad n)) := by
  simp only [loadFileContents, hn, Bool.false_eq_true, if_false]
  congr 1
  funext r
  cases r with
  | none => rfl
  | some f =>
      cases flag with
      | false => rfl
      | true =>
          simp only [loadNode, if_true]
          rcases retouchMaskData f.data (some 0) with ⟨res, data, off⟩
          cases res <;> rfl

/-- Loading a file answers by its contents and changes nothing. -/
theorem wp_loadFileContents (L : Libs) {n : Name} (hn : isEmmc n = false) (file : FileContents)
    (flag : Bool) {Q : Int × FileContents → Fs → Prop} {C : Fs → Prop} {s : Fs} :
    wp fsMachine Q C (loadFileContents L n file flag) s ↔
      C s ∧ Q (loadNode L file flag (s.files n)) s := by
  rw [loadFileContents_eq L hn, wp_bind, wp_sysLoad]
  rfl

/-- A file that loads: its masked contents and their digest. -/
theorem loadNode_matched (L : Libs) (file : FileContents) {f : Node} {x : Bytes} {off : BitVec 32}
    (h : retouchMaskData f.data (some 0) = (.matched, x, off)) :
    loadNode L file true (some f) = (0, ⟨L.sha1 x, some x, f.data.length, f.st⟩) := by
  simp only [loadNode, if_true, h]

/-- With masking, a file is loaded only if it could be masked, and its digest is that of the mask.
-/
theorem loadNode_zero {L : Libs} {file : FileContents} {node : Option Node}
    (h : (loadNode L file true node).1 = 0) :
    ∃ f x off, node = some f ∧ retouchMaskData f.data (some 0) = (.matched, x, off) ∧
      (loadNode L file true node).2.sha1 = L.sha1 x := by
  cases node with
  | none => cases h
  | some f =>
      rcases hm : retouchMaskData f.data (some 0) with ⟨res, x, off⟩
      cases res with
      | matched =>
          refine ⟨f, x, off, rfl, hm, ?_⟩
          rw [loadNode_matched L file hm]
      | error =>
          simp only [loadNode, if_true, hm] at h
          cases h
      | mismatched =>
          simp only [loadNode, if_true, hm] at h
          cases h
      | notApplicable =>
          simp only [loadNode, if_true, hm] at h
          cases h

/-! ## Loading only reads -/

theorem readOnly_pure {α : Type} (a : α) : ReadOnly (pure a : FsProg α) := .ret a

theorem readOnly_sysLoad (n : Name) : ReadOnly (sysLoad n) := .load fun r => .ret r

theorem readOnly_sysLoadPart (dev : Name) : ReadOnly (sysLoadPart dev) := .loadPart fun r => .ret r

/-- Parsing the name of a partition only reads. -/
theorem readOnly_readPairs (L : Libs) (n : Nat) (tokens : List Bytes) :
    ReadOnly (readPairs L n tokens) := by
  induction n generalizing tokens with
  | zero => exact readOnly_pure _
  | succ n ih =>
      cases tokens with
      | nil => exact .halt
      | cons sizeStr rest =>
          simp only [readPairs]
          split
          · exact readOnly_pure _
          · refine (ih rest.tail).bind ?_
            intro r
            cases r with
            | none => exact readOnly_pure _
            | some ps => exact readOnly_pure _

/-- So does reading its prefixes. -/
theorem readOnly_matchPairs (L : Libs) (dev : Bytes) (file : FileContents)
    (ps : List (Nat × Option Bytes)) (got : Nat) : ReadOnly (matchPairs L dev file ps got) := by
  induction ps generalizing got with
  | nil => exact readOnly_pure _
  | cons p ps ih =>
      obtain ⟨size, sha⟩ := p
      simp only [matchPairs]
      split
      · exact readOnly_pure _
      · cases sha with
        | none => exact .halt
        | some str =>
            simp only
            split
            · exact readOnly_pure _
            · split
              · exact readOnly_pure _
              · exact ih size

/-- So does loading a partition. -/
theorem readOnly_loadPartitionContents (L : Libs) (n : Name) (file : FileContents) :
    ReadOnly (loadPartitionContents L n file) := by
  unfold loadPartitionContents
  split
  · exact .halt
  · split
    · exact readOnly_pure _
    · refine (readOnly_readPairs L _ _).bind ?_
      intro r
      cases r with
      | none => exact readOnly_pure _
      | some ps =>
          simp only
          split
          · exact .halt
          · refine (readOnly_sysLoadPart _).bind ?_
            intro dev
            cases dev with
            | none => exact readOnly_pure _
            | some x =>
                simp only
                split
                · exact .halt
                · exact readOnly_matchPairs L x file _ 0

/-- So does loading a file or a partition. -/
theorem readOnly_loadFileContents (L : Libs) (n : Name) (file : FileContents) (flag : Bool) :
    ReadOnly (loadFileContents L n file flag) := by
  cases hn : isEmmc n with
  | true =>
      simp only [loadFileContents, hn, if_true]
      exact readOnly_loadPartitionContents L n _
  | false =>
      rw [loadFileContents_eq L hn]
      exact (readOnly_sysLoad n).bind fun r => readOnly_pure _

/-- The contents are in memory with their size and digest. -/
def Loaded (L : Libs) (file : FileContents) (d : Bytes) : Prop :=
  file.data = some d ∧ file.size = d.length ∧ file.sha1 = L.sha1 d

/-- A partition that is loaded is one of its prefixes. -/
theorem matchPairs_loaded {L : Libs} {dev : Bytes} {file f : FileContents}
    {ps : List (Nat × Option Bytes)} {got : Nat} {s : Fs}
    (h : readResult s (matchPairs L dev file ps got) = some (0, f)) :
    ∃ d, d <+: dev ∧ Loaded L f d := by
  induction ps generalizing got with
  | nil => cases h
  | cons p ps ih =>
      obtain ⟨size, sha⟩ := p
      simp only [matchPairs] at h
      split at h
      · cases h
      · rename_i hsize
        cases sha with
        | none => cases h
        | some str =>
            simp only at h
            split at h
            · cases h
            · split at h
              · cases h
                refine ⟨dev.take size, List.take_prefix size dev, rfl, ?_, rfl⟩
                rw [List.length_take, Nat.min_eq_left (Nat.not_lt.mp hsize)]
              · exact ih h

/-- A partition that loads with status zero. -/
theorem loadPartitionContents_loaded {L : Libs} {n : Name} {file f : FileContents} {s : Fs}
    (h : readResult s (loadPartitionContents L n file) = some (0, f)) :
    ∃ dev d x, (strtok colon n).tail.head? = some dev ∧ s.parts dev = some d ∧ x <+: d ∧
      Loaded L f x := by
  simp only [loadPartitionContents] at h
  cases htok : strtok colon n with
  | nil =>
      rw [htok] at h
      cases h
  | cons magic tokens =>
      simp only [htok] at h
      split at h
      · cases h
      · rw [(readOnly_readPairs L _ _).readResult_bind] at h
        obtain ⟨r, -, h⟩ := Option.bind_eq_some_iff.1 h
        cases r with
        | none => cases h
        | some ps =>
            simp only at h
            cases hhead : tokens.head? with
            | none =>
                rw [hhead] at h
                cases h
            | some dev =>
                simp only [hhead] at h
                rw [(readOnly_sysLoadPart dev).readResult_bind] at h
                obtain ⟨r, hr, h⟩ := Option.bind_eq_some_iff.1 h
                cases hr
                cases hd : s.parts dev with
                | none =>
                    rw [hd] at h
                    cases h
                | some d =>
                    simp only [hd] at h
                    split at h
                    · cases h
                    · obtain ⟨x, hx, hloaded⟩ := matchPairs_loaded h
                      exact ⟨dev, d, x, hhead, hd, hx, hloaded⟩

/-- What loading a file returns is computed from its node. -/
theorem readResult_loadFile (L : Libs) {n : Name} (hn : isEmmc n = false) (file : FileContents)
    (flag : Bool) (s : Fs) :
    readResult s (loadFileContents L n file flag) = some (loadNode L file flag (s.files n)) := by
  rw [loadFileContents_eq L hn, (readOnly_sysLoad n).readResult_bind]
  rfl

/-- What is loaded has the digest that is stored with it. -/
theorem loadNode_loaded {L : Libs} {file f : FileContents} {flag : Bool} {node : Option Node}
    (h : loadNode L file flag node = (0, f)) : ∃ d, Loaded L f d := by
  cases node with
  | none => cases h
  | some v =>
      cases flag with
      | false =>
          cases h
          exact ⟨v.data, rfl, rfl, rfl⟩
      | true =>
          have hlen := length_retouchMaskData v.data (some 0)
          rcases hm : retouchMaskData v.data (some 0) with ⟨res, x, off⟩
          rw [hm] at hlen
          simp only [loadNode, if_true, hm] at h
          cases res with
          | matched =>
              cases h
              exact ⟨x, rfl, congrArg Int.ofNat hlen.symm, rfl⟩
          | error => cases h
          | mismatched => cases h
          | notApplicable => cases h

/-- The same for files and partitions. -/
theorem loadFileContents_loaded {L : Libs} {n : Name} {file f : FileContents} {flag : Bool} {s : Fs}
    (h : readResult s (loadFileContents L n file flag) = some (0, f)) : ∃ d, Loaded L f d := by
  cases hn : isEmmc n with
  | false =>
      rw [readResult_loadFile L hn] at h
      exact loadNode_loaded (Option.some.inj h)
  | true =>
      simp only [loadFileContents, hn, if_true] at h
      obtain ⟨-, -, x, -, -, -, hx⟩ := loadPartitionContents_loaded h
      exact ⟨x, hx⟩

/-! ## Saving -/

/-- The loop of `FileSink` appends a part of the data, and may crash before any of it. Induction on
the fuel. -/
theorem wp_fileSinkLoop {n : Name} {fuel : Nat} {rest : Bytes} {done : Nat}
    {Q : Nat → Fs → Prop} {C : Fs → Prop} {s : Fs} (hfuel : rest.length ≤ fuel)
    (hC : ∀ t, SameExcept (OnlyFile n) s t → C t)
    (hQ : ∀ k, k ≤ rest.length → Q (done + k) (s.append n (rest.take k))) :
    wp fsMachine Q C (fileSinkLoop n fuel rest done) s := by
  induction fuel generalizing rest done s with
  | zero =>
      have h := hQ 0 (Nat.zero_le _)
      rw [List.take_zero, append_nil, Nat.add_zero] at h
      exact h
  | succ fuel ih =>
      by_cases hr : rest = []
      · simp only [fileSinkLoop, hr, if_true]
        have h := hQ 0 (Nat.zero_le _)
        rw [List.take_zero, append_nil, Nat.add_zero] at h
        exact h
      · simp only [fileSinkLoop, hr, if_false]
        rw [wp_bind, wp_sysWrite]
        refine ⟨hC s (.refl _ _), fun v => hC _ (sameExcept_set s v rfl), fun r hle => ?_⟩
        by_cases hr0 : r ≤ 0
        · simp only [hr0, if_true]
          have h := hQ 0 (Nat.zero_le _)
          rw [Nat.add_zero] at h
          rw [Int.toNat_of_nonpos hr0]
          exact h
        · -- `r` bytes were accepted; the rest goes through the loop again
          simp only [hr0, if_false]
          have hlen : r.toNat ≤ rest.length := by omega
          refine ih (by rw [List.length_drop]; omega) ?_ ?_
          · intro t ht
            exact hC t ((sameExcept_append s _ (onlyFile_self n)).trans ht)
          · intro k hk
            rw [List.length_drop] at hk
            have h := hQ (r.toNat + k) (by omega)
            rw [append_append, ← Nat.add_assoc] at *
            rw [List.take_add] at h
            exact h

/-- `FileSink` accepts some initial part of the data and appends it to the file. -/
theorem wp_fileSink {n : Name} {data : Bytes} {Q : Nat → Fs → Prop} {C : Fs → Prop} {s : Fs}
    (hC : ∀ t, SameExcept (OnlyFile n) s t → C t)
    (hQ : ∀ k, k ≤ data.length → Q k (s.append n (data.take k))) :
    wp fsMachine Q C (fileSink n data) s := by
  refine wp_fileSinkLoop (Nat.le_refl _) hC fun k hk => ?_
  rw [Nat.zero_add]
  exact hQ k hk

/-- `chmod` and `chown` at the end of a save. -/
theorem wp_setOwner {n : Name} {st : Stat} {Q : Int → Fs → Prop} {C : Fs → Prop} {s : Fs}
    (hC : ∀ t, SameExcept (OnlyFile n) s t → C t)
    (hfail : ∀ t, SameExcept (OnlyFile n) s t → Q (-1) t)
    (hok : ∀ t, SameExcept (OnlyFile n) s t →
      t.files n = (s.files n).map (fun f => ⟨f.data, st⟩) → Q 0 t) :
    wp fsMachine Q C (do
      let ok ← sysChmod n st.mode
      if !ok then return -1
      let ok ← sysChown n st.uid st.gid
      if !ok then return -1
      return 0) s := by
  have hrefl := SameExcept.refl (OnlyFile n) s
  rw [wp_bind, wp_sysChmod]
  refine ⟨hC s hrefl, hfail s hrefl, fun _ => ?_⟩
  have hsame : SameExcept (OnlyFile n) s
      (s.modify n fun f => { f with st := { f.st with mode := st.mode } }) :=
    sameExcept_modify s _ rfl
  simp only [Bool.not_true, Bool.false_eq_true, if_false]
  rw [wp_bind, wp_sysChown]
  refine ⟨hC _ hsame, hfail _ hsame, fun _ => ?_⟩
  refine hok _ (hsame.trans (sameExcept_modify _ _ rfl)) ?_
  rw [modify_files_self, modify_files_self, Option.map_map]
  rfl

/-- `SaveFileContents` touches only its file; when it returns zero the file holds the contents. -/
theorem wp_saveFileContents {n : Name} {file : FileContents} {Q : Int → Fs → Prop} {C : Fs → Prop}
    {s : Fs} (hC : ∀ t, SameExcept (OnlyFile n) s t → C t)
    (hfail : ∀ t, SameExcept (OnlyFile n) s t → Q (-1) t)
    (hok : ∀ t d, SameExcept (OnlyFile n) s t → file.data = some d → (d.length : Int) = file.size →
      t.files n = some ⟨d, file.st⟩ → Q 0 t)
    (hpart : ∀ t, SameExcept (OnlyFile n) s t →
      (∀ d, file.data = some d → (d.length : Int) ≠ file.size) → Q 0 t) :
    wp fsMachine Q C (saveFileContents n file) s := by
  have hrefl := SameExcept.refl (OnlyFile n) s
  unfold saveFileContents
  rw [wp_bind, wp_sysOpenTrunc]
  refine ⟨hC s hrefl, fun v => hC _ (sameExcept_set s v rfl), hfail s hrefl, ?_⟩
  simp only [Bool.not_true, Bool.false_eq_true, if_false]
  set s₁ := s.set n (some ⟨[], (s.files n).elim newStat Node.st⟩) with hs₁
  have hsame₁ : SameExcept (OnlyFile n) s s₁ := sameExcept_set s _ rfl
  rw [wp_bind]
  cases hdata : file.data with
  | none =>
      change wp fsMachine _ C (if ((0 : Nat) : Int) ≠ file.size then _ else _) s₁
      split
      · exact hfail _ hsame₁
      · refine wp_setOwner (fun t ht => hC t (hsame₁.trans ht))
          (fun t ht => hfail t (hsame₁.trans ht)) fun t ht _ => ?_
        exact hpart t (hsame₁.trans ht) fun d hd => by rw [hdata] at hd; cases hd
  | some d =>
      rw [fileSinkBuffer]
      refine wp_fileSink (fun t ht => hC t (hsame₁.trans ht)) fun k hk => ?_
      have hsame₂ : SameExcept (OnlyFile n) s (s₁.append n (d.take k)) :=
        hsame₁.trans (sameExcept_append s₁ _ rfl)
      split
      · exact hfail _ hsame₂
      · rename_i hsize
        rw [not_not] at hsize
        refine wp_setOwner (fun t ht => hC t (hsame₂.trans ht))
          (fun t ht => hfail t (hsame₂.trans ht)) fun t ht hfile => ?_
        by_cases hlen : (d.length : Int) = file.size
        · -- all bytes were accepted
          have hk' : k = d.length := by omega
          refine hok t d (hsame₂.trans ht) hdata hlen ?_
          rw [hfile, hs₁, append_set, set_files_self, hk', List.take_length]
          rfl
        · refine hpart t (hsame₂.trans ht) fun d' hd' => ?_
          rw [hdata] at hd'
          cases hd'
          exact hlen

/-! ## Making room -/

/-- Names under `/cache` other than the saved copy. -/
def Expendable (n : Name) : Prop := cstr "/cache/" <+: n ∧ n ≠ cacheTempSource

/-- Any free space may be reported. -/
theorem wp_freeSpaceForFile (L : Libs) (n : Name) {Q : Nat → Fs → Prop} {C : Fs → Prop} {s : Fs}
    (hC : C s) (hQ : ∀ k, Q k s) : wp fsMachine Q C (freeSpaceForFile L n) s := by
  unfold freeSpaceForFile
  rw [wp_bind, wp_sysStatfs]
  refine ⟨hC, fun r => ?_⟩
  cases r with
  | none => exact hQ _
  | some x => exact hQ _

/-- The files of the expendable directories can be spared, but for the copy of the source. -/
theorem expendable_joinPath {d e : Name} (hd : d ∈ expendableDirs)
    (hne : joinPath d e ≠ cacheTempSource) : Expendable (joinPath d e) := by
  refine ⟨?_, hne⟩
  have hpre : cstr "/cache/" <+: d ++ cstr "/" := by
    have h : ∀ d ∈ expendableDirs, cstr "/cache/" <+: d ++ cstr "/" := by decide
    exact h d hd
  exact hpre.trans (List.prefix_append _ _)

/-- The regular files of a directory can be spared. -/
theorem wp_regularEntries {d : Name} (hd : d ∈ expendableDirs) {es : List Name}
    {Q : List Name → Fs → Prop} {C : Fs → Prop} {s : Fs} (hC : C s)
    (hQ : ∀ l, (∀ n ∈ l, Expendable n) → Q l s) :
    wp fsMachine Q C (regularEntries d es) s := by
  induction es generalizing Q with
  | nil => exact hQ [] nofun
  | cons e es ih =>
      unfold regularEntries
      by_cases hne : joinPath d e = cacheTempSource
      · simp only [hne, if_true]
        exact ih hQ
      · simp only [hne, if_false]
        rw [wp_bind, wp_sysStatReg]
        refine ⟨hC, ?_⟩
        rw [wp_bind]
        refine ih fun l hl => ?_
        cases (s.files (joinPath d e)).isSome with
        | false => exact hQ l hl
        | true =>
            refine hQ _ fun n hn => ?_
            rcases List.mem_cons.1 hn with rfl | hn
            · exact expendable_joinPath hd hne
            · exact hl n hn

/-- The regular files of all of them. -/
theorem wp_regularFiles {ds : List Name} (hds : ∀ d ∈ ds, d ∈ expendableDirs)
    {Q : List Name → Fs → Prop} {C : Fs → Prop} {s : Fs} (hC : C s)
    (hQ : ∀ l, (∀ n ∈ l, Expendable n) → Q l s) : wp fsMachine Q C (regularFiles ds) s := by
  induction ds generalizing Q with
  | nil => exact hQ [] nofun
  | cons d ds ih =>
      have hds' : ∀ d ∈ ds, d ∈ expendableDirs := fun d' hd' => hds d' (List.mem_cons_of_mem d hd')
      unfold regularFiles
      rw [wp_bind, wp_sysOpendir]
      refine ⟨hC, fun r _ => ?_⟩
      cases r with
      | none => exact ih hds' hQ
      | some es =>
          simp only
          rw [wp_bind]
          refine wp_regularEntries (hds d List.mem_cons_self) hC fun here hhere => ?_
          rw [wp_bind]
          refine ih hds' fun rest hrest => hQ _ fun n hn => ?_
          rcases List.mem_append.1 hn with hn | hn
          · exact hhere n hn
          · exact hrest n hn

/-- The files that `FindExpendableFiles` lists can be spared. -/
theorem wp_findExpendableFiles {Q : Option (List (Option Name)) → Fs → Prop} {C : Fs → Prop}
    {s : Fs} (hC : C s) (hnone : Q none s)
    (hsome : ∀ l, (∀ n, some n ∈ l → Expendable n) → Q (some l) s) :
    wp fsMachine Q C findExpendableFiles s := by
  unfold findExpendableFiles
  rw [wp_bind]
  refine wp_regularFiles (fun d hd => hd) hC fun names hnames => ?_
  unfold eliminateOpenFiles
  rw [wp_bind, wp_sysOpenFiles]
  refine ⟨hC, fun r _ => ?_⟩
  cases r with
  | none => exact hnone
  | some links =>
      refine hsome _ fun n hn => ?_
      obtain ⟨n', hn', heq⟩ := List.mem_map.1 hn
      split at heq
      · cases heq
      · cases heq
        exact hnames n hn'

/-- Expendable files were deleted, and nothing else happened. -/
structure Pruned (s t : Fs) : Prop where
  same : SameExcept Expendable s t
  lost : ∀ n, t.files n = s.files n ∨ t.files n = none

/-- Nothing was deleted. -/
theorem Pruned.refl (s : Fs) : Pruned s s := ⟨.refl _ _, fun _ => .inl rfl⟩

/-- One more file that can be spared was deleted. -/
theorem Pruned.unlink {s t : Fs} {n : Name} (hn : Expendable n) (h : Pruned (s.set n none) t) :
    Pruned s t := by
  refine ⟨(sameExcept_set s none hn).trans h.same, ?_⟩
  intro k
  rcases h.lost k with hk | hk
  · by_cases hkn : k = n
    · rw [hk, hkn]
      exact .inr (set_files_self s n none)
    · rw [hk]
      exact .inl (set_files_of_ne s n none hkn)
  · exact .inr hk

/-- The loop that deletes stops anywhere, and touches nothing else. Induction on the names. -/
theorem wp_deleteUntil (L : Libs) {needed : Nat} {names : List (Option Name)} {free : Nat}
    {Q : Nat → Fs → Prop} {C : Fs → Prop} {s : Fs} (hnames : ∀ n, some n ∈ names → Expendable n)
    (hC : ∀ t, Pruned s t → C t) (hQ : ∀ k t, Pruned s t → Q k t) :
    wp fsMachine Q C (deleteUntil L needed names free) s := by
  induction names generalizing free s with
  | nil => exact hQ free s (.refl s)
  | cons n ns ih =>
      have hns : ∀ n, some n ∈ ns → Expendable n := fun k hk => hnames k (List.mem_cons_of_mem _ hk)
      unfold deleteUntil
      split
      · cases n with
        | none => exact ih hns hC hQ
        | some name =>
            have hname := hnames name List.mem_cons_self
            simp only
            rw [wp_bind, wp_sysUnlink]
            refine ⟨hC s (.refl s), ?_⟩
            rw [wp_bind]
            refine wp_freeSpaceForFile L _ (hC _ (.unlink hname (.refl _))) fun k => ?_
            exact ih hns (fun t ht => hC t (ht.unlink hname)) fun k t ht => hQ k t (ht.unlink hname)
      · exact hQ free s (.refl s)

/-- Making room deletes expendable files and nothing else. -/
theorem wp_makeFreeSpaceOnCache_pruned (L : Libs) {needed : Nat} {Q : Int → Fs → Prop}
    {C : Fs → Prop} {s : Fs} (hC : ∀ t, Pruned s t → C t) (hQ : ∀ r t, Pruned s t → Q r t) :
    wp fsMachine Q C (makeFreeSpaceOnCache L needed) s := by
  have hrefl := Pruned.refl s
  unfold makeFreeSpaceOnCache
  rw [wp_bind]
  refine wp_freeSpaceForFile L _ (hC s hrefl) fun free => ?_
  split
  · exact hQ 0 s hrefl
  · rw [wp_bind]
    refine wp_findExpendableFiles (hC s hrefl) (hQ (-1) s hrefl) fun names hnames => ?_
    simp only
    split
    · exact hQ (-1) s hrefl
    · rw [wp_bind]
      refine wp_deleteUntil L hnames hC fun k t ht => ?_
      exact hQ _ t ht

/-- `MakeFreeSpaceOnCache` touches only what can be spared. -/
theorem wp_makeFreeSpaceOnCache (L : Libs) {needed : Nat} {Q : Int → Fs → Prop} {C : Fs → Prop}
    {s : Fs} (hC : ∀ t, SameExcept Expendable s t → C t)
    (hQ : ∀ r t, SameExcept Expendable s t → Q r t) :
    wp fsMachine Q C (makeFreeSpaceOnCache L needed) s :=
  wp_makeFreeSpaceOnCache_pruned L (fun t ht => hC t ht.same) fun r t ht => hQ r t ht.same

/-! ## When nothing fails -/

section Roomy

variable {L : Libs} {k : Nat} (hk : k < 2 ^ L.sizeBits) {s : Fs}

include hk

/-- A smooth run of `FileSink` writes everything. -/
theorem returns_fileSink {n : Name} {d : Bytes} {Q : Nat → Fs → Prop}
    (h : Q d.length (s.append n d)) : Returns (roomyMachine L.sizeBits k) Q (fileSink n d) s := by
  unfold fileSink
  cases hd : d with
  | nil =>
      rw [hd, append_nil] at h
      exact h
  | cons b bs =>
      simp only [List.length_cons, fileSinkLoop, reduceCtorEq, if_false]
      refine returns_bind (returns_sysWrite hk ?_)
      have hpos : ¬ (((b :: bs).length : Int) ≤ 0) := by
        rw [List.length_cons]
        omega
      simp only [hpos, if_false, Int.toNat_natCast, Nat.zero_add, List.drop_length]
      -- nothing is left for another pass
      have hend : fileSinkLoop n bs.length [] (b :: bs).length = .ret (b :: bs).length := by
        cases bs.length with
        | zero => rfl
        | succ m => rfl
      rw [hend, ← hd]
      exact h

/-- Saving puts the contents into the file. -/
theorem returns_saveFileContents {n : Name} {file : FileContents} {d : Bytes}
    (hd : file.data = some d) (hsize : file.size = d.length) {Q : Int → Fs → Prop}
    (h : ∀ t, SameExcept (OnlyFile n) s t → t.files n = some ⟨d, file.st⟩ → Q 0 t) :
    Returns (roomyMachine L.sizeBits k) Q (saveFileContents n file) s := by
  unfold saveFileContents
  refine returns_bind (returns_sysOpenTrunc hk ?_)
  simp only [Bool.not_true, Bool.false_eq_true, if_false, hd, fileSinkBuffer]
  refine returns_bind (returns_fileSink hk ?_)
  rw [append_set]
  simp only [hsize, ne_eq, not_true_eq_false, if_false]
  refine returns_bind (returns_sysChmod hk (by rw [set_files_self]; rfl) ?_)
  simp only [Bool.not_true, Bool.false_eq_true, if_false]
  refine returns_bind (returns_sysChown hk (by rw [modify_files_self, set_files_self]; rfl) ?_)
  refine h _ ?_ ?_
  · have hn := onlyFile_self n
    exact (sameExcept_set s _ hn).trans
      ((sameExcept_modify _ _ hn).trans (sameExcept_modify _ _ hn))
  · rw [modify_files_self, modify_files_self, set_files_self]
    rfl

/-- In a smooth run there is space. -/
theorem returns_makeFreeSpaceOnCache {needed : Nat} (hn : needed ≤ k) {Q : Int → Fs → Prop}
    (h : Q 0 s) :
    Returns (roomyMachine L.sizeBits k) Q (makeFreeSpaceOnCache L needed) s := by
  unfold makeFreeSpaceOnCache freeSpaceForFile
  refine returns_bind (returns_bind (returns_sysStatfs hk ?_))
  intro bsize bfree hle
  have hge : bsize * bfree % 2 ^ L.sizeBits ≥ needed := Nat.le_trans hn hle
  simp only [Prog.pure_eq_ret, Returns, hge, if_true]
  exact h

end Roomy

end OpenRecovery.ApplyPatch
