import OpenRecovery.ApplyPatch.ApplyPatch
import OpenRecovery.ApplyPatch.ContentsSpec

/-!
# What a patch leaves in its output

`Emitted ps fin r stored absorbed` lists the ways in which the pieces `ps` can go through
`FileSink`: the status, the bytes that reached the file, and the bytes the SHA context absorbed.
The two differ when a normal piece is cut short, because `ApplyImagePatch` does not look at the
status of such a chunk. `Outcome` is the same for a whole patch of either format.

`wp_applyBlob_file` says that nothing else happens, `can_applyBlob_file` that each of these
outcomes does happen for some behaviour of `write`. `MemorySink` stores a piece or refuses it, so
there the two byte strings agree (`wp_applyBlob_memory`). A patch that turns `x` into `y` when every
write is accepted (`Turns`) leaves `y` in the file whenever the digest has absorbed `y`
(`Turns.stored_eq`).
-/

set_option autoImplicit false

namespace OpenRecovery.ApplyPatch

open OpenRecovery.Crash OpenRecovery.Edify OpenRecovery.Storage

/-! ## One call of the sink -/

theorem can_sysWrite {n : Name} {d : Bytes} {s : Fs} {k : Nat} (hk : k ≤ d.length) :
    Can fsMachine (fun r t => r = (k : Int) ∧ t = s.append n (d.take k)) (sysWrite n d) s := by
  refine can_op (k : Int) ?_ (can_ret ⟨rfl, rfl⟩)
  change (k : Int) ≤ d.length
  omega

/-- `FileSink` can stop after any number of bytes. -/
theorem can_fileSink {n : Name} {data : Bytes} {s : Fs} {k : Nat} (hk : k ≤ data.length) :
    Can fsMachine (fun r t => r = k ∧ t = s.append n (data.take k)) (fileSink n data) s := by
  unfold fileSink
  cases hlen : data.length with
  | zero =>
      have hk0 : k = 0 := by omega
      refine can_ret ⟨hk0.symm, ?_⟩
      rw [hk0, List.take_zero, append_nil]
  | succ m =>
      have hne : data ≠ [] := by
        rintro rfl
        cases hlen
      simp only [fileSinkLoop, hne, if_false]
      refine can_bind (can_mono ?_ (can_sysWrite hk))
      rintro r t ⟨rfl, rfl⟩
      by_cases hk0 : k = 0
      · simp only [hk0, Int.natCast_zero, le_refl, if_true]
        exact can_ret ⟨rfl, rfl⟩
      · have hpos : ¬ ((k : Int) ≤ 0) := by omega
        simp only [hpos, if_false, Int.toNat_natCast, Nat.zero_add]
        -- the loop goes on with the rest, and the next write accepts nothing
        cases m with
        | zero => exact can_ret ⟨rfl, rfl⟩
        | succ m =>
            simp only [fileSinkLoop]
            split
            · exact can_ret ⟨rfl, rfl⟩
            · refine can_bind (can_mono ?_ (can_sysWrite (Nat.zero_le _)))
              rintro r t ⟨rfl, rfl⟩
              simp only [Int.natCast_zero, le_refl, if_true, List.take_zero, append_nil]
              exact can_ret ⟨rfl, rfl⟩

theorem wp_fileSinkFn {n : Name} {d : Bytes} {Q : Int × Unit → Fs → Prop} {C : Fs → Prop} {s : Fs}
    (hC : ∀ t, SameExcept (OnlyFile n) s t → C t)
    (hQ : ∀ k : Nat, k ≤ d.length → Q (k, ()) (s.append n (d.take k))) :
    wp fsMachine Q C (fileSinkFn n () d) s := by
  unfold fileSinkFn
  rw [wp_bind]
  exact wp_fileSink hC hQ

theorem can_fileSinkFn {n : Name} {d : Bytes} {s : Fs} {k : Nat} (hk : k ≤ d.length) :
    Can fsMachine (fun r t => r = ((k : Int), ()) ∧ t = s.append n (d.take k))
      (fileSinkFn n () d) s := by
  refine can_bind (can_mono ?_ (can_fileSink hk))
  rintro r t ⟨rfl, rfl⟩
  exact can_ret ⟨rfl, rfl⟩

/-! ## A list of pieces through `FileSink` -/

/-- The ways in which a list of pieces can go through `FileSink`. -/
inductive Emitted : List Piece → PatchEnd → Int → Bytes → Bytes → Prop
  | done : Emitted [] .done 0 [] []
  | failed : Emitted [] .failed (-1) [] []
  | full {ps : List Piece} {fin : PatchEnd} {r : Int} {stored absorbed : Bytes} (p : Piece) :
      Emitted ps fin r stored absorbed →
      Emitted (p :: ps) fin r (p.data ++ stored) (p.data ++ absorbed)
  | tornNormal {ps : List Piece} {fin : PatchEnd} {r : Int} {stored absorbed d : Bytes} {k : Nat} :
      k < d.length → Emitted ps fin r stored absorbed →
      Emitted (.normal d :: ps) fin r (d.take k ++ stored) absorbed
  | tornRaw {ps : List Piece} {fin : PatchEnd} {d : Bytes} {k : Nat} :
      k < d.length → Emitted (.raw d :: ps) fin (-1) (d.take k) d
  | tornBlock {ps : List Piece} {fin : PatchEnd} {d : Bytes} {k : Nat} :
      k < d.length → Emitted (.block d :: ps) fin (-1) (d.take k) []

/-- All the bytes of a list of pieces. -/
def allBytes (ps : List Piece) : Bytes := ps.flatMap Piece.data

theorem wp_emit_file {n : Name} {ps : List Piece} {fin : PatchEnd} {ctx : Bytes}
    {Q : Int × Unit × Bytes → Fs → Prop} {C : Fs → Prop} {s : Fs}
    (hC : ∀ t, SameExcept (OnlyFile n) s t → C t)
    (hQ : ∀ r stored absorbed, Emitted ps fin r stored absorbed →
      Q (r, (), ctx ++ absorbed) (s.append n stored)) :
    wp fsMachine Q C (emit (fileSinkFn n) ps fin () ctx) s := by
  induction ps generalizing ctx s with
  | nil =>
      cases fin with
      | done =>
          have h := hQ 0 [] [] .done
          rw [List.append_nil, append_nil] at h
          exact h
      | failed =>
          have h := hQ (-1) [] [] .failed
          rw [List.append_nil, append_nil] at h
          exact h
      | fault => exact hC s (.refl _ _)
      | hang => exact hC s (.refl _ _)
  | cons p ps ih =>
      -- the rest of the pieces, after `k` bytes of this one
      have hrest : ∀ (k : Nat) (ctx' : Bytes),
          (∀ r stored absorbed, Emitted ps fin r stored absorbed →
            Q (r, (), ctx' ++ absorbed) (s.append n (p.data.take k ++ stored))) →
          wp fsMachine Q C (emit (fileSinkFn n) ps fin () ctx') (s.append n (p.data.take k)) := by
        intro k ctx' h
        have hsame : SameExcept (OnlyFile n) s (s.append n (p.data.take k)) :=
          sameExcept_append s _ rfl
        refine ih (fun t ht => hC t (hsame.trans ht)) fun r stored absorbed he => ?_
        rw [append_append]
        exact h r stored absorbed he
      -- the case in which the whole piece is accepted
      have hfull : wp fsMachine Q C (emit (fileSinkFn n) ps fin () (ctx ++ p.data))
          (s.append n (p.data.take p.data.length)) := by
        refine hrest _ _ fun r stored absorbed he => ?_
        rw [List.take_length, List.append_assoc]
        exact hQ r _ _ (.full p he)
      cases p with
      | normal d =>
          simp only [emit]
          rw [wp_bind]
          refine wp_fileSinkFn hC fun k hk => ?_
          by_cases hlt : k < d.length
          · simp only [Int.ofNat_lt.2 hlt, if_true]
            exact hrest k ctx fun r stored absorbed he => hQ r _ _ (.tornNormal hlt he)
          · have hkd : k = d.length := by omega
            simp only [hkd, lt_irrefl, if_false]
            exact hfull
      | raw d =>
          simp only [emit]
          rw [wp_bind]
          refine wp_fileSinkFn hC fun k hk => ?_
          by_cases hlt : k < d.length
          · have hne : (k : Int) ≠ d.length := by omega
            simp only [hne, ne_eq, not_false_eq_true, if_true]
            exact hQ (-1) _ _ (.tornRaw hlt)
          · have hkd : k = d.length := by omega
            simp only [hkd, ne_eq, not_true_eq_false, if_false]
            exact hfull
      | block d =>
          simp only [emit]
          rw [wp_bind]
          refine wp_fileSinkFn hC fun k hk => ?_
          by_cases hlt : k < d.length
          · have hne : (k : Int) ≠ d.length := by omega
            simp only [hne, ne_eq, not_false_eq_true, if_true]
            have h := hQ (-1) _ _ (.tornBlock hlt)
            rw [List.append_nil] at h
            exact h
          · have hkd : k = d.length := by omega
            simp only [hkd, ne_eq, not_true_eq_false, if_false]
            exact hfull

/-- Every way in the list happens for some behaviour of `write`. -/
theorem can_emit_file {n : Name} {ps : List Piece} {fin : PatchEnd} {r : Int}
    {stored absorbed : Bytes} (h : Emitted ps fin r stored absorbed) (ctx : Bytes) (s : Fs) :
    Can fsMachine (fun x t => x = (r, (), ctx ++ absorbed) ∧ t = s.append n stored)
      (emit (fileSinkFn n) ps fin () ctx) s := by
  induction h generalizing ctx s with
  | done => exact can_ret ⟨by rw [List.append_nil], by rw [append_nil]⟩
  | failed => exact can_ret ⟨by rw [List.append_nil], by rw [append_nil]⟩
  | @full ps fin r stored absorbed p _ ih =>
      have hcont := ih (ctx ++ p.data) (s.append n p.data)
      rw [List.append_assoc, append_append] at hcont
      have hcall := can_fileSinkFn (n := n) (s := s) (Nat.le_refl p.data.length)
      rw [List.take_length] at hcall
      cases p with
      | normal d =>
          refine can_bind (can_mono ?_ hcall)
          rintro x t ⟨rfl, rfl⟩
          simp only [Piece.data, lt_irrefl, if_false]
          exact hcont
      | raw d =>
          refine can_bind (can_mono ?_ hcall)
          rintro x t ⟨rfl, rfl⟩
          simp only [Piece.data, ne_eq, not_true_eq_false, if_false]
          exact hcont
      | block d =>
          refine can_bind (can_mono ?_ hcall)
          rintro x t ⟨rfl, rfl⟩
          simp only [Piece.data, ne_eq, not_true_eq_false, if_false]
          exact hcont
  | @tornNormal ps fin r stored absorbed d k hk _ ih =>
      refine can_bind (can_mono ?_ (can_fileSinkFn (Nat.le_of_lt hk)))
      rintro x t ⟨rfl, rfl⟩
      have hcont := ih ctx (s.append n (d.take k))
      rw [append_append] at hcont
      simp only [Int.ofNat_lt.2 hk, if_true]
      exact hcont
  | @tornRaw ps fin d k hk =>
      refine can_bind (can_mono ?_ (can_fileSinkFn (Nat.le_of_lt hk)))
      rintro x t ⟨rfl, rfl⟩
      have hne : (k : Int) ≠ d.length := by omega
      simp only [hne, ne_eq, not_false_eq_true, if_true]
      exact can_ret ⟨rfl, rfl⟩
  | @tornBlock ps fin d k hk =>
      refine can_bind (can_mono ?_ (can_fileSinkFn (Nat.le_of_lt hk)))
      rintro x t ⟨rfl, rfl⟩
      have hne : (k : Int) ≠ d.length := by omega
      simp only [hne, ne_eq, not_false_eq_true, if_true, List.append_nil]
      exact can_ret ⟨rfl, rfl⟩

/-- A way with status zero absorbs at most the bytes of the pieces, and all of them only when every
piece was stored. -/
theorem Emitted.absorbed_le {ps : List Piece} {fin : PatchEnd} {r : Int} {stored absorbed : Bytes}
    (h : Emitted ps fin r stored absorbed) (hr : r = 0) :
    absorbed.length < (allBytes ps).length ∨ (stored = absorbed ∧ absorbed = allBytes ps) := by
  induction h with
  | done => exact .inr ⟨rfl, rfl⟩
  | failed => cases hr
  | full p _ ih =>
      simp only [allBytes, List.flatMap_cons, List.length_append]
      rcases ih hr with hlt | ⟨rfl, rfl⟩
      · exact .inl (by simp only [allBytes] at hlt; omega)
      · exact .inr ⟨rfl, rfl⟩
  | tornNormal hk _ ih =>
      left
      simp only [allBytes, List.flatMap_cons, List.length_append, Piece.data]
      rcases ih hr with hlt | ⟨-, rfl⟩
      · simp only [allBytes] at hlt
        omega
      · simp only [allBytes]
        omega
  | tornRaw _ => cases hr
  | tornBlock _ => cases hr

/-! ## A whole patch -/

/-- The ways in which a patch of either format can go through `FileSink`. -/
inductive Outcome (L : Libs) (src : FileContents) (patch : Value) : Int → Bytes → Bytes → Prop
  | bsdiffFull {d : Bytes} :
      hasMagic patch (cstr "BSDIFF40") = some true →
      applyBSDiffPatchMem L (src.data.getD []) 0 src.size patch 0 = .ok d →
      Outcome L src patch 0 d d
  | bsdiffTorn {d : Bytes} {k : Nat} :
      hasMagic patch (cstr "BSDIFF40") = some true →
      applyBSDiffPatchMem L (src.data.getD []) 0 src.size patch 0 = .ok d → k < d.length →
      Outcome L src patch 1 (d.take k) []
  | bsdiffFailed :
      hasMagic patch (cstr "BSDIFF40") = some true →
      applyBSDiffPatchMem L (src.data.getD []) 0 src.size patch 0 = .failed →
      Outcome L src patch (-1) [] []
  | image {r : Int} {stored absorbed : Bytes} :
      hasMagic patch (cstr "BSDIFF40") = some false →
      hasMagic patch (cstr "IMGDIFF2") = some true →
      Emitted (imagePieces L (src.data.getD []) patch).1 (imagePieces L (src.data.getD []) patch).2
        r stored absorbed →
      Outcome L src patch r stored absorbed

theorem wp_applyBlob_file (L : Libs) {n : Name} {src : FileContents} {patch : Value}
    {Q : Option (Int × Unit × Bytes) → Fs → Prop} {C : Fs → Prop} {s : Fs}
    (hC : ∀ t, SameExcept (OnlyFile n) s t → C t) (hnone : Q none s)
    (hsome : ∀ r stored absorbed, Outcome L src patch r stored absorbed →
      Q (some (r, (), absorbed)) (s.append n stored)) :
    wp fsMachine Q C (applyBlob (fileSinkFn n) L src patch ()) s := by
  have hhalt : C s := hC s (.refl _ _)
  unfold applyBlob
  split
  · -- the bsdiff format: one piece, whose status is the result
    rename_i hb
    rw [wp_bind]
    unfold applyBSDiffPatch
    cases hmem : applyBSDiffPatchMem L (src.data.getD []) 0 src.size patch 0 with
    | failed =>
        have h := hsome (-1) [] [] (.bsdiffFailed hb hmem)
        rw [append_nil] at h
        exact h
    | fault => exact hhalt
    | hang => exact hhalt
    | ok d =>
        simp only
        rw [wp_bind]
        refine wp_fileSinkFn hC ?_
        intro k hk
        by_cases hlt : k < d.length
        · simp only [Int.ofNat_lt.2 hlt, if_true]
          exact hsome 1 _ _ (.bsdiffTorn hb hmem hlt)
        · have hkd : k = d.length := by omega
          simp only [hkd, lt_irrefl, if_false, List.take_length]
          exact hsome 0 _ _ (.bsdiffFull hb hmem)
  · rename_i hb hi
    rw [wp_bind, applyImagePatch_eq_emit]
    refine wp_emit_file hC ?_
    intro r stored absorbed he
    exact hsome r stored absorbed (.image hb hi he)
  · exact hnone
  · exact hhalt

theorem can_applyBlob_file (L : Libs) {n : Name} {src : FileContents} {patch : Value} {r : Int}
    {stored absorbed : Bytes} (h : Outcome L src patch r stored absorbed) (s : Fs) :
    Can fsMachine (fun x t => x = some (r, (), absorbed) ∧ t = s.append n stored)
      (applyBlob (fileSinkFn n) L src patch ()) s := by
  unfold applyBlob
  cases h with
  | bsdiffFull hb hmem =>
      simp only [hb, applyBSDiffPatch, hmem]
      refine can_bind (can_bind (can_mono ?_ (can_fileSinkFn (Nat.le_refl stored.length))))
      rintro x t ⟨rfl, rfl⟩
      simp only [lt_irrefl, if_false, List.take_length]
      exact can_ret (can_ret ⟨rfl, rfl⟩)
  | @bsdiffTorn d k hb hmem hk =>
      simp only [hb, applyBSDiffPatch, hmem]
      refine can_bind (can_bind (can_mono ?_ (can_fileSinkFn (Nat.le_of_lt hk))))
      rintro x t ⟨rfl, rfl⟩
      simp only [Int.ofNat_lt.2 hk, if_true]
      exact can_ret (can_ret ⟨rfl, rfl⟩)
  | bsdiffFailed hb hmem =>
      simp only [hb, applyBSDiffPatch, hmem]
      exact can_bind (can_ret (can_ret ⟨rfl, (append_nil s n).symm⟩))
  | image hb hi he =>
      simp only [hb, hi]
      rw [applyImagePatch_eq_emit]
      refine can_bind (can_mono ?_ (can_emit_file he [] s))
      rintro x t ⟨rfl, rfl⟩
      exact can_ret ⟨rfl, rfl⟩

/-- A pass that writes to a file touches only that file, and leaves an outcome of the patch
there. -/
theorem wp_runPatch_file (L : Libs) {a : PatchArgs} (ht : isEmmc a.target = false)
    {src : FileContents} {patch : Value} {Q : Except Int (Int × Bytes × Bytes) → Fs → Prop}
    {C : Fs → Prop} {s : Fs} (hC : ∀ t, SameExcept (OnlyFile a.outname) s t → C t)
    (herr : ∀ t, SameExcept (OnlyFile a.outname) s t → Q (.error 1) t)
    (hok : ∀ t r f ctx, SameExcept (OnlyFile a.outname) s t → patch.type = .blob →
      t.files a.outname = some f → Outcome L src patch r f.data ctx → Q (.ok (r, ctx, [])) t) :
    wp fsMachine Q C (runPatch L a src patch) s := by
  unfold runPatch
  split
  · exact herr s (.refl _ _)
  · rename_i hblob
    rw [not_not] at hblob
    simp only [ht, Bool.false_eq_true, if_false]
    rw [wp_bind, wp_sysOpenTrunc]
    refine ⟨hC s (.refl _ _), fun v => hC _ (sameExcept_set s v rfl), herr s (.refl _ _), ?_⟩
    set s₁ := s.set a.outname (some ⟨[], (s.files a.outname).elim newStat Node.st⟩) with hs₁
    have hsame₁ : SameExcept (OnlyFile a.outname) s s₁ := sameExcept_set s _ rfl
    simp only [Bool.not_true, Bool.false_eq_true, if_false]
    rw [wp_bind]
    refine wp_applyBlob_file L (fun t h => hC t (hsame₁.trans h)) (herr s₁ hsame₁) ?_
    intro r stored absorbed ho
    have hfile : (s₁.append a.outname stored).files a.outname =
        some ⟨stored, (s.files a.outname).elim newStat Node.st⟩ := by
      rw [hs₁, append_set, set_files_self]
      rfl
    exact hok _ r _ absorbed (hsame₁.trans (sameExcept_append s₁ stored rfl)) hblob hfile ho

theorem outname_ne_target (a : PatchArgs) : a.outname ≠ a.target := by
  intro h
  have hlen := congrArg List.length h
  rw [PatchArgs.outname, List.length_append] at hlen
  have hpos : 0 < (cstr ".patch").length := by decide
  omega

/-- The target and the output file of a call. -/
def Replaced (a : PatchArgs) (n : Name) : Prop := n = a.outname ∨ n = a.target

/-- The end of a call on files: the output file is left alone, or it replaces the target, and then
the saved copy goes if this call made it. -/
theorem wp_finishPatch_file (L : Libs) {a : PatchArgs} (ht : isEmmc a.target = false)
    {sha : Bytes} {src : FileContents} {ctx buffer : Bytes}
    {madeCopy : Bool} {Q : Int → Fs → Prop} {C : Fs → Prop} {s : Fs} {f : Node}
    (hf : s.files a.outname = some f)
    (hbefore : ∀ t, SameExcept (OnlyFile a.outname) s t → C t ∧ Q 1 t)
    (hafter : ∀ t, SameExcept (Replaced a) s t → t.files a.outname = none →
      t.Holds a.target f.data → L.sha1 ctx = sha →
      C t ∧ Q 0 (if madeCopy then t.set cacheTempSource none else t)) :
    wp fsMachine Q C (finishPatch L a sha src ctx buffer madeCopy) s := by
  have hs := hbefore s (.refl _ _)
  have hne := outname_ne_target a
  unfold finishPatch
  split
  · exact hs.2
  · rename_i hsha
    rw [not_not] at hsha
    simp only [ht, Bool.false_eq_true, if_false]
    rw [wp_bind, wp_sysChmod]
    refine ⟨hs.1, hs.2, ?_⟩
    intro _
    set s₁ := s.modify a.outname fun f => { f with st := { f.st with mode := src.st.mode } } with hs₁
    have hsame₁ : SameExcept (OnlyFile a.outname) s s₁ := sameExcept_modify s _ rfl
    simp only [Bool.not_true, Bool.false_eq_true, if_false]
    rw [wp_bind, wp_sysChown]
    refine ⟨(hbefore s₁ hsame₁).1, (hbefore s₁ hsame₁).2, ?_⟩
    intro _
    set s₂ := s₁.modify a.outname fun f =>
      { f with st := { f.st with uid := src.st.uid, gid := src.st.gid } } with hs₂
    have hsame₂ : SameExcept (OnlyFile a.outname) s s₂ := hsame₁.trans (sameExcept_modify s₁ _ rfl)
    have hdata₂ : s₂.Holds a.outname f.data := by
      refine ⟨⟨f.data, src.st⟩, ?_, rfl⟩
      rw [hs₂, modify_files_self, hs₁, modify_files_self, hf]
      rfl
    simp only [Bool.not_true, Bool.false_eq_true, if_false]
    rw [wp_bind, wp_sysRename]
    refine ⟨(hbefore s₂ hsame₂).1, (hbefore s₂ hsame₂).2, ?_⟩
    intro _
    simp only [hne, if_false, Bool.not_true, Bool.false_eq_true]
    set s₃ := (s₂.set a.target (s₂.files a.outname)).set a.outname none with hs₃
    have hsame₃ : SameExcept (Replaced a) s s₃ :=
      (hsame₂.mono fun _ h => .inl h).trans
        ((sameExcept_set s₂ _ (.inr rfl)).trans (sameExcept_set _ none (.inl rfl)))
    have hdata₃ : s₃.Holds a.target f.data := by
      obtain ⟨g, hg, hgd⟩ := hdata₂
      refine ⟨g, ?_, hgd⟩
      rw [hs₃, set_files_of_ne _ _ _ hne.symm, set_files_self, hg]
    have h₃ := hafter s₃ hsame₃ (set_files_self ..) hdata₃ hsha
    cases madeCopy with
    | false => exact h₃.2
    | true =>
        simp only [if_true] at h₃ ⊢
        rw [wp_bind, wp_sysUnlink]
        exact h₃

/-! ## The loop -/

/-- After a stage: an error return is nonzero and `E` holds, or the result meets `P`. -/
def Stage {α : Type} (E : Fs → Prop) (P : α → Fs → Prop) : Except Int α → Fs → Prop
  | .error code, t => code ≠ 0 ∧ E t
  | .ok x, t => P x t

/-- Rule for the retry loop: `I` holds before every pass and `P` after it. -/
theorem wp_attemptLoop {L : Libs} {a : PatchArgs} {sel : Selection} {C E : Fs → Prop}
    {I : Bool → Fs → Prop} {P : Pass → Fs → Prop}
    (hpass : ∀ retry madeCopy s, I madeCopy s →
      wp fsMachine (Stage E P) C (attempt L a sel retry madeCopy) s)
    (hstop : ∀ p t, P p t → E t)
    (hagain : ∀ p t, P p t → p.retry ≠ 0 →
      C t ∧ I p.madeCopy (if isEmmc a.target then t else t.set a.outname none))
    (retry : Nat) (madeCopy : Bool) {s : Fs} (hs : I madeCopy s) :
    wp fsMachine (Stage E fun p t => P p t ∧ p.result = 0) C
      (attemptLoop L a sel retry madeCopy) s := by
  have herr : ∀ p t, P p t → Stage E (fun p t => P p t ∧ p.result = 0) (.error 1) t :=
    fun p t hp => ⟨by decide, hstop p t hp⟩
  induction retry generalizing s madeCopy with
  | zero =>
      rw [attemptLoop]
      refine wp_seq (hpass 0 madeCopy s hs) ?_
      intro res t hres
      cases res with
      | error code => exact hres
      | ok p =>
          by_cases hr : p.result = 0
          · simp only [hr, if_true]
            exact ⟨hres, hr⟩
          · simp only [hr, if_false]
            exact herr p t hres
  | succ retry ih =>
      rw [attemptLoop]
      refine wp_seq (hpass (retry + 1) madeCopy s hs) ?_
      intro res t hres
      cases res with
      | error code => exact hres
      | ok p =>
          by_cases hr : p.result = 0
          · simp only [hr, if_true]
            exact ⟨hres, hr⟩
          · simp only [hr, if_false]
            split
            · exact herr p t hres
            · rename_i hretry
              obtain ⟨hCt, hIt⟩ := hagain p t hres hretry
              cases he : isEmmc a.target with
              | true =>
                  simp only [he, if_true] at hIt
                  simp only [Bool.not_true, Bool.false_eq_true, if_false]
                  exact ih _ hIt
              | false =>
                  simp only [he, Bool.false_eq_true, if_false] at hIt
                  simp only [Bool.not_false, if_true]
                  rw [wp_bind, wp_sysUnlink]
                  exact ⟨hCt, ih _ hIt⟩

/-! ## Patches that are right -/

/-- A sink that accepts everything and keeps it. -/
def collectSink : Sink Bytes := fun acc data => return (data.length, acc ++ data)

/-- Contents `x` as a loaded file. -/
def plainContents (x : Bytes) : FileContents := ⟨[], some x, x.length, newStat⟩

/-- The patch turns `x` into `y` when every write is accepted. -/
def Turns (L : Libs) (patch : Value) (x y : Bytes) : Prop :=
  applyBlob collectSink L (plainContents x) patch [] = .ret (some (0, y, y))

theorem emit_collect_append (ps qs : List Piece) (fin : PatchEnd) (acc ctx : Bytes) :
    emit collectSink (ps ++ qs) fin acc ctx =
      emit collectSink qs fin (acc ++ allBytes ps) (ctx ++ allBytes ps) := by
  induction ps generalizing acc ctx with
  | nil => simp only [List.nil_append, allBytes, List.flatMap_nil, List.append_nil]
  | cons p ps ih =>
      have hstep : emit collectSink (p :: (ps ++ qs)) fin acc ctx =
          emit collectSink (ps ++ qs) fin (acc ++ p.data) (ctx ++ p.data) := by
        cases p with
        | normal d => simp [emit, collectSink, Piece.data]
        | raw d => simp [emit, collectSink, Piece.data]
        | block d => simp [emit, collectSink, Piece.data]
      rw [List.cons_append, hstep, ih]
      simp only [allBytes, List.flatMap_cons, List.append_assoc]

theorem emit_collect (ps : List Piece) (fin : PatchEnd) :
    emit collectSink ps fin [] [] = emit collectSink [] fin (allBytes ps) (allBytes ps) := by
  have h := emit_collect_append ps [] fin [] []
  rw [List.append_nil] at h
  exact h

/-- What a right patch is: a bsdiff patch that decodes to `y`, or an image patch whose pieces make
up `y`. -/
theorem Turns.cases {L : Libs} {patch : Value} {x y : Bytes} (ht : Turns L patch x y) :
    (hasMagic patch (cstr "BSDIFF40") = some true ∧
      applyBSDiffPatchMem L x 0 x.length patch 0 = .ok y) ∨
    (hasMagic patch (cstr "BSDIFF40") = some false ∧ hasMagic patch (cstr "IMGDIFF2") = some true ∧
      (imagePieces L x patch).2 = .done ∧ allBytes (imagePieces L x patch).1 = y) := by
  unfold Turns applyBlob at ht
  simp only [plainContents, Option.getD_some] at ht
  split at ht
  · rename_i hb
    simp only [applyBSDiffPatch] at ht
    cases hmem : applyBSDiffPatchMem L x 0 x.length patch 0 with
    | failed => simp [hmem] at ht
    | fault => simp [hmem] at ht
    | hang => simp [hmem] at ht
    | ok d =>
        refine .inl ⟨hb, ?_⟩
        simp only [hmem, collectSink, Prog.pure_eq_ret, Prog.ret_bind, lt_irrefl, if_false,
          List.nil_append, Prog.ret.injEq, Option.some.injEq, Prod.mk.injEq, true_and,
          and_self] at ht
        rw [ht]
  · rename_i hb hi
    rw [applyImagePatch_eq_emit, emit_collect] at ht
    cases hfin : (imagePieces L x patch).2 with
    | done =>
        refine .inr ⟨hb, hi, rfl, ?_⟩
        rw [hfin] at ht
        simp only [emit, Prog.pure_eq_ret, Prog.ret_bind, Prog.ret.injEq, Option.some.injEq,
          Prod.mk.injEq, true_and] at ht
        exact ht.1
    | failed => simp [hfin, emit] at ht
    | fault => simp [hfin, emit] at ht
    | hang => simp [hfin, emit] at ht
  · cases ht
  · cases ht

/-- Of the file to patch only the contents count. -/
theorem Outcome.of_plain {L : Libs} {src : FileContents} {patch : Value} {r : Int}
    {stored absorbed x : Bytes} (h : Outcome L src patch r stored absorbed)
    (hdata : src.data = some x) (hsize : src.size = x.length) :
    Outcome L (plainContents x) patch r stored absorbed := by
  obtain ⟨sha, data, size, st⟩ := src
  cases hdata
  cases hsize
  cases h with
  | bsdiffFull hb hmem => exact .bsdiffFull hb hmem
  | bsdiffTorn hb hmem hk => exact .bsdiffTorn hb hmem hk
  | bsdiffFailed hb hmem => exact .bsdiffFailed hb hmem
  | image hb hi he => exact .image hb hi he

/-- For a right patch, when the digest has absorbed the target data the file holds it. -/
theorem Turns.stored_eq {L : Libs} {patch : Value} {x y : Bytes} (ht : Turns L patch x y) {r : Int}
    {stored absorbed : Bytes} (h : Outcome L (plainContents x) patch r stored absorbed) (hr : r = 0)
    (ha : absorbed = y) : stored = y := by
  cases h with
  | bsdiffFull hb hmem => exact ha
  | bsdiffTorn hb hmem hk => cases hr
  | bsdiffFailed hb hmem => cases hr
  | image hb hi he =>
      simp only [plainContents, Option.getD_some] at he
      rcases ht.cases with ⟨hb', -⟩ | ⟨-, -, -, hy⟩
      · rw [hb] at hb'
        cases hb'
      · rcases he.absorbed_le hr with hlt | ⟨hst, hall⟩
        · rw [hy, ha] at hlt
          exact absurd hlt (lt_irrefl _)
        · rw [hst, hall, hy]

/-! ## Patches into memory -/

theorem memorySink_cases (msi : MemorySinkInfo) (d : Bytes) :
    memorySink msi d = .ret (-1, msi) ∧ 0 < d.length ∨
      memorySink msi d = .ret ((d.length : Int), { msi with buffer := msi.buffer ++ d }) := by
  by_cases h : msi.size - msi.buffer.length < d.length
  · exact .inl ⟨by simp [memorySink, h], by omega⟩
  · exact .inr (by simp [memorySink, h])

/-- The result of a patch into memory when the buffer and the digest agree at the start. -/
theorem wp_emit_memory {ps : List Piece} {fin : PatchEnd} {msi : MemorySinkInfo}
    {Q : Int × MemorySinkInfo × Bytes → Fs → Prop} {C : Fs → Prop} {s : Fs} (hC : C s)
    (hok : ∀ msi' : MemorySinkInfo, Q (0, msi', msi'.buffer) s)
    (hbad : ∀ msi' ctx, Q (-1, msi', ctx) s) :
    wp fsMachine Q C (emit memorySink ps fin msi msi.buffer) s := by
  induction ps generalizing msi with
  | nil =>
      cases fin with
      | done => exact hok msi
      | failed => exact hbad _ _
      | fault => exact hC
      | hang => exact hC
  | cons p ps ih =>
      have hnext : wp fsMachine Q C (emit memorySink ps fin
          { msi with buffer := msi.buffer ++ p.data } (msi.buffer ++ p.data)) s :=
        @ih { msi with buffer := msi.buffer ++ p.data }
      cases p with
      | normal d =>
          rcases memorySink_cases msi d with ⟨he, hpos⟩ | he
          · have hlt : (-1 : Int) < d.length := by omega
            simp only [emit, he, Prog.ret_bind, hlt, if_true]
            exact ih
          · simp only [emit, he, Prog.ret_bind, lt_irrefl, if_false]
            exact hnext
      | raw d =>
          rcases memorySink_cases msi d with ⟨he, hpos⟩ | he
          · have hne : (-1 : Int) ≠ d.length := by omega
            simp only [emit, he, Prog.ret_bind, hne, ne_eq, not_false_eq_true, if_true]
            exact hbad _ _
          · simp only [emit, he, Prog.ret_bind, ne_eq, not_true_eq_false, if_false]
            exact hnext
      | block d =>
          rcases memorySink_cases msi d with ⟨he, hpos⟩ | he
          · have hne : (-1 : Int) ≠ d.length := by omega
            simp only [emit, he, Prog.ret_bind, hne, ne_eq, not_false_eq_true, if_true]
            exact hbad _ _
          · simp only [emit, he, Prog.ret_bind, ne_eq, not_true_eq_false, if_false]
            exact hnext

/-- A patch into memory that returns zero has stored exactly what the digest absorbed. -/
theorem wp_applyBlob_memory (L : Libs) {src : FileContents} {patch : Value} {size : Nat}
    {Q : Option (Int × MemorySinkInfo × Bytes) → Fs → Prop} {C : Fs → Prop} {s : Fs} (hC : C s)
    (hnone : Q none s) (hok : ∀ msi : MemorySinkInfo, Q (some (0, msi, msi.buffer)) s)
    (hbad : ∀ r msi ctx, r ≠ 0 → Q (some (r, msi, ctx)) s) :
    wp fsMachine Q C (applyBlob memorySink L src patch ⟨[], size⟩) s := by
  unfold applyBlob
  split
  · rw [wp_bind]
    unfold applyBSDiffPatch
    cases applyBSDiffPatchMem L (src.data.getD []) 0 src.size patch 0 with
    | failed => exact hbad _ _ _ (by decide)
    | fault => exact hC
    | hang => exact hC
    | ok d =>
        rcases memorySink_cases ⟨[], size⟩ d with ⟨he, hpos⟩ | he
        · have hlt : (-1 : Int) < d.length := by omega
          simp only [he, Prog.ret_bind, hlt, if_true]
          exact hbad _ _ _ (by decide)
        · simp only [he, Prog.ret_bind, lt_irrefl, if_false]
          exact hok ⟨[] ++ d, size⟩
  · rw [wp_bind, applyImagePatch_eq_emit]
    have hstart : wp fsMachine (fun r t => wp fsMachine Q C (pure (some r)) t) C
        (emit memorySink (imagePieces L (src.data.getD []) patch).1
          (imagePieces L (src.data.getD []) patch).2 ⟨[], size⟩
          (MemorySinkInfo.buffer ⟨[], size⟩)) s :=
      wp_emit_memory hC (fun msi' => hok msi') fun msi' ctx => hbad (-1) msi' ctx (by decide)
    exact hstart
  · exact hnone
  · exact hC

/-- `MemorySink` with enough room. -/
theorem memorySink_fits (msi : MemorySinkInfo) (d : Bytes)
    (h : msi.buffer.length + d.length ≤ msi.size) :
    memorySink msi d = .ret ((d.length : Int), ⟨msi.buffer ++ d, msi.size⟩) := by
  have hlt : ¬ (msi.size - msi.buffer.length < d.length) := by omega
  simp only [memorySink, hlt, if_false]
  rfl

theorem emit_memory (ps : List Piece) (fin : PatchEnd) (msi : MemorySinkInfo) (ctx : Bytes)
    (h : msi.buffer.length + (allBytes ps).length ≤ msi.size) :
    emit memorySink ps fin msi ctx =
      emit memorySink [] fin ⟨msi.buffer ++ allBytes ps, msi.size⟩ (ctx ++ allBytes ps) := by
  induction ps generalizing msi ctx with
  | nil => simp only [allBytes, List.flatMap_nil, List.append_nil]
  | cons p ps ih =>
      simp only [allBytes, List.flatMap_cons, List.length_append] at h
      have hstore := memorySink_fits msi p.data (by omega)
      have hstep : emit memorySink (p :: ps) fin msi ctx =
          emit memorySink ps fin ⟨msi.buffer ++ p.data, msi.size⟩ (ctx ++ p.data) := by
        cases p with
        | normal d =>
            simp only [Piece.data] at hstore
            simp only [emit, hstore, Prog.ret_bind, lt_irrefl, if_false, Piece.data]
        | raw d =>
            simp only [Piece.data] at hstore
            simp only [emit, hstore, Prog.ret_bind, ne_eq, not_true_eq_false, if_false, Piece.data]
        | block d =>
            simp only [Piece.data] at hstore
            simp only [emit, hstore, Prog.ret_bind, ne_eq, not_true_eq_false, if_false, Piece.data]
      rw [hstep, ih]
      · simp only [allBytes, List.flatMap_cons, List.append_assoc]
      · simp only [List.length_append, allBytes]
        omega

/-- A buffer that is large enough receives the whole target. -/
theorem Turns.applyBlob_memory {L : Libs} {patch : Value} {x y : Bytes} (ht : Turns L patch x y)
    {src : FileContents} (hdata : src.data = some x) (hsize : src.size = x.length) {size : Nat}
    (hroom : y.length ≤ size) :
    applyBlob memorySink L src patch ⟨[], size⟩ = .ret (some (0, ⟨y, size⟩, y)) := by
  unfold applyBlob
  rcases ht.cases with ⟨hb, hmem⟩ | ⟨hb, hi, hfin, hy⟩
  · have hstore := memorySink_fits ⟨[], size⟩ y (by simpa using hroom)
    simp only [hb, applyBSDiffPatch, hdata, hsize, Option.getD_some, hmem, hstore, Prog.ret_bind,
      lt_irrefl, if_false, List.nil_append]
    rfl
  · simp only [hb, hi, hdata, Option.getD_some]
    rw [applyImagePatch_eq_emit, hfin, emit_memory _ _ _ _ (by rw [hy]; simpa using hroom), hy]
    rfl

end OpenRecovery.ApplyPatch
