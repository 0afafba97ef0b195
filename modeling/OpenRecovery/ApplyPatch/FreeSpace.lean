import OpenRecovery.ApplyPatch.ApplyPatch
import OpenRecovery.Crash.Trace
import OpenRecovery.Retouch.OneLibrary

/-!
# The tests for free space

What `applypatch`, `retouch_one_library`, `MakeFreeSpaceOnCache` and `CacheSizeCheck` take for
enough space, against the space there is. The comparisons are made in `size_t`, where the product of
block size and free blocks and three times a size can wrap, and where the error return of
`FreeSpaceForFile` is the largest number. A file system tells the truth whenever `statfs` answers
(`Space.Truthful`); what is left are the calls that fail (`Space.FailsBelow`) and the sizes whose
product wraps (`WrapsLow`, `SignedWrapsLow`).
-/

set_option autoImplicit false

namespace OpenRecovery.ApplyPatch

open OpenRecovery.Crash OpenRecovery.Edify OpenRecovery.Retouch OpenRecovery.Storage

/-! ## The space there is -/

/-- The bytes free on a file system, after the operations of a run. Asking for them changes nothing.
-/
structure Space where
  free : Trace Op Op.Res → Nat
  statfs (t : Trace Op Op.Res) (path : Name) (r : Option (Nat × Nat)) :
    free (t ++ [⟨.statfs path, r⟩]) = free t

namespace Space

/-- The space from some point of the run on. -/
def after (S : Space) (t₀ : Trace Op Op.Res) : Space where
  free t := S.free (t₀ ++ t)
  statfs t path r := by rw [← List.append_assoc, S.statfs]

/-- `statfs` tells the free space when it does not fail. -/
def Truthful (S : Space) (t : Trace Op Op.Res) : Prop :=
  ∀ t₁ t₂ path bsize bfree, t = t₁ ++ ⟨.statfs path, some (bsize, bfree)⟩ :: t₂ →
    bsize * bfree = S.free t₁

/-- A call of `statfs` fails while less than `n` bytes are free. -/
def FailsBelow (S : Space) (n : Nat) (t : Trace Op Op.Res) : Prop :=
  ∃ t₁ t₂ path, t = t₁ ++ ⟨.statfs path, none⟩ :: t₂ ∧ S.free t₁ < n

/-- A call of `statfs` is answered while the free space is in `P`. -/
def AnswersIn (S : Space) (P : Nat → Prop) (t : Trace Op Op.Res) : Prop :=
  ∃ t₁ t₂ path r, t = t₁ ++ ⟨.statfs path, some r⟩ :: t₂ ∧ P (S.free t₁)

end Space

/-- The product `size * 3` wraps as a `size_t`, and the free space lies above the limit that is left
of it and not above the one that is meant. -/
def WrapsLow (w size free : Nat) : Prop :=
  2 ^ w ≤ size * 3 ∧ max (256 * 1024) (size * 3 % 2 ^ w / 2) < free % 2 ^ w ∧ free ≤ size * 3 / 2

/-- The same for an `ssize_t`, where a product from `2 ^ w - 1` on leaves a small limit. -/
def SignedWrapsLow (w size free : Nat) : Prop :=
  2 ^ w ≤ size * 3 + 1 ∧ (size * 3 - 2 ^ w) / 2 < free ∧ free ≤ size * 3 / 2

/-! ## The tests -/

/-- `CacheSizeCheck`. -/
def cacheSizeCheck (L : Libs) (bytes : Nat) : FsProg Int := do
  let m ← makeFreeSpaceOnCache L bytes
  return if m < 0 then 1 else 0

/-- What `FreeSpaceForFile` makes of an answer. -/
def reported (L : Libs) : Option (Nat × Nat) → Nat
  | none => 2 ^ L.sizeBits - 1
  | some (bsize, bfree) => bsize * bfree % 2 ^ L.sizeBits

theorem freeSpaceForFile_eq (L : Libs) (path : Name) :
    freeSpaceForFile L path = sysStatfs path >>= fun r => pure (reported L r) := by
  unfold freeSpaceForFile
  congr 1
  funext r
  cases r with
  | none => rfl
  | some p => rfl

theorem yields_freeSpaceForFile {L : Libs} {path : Name} {t : Trace Op Op.Res} {out : Option Nat}
    (h : Yields (freeSpaceForFile L path) t out) :
    ∃ r : Option (Nat × Nat), t = [⟨.statfs path, r⟩] ∧ out = some (reported L r) := by
  rw [freeSpaceForFile_eq] at h
  obtain ⟨r, t', rfl, hret⟩ := yields_call_bind h
  obtain ⟨rfl, rfl⟩ := yields_ret hret
  exact ⟨r, rfl, rfl⟩

namespace Space

variable {S : Space} {n : Nat} {e : (o : Op) × o.Res} {t : Trace Op Op.Res}

theorem failsBelow_nil : ¬ S.FailsBelow n [] := by
  rintro ⟨t₁, t₂, path, h, -⟩
  cases t₁ <;> cases h

theorem answersIn_nil {P : Nat → Prop} : ¬ S.AnswersIn P [] := by
  rintro ⟨t₁, t₂, path, r, h, -⟩
  cases t₁ <;> cases h

theorem failsBelow_cons :
    S.FailsBelow n (e :: t) ↔
      (∃ path, e = ⟨.statfs path, none⟩ ∧ S.free [] < n) ∨ (S.after [e]).FailsBelow n t := by
  constructor
  · rintro ⟨t₁, t₂, path, h, hfree⟩
    cases t₁ with
    | nil =>
        cases h
        exact .inl ⟨path, rfl, hfree⟩
    | cons e' t₁ =>
        cases h
        exact .inr ⟨t₁, t₂, path, rfl, hfree⟩
  · rintro (⟨path, rfl, hfree⟩ | ⟨t₁, t₂, path, rfl, hfree⟩)
    · exact ⟨[], t, path, rfl, hfree⟩
    · exact ⟨e :: t₁, t₂, path, rfl, hfree⟩

theorem Truthful.append {t₁ t₂ : Trace Op Op.Res} (h : S.Truthful (t₁ ++ t₂)) :
    S.Truthful t₁ ∧ (S.after t₁).Truthful t₂ := by
  constructor
  · rintro u v path bsize bfree rfl
    exact h u (v ++ t₂) path bsize bfree (by simp)
  · rintro u v path bsize bfree rfl
    exact h (t₁ ++ u) v path bsize bfree (by simp)

/-- One call of `statfs`. -/
theorem failsBelow_single {path : Name} {r : Option (Nat × Nat)} :
    S.FailsBelow n [⟨.statfs path, r⟩] ↔ r = none ∧ S.free [] < n := by
  rw [failsBelow_cons]
  constructor
  · rintro (⟨_, h, hfree⟩ | h)
    · cases h
      exact ⟨rfl, hfree⟩
    · exact absurd h failsBelow_nil
  · rintro ⟨rfl, hfree⟩
    exact .inl ⟨path, rfl, hfree⟩

theorem answersIn_single {P : Nat → Prop} {path : Name} {r : Option (Nat × Nat)} :
    S.AnswersIn P [⟨.statfs path, r⟩] ↔ r ≠ none ∧ P (S.free []) := by
  constructor
  · rintro ⟨t₁, t₂, path', r', h, hP⟩
    cases t₁ with
    | nil =>
        cases h
        exact ⟨by simp, hP⟩
    | cons e' t₁ => cases t₁ <;> cases h
  · rintro ⟨hr, hP⟩
    obtain ⟨r', rfl⟩ := Option.ne_none_iff_exists'.mp hr
    exact ⟨[], [], path, r', rfl, hP⟩

theorem Truthful.single {path : Name} {bsize bfree : Nat}
    (h : S.Truthful [⟨.statfs path, some (bsize, bfree)⟩]) : bsize * bfree = S.free [] :=
  h [] [] path bsize bfree rfl

end Space

/-! ## The comparisons -/

section Comparisons

variable {L : Libs}

theorem enoughSpace_iff {size free : Nat} :
    enoughSpace L size free = true ↔
      max (256 * 1024) (size * 3 % 2 ^ L.sizeBits / 2) < free := by
  simp only [enoughSpace, Bool.and_eq_true, decide_eq_true_eq, gt_iff_lt, max_lt_iff]

/-- The error return of `FreeSpaceForFile` is enough for `applypatch`, whatever the size. -/
theorem enoughSpace_failed (size : Nat) : enoughSpace L size (reported L none) = true := by
  have hwide := pow_sizeBits_ge L
  have hmod := Nat.mod_lt (size * 3) (show 0 < 2 ^ L.sizeBits by omega)
  rw [enoughSpace_iff, reported]
  omega

/-- An answer is taken for enough by mistake exactly if the product wraps low. -/
theorem enoughSpace_answered {size bsize bfree : Nat} :
    (enoughSpace L size (reported L (some (bsize, bfree))) = true ∧
      ¬ max (256 * 1024) (size * 3 / 2) < bsize * bfree) ↔
      WrapsLow L.sizeBits size (bsize * bfree) := by
  rw [enoughSpace_iff, reported, WrapsLow]
  have hmod := Nat.mod_le (bsize * bfree) (2 ^ L.sizeBits)
  constructor
  · rintro ⟨henough, hlow⟩
    refine ⟨?_, henough, by omega⟩
    by_contra hwrap
    rw [Nat.mod_eq_of_lt (not_le.mp hwrap)] at henough
    omega
  · rintro ⟨-, henough, hlow⟩
    exact ⟨henough, by omega⟩

section SpaceLimit

variable {size : Nat}

theorem toSize_neg {v : Nat} (h0 : 0 < v) (hv : v < 2 ^ L.sizeBits) :
    toSize L (-v) = 2 ^ L.sizeBits - v := by
  rw [toSize, ← Int.add_emod_right]
  have hcast : ((2 : Int) ^ L.sizeBits) = ((2 ^ L.sizeBits : Nat) : Int) := by push_cast; rfl
  rw [hcast, Int.emod_eq_of_lt (by omega) (by omega)]
  omega

theorem spaceLimit_small (h : size * 3 * 2 < 2 ^ L.sizeBits) :
    spaceLimit L size = size * 3 / 2 := by
  have hprod : Int.bmod ((size : Int) * 3) (2 ^ L.sizeBits) = ((size * 3 : Nat) : Int) := by
    rw [Int.bmod_eq_of_le_mul_two (by omega) (by omega)]
    push_cast
    rfl
  rw [spaceLimit, hprod, Int.tdiv_eq_ediv_of_nonneg (by omega)]
  exact toSize_of_lt (v := size * 3 / 2) (by omega)

/-- The product is negative: the limit is small only for the product -1. -/
theorem spaceLimit_negative (hlow : 2 ^ L.sizeBits ≤ size * 3 * 2) (h : size * 3 < 2 ^ L.sizeBits) :
    spaceLimit L size =
      if size * 3 + 1 = 2 ^ L.sizeBits then 0
      else 2 ^ L.sizeBits - (2 ^ L.sizeBits - size * 3) / 2 := by
  have hprod : Int.bmod ((size : Int) * 3) (2 ^ L.sizeBits) =
      -((2 ^ L.sizeBits - size * 3 : Nat) : Int) := by
    rw [← Int.sub_bmod_right, Int.bmod_eq_of_le_mul_two (by omega) (by omega)]
    omega
  rw [spaceLimit, hprod, Int.neg_tdiv, Int.tdiv_eq_ediv_of_nonneg (by omega)]
  split
  · rename_i hone
    rw [show 2 ^ L.sizeBits - size * 3 = 1 by omega]
    exact toSize_of_lt (v := 0) (by omega)
  · exact toSize_neg (v := (2 ^ L.sizeBits - size * 3) / 2) (by omega) (by omega)

theorem spaceLimit_wrapped (hlow : 2 ^ L.sizeBits ≤ size * 3)
    (h : size * 2 < 2 ^ L.sizeBits) :
    spaceLimit L size = (size * 3 - 2 ^ L.sizeBits) / 2 := by
  have hprod : Int.bmod ((size : Int) * 3) (2 ^ L.sizeBits) =
      ((size * 3 - 2 ^ L.sizeBits : Nat) : Int) := by
    rw [← Int.sub_bmod_right, Int.bmod_eq_of_le_mul_two (by omega) (by omega)]
    omega
  rw [spaceLimit, hprod, Int.tdiv_eq_ediv_of_nonneg (by omega)]
  exact toSize_of_lt (v := (size * 3 - 2 ^ L.sizeBits) / 2) (by omega)

/-- The limit of `retouch_one_library` is not below what is meant, or the product has wrapped. -/
theorem spaceLimit_cases (hw : L.sizeBits = 32 ∨ L.sizeBits = 64)
    (hsize : size * 2 < 2 ^ L.sizeBits) :
    (size * 3 + 1 < 2 ^ L.sizeBits ∧ size * 3 / 2 ≤ spaceLimit L size ∧
      spaceLimit L size + 1 < 2 ^ L.sizeBits) ∨
    (2 ^ L.sizeBits ≤ size * 3 + 1 ∧ spaceLimit L size = (size * 3 - 2 ^ L.sizeBits) / 2) := by
  -- so no size has the product -2, whose limit is the largest number
  have hthree : 2 ^ L.sizeBits % 3 = 1 := by
    rcases hw with hw | hw <;> rw [hw] <;> decide
  have hwide := pow_sizeBits_ge L
  by_cases hsmall : size * 3 * 2 < 2 ^ L.sizeBits
  · rw [spaceLimit_small hsmall]
    exact .inl (by omega)
  · by_cases hneg : size * 3 < 2 ^ L.sizeBits
    · rw [spaceLimit_negative (not_lt.mp hsmall) hneg]
      split
      · exact .inr (by omega)
      · exact .inl (by omega)
    · rw [spaceLimit_wrapped (not_lt.mp hneg) hsize]
      exact .inr ⟨by omega, rfl⟩

/-- The error return is enough for `retouch_one_library`, whatever the size. -/
theorem librarySpace_failed (hw : L.sizeBits = 32 ∨ L.sizeBits = 64)
    (hsize : size * 2 < 2 ^ L.sizeBits) {file : FileContents} (hfile : file.size = size) :
    librarySpace L file (reported L none) = true := by
  rw [librarySpace, decide_eq_true_eq, hfile, reported]
  have hwide := pow_sizeBits_ge L
  rcases spaceLimit_cases hw hsize with ⟨-, -, hlimit⟩ | ⟨-, hlimit⟩
  · omega
  · rw [hlimit]
    omega

theorem librarySpace_answered (hw : L.sizeBits = 32 ∨ L.sizeBits = 64)
    (hsize : size * 2 < 2 ^ L.sizeBits) {file : FileContents} (hfile : file.size = size)
    {bsize bfree : Nat} :
    (librarySpace L file (reported L (some (bsize, bfree))) = true ∧
      ¬ size * 3 / 2 < bsize * bfree) ↔ SignedWrapsLow L.sizeBits size (bsize * bfree) := by
  rw [librarySpace, decide_eq_true_eq, hfile, reported, SignedWrapsLow, gt_iff_lt, not_lt]
  have hle := Nat.mod_le (bsize * bfree) (2 ^ L.sizeBits)
  -- without a wrap the limit is not below `size * 3 / 2`, and the test is right
  rcases spaceLimit_cases hw hsize with ⟨hexact, hlimit, -⟩ | ⟨hwrap, hlimit⟩
  · exact iff_of_false (by omega) (by omega)
  · rw [hlimit]
    constructor
    · rintro ⟨henough, hlow⟩
      exact ⟨hwrap, by omega, hlow⟩
    · rintro ⟨-, henough, hlow⟩
      rw [Nat.mod_eq_of_lt (by omega)]
      exact ⟨henough, hlow⟩

end SpaceLimit

end Comparisons

/-! ## Runs -/

section Runs

variable {L : Libs} {S : Space} {t : Trace Op Op.Res}

/-- A test of one answer of `FreeSpaceForFile` is wrong if the call fails while the space is low, or
if it is answered and the test is taken in by a product that wraps. -/
theorem oneTest_iff {path : Name} {test : Nat → Bool} {required : Nat} {P : Nat → Prop} {enough : Bool}
    (hfailed : test (reported L none) = true)
    (hanswered : ∀ bsize bfree, (test (reported L (some (bsize, bfree))) = true ∧
      ¬ required < bsize * bfree) ↔ P (bsize * bfree))
    (h : Yields (freeSpaceForFile L path >>= fun free => pure (test free)) t (some enough))
    (ht : S.Truthful t) :
    (enough = true → required < S.free t) ↔
      ¬ S.FailsBelow (required + 1) t ∧ ¬ S.AnswersIn P t := by
  rcases yields_bind h with ⟨-, hdead⟩ | ⟨t₁, t₂, free, rfl, hfree, hret⟩
  · cases hdead
  · obtain ⟨r, rfl, hr⟩ := yields_freeSpaceForFile hfree
    obtain ⟨rfl, hout⟩ := yields_ret hret
    cases hr
    cases hout
    rw [List.append_nil] at ht ⊢
    -- asking for the space does not change it
    have hsame : S.free [⟨.statfs path, r⟩] = S.free [] := S.statfs [] path r
    rw [hsame, Space.failsBelow_single, Space.answersIn_single]
    cases r with
    | none => simp [hfailed]
    | some p =>
        obtain ⟨bsize, bfree⟩ := p
        rw [← ht.single, ← hanswered bsize bfree]
        simp

/-- The test of `applypatch`. -/
theorem testSpace_iff {a : PatchArgs} {retry : Nat} {enough : Bool}
    (h : Yields (testSpace L a retry) t (some enough)) (ht : S.Truthful t) :
    (enough = true → max (256 * 1024) (a.targetSize * 3 / 2) < S.free t) ↔
      ¬ S.FailsBelow (max (256 * 1024) (a.targetSize * 3 / 2) + 1) t ∧
        ¬ S.AnswersIn (WrapsLow L.sizeBits a.targetSize) t := by
  unfold testSpace at h
  split at h
  · exact oneTest_iff (enoughSpace_failed a.targetSize) (fun _ _ => enoughSpace_answered) h ht
  · obtain ⟨rfl, hout⟩ := yields_ret h
    cases hout
    exact iff_of_true (fun h => by cases h) ⟨Space.failsBelow_nil, Space.answersIn_nil⟩

/-- The test of `retouch_one_library`. -/
theorem testLibrarySpace_iff (hw : L.sizeBits = 32 ∨ L.sizeBits = 64) {name : Name}
    {file : FileContents} {size : Nat} (hfile : file.size = size) (hsize : size * 2 < 2 ^ L.sizeBits)
    {enough : Bool} (h : Yields (testLibrarySpace L name file) t (some enough))
    (ht : S.Truthful t) :
    (enough = true → size * 3 / 2 < S.free t) ↔
      ¬ S.FailsBelow (size * 3 / 2 + 1) t ∧ ¬ S.AnswersIn (SignedWrapsLow L.sizeBits size) t :=
  oneTest_iff (librarySpace_failed hw hsize hfile) (fun _ _ => librarySpace_answered hw hsize hfile)
    h ht

/-- The result `k` of a run is not above the free space unless a call has failed while too little
was free. -/
def Told (S : Space) (needed : Nat) (t : Trace Op Op.Res) (k : Nat) : Prop :=
  (needed ≤ k → needed ≤ S.free t) ↔ ¬ S.FailsBelow needed t

/-- Operations that are no calls of `statfs` leave it open what is told next. -/
theorem Told.cons {needed k : Nat} {e : (o : Op) × o.Res} (he : ∀ path, e.1 ≠ .statfs path)
    (h : Told (S.after [e]) needed t k) : Told S needed (e :: t) k := by
  have hfails : S.FailsBelow needed (e :: t) ↔ (S.after [e]).FailsBelow needed t := by
    rw [Space.failsBelow_cons]
    refine or_iff_right ?_
    rintro ⟨path, rfl, -⟩
    exact he path rfl
  rw [Told, hfails]
  exact h

/-- The same for a call that is answered. -/
theorem Told.answered {needed k : Nat} {path : Name} {r : Nat × Nat}
    (h : Told (S.after [⟨.statfs path, some r⟩]) needed t k) :
    Told S needed (⟨.statfs path, some r⟩ :: t) k := by
  have hfails : S.FailsBelow needed (⟨.statfs path, some r⟩ :: t) ↔
      (S.after [⟨.statfs path, some r⟩]).FailsBelow needed t := by
    rw [Space.failsBelow_cons]
    refine or_iff_right ?_
    rintro ⟨path', h, -⟩
    cases h
  rw [Told, hfails]
  exact h

/-- After a call that fails, everything seems to be enough. -/
theorem told_failed {needed k : Nat} {path : Name} (hk : needed ≤ k) :
    Told S needed [⟨.statfs path, none⟩] k := by
  have hsame : S.free [⟨.statfs path, none⟩] = S.free [] := S.statfs [] path none
  rw [Told, Space.failsBelow_single, hsame]
  constructor
  · rintro h ⟨-, hlow⟩
    exact absurd (h hk) (by omega)
  · rintro h -
    exact Nat.le_of_not_lt fun hlow => h ⟨rfl, hlow⟩

theorem told_nil {needed k : Nat} (h : needed ≤ k → needed ≤ S.free []) : Told S needed [] k :=
  iff_of_true h Space.failsBelow_nil

theorem deleteUntil_done {needed free : Nat} (h : needed ≤ free) (names : List (Option Name)) :
    deleteUntil L needed names free = pure free := by
  cases names with
  | nil => rfl
  | cons n names =>
      unfold deleteUntil
      exact if_neg (not_lt.mpr h)

/-- An answer is not above the free space, though its product may have wrapped. -/
theorem reported_le {needed : Nat} {path : Name} {p : Nat × Nat}
    (ht : S.Truthful [⟨.statfs path, some p⟩]) (h : needed ≤ reported L (some p)) :
    needed ≤ (S.after [⟨.statfs path, some p⟩]).free [] := by
  have hsame : (S.after [⟨.statfs path, some p⟩]).free [] = S.free [] := S.statfs [] path (some p)
  rw [hsame, ← ht.single]
  exact h.trans (Nat.mod_le _ _)

/-- The loop of `MakeFreeSpaceOnCache`. -/
theorem deleteUntil_told {needed : Nat} (hneeded : needed < 2 ^ L.sizeBits)
    {names : List (Option Name)} {free k : Nat} (hfree : needed ≤ free → needed ≤ S.free [])
    (h : Yields (deleteUntil L needed names free) t (some k)) (ht : S.Truthful t) :
    Told S needed t k := by
  induction names generalizing S free t with
  | nil =>
      obtain ⟨rfl, hout⟩ := yields_ret h
      cases hout
      exact told_nil hfree
  | cons n names ih =>
      unfold deleteUntil at h
      split at h
      · rename_i hlow
        cases n with
        | none => exact ih hfree h ht
        | some name =>
            obtain ⟨unlinked, t₁, rfl, hrest⟩ := yields_call_bind h
            have ht₁ : (S.after [⟨.unlink name, unlinked⟩]).Truthful t₁ :=
              (@Space.Truthful.append S [⟨.unlink name, unlinked⟩] t₁ ht).2
            refine Told.cons (fun path hpath => by cases hpath) ?_
            rcases yields_bind hrest with ⟨-, hdead⟩ | ⟨t₂, t₃, free', rfl, hstatfs, hloop⟩
            · cases hdead
            · obtain ⟨r, rfl, hr⟩ := yields_freeSpaceForFile hstatfs
              cases hr
              have hparts := ht₁.append
              cases r with
              | none =>
                  -- the error return ends the loop
                  have hmax : needed ≤ reported L none := Nat.le_sub_one_of_lt hneeded
                  rw [deleteUntil_done hmax] at hloop
                  obtain ⟨rfl, hout⟩ := yields_ret hloop
                  cases hout
                  exact told_failed hmax
              | some p =>
                  exact (ih (reported_le hparts.1) hloop hparts.2).answered
      · obtain ⟨rfl, hout⟩ := yields_ret h
        cases hout
        exact told_nil hfree

/-- An operation that does not ask for the free space. -/
def NoStatfs (o : Op) : Prop := ∀ path, o ≠ .statfs path

theorem regularEntries_every (d : Name) (es : List Name) :
    (regularEntries d es).Every NoStatfs := by
  induction es with
  | nil => trivial
  | cons e es ih =>
      rw [regularEntries]
      split
      · exact ih
      · refine every_bind (every_call fun path h => by cases h) fun reg => ?_
        exact every_bind ih fun rest => trivial

theorem regularFiles_every (ds : List Name) : (regularFiles ds).Every NoStatfs := by
  induction ds with
  | nil => trivial
  | cons d ds ih =>
      rw [regularFiles]
      refine every_bind (every_call fun path h => by cases h) fun r => ?_
      cases r with
      | none => exact ih
      | some es =>
          refine every_bind (regularEntries_every d es) fun here => ?_
          exact every_bind ih fun rest => trivial

theorem findExpendableFiles_every : findExpendableFiles.Every NoStatfs := by
  refine every_bind (regularFiles_every _) fun names => ?_
  refine every_bind (every_call fun path h => by cases h) fun r => ?_
  cases r with
  | none => trivial
  | some links => trivial

/-- Nothing is told by a run of other operations. -/
theorem Told.append {needed k : Nat} {t₁ t₂ : Trace Op Op.Res} (hother : ∀ e ∈ t₁, NoStatfs e.1)
    (h : Told (S.after t₁) needed t₂ k) : Told S needed (t₁ ++ t₂) k := by
  induction t₁ generalizing S with
  | nil => exact h
  | cons e t₁ ih =>
      exact .cons (hother e (.head _)) (ih (fun e' he' => hother e' (.tail _ he')) h)

/-- The result of the call is what the last answer of `FreeSpaceForFile` in it says. -/
theorem makeFreeSpaceOnCache_told {needed : Nat} {r : Int} (hneeded : needed < 2 ^ L.sizeBits)
    (h : Yields (makeFreeSpaceOnCache L needed) t (some r)) (ht : S.Truthful t) :
    ∃ k, Told S needed t k ∧ r = if needed ≤ k then 0 else -1 := by
  rcases yields_bind h with ⟨-, hdead⟩ | ⟨t₁, t₂, free, rfl, hstatfs, hrest⟩
  · cases hdead
  · obtain ⟨ans, rfl, hfree⟩ := yields_freeSpaceForFile hstatfs
    cases hfree
    have hparts := ht.append
    split at hrest
    · rename_i henough
      obtain ⟨rfl, hout⟩ := yields_ret hrest
      cases hout
      refine ⟨reported L ans, ?_, (if_pos henough).symm⟩
      cases ans with
      | none => exact told_failed henough
      | some p => exact (told_nil (reported_le hparts.1)).answered
    · rename_i hlow
      have hlow' : ¬ needed ≤ reported L ans := hlow
      cases ans with
      | none => exact absurd (Nat.le_sub_one_of_lt hneeded) hlow'
      | some p =>
          rcases yields_bind hrest with ⟨-, hdead⟩ | ⟨t₃, t₄, files, rfl, hfind, hdelete⟩
          · cases hdead
          · have hother := hfind.every findExpendableFiles_every
            -- the call gives up without another answer
            have hgiven : Told S needed (⟨.statfs (cstr "/cache"), some p⟩ :: (t₃ ++ []))
                (reported L (some p)) :=
              (Told.append hother (told_nil fun hle => absurd hle hlow')).answered
            cases files with
            | none =>
                obtain ⟨rfl, hout⟩ := yields_ret hdelete
                cases hout
                exact ⟨_, hgiven, (if_neg hlow').symm⟩
            | some names =>
                simp only at hdelete
                split at hdelete
                · obtain ⟨rfl, hout⟩ := yields_ret hdelete
                  cases hout
                  exact ⟨_, hgiven, (if_neg hlow').symm⟩
                · rcases yields_bind hdelete with ⟨-, hdead⟩ | ⟨t₅, t₆, k, rfl, hloop, hret⟩
                  · cases hdead
                  · obtain ⟨rfl, hout⟩ := yields_ret hret
                    rw [List.append_nil] at hparts ⊢
                    refine ⟨k, (Told.append hother ?_).answered, Option.some_inj.mp hout⟩
                    exact deleteUntil_told hneeded (fun hle => absurd hle hlow') hloop
                      hparts.2.append.2

/-- `MakeFreeSpaceOnCache` succeeds only if the space is there, or a call of `statfs` has failed
while it was not. -/
theorem makeFreeSpaceOnCache_iff {needed : Nat} {r : Int} (hneeded : needed < 2 ^ L.sizeBits)
    (h : Yields (makeFreeSpaceOnCache L needed) t (some r)) (ht : S.Truthful t) :
    (r = 0 → needed ≤ S.free t) ↔ ¬ S.FailsBelow needed t := by
  obtain ⟨k, htold, rfl⟩ := makeFreeSpaceOnCache_told hneeded h ht
  have hzero : (if needed ≤ k then (0 : Int) else -1) = 0 ↔ needed ≤ k := by
    split
    · rename_i hle
      exact iff_of_true rfl hle
    · rename_i hlow
      exact iff_of_false (by decide) hlow
  rw [hzero]
  exact htold

/-- The same for `CacheSizeCheck`. -/
theorem cacheSizeCheck_iff {bytes : Nat} {r : Int} (hbytes : bytes < 2 ^ L.sizeBits)
    (h : Yields (cacheSizeCheck L bytes) t (some r)) (ht : S.Truthful t) :
    (r = 0 → bytes ≤ S.free t) ↔ ¬ S.FailsBelow bytes t := by
  rcases yields_bind h with ⟨-, hdead⟩ | ⟨t₁, t₂, m, rfl, hmake, hret⟩
  · cases hdead
  · obtain ⟨rfl, hout⟩ := yields_ret hret
    rw [List.append_nil] at ht ⊢
    obtain ⟨k, -, hm⟩ := makeFreeSpaceOnCache_told hbytes hmake ht
    have hsame : r = 0 ↔ m = 0 := by
      rw [Option.some_inj.mp hout, hm]
      split
      · exact iff_of_true rfl rfl
      · exact iff_of_false (by decide) (by decide)
    rw [hsame]
    exact makeFreeSpaceOnCache_iff hbytes hmake ht

end Runs

/-- When the tests for free space err on the safe side: in a run in which no call of `statfs` fails
while too little is free, and no product of a size wraps so low that the free space lies above what
is left of it. -/
theorem space_tests_iff (L : Libs) (hw : L.sizeBits = 32 ∨ L.sizeBits = 64) (S : Space) :
    (∀ (a : PatchArgs) (retry : Nat) (t : Trace Op Op.Res) (enough : Bool),
      Yields (testSpace L a retry) t (some enough) → S.Truthful t →
      ((enough = true → max (256 * 1024) (a.targetSize * 3 / 2) < S.free t) ↔
        ¬ S.FailsBelow (max (256 * 1024) (a.targetSize * 3 / 2) + 1) t ∧
          ¬ S.AnswersIn (WrapsLow L.sizeBits a.targetSize) t)) ∧
    (∀ (name : Name) (file : FileContents) (size : Nat) (t : Trace Op Op.Res) (enough : Bool),
      file.size = size → size * 2 < 2 ^ L.sizeBits →
      Yields (testLibrarySpace L name file) t (some enough) → S.Truthful t →
      ((enough = true → size * 3 / 2 < S.free t) ↔
        ¬ S.FailsBelow (size * 3 / 2 + 1) t ∧
          ¬ S.AnswersIn (SignedWrapsLow L.sizeBits size) t)) ∧
    (∀ (needed : Nat) (t : Trace Op Op.Res) (r : Int), needed < 2 ^ L.sizeBits →
      Yields (makeFreeSpaceOnCache L needed) t (some r) → S.Truthful t →
      ((r = 0 → needed ≤ S.free t) ↔ ¬ S.FailsBelow needed t)) ∧
    (∀ (bytes : Nat) (t : Trace Op Op.Res) (r : Int), bytes < 2 ^ L.sizeBits →
      Yields (cacheSizeCheck L bytes) t (some r) → S.Truthful t →
      ((r = 0 → bytes ≤ S.free t) ↔ ¬ S.FailsBelow bytes t)) := by
  refine ⟨?_, ?_, ?_, ?_⟩
  · exact fun a retry t enough h ht => testSpace_iff h ht
  · exact fun name file size t enough hfile hsize h ht => testLibrarySpace_iff hw hfile hsize h ht
  · exact fun needed t r hneeded h ht => makeFreeSpaceOnCache_iff hneeded h ht
  · exact fun bytes t r hbytes h ht => cacheSizeCheck_iff hbytes h ht

/-! ## A full disk that is taken for an empty one -/

/-- The tests never err on the unsafe side: with any answers of `statfs`, enough is only what is
more than required, and success only what was asked for. -/
structure SpaceTestsSafe (L : Libs) (S : Space) (t : Trace Op Op.Res) : Prop where
  patch (a : PatchArgs) (retry : Nat) : Yields (testSpace L a retry) t (some true) →
    max (256 * 1024) (a.targetSize * 3 / 2) < S.free t
  library (name : Name) (file : FileContents) (size : Nat) : file.size = size →
    size * 2 < 2 ^ L.sizeBits → Yields (testLibrarySpace L name file) t (some true) →
    size * 3 / 2 < S.free t
  cache (needed : Nat) : needed < 2 ^ L.sizeBits →
    Yields (makeFreeSpaceOnCache L needed) t (some 0) → needed ≤ S.free t
  sizeCheck (bytes : Nat) : bytes < 2 ^ L.sizeBits →
    Yields (cacheSizeCheck L bytes) t (some 0) → bytes ≤ S.free t

namespace Sample

/-- A library of a 32-bit system. -/
def narrowLibs : Libs where
  sha1 _ := []
  bzDecompress _ := ([], .dataError)
  inflate _ := none
  inflateStarved _ := none
  deflate _ _ := none
  sizeBits := 32
  wide := Libs.wide_narrow

/-- A file system with a constant number of free bytes. -/
def constantSpace (n : Nat) : Space := ⟨fun _ => n, fun _ _ _ => rfl⟩

/-- A target of this size on `/system`. -/
def sizedArgs (size : Nat) : PatchArgs := ⟨cstr "/system/a", cstr "-", [], size, []⟩

/-- A file of this size. -/
def sizedFile (size : Int) : FileContents := ⟨[], none, size, ⟨0, 0, 0⟩⟩

end Sample

theorem Sample.truthful_failed (path : Name) :
    (Sample.constantSpace 0).Truthful [⟨.statfs path, none⟩] := by
  rintro t₁ t₂ path' bsize bfree h
  cases t₁ with
  | nil => cases h
  | cons e t₁ => cases t₁ <;> cases h

theorem Sample.truthful_answered (path : Name) :
    (Sample.constantSpace 524288).Truthful [⟨.statfs path, some (4096, 128)⟩] := by
  rintro t₁ t₂ path' bsize bfree h
  cases t₁ with
  | nil =>
      cases h
      rfl
  | cons e t₁ => cases t₁ <;> cases h

/-- `statfs` fails on a full disk, and every test is passed. A target of 0x55555556 bytes is said to
fit on half a megabyte. -/
theorem full_disk_is_enough :
    (¬ ∀ (L : Libs) (S : Space) (t : Trace Op Op.Res), L.sizeBits = 32 ∨ L.sizeBits = 64 →
      S.Truthful t → SpaceTestsSafe L S t) ∧
    Yields (testSpace Sample.narrowLibs (Sample.sizedArgs 1) 1)
      [⟨.statfs (cstr "/system"), none⟩] (some true) ∧
    Yields (testLibrarySpace Sample.narrowLibs (cstr "/system/a") (Sample.sizedFile 1))
      [⟨.statfs (cstr "/system"), none⟩] (some true) ∧
    Yields (makeFreeSpaceOnCache Sample.narrowLibs 1) [⟨.statfs (cstr "/cache"), none⟩] (some 0) ∧
    Yields (cacheSizeCheck Sample.narrowLibs 1) [⟨.statfs (cstr "/cache"), none⟩] (some 0) ∧
    Yields (testSpace Sample.narrowLibs (Sample.sizedArgs 0x55555556) 1)
      [⟨.statfs (cstr "/system"), some (4096, 128)⟩] (some true) ∧
    ¬ SpaceTestsSafe Sample.narrowLibs (Sample.constantSpace 524288)
      [⟨.statfs (cstr "/system"), some (4096, 128)⟩] := by
  have hcache : Yields (makeFreeSpaceOnCache Sample.narrowLibs 1)
      [⟨.statfs (cstr "/cache"), none⟩] (some 0) := .op (.ret 0)
  have hwrapped : Yields (testSpace Sample.narrowLibs (Sample.sizedArgs 0x55555556) 1)
      [⟨.statfs (cstr "/system"), some (4096, 128)⟩] (some true) := .op (.ret true)
  refine ⟨fun h => ?_, .op (.ret true), .op (.ret true), hcache, .op (.ret 0), hwrapped,
    fun h => ?_⟩
  · have hsafe := h Sample.narrowLibs (Sample.constantSpace 0) [⟨.statfs (cstr "/cache"), none⟩]
      (.inl rfl) (Sample.truthful_failed _)
    exact absurd (hsafe.cache 1 (by decide) hcache) (by decide)
  · exact absurd (h.patch _ _ hwrapped) (by decide)

/-- A file system that says 524288 bytes are free: they are enough for 1 byte on 32 bits, and the
test is right. -/
theorem space_tests_iff_answered :
    Yields (testSpace Sample.narrowLibs (Sample.sizedArgs 1) 1)
      [⟨.statfs (cstr "/system"), some (4096, 128)⟩] (some true) ∧
    ((true = true → max (256 * 1024) (1 * 3 / 2) < (Sample.constantSpace 524288).free
        [⟨.statfs (cstr "/system"), some (4096, 128)⟩]) ↔
      ¬ (Sample.constantSpace 524288).FailsBelow (max (256 * 1024) (1 * 3 / 2) + 1)
          [⟨.statfs (cstr "/system"), some (4096, 128)⟩] ∧
        ¬ (Sample.constantSpace 524288).AnswersIn (WrapsLow 32 1)
          [⟨.statfs (cstr "/system"), some (4096, 128)⟩]) := by
  have hyields : Yields (testSpace Sample.narrowLibs (Sample.sizedArgs 1) 1)
      [⟨.statfs (cstr "/system"), some (4096, 128)⟩] (some true) := .op (.ret true)
  exact ⟨hyields, (space_tests_iff Sample.narrowLibs (.inl rfl) (Sample.constantSpace 524288)).1
    (Sample.sizedArgs 1) 1 _ true hyields (Sample.truthful_answered _)⟩

end OpenRecovery.ApplyPatch
