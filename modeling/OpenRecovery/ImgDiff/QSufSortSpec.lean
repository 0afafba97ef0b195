import OpenRecovery.ImgDiff.BucketSpec
import OpenRecovery.ImgDiff.SplitSpec

/-!
# The array that `qsufsort` leaves

Sorted by the first byte, the array is laid out in groups. Every pass splits every group by the keys
`h` further on, so that afterwards the groups tell twice as many bytes; once `h` exceeds the length
no group can be left, and the next pass joins the runs into one. The positions then have the numbers
of their suffixes in the order of all suffixes, and the last loop inverts them.
-/

set_option autoImplicit false

namespace OpenRecovery.ImgDiff

open OpenRecovery.ApplyPatch OpenRecovery.Segments OpenRecovery.Storage OpenRecovery.SuffixOrder

/-! ## A pass -/

section Pass

variable {old : Bytes} {h i len : ℕ} {s s' : Arrays}

/-- A pass at index `i`: the last `len` entries before it are a run whose head is not written yet.
-/
structure PassInv (old : Bytes) (h : ℕ) (s : Arrays) (i len : ℕ) : Prop where
  le : len ≤ i
  numbered : Numbered old h s.V
  left : Layout old (h + h) s.I s.V 0 (i - len)
  run : ∀ t, i - len ≤ t → t < i → Settled old s.V t
  right : Layout old h s.I s.V i (old.length + 1)
  agree : ∀ p q, p ≤ old.length → q ≤ old.length → s.V p = s.V q → s.V p < i →
    Agree old (h + h) p q
  merged : old.length < h → len = i

theorem keepsNumbers_refl (old : Bytes) (V : ℕ → ℕ) (a b : ℕ) : KeepsNumbers old V V a b :=
  fun _ _ _ => rfl

theorem closeRun_spec (hi : PassInv old h s i len) :
    ∃ s', closeRun old.length i len s = some s' ∧ s'.V = s.V ∧ (∀ t, i ≤ t → s'.I t = s.I t) ∧
      Layout old (h + h) s'.I s'.V 0 i ∧ (0 < len → s'.I (i - len) = -len) := by
  have hle := hi.le
  have hright := hi.right.le
  rw [closeRun]
  by_cases hlen : len = 0
  · subst hlen
    exact ⟨s, if_neg (not_not.mpr rfl), rfl, fun t _ => rfl, hi.left, fun h0 => absurd h0 (by omega)⟩
  · rw [if_pos hlen, Arrays.setI, if_pos (by omega)]
    refine ⟨_, rfl, rfl, fun t ht => Function.update_of_ne (by omega) _ _, ?_, fun _ =>
      Function.update_self _ _ _⟩
    refine (hi.left.congr (fun t _ ht => ?_) (keepsNumbers_refl _ _ _ _)).append ?_
    · exact Function.update_of_ne (by omega) _ _
    · refine Layout.run (m := len) (Function.update_self _ _ _) (by omega) ?_ ?_
      · intro t ha hb
        exact hi.run t ha (by omega)
      · rw [Nat.sub_add_cancel hle]
        exact Layout.nil i

/-- A group between two parts of a layout is ready to be split. -/
theorem Group.pending {m : ℕ} (hg : Group old h s.I s.V i m) (hn : Numbered old h s.V) (hm : 0 < m) :
    Pending old h s i m (i + m - 1) where
  numbered := hn
  positions := hg.positions
  listed p hp := by
    obtain ⟨hle, hv⟩ := hg.listed p hp
    exact ⟨hle, by omega⟩
  le := by omega
  others q hq hnot := by
    by_cases hlow : s.V q < i
    · exact Or.inl hlow
    · have hhigh : i + m ≤ s.V q := by
        by_contra hlt
        exact hnot (hg.all q hq (by omega) (by omega))
      refine Or.inr ⟨hhigh, fun p hp => ?_⟩
      obtain ⟨hle, hv⟩ := hg.listed p hp
      exact hn.lt p q (by omega) hq (by omega)

/-- The numbers outside a group are not touched by dividing it. -/
theorem Divided.keepsNumbers {a m b c : ℕ} (hg : Group old h s.I s.V a m)
    (hd : Divided old h s a m s') (hdisj : c ≤ a ∨ a + m ≤ b) : KeepsNumbers old s.V s'.V b c := by
  intro q _ hin
  by_cases hq : Lists s.I a m q
  · obtain ⟨ha, hb⟩ := hd.within q hq
    obtain ⟨-, hv⟩ := hg.listed q hq
    obtain ⟨t, hta, htb, -⟩ := hq
    omega
  · exact hd.keepsV q hq

/-- One group of a pass. -/
theorem PassInv.of_divided {m : ℕ} (hm : 0 < m)
    (hagree : ∀ p q, p ≤ old.length → q ≤ old.length → s.V p = s.V q → s.V p < i →
      Agree old (h + h) p q) (hleft : Layout old (h + h) s.I s.V 0 i) (hg : Group old h s.I s.V i m)
    (hr : Layout old h s.I s.V (i + m) (old.length + 1)) (hd : Divided old h s i m s') :
    PassInv old h s' (i + m) 0 where
  le := Nat.zero_le _
  numbered := hd.numbered
  left := by
    refine (hleft.congr (fun t _ ht => hd.keepsI t (by omega)) ?_).append hd.layout
    exact hd.keepsNumbers hg (Or.inl (Nat.le_refl i))
  run t ha hb := by omega
  right := by
    refine hr.congr (fun t ht _ => hd.keepsI t (by omega)) ?_
    exact hd.keepsNumbers hg (Or.inr (Nat.le_refl _))
  agree p q hp hq heq hlt := by
    by_cases hpl : Lists s.I i m p
    · by_cases hql : Lists s.I i m q
      · exact hd.agree p q hpl hql heq
      · obtain ⟨ha, hb⟩ := hd.within p hpl
        rw [hd.keepsV q hql] at heq
        exact absurd (hg.all q hq (by omega) (by omega)) hql
    · by_cases hql : Lists s.I i m q
      · obtain ⟨ha, hb⟩ := hd.within q hql
        rw [hd.keepsV p hpl] at heq
        exact absurd (hg.all p hp (by omega) (by omega)) hpl
      · rw [hd.keepsV p hpl] at heq hlt
        rw [hd.keepsV q hql] at heq
        refine hagree p q hp hq heq ?_
        by_contra hge
        exact hpl (hg.all p hp (by omega) hlt)
  merged hlong := by
    -- no position of a group is so close to the end
    obtain ⟨p, hp⟩ := hg.positions.entry i (Nat.le_refl i) (by omega)
    obtain ⟨hle, -⟩ := hg.listed p ⟨i, Nat.le_refl i, by omega, hp⟩
    omega

/-- **A pass.** Afterwards the groups tell twice as many bytes, and a layout with no group is one
run. -/
theorem passLoop_spec {fuel : ℕ} : ∀ {i len : ℕ} {s : Arrays}, old.length + 1 - i < fuel →
    PassInv old h s i len →
    ∃ s', passLoop old.length h fuel i len s = some s' ∧ Numbered old (h + h) s'.V ∧
      Layout old (h + h) s'.I s'.V 0 (old.length + 1) ∧
      (old.length < h → s'.I 0 = -((old.length : ℤ) + 1)) := by
  induction fuel with
  | zero =>
    intro i len s hfuel
    omega
  | succ fuel ih =>
    intro i len s hfuel hi
    have hright := hi.right.le
    rw [passLoop]
    by_cases hin : i < old.length + 1
    · rw [if_pos hin, Arrays.getI, if_pos (by omega)]
      show ∃ s', (if s.I i < 0 then _ else _) = _ ∧ _
      rcases hi.right with _ | ⟨hI, hm, hs, hr⟩ | ⟨hm, hg, hr⟩
      · omega
      · -- a run: it is joined to the one before it
        rename_i m
        have hmle := hr.le
        rw [hI, if_pos (by omega), neg_neg, Int.toNat_natCast]
        refine ih (by omega) ⟨?_, hi.numbered, ?_, ?_, hr, ?_, ?_⟩
        · have hle := hi.le
          omega
        · rw [Nat.add_sub_add_right]
          exact hi.left
        · intro t ha hb
          by_cases ht : t < i
          · exact hi.run t (by omega) ht
          · exact hs t (by omega) hb
        · intro p q hp hq heq hlt
          by_cases hpi : s.V p < i
          · exact hi.agree p q hp hq heq hpi
          · obtain ⟨r, -, -, huniq⟩ := hs (s.V p) (by omega) hlt
            rw [huniq p hp rfl, huniq q hq heq.symm]
            rfl
        · intro hlong
          rw [hi.merged hlong]
      · rename_i m
        have hmle := hr.le
        obtain ⟨p, hp⟩ := hg.positions.entry i (Nat.le_refl i) (by omega)
        have hpl : Lists s.I i m p := ⟨i, Nat.le_refl i, by omega, hp⟩
        obtain ⟨hple, hpv⟩ := hg.listed p hpl
        obtain ⟨s₁, hclose, hV, hI, hleft, -⟩ := closeRun_spec hi
        have hg₁ : Group old h s₁.I s₁.V i m := by
          rw [hV]
          exact hg.congr (fun t ha _ => hI t ha) (keepsNumbers_refl _ _ _ _)
        have hr₁ : Layout old h s₁.I s₁.V (i + m) (old.length + 1) := by
          rw [hV]
          exact hr.congr (fun t ha _ => hI t (by omega)) (keepsNumbers_refl _ _ _ _)
        have hn₁ : Numbered old h s₁.V := by
          rw [hV]
          exact hi.numbered
        obtain ⟨s₂, hsplit, hd⟩ := split_spec (Nat.lt_succ_self m) (hg₁.pending hn₁ hm)
        have hi₂ : PassInv old h s₂ (i + m) 0 := by
          refine PassInv.of_divided hm ?_ hleft hg₁ hr₁ hd
          rw [hV]
          exact hi.agree
        obtain ⟨s₃, hrest, hspec⟩ := ih (by omega) hi₂
        refine ⟨s₃, ?_, hspec⟩
        rw [hp, if_neg (by omega)]
        show (closeRun old.length i len s).bind _ = _
        rw [hclose]
        show (s₁.getV old.length p).bind _ = _
        rw [Arrays.getV, if_pos (by omega), Int.toNat_natCast, hV]
        show (if s.V p + 1 ≤ i then none
          else (split old.length h (s.V p + 1 - i + 1) i (s.V p + 1 - i) s₁).bind _) = _
        rw [if_neg (by omega), show s.V p + 1 - i = m by omega, hsplit]
        exact hrest
    · obtain rfl : i = old.length + 1 := by omega
      rw [if_neg hin]
      obtain ⟨s', hclose, hV, -, hleft, hhead⟩ := closeRun_spec hi
      refine ⟨s', hclose, ?_, hleft, fun hlong => ?_⟩
      · rw [hV]
        refine ⟨hi.numbered.le, hi.numbered.lt, fun p q hp hq heq => ?_⟩
        have hpn := hi.numbered.le p hp
        exact hi.agree p q hp hq heq (by omega)
      · have hlen := hi.merged hlong
        subst hlen
        have h0 := hhead (Nat.succ_pos _)
        rw [Nat.sub_self] at h0
        rw [h0]
        push_cast
        rfl

end Pass

/-! ## All passes -/

section Doubling

variable {old : Bytes} {h : ℕ} {s : Arrays}

theorem passInv_start (hn : Numbered old h s.V) (hl : Layout old h s.I s.V 0 (old.length + 1)) :
    PassInv old h s 0 0 where
  le := Nat.le_refl 0
  numbered := hn
  left := Layout.nil 0
  run t ha hb := by omega
  right := hl
  agree p q hp hq heq hlt := absurd hlt (Nat.not_lt_zero _)
  merged _ := rfl

/-- Every number is taken by one position. -/
structure Sorted (old : Bytes) (V : ℕ → ℕ) : Prop where
  le : ∀ p, p ≤ old.length → V p ≤ old.length
  lt : ∀ p q, p ≤ old.length → q ≤ old.length → V p < V q → old.drop p < old.drop q
  settled : ∀ i, i ≤ old.length → Settled old V i

/-- One run is all there is. -/
theorem sorted_of_layout (hn : Numbered old h s.V) (hl : Layout old h s.I s.V 0 (old.length + 1))
    (hI : s.I 0 = -((old.length : ℤ) + 1)) : Sorted old s.V := by
  refine ⟨hn.le, hn.lt, fun i hi => ?_⟩
  rcases hl with _ | ⟨hI', hm, hs, -⟩ | ⟨hm, hg, -⟩
  · rename_i m
    exact hs i (Nat.zero_le i) (by omega)
  · obtain ⟨p, hp⟩ := hg.positions.entry 0 (Nat.le_refl 0) (by omega)
    omega

/-- **The passes come to an end.** Two more are enough once `h` exceeds the length. -/
theorem doubleLoop_spec {fuel : ℕ} : ∀ {h : ℕ} {s : Arrays}, 0 < h → old.length + 1 - h + 1 < fuel →
    Numbered old h s.V → Layout old h s.I s.V 0 (old.length + 1) →
    ∃ s', doubleLoop old.length fuel h s = some s' ∧ Sorted old s'.V := by
  induction fuel with
  | zero =>
    intro h s _ hfuel
    omega
  | succ fuel ih =>
    intro h s hh hfuel hn hl
    rw [doubleLoop, Arrays.getI, if_pos (Nat.zero_le _)]
    show ∃ s', (if s.I 0 ≠ -((old.length : ℤ) + 1) then _ else _) = _ ∧ _
    by_cases hdone : s.I 0 = -((old.length : ℤ) + 1)
    · rw [if_neg (not_not.mpr hdone)]
      exact ⟨s, rfl, sorted_of_layout hn hl hdone⟩
    · rw [if_pos hdone]
      obtain ⟨s₁, hpass, hn₁, hl₁, hlong⟩ :=
        passLoop_spec (by omega : old.length + 1 - 0 < old.length + 2) (passInv_start hn hl)
      show ∃ s', (passLoop old.length h (old.length + 2) 0 0 s).bind _ = _ ∧ _
      rw [hpass, Option.bind_some]
      by_cases hgt : old.length < h
      · -- the array is one run now: the loop stops
        obtain ⟨fuel, rfl⟩ : ∃ m, fuel = m + 1 := ⟨fuel - 1, by omega⟩
        rw [doubleLoop, Arrays.getI, if_pos (Nat.zero_le _)]
        show ∃ s', (if s₁.I 0 ≠ -((old.length : ℤ) + 1) then _ else _) = _ ∧ _
        rw [if_neg (not_not.mpr (hlong hgt))]
        exact ⟨s₁, rfl, sorted_of_layout hn₁ hl₁ (hlong hgt)⟩
      · exact ih (by omega) (by omega) hn₁ hl₁

theorem Sorted.injective {V : ℕ → ℕ} (hs : Sorted old V) {p q : ℕ} (hp : p ≤ old.length)
    (hq : q ≤ old.length) (heq : V p = V q) : p = q := by
  obtain ⟨r, -, -, huniq⟩ := hs.settled (V p) (hs.le p hp)
  rw [huniq p hp rfl, huniq q hq heq.symm]

theorem invertLoop_spec {m : ℕ} : ∀ {i : ℕ} {s : Arrays}, Sorted old s.V → i + m = old.length + 1 →
    (∀ p, p < i → s.I (s.V p) = p) →
    ∃ s', invertLoop old.length m i s = some s' ∧ s'.V = s.V ∧
      ∀ p, p ≤ old.length → s'.I (s'.V p) = p := by
  induction m with
  | zero =>
    intro i s _ hi hI
    exact ⟨s, rfl, rfl, fun p hp => hI p (by omega)⟩
  | succ m ih =>
    intro i s hs hi hI
    have hle := hs.le i (by omega)
    rw [invertLoop, Arrays.getV, if_pos (by omega), Int.toNat_natCast]
    show ∃ s', (s.setI old.length (s.V i) i).bind _ = _ ∧ _
    rw [Arrays.setI, if_pos hle]
    refine ih (s := { s with I := Function.update s.I (s.V i) i }) hs (by omega) fun p hp => ?_
    show Function.update s.I (s.V i) (i : ℤ) (s.V p) = p
    by_cases hpi : p = i
    · rw [hpi]
      exact Function.update_self _ _ _
    · rw [Function.update_of_ne]
      · exact hI p (by omega)
      · intro heq
        exact hpi (hs.injective (by omega) (by omega) heq)

end Doubling

/-! ## The suffix array -/

/-- The entries of `I` as positions. -/
def Arrays.entries (old : Bytes) (s : Arrays) : List ℕ :=
  (List.range (old.length + 1)).map fun i => (s.I i).toNat

/-- Every entry is a position, every position is there once, and the suffixes ascend. -/
structure SuffixArray (old : Bytes) (s : Arrays) : Prop where
  nonneg : ∀ i, i ≤ old.length → 0 ≤ s.I i
  perm : (s.entries old).Perm (List.range (old.length + 1))
  ascending : (s.entries old).Pairwise fun p q => old.drop p < old.drop q

/-- The inverse of sorted numbers is the suffix array. -/
theorem suffixArray_of_inverse {old : Bytes} {s : Arrays} (hs : Sorted old s.V)
    (hI : ∀ p, p ≤ old.length → s.I (s.V p) = p) : SuffixArray old s := by
  have hat : ∀ i, i ≤ old.length → ∃ p, p ≤ old.length ∧ s.V p = i ∧ s.I i = p := by
    intro i hi
    obtain ⟨p, hp, hpi, -⟩ := hs.settled i hi
    exact ⟨p, hp, hpi, by rw [← hpi, hI p hp]⟩
  have hlt : (s.entries old).Pairwise fun p q => old.drop p < old.drop q := by
    refine List.pairwise_map.mpr ((List.pairwise_lt_range).imp_of_mem ?_)
    intro i j hi hj hij
    rw [List.mem_range] at hi hj
    obtain ⟨p, hp, hpi, hIp⟩ := hat i (by omega)
    obtain ⟨q, hq, hqj, hIq⟩ := hat j (by omega)
    rw [hIp, hIq, Int.toNat_natCast, Int.toNat_natCast]
    exact hs.lt p q hp hq (by omega)
  refine ⟨fun i hi => ?_, ?_, hlt⟩
  · obtain ⟨p, -, -, hIp⟩ := hat i hi
    rw [hIp]
    exact Int.natCast_nonneg p
  · refine (List.perm_ext_iff_of_nodup ?_ List.nodup_range).mpr fun p => ?_
    · exact hlt.imp fun hpq => by
        rintro rfl
        exact List.lt_irrefl _ hpq
    · rw [Arrays.entries, List.mem_map, List.mem_range]
      constructor
      · rintro ⟨i, hi, rfl⟩
        rw [List.mem_range] at hi
        obtain ⟨q, hq, -, hIq⟩ := hat i (by omega)
        rw [hIq, Int.toNat_natCast]
        omega
      · intro hp
        refine ⟨s.V p, ?_, by rw [hI p (by omega), Int.toNat_natCast]⟩
        have hle := hs.le p (by omega)
        rw [List.mem_range]
        omega

theorem qsufsort_spec (old : Bytes) (s : Arrays) :
    ∃ s', qsufsort old s = some s' ∧ SuffixArray old s' := by
  obtain ⟨s₁, hbucket, hb⟩ := bucketSort_spec old s
  obtain ⟨s₂, hdouble, hs⟩ := doubleLoop_spec Nat.one_pos
    (by omega : old.length + 1 - 1 + 1 < old.length + 2) hb.numbered hb.layout
  obtain ⟨s₃, hinvert, hV, hI⟩ := invertLoop_spec (m := old.length + 1) hs (Nat.zero_add _)
    fun p hp => absurd hp (Nat.not_lt_zero p)
  rw [← hV] at hs
  refine ⟨s₃, ?_, suffixArray_of_inverse hs hI⟩
  show (bucketSort old s).bind _ = _
  rw [hbucket]
  show (doubleLoop old.length (old.length + 2) 1 s₁).bind _ = _
  rw [hdouble]
  exact hinvert

/-- **`qsufsort` sorts the suffixes.** Whatever the two arrays hold when it starts, it ends, no
access is outside them, and `I` then lists every position once, in the order of the suffixes. -/
theorem qsufsort_sorts (old : Bytes) (s : Arrays) :
    ∃ s', qsufsort old s = some s' ∧ (∀ i, i ≤ old.length → 0 ≤ s'.I i) ∧
      (s'.entries old).Perm (List.range (old.length + 1)) ∧
      (s'.entries old).Pairwise fun p q => old.drop p < old.drop q := by
  obtain ⟨s', hrun, hsa⟩ := qsufsort_spec old s
  exact ⟨s', hrun, hsa.nonneg, hsa.perm, hsa.ascending⟩

/-- The entries that `qsufsort` leaves, from arrays as `malloc` returned them. -/
def sortedEntries (s : Arrays) (old : Bytes) : List Nat :=
  ((qsufsort old s).map (Arrays.entries old)).getD []

theorem sortedEntries_perm (s : Arrays) (old : Bytes) :
    (sortedEntries s old).Perm (List.range (old.length + 1)) := by
  obtain ⟨s', hrun, hsa⟩ := qsufsort_spec old s
  rw [sortedEntries, hrun]
  exact hsa.perm

theorem length_sortedEntries (s : Arrays) (old : Bytes) :
    (sortedEntries s old).length = old.length + 1 := by
  rw [(sortedEntries_perm s old).length_eq, List.length_range]

theorem le_of_mem_sortedEntries (s : Arrays) (old : Bytes) :
    ∀ p ∈ sortedEntries s old, p ≤ old.length := by
  intro p hp
  rw [(sortedEntries_perm s old).mem_iff, List.mem_range] at hp
  omega

/-- The suffix array as `bsdiff` gets it. -/
def sortedIndex (s : Arrays) (old : Bytes) : SuffixIndex old :=
  ⟨sortedEntries s old, length_sortedEntries s old, le_of_mem_sortedEntries s old⟩

end OpenRecovery.ImgDiff
