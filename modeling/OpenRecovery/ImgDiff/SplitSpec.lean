import OpenRecovery.ImgDiff.GroupOrder

/-!
# Splitting a group

The loops of `split`: they exchange entries of the part they are given and nothing else, each key
they read and each entry they exchange is inside the arrays, and the number of passes is bounded.
A part is then divided by numbering one group of it after the other.
-/

set_option autoImplicit false

namespace OpenRecovery.ImgDiff

open OpenRecovery.ApplyPatch OpenRecovery.Segments OpenRecovery.Storage OpenRecovery.SuffixOrder

/-- The key of an entry. -/
def keyOf (h : ℕ) (V : ℕ → ℕ) (x : ℤ) : ℕ := V (x.toNat + h)

@[simp] theorem keyOf_natCast (h : ℕ) (V : ℕ → ℕ) (p : ℕ) : keyOf h V p = V (p + h) := rfl

/-- The entries from `a` to `b` have a key inside `V`. -/
def Readable (n h : ℕ) (I : ℕ → ℤ) (a b : ℕ) : Prop :=
  ∀ t, a ≤ t → t < b → t ≤ n ∧ 0 ≤ I t ∧ I t + h ≤ n

section Access

variable {n h a b i j k m : ℕ} {s s' : Arrays} {I I' : ℕ → ℤ}

theorem Readable.rearranged (hr : Readable n h I a b) (hI : Rearranged a b I I') :
    Readable n h I' a b := by
  intro t ha hb
  refine ⟨(hr t ha hb).1, ?_⟩
  exact hI.forall (p := fun x => 0 ≤ x ∧ x + h ≤ n) (fun i ha hb => (hr i ha hb).2) ha hb

theorem key_eq (hr : Readable n h s.I a b) (ha : a ≤ i) (hb : i < b) :
    s.key n h i = some (keyOf h s.V (s.I i)) := by
  obtain ⟨hin, h0, hle⟩ := hr i ha hb
  rw [Arrays.key, Arrays.getI, if_pos hin]
  show s.getV n (s.I i + h) = _
  rw [Arrays.getV, if_pos ⟨by omega, hle⟩, keyOf]
  congr 2
  omega

theorem swap_eq (hi : i ≤ n) (hj : j ≤ n) :
    s.swap n i j = some { s with I := swapped s.I i j } := by
  rw [Arrays.swap, Arrays.getI, if_pos hi, Arrays.getI, if_pos hj]
  show (s.setI n i (s.I j)).bind (fun s' => s'.setI n j (s.I i)) = _
  rw [Arrays.setI, if_pos hi, Option.bind_some, Arrays.setI, if_pos hj]
  rfl

end Access

/-! ## Short groups -/

section Selection

variable {n h k stop : ℕ}

/-- The inner loop of the selection sort, from pass `i` on: the smallest keys are in front. -/
theorem selectLoop_spec {m : ℕ} : ∀ {i x j : ℕ} {s : Arrays}, k + i + m = stop →
    Readable n h s.I k stop → 1 ≤ j → j ≤ i →
    (∀ t, k ≤ t → t < k + j → keyOf h s.V (s.I t) = x) →
    (∀ t, k + j ≤ t → t < k + i → x < keyOf h s.V (s.I t)) →
    ∃ j' x' s', selectLoop n h k m i x j s = some (j', s') ∧ s'.V = s.V ∧
      Rearranged k stop s.I s'.I ∧ 1 ≤ j' ∧ k + j' ≤ stop ∧
      (∀ t, k ≤ t → t < k + j' → keyOf h s.V (s'.I t) = x') ∧
      (∀ t, k + j' ≤ t → t < stop → x' < keyOf h s.V (s'.I t)) := by
  induction m with
  | zero =>
    intro i x j s hstop _ h1 hji hfront hrest
    refine ⟨j, x, s, rfl, rfl, Rearranged.refl _ _ _, h1, by omega, hfront, fun t ha hb => ?_⟩
    exact hrest t ha (by omega)
  | succ m ih =>
    intro i x j s hstop hread h1 hji hfront hrest
    obtain ⟨y, hy⟩ : ∃ y, keyOf h s.V (s.I (k + i)) = y := ⟨_, rfl⟩
    have hkey := key_eq hread (Nat.le_add_right k i) (by omega : k + i < stop)
    rw [selectLoop, hkey, hy]
    show ∃ j' x' s', (if y = if y < x then y else x then
      (s.swap n (k + if y < x then 0 else j) (k + i)).bind (fun s => selectLoop n h k m (i + 1)
        (if y < x then y else x) ((if y < x then 0 else j) + 1) s)
      else selectLoop n h k m (i + 1) (if y < x then y else x) (if y < x then 0 else j) s) = _ ∧ _
    have hin : k + i ≤ n := (hread (k + i) (by omega) (by omega)).1
    -- the entry goes to the end of the front, which is empty after a smaller key
    have hstep : ∀ j₁, j₁ ≤ j → (∀ t, k ≤ t → t < k + j₁ → keyOf h s.V (s.I t) = y) →
        (∀ t, k + j₁ ≤ t → t < k + i → y < keyOf h s.V (s.I t)) →
        ∃ j' x' s', (s.swap n (k + j₁) (k + i)).bind (fun s =>
            selectLoop n h k m (i + 1) y (j₁ + 1) s) = some (j', s') ∧
          s'.V = s.V ∧ Rearranged k stop s.I s'.I ∧ 1 ≤ j' ∧ k + j' ≤ stop ∧
          (∀ t, k ≤ t → t < k + j' → keyOf h s.V (s'.I t) = x') ∧
          (∀ t, k + j' ≤ t → t < stop → x' < keyOf h s.V (s'.I t)) := by
      intro j₁ hj₁ hfront₁ hrest₁
      rw [swap_eq (by omega) hin, Option.bind_some]
      have hre := rearranged_swapped (a := k) (b := stop) s.I (i := k + j₁) (j := k + i)
        ⟨by omega, by omega⟩ ⟨by omega, by omega⟩
      have hfront₂ : ∀ t, k ≤ t → t < k + (j₁ + 1) →
          keyOf h s.V (swapped s.I (k + j₁) (k + i) t) = y := by
        intro t ha hb
        by_cases ht : t = k + j₁
        · rw [ht, swapped_left, hy]
        · rw [swapped_of_ne s.I ht (by omega)]
          exact hfront₁ t ha (by omega)
      have hrest₂ : ∀ t, k + (j₁ + 1) ≤ t → t < k + (i + 1) →
          y < keyOf h s.V (swapped s.I (k + j₁) (k + i) t) := by
        intro t ha hb
        by_cases ht : t = k + i
        · rw [ht, swapped_right]
          exact hrest₁ (k + j₁) (Nat.le_refl _) (by omega)
        · rw [swapped_of_ne s.I (by omega) ht]
          exact hrest₁ t (by omega) (by omega)
      obtain ⟨j', x', s', heq, hV, hre', hspec⟩ :=
        ih (s := { s with I := swapped s.I (k + j₁) (k + i) }) (by omega : k + (i + 1) + m = stop)
          (hread.rearranged hre) (by omega) (by omega) hfront₂ hrest₂
      exact ⟨j', x', s', heq, hV, hre.trans hre', hspec⟩
    by_cases hlt : y < x
    · rw [if_pos hlt, if_pos hlt, if_pos rfl]
      refine hstep 0 (Nat.zero_le j) (fun t ha hb => by omega) fun t ha hb => ?_
      by_cases ht : t < k + j
      · rw [hfront t (by omega) ht]
        exact hlt
      · exact hlt.trans (hrest t (by omega) hb)
    · rw [if_neg hlt, if_neg hlt]
      by_cases heq : y = x
      · rw [if_pos heq]
        rw [← heq] at hfront hrest ⊢
        exact hstep j (Nat.le_refl j) hfront hrest
      · rw [if_neg heq]
        refine ih (by omega) hread h1 (by omega) hfront fun t ha hb => ?_
        rcases Nat.lt_succ_iff_lt_or_eq.mp (by omega : t < k + i + 1) with hti | rfl
        · exact hrest t ha hti
        · omega

end Selection

/-! ## One group of a part -/

section OneGroup

variable {old : Bytes} {h a m l len v x : ℕ} {s s' : Arrays}

theorem Pending.bound (hp : Pending old h s a len v) (hlen : 0 < len) : a + len ≤ old.length + 1 := by
  obtain ⟨p, hpa⟩ := hp.positions.entry a (Nat.le_refl a) (by omega)
  obtain ⟨hple, hpv⟩ := hp.listed p ⟨a, Nat.le_refl a, by omega, hpa⟩
  have hvn := hp.numbered.le p (by omega)
  have hle := hp.le
  omega

theorem Pending.readable (hp : Pending old h s a len v) :
    Readable old.length h s.I a (a + len) := by
  intro t ha hb
  have hbound := hp.bound (by omega)
  obtain ⟨p, hpt⟩ := hp.positions.entry t ha hb
  obtain ⟨hple, -⟩ := hp.listed p ⟨t, ha, hb, hpt⟩
  rw [hpt]
  omega

/-- Positions of the part compare as their keys. -/
theorem Pending.lt_of_keys (hp : Pending old h s a len v) {i j p q : ℕ} (hia : a ≤ i)
    (hib : i < a + len) (hja : a ≤ j) (hjb : j < a + len) (hpi : s.I i = p) (hqj : s.I j = q)
    (hkey : keyOf h s.V (s.I i) < keyOf h s.V (s.I j)) : old.drop p < old.drop q := by
  obtain ⟨hple, hpv⟩ := hp.listed p ⟨i, hia, hib, hpi⟩
  obtain ⟨hqle, hqv⟩ := hp.listed q ⟨j, hja, hjb, hqj⟩
  rw [hpi, hqj, keyOf_natCast, keyOf_natCast] at hkey
  exact hp.numbered.lt_of_key hple hqle (hpv.trans hqv.symm) hkey

theorem Pending.lt_of_front (hp : Pending old h s a (m + l) v)
    (hlt : ∀ i j, a ≤ i → i < a + m → a + m ≤ j → j < a + (m + l) →
      keyOf h s.V (s.I i) < keyOf h s.V (s.I j)) :
    ∀ p q, Lists s.I a m p → Lists s.I (a + m) l q → old.drop p < old.drop q := by
  rintro p q ⟨i, hia, hib, hpi⟩ ⟨j, hja, hjb, hqj⟩
  exact hp.lt_of_keys hia (by omega) (by omega) (by omega) hpi hqj
    (hlt i j hia hib hja (by omega))

/-- Positions with one key share twice as many bytes. -/
theorem Pending.agree_of_keys (hp : Pending old h s a len v) {i j p q : ℕ} (hia : a ≤ i)
    (hib : i < a + len) (hja : a ≤ j) (hjb : j < a + len) (hpi : s.I i = p) (hqj : s.I j = q)
    (hkey : keyOf h s.V (s.I i) = keyOf h s.V (s.I j)) : Agree old (h + h) p q := by
  obtain ⟨hple, hpv⟩ := hp.listed p ⟨i, hia, hib, hpi⟩
  obtain ⟨hqle, hqv⟩ := hp.listed q ⟨j, hja, hjb, hqj⟩
  rw [hpi, hqj, keyOf_natCast, keyOf_natCast] at hkey
  exact hp.numbered.agree_double hple hqle (hpv.trans hqv.symm) hkey

theorem number_spec {n : ℕ} (v : ℕ) {m : ℕ} : ∀ {k : ℕ} {s : Arrays},
    (∀ t, k ≤ t → t < k + m → t ≤ n ∧ 0 ≤ s.I t ∧ s.I t ≤ n) →
    ∃ s', number n v m k s = some s' ∧ s'.I = s.I ∧ (∀ q, Lists s.I k m q → s'.V q = v) ∧
      (∀ q, ¬Lists s.I k m q → s'.V q = s.V q) := by
  induction m with
  | zero =>
    intro k s _
    exact ⟨s, rfl, rfl, fun q hq => absurd hq not_lists_zero, fun q _ => rfl⟩
  | succ m ih =>
    intro k s hin
    obtain ⟨hkn, h0, hle⟩ := hin k (Nat.le_refl k) (by omega)
    obtain ⟨s', heq, hI, hnew, hkeep⟩ := ih (k := k + 1)
      (s := { s with V := Function.update s.V (s.I k).toNat v }) fun t ha hb =>
        hin t (by omega) (by omega)
    have hhead : ∀ q : ℕ, Lists s.I k 1 q ↔ q = (s.I k).toNat := by
      intro q
      constructor
      · rintro ⟨t, ha, hb, hq⟩
        obtain rfl : t = k := by omega
        rw [hq, Int.toNat_natCast]
      · rintro rfl
        exact ⟨k, Nat.le_refl k, by omega, by omega⟩
    refine ⟨s', ?_, hI, ?_, ?_⟩
    · rw [number, Arrays.getI, if_pos hkn]
      show (s.setV n (s.I k) v).bind (fun s => number n v m (k + 1) s) = _
      rw [Arrays.setV, if_pos ⟨h0, hle⟩]
      exact heq
    · intro q hq
      rw [Nat.add_comm m 1, lists_add] at hq
      by_cases htail : Lists s.I (k + 1) m q
      · exact hnew q htail
      · rw [hkeep q htail, (hhead q).mp (hq.resolve_right htail)]
        exact Function.update_self _ _ _
    · intro q hq
      rw [Nat.add_comm m 1, lists_add, not_or] at hq
      rw [hkeep q hq.2]
      refine Function.update_of_ne ?_ _ _
      intro hqk
      exact hq.1 ((hhead q).mpr hqk)

/-- **One group.** The positions of a part that has one key become a group. -/
theorem closeGroup_spec (hp : Pending old h s a m v) (hm : 0 < m)
    (hagree : ∀ p q, Lists s.I a m p → Lists s.I a m q → Agree old (h + h) p q) :
    ∃ s', closeGroup old.length a m s = some s' ∧ Divided old h s a m s' := by
  have hread := hp.readable
  obtain ⟨s₁, heq, hI, hnew, hkeep⟩ := number_spec (n := old.length) (a + m - 1) (m := m) (k := a)
    (s := s) fun t ha hb => by
      have ht := hread t ha hb
      omega
  rw [closeGroup, heq]
  show ∃ s', (if m = 1 then s₁.setI old.length a (-1) else some s₁) = _ ∧ _
  by_cases hone : m = 1
  · obtain ⟨han, -, -⟩ := hread a (Nat.le_refl a) (by omega)
    rw [if_pos hone, Arrays.setI, if_pos han, hI]
    refine ⟨_, rfl, hp.close hm hagree ?_ hnew hkeep⟩
    rw [if_pos hone]
  · rw [if_neg hone]
    refine ⟨s₁, rfl, hp.close hm hagree ?_ hnew hkeep⟩
    rw [if_neg hone, hI]

/-- The selection sort divides its part. -/
theorem selectionSplit_spec {fuel : ℕ} : ∀ {k len : ℕ} {s : Arrays}, len < fuel →
    Pending old h s k len v →
    ∃ s', selectionSplit old.length h (k + len) fuel k s = some s' ∧ Divided old h s k len s' := by
  induction fuel with
  | zero =>
    intro k len s hfuel
    omega
  | succ fuel ih =>
    intro k len s hfuel hp
    rw [selectionSplit]
    by_cases hlen : 0 < len
    · have hread := hp.readable
      rw [if_pos (by omega), key_eq hread (Nat.le_refl k) (by omega)]
      obtain ⟨j, x, s₁, hsel, hV, hre, hj1, hjle, hfront, hrest⟩ :=
        selectLoop_spec (n := old.length) (h := h) (x := keyOf h s.V (s.I k)) (s := s)
          (by omega : k + 1 + (k + len - (k + 1)) = k + len) hread (Nat.le_refl 1)
          (Nat.le_refl 1)
          (fun t ha hb => by rw [show t = k by omega])
          (fun t ha hb => by omega)
      rw [← hV] at hfront hrest
      obtain ⟨l, rfl⟩ : ∃ l, len = j + l := ⟨len - j, by omega⟩
      have hp₁ := hp.rearranged hre hV
      have hlt := hp₁.lt_of_front fun i i' hia hib hja hjb => by
        rw [hfront i hia hib]
        exact hrest i' hja (by omega)
      have hhead := hp₁.left hlt
      obtain ⟨s₂, hclose, hd⟩ := closeGroup_spec hhead hj1 <| by
        rintro p q ⟨i, hia, hib, hpi⟩ ⟨i', hja, hjb, hqj⟩
        refine hhead.agree_of_keys hia hib hja hjb hpi hqj ?_
        rw [hfront i hia hib, hfront i' hja hjb]
      obtain ⟨s₃, htail, hd'⟩ := ih (by omega) (hp₁.right hd)
      refine ⟨s₃, ?_, (hd.append hp₁ hd').of_rearranged hre hV⟩
      show (selectLoop old.length h k _ 1 _ 1 s).bind (fun r =>
        (closeGroup old.length k r.1 r.2).bind fun s =>
          selectionSplit old.length h (k + (j + l)) fuel (k + r.1) s) = _
      rw [hsel, Option.bind_some, hclose, Option.bind_some, ← htail, Nat.add_assoc]
    · obtain rfl : len = 0 := by omega
      rw [if_neg (by omega)]
      exact ⟨s, rfl, hp.divided_nil⟩

end OneGroup

/-! ## Long groups -/

section Partition

variable {n h x a jj kk stop : ℕ}

theorem countLoop_spec {s : Arrays} {m : ℕ} : ∀ {i c e : ℕ}, Readable n h s.I i (i + m) →
    countLoop n h x s m i c e =
      some (c + countIn (fun y => keyOf h s.V y < x) s.I i (i + m),
        e + countIn (fun y => keyOf h s.V y = x) s.I i (i + m)) := by
  induction m with
  | zero =>
    intro i c e _
    rw [countLoop, Nat.add_zero, countIn_zero, countIn_zero, Nat.add_zero, Nat.add_zero]
  | succ m ih =>
    intro i c e hread
    rw [countLoop, key_eq hread (Nat.le_refl i) (by omega)]
    show countLoop n h x s m (i + 1) (if keyOf h s.V (s.I i) < x then c + 1 else c)
      (if keyOf h s.V (s.I i) = x then e + 1 else e) = _
    rw [ih fun t ha hb => hread t (by omega) (by omega), countIn_split (Nat.le_add_right i 1)
      (by omega : i + 1 ≤ i + (m + 1)), countIn_split (Nat.le_add_right i 1)
      (by omega : i + 1 ≤ i + (m + 1)), countIn_succ _ _ (Nat.le_refl i),
      countIn_succ _ _ (Nat.le_refl i), countIn_zero, countIn_zero,
      show i + 1 + m = i + (m + 1) by omega]
    congr 2
    · split <;> omega
    · split <;> omega

/-- What the two loops have made of the part. -/
structure Parted (h x a jj kk stop : ℕ) (s s' : Arrays) : Prop where
  eqV : s'.V = s.V
  rearranged : Rearranged a stop s.I s'.I
  low : ∀ t, a ≤ t → t < jj → keyOf h s'.V (s'.I t) < x
  mid : ∀ t, jj ≤ t → t < kk → keyOf h s'.V (s'.I t) = x
  high : ∀ t, kk ≤ t → t < stop → x < keyOf h s'.V (s'.I t)

theorem Parted.of_rearranged {s s₁ s₂ : Arrays} (hp : Parted h x a jj kk stop s₁ s₂)
    (hr : Rearranged a stop s.I s₁.I) (hV : s₁.V = s.V) : Parted h x a jj kk stop s s₂ where
  eqV := hp.eqV.trans hV
  rearranged := hr.trans hp.rearranged
  low := hp.low
  mid := hp.mid
  high := hp.high

theorem highLoop_spec {fuel : ℕ} : ∀ {j k : ℕ} {s : Arrays}, Readable n h s.I a stop →
    Parting (keyOf h s.V) x a jj kk stop jj j k s.I → kk - (jj + j) + (stop - (kk + k)) < fuel →
    ∃ s', highLoop n h x jj kk fuel j k s = some s' ∧ Parted h x a jj kk stop s s' := by
  induction fuel with
  | zero =>
    intro j k s _ _ hfuel
    omega
  | succ fuel ih =>
    intro j k s hread hpart hfuel
    rw [highLoop]
    have haj := hpart.a_le
    have hjk := hpart.j_le
    by_cases hlt : jj + j < kk
    · have hks := hpart.k_le
      rw [if_pos hlt, key_eq hread (by omega) (by omega)]
      show ∃ s', (if keyOf h s.V (s.I (jj + j)) = x then highLoop n h x jj kk fuel (j + 1) k s
        else (s.swap n (jj + j) (kk + k)).bind fun s => highLoop n h x jj kk fuel j (k + 1) s) = _ ∧ _
      by_cases heq : keyOf h s.V (s.I (jj + j)) = x
      · rw [if_pos heq]
        exact ih hread (hpart.keepMid hlt heq) (by omega)
      · have hgt : x < keyOf h s.V (s.I (jj + j)) := by
          have hlow := hpart.not_low (t := jj + j) (by omega) (by omega)
          omega
        have hroom := hpart.high_lt (by omega) hlt hgt
        rw [if_neg heq, swap_eq (hread _ (by omega) (by omega)).1 (hread _ (by omega) hroom).1,
          Option.bind_some]
        have hre := rearranged_swapped (a := a) (b := stop) s.I (i := jj + j) (j := kk + k)
          ⟨by omega, by omega⟩ ⟨by omega, hroom⟩
        obtain ⟨s', hrun, hdone⟩ := ih (s := { s with I := swapped s.I (jj + j) (kk + k) })
          (hread.rearranged hre) (hpart.stepHigh (by omega) hlt (by omega) hgt) (by omega)
        exact ⟨s', hrun, hdone.of_rearranged hre rfl⟩
    · have hfull : jj + j = kk := by omega
      rw [if_neg hlt]
      refine ⟨s, rfl, rfl, Rearranged.refl _ _ _, hpart.low, ?_, ?_⟩
      · rw [← hfull]
        exact hpart.mid
      · intro t ha hb
        exact hpart.high_of_full hfull ha hb

theorem lowLoop_spec {fuel : ℕ} : ∀ {i j k : ℕ} {s : Arrays}, Readable n h s.I a stop →
    Parting (keyOf h s.V) x a jj kk stop i j k s.I →
    jj - i + (kk - (jj + j)) + (stop - (kk + k)) < fuel →
    ∃ j' k' s', lowLoop n h x jj kk fuel i j k s = some (j', k', s') ∧ s'.V = s.V ∧
      Rearranged a stop s.I s'.I ∧ Parting (keyOf h s.V) x a jj kk stop jj j' k' s'.I := by
  induction fuel with
  | zero =>
    intro i j k s _ _ hfuel
    omega
  | succ fuel ih =>
    intro i j k s hread hpart hfuel
    rw [lowLoop]
    have hai := hpart.le_i
    have hij := hpart.i_le
    have hjk := hpart.j_le
    have hks := hpart.k_le
    by_cases hlt : i < jj
    · rw [if_pos hlt, key_eq hread hai (by omega)]
      show ∃ j' k' s', (if keyOf h s.V (s.I i) < x then lowLoop n h x jj kk fuel (i + 1) j k s
        else if keyOf h s.V (s.I i) = x then
          (s.swap n i (jj + j)).bind fun s => lowLoop n h x jj kk fuel i (j + 1) k s
        else (s.swap n i (kk + k)).bind fun s => lowLoop n h x jj kk fuel i j (k + 1) s) = _ ∧ _
      have hin := (hread i hai (by omega)).1
      rcases Nat.lt_trichotomy (keyOf h s.V (s.I i)) x with hlow | heq | hgt
      · rw [if_pos hlow]
        exact ih hread (hpart.stepLow hlt hlow) (by omega)
      · have hroom := hpart.mid_lt hlt heq
        rw [if_neg (by omega), if_pos heq, swap_eq hin (hread _ (by omega) (by omega)).1,
          Option.bind_some]
        have hre := rearranged_swapped (a := a) (b := stop) s.I (i := i) (j := jj + j)
          ⟨by omega, by omega⟩ ⟨by omega, by omega⟩
        obtain ⟨j', k', s', hrun, hV, hre', hdone⟩ :=
          ih (s := { s with I := swapped s.I i (jj + j) }) (hread.rearranged hre)
            (hpart.stepMid hlt heq) (by omega)
        exact ⟨j', k', s', hrun, hV, hre.trans hre', hdone⟩
      · have hroom := hpart.high_lt hai (by omega) hgt
        rw [if_neg (by omega), if_neg (by omega), swap_eq hin (hread _ (by omega) hroom).1,
          Option.bind_some]
        have hre := rearranged_swapped (a := a) (b := stop) s.I (i := i) (j := kk + k)
          ⟨by omega, by omega⟩ ⟨by omega, hroom⟩
        obtain ⟨j', k', s', hrun, hV, hre', hdone⟩ :=
          ih (s := { s with I := swapped s.I i (kk + k) }) (hread.rearranged hre)
            (hpart.stepHigh (Nat.le_refl i) (by omega) (by omega) hgt) (by omega)
        exact ⟨j', k', s', hrun, hV, hre.trans hre', hdone⟩
    · obtain rfl : i = jj := by omega
      rw [if_neg hlt]
      exact ⟨j, k, s, rfl, rfl, Rearranged.refl _ _ _, hpart⟩

end Partition

/-! ## The split -/

section SplitSpec

variable {old : Bytes} {h : ℕ}

/-- The three parts, each divided in turn. -/
theorem divided_of_parted (f₁ f₂ f₃ : Arrays → Option Arrays) {s s₁ : Arrays}
    {a l₁ l₂ l₃ v x : ℕ} (hp : Pending old h s a (l₁ + (l₂ + l₃)) v)
    (hparted : Parted h x a (a + l₁) (a + l₁ + l₂) (a + (l₁ + (l₂ + l₃))) s s₁)
    (hlow : ∀ {s}, Pending old h s a l₁ v → ∃ s', f₁ s = some s' ∧ Divided old h s a l₁ s')
    (hmid : ∀ {s}, Pending old h s (a + l₁) l₂ v →
      (∀ p q, Lists s.I (a + l₁) l₂ p → Lists s.I (a + l₁) l₂ q → Agree old (h + h) p q) →
      ∃ s', f₂ s = some s' ∧ Divided old h s (a + l₁) l₂ s')
    (hhigh : ∀ {s}, Pending old h s (a + l₁ + l₂) l₃ v →
      ∃ s', f₃ s = some s' ∧ Divided old h s (a + l₁ + l₂) l₃ s') :
    ∃ s', (f₁ s₁).bind (fun s => (f₂ s).bind f₃) = some s' ∧
      Divided old h s a (l₁ + (l₂ + l₃)) s' := by
  have hp₁ := hp.rearranged hparted.rearranged hparted.eqV
  have hfirst := hp₁.left <| hp₁.lt_of_front fun i j hia hib hja hjb => by
    have hi := hparted.low i hia hib
    by_cases hj : j < a + l₁ + l₂
    · rw [hparted.mid j hja hj]
      exact hi
    · exact hi.trans (hparted.high j (by omega) hjb)
  obtain ⟨s₂, h₁, hd₁⟩ := hlow hfirst
  have hp₂ := hp₁.right hd₁
  -- what the keys said of the other two parts still holds of their positions
  have hI : ∀ i, a + l₁ ≤ i → i < a + l₁ + (l₂ + l₃) → s₂.I i = s₁.I i := by
    intro i ha _
    exact hd₁.keepsI i (by omega)
  have hagree : ∀ p q, Lists s₂.I (a + l₁) l₂ p → Lists s₂.I (a + l₁) l₂ q →
      Agree old (h + h) p q := by
    intro p q hpl hql
    rw [Lists.congr fun i ha hb => hI i ha (by omega)] at hpl hql
    obtain ⟨i, hia, hib, hpi⟩ := hpl
    obtain ⟨j, hja, hjb, hqj⟩ := hql
    refine hp₁.agree_of_keys (by omega) (by omega) (by omega) (by omega) hpi hqj ?_
    rw [hparted.mid i hia hib, hparted.mid j hja hjb]
  have hsecond := hp₂.left fun p q hpl hql => by
    rw [Lists.congr fun i ha hb => hI i ha (by omega)] at hpl
    rw [Lists.congr fun i ha hb => hI i (by omega) (by omega)] at hql
    obtain ⟨i, hia, hib, hpi⟩ := hpl
    obtain ⟨j, hja, hjb, hqj⟩ := hql
    refine hp₁.lt_of_keys (by omega) (by omega) (by omega) (by omega) hpi hqj ?_
    rw [hparted.mid i hia hib]
    exact hparted.high j hja (by omega)
  obtain ⟨s₃, h₂, hd₂⟩ := hmid hsecond hagree
  obtain ⟨s₄, h₃, hd₃⟩ := hhigh (hp₂.right hd₂)
  refine ⟨s₄, ?_, (hd₁.append hp₁ (hd₂.append hp₂ hd₃)).of_rearranged hparted.rearranged hparted.eqV⟩
  rw [h₁, Option.bind_some, h₂, Option.bind_some, h₃]

theorem split_part {f : ℕ → ℕ → Arrays → Option Arrays} {s : Arrays} {a m k len v : ℕ}
    (hf : Pending old h s a len v → ∃ s', f a len s = some s' ∧ Divided old h s a len s')
    (hc : m > k ↔ 0 < len) (hsub : m - k = len) (hp : Pending old h s a len v) :
    ∃ s', (if m > k then f a (m - k) s else some s) = some s' ∧ Divided old h s a len s' := by
  by_cases hpos : m > k
  · rw [if_pos hpos, hsub]
    exact hf hp
  · obtain rfl : len = 0 := by omega
    rw [if_neg hpos]
    exact ⟨s, rfl, hp.divided_nil⟩

/-- **`split` divides its part.** It ends, and no access is outside the arrays. -/
theorem split_spec {fuel : ℕ} : ∀ {a len v : ℕ} {s : Arrays}, len < fuel →
    Pending old h s a len v →
    ∃ s', split old.length h fuel a len s = some s' ∧ Divided old h s a len s' := by
  induction fuel with
  | zero =>
    intro a len v s hfuel
    omega
  | succ fuel ih =>
    intro a len v s hfuel hp
    rw [split]
    by_cases hshort : len < 16
    · rw [if_pos hshort]
      exact selectionSplit_spec (Nat.lt_succ_self len) hp
    · have hread := hp.readable
      obtain ⟨x, hx⟩ : ∃ x, keyOf h s.V (s.I (a + len / 2)) = x := ⟨_, rfl⟩
      rw [if_neg hshort, key_eq hread (Nat.le_add_right a _) (by omega), hx]
      obtain ⟨l₁, hl₁⟩ : ∃ l₁, countIn (fun y => keyOf h s.V y < x) s.I a (a + len) = l₁ := ⟨_, rfl⟩
      obtain ⟨l₂, hl₂⟩ : ∃ l₂, countIn (fun y => keyOf h s.V y = x) s.I a (a + len) = l₂ := ⟨_, rfl⟩
      have hthree := countIn_three (keyOf h s.V) x s.I (Nat.le_add_right a len)
      -- the entry the key was taken from is one of those equal to it
      have hpos : 0 < l₂ := by
        rw [← hl₂]
        exact countIn_pos (Nat.le_add_right a _) (by omega : a + len / 2 < a + len) hx
      obtain ⟨l₃, rfl⟩ : ∃ l₃, len = l₁ + (l₂ + l₃) := ⟨len - (l₁ + l₂), by omega⟩
      have hstart := parting_start (keyOf h s.V) x s.I (Nat.le_add_right a (l₁ + (l₂ + l₃)))
        (congrArg (a + ·) hl₁.symm) (congrArg (a + l₁ + ·) hl₂.symm)
      obtain ⟨j, k, s₀, hlow, hV₀, hre₀, hpart⟩ :=
        lowLoop_spec hread hstart (by omega : a + l₁ - a + (a + l₁ + l₂ - (a + l₁ + 0)) +
          (a + (l₁ + (l₂ + l₃)) - (a + l₁ + l₂ + 0)) < l₁ + (l₂ + l₃) + 1)
      rw [← hV₀] at hpart
      have hbound : a + l₁ + l₂ - (a + l₁ + j) + (a + (l₁ + (l₂ + l₃)) - (a + l₁ + l₂ + k)) <
          l₁ + (l₂ + l₃) + 1 := by
        have hjle := hpart.j_le
        have hkle := hpart.k_le
        omega
      obtain ⟨s₁, hhigh, hdone⟩ := highLoop_spec (hread.rearranged hre₀) hpart hbound
      have hparted := hdone.of_rearranged hre₀ hV₀
      obtain ⟨s', hrun, hd⟩ := divided_of_parted
        (fun s => if a + l₁ > a then split old.length h fuel a (a + l₁ - a) s else some s)
        (closeGroup old.length (a + l₁) (a + l₁ + l₂ - (a + l₁)))
        (fun s => if a + (l₁ + (l₂ + l₃)) > a + l₁ + l₂ then
          split old.length h fuel (a + l₁ + l₂) (a + (l₁ + (l₂ + l₃)) - (a + l₁ + l₂)) s else some s)
        hp hparted
        (fun hp₁ => split_part (ih (by omega)) (by omega) (by omega) hp₁)
        (fun hp₂ hagree => by
          rw [show a + l₁ + l₂ - (a + l₁) = l₂ by omega]
          exact closeGroup_spec hp₂ hpos hagree)
        (fun hp₃ => split_part (ih (by omega)) (by omega) (by omega) hp₃)
      refine ⟨s', ?_, hd⟩
      have hcount : countLoop old.length h x s (l₁ + (l₂ + l₃)) a 0 0 = some (l₁, l₂) := by
        rw [countLoop_spec hread, hl₁, hl₂, Nat.zero_add, Nat.zero_add]
      show (countLoop old.length h x s (l₁ + (l₂ + l₃)) a 0 0).bind _ = _
      rw [hcount]
      show (lowLoop old.length h x (l₁ + a) (l₂ + (l₁ + a)) _ a 0 0 s).bind _ = _
      rw [Nat.add_comm l₁ a, Nat.add_comm l₂ (a + l₁), hlow]
      show (highLoop old.length h x (a + l₁) (a + l₁ + l₂) _ j k s₀).bind _ = _
      rw [hhigh, ← hrun]
      show (if a + l₁ > a then (split old.length h fuel a (a + l₁ - a) s₁).bind _ else _) = _
      by_cases hl : a + l₁ > a
      · rw [if_pos hl, if_pos hl]
        rfl
      · rw [if_neg hl, if_neg hl]
        rfl

end SplitSpec

end OpenRecovery.ImgDiff
