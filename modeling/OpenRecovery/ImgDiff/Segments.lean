import Mathlib.Data.List.Range
import Mathlib.GroupTheory.Perm.Basic
import Mathlib.Order.Interval.Finset.Nat

/-!
# Rearranging a part of an array

An array is a function of its index. `Rearranged` relates two arrays that hold the same entries
between two indices, in some order, and are the same elsewhere: what a program does to an array that
only swaps entries there. A count of entries does not see the difference, and as lists the two parts
are permutations of each other.
-/

set_option autoImplicit false

namespace OpenRecovery.Segments

variable {α : Type*}

/-- The entries of `g` between two indices are those of `f`, in some order. -/
def Rearranged (a b : ℕ) (f g : ℕ → α) : Prop :=
  ∃ σ : Equiv.Perm ℕ, (∀ i, ¬(a ≤ i ∧ i < b) → σ i = i) ∧ g = f ∘ σ

/-- The number of entries with a property. -/
def countIn (p : α → Prop) [DecidablePred p] (f : ℕ → α) (a b : ℕ) : ℕ :=
  ((Finset.Ico a b).filter fun i => p (f i)).card

/-- The entries as a list. -/
def segment (f : ℕ → α) (a n : ℕ) : List α := (List.range' a n).map f

/-- Two entries change places. -/
def swapped (f : ℕ → α) (i j : ℕ) : ℕ → α := Function.update (Function.update f i (f j)) j (f i)

section Rearranged

variable {a b i j : ℕ} {f g k : ℕ → α}

theorem Rearranged.refl (a b : ℕ) (f : ℕ → α) : Rearranged a b f f := ⟨1, fun _ _ => rfl, rfl⟩

/-- One rearrangement after another. -/
theorem Rearranged.trans (h : Rearranged a b f g) (h' : Rearranged a b g k) : Rearranged a b f k := by
  obtain ⟨σ, hσ, rfl⟩ := h
  obtain ⟨τ, hτ, rfl⟩ := h'
  refine ⟨σ * τ, fun i hi => ?_, rfl⟩
  rw [Equiv.Perm.mul_apply, hτ i hi, hσ i hi]

/-- Swapping two entries is a permutation of the indices. -/
theorem swapped_eq (f : ℕ → α) (i j : ℕ) : swapped f i j = f ∘ Equiv.swap i j := by
  funext m
  rw [swapped, Function.comp_apply]
  by_cases hj : m = j
  · rw [hj, Function.update_self, Equiv.swap_apply_right]
  · rw [Function.update_of_ne hj]
    by_cases hi : m = i
    · rw [hi, Function.update_self, Equiv.swap_apply_left]
    · rw [Function.update_of_ne hi, Equiv.swap_apply_of_ne_of_ne hi hj]

@[simp] theorem swapped_right (f : ℕ → α) (i j : ℕ) : swapped f i j j = f i := Function.update_self _ _ _

@[simp] theorem swapped_left (f : ℕ → α) (i j : ℕ) : swapped f i j i = f j := by
  rw [swapped_eq, Function.comp_apply, Equiv.swap_apply_left]

theorem swapped_of_ne {m : ℕ} (f : ℕ → α) (hi : m ≠ i) (hj : m ≠ j) : swapped f i j m = f m := by
  rw [swapped_eq, Function.comp_apply, Equiv.swap_apply_of_ne_of_ne hi hj]

/-- Swapping two entries of a range rearranges it. -/
theorem rearranged_swapped (f : ℕ → α) (hi : a ≤ i ∧ i < b) (hj : a ≤ j ∧ j < b) :
    Rearranged a b f (swapped f i j) := by
  refine ⟨Equiv.swap i j, fun m hm => ?_, swapped_eq f i j⟩
  refine Equiv.swap_apply_of_ne_of_ne ?_ ?_
  · rintro rfl
    exact hm hi
  · rintro rfl
    exact hm hj

/-- Entries outside the range stay. -/
theorem Rearranged.outside (h : Rearranged a b f g) (hi : ¬(a ≤ i ∧ i < b)) : g i = f i := by
  obtain ⟨σ, hσ, rfl⟩ := h
  rw [Function.comp_apply, hσ i hi]

/-- Such a permutation keeps the part. -/
theorem mem_of_fixes {σ : Equiv.Perm ℕ} (hσ : ∀ i, ¬(a ≤ i ∧ i < b) → σ i = i) :
    (a ≤ σ i ∧ σ i < b) ↔ (a ≤ i ∧ i < b) := by
  constructor
  · intro hin
    by_contra hi
    rw [hσ i hi] at hin
    exact hi hin
  · intro hi
    by_contra hout
    -- what is outside stays where it is, so `i` would be outside as well
    have heq : σ i = i := σ.injective (hσ (σ i) hout)
    rw [heq] at hout
    exact hout hi

/-- Entries of the range come from the range. -/
theorem Rearranged.exists_index (h : Rearranged a b f g) (hi : a ≤ i ∧ i < b) :
    ∃ m, a ≤ m ∧ m < b ∧ g i = f m := by
  obtain ⟨σ, hσ, rfl⟩ := h
  obtain ⟨ha, hb⟩ := (mem_of_fixes hσ).mpr hi
  exact ⟨σ i, ha, hb, rfl⟩

/-- What holds of all entries still does. -/
theorem Rearranged.forall (h : Rearranged a b f g) {p : α → Prop}
    (hp : ∀ i, a ≤ i → i < b → p (f i)) (hia : a ≤ i) (hib : i < b) : p (g i) := by
  obtain ⟨m, ha, hb, heq⟩ := h.exists_index ⟨hia, hib⟩
  rw [heq]
  exact hp m ha hb

/-- As many entries have a property as before. -/
theorem Rearranged.count (h : Rearranged a b f g) (p : α → Prop) [DecidablePred p] :
    countIn p g a b = countIn p f a b := by
  obtain ⟨σ, hσ, rfl⟩ := h
  refine Finset.card_equiv σ fun i => ?_
  rw [Finset.mem_filter, Finset.mem_filter, Finset.mem_Ico, Finset.mem_Ico, mem_of_fixes hσ]
  rfl

/-- The range is a permutation of what it was. -/
theorem Rearranged.perm {n : ℕ} (h : Rearranged a (a + n) f g) :
    (segment g a n).Perm (segment f a n) := by
  obtain ⟨σ, hσ, rfl⟩ := h
  have hperm : ((List.range' a n).map σ).Perm (List.range' a n) := by
    refine (List.perm_ext_iff_of_nodup (List.Nodup.map σ.injective List.nodup_range') List.nodup_range').mpr ?_
    intro m
    rw [List.mem_map, List.mem_range'_1]
    constructor
    · rintro ⟨i, hi, rfl⟩
      rw [List.mem_range'_1] at hi
      exact (mem_of_fixes hσ).mpr hi
    · intro hm
      refine ⟨σ.symm m, ?_, σ.apply_symm_apply m⟩
      rw [List.mem_range'_1]
      refine (mem_of_fixes hσ).mp ?_
      rwa [σ.apply_symm_apply]
  have hmap := hperm.map f
  rwa [List.map_map] at hmap

end Rearranged

/-! ## Counts -/

section Count

variable {p : α → Prop} [DecidablePred p] {f : ℕ → α} {a b c : ℕ}

/-- Counting in two pieces. -/
theorem countIn_split (hab : a ≤ b) (hbc : b ≤ c) :
    countIn p f a c = countIn p f a b + countIn p f b c := by
  rw [countIn, ← Finset.Ico_union_Ico_eq_Ico hab hbc, Finset.filter_union,
    Finset.card_union_of_disjoint]
  · rfl
  · exact Finset.disjoint_filter_filter (Finset.Ico_disjoint_Ico_consecutive a b c)

/-- All entries have the property. -/
theorem countIn_eq_length (h : ∀ i, a ≤ i → i < b → p (f i)) : countIn p f a b = b - a := by
  rw [countIn, Finset.filter_true_of_mem, Nat.card_Ico]
  intro i hi
  rw [Finset.mem_Ico] at hi
  exact h i hi.1 hi.2

/-- One entry has the property. -/
theorem countIn_pos {i : ℕ} (hia : a ≤ i) (hib : i < b) (h : p (f i)) : 0 < countIn p f a b :=
  Finset.card_pos.mpr ⟨i, Finset.mem_filter.mpr ⟨Finset.mem_Ico.mpr ⟨hia, hib⟩, h⟩⟩

/-- No entry has the property. -/
theorem not_of_countIn_eq_zero (h : countIn p f a b = 0) {i : ℕ} (hia : a ≤ i) (hib : i < b) :
    ¬ p (f i) := by
  intro hp
  exact Nat.ne_of_gt (countIn_pos hia hib hp) h

theorem countIn_zero (p : α → Prop) [DecidablePred p] (f : ℕ → α) (a : ℕ) : countIn p f a a = 0 := by
  rw [countIn, Finset.Ico_self, Finset.filter_empty, Finset.card_empty]

/-- Counting one entry more. -/
theorem countIn_succ (p : α → Prop) [DecidablePred p] (f : ℕ → α) (hab : a ≤ b) :
    countIn p f a (b + 1) = countIn p f a b + if p (f b) then 1 else 0 := by
  rw [countIn_split hab (Nat.le_succ b)]
  congr 1
  rw [countIn, Nat.Ico_succ_singleton, Finset.filter_singleton]
  split <;> rfl

end Count

/-! ## Segments -/

section Segment

variable {f : ℕ → α} {a n : ℕ}

/-- The entries of a segment. -/
theorem mem_segment {x : α} : x ∈ segment f a n ↔ ∃ i, a ≤ i ∧ i < a + n ∧ f i = x := by
  rw [segment, List.mem_map]
  constructor
  · rintro ⟨i, hi, rfl⟩
    rw [List.mem_range'_1] at hi
    exact ⟨i, hi.1, hi.2, rfl⟩
  · rintro ⟨i, ha, hb, rfl⟩
    exact ⟨i, List.mem_range'_1.mpr ⟨ha, hb⟩, rfl⟩

end Segment

/-! ## Parting a segment in three -/

section Parting

variable {β : Type*} [LinearOrder β]

/-- A three-way partition on its way. The segment from `a` to `stop` has room for its entries below
`x` up to `jj`, for those equal to it up to `kk` and for the others behind. The first `i - a`, `j`
and `k` places of the three parts are filled. -/
structure Parting (κ : α → β) (x : β) (a jj kk stop i j k : ℕ) (f : ℕ → α) : Prop where
  low : ∀ t, a ≤ t → t < i → κ (f t) < x
  mid : ∀ t, jj ≤ t → t < jj + j → κ (f t) = x
  high : ∀ t, kk ≤ t → t < kk + k → x < κ (f t)
  le_i : a ≤ i
  i_le : i ≤ jj
  j_le : jj + j ≤ kk
  k_le : kk + k ≤ stop
  countLow : countIn (fun e => κ e < x) f a stop = jj - a
  countMid : countIn (fun e => κ e = x) f a stop = kk - jj
  countHigh : countIn (fun e => x < κ e) f a stop = stop - kk

variable {κ : α → β} {x : β} {a jj kk stop i j k : ℕ} {f g : ℕ → α}

/-- Each key is smaller than, equal to, or larger than the pivot. -/
theorem countIn_three (κ : α → β) (x : β) (f : ℕ → α) {b : ℕ} (hab : a ≤ b) :
    countIn (fun e => κ e < x) f a b + countIn (fun e => κ e = x) f a b +
      countIn (fun e => x < κ e) f a b = b - a := by
  induction b, hab using Nat.le_induction with
  | base => rw [countIn_zero, countIn_zero, countIn_zero, Nat.sub_self]
  | succ b hab ih =>
    rw [countIn_succ _ _ hab, countIn_succ _ _ hab, countIn_succ _ _ hab]
    rcases lt_trichotomy (κ (f b)) x with hlt | heq | hgt
    · rw [if_pos hlt, if_neg (ne_of_lt hlt), if_neg (lt_asymm hlt)]
      omega
    · rw [if_neg (not_lt_of_ge heq.ge), if_pos heq, if_neg (not_lt_of_ge heq.le)]
      omega
    · rw [if_neg (lt_asymm hgt), if_neg (ne_of_gt hgt), if_pos hgt]
      omega

/-- With the counts in hand nothing is filled yet. -/
theorem parting_start (κ : α → β) (x : β) (f : ℕ → α) (has : a ≤ stop)
    (hjj : jj = a + countIn (fun e => κ e < x) f a stop)
    (hkk : kk = jj + countIn (fun e => κ e = x) f a stop) :
    Parting κ x a jj kk stop a 0 0 f := by
  have hthree := countIn_three κ x f has
  constructor
  · intro t ha hb
    omega
  · intro t ha hb
    omega
  · intro t ha hb
    omega
  all_goals omega

namespace Parting

/-- A rearrangement keeps the counts. -/
theorem of_rearranged {i' j' k' : ℕ} (h : Parting κ x a jj kk stop i j k f)
    (hr : Rearranged a stop f g) (hlow : ∀ t, a ≤ t → t < i' → κ (g t) < x)
    (hmid : ∀ t, jj ≤ t → t < jj + j' → κ (g t) = x)
    (hhigh : ∀ t, kk ≤ t → t < kk + k' → x < κ (g t)) (hai : a ≤ i') (hi : i' ≤ jj)
    (hj : jj + j' ≤ kk) (hk : kk + k' ≤ stop) : Parting κ x a jj kk stop i' j' k' g where
  low := hlow
  mid := hmid
  high := hhigh
  le_i := hai
  i_le := hi
  j_le := hj
  k_le := hk
  countLow := (hr.count _).trans h.countLow
  countMid := (hr.count _).trans h.countMid
  countHigh := (hr.count _).trans h.countHigh

/-- The middle begins in the range. -/
theorem a_le (h : Parting κ x a jj kk stop i j k f) : a ≤ jj := Nat.le_trans h.le_i h.i_le

/-- An entry equal to `x` that is not in its part: there is room for it. -/
theorem mid_lt (h : Parting κ x a jj kk stop i j k f) (hi : i < jj) (hx : κ (f i) = x) :
    jj + j < kk := by
  have h1 := h.a_le
  have h2 := h.j_le
  have h3 := h.k_le
  have hcount := h.countMid
  rw [countIn_split h1 (by omega : jj ≤ stop),
    countIn_split (Nat.le_add_right jj j) (by omega : jj + j ≤ stop)] at hcount
  have hfilled : countIn (fun e => κ e = x) f jj (jj + j) = jj + j - jj := countIn_eq_length h.mid
  have hpos := countIn_pos (p := fun e => κ e = x) h.le_i hi hx
  omega

/-- An entry above `x` that is not in its part: there is room for it. -/
theorem high_lt {r : ℕ} (h : Parting κ x a jj kk stop i j k f) (har : a ≤ r) (hr : r < kk)
    (hx : x < κ (f r)) : kk + k < stop := by
  have h1 := h.a_le
  have h2 := h.j_le
  have h3 := h.k_le
  have hcount := h.countHigh
  rw [countIn_split (by omega : a ≤ kk) (by omega : kk ≤ stop),
    countIn_split (Nat.le_add_right kk k) h3] at hcount
  have hfilled : countIn (fun e => x < κ e) f kk (kk + k) = kk + k - kk := countIn_eq_length h.high
  have hpos := countIn_pos (p := fun e => x < κ e) har hr hx
  omega

/-- A small entry stays in the low part. -/
theorem stepLow (h : Parting κ x a jj kk stop i j k f) (hi : i < jj) (hx : κ (f i) < x) :
    Parting κ x a jj kk stop (i + 1) j k f := by
  refine h.of_rearranged (Rearranged.refl a stop f) ?_ h.mid h.high (Nat.le_succ_of_le h.le_i) hi
    h.j_le h.k_le
  intro t ha hb
  rcases Nat.lt_succ_iff_lt_or_eq.mp hb with hlt | rfl
  · exact h.low t ha hlt
  · exact hx

/-- An entry equal to the pivot goes to the end of the middle. -/
theorem stepMid (h : Parting κ x a jj kk stop i j k f) (hi : i < jj) (hx : κ (f i) = x) :
    Parting κ x a jj kk stop i (j + 1) k (swapped f i (jj + j)) := by
  have hroom := h.mid_lt hi hx
  have hai := h.le_i
  have hk := h.k_le
  refine h.of_rearranged (rearranged_swapped f ⟨hai, by omega⟩ ⟨by omega, by omega⟩) ?_ ?_ ?_ hai
    h.i_le (by omega) hk
  · intro t ha hb
    rw [swapped_of_ne f (by omega) (by omega)]
    exact h.low t ha hb
  · intro t ha hb
    by_cases ht : t = jj + j
    · rw [ht, swapped_right, hx]
    · rw [swapped_of_ne f (by omega) ht]
      exact h.mid t ha (by omega)
  · intro t ha hb
    rw [swapped_of_ne f (by omega) (by omega)]
    exact h.high t ha hb

/-- A large entry goes to the end of the high part. -/
theorem stepHigh {r : ℕ} (h : Parting κ x a jj kk stop i j k f) (hir : i ≤ r) (hr : r < kk)
    (hout : ¬(jj ≤ r ∧ r < jj + j)) (hx : x < κ (f r)) :
    Parting κ x a jj kk stop i j (k + 1) (swapped f r (kk + k)) := by
  have hai := h.le_i
  have hroom := h.high_lt (Nat.le_trans hai hir) hr hx
  have hj := h.j_le
  have hi := h.i_le
  refine h.of_rearranged (rearranged_swapped f ⟨by omega, by omega⟩ ⟨by omega, hroom⟩) ?_ ?_ ?_ hai
    hi hj hroom
  · intro t ha hb
    rw [swapped_of_ne f (by omega) (by omega)]
    exact h.low t ha hb
  · intro t ha hb
    rw [swapped_of_ne f (by omega) (by omega)]
    exact h.mid t ha hb
  · intro t ha hb
    by_cases ht : t = kk + k
    · rw [ht, swapped_right]
      exact hx
    · rw [swapped_of_ne f (by omega) ht]
      exact h.high t ha (by omega)

/-- Once the first part is full, no small entry is left. -/
theorem not_low {t : ℕ} (h : Parting κ x a jj kk stop jj j k f) (hjt : jj ≤ t) (hts : t < stop) :
    ¬κ (f t) < x := by
  have hcount := h.countLow
  rw [countIn_split h.le_i (by omega : jj ≤ stop)] at hcount
  have hfilled : countIn (fun e => κ e < x) f a jj = jj - a := countIn_eq_length h.low
  have hzero : countIn (fun e => κ e < x) f jj stop = 0 := by omega
  exact not_of_countIn_eq_zero hzero hjt hts

/-- An entry equal to the pivot that is already in the middle stays. -/
theorem keepMid (h : Parting κ x a jj kk stop jj j k f) (hj : jj + j < kk)
    (hx : κ (f (jj + j)) = x) : Parting κ x a jj kk stop jj (j + 1) k f := by
  refine h.of_rearranged (Rearranged.refl a stop f) h.low ?_ h.high h.le_i h.i_le hj h.k_le
  intro t ha hb
  rcases Nat.lt_succ_iff_lt_or_eq.mp hb with hlt | rfl
  · exact h.mid t ha hlt
  · exact hx

/-- **Done.** With the first two parts full, what is left is above `x`. -/
theorem high_of_full {t : ℕ} (h : Parting κ x a jj kk stop jj j k f) (hfull : jj + j = kk)
    (hkt : kk ≤ t) (hts : t < stop) : x < κ (f t) := by
  have h1 := h.a_le
  have h2 := h.j_le
  have hcount := h.countMid
  rw [countIn_split (by omega : a ≤ kk) (by omega : kk ≤ stop),
    countIn_split h1 (by omega : jj ≤ kk)] at hcount
  have hfilled : countIn (fun e => κ e = x) f jj kk = kk - jj := by
    rw [← hfull]
    exact countIn_eq_length h.mid
  have hzero : countIn (fun e => κ e = x) f kk stop = 0 := by omega
  have hne : ¬κ (f t) = x := not_of_countIn_eq_zero hzero hkt hts
  have hnlt := h.not_low (t := t) (by omega) hts
  exact lt_of_le_of_ne (not_lt.mp hnlt) (Ne.symm hne)

end Parting

end Parting

end OpenRecovery.Segments
