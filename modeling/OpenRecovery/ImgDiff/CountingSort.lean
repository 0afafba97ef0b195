import Mathlib.Data.List.Basic
import Mathlib.Data.Nat.Notation

/-!
# Places of a counting sort

A list of keys, sorted by counting: the entry at position `p` goes behind all entries of smaller
keys and behind the equal ones before it. The places of different positions are different, and the
places below the next key are all taken.
-/

set_option autoImplicit false

namespace OpenRecovery.CountingSort

/-- The number of keys below `c`. -/
def below (l : List ℕ) (c : ℕ) : ℕ := l.countP (· < c)

/-- The place of position `p`, which has key `c`. -/
def place (l : List ℕ) (c p : ℕ) : ℕ := below l c + (l.take p).count c

variable {l : List ℕ} {c d p q : ℕ}

@[simp] theorem below_zero (l : List ℕ) : below l 0 = 0 := by
  rw [below, List.countP_eq_zero]
  intro k _
  simp

/-- The elements below the next value. -/
theorem below_succ (l : List ℕ) (c : ℕ) : below l (c + 1) = below l c + l.count c := by
  induction l with
  | nil => rfl
  | cons k l ih =>
    rw [below, below, List.countP_cons, List.countP_cons, List.count_cons, ← below, ← below, ih]
    rcases Nat.lt_trichotomy k c with hlt | rfl | hgt
    · simp [hlt, Nat.lt_succ_of_lt hlt, Nat.ne_of_lt hlt]
      omega
    · simp
      omega
    · simp [Nat.not_lt_of_gt hgt, Nat.not_lt_of_ge (Nat.succ_le_of_lt hgt), Nat.ne_of_gt hgt]

/-- More elements are below a larger value. -/
theorem below_mono (h : c ≤ d) : below l c ≤ below l d := by
  refine List.countP_mono_left fun k _ hk => ?_
  simp only [decide_eq_true_eq] at hk ⊢
  omega

theorem below_le_length (l : List ℕ) (c : ℕ) : below l c ≤ l.length := List.countP_le_length

/-- One more of the value at the place where it stands. -/
theorem count_take_succ (hp : p < l.length) (hc : l[p] = c) :
    (l.take (p + 1)).count c = (l.take p).count c + 1 := by
  rw [List.take_succ_eq_append_getElem hp, List.count_append, hc, List.count_singleton_self]

/-- No more of another value. -/
theorem count_take_succ_of_ne (hp : p < l.length) (hc : l[p] ≠ c) :
    (l.take (p + 1)).count c = (l.take p).count c := by
  rw [List.take_succ_eq_append_getElem hp, List.count_append, List.count_singleton,
    if_neg (by simpa using hc), Nat.add_zero]

/-- A longer part has no fewer. -/
theorem count_take_mono (h : p ≤ q) : (l.take p).count c ≤ (l.take q).count c :=
  List.Sublist.count_le c (List.take_sublist_take_left h)

/-- The place of an element lies before those of the next value. -/
theorem place_lt (hp : p < l.length) (hc : l[p] = c) : place l c p < below l (c + 1) := by
  have hle : (l.take (p + 1)).count c ≤ l.count c :=
    List.Sublist.count_le c (List.take_sublist _ _)
  rw [count_take_succ hp hc] at hle
  rw [below_succ, place]
  omega

/-- And not before those of its own. -/
theorem below_le_place (l : List ℕ) (c p : ℕ) : below l c ≤ place l c p := Nat.le_add_right _ _

/-- A key that occurs counts. -/
theorem below_lt_below_succ (hp : p < l.length) (hc : l[p] = c) : below l c < below l (c + 1) :=
  Nat.lt_of_le_of_lt (below_le_place l c p) (place_lt hp hc)

/-- **No place is taken twice.** -/
theorem place_injective (hp : p < l.length) (hq : q < l.length)
    (heq : place l l[p] p = place l l[q] q) : p = q := by
  have hpb := place_lt hp rfl
  have hqb := place_lt hq rfl
  have hpa := below_le_place l l[p] p
  have hqa := below_le_place l l[q] q
  rcases Nat.lt_trichotomy l[p] l[q] with hlt | hkey | hgt
  · have hmono : below l (l[p] + 1) ≤ below l l[q] := below_mono hlt
    omega
  · rw [place, place, hkey] at heq
    rcases Nat.lt_trichotomy p q with hpq | hpq | hpq
    · have hmono : (l.take (p + 1)).count l[q] ≤ (l.take q).count l[q] := count_take_mono hpq
      rw [count_take_succ hp hkey] at hmono
      omega
    · exact hpq
    · have hmono : (l.take (q + 1)).count l[q] ≤ (l.take p).count l[q] := count_take_mono hpq
      rw [count_take_succ hq rfl] at hmono
      omega
  · have hmono : below l (l[q] + 1) ≤ below l l[p] := below_mono hgt
    omega

/-- Every place of a value is that of one of its elements. -/
theorem exists_count_take {l : List ℕ} {j : ℕ} (h : j < l.count c) :
    ∃ p, ∃ hp : p < l.length, l[p] = c ∧ (l.take p).count c = j := by
  induction l generalizing j with
  | nil => exact absurd h (Nat.not_lt_zero j)
  | cons k l ih =>
    by_cases hk : k = c
    · subst hk
      cases j with
      | zero => exact ⟨0, Nat.succ_pos _, rfl, rfl⟩
      | succ j =>
        rw [List.count_cons_self] at h
        obtain ⟨p, hp, hc, hj⟩ := ih (Nat.lt_of_succ_lt_succ h)
        refine ⟨p + 1, Nat.succ_lt_succ hp, hc, ?_⟩
        rw [List.take_succ_cons, List.count_cons_self, hj]
    · rw [List.count_cons_of_ne hk] at h
      obtain ⟨p, hp, hc, hj⟩ := ih h
      refine ⟨p + 1, Nat.succ_lt_succ hp, hc, ?_⟩
      rw [List.take_succ_cons, List.count_cons_of_ne hk, hj]

/-- **Every place is taken.** -/
theorem exists_place {t : ℕ} (ha : below l c ≤ t) (hb : t < below l (c + 1)) :
    ∃ p, ∃ hp : p < l.length, l[p] = c ∧ place l c p = t := by
  rw [below_succ] at hb
  obtain ⟨p, hp, hc, hj⟩ := exists_count_take (l := l) (c := c) (j := t - below l c) (by omega)
  refine ⟨p, hp, hc, ?_⟩
  rw [place, hj]
  omega

end OpenRecovery.CountingSort
