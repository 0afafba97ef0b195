import Mathlib.Data.Int.Basic
import Mathlib.Data.List.Basic
import Mathlib.Order.Basic

/-!
# Insertion into a sorted array

A binary search over the closed interval from `low` to `high` with an early exit, and the `memmove`
that makes room for an element. The slots of the array behind the elements hold nothing that may be
read: they are `none`.

The element that is looked for is given by `diff`, whose sign says on which side of it an element
belongs; `Ascending` says that the signs ascend. `search_eq` is what a search gives, whatever the
interval is that it has come down to, and `memmove_eq` makes room there for the element.
-/

set_option autoImplicit false

namespace OpenRecovery.Storage

variable {α : Type}

/-- `xs[i]`, `none` outside the array and for a slot without an element. -/
def slotAt (xs : List (Option α)) (i : Int) : Option α :=
  if 0 ≤ i then (xs[i.toNat]?).join else none

/-- The loop of the search: the last value of `high`, or `none` for a read of something that is no
element, and for more than the given number of steps. -/
def binarySearch (diff : α → Int) (xs : List (Option α)) : Nat → Int → Int → Option Int
  | 0, _, _ => none
  | fuel + 1, low, high =>
      if low ≤ high then do
        let mid := low + (high - low) / 2
        let x ← slotAt xs mid
        if diff x < 0 then binarySearch diff xs fuel (mid + 1) high
        else if 0 < diff x then binarySearch diff xs fuel low (mid - 1)
        else return mid
      else some high

/-- `memmove(xs + dst, xs + src, n)`. -/
def memmove (xs : List α) (dst src n : Nat) : Option (List α) :=
  if dst + n ≤ xs.length ∧ src + n ≤ xs.length then
    some (xs.take dst ++ (xs.drop src).take n ++ xs.drop (dst + n))
  else none

/-- The elements on the one side come before those that are equal, and then come the others. -/
def Ascending (diff : α → Int) (l : List α) : Prop :=
  l.Pairwise fun a b => (diff a).sign ≤ (diff b).sign

/-- The place for the element: it belongs neither before an element in front of the place nor behind
one after it. -/
structure Place (diff : α → Int) (l : List α) (high : Int) : Prop where
  lower : -1 ≤ high
  upper : high < l.length
  before : ∀ i : Nat, (i : Int) ≤ high → ∀ x ∈ l[i]?, diff x ≤ 0
  after : ∀ i : Nat, high < (i : Int) → ∀ x ∈ l[i]?, 0 ≤ diff x

section Search

variable {diff : α → Int} {l : List α}

theorem slotAt_map (rest : List (Option α)) {i : Nat} (hi : i < l.length) :
    slotAt (l.map some ++ rest) i = some l[i] := by
  rw [slotAt, if_pos (Int.natCast_nonneg i), Int.toNat_natCast,
    List.getElem?_append_left (by simpa using hi), List.getElem?_map,
    List.getElem?_eq_getElem hi]
  rfl

theorem Ascending.sign_le (h : Ascending diff l) {i j : Nat} (hij : i ≤ j) (hj : j < l.length) :
    (diff l[i]).sign ≤ (diff l[j]).sign := by
  rcases Nat.lt_or_eq_of_le hij with hlt | rfl
  · exact List.pairwise_iff_getElem.mp h i j (by omega) hj hlt
  · exact Int.le_refl _

/-- What is left of a sorted array in front of an element that does not belong behind. -/
theorem Ascending.nonpos (h : Ascending diff l) {i j : Nat} (hij : i ≤ j) (hj : j < l.length)
    (hd : diff l[j] ≤ 0) : diff l[i] ≤ 0 := by
  have hsign := h.sign_le hij hj
  have hle : (diff l[j]).sign ≤ 0 := Int.sign_nonpos_iff.mpr hd
  exact Int.sign_nonpos_iff.mp (Int.le_trans hsign hle)

theorem Ascending.nonneg (h : Ascending diff l) {i j : Nat} (hij : i ≤ j) (hi : i < l.length)
    (hj : j < l.length) (hd : 0 ≤ diff l[i]) : 0 ≤ diff l[j] := by
  have hsign := h.sign_le hij hj
  have hle : 0 ≤ (diff l[i]).sign := Int.sign_nonneg_iff.mpr hd
  exact Int.sign_nonneg_iff.mp (Int.le_trans hle hsign)

/-- The search ends at the place, from every interval outside which the sides are known. -/
theorem search_eq (h : Ascending diff l) (rest : List (Option α)) {fuel : Nat} {low high : Int}
    (hfuel : high - low + 1 < fuel) (hlow : 0 ≤ low) (hhigh : high < l.length)
    (hle : low ≤ high + 1) (hbefore : ∀ i : Nat, (i : Int) < low → ∀ x ∈ l[i]?, diff x ≤ 0)
    (hafter : ∀ i : Nat, high < (i : Int) → ∀ x ∈ l[i]?, 0 ≤ diff x) :
    ∃ place, binarySearch diff (l.map some ++ rest) fuel low high = some place ∧
      Place diff l place := by
  induction fuel generalizing low high with
  | zero => omega
  | succ fuel ih =>
      rw [binarySearch]
      by_cases hc : low ≤ high
      · rw [if_pos hc]
        -- the middle lies between two indices that are not negative
        obtain ⟨mid, hmid⟩ : ∃ mid : Nat, low + (high - low) / 2 = (mid : Int) :=
          ⟨(low + (high - low) / 2).toNat, by omega⟩
        have hlt : mid < l.length := by omega
        simp only [hmid, slotAt_map rest hlt, Option.bind_eq_bind, Option.bind_some]
        by_cases hneg : diff l[mid] < 0
        · -- the place is behind `mid`
          rw [if_pos hneg]
          apply ih (by omega) (by omega) hhigh (by omega) _ hafter
          intro i hi x hx
          obtain ⟨hil, rfl⟩ := List.getElem?_eq_some_iff.mp hx
          exact h.nonpos (by omega) hlt (Int.le_of_lt hneg)
        · rw [if_neg hneg]
          by_cases hpos : 0 < diff l[mid]
          · rw [if_pos hpos]
            apply ih (by omega) hlow (by omega) (by omega) hbefore
            intro i hi x hx
            obtain ⟨hil, rfl⟩ := List.getElem?_eq_some_iff.mp hx
            exact h.nonneg (by omega) hlt hil (Int.le_of_lt hpos)
          · -- an equal element: the new one goes behind it
            rw [if_neg hpos]
            refine ⟨mid, rfl, by omega, by omega, ?_, ?_⟩
            · intro i hi x hx
              obtain ⟨hil, rfl⟩ := List.getElem?_eq_some_iff.mp hx
              exact h.nonpos (by omega) hlt (by omega)
            · intro i hi x hx
              obtain ⟨hil, rfl⟩ := List.getElem?_eq_some_iff.mp hx
              exact h.nonneg (by omega) hlt hil (by omega)
      · rw [if_neg hc]
        refine ⟨high, rfl, by omega, hhigh, ?_, hafter⟩
        exact fun i hi => hbefore i (by omega)

end Search

/-- The elements behind the place move up by one slot; the slot at the place keeps something. -/
theorem memmove_eq (l r rest : List α) (x : α) :
    ∃ y, memmove (l ++ r ++ x :: rest) (l.length + 1) l.length r.length =
      some (l ++ y :: (r ++ rest)) := by
  -- `y` is the element at the place, which is there twice after the move
  obtain ⟨y, w, hyw⟩ : ∃ y w, r ++ [x] = y :: w := List.exists_cons_of_ne_nil (by simp)
  have hlength : w.length = r.length := by
    have h := congrArg List.length hyw
    simpa using h.symm
  have hxs : l ++ r ++ x :: rest = l ++ y :: (w ++ rest) := by
    calc l ++ r ++ x :: rest = l ++ ((r ++ [x]) ++ rest) := by simp
      _ = l ++ y :: (w ++ rest) := by rw [hyw, List.cons_append]
  have htake : (l ++ r ++ x :: rest).take (l.length + 1) = l ++ [y] := by
    rw [hxs, List.take_append, List.take_of_length_le (by omega)]
    simp
  have hmoved : ((l ++ r ++ x :: rest).drop l.length).take r.length = r := by
    rw [List.append_assoc, List.drop_left, List.take_left]
  have hdrop : (l ++ r ++ x :: rest).drop (l.length + 1 + r.length) = rest := by
    rw [hxs, ← hlength, List.drop_append, List.drop_of_length_le (by omega)]
    have hskip : l.length + 1 + w.length - l.length = w.length + 1 := by omega
    rw [hskip, List.nil_append, List.drop_succ_cons, List.drop_left]
  refine ⟨y, ?_⟩
  rw [memmove, if_pos (by simp; omega), htake, hmoved, hdrop]
  simp

theorem insertIdx_append (l r : List α) (x : α) :
    (l ++ r).insertIdx l.length x = l ++ x :: r := by
  induction l with
  | nil => exact List.insertIdx_zero
  | cons y l ih => rw [List.cons_append, List.length_cons, List.insertIdx_succ_cons, ih]; rfl

end OpenRecovery.Storage
