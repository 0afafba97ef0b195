import Mathlib.Data.List.Basic

/-!
# Compacting an array in place

A loop reads an array at `inp` and writes its results to the same array at `out`, never ahead of
what it has read. `Unread xs ys out inp` is the invariant of such a loop over the entries `xs`: the
array has become `ys`, and what is still to be read is as it was.
-/

set_option autoImplicit false

namespace OpenRecovery.Storage

/-- The first of the entries left, and the others. -/
theorem of_drop_cons {α : Type} {xs rest : List α} {x : α} {i : Nat} (h : xs.drop i = x :: rest) :
    xs[i]? = some x ∧ xs.drop (i + 1) = rest := by
  constructor
  · rw [← List.head?_drop, h]
    rfl
  · rw [← List.tail_drop, h]
    rfl

/-- The array `ys`, once `xs`, still holds the entries of `xs` from `inp` on, and the next write
goes to `out`. -/
structure Unread {α : Type} (xs ys : List α) (out inp : Nat) : Prop where
  length : ys.length = xs.length
  le : out ≤ inp
  rest : ys.drop inp = xs.drop inp

namespace Unread

variable {α : Type} {xs ys : List α} {out inp : Nat}

/-- Nothing has been read yet. -/
theorem start (xs : List α) : Unread xs xs 0 0 := ⟨rfl, Nat.le_refl 0, rfl⟩

/-- An entry from `inp` on is read as it was. -/
theorem getElem? (h : Unread xs ys out inp) {i : Nat} (hi : inp ≤ i) : ys[i]? = xs[i]? := by
  obtain ⟨k, rfl⟩ := Nat.exists_eq_add_of_le hi
  rw [← List.getElem?_drop, h.rest, List.getElem?_drop]

/-- Reading on. -/
theorem skip (h : Unread xs ys out inp) {inp' : Nat} (hi : inp ≤ inp') :
    Unread xs ys out inp' := by
  obtain ⟨k, rfl⟩ := Nat.exists_eq_add_of_le hi
  refine ⟨h.length, Nat.le_trans h.le hi, ?_⟩
  rw [← List.drop_drop, h.rest, List.drop_drop]

/-- A write to `out`, once the reader is past it. -/
theorem write (h : Unread xs ys out inp) {inp' : Nat} (hi : inp ≤ inp') (hout : out < inp') (y : α) :
    Unread xs (ys.set out y) (out + 1) inp' where
  length := by rw [List.length_set, h.length]
  le := hout
  rest := by
    rw [List.drop_set_of_lt hout]
    exact (h.skip hi).rest

/-- The part that has been written grows by one entry. -/
theorem take_write (h : Unread xs ys out inp) (hin : inp < xs.length) (y : α) :
    (ys.set out y).take (out + 1) = ys.take out ++ [y] := by
  have hlt : out < ys.length := h.length ▸ Nat.lt_of_le_of_lt h.le hin
  rw [List.take_add_one, List.take_set_of_le (Nat.le_refl out), List.getElem?_set_self hlt]
  rfl

end Unread

end OpenRecovery.Storage
