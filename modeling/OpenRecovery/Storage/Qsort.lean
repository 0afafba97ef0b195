import Mathlib.Data.List.Sort

/-!
# `qsort`

The C library promises of `qsort` that the result is a permutation of the array in the order of the
comparison function, and nothing about elements that compare equal. `Qsort` is any such function,
and `Qsort.insertion` is one.
-/

set_option autoImplicit false

namespace OpenRecovery.Storage

variable {α : Type}

/-- `qsort` relies on this of a comparison function. -/
structure IsCompare (cmp : α → α → Int) : Prop where
  total : ∀ a b, cmp a b ≤ 0 ∨ cmp b a ≤ 0
  trans : ∀ a b c, cmp a b ≤ 0 → cmp b c ≤ 0 → cmp a c ≤ 0

/-- A comparison by a key. -/
theorem IsCompare.of_key {κ : Type} [LinearOrder κ] {cmp : α → α → Int} (key : α → κ)
    (h : ∀ a b, cmp a b ≤ 0 ↔ key a ≤ key b) : IsCompare cmp where
  total a b := by
    rw [h, h]
    exact le_total (key a) (key b)
  trans a b c := by
    rw [h, h, h]
    exact le_trans

/-- `qsort` on arrays of `α`. -/
structure Qsort (α : Type) where
  sort : (α → α → Int) → List α → List α
  perm : ∀ cmp l, (sort cmp l).Perm l
  sorted : ∀ cmp l, IsCompare cmp → (sort cmp l).Pairwise fun a b => cmp a b ≤ 0

/-- Insertion sort. -/
def Qsort.insertion (α : Type) : Qsort α where
  sort cmp l := l.insertionSort fun a b => cmp a b ≤ 0
  perm _ l := List.perm_insertionSort _ l
  sorted cmp l h := by
    have : Std.Total fun a b => cmp a b ≤ 0 := ⟨h.total⟩
    have : IsTrans α fun a b => cmp a b ≤ 0 := ⟨h.trans⟩
    exact List.pairwise_insertionSort _ l

end OpenRecovery.Storage
