import Mathlib.Data.Nat.Find
import Mathlib.Data.Nat.ModEq

/-!
# Walks in a ring of slots

Open addressing looks for a place by walking round a ring of `n` slots from a start slot.
`walk n i k` is the slot after `k` steps. `FirstStop` says where a walk ends that stops at the first
slot with a property, and `Reached` that the walk to a slot meets no free slot before it, which is
what keeps an element of the table findable.
-/

set_option autoImplicit false

namespace OpenRecovery.Probing

/-- The slot `k` steps after `i`. -/
def walk (n i k : Nat) : Nat := (i + k) % n

theorem walk_lt {n : Nat} (hn : 0 < n) (i k : Nat) : walk n i k < n := Nat.mod_lt _ hn

theorem walk_zero {n i : Nat} (hi : i < n) : walk n i 0 = i := Nat.mod_eq_of_lt hi

/-- The step from one slot to the next, as a loop takes it. -/
theorem walk_one {n i : Nat} (hi : i < n) : walk n i 1 = if i + 1 = n then 0 else i + 1 := by
  unfold walk
  split
  · next h => rw [h, Nat.mod_self]
  · next h => exact Nat.mod_eq_of_lt (by omega)

theorem walk_succ {n : Nat} (i k : Nat) : walk n i (k + 1) = walk n (walk n i 1) k := by
  unfold walk
  rw [Nat.mod_add_mod, Nat.add_right_comm, Nat.add_assoc]

/-- A walk comes to every slot. -/
theorem exists_walk_eq {n i z : Nat} (hi : i < n) (hz : z < n) : ∃ k < n, walk n i k = z := by
  by_cases h : i ≤ z
  · refine ⟨z - i, by omega, ?_⟩
    rw [walk, Nat.add_sub_cancel' h, Nat.mod_eq_of_lt hz]
  · refine ⟨z + n - i, by omega, ?_⟩
    rw [walk, Nat.add_sub_cancel' (by omega), Nat.add_mod_right, Nat.mod_eq_of_lt hz]

section Stops

variable {stop free : Nat → Prop} {n i z : Nat}

/-- The walk from `i` meets `stop` after `k` steps for the first time. -/
structure FirstStop (stop : Nat → Prop) (n i k : Nat) : Prop where
  stops : stop (walk n i k)
  passes : ∀ j < k, ¬ stop (walk n i j)

open Classical in
theorem exists_firstStop (hi : i < n) (hz : z < n) (h : stop z) :
    ∃ k < n, FirstStop stop n i k := by
  obtain ⟨k, hk, hwalk⟩ := exists_walk_eq hi hz
  have hex : ∃ k, stop (walk n i k) := ⟨k, hwalk ▸ h⟩
  have hle : Nat.find hex ≤ k := Nat.find_min' hex (hwalk ▸ h)
  exact ⟨Nat.find hex, by omega, Nat.find_spec hex, fun j hj => Nat.find_min hex hj⟩

/-- A walk that stops at once, or goes on from the next slot. -/
theorem FirstStop.tail {k : Nat} (h : FirstStop stop n i (k + 1)) :
    FirstStop stop n (walk n i 1) k := by
  constructor
  · rw [← walk_succ]
    exact h.stops
  · intro j hj
    rw [← walk_succ]
    exact h.passes (j + 1) (by omega)

/-- The walk from `i` comes to `z` before it meets a free slot. -/
def Reached (free : Nat → Prop) (n i z : Nat) : Prop :=
  ∃ k < n, walk n i k = z ∧ ∀ j < k, ¬ free (walk n i j)

/-- Filling slots keeps what is reached. -/
theorem Reached.mono {free' : Nat → Prop} (h : Reached free n i z)
    (hsub : ∀ x < n, free' x → free x) : Reached free' n i z := by
  obtain ⟨k, hk, hz, hpass⟩ := h
  exact ⟨k, hk, hz, fun j hj hfree => hpass j hj (hsub _ (walk_lt (by omega) i j) hfree)⟩

/-- The slot where a search for a free slot ends is reached. -/
theorem FirstStop.reached {k : Nat} (h : FirstStop stop n i k) (hk : k < n)
    (hsub : ∀ x < n, free x → stop x) : Reached free n i (walk n i k) :=
  ⟨k, hk, rfl, fun j hj hfree => h.passes j hj (hsub _ (walk_lt (by omega) i j) hfree)⟩

/-- A search that would stop at a reached slot does not stop at a free one. -/
theorem FirstStop.not_free {k : Nat} (h : FirstStop stop n i k) (hreach : Reached free n i z)
    (hz : stop z) (hfree : ¬ free z) : ¬ free (walk n i k) := by
  obtain ⟨m, hm, hwalk, hpass⟩ := hreach
  rcases Nat.lt_trichotomy k m with hlt | heq | hgt
  · exact hpass k hlt
  · rw [heq, hwalk]
    exact hfree
  · exact absurd (hwalk ▸ hz) (h.passes m hgt)

end Stops

end OpenRecovery.Probing
