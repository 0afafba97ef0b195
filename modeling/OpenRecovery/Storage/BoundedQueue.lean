import Mathlib.Data.List.Basic

/-!
# Bounded queues

A queue of at most `cap` elements, and the ledger of what went in and came out of it since it was
last cleared. An element that arrives while the queue is full leaves no trace. The ledger is kept
without looking at the queue; `QueueRun.balanced` says that what came out, followed by what is in
the queue, is what went in.
-/

set_option autoImplicit false

namespace OpenRecovery.Storage

variable {α : Type}

/-- What happens to a queue. -/
inductive QueueEvent (α : Type) where
  | offer (a : α)
  | take (a : α)
  | clear

/-- The elements that went in and came out since the queue was cleared. -/
structure Ledger (α : Type) where
  enqueued : List α := []
  received : List α := []

/-- An element that is offered while `cap` elements are in the queue is dropped. -/
def Ledger.record (cap : ℕ) (l : Ledger α) : QueueEvent α → Ledger α
  | .offer a =>
      if l.enqueued.length < l.received.length + cap then { l with enqueued := l.enqueued ++ [a] }
      else l
  | .take a => { l with received := l.received ++ [a] }
  | .clear => {}

/-- The queue and the ledger agree. -/
def Ledger.Balanced (l : Ledger α) (q : List α) : Prop := l.enqueued = l.received ++ q

/-- One event of a queue. -/
inductive QueueStep (cap : ℕ) : List α → QueueEvent α → List α → Prop where
  | accept {q : List α} {a : α} : q.length < cap → QueueStep cap q (.offer a) (q ++ [a])
  | drop {q : List α} {a : α} : cap ≤ q.length → QueueStep cap q (.offer a) q
  | take {q : List α} {a : α} : QueueStep cap (a :: q) (.take a) q
  | clear {q : List α} : QueueStep cap q .clear []

/-- Events one after the other. -/
inductive QueueRun (cap : ℕ) (q₀ : List α) : List (QueueEvent α) → List α → Prop where
  | nil : QueueRun cap q₀ [] q₀
  | snoc {q q' : List α} {es : List (QueueEvent α)} {e : QueueEvent α} :
      QueueRun cap q₀ es q → QueueStep cap q e q' → QueueRun cap q₀ (es ++ [e]) q'

/-- The ledger of a list of events. -/
def ledgerOf (cap : ℕ) (es : List (QueueEvent α)) : Ledger α := es.foldl (Ledger.record cap) {}

theorem ledgerOf_concat (cap : ℕ) (es : List (QueueEvent α)) (e : QueueEvent α) :
    ledgerOf cap (es ++ [e]) = (ledgerOf cap es).record cap e := by
  rw [ledgerOf, List.foldl_append]
  rfl

section Step

variable {cap : ℕ} {l : Ledger α} {q q' : List α} {e : QueueEvent α}

/-- The ledger sees when the queue is full. -/
theorem Ledger.Balanced.length_lt_iff (h : l.Balanced q) :
    l.enqueued.length < l.received.length + cap ↔ q.length < cap := by
  rw [h, List.length_append]
  omega

theorem QueueStep.balanced (hstep : QueueStep cap q e q') (h : l.Balanced q) :
    (l.record cap e).Balanced q' := by
  cases hstep with
  | @accept _ a hroom =>
      rw [Ledger.record, if_pos (h.length_lt_iff.mpr hroom)]
      show l.enqueued ++ [a] = l.received ++ (q ++ [a])
      rw [h, List.append_assoc]
  | drop hfull =>
      rw [Ledger.record, if_neg fun hroom => Nat.not_lt.mpr hfull (h.length_lt_iff.mp hroom)]
      exact h
  | @take _ a =>
      show l.enqueued = l.received ++ [a] ++ q'
      rw [h, List.append_assoc, List.singleton_append]
  | clear => rfl

/-- An event leaves one queue. -/
theorem QueueStep.unique {q₁ q₂ : List α} (h₁ : QueueStep cap q e q₁) (h₂ : QueueStep cap q e q₂) :
    q₁ = q₂ := by
  cases h₁ with
  | accept hroom =>
      cases h₂ with
      | accept _ => rfl
      | drop hfull => exact absurd hroom (Nat.not_lt.mpr hfull)
  | drop hfull =>
      cases h₂ with
      | accept hroom => exact absurd hroom (Nat.not_lt.mpr hfull)
      | drop _ => rfl
  | take =>
      cases h₂
      rfl
  | clear =>
      cases h₂
      rfl

theorem QueueStep.length_le (hstep : QueueStep cap q e q') (h : q.length ≤ cap) :
    q'.length ≤ cap := by
  cases hstep with
  | accept hroom => rwa [List.length_append]
  | drop hfull => exact h
  | take => exact Nat.le_of_succ_le h
  | clear => exact Nat.zero_le cap

end Step

/-- From the empty queue on, the queue is never too long, and it agrees with the ledger. -/
theorem QueueRun.balanced {cap : ℕ} {es : List (QueueEvent α)} {q : List α}
    (h : QueueRun cap [] es q) : (ledgerOf cap es).Balanced q ∧ q.length ≤ cap := by
  induction h with
  | nil => exact ⟨rfl, Nat.zero_le cap⟩
  | snoc _ hstep ih =>
      obtain ⟨hbalanced, hlen⟩ := ih
      rw [ledgerOf_concat]
      exact ⟨hstep.balanced hbalanced, hstep.length_le hlen⟩

end OpenRecovery.Storage
