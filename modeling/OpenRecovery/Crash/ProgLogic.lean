import OpenRecovery.Crash.Program

/-!
# Programs over programs

`Prog.interp` carries out every operation of a program by a program over other operations.

A `ProgLogic` says of a program and a postcondition from which states the program meets it, in a way
that goes with sequencing. Two of them are used: `safely m C` for the runs that may be cut off
anywhere, in a state that meets `C`, and `returning m` for the runs that nothing interrupts. What is
proved for any `ProgLogic` holds of both.
-/

set_option autoImplicit false

namespace OpenRecovery.Crash

variable {σ Op Op' : Type} {Res : Op → Type} {Res' : Op' → Type} {α β : Type}

namespace Prog

/-- The program with every operation carried out by another program. -/
def interp (h : (o : Op) → Prog Op' Res' (Res o)) : Prog Op Res α → Prog Op' Res' α
  | ret a => ret a
  | halt => halt
  | op o k => bind (h o) fun r => interp h (k r)

variable (h : (o : Op) → Prog Op' Res' (Res o))

@[simp] theorem interp_ret (a : α) : (ret a : Prog Op Res α).interp h = ret a := rfl

@[simp] theorem interp_halt : (halt : Prog Op Res α).interp h = halt := rfl

/-- An operation is replaced by its program. -/
theorem interp_op (o : Op) (k : Res o → Prog Op Res α) :
    (op o k).interp h = h o >>= fun r => (k r).interp h := rfl

/-- Programs are replaced piece by piece. -/
theorem interp_bind (p : Prog Op Res α) (f : α → Prog Op Res β) :
    (p >>= f).interp h = p.interp h >>= fun a => (f a).interp h := by
  induction p with
  | ret a => rfl
  | halt => rfl
  | op o k ih =>
      rw [op_bind, interp_op, interp_op, bind_bind]
      congr 1
      funext r
      exact ih r

end Prog

/-- From which states a program meets a postcondition. -/
structure ProgLogic (σ Op : Type) (Res : Op → Type) where
  Holds : {α : Type} → (α → σ → Prop) → Prog Op Res α → σ → Prop
  ret : ∀ {α : Type} {Q : α → σ → Prop} {a : α} {s : σ}, Holds Q (.ret a) s ↔ Q a s
  bind : ∀ {α β : Type} {Q : β → σ → Prop} {p : Prog Op Res α} {f : α → Prog Op Res β} {s : σ},
    Holds Q (p >>= f) s ↔ Holds (fun a t => Holds Q (f a) t) p s
  mono : ∀ {α : Type} {Q Q' : α → σ → Prop} {p : Prog Op Res α} {s : σ},
    (∀ a t, Q a t → Q' a t) → Holds Q p s → Holds Q' p s

namespace ProgLogic

/-- The runs of a machine, cut off in states that meet `C`. -/
def safely (m : Machine σ Op Res) (C : σ → Prop) : ProgLogic σ Op Res where
  Holds Q p s := wp m Q C p s
  ret := Iff.rfl
  bind := wp_bind _ _ _ _
  mono h := wp_mono h fun _ ht => ht

/-- The uninterrupted runs of a machine. -/
def returning (m : Machine σ Op Res) : ProgLogic σ Op Res where
  Holds Q p s := Returns m Q p s
  ret := Iff.rfl
  bind := ⟨Returns.of_bind, returns_bind⟩
  mono h := returns_mono h

variable (J : ProgLogic σ Op Res)

/-- Sequencing with a condition in the middle. -/
theorem seq {Q : β → σ → Prop} {R : α → σ → Prop} {p : Prog Op Res α} {f : α → Prog Op Res β} {s : σ}
    (hp : J.Holds R p s) (hf : ∀ a t, R a t → J.Holds Q (f a) t) : J.Holds Q (p >>= f) s :=
  J.bind.2 (J.mono hf hp)

/-- A process that dies ends well in this state. -/
def Dies (s : σ) : Prop := ∀ {α : Type} (Q : α → σ → Prop), J.Holds Q .halt s

end ProgLogic

end OpenRecovery.Crash
