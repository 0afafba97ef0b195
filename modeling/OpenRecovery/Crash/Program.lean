import Mathlib.Logic.Relation
import Mathlib.Tactic

/-!
# Programs that can be cut off at every operation

A `Prog` is a finite tree of operations on an outside world. The world answers every operation,
and the rest of the program depends on the answer. A `Machine` says which answers are possible in
a state, what an answered operation does to the state, and which states a crash in the middle of
an operation can leave behind. Nothing here names a particular set of operations.

`Run m s p t out` relates a start state to every state in which `p` can end: with a result, or
with `none` when the run was cut off. Since a run can be cut off before each operation, the states
with outcome `none` include every intermediate state.

`wp m p Q C s` is the weakest condition on the start state that gives `Q` at every return and `C`
wherever the run is cut off (`wp_iff_run`). `Reachable m p s₀` closes the start state under running
`p` again after any end of a run, `ReachableWhen` does so under a condition on the states in which
runs start, and `ReachableWhen.invariant` is the induction rule. `Returns` is about the runs that
nothing interrupts. `exec` runs a
program against a given world and is used for concrete runs (`exec_run`).
-/

set_option autoImplicit false

namespace OpenRecovery.Crash

/-- A program over operations `Op` whose answers have the types `Res`. `halt` is a process that
dies without returning. -/
inductive Prog (Op : Type) (Res : Op → Type) (α : Type) where
  | ret (a : α)
  | halt
  | op (o : Op) (k : Res o → Prog Op Res α)

variable {σ Op : Type} {Res : Op → Type} {α β γ : Type}

namespace Prog

/-- Sequencing. -/
def bind (p : Prog Op Res α) (f : α → Prog Op Res β) : Prog Op Res β :=
  match p with
  | ret a => f a
  | halt => halt
  | op o k => op o fun r => bind (k r) f

instance : Monad (Prog Op Res) where
  pure := ret
  bind := bind

/-- One operation, returning its answer. -/
def call (o : Op) : Prog Op Res (Res o) := op o ret

@[simp] theorem ret_bind (a : α) (f : α → Prog Op Res β) : (ret a >>= f) = f a := rfl

@[simp] theorem halt_bind (f : α → Prog Op Res β) : (halt >>= f) = halt := rfl

@[simp] theorem op_bind (o : Op) (k : Res o → Prog Op Res α) (f : α → Prog Op Res β) :
    (op o k >>= f) = op o fun r => k r >>= f := rfl

@[simp] theorem pure_eq_ret (a : α) : (pure a : Prog Op Res α) = ret a := rfl

theorem bind_ret (p : Prog Op Res α) : (p >>= ret) = p := by
  induction p with
  | ret a => rfl
  | halt => rfl
  | op o k ih =>
      rw [op_bind]
      congr 1
      funext r
      exact ih r

theorem bind_bind (p : Prog Op Res α) (f : α → Prog Op Res β) (g : β → Prog Op Res γ) :
    ((p >>= f) >>= g) = p >>= fun a => f a >>= g := by
  induction p with
  | ret a => rfl
  | halt => rfl
  | op o k ih =>
      simp only [op_bind]
      congr 1
      funext r
      exact ih r

instance : LawfulMonad (Prog Op Res) :=
  LawfulMonad.mk' (Prog Op Res) (fun p => bind_ret p) (fun _ _ => rfl) bind_bind

end Prog

/-- The world a program runs against: the answers possible in a state, the effect of an answered
operation, and the states left behind by a crash inside an operation. -/
structure Machine (σ Op : Type) (Res : Op → Type) where
  allowed : σ → (o : Op) → Res o → Prop
  apply : σ → (o : Op) → Res o → σ
  damaged : σ → Op → σ → Prop

/-- The machine whose answers also meet `G`: the runs all of whose steps satisfy a side
condition. -/
def Machine.restrict (m : Machine σ Op Res) (G : σ → (o : Op) → Res o → Prop) :
    Machine σ Op Res where
  allowed s o r := m.allowed s o r ∧ G s o r
  apply := m.apply
  damaged := m.damaged

/-- The machine whose runs are cut off before an operation that meets `B`. -/
def Machine.avoid (m : Machine σ Op Res) (B : σ → Op → Prop) : Machine σ Op Res where
  allowed s o r := m.allowed s o r ∧ ¬ B s o
  apply := m.apply
  damaged s o t := m.damaged s o t ∧ ¬ B s o

/-- Every end of a run of a program: the state and the result, `none` when the run was cut off.
The cut comes before an operation (`stop`) or inside one (`torn`). -/
inductive Run (m : Machine σ Op Res) : σ → Prog Op Res α → σ → Option α → Prop
  | ret (s : σ) (a : α) : Run m s (.ret a) s (some a)
  | halt (s : σ) : Run m s .halt s none
  | stop (s : σ) (o : Op) (k : Res o → Prog Op Res α) : Run m s (.op o k) s none
  | torn {s t : σ} {o : Op} (k : Res o → Prog Op Res α) :
      m.damaged s o t → Run m s (.op o k) t none
  | step {s t : σ} {o : Op} {k : Res o → Prog Op Res α} {out : Option α} (r : Res o) :
      m.allowed s o r → Run m (m.apply s o r) (k r) t out → Run m s (.op o k) t out

/-- Weakest precondition: `Q` holds at every return and `C` wherever the run is cut off. -/
def wp (m : Machine σ Op Res) (Q : α → σ → Prop) (C : σ → Prop) : Prog Op Res α → σ → Prop
  | .ret a, s => Q a s
  | .halt, s => C s
  | .op o k, s =>
      C s ∧ (∀ t, m.damaged s o t → C t) ∧
        ∀ r, m.allowed s o r → wp m Q C (k r) (m.apply s o r)

section Rules

variable {m : Machine σ Op Res} {Q Q' : α → σ → Prop} {C C' : σ → Prop}

theorem wp_ret (a : α) (s : σ) : wp m Q C (.ret a) s ↔ Q a s := Iff.rfl

theorem wp_bind (p : Prog Op Res α) (f : α → Prog Op Res β) (Q : β → σ → Prop) (s : σ) :
    wp m Q C (p >>= f) s ↔ wp m (fun a t => wp m Q C (f a) t) C p s := by
  induction p generalizing s with
  | ret a => rfl
  | halt => rfl
  | op o k ih =>
      simp only [Prog.op_bind, wp]
      exact and_congr_right fun _ => and_congr_right fun _ =>
        forall_congr' fun r => imp_congr_right fun _ => ih r _

theorem wp_mono {p : Prog Op Res α} {s : σ} (hQ : ∀ a t, Q a t → Q' a t)
    (hC : ∀ t, C t → C' t) (h : wp m Q C p s) : wp m Q' C' p s := by
  induction p generalizing s with
  | ret a => exact hQ a s h
  | halt => exact hC s h
  | op o k ih =>
      obtain ⟨hs, hd, hr⟩ := h
      exact ⟨hC s hs, fun t ht => hC t (hd t ht), fun r hr' => ih r (hr r hr')⟩

theorem wp_and {p : Prog Op Res α} {s : σ} (h : wp m Q C p s) (h' : wp m Q' C' p s) :
    wp m (fun a t => Q a t ∧ Q' a t) (fun t => C t ∧ C' t) p s := by
  induction p generalizing s with
  | ret a => exact ⟨h, h'⟩
  | halt => exact ⟨h, h'⟩
  | op o k ih =>
      obtain ⟨hs, hd, hr⟩ := h
      obtain ⟨hs', hd', hr'⟩ := h'
      exact ⟨⟨hs, hs'⟩, fun t ht => ⟨hd t ht, hd' t ht⟩,
        fun r ha => ih r (hr r ha) (hr' r ha)⟩

/-- A condition that holds wherever the run ends holds at its start. -/
theorem wp.now {p : Prog Op Res α} {s : σ} (hQ : ∀ a t, Q a t → C t) (h : wp m Q C p s) : C s := by
  cases p with
  | ret a => exact hQ a s h
  | halt => exact h
  | op o k => exact h.1

/-- Sequencing rule: an intermediate condition for the first program suffices. -/
theorem wp_seq {p : Prog Op Res α} {f : α → Prog Op Res β} {Q : β → σ → Prop}
    {R : α → σ → Prop} {s : σ} (hp : wp m R C p s)
    (hf : ∀ a t, R a t → wp m Q C (f a) t) : wp m Q C (p >>= f) s :=
  (wp_bind p f Q s).2 (wp_mono hf (fun _ h => h) hp)

/-- Cutting off more runs keeps a condition. -/
theorem wp_avoid (B : σ → Op → Prop) {p : Prog Op Res α} {s : σ} (h : wp m Q C p s) :
    wp (m.avoid B) Q C p s := by
  induction p generalizing s with
  | ret a => exact h
  | halt => exact h
  | op o k ih =>
      obtain ⟨hs, hd, hr⟩ := h
      exact ⟨hs, fun t ht => hd t ht.1, fun r hr' => ih r (hr r hr'.1)⟩

/-- An operation that is avoided ends the run. -/
theorem wp_avoid_op {B : σ → Op → Prop} {o : Op} {k : Res o → Prog Op Res α} {s : σ} (hB : B s o)
    (hC : C s) : wp (m.avoid B) Q C (.op o k) s :=
  ⟨hC, fun _ ht => absurd hB ht.2, fun _ hr => absurd hB hr.2⟩

/-- Soundness and completeness of `wp` for the ends of runs. -/
theorem wp_iff_run (p : Prog Op Res α) (s : σ) :
    wp m Q C p s ↔ ∀ t out, Run m s p t out → out.elim (C t) fun a => Q a t := by
  constructor
  · intro h t out hrun
    induction hrun with
    | ret s a => exact h
    | halt s => exact h
    | stop s o k => exact h.1
    | torn k hd => exact h.2.1 _ hd
    | step r ha _ ih => exact ih (h.2.2 r ha)
  · intro h
    induction p generalizing s with
    | ret a => exact h s (some a) (.ret s a)
    | halt => exact h s none (.halt s)
    | op o k ih =>
        -- the cut before the operation, the cut inside it, and its answers
        exact ⟨h s none (.stop s o k), fun t ht => h t none (.torn k ht),
          fun r ha => ih r _ fun t out hrun => h t out (.step r ha hrun)⟩

end Rules

/-! ## What a program can do

`Can m p Q s` is the dual of `wp` on returning runs: some run of `p` from `s` returns a result
that meets `Q`. -/

/-- Some run from `s` returns a value and a state that meet `Q`. -/
def Can (m : Machine σ Op Res) (Q : α → σ → Prop) (p : Prog Op Res α) (s : σ) : Prop :=
  ∃ a t, Run m s p t (some a) ∧ Q a t

section Possibility

variable {m : Machine σ Op Res}

theorem can_ret {Q : α → σ → Prop} {a : α} {s : σ} (h : Q a s) : Can m Q (.ret a) s :=
  ⟨a, s, .ret s a, h⟩

theorem can_op {Q : α → σ → Prop} {o : Op} {k : Res o → Prog Op Res α} {s : σ} (r : Res o)
    (ha : m.allowed s o r) (h : Can m Q (k r) (m.apply s o r)) : Can m Q (.op o k) s := by
  obtain ⟨a, t, hrun, hQ⟩ := h
  exact ⟨a, t, .step r ha hrun, hQ⟩

theorem Run.bind {p : Prog Op Res α} {f : α → Prog Op Res β} {s t u : σ} {a : α}
    {out : Option β} (hp : Run m s p t (some a)) (hf : Run m t (f a) u out) :
    Run m s (p >>= f) u out := by
  -- the outcome is an index of `Run`: it has to be a variable for the induction
  generalize hx : (some a : Option α) = x at hp
  induction hp with
  | ret s b =>
      cases hx
      exact hf
  | halt s => cases hx
  | stop s o k => cases hx
  | torn k hd => cases hx
  | step r ha _ ih => exact .step r ha (ih hf hx)

/-- A run of a composed program that returns is one of the first part and one of the second. -/
theorem run_bind_some {p : Prog Op Res α} {f : α → Prog Op Res β} {s u : σ} {b : β} :
    Run m s (p >>= f) u (some b) ↔ ∃ t a, Run m s p t (some a) ∧ Run m t (f a) u (some b) := by
  constructor
  · intro h
    induction p generalizing s with
    | ret a => exact ⟨s, a, .ret s a, h⟩
    | halt => cases h
    | op o k ih =>
        cases h with
        | step r ha h =>
            obtain ⟨t, a, hp, hf⟩ := ih r h
            exact ⟨t, a, .step r ha hp, hf⟩
  · rintro ⟨t, a, hp, hf⟩
    exact hp.bind hf

theorem can_bind {Q : β → σ → Prop} {p : Prog Op Res α} {f : α → Prog Op Res β} {s : σ}
    (h : Can m (fun a t => Can m Q (f a) t) p s) : Can m Q (p >>= f) s := by
  obtain ⟨a, t, hp, b, u, hf, hQ⟩ := h
  exact ⟨b, u, hp.bind hf, hQ⟩

theorem can_mono {Q Q' : α → σ → Prop} {p : Prog Op Res α} {s : σ}
    (hQ : ∀ a t, Q a t → Q' a t) (h : Can m Q p s) : Can m Q' p s := by
  obtain ⟨a, t, hrun, hq⟩ := h
  exact ⟨a, t, hrun, hQ a t hq⟩

end Possibility

/-! ## Uninterrupted runs -/

/-- Every uninterrupted run from `s` goes on to a return that meets `Q`: some answer is possible at
each operation, and the process does not die. -/
def Returns (m : Machine σ Op Res) (Q : α → σ → Prop) : Prog Op Res α → σ → Prop
  | .ret a, s => Q a s
  | .halt, _ => False
  | .op o k, s =>
      (∃ r, m.allowed s o r) ∧ ∀ r, m.allowed s o r → Returns m Q (k r) (m.apply s o r)

theorem returns_mono {m : Machine σ Op Res} {Q Q' : α → σ → Prop} {p : Prog Op Res α} {s : σ}
    (hQ : ∀ a t, Q a t → Q' a t) (h : Returns m Q p s) : Returns m Q' p s := by
  induction p generalizing s with
  | ret a => exact hQ a s h
  | halt => exact h
  | op o k ih =>
      obtain ⟨hex, hall⟩ := h
      exact ⟨hex, fun r hr => ih r (hall r hr)⟩

theorem returns_bind {m : Machine σ Op Res} {Q : β → σ → Prop} {p : Prog Op Res α}
    {f : α → Prog Op Res β} {s : σ} (h : Returns m (fun a t => Returns m Q (f a) t) p s) :
    Returns m Q (p >>= f) s := by
  induction p generalizing s with
  | ret a => exact h
  | halt => exact h
  | op o k ih =>
      obtain ⟨hex, hall⟩ := h
      exact ⟨hex, fun r hr => ih r (hall r hr)⟩

theorem Returns.of_bind {m : Machine σ Op Res} {Q : β → σ → Prop} {p : Prog Op Res α}
    {f : α → Prog Op Res β} {s : σ} (h : Returns m Q (p >>= f) s) :
    Returns m (fun a t => Returns m Q (f a) t) p s := by
  induction p generalizing s with
  | ret a => exact h
  | halt => exact h
  | op o k ih =>
      obtain ⟨hex, hall⟩ := h
      exact ⟨hex, fun r hr => ih r (hall r hr)⟩

/-- What every run keeps also holds at the return of an uninterrupted one. -/
theorem Returns.and_wp {m : Machine σ Op Res} {G : σ → (o : Op) → Res o → Prop}
    {Q Q' : α → σ → Prop} {C : σ → Prop} {p : Prog Op Res α} {s : σ}
    (h : Returns (m.restrict G) Q p s) (hw : wp m Q' C p s) :
    Returns (m.restrict G) (fun a t => Q a t ∧ Q' a t) p s := by
  induction p generalizing s with
  | ret a => exact ⟨h, hw⟩
  | halt => exact h
  | op o k ih =>
      obtain ⟨hex, hall⟩ := h
      obtain ⟨-, -, hr⟩ := hw
      exact ⟨hex, fun r ha => ih r (hall r ha) (hr r ha.1)⟩

/-- An uninterrupted run exists, also without the side condition on the answers. -/
theorem Returns.can {m : Machine σ Op Res} {G : σ → (o : Op) → Res o → Prop} {Q : α → σ → Prop}
    {p : Prog Op Res α} {s : σ} (h : Returns (m.restrict G) Q p s) : Can m Q p s := by
  induction p generalizing s with
  | ret a => exact can_ret h
  | halt => exact absurd h id
  | op o k ih =>
      obtain ⟨⟨r, hr⟩, hall⟩ := h
      -- any answer that is possible under the side condition will do
      exact can_op r hr.1 (ih r (hall r hr))

/-! ## Running again after every end -/

/-- States reached from `s₀` by running `p` again and again, each time from a state that meets `G`.
Each run ends anywhere: at a return, or cut off at any operation. -/
inductive ReachableWhen (m : Machine σ Op Res) (G : σ → Prop) (p : Prog Op Res α) (s₀ : σ) : σ → Prop
  | start : ReachableWhen m G p s₀ s₀
  | rerun {s t : σ} {out : Option α} :
      ReachableWhen m G p s₀ s → G s → Run m s p t out → ReachableWhen m G p s₀ t

/-- Invariant rule: a condition that every run keeps, wherever it ends, holds in every reachable
state. -/
theorem ReachableWhen.invariant {m : Machine σ Op Res} {G : σ → Prop} {p : Prog Op Res α}
    {s₀ t : σ} (I : σ → Prop) (h₀ : I s₀) (hI : ∀ s, I s → G s → wp m (fun _ u => I u) I p s)
    (h : ReachableWhen m G p s₀ t) : I t := by
  induction h with
  | start => exact h₀
  | @rerun s t out _ hG hrun ih =>
      -- one more run from a state that keeps the condition
      have hw := (wp_iff_run p s).1 (hI s ih hG) t out hrun
      cases out with
      | none => exact hw
      | some a => exact hw

/-- States reached by running `p` again and again from wherever the last run ended. -/
abbrev Reachable (m : Machine σ Op Res) (p : Prog Op Res α) (s₀ : σ) : σ → Prop :=
  ReachableWhen m (fun _ => True) p s₀

/-! ## Concrete runs -/

/-- What happens at an operation of a concrete run: an answer, or a crash that leaves `t`. -/
inductive Event (σ R : Type) where
  | reply (r : R)
  | crash (t : σ)

/-- The event can happen at the operation `o` in the state `s`. -/
def Event.Possible (m : Machine σ Op Res) (s : σ) (o : Op) : Event σ (Res o) → Prop
  | .reply r => m.allowed s o r
  | .crash t => t = s ∨ m.damaged s o t

/-- Run a program against a world that gives the event at the `i`-th operation. -/
def exec (m : Machine σ Op Res) (world : Nat → (s : σ) → (o : Op) → Event σ (Res o)) :
    Nat → σ → Prog Op Res α → σ × Option α
  | _, s, .ret a => (s, some a)
  | _, s, .halt => (s, none)
  | i, s, .op o k =>
      match world i s o with
      | .reply r => exec m world (i + 1) (m.apply s o r) (k r)
      | .crash t => (t, none)

/-- A world whose events can happen describes a run. -/
theorem exec_run {m : Machine σ Op Res} {world : Nat → (s : σ) → (o : Op) → Event σ (Res o)}
    (hw : ∀ i s o, (world i s o).Possible m s o) (p : Prog Op Res α) (i : Nat) (s : σ) :
    Run m s p (exec m world i s p).1 (exec m world i s p).2 := by
  induction p generalizing i s with
  | ret a => exact .ret s a
  | halt => exact .halt s
  | op o k ih =>
      have ho := hw i s o
      simp only [exec]
      cases hev : world i s o with
      | reply r =>
          rw [hev] at ho
          exact .step r ho (ih r (i + 1) (m.apply s o r))
      | crash t =>
          rw [hev] at ho
          rcases ho with rfl | hd
          · -- the crash has left the state as it was: a cut before the operation
            exact .stop t o k
          · exact .torn k hd

end OpenRecovery.Crash
