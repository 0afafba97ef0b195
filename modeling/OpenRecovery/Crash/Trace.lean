import OpenRecovery.Crash.Program

/-!
# Programs whose operations may be answered in any way

`Yields p t out` says that `p` can go through the operations `t`, each with the answer it got, and
end with `out`: a result, or `none` when the process dies. Every answer is possible, so a statement
about all the traces of a program holds for every behaviour of its environment.

`yields_bind` takes a trace of a composed program apart. `Prog.lift` runs a program over one set of
operations inside a larger one. `Prog.Every P` holds if no run leaves the operations in `P`.

A `Monitor` watches a run: it leaves out the runs with certain answers, and demands something of
every operation, depending on what it has seen. `watch` is the weakest condition under which a
program satisfies the demands and ends in `Q`; `watch_bind` composes it and `watch_sound` turns it
into a statement about traces.
-/

set_option autoImplicit false

namespace OpenRecovery.Crash

variable {Op Op' : Type} {Res : Op → Type} {Res' : Op' → Type} {α β : Type}

/-- A sequence of operations with their answers. -/
abbrev Trace (Op : Type) (Res : Op → Type) := List ((o : Op) × Res o)

/-- The program can go through the trace and end with `out`. -/
inductive Yields : Prog Op Res α → Trace Op Res → Option α → Prop where
  | ret (a : α) : Yields (.ret a) [] (some a)
  | halt : Yields .halt [] none
  | op {o : Op} {k : Res o → Prog Op Res α} {r : Res o} {t : Trace Op Res} {out : Option α}
      (h : Yields (k r) t out) : Yields (.op o k) (⟨o, r⟩ :: t) out

theorem yields_ret {a : α} {t : Trace Op Res} {out : Option α}
    (h : Yields (.ret a : Prog Op Res α) t out) : t = [] ∧ out = some a := by
  cases h
  exact ⟨rfl, rfl⟩

theorem yields_call {o : Op} {t : Trace Op Res} {out : Option (Res o)}
    (h : Yields (Prog.call o) t out) : ∃ r, t = [⟨o, r⟩] ∧ out = some r := by
  cases h with
  | op h =>
      obtain ⟨rfl, rfl⟩ := yields_ret h
      exact ⟨_, rfl, rfl⟩

/-- A trace of a composed program is a trace of the first part, followed by one of the second part
unless the process dies in the first. -/
theorem yields_bind {p : Prog Op Res α} {f : α → Prog Op Res β} {t : Trace Op Res}
    {out : Option β} (h : Yields (p >>= f) t out) :
    (Yields p t none ∧ out = none) ∨
      ∃ t₁ t₂ a, t = t₁ ++ t₂ ∧ Yields p t₁ (some a) ∧ Yields (f a) t₂ out := by
  induction p generalizing t with
  | ret a => exact .inr ⟨[], t, a, rfl, .ret a, h⟩
  | halt =>
      cases h
      exact .inl ⟨.halt, rfl⟩
  | op o k ih =>
      cases h with
      | @op _ _ r t _ h =>
          -- the answer `r` picks the rest of the first part
          rcases ih r h with ⟨hdead, hout⟩ | ⟨t₁, t₂, a, rfl, hfirst, hrest⟩
          · exact .inl ⟨.op hdead, hout⟩
          · exact .inr ⟨⟨o, r⟩ :: t₁, t₂, a, rfl, .op hfirst, hrest⟩

/-- The converse of `yields_bind`, for a first part that returns. -/
theorem Yields.bind {p : Prog Op Res α} {f : α → Prog Op Res β} {t₁ t₂ : Trace Op Res} {a : α}
    {out : Option β} (hp : Yields p t₁ (some a)) (hf : Yields (f a) t₂ out) :
    Yields (p >>= f) (t₁ ++ t₂) out := by
  induction p generalizing t₁ with
  | ret b =>
      cases hp
      exact hf
  | halt => cases hp
  | op o k ih =>
      cases hp with
      | op h => exact .op (ih _ h)

/-- The first operation of a program is answered in some way. -/
theorem yields_call_bind {o : Op} {k : Res o → Prog Op Res α} {t : Trace Op Res} {out : Option α}
    (h : Yields (Prog.call o >>= k) t out) : ∃ r t', t = ⟨o, r⟩ :: t' ∧ Yields (k r) t' out := by
  cases h with
  | op h => exact ⟨_, _, rfl, h⟩

/-- Whatever the answers are, the program comes to an end with them. -/
theorem exists_yields (answer : (o : Op) → Res o) (p : Prog Op Res α) :
    ∃ t out, Yields p t out ∧ ∀ a ∈ t, a.2 = answer a.1 := by
  induction p with
  | ret a => exact ⟨[], some a, .ret a, by simp⟩
  | halt => exact ⟨[], none, .halt, by simp⟩
  | op o k ih =>
      obtain ⟨t, out, h, ht⟩ := ih (answer o)
      refine ⟨⟨o, answer o⟩ :: t, out, .op h, ?_⟩
      intro a ha
      rcases List.mem_cons.mp ha with rfl | ha
      · rfl
      · exact ht a ha

/-- A program over `Op` as one over a larger set of operations. -/
def Prog.lift (f : Op → Op') (g : (o : Op) → Res' (f o) → Res o) :
    Prog Op Res α → Prog Op' Res' α
  | .ret a => .ret a
  | .halt => .halt
  | .op o k => .op (f o) fun r => Prog.lift f g (k (g o r))

/-- Every operation replaced by a program over other operations. -/
def Prog.handle (h : (o : Op) → Prog Op' Res' (Res o)) : Prog Op Res α → Prog Op' Res' α
  | .ret a => .ret a
  | .halt => .halt
  | .op o k => (h o).bind fun r => Prog.handle h (k r)

theorem handle_bind (h : (o : Op) → Prog Op' Res' (Res o)) (p : Prog Op Res α)
    (f : α → Prog Op Res β) :
    Prog.handle h (p.bind f) = (Prog.handle h p).bind fun a => Prog.handle h (f a) := by
  induction p with
  | ret a => rfl
  | halt => rfl
  | op o k ih =>
      simp only [Prog.bind, Prog.handle, ih]
      -- only the operation itself is left to regroup
      exact (Prog.bind_bind (h o) _ _).symm

/-! ## Operations a program can come to -/

/-- Every operation the program can come to is in `P`, whatever the answers are. -/
def Prog.Every (P : Op → Prop) : Prog Op Res α → Prop
  | .ret _ => True
  | .halt => True
  | .op o k => P o ∧ ∀ r, (k r).Every P

section Every

variable {P : Op → Prop}

theorem every_bind {p : Prog Op Res α} {f : α → Prog Op Res β} (hp : p.Every P)
    (hf : ∀ a, (f a).Every P) : (p.bind f).Every P := by
  induction p with
  | ret a => exact hf a
  | halt => trivial
  | op o k ih => exact ⟨hp.1, fun r => ih r (hp.2 r)⟩

theorem every_call {o : Op} (h : P o) : (Prog.call o : Prog Op Res (Res o)).Every P :=
  ⟨h, fun _ => trivial⟩

theorem every_lift {f : Op' → Op} {g : (o : Op') → Res (f o) → Res' o} {p : Prog Op' Res' α}
    (h : p.Every fun o => P (f o)) : (Prog.lift f g p).Every P := by
  induction p with
  | ret a => trivial
  | halt => trivial
  | op o k ih => exact ⟨h.1, fun r => ih _ (h.2 _)⟩

theorem Yields.every {p : Prog Op Res α} {t : Trace Op Res} {out : Option α} (h : Yields p t out)
    (hp : p.Every P) : ∀ e ∈ t, P e.1 := by
  induction h with
  | ret a => simp
  | halt => simp
  | @op o k r t out _ ih =>
      intro e he
      rcases List.mem_cons.mp he with rfl | he
      · exact hp.1
      · exact ih (hp.2 r) e he

end Every

/-! ## Monitors -/

/-- What a monitor leaves out, what it demands of an operation, and how it goes on. -/
structure Monitor (σ Op : Type) (Res : Op → Type) where
  skip : σ → (o : Op) → Res o → Prop
  demand : σ → Op → Prop
  next : σ → (o : Op) → Res o → σ

variable {σ : Type} {M : Monitor σ Op Res}

/-- Every run that the monitor does not leave out meets its demands and ends in `Q`. -/
def watch (M : Monitor σ Op Res) (Q : Option α → σ → Prop) : Prog Op Res α → σ → Prop
  | .ret a, s => Q (some a) s
  | .halt, s => Q none s
  | .op o k, s => ∀ r, ¬ M.skip s o r → M.demand s o ∧ watch M Q (k r) (M.next s o r)

theorem watch_mono {Q Q' : Option α → σ → Prop} {p : Prog Op Res α} {s : σ}
    (hQ : ∀ out s', Q out s' → Q' out s') (h : watch M Q p s) : watch M Q' p s := by
  induction p generalizing s with
  | ret a => exact hQ _ _ h
  | halt => exact hQ _ _ h
  | op o k ih =>
      intro r hr
      obtain ⟨hdemand, hrest⟩ := h r hr
      exact ⟨hdemand, ih r hrest⟩

/-- The first part may end in `R`, or die in `Q`. -/
theorem watch_bind {Q : Option β → σ → Prop} {R : Option α → σ → Prop} {p : Prog Op Res α}
    {f : α → Prog Op Res β} {s : σ} (hp : watch M R p s) (hdead : ∀ s', R none s' → Q none s')
    (hf : ∀ a s', R (some a) s' → watch M Q (f a) s') : watch M Q (p.bind f) s := by
  induction p generalizing s with
  | ret a => exact hf a s hp
  | halt => exact hdead s hp
  | op o k ih =>
      intro r hr
      obtain ⟨hdemand, hrest⟩ := hp r hr
      exact ⟨hdemand, ih r hrest⟩

/-- A program whose operations the monitor does not care about. -/
theorem watch_lift {f : Op' → Op} {g : (o : Op') → Res (f o) → Res' o} {Q : Option α → σ → Prop}
    {p : Prog Op' Res' α} {s : σ}
    (hop : ∀ o r, ¬ M.skip s (f o) r → M.demand s (f o) ∧ M.next s (f o) r = s)
    (hQ : ∀ out, Q out s) : watch M Q (Prog.lift f g p) s := by
  induction p with
  | ret a => exact hQ _
  | halt => exact hQ _
  | op o k ih =>
      intro r hr
      obtain ⟨hdemand, hnext⟩ := hop o r hr
      refine ⟨hdemand, ?_⟩
      rw [hnext]
      exact ih _

/-- No event of the trace makes the monitor leave out the run. -/
def Monitor.Admits (M : Monitor σ Op Res) : σ → Trace Op Res → Prop
  | _, [] => True
  | s, ⟨o, r⟩ :: t => ¬ M.skip s o r ∧ M.Admits (M.next s o r) t

/-- The demand holds at every event. -/
def Monitor.Meets (M : Monitor σ Op Res) : σ → Trace Op Res → Prop
  | _, [] => True
  | s, ⟨o, r⟩ :: t => M.demand s o ∧ M.Meets (M.next s o r) t

/-- The state of the monitor after a trace. -/
def Monitor.after (M : Monitor σ Op Res) : σ → Trace Op Res → σ
  | s, [] => s
  | s, ⟨o, r⟩ :: t => M.after (M.next s o r) t

theorem watch_sound {Q : Option α → σ → Prop} {p : Prog Op Res α} {s : σ} {t : Trace Op Res}
    {out : Option α} (h : watch M Q p s) (hy : Yields p t out) (ha : M.Admits s t) :
    M.Meets s t ∧ Q out (M.after s t) := by
  induction hy generalizing s with
  | ret a => exact ⟨trivial, h⟩
  | halt => exact ⟨trivial, h⟩
  | @op o k r t out _ ih =>
      -- the run is not left out here, so the demand holds and the rest is watched
      obtain ⟨hskip, ha⟩ := ha
      obtain ⟨hdemand, hrest⟩ := h r hskip
      obtain ⟨hmeets, hQ⟩ := ih hrest ha
      exact ⟨⟨hdemand, hmeets⟩, hQ⟩

end OpenRecovery.Crash
