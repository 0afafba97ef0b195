import Mathlib.Data.List.Basic

/-!
# The last writer

A run over a list of which each element may write a cell: what stands in the cell in the end is what
the last element that writes it has written (`lastOf`). `foldlM_lastOf` is the rule for a run;
`lastOf_eq_iff` compares two readings of the same list, of which the second one leaves out its end.
-/

set_option autoImplicit false

namespace OpenRecovery.Storage

variable {α β γ κ : Type*}

/-- What the last element writes that writes anything. -/
def lastOf (f : α → Option β) (l : List α) : Option β := (l.filterMap f).getLast?

section LastOf

variable {f g : α → Option β}

theorem lastOf_append (l m : List α) : lastOf f (l ++ m) = (lastOf f m).or (lastOf f l) := by
  rw [lastOf, List.filterMap_append, List.getLast?_append]
  rfl

theorem lastOf_singleton (a : α) : lastOf f [a] = f a := by
  unfold lastOf
  cases h : f a with
  | none => rw [List.filterMap_cons_none h]; rfl
  | some b => rw [List.filterMap_cons_some h]; rfl

theorem lastOf_cons (a : α) (l : List α) : lastOf f (a :: l) = (lastOf f l).or (f a) := by
  rw [← List.singleton_append, lastOf_append, lastOf_singleton]

theorem lastOf_eq_none_iff {l : List α} : lastOf f l = none ↔ ∀ a ∈ l, f a = none := by
  rw [lastOf, List.getLast?_eq_none_iff, List.filterMap_eq_nil_iff]

/-- An element behind which nothing is written. -/
theorem lastOf_of_last {pre post : List α} {a : α} (ha : f a ≠ none) (h : ∀ x ∈ post, f x = none) :
    lastOf f (pre ++ a :: post) = f a := by
  obtain ⟨b, hb⟩ := Option.ne_none_iff_exists'.mp ha
  rw [lastOf_append, lastOf_cons, lastOf_eq_none_iff.mpr h, hb]
  rfl

/-- The element that writes last. -/
theorem exists_last {l : List α} (h : lastOf f l ≠ none) :
    ∃ pre a post, l = pre ++ a :: post ∧ f a ≠ none ∧ ∀ x ∈ post, f x = none := by
  induction l with
  | nil => exact absurd rfl h
  | cons a l ih =>
      -- the last writer is the first element, or it stands behind it
      by_cases hl : lastOf f l = none
      · refine ⟨[], a, l, rfl, ?_, lastOf_eq_none_iff.mp hl⟩
        rwa [lastOf_cons, hl] at h
      · obtain ⟨pre, b, post, hsplit, hb, hpost⟩ := ih hl
        exact ⟨a :: pre, b, post, by rw [hsplit, List.cons_append], hb, hpost⟩

/-- An element of `l` that matters: nothing behind it in `l` is written. -/
def Decides (f : α → Option β) (l : List α) (a : α) : Prop :=
  ∃ pre post, l = pre ++ a :: post ∧ f a ≠ none ∧ ∀ x ∈ post, f x = none

theorem Decides.lastOf_eq {l : List α} {a : α} (h : Decides f l a) : lastOf f l = f a := by
  obtain ⟨pre, post, rfl, ha, hpost⟩ := h
  exact lastOf_of_last ha hpost

/-- What is read of `read` agrees with what is meant by `read` and `unread` together, if and only if
it does so in the elements that decide and of which the two readings differ. -/
theorem lastOf_eq_iff {read unread : List α} (hfg : ∀ a, g a = none → f a = none) :
    lastOf g read = lastOf f (read ++ unread) ↔
      (∀ a, Decides g read a → g a ≠ f a → g a = lastOf f (read ++ unread)) ∧
        ∀ a, Decides f unread a → f a = lastOf g read := by
  constructor
  · intro h
    constructor
    · intro a ha _
      rw [← h]
      exact ha.lastOf_eq.symm
    · intro a ha
      obtain ⟨pre, post, -, hne, -⟩ := id ha
      obtain ⟨b, hb⟩ := Option.ne_none_iff_exists'.mp hne
      rw [h, lastOf_append, ha.lastOf_eq, hb]
      rfl
  · rintro ⟨hread, hunread⟩
    -- the last word has `unread`, if it has one, and otherwise `read`
    by_cases hu : lastOf f unread = none
    · by_cases hr : lastOf g read = none
      · -- nothing is written at all
        have hnone : lastOf f read = none :=
          lastOf_eq_none_iff.mpr fun a ha => hfg a (lastOf_eq_none_iff.mp hr a ha)
        rw [hr, lastOf_append, hu, hnone]
        rfl
      · obtain ⟨pre, a, post, rfl, ha, hpost⟩ := exists_last hr
        have hdec : Decides g (pre ++ a :: post) a := ⟨pre, post, rfl, ha, hpost⟩
        rw [hdec.lastOf_eq]
        by_cases hagree : g a = f a
        · -- the elements behind `a` do not write in either reading
          have hlast : lastOf f (pre ++ a :: post) = f a :=
            lastOf_of_last (hagree ▸ ha) fun x hx => hfg x (hpost x hx)
          rw [lastOf_append, hu, hlast, hagree]
          rfl
        · exact hread a hdec hagree
    · obtain ⟨pre, a, post, rfl, ha, hpost⟩ := exists_last hu
      obtain ⟨b, hb⟩ := Option.ne_none_iff_exists'.mp ha
      rw [← hunread a ⟨pre, post, rfl, ha, hpost⟩, lastOf_append, lastOf_of_last ha hpost, hb]
      rfl

end LastOf

/-- Two values of a cell that agree whatever the cell has held before. -/
theorem eq_of_getD_eq {o o' : Option β} {x y : β} (hne : x ≠ y) (hx : o.getD x = o'.getD x)
    (hy : o.getD y = o'.getD y) : o = o' := by
  cases o with
  | none =>
      cases o' with
      | none => rfl
      | some b => exact absurd (hx.trans hy.symm) hne
  | some a =>
      cases o' with
      | none => exact absurd (hx.symm.trans hy) hne
      | some b => exact congrArg some hx

/-- A run of which each step writes what `f` says into each cell. -/
theorem foldlM_lastOf {step : γ → α → Option γ} {get : γ → κ → β} {f : κ → α → Option β}
    {l : List α}
    (hstep : ∀ a ∈ l, ∀ s, ∃ t, step s a = some t ∧ ∀ k, get t k = (f k a).getD (get s k)) (s : γ) :
    ∃ t, l.foldlM step s = some t ∧ ∀ k, get t k = (lastOf (f k) l).getD (get s k) := by
  induction l generalizing s with
  | nil => exact ⟨s, rfl, fun k => rfl⟩
  | cons a l ih =>
      obtain ⟨t, ht, hget⟩ := hstep a (List.mem_cons_self ..) s
      obtain ⟨u, hu, hget'⟩ := ih (fun b hb => hstep b (List.mem_cons_of_mem _ hb)) t
      refine ⟨u, ?_, fun k => ?_⟩
      · rw [List.foldlM_cons, ht]
        exact hu
      · rw [hget', hget, lastOf_cons]
        cases lastOf (f k) l with
        | none => rfl
        | some b => rfl

end OpenRecovery.Storage
