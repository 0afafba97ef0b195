import Mathlib.Data.List.Lex

/-!
# Suffixes in lexicographic order

A word, its suffixes by their first position, and what sorting them by prefix doubling uses: two
suffixes that share their first `h` entries compare as the suffixes `h` further on do. The length of
a common prefix is monotone towards a word, from either side of it, so that among sorted words the
longest one is next to the place of that word.
-/

set_option autoImplicit false

namespace OpenRecovery.SuffixOrder

variable {α : Type*}

/-! ## A shared beginning -/

/-- The suffixes at two positions have the same first `h` entries. -/
def Agree (w : List α) (h p q : ℕ) : Prop := (w.drop p).take h = (w.drop q).take h

section Agree

variable {w : List α} {h k p q r : ℕ}

/-- Only one suffix is too short for the entries it shares. -/
theorem Agree.add_le (hpq : Agree w h p q) (hne : p ≠ q) (hp : p ≤ w.length) (hq : q ≤ w.length) :
    p + h ≤ w.length := by
  have hlen := congrArg List.length hpq
  rw [List.length_take, List.length_take, List.length_drop, List.length_drop] at hlen
  omega

/-- **Doubling.** What is shared at first and what is shared from there on add up. -/
theorem Agree.add (hpq : Agree w h p q) (hk : Agree w k (p + h) (q + h)) : Agree w (h + k) p q := by
  rw [Agree, List.take_add, List.take_add, List.drop_drop, List.drop_drop, hpq, hk]

/-- After a common beginning, the rests decide. -/
theorem Agree.lt [LT α] (hpq : Agree w h p q) (hlt : w.drop (p + h) < w.drop (q + h)) :
    w.drop p < w.drop q := by
  rw [← List.take_append_drop h (w.drop p), ← List.take_append_drop h (w.drop q), hpq,
    List.drop_drop, List.drop_drop]
  exact List.append_left_lt hlt

/-- The first characters decide. -/
theorem drop_lt_drop_of_getElem_lt [LT α] (hp : p < w.length) (hq : q < w.length)
    (hlt : w[p] < w[q]) : w.drop p < w.drop q := by
  rw [List.drop_eq_getElem_cons hp, List.drop_eq_getElem_cons hq, List.cons_lt_cons_iff]
  exact Or.inl hlt

/-- The empty suffix is the smallest. -/
theorem drop_length_lt [LT α] (hp : p < w.length) : w.drop w.length < w.drop p := by
  rw [List.drop_length, List.drop_eq_getElem_cons hp]
  exact List.nil_lt_cons _ _

/-- Texts with the same first character. -/
theorem agree_one (hp : p < w.length) (hq : q < w.length) (heq : w[p] = w[q]) : Agree w 1 p q := by
  rw [Agree, List.drop_eq_getElem_cons hp, List.drop_eq_getElem_cons hq, heq]
  rfl

end Agree

/-! ## Common prefixes -/

section Lcp

/-- The length of the longest common prefix. -/
def lcp [DecidableEq α] : List α → List α → ℕ
  | a :: as, b :: bs => if a = b then lcp as bs + 1 else 0
  | _, _ => 0

variable [DecidableEq α] {a b c : List α} {x y : α}

@[simp] theorem lcp_nil_right (a : List α) : lcp a [] = 0 := by
  cases a <;> rfl

@[simp] theorem lcp_cons_self (x : α) (a b : List α) : lcp (x :: a) (x :: b) = lcp a b + 1 :=
  if_pos rfl

theorem lcp_cons_of_ne (hne : x ≠ y) : lcp (x :: a) (y :: b) = 0 := if_neg hne

/-- From below, the nearer word has the longer common prefix. -/
theorem lcp_le_of_lt [LT α] (hab : a < b) (hbc : ¬c < b) : lcp a c ≤ lcp b c := by
  induction c generalizing a b with
  | nil => rw [lcp_nil_right, lcp_nil_right]
  | cons z c ih =>
    cases a with
    | nil => exact Nat.zero_le _
    | cons x a =>
      cases b with
      | nil => exact absurd hab (List.not_lt_nil _)
      | cons y b =>
        by_cases hxz : x = z
        · -- the word in between starts with the same entry
          subst hxz
          rw [List.cons_lt_cons_iff, not_or] at hbc
          rcases List.cons_lt_cons_iff.mp hab with hxy | ⟨rfl, hab'⟩
          · exact absurd hxy hbc.1
          · rw [lcp_cons_self, lcp_cons_self]
            refine Nat.succ_le_succ (ih hab' fun hcb => ?_)
            exact hbc.2 ⟨rfl, hcb⟩
        · rw [lcp_cons_of_ne hxz]
          exact Nat.zero_le _

/-- From above likewise. -/
theorem lcp_le_of_gt [LT α] (hba : b < a) (hbc : ¬b < c) : lcp a c ≤ lcp b c := by
  induction c generalizing a b with
  | nil => rw [lcp_nil_right, lcp_nil_right]
  | cons z c ih =>
    cases b with
    | nil => exact absurd (List.nil_lt_cons z c) hbc
    | cons y b =>
      cases a with
      | nil => exact Nat.zero_le _
      | cons x a =>
        by_cases hxz : x = z
        · subst hxz
          rw [List.cons_lt_cons_iff, not_or] at hbc
          rcases List.cons_lt_cons_iff.mp hba with hyx | ⟨rfl, hba'⟩
          · exact absurd hyx hbc.1
          · rw [lcp_cons_self, lcp_cons_self]
            refine Nat.succ_le_succ (ih hba' fun hbc' => ?_)
            exact hbc.2 ⟨rfl, hbc'⟩
        · rw [lcp_cons_of_ne hxz]
          exact Nat.zero_le _

/-- A prefix is matched as a whole. -/
theorem lcp_eq_length_of_prefix (h : a <+: b) : lcp a b = a.length := by
  obtain ⟨t, rfl⟩ := h
  induction a with
  | nil => rfl
  | cons x a ih => rw [List.cons_append, lcp_cons_self, ih, List.length_cons]

end Lcp

end OpenRecovery.SuffixOrder
