import Mathlib.Data.List.TakeWhile
import Mathlib.Order.Basic

/-!
# Words

The maximal parts of a list that hold no break, as `scanf` finds them with `%s`. Everything comes
from what a break does (`words_append_break`). A prefix of a list has the same words, except that
the last of them may be cut (`words_append`).
-/

set_option autoImplicit false

namespace OpenRecovery.Storage

variable {α : Type} {p : α → Bool}

def words (p : α → Bool) (s : List α) : List (List α) := (s.splitOnP p).filter (· ≠ [])

theorem words_nil : words p [] = [] := by
  rw [words, List.splitOnP_nil]
  rfl

/-- Words split at a break. -/
theorem words_append_break {c : α} (hc : p c = true) (x y : List α) :
    words p (x ++ c :: y) = words p x ++ words p y := by
  rw [words, words, words, List.splitOnP_append_cons x y hc, List.filter_append]

theorem words_cons_break {c : α} (hc : p c = true) (s : List α) : words p (c :: s) = words p s := by
  have h := words_append_break hc [] s
  rwa [words_nil, List.nil_append, List.nil_append] at h

/-- A list without breaks is one word. -/
theorem words_word {w : List α} (hne : w ≠ []) (hw : ∀ c ∈ w, p c = false) : words p w = [w] := by
  rw [words, List.splitOnP_eq_singleton hw, List.filter_cons_of_pos (by simpa using hne),
    List.filter_nil]

theorem words_word_append {w y : List α} (hne : w ≠ []) (hw : ∀ c ∈ w, p c = false)
    (hy : ∀ c ∈ y.head?, p c = true) : words p (w ++ y) = w :: words p y := by
  cases y with
  | nil => rw [List.append_nil, words_word hne hw, words_nil]
  | cons c y =>
      have hc : p c = true := hy c rfl
      rw [words_append_break hc, words_word hne hw, words_cons_break hc, List.singleton_append]

theorem words_dropWhile (s : List α) : words p (s.dropWhile p) = words p s := by
  induction s with
  | nil => rfl
  | cons c s ih =>
      by_cases hc : p c = true
      · rw [List.dropWhile_cons_of_pos hc, ih, words_cons_break hc]
      · rw [List.dropWhile_cons_of_neg hc]

theorem words_eq_nil {s : List α} (h : s.dropWhile p = []) : words p s = [] := by
  rw [← words_dropWhile, h, words_nil]

/-- The first word, and those behind it. -/
theorem words_cons {c : α} {s : List α} (hc : p c = false) :
    words p (c :: s) =
      ((c :: s).takeWhile fun c => !p c) :: words p ((c :: s).dropWhile fun c => !p c) := by
  have hne : ((c :: s).takeWhile fun c => !p c) ≠ [] := by
    rw [List.takeWhile_cons_of_pos (by simpa using hc)]
    exact List.cons_ne_nil _ _
  have hword : ∀ x ∈ (c :: s).takeWhile fun c => !p c, p x = false := fun x hx => by
    simpa using List.mem_takeWhile_imp (p := fun c => !p c) hx
  -- the word ends at a break or at the end of the list
  have hrest : ∀ x ∈ ((c :: s).dropWhile fun c => !p c).head?, p x = true := by
    intro x hx
    have hhead := List.head?_dropWhile_not (fun c => !p c) (c :: s)
    rw [Option.mem_def.mp hx] at hhead
    simpa using hhead
  have happend := words_word_append hne hword hrest
  rwa [List.takeWhile_append_dropWhile] at happend

/-- What follows a list only adds to its last word, or begins new ones. -/
theorem splitOnP_append (p : α → Bool) (x : List α) : ∃ (front : List (List α)) (last : List α),
    x.splitOnP p = front ++ [last] ∧
      ∀ y : List α, (x ++ y).splitOnP p = front ++ (y.splitOnP p).modifyHead (last ++ ·) := by
  induction x with
  | nil =>
      refine ⟨[], [], List.splitOnP_nil, fun y => ?_⟩
      obtain ⟨head, tail, hy⟩ := List.exists_cons_of_ne_nil (List.splitOnP_ne_nil p y)
      rw [List.nil_append, List.nil_append, hy]
      rfl
  | cons c x ih =>
      -- `last` is the piece that what follows is joined to
      obtain ⟨front, last, hx, happend⟩ := ih
      by_cases hc : p c = true
      · refine ⟨[] :: front, last, ?_, fun y => ?_⟩
        · rw [List.splitOnP_cons_eq_if_modifyHead, if_pos hc, hx, List.cons_append]
        · rw [List.cons_append, List.splitOnP_cons_eq_if_modifyHead, if_pos hc, happend,
            List.cons_append]
      · -- with one piece only, `c` goes into the piece that is joined, else into the first one
        cases front with
        | nil =>
            refine ⟨[], c :: last, ?_, fun y => ?_⟩
            · rw [List.splitOnP_cons_eq_if_modifyHead, if_neg hc, hx]
              rfl
            · obtain ⟨head, tail, hy⟩ := List.exists_cons_of_ne_nil (List.splitOnP_ne_nil p y)
              rw [List.cons_append, List.splitOnP_cons_eq_if_modifyHead, if_neg hc, happend, hy]
              rfl
        | cons first front =>
            refine ⟨(c :: first) :: front, last, ?_, fun y => ?_⟩
            · rw [List.splitOnP_cons_eq_if_modifyHead, if_neg hc, hx]
              rfl
            · rw [List.cons_append, List.splitOnP_cons_eq_if_modifyHead, if_neg hc, happend]
              rfl

/-- A word of a prefix is the beginning of a word of the list, and it is that word if it is not the
last one of the prefix. -/
theorem words_append (x y : List α) {i : ℕ} {w : List α} (h : (words p x)[i]? = some w) :
    ∃ w', (words p (x ++ y))[i]? = some w' ∧ w <+: w' ∧ (i + 1 < (words p x).length → w' = w) := by
  obtain ⟨front, last, hx, happend⟩ := splitOnP_append p x
  obtain ⟨head, tail, hy⟩ := List.exists_cons_of_ne_nil (List.splitOnP_ne_nil p y)
  have hwhole : words p (x ++ y) =
      front.filter (· ≠ []) ++ (((last ++ head) :: tail).filter (· ≠ [])) := by
    rw [words, happend, hy, List.modifyHead_cons, List.filter_append]
  -- a prefix that ends in a break has all its words complete
  by_cases hlast : last = []
  · have hpart : words p x = front.filter (· ≠ []) := by
      rw [words, hx, hlast, List.filter_append]
      simp
    rw [hpart] at h
    have hlt : i < (front.filter (· ≠ [])).length := (List.getElem?_eq_some_iff.mp h).1
    exact ⟨w, by rw [hwhole, List.getElem?_append_left hlt, h], List.prefix_refl w, fun _ => rfl⟩
  · have hpart : words p x = front.filter (· ≠ []) ++ [last] := by
      rw [words, hx, List.filter_append, List.filter_cons_of_pos (by simpa using hlast),
        List.filter_nil]
    have hfull : last ++ head ≠ [] := fun h0 => hlast (List.append_eq_nil_iff.mp h0).1
    have hkeep : ((last ++ head) :: tail).filter (· ≠ []) = (last ++ head) :: tail.filter (· ≠ []) :=
      List.filter_cons_of_pos (decide_eq_true hfull)
    rw [hkeep] at hwhole
    rw [hpart, List.length_append, List.length_singleton]
    rw [hpart] at h
    by_cases hlt : i < (front.filter (· ≠ [])).length
    · rw [List.getElem?_append_left hlt] at h
      exact ⟨w, by rw [hwhole, List.getElem?_append_left hlt, h], List.prefix_refl w, fun _ => rfl⟩
    · -- the last word of the prefix
      have hi : i = (front.filter (· ≠ [])).length := by
        have hlen := (List.getElem?_eq_some_iff.mp h).1
        rw [List.length_append, List.length_singleton] at hlen
        omega
      rw [hi, List.getElem?_concat_length, Option.some.injEq] at h
      refine ⟨last ++ head, ?_, ?_, fun hlt' => absurd hlt' (by omega)⟩
      · rw [hwhole, hi, List.getElem?_append_right (le_refl _), Nat.sub_self]
        rfl
      · rw [← h]
        exact List.prefix_append _ _

end OpenRecovery.Storage
