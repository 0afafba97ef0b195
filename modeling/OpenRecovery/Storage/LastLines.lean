import Mathlib.Data.List.Basic
import Mathlib.Tactic.Linarith

/-!
# The last lines of a text

A text in lines: it is cut at each separator, and a line that is longer than `n` goes on in the next
one (`wrapped`). The last `n` elements of a list, with a default for those that are missing
(`lastN`), and a window that goes round in a ring of rows (`window`): as the window goes on by one
row it shows the list with one more element.
-/

set_option autoImplicit false

namespace OpenRecovery.Storage

variable {α : Type*}

/-! ## Wrapping -/

/-- A line in pieces of `n`. A line that is empty is one piece. -/
def pieces (n : ℕ) (line : List α) : List (List α) :=
  if 0 < n ∧ n < line.length then line.take n :: pieces n (line.drop n) else [line]
termination_by line.length
decreasing_by
  rw [List.length_drop]
  omega

/-- A text in lines of at most `n`, cut at `sep`. The last line is the one that is not ended. -/
def wrapped [BEq α] (sep : α) (n : ℕ) (text : List α) : List (List α) :=
  (text.splitOn sep).flatMap (pieces n)

/-- One more element in the last line. -/
def Extends (n : ℕ) (x : α) (lines lines' : List (List α)) : Prop :=
  ∃ done last, lines = done ++ [last] ∧ last.length ≤ n ∧
    lines' = if last.length < n then done ++ [last ++ [x]] else done ++ [last, [x]]

/-- Lines before do not matter. -/
theorem Extends.append {n : ℕ} {x : α} {lines lines' : List (List α)} (h : Extends n x lines lines')
    (before : List (List α)) : Extends n x (before ++ lines) (before ++ lines') := by
  obtain ⟨done, last, rfl, hle, rfl⟩ := h
  refine ⟨before ++ done, last, (List.append_assoc _ _ _).symm, hle, ?_⟩
  by_cases hlt : last.length < n
  · rw [if_pos hlt, if_pos hlt, List.append_assoc]
  · rw [if_neg hlt, if_neg hlt, List.append_assoc]

/-- A line that fits is one piece. -/
theorem pieces_short {n : ℕ} {line : List α} (h : line.length ≤ n) : pieces n line = [line] := by
  rw [pieces, if_neg (by omega)]

/-- A longer line begins with a full piece. -/
theorem pieces_long {n : ℕ} {line : List α} (hn : 0 < n) (h : n < line.length) :
    pieces n line = line.take n :: pieces n (line.drop n) := by
  rw [pieces, if_pos ⟨hn, h⟩]

/-- One more character extends the last piece, or begins a new one. -/
theorem pieces_concat {n : ℕ} (hn : 0 < n) (line : List α) (x : α) :
    Extends n x (pieces n line) (pieces n (line ++ [x])) := by
  induction line using pieces.induct n with
  | case1 line h ih =>
    have hlen : n < (line ++ [x]).length := by
      rw [List.length_append]
      omega
    have hdrop : (line ++ [x]).drop n = line.drop n ++ [x] := List.drop_append_of_le_length (by omega)
    -- the first piece is full and stays
    have htake : (line ++ [x]).take n = line.take n := List.take_append_of_le_length (by omega)
    rw [pieces_long hn h.2, pieces_long hn hlen, hdrop, htake]
    exact ih.append [line.take n]
  | case2 line h =>
    have hle : line.length ≤ n := by omega
    refine ⟨[], line, pieces_short hle, hle, ?_⟩
    by_cases hlt : line.length < n
    · rw [if_pos hlt, pieces_short (by rw [List.length_append]; exact hlt), List.nil_append]
    · -- the line just fills its piece, so the new element starts the next
      have heq : line.length = n := by omega
      have hlen : n < (line ++ [x]).length := by
        rw [List.length_append, heq]
        exact Nat.lt_succ_self n
      rw [if_neg hlt, pieces_long hn hlen, List.take_left' heq, List.drop_left' heq,
        pieces_short (show [x].length ≤ n from hn), List.nil_append]

theorem wrapped_nil [BEq α] (sep : α) (n : ℕ) : wrapped sep n [] = [[]] := by
  have hsplit : ([] : List α).splitOn sep = [[]] := rfl
  rw [wrapped, hsplit, List.flatMap_singleton, pieces_short (Nat.zero_le n)]

section Wrapped

variable [BEq α] [LawfulBEq α] {sep x : α}

/-- One more character extends the last line. -/
theorem splitOn_concat (hx : x ≠ sep) (text : List α) :
    ∃ ls l, text.splitOn sep = ls ++ [l] ∧ (text ++ [x]).splitOn sep = ls ++ [l ++ [x]] := by
  have hne : (x == sep) = false := beq_eq_false_iff_ne.mpr hx
  induction text with
  | nil => exact ⟨[], [], rfl, by rw [List.nil_append, List.splitOn_cons_eq_if_modifyHead, hne]; rfl⟩
  | cons c text ih =>
    -- the new element goes to the last line of the rest
    obtain ⟨ls, l, heq, heq'⟩ := ih
    rw [List.cons_append, List.splitOn_cons_eq_if_modifyHead, List.splitOn_cons_eq_if_modifyHead, heq,
      heq']
    by_cases hc : (c == sep) = true
    · rw [if_pos hc, if_pos hc]
      exact ⟨[] :: ls, l, rfl, rfl⟩
    · rw [if_neg hc, if_neg hc]
      cases ls with
      | nil => exact ⟨[], c :: l, rfl, rfl⟩
      -- `c` is added to the first line, which is not the last one
      | cons line ls => exact ⟨(c :: line) :: ls, l, rfl, rfl⟩

/-- A separator begins an empty line. -/
theorem wrapped_concat_sep (n : ℕ) (text : List α) :
    wrapped sep n (text ++ [sep]) = wrapped sep n text ++ [[]] := by
  have hsplit : (text ++ [sep]).splitOn sep = text.splitOn sep ++ [[]] :=
    List.splitOnP_append_cons text [] (beq_self_eq_true sep)
  rw [wrapped, hsplit, List.flatMap_append, List.flatMap_singleton, pieces_short (Nat.zero_le n),
    wrapped]

/-- One more character extends the last wrapped line, or begins a new one. -/
theorem wrapped_concat {n : ℕ} (hn : 0 < n) (hx : x ≠ sep) (text : List α) :
    Extends n x (wrapped sep n text) (wrapped sep n (text ++ [x])) := by
  obtain ⟨ls, l, heq, heq'⟩ := splitOn_concat hx text
  rw [wrapped, wrapped, heq, heq', List.flatMap_append, List.flatMap_append, List.flatMap_singleton,
    List.flatMap_singleton]
  exact (pieces_concat hn l x).append _

end Wrapped

/-! ## The last elements -/

/-- The last `n` of a list, after as many `d` as are missing. -/
def lastN (n : ℕ) (d : α) (l : List α) : List α := (List.replicate n d ++ l).drop l.length

section LastN

variable (n : ℕ) (d x : α) (l : List α)

theorem lastN_nil : lastN n d [] = List.replicate n d := List.append_nil _

/-- One more line at the end. -/
theorem lastN_succ_concat : lastN (n + 1) d (l ++ [x]) = lastN n d l ++ [x] := by
  have hle : l.length ≤ (List.replicate n d ++ l).length := by
    rw [List.length_append]
    exact Nat.le_add_left _ _
  -- one default more in front, and one element more to drop
  rw [lastN, List.replicate_succ, List.cons_append, List.length_append, List.length_singleton,
    List.drop_succ_cons, ← List.append_assoc, List.drop_append_of_le_length hle, lastN]

/-- The oldest line goes. -/
theorem tail_lastN_succ : (lastN (n + 1) d l).tail = lastN n d l := by
  rw [lastN, List.tail_drop, List.replicate_succ, List.cons_append, List.drop_succ_cons, lastN]

/-- The last lines of a mapped list. -/
theorem map_lastN {β : Type*} (f : α → β) : (lastN n d l).map f = lastN n (f d) (l.map f) := by
  rw [lastN, List.map_drop, List.map_append, List.map_replicate, lastN, List.length_map]

end LastN

/-! ## A ring of rows -/

/-- `m` rows from `start` on in a ring of `n`. -/
def window {β : Type*} (n start m : ℕ) (row : ℕ → β) : List β :=
  (List.range m).map fun i => row ((i + start) % n)

section Window

variable {β : Type*} {n start m : ℕ} {row row' : ℕ → β}

/-- One row more of the window. -/
theorem window_succ :
    window n start (m + 1) row = window n start m row ++ [row ((m + start) % n)] := by
  rw [window, List.range_succ, List.map_append, List.map_singleton, window]

/-- The window one row further. -/
theorem window_next : window n ((start + 1) % n) m row = (window n start (m + 1) row).tail := by
  rw [window, window, List.range_succ_eq_map, List.map_cons, List.tail_cons, List.map_map]
  refine List.map_congr_left fun i _ => ?_
  have hindex : (i + (start + 1) % n) % n = (i + 1 + start) % n := by
    rw [Nat.add_mod_mod]
    congr 1
    omega
  rw [hindex, Function.comp_apply]

/-- The window depends on its rows only. -/
theorem window_congr (h : ∀ i < m, row ((i + start) % n) = row' ((i + start) % n)) :
    window n start m row = window n start m row' :=
  List.map_congr_left fun i hi => h i (List.mem_range.mp hi)

/-- The rows of a window that does not go all the way round are not the one after it. -/
theorem window_ne {i : ℕ} (hi : i < m) (hm : m < n) : (i + start) % n ≠ (m + start) % n := by
  intro heq
  -- equal remainders would make `n` divide `m - i`, which is below it
  have hdvd : (m + start - (i + start)) % n = 0 := Nat.sub_mod_eq_zero_of_mod_eq heq.symm
  rw [Nat.mod_eq_of_lt (by omega)] at hdvd
  omega

/-- A window that shows the last elements goes on showing them. -/
theorem window_lastN {d x : β} {l : List β} (hview : window n start m row = lastN m d l)
    (hrow : row ((m + start) % n) = x) :
    window n start (m + 1) row = lastN (m + 1) d (l ++ [x]) ∧
      window n ((start + 1) % n) m row = lastN m d (l ++ [x]) := by
  have hall : window n start (m + 1) row = lastN (m + 1) d (l ++ [x]) := by
    rw [window_succ, hview, hrow, lastN_succ_concat]
  exact ⟨hall, by rw [window_next, hall, tail_lastN_succ]⟩

end Window

end OpenRecovery.Storage
