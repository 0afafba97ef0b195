import OpenRecovery.Updater.Install

/-!
# Reading a file by lines

`fgets` and `strtok`, and the pieces into which a file falls when it is read with `fgets` until it
ends. A line that does not fit into the buffer falls into several pieces; if all lines fit, the
pieces are the lines (`pieces_eq_fileLines`).
-/

set_option autoImplicit false

namespace OpenRecovery.Recovery

open OpenRecovery.Storage OpenRecovery.Updater

/-! ## fgets and strtok -/

/-- `fgets` with room for `n` bytes and the terminator: the string and the rest of the stream. -/
def fgets : Nat → Bytes → Bytes × Bytes
  | 0, stream => ([], stream)
  | _ + 1, [] => ([], [])
  | n + 1, c :: stream =>
      if c = newline then ([c], stream)
      else ((c :: (fgets n stream).1), (fgets n stream).2)

/-- `strtok` with a set of delimiters, as it goes on from where it stopped: the next token and what
comes after it, or `none` for `NULL`. -/
def strtokNext (delims : UInt8 → Bool) (s : Bytes) : Option (Bytes × Bytes) :=
  let s := s.dropWhile delims
  if s = [] then none
  else some (s.takeWhile fun c => !delims c, (s.dropWhile fun c => !delims c).tail)

def isNewline (c : UInt8) : Bool := c = newline

def isSpaceOrNewline (c : UInt8) : Bool := c = 32 || c = newline

/-- The next token only. -/
def nextToken (delims : UInt8 → Bool) (s : Bytes) : Option Bytes :=
  (strtokNext delims s).map Prod.fst

theorem fgets_append (n : Nat) (stream : Bytes) :
    (fgets n stream).1 ++ (fgets n stream).2 = stream := by
  fun_induction fgets n stream with
  | case1 => rfl
  | case2 => rfl
  | case3 => rfl
  | case4 n c stream hc ih => rw [List.cons_append, ih]

theorem fgets_length_lt {n : Nat} {stream : Bytes} (hn : 0 < n) (h : stream ≠ []) :
    (fgets n stream).2.length < stream.length := by
  obtain ⟨n, rfl⟩ := Nat.exists_eq_succ_of_ne_zero (Nat.ne_of_gt hn)
  cases stream with
  | nil => exact absurd rfl h
  | cons c stream =>
      have happ := congrArg List.length (fgets_append n stream)
      rw [List.length_append] at happ
      rw [fgets]
      split
      · simp
      · simp only [List.length_cons]
        omega

/-- A line that fits. -/
theorem fgets_line {n : Nat} {line : Bytes} (rest : Bytes) (hline : newline ∉ line)
    (hn : line.length < n) :
    fgets n (line ++ newline :: rest) = (line ++ [newline], rest) := by
  induction line generalizing n with
  | nil =>
      obtain ⟨n, rfl⟩ := Nat.exists_eq_succ_of_ne_zero (show n ≠ 0 by simp at hn; omega)
      rw [List.nil_append, fgets, if_pos rfl]
      rfl
  | cons c line ih =>
      rw [List.length_cons] at hn
      obtain ⟨n, rfl⟩ := Nat.exists_eq_succ_of_ne_zero (show n ≠ 0 by omega)
      have hc : c ≠ newline := fun h => hline (by simp [h])
      rw [List.cons_append, fgets, if_neg hc,
        ih (fun h => hline (List.mem_cons_of_mem c h)) (by omega)]
      rfl

/-- A line that does not fit is cut. -/
theorem fgets_cut {line : Bytes} (rest : Bytes) (hline : newline ∉ line) :
    fgets line.length (line ++ rest) = (line, rest) := by
  induction line with
  | nil => cases rest <;> rfl
  | cons c line ih =>
      have hc : c ≠ newline := fun h => hline (by simp [h])
      rw [List.length_cons, List.cons_append, fgets, if_neg hc,
        ih fun h => hline (List.mem_cons_of_mem c h)]

theorem strtokNext_length {delims : UInt8 → Bool} {s tok rest : Bytes}
    (h : strtokNext delims s = some (tok, rest)) : tok.length + rest.length ≤ s.length := by
  have hdrop : (s.dropWhile delims).length ≤ s.length := (List.dropWhile_sublist delims).length_le
  have hsplit := congrArg List.length
    (List.takeWhile_append_dropWhile (p := fun c => !delims c) (l := s.dropWhile delims))
  rw [List.length_append] at hsplit
  unfold strtokNext at h
  simp only at h
  split at h
  · cases h
  · cases h
    rw [List.length_tail]
    omega

/-! ## The pieces of a file -/

/-- The strings that `fgets` gives until the stream ends, at most `fuel` of them. -/
def piecesFrom (n : Nat) : Nat → Bytes → List Bytes
  | 0, _ => []
  | fuel + 1, stream =>
      if stream = [] then [] else (fgets n stream).1 :: piecesFrom n fuel (fgets n stream).2

/-- A buffer with room for `n` bytes and the terminator, filled again and again. -/
def pieces (n : Nat) (stream : Bytes) : List Bytes := piecesFrom n stream.length stream

/-- The lines of a file, with the newlines at their ends. -/
def fileLines : Bytes → List Bytes
  | [] => []
  | c :: stream =>
      if c = newline then [c] :: fileLines stream
      else
        match fileLines stream with
        | [] => [[c]]
        | line :: lines => (c :: line) :: lines

section Pieces

variable {n : Nat} {stream : Bytes}

/-- More rounds than the stream has bytes change nothing. -/
theorem piecesFrom_eq (hn : 0 < n) {fuel : Nat} (h : stream.length ≤ fuel) :
    piecesFrom n fuel stream = pieces n stream := by
  induction fuel using Nat.strong_induction_on generalizing stream with
  | _ fuel ih =>
      cases stream with
      | nil => cases fuel <;> rfl
      | cons c stream =>
          rw [List.length_cons] at h
          obtain ⟨fuel, rfl⟩ := Nat.exists_eq_succ_of_ne_zero (show fuel ≠ 0 by omega)
          have hlt := fgets_length_lt hn (List.cons_ne_nil c stream)
          rw [List.length_cons] at hlt
          rw [pieces, List.length_cons, Nat.succ_eq_add_one, piecesFrom, piecesFrom]
          simp only [List.cons_ne_nil, if_false]
          rw [ih fuel (by omega) (by omega)]
          congr 1
          by_cases hfuel : stream.length < fuel + 1
          · rw [ih stream.length hfuel (by omega)]
          · omega

theorem pieces_cons (hn : 0 < n) (h : stream ≠ []) :
    pieces n stream = (fgets n stream).1 :: pieces n (fgets n stream).2 := by
  have hlt := fgets_length_lt hn h
  obtain ⟨m, hm⟩ := Nat.exists_eq_succ_of_ne_zero
    (show stream.length ≠ 0 from fun h0 => h (List.length_eq_zero_iff.mp h0))
  rw [pieces, hm, Nat.succ_eq_add_one, piecesFrom, if_neg h, piecesFrom_eq hn (by omega)]

/-- The pieces make up the file. -/
theorem flatten_pieces (hn : 0 < n) (stream : Bytes) : (pieces n stream).flatten = stream := by
  induction hlen : stream.length using Nat.strong_induction_on generalizing stream with
  | _ m ih =>
      by_cases h : stream = []
      · rw [h]
        rfl
      · have hlt := fgets_length_lt hn h
        rw [pieces_cons hn h, List.flatten_cons, ih _ (hlen ▸ hlt) _ rfl, fgets_append]

theorem flatten_fileLines (stream : Bytes) : (fileLines stream).flatten = stream := by
  induction stream with
  | nil => rfl
  | cons c stream ih =>
      rw [fileLines]
      split
      · rw [List.flatten_cons, ih, List.singleton_append]
      · cases hlines : fileLines stream with
        | nil =>
            rw [hlines] at ih
            rw [← ih]
            rfl
        | cons line lines =>
            rw [hlines, List.flatten_cons] at ih
            rw [List.flatten_cons, List.cons_append, ih]

theorem fileLines_ne_nil (h : stream ≠ []) : fileLines stream ≠ [] := by
  cases stream with
  | nil => exact absurd rfl h
  | cons c stream =>
      rw [fileLines]
      split
      · exact List.cons_ne_nil _ _
      · split
        · exact List.cons_ne_nil _ _
        · exact List.cons_ne_nil _ _

/-- `fgets` reads the first line if it fits. -/
theorem fgets_fileLines {line : Bytes} {lines : List Bytes} (h : fileLines stream = line :: lines)
    (hn : line.length ≤ n) : (fgets n stream).1 = line ∧ fileLines (fgets n stream).2 = lines := by
  induction stream generalizing n line with
  | nil => cases h
  | cons c stream ih =>
      rw [fileLines] at h
      split at h
      · next hc =>
          cases h
          obtain ⟨n, rfl⟩ := Nat.exists_eq_succ_of_ne_zero (show n ≠ 0 from Nat.ne_of_gt hn)
          rw [fgets, if_pos hc]
          exact ⟨rfl, rfl⟩
      · next hc =>
          obtain ⟨n, rfl⟩ : ∃ m, n = m + 1 := by
            refine Nat.exists_eq_succ_of_ne_zero fun h0 => ?_
            subst h0
            split at h
            · cases h
              exact absurd hn (by simp)
            · cases h
              exact absurd hn (by simp)
          rw [fgets, if_neg hc]
          split at h
          · next hnil =>
              -- the last line of the file
              cases h
              have hstream : stream = [] := by
                by_contra hne
                exact fileLines_ne_nil hne hnil
              rw [hstream]
              cases n with
              | zero => exact ⟨rfl, rfl⟩
              | succ n => exact ⟨rfl, rfl⟩
          · next line' lines' hcons =>
              cases h
              obtain ⟨hfirst, hrest⟩ := ih hcons (Nat.le_of_succ_le_succ hn)
              exact ⟨by rw [hfirst], hrest⟩

/-- A line that does not fit goes on behind what `fgets` has read of it. -/
theorem fgets_fileLines_cut {line : Bytes} {lines : List Bytes} (h : fileLines stream = line :: lines)
    (hn : n < line.length) :
    (fgets n stream).1 = line.take n ∧ fileLines (fgets n stream).2 = line.drop n :: lines := by
  induction stream generalizing n line with
  | nil => cases h
  | cons c stream ih =>
      cases n with
      | zero => exact ⟨rfl, h⟩
      | succ n =>
          rw [fileLines] at h
          split at h
          · cases h
            exact absurd hn (by simp)
          · next hc =>
              rw [fgets, if_neg hc]
              split at h
              · cases h
                exact absurd hn (by simp)
              · next line' lines' hcons =>
                  cases h
                  obtain ⟨hfirst, hrest⟩ := ih hcons (Nat.lt_of_succ_lt_succ hn)
                  exact ⟨by rw [hfirst, List.take_succ_cons], hrest⟩

theorem ne_nil_of_mem_fileLines {line : Bytes} (h : line ∈ fileLines stream) : line ≠ [] := by
  induction stream generalizing line with
  | nil => cases h
  | cons c stream ih =>
      rw [fileLines] at h
      split at h
      · rcases List.mem_cons.mp h with rfl | h
        · exact List.cons_ne_nil _ _
        · exact ih h
      · split at h
        · rw [List.mem_singleton.mp h]
          exact List.cons_ne_nil _ _
        · next hcons =>
            rcases List.mem_cons.mp h with rfl | h
            · exact List.cons_ne_nil _ _
            · exact ih (hcons ▸ List.mem_cons_of_mem _ h)

/-- Only the last line can be without a newline, and there is none inside of a line. -/
theorem newline_notMem_dropLast {line : Bytes} (h : line ∈ fileLines stream) :
    newline ∉ line.dropLast := by
  induction stream generalizing line with
  | nil => cases h
  | cons c stream ih =>
      rw [fileLines] at h
      split at h
      · rcases List.mem_cons.mp h with rfl | h
        · simp
        · exact ih h
      · next hc =>
          split at h
          · rw [List.mem_singleton.mp h]
            simp
          · next line' lines' hcons =>
              rw [hcons] at ih
              rcases List.mem_cons.mp h with rfl | h
              · have hline := ih (List.mem_cons_self ..)
                cases line' with
                | nil => simp
                | cons d line' =>
                    rw [List.dropLast_cons_cons, List.mem_cons, not_or]
                    exact ⟨Ne.symm hc, hline⟩
              · exact ih (List.mem_cons_of_mem _ h)

/-- The lines of the beginning of a file are beginnings of its lines. -/
theorem fileLines_take (n i : ℕ) {part : Bytes} (h : (fileLines (stream.take n))[i]? = some part) :
    ∃ line, (fileLines stream)[i]? = some line ∧ part <+: line := by
  induction stream generalizing n i part with
  | nil =>
      rw [List.take_nil] at h
      cases h
  | cons c stream ih =>
      cases n with
      | zero => cases h
      | succ n =>
          rw [List.take_succ_cons, fileLines] at h
          rw [fileLines]
          by_cases hc : c = newline
          · rw [if_pos hc] at h ⊢
            cases i with
            | zero => exact ⟨[c], rfl, by cases h; exact List.prefix_refl _⟩
            | succ i => exact ih n i h
          · rw [if_neg hc] at h ⊢
            cases hpart : fileLines (stream.take n) with
            | nil =>
                -- the beginning ends with this byte
                rw [hpart] at h
                cases i with
                | zero =>
                    cases h
                    split
                    · exact ⟨[c], rfl, List.prefix_refl _⟩
                    · next line lines _ => exact ⟨c :: line, rfl, by simp⟩
                | succ i => cases h
            | cons first parts =>
                rw [hpart] at h
                obtain ⟨line, hline, hbegins⟩ := ih n 0 (by rw [hpart]; rfl)
                obtain ⟨lines, hlines⟩ : ∃ lines, fileLines stream = line :: lines := by
                  cases hfile : fileLines stream with
                  | nil =>
                      rw [hfile] at hline
                      cases hline
                  | cons l lines =>
                      rw [hfile] at hline
                      cases hline
                      exact ⟨lines, rfl⟩
                rw [hlines]
                cases i with
                | zero =>
                    cases h
                    exact ⟨c :: line, rfl, List.cons_prefix_cons.mpr ⟨rfl, hbegins⟩⟩
                | succ i =>
                    obtain ⟨line', hline', hbegins'⟩ := ih n (i + 1) (by rw [hpart]; exact h)
                    rw [hlines] at hline'
                    exact ⟨line', hline', hbegins'⟩

/-- If all lines fit into the buffer, they are the pieces. -/
theorem pieces_eq_fileLines (hn : 0 < n) (h : ∀ line ∈ fileLines stream, line.length ≤ n) :
    pieces n stream = fileLines stream := by
  induction hlen : stream.length using Nat.strong_induction_on generalizing stream with
  | _ m ih =>
      by_cases hnil : stream = []
      · rw [hnil]
        rfl
      · obtain ⟨line, lines, hlines⟩ := List.exists_cons_of_ne_nil (fileLines_ne_nil hnil)
        rw [hlines] at h ⊢
        obtain ⟨hfirst, hrest⟩ := fgets_fileLines hlines (h line (List.mem_cons_self ..))
        have hlt := fgets_length_lt hn hnil
        rw [pieces_cons hn hnil, hfirst, ih _ (hlen ▸ hlt) _ rfl, hrest]
        rw [hrest]
        exact fun l hl => h l (List.mem_cons_of_mem _ hl)

end Pieces

end OpenRecovery.Recovery
