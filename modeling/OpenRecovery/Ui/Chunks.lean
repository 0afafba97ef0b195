import OpenRecovery.Ui.InBuffers

/-!
# Printing in pieces

`ui_console_print` brings the top row up to date when it returns, so a text that is printed in two
pieces meets the commands `A`, `B` and `H`, and the shift of the rows, with other numbers than the
same text in one piece. Everything else adds the same to both: the console after the cut and the one
that goes on differ by a number `d` of rows that one of them has moved from the reserve to the top
row of the text.
-/

set_option autoImplicit false

namespace OpenRecovery.Ui

open OpenRecovery.Storage

/-- What there is to see of a console: all but the bookkeeping of the top row. -/
def Console.shown (s : Console) : Console :=
  { s with forceTopRowOnText := 0, forceTopRowReserve := 0 }

/-- The text in two pieces leaves the same console as the text in one. -/
def SameShown (s : Console) (s₁ s₂ : Bytes) : Prop :=
  ((uiConsolePrint s₁ s).bind (uiConsolePrint s₂)).map Console.shown =
    (uiConsolePrint (s₁ ++ s₂) s).map Console.shown

/-- The end of a print would change nothing. -/
def Settled (s : Console) : Prop :=
  s.forceTopRowReserve ≤ 0 ∧ s.topRow = max s.forceTopRowOnText 0

theorem Settled.settle_eq {s : Console} (h : Settled s) : settle s = s := by
  have hreserve : s.forceTopRowOnText + max s.forceTopRowReserve 0 = s.forceTopRowOnText := by
    rw [max_eq_right h.1, Int.add_zero]
  simp only [settle, hreserve, min_eq_left h.1, ← h.2]

/-- A text in two chunks is printed as a whole, but for the drawing between them. -/
theorem printChars_append (s₁ s₂ : Bytes) (s : Console) :
    printChars (s₁ ++ s₂) s = (printChars s₁ s).bind (printChars s₂) := by
  induction s₁ generalizing s with
  | nil => rfl
  | cons c s₁ ih =>
    rw [List.cons_append, printChars, printChars, Option.bind_assoc]
    exact congrArg _ (funext fun t => ih t)

/-- The two prints from the cut on. -/
theorem sameShown_iff {s σ : Console} {s₁ : Bytes} (hcut : printChars s₁ s = some σ) (s₂ : Bytes) :
    SameShown s s₁ s₂ ↔
      (printChars s₂ (settle σ)).map (fun t => (settle t).shown) =
        (printChars s₂ σ).map fun t => (settle t).shown := by
  unfold SameShown uiConsolePrint
  rw [printChars_append, hcut]
  simp only [Option.map_some, Option.bind_some, Option.map_map]
  exact Iff.rfl

/-- A chunk that cannot be printed can be printed in no other way. -/
theorem sameShown_of_none {s : Console} {s₁ : Bytes} (h : printChars s₁ s = none) (s₂ : Bytes) :
    SameShown s s₁ s₂ := by
  unfold SameShown uiConsolePrint
  rw [printChars_append, h]
  rfl

/-! ## Consoles that differ in the bookkeeping -/

/-- The console with `d` rows moved from the reserve to the top row of the text. -/
def ahead (d top : Int) (s : Console) : Console :=
  { s with
    forceTopRowOnText := s.forceTopRowOnText + d
    forceTopRowReserve := s.forceTopRowReserve - d
    topRow := top }

section Ahead

variable (d top : Int) (s : Console)

/-- A line feed does the same to a console that is ahead. -/
theorem lineFeed_ahead : lineFeed (ahead d top s) = ahead d top (lineFeed s) := by
  have h : s.forceTopRowReserve - d + 1 = s.forceTopRowReserve + 1 - d := by omega
  simp only [lineFeed, ahead, h]

theorem wrapLine_ahead : wrapLine (ahead d top s) = ahead d top (wrapLine s) := by
  simp only [wrapLine, lineFeed_ahead]
  rfl

/-- So does blanking cells. -/
theorem fillBlanks_ahead (first stop : Int) :
    fillBlanks (ahead d top s) first stop = (fillBlanks s first stop).map (ahead d top) := by
  unfold fillBlanks
  split_ifs with h1 h2 h3 h3
  · rfl
  · rfl
  · exact absurd h2 h3
  · exact absurd h3 h2
  · rfl

/-- So does a tab. -/
theorem putTab_ahead : putTab (ahead d top s) = (putTab s).map (ahead d top) := by
  have hwrap : ∀ x : Option Console,
      (x.map (ahead d top)).map wrapLine = (x.map wrapLine).map (ahead d top) := by
    intro x
    simp only [Option.map_map]
    exact congrArg (fun f => x.map f) (funext fun t => wrapLine_ahead d top t)
  simp only [putTab]
  rw [apply_ite (Option.map (ahead d top))]
  refine ite_congr rfl (fun _ => ?_) fun _ => ?_
  · rw [← hwrap, ← fillBlanks_ahead]
    rfl
  · rw [Option.map_map]
    show Option.map _ (fillBlanks (ahead d top s) _ _) = _
    rw [fillBlanks_ahead, Option.map_map]
    rfl

/-- So does a backspace. -/
theorem putBackspace_ahead : putBackspace (ahead d top s) = ahead d top (putBackspace s) := by
  unfold putBackspace
  rw [apply_ite (ahead d top), apply_ite (ahead d top)]
  rfl

/-- So does a letter. -/
theorem putText_ahead (c : UInt8) :
    putText c (ahead d top s) = (putText c s).map (ahead d top) := by
  simp only [putText]
  rw [apply_ite (Option.map (ahead d top))]
  refine ite_congr rfl (fun _ => ?_) fun _ => rfl
  rw [apply_ite (Option.map (ahead d top))]
  refine ite_congr rfl (fun _ => ?_) fun _ => rfl
  have h : s.forceTopRowReserve - d + 1 = s.forceTopRowReserve + 1 - d := by omega
  simp only [wrapLine, lineFeed, ahead, h, Option.map_some]
  rfl

/-- So does a character. -/
theorem putRaw_ahead (c : UInt8) :
    putRaw c (ahead d top s) = (putRaw c s).map (ahead d top) := by
  unfold putRaw
  split_ifs
  · exact congrArg some (lineFeed_ahead d top s)
  · rfl
  · exact putTab_ahead d top s
  · exact congrArg some (putBackspace_ahead d top s)
  · rfl
  · exact putText_ahead d top s c

/-- So does the shift of the rows, once the rows above are kept. -/
theorem shiftRows_ahead (habove : s.curRow = totalRows → bufferRows ≤ s.forceTopRowOnText)
    (hd : 0 ≤ d) : shiftRows (ahead d top s) = (shiftRows s).map (ahead d top) := by
  unfold shiftRows
  rw [apply_ite (Option.map (ahead d top))]
  refine ite_congr rfl (fun hrow => ?_) fun _ => rfl
  rw [apply_ite (Option.map (ahead d top))]
  refine ite_congr rfl (fun _ => ?_) fun _ => rfl
  have habove := habove hrow
  have hon : max (s.forceTopRowOnText + d - bufferRows) 0 =
      max (s.forceTopRowOnText - bufferRows) 0 + d := by omega
  simp only [ahead, Option.map_some, hon]
  rfl

end Ahead

/-- The condition on a character that is put after the cut: when it takes the cursor out of the
matrix, there are 64 rows above the text. -/
def ShiftOk (c : UInt8) (s : Console) : Prop :=
  ∀ t, putRaw c s = some t → t.curRow = totalRows → bufferRows ≤ t.forceTopRowOnText

/-- A step that both consoles take alike, and that does not lower the reserve. -/
def Alike (f : Console → Option Console) (d top : Int) (s : Console) : Prop :=
  f (ahead d top s) = (f s).map (ahead d top) ∧
    ∀ t, f s = some t → s.forceTopRowReserve ≤ t.forceTopRowReserve

/-- Two operations one after the other. -/
theorem Alike.bind {f g : Console → Option Console} {d top : Int} {s : Console}
    (hf : Alike f d top s) (hg : ∀ t, f s = some t → Alike g d top t) :
    Alike (fun s => (f s).bind g) d top s := by
  constructor
  · show (f (ahead d top s)).bind g = ((f s).bind g).map (ahead d top)
    rw [hf.1]
    cases h : f s with
    | none => rfl
    | some t => exact (hg t h).1
  · intro u hu
    obtain ⟨t, ht, hu⟩ := Option.bind_eq_some_iff.mp hu
    exact le_trans (hf.2 t ht) ((hg t ht).2 u hu)

/-- Blanking cells keeps the reserve. -/
theorem fillBlanks_reserve {s t : Console} {first stop : Int} (h : fillBlanks s first stop = some t) :
    t.forceTopRowReserve = s.forceTopRowReserve := by
  unfold fillBlanks at h
  split_ifs at h <;> cases h <;> rfl

/-- A character never lowers the reserve. -/
theorem putRaw_reserve {c : UInt8} {s t : Console} (h : putRaw c s = some t) :
    s.forceTopRowReserve ≤ t.forceTopRowReserve := by
  unfold putRaw at h
  split_ifs at h with hn hr ht hb hbell
  · cases h
    exact Int.le.intro 1 rfl
  · cases h
    exact le_refl _
  · simp only [putTab] at h
    split at h <;> obtain ⟨u, hu, rfl⟩ := Option.map_eq_some_iff.mp h
    · show s.forceTopRowReserve ≤ u.forceTopRowReserve + 1
      rw [fillBlanks_reserve hu]
      omega
    · exact le_of_eq (fillBlanks_reserve hu).symm
  · cases h
    unfold putBackspace
    split_ifs <;> exact le_refl _
  · cases h
    exact le_refl _
  · simp only [putText] at h
    split_ifs at h <;> cases h
    · exact Int.le.intro 1 rfl
    · exact le_refl _

/-- The shift of the rows keeps the reserve. -/
theorem shiftRows_reserve {s t : Console} (h : shiftRows s = some t) :
    t.forceTopRowReserve = s.forceTopRowReserve := by
  unfold shiftRows at h
  split_ifs at h <;> cases h <;> rfl

section Alike

variable {d top : Int} {s : Console}

/-- A character with the shift of the rows. -/
theorem alike_putChar {c : UInt8} (hd : 0 ≤ d) (h : ShiftOk c s) : Alike (putChar c) d top s :=
  Alike.bind (f := putRaw c)
    ⟨putRaw_ahead d top s c, fun _ => putRaw_reserve⟩
    fun t ht => ⟨shiftRows_ahead d top t (h t ht) hd, fun _ hu => le_of_eq (shiftRows_reserve hu).symm⟩

/-- The condition on several characters that are put after the cut. -/
def ShiftsOk : Bytes → Console → Prop
  | [], _ => True
  | c :: cs, s => ShiftOk c s ∧ ∀ t, putChar c s = some t → ShiftsOk cs t

theorem alike_some (s : Console) : Alike some d top s :=
  ⟨rfl, fun _ h => by cases h; exact le_refl _⟩

/-- A string of characters. Induction on it. -/
theorem alike_putChars {cs : Bytes} (hd : 0 ≤ d) (h : ShiftsOk cs s) :
    Alike (putChars cs) d top s := by
  induction cs generalizing s with
  | nil => exact alike_some s
  | cons c cs ih => exact (alike_putChar hd h.1).bind fun t ht => ih (h.2 t ht)

/-- The commands that read the bookkeeping of the top row. -/
def Sequence.readsTop (q : Sequence) : Prop :=
  q.isCommand ∧ (q.argument = ch 'A' ∨ q.argument = ch 'B' ∨ q.argument = ch 'H')

/-- A step that leaves the bookkeeping alone and does not read it. -/
theorem alike_of_same {f : Console → Option Console}
    (hahead : f (ahead d top s) = (f s).map (ahead d top))
    (hsame : ∀ t, f s = some t → t.forceTopRowReserve = s.forceTopRowReserve) : Alike f d top s :=
  ⟨hahead, fun t ht => le_of_eq (hsame t ht).symm⟩

/-- Clearing cells of the current row. -/
theorem alike_clearCells (first stop : Int) : Alike (fun s => clearCells s first stop) d top s := by
  refine alike_of_same ?_ ?_
  · show clearCells (ahead d top s) first stop = _
    simp only [clearCells, fillBlanks_ahead, Option.map_map]
    rfl
  · intro t ht
    obtain ⟨u, hu, rfl⟩ := Option.map_eq_some_iff.mp ht
    have hreserve := fillBlanks_reserve hu
    exact hreserve

/-- Clearing the rows below. -/
theorem alike_clearBelow : Alike clearBelow d top s := by
  refine alike_of_same ?_ ?_
  · unfold clearBelow
    rw [apply_ite (Option.map (ahead d top)), apply_ite (Option.map (ahead d top))]
    rfl
  · intro t ht
    unfold clearBelow at ht
    split_ifs at ht <;> cases ht <;> rfl

/-- Clearing parts of the current row. -/
theorem alike_clearLine (n : Int) : Alike (clearLine n) d top s := by
  have hcells : ∀ first stop : Int, Alike (fun s => clearCells s first stop) d top s :=
    fun first stop => alike_clearCells first stop
  unfold clearLine
  split_ifs
  · exact hcells s.curColumn (s.screenColumns - 1)
  · exact hcells 0 (s.curColumn + 1)
  · exact hcells 0 (s.screenColumns - 1)
  · exact alike_some s

/-- Colours are the same on a console that is ahead. -/
theorem setGraphics_ahead (code : Int) :
    setGraphics code (ahead d top s) = ahead d top (setGraphics code s) := by
  unfold setGraphics setFrontTermColor setFrontColor
  split_ifs <;> rfl

theorem setGraphics_reserve (code : Int) :
    (setGraphics code s).forceTopRowReserve = s.forceTopRowReserve := by
  unfold setGraphics setFrontTermColor setFrontColor
  split_ifs <;> rfl

/-- So are several of them. -/
theorem alike_foldGraphics (q : Sequence) (codes : List Nat) :
    Alike (fun s => some (codes.foldl (fun s i => setGraphics (q.parameters i) s) s)) d top s := by
  induction codes generalizing s with
  | nil => exact alike_some s
  | cons i codes ih =>
    refine Alike.bind (f := fun s => some (setGraphics (q.parameters i) s)) ?_ fun _ _ => ih
    refine alike_of_same ?_ ?_
    · exact congrArg some (setGraphics_ahead _)
    · intro t ht
      cases ht
      exact setGraphics_reserve _

/-- Moving right. -/
theorem alike_cursorRight (n : Int) : Alike (cursorRight n) d top s := by
  unfold cursorRight
  refine alike_of_same ?_ ?_
  · show (addInt s.curColumn n).bind _ = Option.map _ ((addInt s.curColumn n).bind _)
    cases addInt s.curColumn n <;> rfl
  · intro t ht
    obtain ⟨col, -, ht⟩ := Option.bind_eq_some_iff.mp ht
    cases ht
    rfl

/-- Moving left. -/
theorem alike_cursorLeft (n : Int) : Alike (cursorLeft n) d top s := by
  unfold cursorLeft
  refine alike_of_same ?_ ?_
  · show (addInt s.curColumn (-n)).bind _ = Option.map _ ((addInt s.curColumn (-n)).bind _)
    cases addInt s.curColumn (-n) <;> rfl
  · intro t ht
    obtain ⟨col, -, ht⟩ := Option.bind_eq_some_iff.mp ht
    cases ht
    rfl

/-- A sequence that does not read the bookkeeping is the same step for both consoles, or none. -/
theorem carryOut_alike {q : Sequence} (hq : ¬ q.readsTop) :
    (∃ f, Alike f d top s ∧ ∀ u, carryOut q u = (f u).map fun t => (true, t)) ∨
      (¬ q.recognised ∧ ∀ u, carryOut q u = some (false, u)) := by
  by_cases hcommand : q.isCommand
  · have harg : q.argument ≠ ch 'A' ∧ q.argument ≠ ch 'B' ∧ q.argument ≠ ch 'H' := by
      refine ⟨fun h => hq ⟨hcommand, .inl h⟩, fun h => hq ⟨hcommand, .inr (.inl h)⟩,
        fun h => hq ⟨hcommand, .inr (.inr h)⟩⟩
    simp only [carryOut, if_pos hcommand, if_neg harg.1, if_neg harg.2.1, if_neg harg.2.2]
    split_ifs with hC hD hJ hK hm
    · exact .inl ⟨_, alike_cursorRight _, fun _ => rfl⟩
    · exact .inl ⟨_, alike_cursorLeft _, fun _ => rfl⟩
    · refine .inl ⟨fun u => (clearCells u u.curColumn (u.screenColumns - 1)).bind clearBelow, ?_,
        fun _ => rfl⟩
      exact (alike_clearLine 0).bind fun _ _ => alike_clearBelow
    · exact .inl ⟨_, alike_clearLine _, fun _ => rfl⟩
    · exact .inl ⟨_, alike_foldGraphics q (List.range (q.noParameters + 1)), fun _ => rfl⟩
    · refine .inr ⟨?_, fun _ => rfl⟩
      rintro ⟨-, h⟩
      simp [harg, hC, hD, hJ, hK, hm] at h
  · exact .inr ⟨fun h => hcommand h.1, fun u => by rw [carryOut, if_neg hcommand]⟩

/-- The condition on a sequence that ends after the cut. -/
def PlainSequence (buffer : Bytes) (s : Console) : Prop :=
  ∀ q, scan buffer Sequence.empty = some q →
    ¬ q.readsTop ∧ (¬ q.recognised → ShiftsOk (ch '^' :: buffer) s)

theorem alike_none : Alike (fun _ => none) d top s := ⟨rfl, fun _ h => by cases h⟩

/-- A plain escape sequence. Those that read the top row are not plain. -/
theorem alike_unescape {buffer : Bytes} (hd : 0 ≤ d) (h : PlainSequence buffer s) :
    Alike (unescape buffer) d top s := by
  cases hscan : scan buffer Sequence.empty with
  | none =>
    have heq : unescape buffer = fun _ => none := by
      funext u
      rw [unescape, hscan]
      rfl
    rw [heq]
    exact alike_none
  | some q =>
    obtain ⟨hreads, hputs⟩ := h q hscan
    by_cases hmany : maxParameters < q.noParameters + 1
    · have heq : unescape buffer = fun _ => none := by
        funext u
        rw [unescape, hscan]
        exact if_pos hmany
      rw [heq]
      exact alike_none
    · have heq : unescape buffer = fun u => (carryOut q u).bind fun p =>
          if p.1 then some p.2 else putChars (ch '^' :: buffer) p.2 := by
        funext u
        rw [unescape, hscan]
        exact if_neg hmany
      rw [heq]
      rcases carryOut_alike hreads with ⟨f, hf, hcarry⟩ | ⟨hunknown, hcarry⟩
      · have hsame : (fun u => (carryOut q u).bind fun p =>
            if p.1 then some p.2 else putChars (ch '^' :: buffer) p.2) = f := by
          funext u
          rw [hcarry]
          cases f u <;> rfl
        rw [hsame]
        exact hf
      · have hsame : (fun u => (carryOut q u).bind fun p =>
            if p.1 then some p.2 else putChars (ch '^' :: buffer) p.2) =
            putChars (ch '^' :: buffer) := by
          funext u
          rw [hcarry]
          rfl
        rw [hsame]
        exact alike_putChars hd (hputs hunknown)

/-- The condition on a character after the cut: it ends no sequence that reads the bookkeeping, and
shifts the rows only where 64 of them are above the text. -/
def PlainChar (c : UInt8) (s : Console) : Prop :=
  if c = esc then True
  else if s.escapedState then
    continues c = false → PlainSequence (s.escaped ++ [c]) { s with escaped := s.escaped ++ [c] }
  else ShiftOk c s

/-- The condition on the text after the cut. -/
def PlainText : Bytes → Console → Prop
  | [], _ => True
  | c :: cs, s => PlainChar c s ∧ ∀ t, printChar c s = some t → PlainText cs t

/-- Operations that are equal at both states. -/
theorem Alike.congr {f g : Console → Option Console} (hg : Alike g d top s) (hs : f s = g s)
    (hahead : f (ahead d top s) = g (ahead d top s)) : Alike f d top s := by
  refine ⟨?_, ?_⟩
  · rw [hahead, hs]
    exact hg.1
  · rw [hs]
    exact hg.2

/-- Fields that are neither read nor part of the bookkeeping. -/
theorem alike_set {f : Console → Console} (hahead : f (ahead d top s) = ahead d top (f s))
    (hsame : (f s).forceTopRowReserve = s.forceTopRowReserve) :
    Alike (fun s => some (f s)) d top s := by
  refine alike_of_same (congrArg some hahead) ?_
  intro t ht
  cases ht
  exact hsame

/-- A byte of an escape sequence. -/
theorem alike_putEscapeSequence {c : UInt8} (hd : 0 ≤ d)
    (h : continues c = false →
      PlainSequence (s.escaped ++ [c]) { s with escaped := s.escaped ++ [c] }) :
    Alike (putEscapeSequence c) d top s := by
  by_cases hfull : escapedBufferSize ≤ s.escaped.length
  · exact alike_none.congr (if_pos hfull) (if_pos hfull)
  have hpush : Alike (fun u => some { u with escaped := s.escaped ++ [c] }) d top s :=
    alike_set rfl rfl
  cases hcont : continues c with
  | true =>
    refine hpush.congr ?_ ?_
    · simp only [putEscapeSequence, if_neg hfull, hcont, if_true]
    · show (if escapedBufferSize ≤ s.escaped.length then none else _) = _
      simp only [if_neg hfull, hcont, if_true]
      rfl
  | false =>
    by_cases hlast : escapedBufferSize ≤ (s.escaped ++ [c]).length
    · refine alike_none.congr ?_ ?_
      · simp only [putEscapeSequence, if_neg hfull, hcont, Bool.false_eq_true, if_false,
          if_pos hlast]
      · show (if escapedBufferSize ≤ s.escaped.length then none else _) = _
        simp only [if_neg hfull, hcont, Bool.false_eq_true, if_false]
        exact if_pos hlast
    · have hunescape : Alike (fun u => (unescape (s.escaped ++ [c]) u).bind fun t =>
          some { t with escapedState := false }) d top { s with escaped := s.escaped ++ [c] } :=
        (alike_unescape hd (h hcont)).bind fun t _ => alike_set rfl rfl
      refine (hpush.bind fun t ht => ?_).congr (g := fun u =>
        (some { u with escaped := s.escaped ++ [c] }).bind fun u =>
          (unescape (s.escaped ++ [c]) u).bind fun t => some { t with escapedState := false }) ?_ ?_
      · cases ht
        exact hunescape
      · simp only [putEscapeSequence, if_neg hfull, hcont, Bool.false_eq_true, if_false,
          if_neg hlast, Option.bind_some, Option.map_eq_bind]
        rfl
      · show (if escapedBufferSize ≤ s.escaped.length then none else _) = _
        simp only [if_neg hfull, hcont, Bool.false_eq_true, if_false, Option.map_eq_bind]
        exact if_neg hlast

/-- A byte of the output. -/
theorem alike_printChar {c : UInt8} (hd : 0 ≤ d) (h : PlainChar c s) :
    Alike (printChar c) d top s := by
  unfold PlainChar at h
  by_cases hesc : c = esc
  · have hset : Alike (fun u => some { u with escapedState := true, escaped := [] }) d top s :=
      alike_set rfl rfl
    exact hset.congr (if_pos hesc) (if_pos hesc)
  rw [if_neg hesc] at h
  by_cases hstate : s.escapedState = true
  · rw [if_pos hstate] at h
    refine (alike_putEscapeSequence hd h).congr ?_ ?_
    · rw [printChar, if_neg hesc, if_pos hstate]
    · rw [printChar, if_neg hesc]
      exact if_pos hstate
  · rw [if_neg hstate] at h
    refine (alike_putChar hd h).congr ?_ ?_
    · rw [printChar, if_neg hesc, if_neg hstate]
    · rw [printChar, if_neg hesc]
      exact if_neg hstate

/-- A plain text. Induction on it. -/
theorem alike_printChars {cs : Bytes} (hd : 0 ≤ d) (h : PlainText cs s) :
    Alike (printChars cs) d top s := by
  induction cs generalizing s with
  | nil => exact alike_some s
  | cons c cs ih => exact (alike_printChar hd h.1).bind fun t ht => ih (h.2 t ht)

end Alike

/-! ## The cut -/

/-- To settle is to be ahead by the rows in reserve. -/
theorem settle_eq_ahead (s : Console) :
    settle s = ahead (max s.forceTopRowReserve 0) (settle s).topRow s := by
  have h : min s.forceTopRowReserve 0 = s.forceTopRowReserve - max s.forceTopRowReserve 0 := by
    omega
  simp only [settle, ahead, h]

/-- After the end of the print the two consoles show the same. -/
theorem settle_ahead_shown {d top : Int} {s : Console} (hd : 0 ≤ d)
    (hle : d ≤ max s.forceTopRowReserve 0) : (settle (ahead d top s)).shown = (settle s).shown := by
  have h : s.forceTopRowOnText + d + max (s.forceTopRowReserve - d) 0 =
      s.forceTopRowOnText + max s.forceTopRowReserve 0 := by omega
  simp only [Console.shown, settle, ahead, h]

/-- Plain text may be cut anywhere. -/
theorem sameShown_of_plain {s σ : Console} {s₁ s₂ : Bytes} (hcut : printChars s₁ s = some σ)
    (hplain : PlainText s₂ σ) : SameShown s s₁ s₂ := by
  rw [sameShown_iff hcut, settle_eq_ahead]
  have hd : (0 : Int) ≤ max σ.forceTopRowReserve 0 := le_max_right _ _
  obtain ⟨hahead, hreserve⟩ := @alike_printChars _ (settle σ).topRow _ _ hd hplain
  rw [hahead]
  cases h : printChars s₂ σ with
  | none => rfl
  | some t =>
    have hle : max σ.forceTopRowReserve 0 ≤ max t.forceTopRowReserve 0 :=
      max_le_max_right 0 (hreserve t h)
    exact congrArg some (settle_ahead_shown hd hle)

/-- At a cut where the console is settled, the rest may be anything. -/
theorem sameShown_of_settled {s σ : Console} {s₁ : Bytes} (hcut : printChars s₁ s = some σ)
    (h : Settled σ) (s₂ : Bytes) : SameShown s s₁ s₂ := by
  rw [sameShown_iff hcut, h.settle_eq]

/-- `ESC[9999A`. -/
def upText : Bytes := esc :: cstr "[9999A"

/-- `ESC[H`. -/
def homeText : Bytes := esc :: cstr "[H"

/-- Bytes inside an escape sequence are collected. -/
theorem printChars_continues {body : Bytes} {s : Console} (hbody : ∀ c ∈ body, continues c = true)
    (hstate : s.escapedState = true) (hfits : s.escaped.length + body.length ≤ escapedBufferSize) :
    printChars body s = some { s with escaped := s.escaped ++ body } := by
  induction body generalizing s with
  | nil => rw [List.append_nil]; rfl
  | cons c body ih =>
    have hcont := hbody c List.mem_cons_self
    have hesc : c ≠ esc := by
      rintro rfl
      cases hcont
    rw [List.length_cons] at hfits
    have hchar : printChar c s = some { s with escaped := s.escaped ++ [c] } := by
      rw [printChar, if_neg hesc, if_pos hstate]
      simp only [putEscapeSequence, hcont, if_true]
      rw [if_neg (by omega)]
    have hrest := ih (s := { s with escaped := s.escaped ++ [c] })
      (fun x hx => hbody x (List.mem_cons_of_mem _ hx)) hstate
      (by rw [List.length_append, List.length_singleton]; omega)
    rw [printChars, hchar, Option.bind_some, hrest]
    simp only [List.append_assoc, List.singleton_append]

/-- A sequence of its own: it is read into the buffer and carried out. -/
theorem printChars_sequence {body : Bytes} {c : UInt8} (s : Console)
    (hbody : ∀ c ∈ body, continues c = true) (hlast : continues c = false) (hesc : c ≠ esc)
    (hfits : body.length + 1 < escapedBufferSize) :
    printChars (esc :: (body ++ [c])) s =
      (unescape (body ++ [c]) { s with escapedState := true, escaped := body ++ [c] }).map
        fun s => { s with escapedState := false } := by
  have hstart : printChar esc s = some { s with escapedState := true, escaped := [] } :=
    if_pos rfl
  rw [printChars, hstart, Option.bind_some, printChars_append,
    printChars_continues hbody rfl (by show 0 + body.length ≤ _; omega), Option.bind_some,
    printChars, printChar, if_neg hesc, if_pos rfl]
  simp only [putEscapeSequence, hlast, Bool.false_eq_true, if_false, List.nil_append]
  rw [if_neg (by omega), if_neg (by rw [List.length_append, List.length_singleton]; omega)]
  exact Option.bind_fun_some _

/-- The text that moves far up ends at the first row that is shown. -/
theorem print_up (s : Console) :
    (printChars upText s).map Console.curRow =
      (addInt s.curRow (-9999)).map fun row =>
        if row < s.forceTopRowOnText then s.forceTopRowOnText else row := by
  have htext : upText = esc :: (cstr "[9999" ++ [ch 'A']) := by decide
  rw [htext, printChars_sequence s (by decide +kernel) (by decide) (by decide) (by decide)]
  obtain ⟨q, hscan, hcommand, harg, hparam, hcount⟩ : ∃ q,
      scan (cstr "[9999" ++ [ch 'A']) Sequence.empty = some q ∧ q.isCommand ∧
        q.argument = ch 'A' ∧ q.parameters 0 = 9999 ∧ q.noParameters = 0 :=
    ⟨_, rfl, by decide, rfl, rfl, rfl⟩
  have hfew : ¬ maxParameters < q.noParameters + 1 := by
    rw [hcount]
    decide
  simp only [unescape, hscan, Option.bind_eq_bind, Option.bind_some, if_neg hfew, carryOut,
    if_pos hcommand, if_pos harg, hparam, cursorUp]
  cases addInt s.curRow (-9999) <;> rfl

/-- The text that moves home goes to the first row of the window. -/
theorem print_home (s : Console) :
    (printChars homeText s).map Console.curRow =
      some (s.topRow + if s.screenRows ≤ 0 then s.screenRows - 1 else 0) := by
  rfl

/-- The row of the cursor at the end of the two prints. -/
theorem curRow_eq_of_sameShown {s σ : Console} {s₁ s₂ : Bytes} (hcut : printChars s₁ s = some σ)
    (h : SameShown s s₁ s₂) :
    (printChars s₂ (settle σ)).map Console.curRow = (printChars s₂ σ).map Console.curRow := by
  have hrow := congrArg (Option.map Console.curRow) ((sameShown_iff hcut s₂).mp h)
  rw [Option.map_map, Option.map_map] at hrow
  exact hrow

/-- A cut that is not settled is seen by one of two texts. -/
theorem settled_of_sameShown {s σ : Console} {s₁ : Bytes} (hcut : printChars s₁ s = some σ)
    (hrow : 0 ≤ σ.curRow ∧ σ.curRow < 1024) (hon : 0 ≤ σ.forceTopRowOnText)
    (h : ∀ s₂, SameShown s s₁ s₂) : Settled σ := by
  have hreserve : σ.forceTopRowReserve ≤ 0 := by
    -- `ESC[9999A` goes to the top row of the text
    have hup := curRow_eq_of_sameShown hcut (h upText)
    rw [print_up, print_up, show (settle σ).curRow = σ.curRow from rfl,
      addInt_eq (by omega) (by omega)] at hup
    have hrows : (if σ.curRow + -9999 < (settle σ).forceTopRowOnText
        then (settle σ).forceTopRowOnText else σ.curRow + -9999) =
        if σ.curRow + -9999 < σ.forceTopRowOnText then σ.forceTopRowOnText
          else σ.curRow + -9999 := Option.some.inj hup
    have honText : (settle σ).forceTopRowOnText =
        σ.forceTopRowOnText + max σ.forceTopRowReserve 0 := rfl
    rw [if_pos (by rw [honText]; omega), if_pos (by omega), honText] at hrows
    omega
  refine ⟨hreserve, ?_⟩
  -- `ESC[H` goes to the top row of the screen
  have hhome := curRow_eq_of_sameShown hcut (h homeText)
  rw [print_home, print_home, show (settle σ).screenRows = σ.screenRows from rfl] at hhome
  have htop : (settle σ).topRow = σ.topRow := add_right_cancel (Option.some.inj hhome)
  rw [← htop]
  show max (σ.forceTopRowOnText + max σ.forceTopRowReserve 0) 0 = max σ.forceTopRowOnText 0
  omega

/-- The cursor is in the matrix and the top row of the text is not above it. -/
def CursorInMatrix (s : Console) : Prop :=
  0 ≤ s.curRow ∧ s.curRow < 1024 ∧ 0 ≤ s.forceTopRowOnText

/-- The condition on a text in two pieces: the console is settled at the cut, or what follows takes
no notice of the bookkeeping. -/
def CutOk (s : Console) (s₁ s₂ : Bytes) : Prop :=
  ∀ σ, printChars s₁ s = some σ → Settled σ ∨ PlainText s₂ σ

/-- A text may be cut where the condition holds, and at a cut that is to be harmless whatever
follows, the console is settled. -/
theorem print_chunks (s : Console) (s₁ : Bytes) :
    (∀ s₂, CutOk s s₁ s₂ → SameShown s s₁ s₂) ∧
      ((∀ σ, printChars s₁ s = some σ → CursorInMatrix σ) →
        ((∀ s₂, SameShown s s₁ s₂) ↔ ∀ σ, printChars s₁ s = some σ → Settled σ)) := by
  have hsettled : (∀ σ, printChars s₁ s = some σ → Settled σ) → ∀ s₂, SameShown s s₁ s₂ := by
    intro h s₂
    cases hcut : printChars s₁ s with
    | none => exact sameShown_of_none hcut s₂
    | some σ => exact sameShown_of_settled hcut (h σ hcut) s₂
  refine ⟨?_, fun hin => ⟨?_, hsettled⟩⟩
  · intro s₂ hok
    cases hcut : printChars s₁ s with
    | none => exact sameShown_of_none hcut s₂
    | some σ =>
      rcases hok σ hcut with h | h
      · exact sameShown_of_settled hcut h s₂
      · exact sameShown_of_plain hcut h
  · intro h σ hcut
    obtain ⟨h0, hlt, hon⟩ := hin σ hcut
    exact settled_of_sameShown hcut ⟨h0, hlt⟩ hon h

namespace Sample

/-- A letter, and another one. -/
theorem print_chunks_letters :
    SameShown (uiConsoleBegin scr start) [ch 'a'] [ch 'b'] := by
  refine (print_chunks (uiConsoleBegin scr start) [ch 'a']).1 [ch 'b'] fun σ hσ => .inr ?_
  refine ⟨?_, fun _ _ => trivial⟩
  obtain rfl := Option.some.inj hσ
  intro t ht hlast
  cases ht
  cases hlast

/-- Three newlines, and `ESC[9A` on its own: the command stops at another row. -/
theorem newlines_up_not_same :
    ¬ SameShown (uiConsoleBegin scr start) [10, 10, 10] (esc :: cstr "[9A") := by
  intro h
  have hrow := congrArg (Option.map Console.curRow) h
  have hne : ((uiConsolePrint [10, 10, 10] (uiConsoleBegin scr start)).bind
      (uiConsolePrint (esc :: cstr "[9A"))).map Console.curRow ≠
      (uiConsolePrint ([10, 10, 10] ++ (esc :: cstr "[9A")) (uiConsoleBegin scr start)).map
        Console.curRow := by decide +kernel
  rw [Option.map_map, Option.map_map] at hrow
  exact hne hrow

end Sample

end OpenRecovery.Ui
