import OpenRecovery.Edify.Grammar

/-!
# Tokens and their texts

A text is a row of tokens with layout between them. `Layout` is what the scanner skips, `Spells t w`
says that the scanner reads `w` as the token `t` wherever it stands, as long as what follows does
not make the token longer (`Stops`).

`spells_of_yylex` takes a token that has been read back to its text, and `yylex_of_spells` reads a
text with layout before it. `Lexes` is the same for a row of tokens; it does not depend on the text
before the row and on the text after it, which is what `Lexes.alone` uses.
-/

set_option autoImplicit false

namespace OpenRecovery.Edify

open OpenRecovery.Storage
open OpenRecovery.Updater (Expr)

/-! ## Layout -/

/-- Blanks, ends of lines, and comments with the end of their line. -/
inductive Layout : Bytes → Prop where
  | nil : Layout []
  | blank {c : UInt8} {text : Bytes} (hc : isBlank c = true) (h : Layout text) : Layout (c :: text)
  | newline {text : Bytes} (h : Layout text) : Layout (10 :: text)
  | comment {note text : Bytes} (hnote : 10 ∉ note) (h : Layout text) :
      Layout (35 :: (note ++ 10 :: text))

/-- The bytes that layout can begin with. -/
def isLayout (c : UInt8) : Bool := isBlank c || c = 10 || c = 35

/-- The text does not begin with layout. -/
def Sharp (text : Bytes) : Prop := ∀ c ∈ text.head?, isLayout c = false

theorem Layout.dropBlanks {text : Bytes} (h : Layout text) : Layout (text.dropWhile isBlank) := by
  induction h with
  | nil => exact .nil
  | blank hc _ ih => rwa [List.dropWhile_cons_of_pos hc]
  | newline h _ => exact .newline h
  | comment hnote h _ => exact .comment hnote h

theorem takeWhile_append_stop {α : Type} {p : α → Bool} {text rest : List α}
    (h : ∀ c ∈ rest.head?, p c = false) : (text ++ rest).takeWhile p = text.takeWhile p := by
  induction text with
  | nil =>
      cases rest with
      | nil => rfl
      | cons c rest => simp [h c rfl]
  | cons c text ih => simp only [List.cons_append, List.takeWhile_cons, ih]

theorem drop_takeWhile {α : Type} (p : α → Bool) (text : List α) :
    text.drop (text.takeWhile p).length = text.dropWhile p := by
  have hsplit := List.takeWhile_append_dropWhile (p := p) (l := text)
  calc text.drop (text.takeWhile p).length
      = (text.takeWhile p ++ text.dropWhile p).drop (text.takeWhile p).length := by rw [hsplit]
    _ = text.dropWhile p := List.drop_left

theorem takeWhile_all {α : Type} {p : α → Bool} {text rest : List α} (hall : ∀ c ∈ text, p c = true)
    (h : ∀ c ∈ rest.head?, p c = false) : (text ++ rest).takeWhile p = text := by
  rw [takeWhile_append_stop h]
  exact List.takeWhile_eq_self_iff.mpr hall

theorem sharp_not_blank {text : Bytes} (h : Sharp text) : ∀ c ∈ text.head?, isBlank c = false := by
  intro c hc
  have := h c hc
  simp only [isLayout, Bool.or_eq_false_iff] at this
  exact this.1.1

theorem initialRule_blank {c : UInt8} (hc : isBlank c = true) (text : Bytes) :
    initialRule (c :: text) = some (.blank ((c :: text).takeWhile isBlank).length) := by
  have hcases : c = 32 ∨ c = 9 := by simpa [isBlank] using hc
  rcases hcases with rfl | rfl <;> rfl

theorem initialRule_comment {note : Bytes} (hnote : 10 ∉ note) (text : Bytes) :
    initialRule (35 :: (note ++ 10 :: text)) = some (.newline (note.length + 2)) := by
  have hall : (note ++ 10 :: text).takeWhile (fun c => !decide (c = 10)) = note := by
    apply takeWhile_all
    · intro c hc
      simpa using fun hten : c = 10 => hnote (hten ▸ hc)
    · simp
  simp [initialRule, isWord, isBlank, hall]

/-- Operators are no layout and open no literal. -/
theorem symbolRule_ne (text : Bytes) :
    (∀ k, symbolRule text ≠ .blank k) ∧ (∀ k, symbolRule text ≠ .newline k) ∧
      symbolRule text ≠ .quote := by
  unfold symbolRule
  split <;> simp

/-- No rule for layout matches a text that does not begin with layout. -/
theorem Sharp.rule {text : Bytes} (h : Sharp text) (k : Nat) :
    initialRule text ≠ some (.blank k) ∧ initialRule text ≠ some (.newline k) := by
  cases text with
  | nil => simp [initialRule]
  | cons c text =>
      have hc := h c rfl
      simp only [isLayout, Bool.or_eq_false_iff, decide_eq_false_iff_not] at hc
      obtain ⟨⟨hblank, hten⟩, hhash⟩ := hc
      simp only [initialRule, hblank, if_neg hten, if_neg hhash, Bool.false_eq_true, if_false, ne_eq,
        Option.some.injEq]
      split_ifs
      · simp
      · simp
      · exact ⟨(symbolRule_ne _).1 k, (symbolRule_ne _).2.1 k⟩

theorem Sharp.skipLayout {s : Scanner} (h : Sharp s.rest) (n : Nat) : skipLayout n s = s :=
  skipLayout_of_rule (fun k => (h.rule k).1) fun k => (h.rule k).2

/-- Before a text that does not begin with layout, all layout is skipped. -/
theorem skipLayout_layout {n : Nat} {lay rest : Bytes} (hlay : Layout lay) (hn : lay.length ≤ n)
    (hrest : Sharp rest) {s : Scanner} (hs : s.rest = lay ++ rest) :
    (skipLayout n s).rest = rest ∧ (skipLayout n s).pos = s.pos + lay.length := by
  induction n generalizing lay s with
  | zero =>
      cases List.length_eq_zero_iff.mp (Nat.le_zero.mp hn)
      exact ⟨hs, rfl⟩
  | succ n ih =>
      cases hlay with
      | nil =>
          have hsharp : Sharp s.rest := by rwa [hs]
          rw [hsharp.skipLayout]
          exact ⟨hs, rfl⟩
      | @blank c text hc h =>
          -- the rule takes the whole run of blanks
          have hrun : ((c :: text) ++ rest).takeWhile isBlank = (c :: text).takeWhile isBlank :=
            takeWhile_append_stop (sharp_not_blank hrest)
          have hsplit := List.takeWhile_append_dropWhile (p := isBlank) (l := c :: text)
          have hpos : 0 < ((c :: text).takeWhile isBlank).length := by
            rw [List.takeWhile_cons_of_pos hc]
            exact Nat.succ_pos _
          have hlen : ((c :: text).takeWhile isBlank).length +
              ((c :: text).dropWhile isBlank).length = (c :: text).length := by
            rw [← List.length_append, hsplit]
          have hrule : initialRule s.rest =
              some (.blank ((c :: text).takeWhile isBlank).length) := by
            rw [hs, List.cons_append, initialRule_blank hc, ← List.cons_append, hrun]
          have hdrop : (s.advance ((c :: text).takeWhile isBlank).length).rest =
              (c :: text).dropWhile isBlank ++ rest := by
            simp only [Scanner.advance, Scanner.consume, hs]
            rw [List.drop_append_of_le_length (by omega), drop_takeWhile]
          have hih := ih (Layout.blank hc h).dropBlanks (by omega) hdrop
          rw [skipLayout, hrule]
          refine ⟨hih.1, hih.2.trans ?_⟩
          simp only [Scanner.advance, Scanner.consume]
          omega
      | newline h =>
          have hrule : initialRule s.rest = some (.newline 1) := by rw [hs]; rfl
          have hih := ih h (Nat.le_of_succ_le_succ hn) (s := s.newline 1)
            (by simp [Scanner.newline, hs])
          rw [skipLayout, hrule]
          refine ⟨hih.1, hih.2.trans ?_⟩
          simp only [Scanner.newline, List.length_cons]
          omega
      | @comment note text hnote h =>
          have hrule : initialRule s.rest = some (.newline (note.length + 2)) := by
            rw [hs, List.cons_append, List.append_assoc, List.cons_append, initialRule_comment hnote]
          have hdrop : (s.newline (note.length + 2)).rest = text ++ rest := by
            simp only [Scanner.newline, hs, List.cons_append, List.append_assoc]
            rw [List.drop_succ_cons, ← List.drop_drop, List.drop_left]
            rfl
          have hlen : (35 :: (note ++ 10 :: text)).length = note.length + 2 + text.length := by
            simp only [List.length_cons, List.length_append]
            omega
          have hih := ih h (by omega) hdrop
          rw [skipLayout, hrule]
          refine ⟨hih.1, hih.2.trans ?_⟩
          simp only [Scanner.newline, hlen]
          omega

theorem Layout.append {l₁ l₂ : Bytes} (h₁ : Layout l₁) (h₂ : Layout l₂) : Layout (l₁ ++ l₂) := by
  induction h₁ with
  | nil => exact h₂
  | blank hc _ ih => exact .blank hc ih
  | newline _ ih => exact .newline ih
  | comment hnote _ ih =>
      rw [List.cons_append, List.append_assoc, List.cons_append]
      exact .comment hnote ih

theorem layout_blanks {text : Bytes} (h : ∀ c ∈ text, isBlank c = true) : Layout text := by
  induction text with
  | nil => exact .nil
  | cons c text ih =>
      exact .blank (h c (List.mem_cons_self ..)) (ih fun b hb => h b (List.mem_cons_of_mem _ hb))

/-- A rule for blanks or the end of a line matches layout. -/
theorem layout_of_rule {text : Bytes} {k : Nat}
    (h : initialRule text = some (.blank k) ∨ initialRule text = some (.newline k)) :
    ∃ lay rest, text = lay ++ rest ∧ lay.length = k ∧ 0 < k ∧ Layout lay := by
  by_cases hsharp : Sharp text
  · rcases h with h | h
    · exact absurd h (hsharp.rule k).1
    · exact absurd h (hsharp.rule k).2
  · obtain ⟨c, rest, rfl, hc⟩ : ∃ c rest, text = c :: rest ∧ isLayout c = true := by
      cases text with
      | nil => exact absurd (fun c hc => by cases hc) hsharp
      | cons c rest =>
          refine ⟨c, rest, rfl, ?_⟩
          by_contra hc
          apply hsharp
          intro b hb
          cases hb
          simpa using hc
    simp only [isLayout, Bool.or_eq_true, decide_eq_true_eq] at hc
    rcases hc with (hblank | rfl) | rfl
    · rw [initialRule_blank hblank] at h
      simp only [Option.some.injEq, Rule.blank.injEq, reduceCtorEq, or_false] at h
      refine ⟨_, _, (List.takeWhile_append_dropWhile (p := isBlank)).symm, h, ?_, ?_⟩
      · rw [← h, List.takeWhile_cons_of_pos hblank]
        exact Nat.succ_pos _
      · exact layout_blanks fun b hb => List.mem_takeWhile_imp hb
    · refine ⟨[10], rest, rfl, ?_⟩
      have hk : 1 = k := by simpa [initialRule, isWord, isBlank] using h
      exact ⟨hk, hk ▸ Nat.one_pos, .newline .nil⟩
    · by_cases hten : 10 ∈ rest
      · obtain ⟨note, after, rfl, hnote⟩ := List.eq_append_cons_of_mem hten
        rw [initialRule_comment hnote] at h
        simp only [Option.some.injEq, reduceCtorEq, Rule.newline.injEq, false_or] at h
        refine ⟨35 :: (note ++ [10]), after, by simp, ?_, by omega, .comment hnote .nil⟩
        rw [← h, List.length_cons, List.length_append, List.length_singleton]
      · simp [initialRule, isWord, isBlank, hten] at h

/-- What is skipped is layout, and with enough fuel no layout is left. -/
theorem skipLayout_split (n : Nat) (s : Scanner) :
    ∃ lay, s.rest = lay ++ (skipLayout n s).rest ∧ Layout lay ∧
      (skipLayout n s).pos = s.pos + lay.length ∧
      (s.rest.length ≤ n → ∀ k, initialRule (skipLayout n s).rest ≠ some (.blank k) ∧
        initialRule (skipLayout n s).rest ≠ some (.newline k)) := by
  induction n generalizing s with
  | zero =>
      refine ⟨[], rfl, .nil, rfl, ?_⟩
      intro hlen k
      cases hrest : s.rest with
      | nil => simp [skipLayout, hrest, initialRule]
      | cons c rest => simp [hrest] at hlen
  | succ n ih =>
      -- one rule, and then the rest by induction
      have hstep : ∀ k s', (initialRule s.rest = some (.blank k) ∨
          initialRule s.rest = some (.newline k)) → skipLayout (n + 1) s = skipLayout n s' →
          s'.rest = s.rest.drop k → s'.pos = s.pos + k →
          ∃ lay, s.rest = lay ++ (skipLayout (n + 1) s).rest ∧ Layout lay ∧
            (skipLayout (n + 1) s).pos = s.pos + lay.length ∧
            (s.rest.length ≤ n + 1 → ∀ k, initialRule (skipLayout (n + 1) s).rest ≠ some (.blank k) ∧
              initialRule (skipLayout (n + 1) s).rest ≠ some (.newline k)) := by
        intro k s' hrule hskip hrest hpos
        obtain ⟨lay₁, rest₁, htext, hlen₁, hk, hlay₁⟩ := layout_of_rule hrule
        obtain ⟨lay₂, hsplit, hlay₂, hpos₂, hend⟩ := ih s'
        have hdrop : s'.rest = rest₁ := by rw [hrest, htext, ← hlen₁, List.drop_left]
        rw [hskip]
        refine ⟨lay₁ ++ lay₂, ?_, hlay₁.append hlay₂, ?_, ?_⟩
        · rw [htext, List.append_assoc, ← hsplit, hdrop]
        · rw [hpos₂, hpos, List.length_append, hlen₁, Nat.add_assoc]
        · intro hlen
          apply hend
          rw [hdrop]
          rw [htext, List.length_append, hlen₁] at hlen
          omega
      cases hrule : initialRule s.rest with
      | none =>
          have hskip : skipLayout (n + 1) s = s := by rw [skipLayout, hrule]
          exact ⟨[], by rw [hskip]; rfl, .nil, by rw [hskip]; rfl, by simp [hskip, hrule]⟩
      | some rule =>
          cases rule with
          | blank k => exact hstep k (s.advance k) (.inl hrule) (by rw [skipLayout, hrule]) rfl rfl
          | newline k => exact hstep k (s.newline k) (.inr hrule) (by rw [skipLayout, hrule]) rfl rfl
          | _ =>
              have hskip : skipLayout (n + 1) s = s := by rw [skipLayout, hrule]
              exact ⟨[], by rw [hskip]; rfl, .nil, by rw [hskip]; rfl, by simp [hskip, hrule]⟩

/-! ## Texts of tokens -/

/-- The text after a token does not make it longer. -/
def Stops (w rest : Bytes) : Prop :=
  ∀ c ∈ rest.head?, (w.all isWord = true → isWord c = false) ∧ (w = [33] → c ≠ 61)

/-- The scanner reads `w` as the token `t`. -/
structure Spells (t : Token) (w : Bytes) : Prop where
  sharp : ∀ rest, Sharp (w ++ rest)
  ne_nil : w ≠ []
  lex : ∀ (s : Scanner) (rest : Bytes), s.rest = w ++ rest → Stops w rest →
    ∃ s', yylex s = .token t s' ∧ s'.rest = rest ∧ s'.pos = s.pos + w.length ∧
      s'.yylloc = ⟨s.pos, s.pos + w.length⟩

theorem sharp_cons {c : UInt8} (hc : isLayout c = false) (text : Bytes) : Sharp (c :: text) := by
  intro b hb
  cases hb
  exact hc

/-- A text for which one rule returns the token. -/
theorem spells_of_rule {t : Token} {c : UInt8} {w : Bytes} (hc : isLayout c = false)
    (hrule : ∀ rest, Stops (c :: w) rest →
      initialRule (c :: w ++ rest) = some (.token t (c :: w).length)) : Spells t (c :: w) where
  sharp := fun rest => sharp_cons hc (w ++ rest)
  ne_nil := List.cons_ne_nil _ _
  lex := by
    intro s rest hs hstop
    have hskip : skipLayout s.rest.length s = s :=
      Sharp.skipLayout (by rw [hs]; exact sharp_cons hc _) _
    refine ⟨s.advance (c :: w).length, ?_, ?_, rfl, rfl⟩
    · rw [yylex, hskip, lexToken, hs, hrule rest hstop]
    · simp only [Scanner.advance, Scanner.consume, hs, List.drop_left]

theorem isLayout_of_isWord {c : UInt8} (h : isWord c = true) : isLayout c = false ∧ c ≠ 34 := by
  by_contra hc
  have hcases : c = 32 ∨ c = 9 ∨ c = 10 ∨ c = 35 ∨ c = 34 := by
    simp only [isLayout, isBlank, not_and_or, Bool.not_eq_false, Bool.or_eq_true, decide_eq_true_eq,
      not_not] at hc
    tauto
  rcases hcases with rfl | rfl | rfl | rfl | rfl <;> cases h

/-- Words. -/
theorem spells_word {w : Bytes} (hne : w ≠ []) (hw : ∀ c ∈ w, isWord c = true) :
    Spells (wordToken w) w := by
  obtain ⟨c, w, rfl⟩ := List.exists_cons_of_ne_nil hne
  have hc := hw c (List.mem_cons_self ..)
  have hall : (c :: w).all isWord = true := List.all_eq_true.mpr hw
  apply spells_of_rule (isLayout_of_isWord hc).1
  intro rest hstop
  have hrun : ((c :: w) ++ rest).takeWhile isWord = c :: w :=
    takeWhile_all hw fun b hb => (hstop b hb).1 hall
  rw [List.cons_append] at hrun ⊢
  rw [initialRule, if_neg (isLayout_of_isWord hc).2, if_pos hc, hrun]

theorem stops_of_length {w : Bytes} (hword : w.all isWord = false) (hne : w ≠ [33]) (rest : Bytes) :
    Stops w rest := fun _ _ =>
  ⟨fun h => absurd (hword.symm.trans h) (by decide), fun h => absurd h hne⟩

/-- The texts of the operators: what they begin with, and that no other one is longer. -/
theorem symbols_spec {w : Bytes} {t : Token} (h : (w, t) ∈ symbols) :
    (∃ c w', w = c :: w' ∧ isLayout c = false ∧ isWord c = false ∧ c ≠ 34) ∧
      w.all isWord = false := by
  have hall : ∀ p ∈ symbols, (∃ c ∈ p.1.head?, isLayout c = false ∧ isWord c = false ∧ c ≠ 34) ∧
      p.1.all isWord = false := by decide
  obtain ⟨⟨c, hc, hlayout, hword, hquote⟩, hall⟩ := hall _ h
  obtain ⟨w', hw'⟩ := List.head?_eq_some_iff.mp hc
  exact ⟨⟨c, w', hw', hlayout, hword, hquote⟩, hall⟩

theorem symbolRule_spec {w : Bytes} {t : Token} (h : (w, t) ∈ symbols) {rest : Bytes}
    (hstop : Stops w rest) : symbolRule (w ++ rest) = .token t w.length := by
  simp only [symbols, List.mem_cons, Prod.mk.injEq, List.not_mem_nil, or_false] at h
  rcases h with ⟨rfl, rfl⟩ | ⟨rfl, rfl⟩ | ⟨rfl, rfl⟩ | ⟨rfl, rfl⟩ | ⟨rfl, rfl⟩ | ⟨rfl, rfl⟩ |
    ⟨rfl, rfl⟩ | ⟨rfl, rfl⟩ | ⟨rfl, rfl⟩ | ⟨rfl, rfl⟩
  case inr.inr.inr.inr.inl =>
    cases rest with
    | nil => rfl
    | cons c rest =>
        have hne : c ≠ 61 := (hstop c rfl).2 rfl
        simp [symbolRule, symbols, Ne.symm hne]
  all_goals rfl

theorem spells_symbol {w : Bytes} {t : Token} (h : (w, t) ∈ symbols) : Spells t w := by
  obtain ⟨⟨c, w', rfl, hlayout, hword, hquote⟩, -⟩ := symbols_spec h
  apply spells_of_rule hlayout
  intro rest hstop
  have hrule := symbolRule_spec h hstop
  have hnot := hlayout
  simp only [isLayout, Bool.or_eq_false_iff, decide_eq_false_iff_not] at hnot
  simp only [List.cons_append, initialRule, if_neg hquote, hword, hnot.1.1, if_neg hnot.1.2,
    if_neg hnot.2, Bool.false_eq_true, if_false, Option.some.injEq] at hrule ⊢
  exact hrule

theorem symbolRule_token {text : Bytes} {t : Token} {n : Nat}
    (h : symbolRule text = .token t n) :
    ∃ w rest, (w, t) ∈ symbols ∧ text = w ++ rest ∧ w.length = n ∧ Stops w rest := by
  unfold symbolRule at h
  split at h
  · next w u hfind =>
      cases h
      have hmem := List.mem_of_find?_eq_some hfind
      have hpre := List.find?_some hfind
      obtain ⟨rest, rfl⟩ := List.isPrefixOf_iff_prefix.mp hpre
      refine ⟨w, rest, hmem, rfl, rfl, ?_⟩
      by_cases hbang : w = [33]
      · subst hbang
        intro c hc
        refine ⟨fun hword => absurd hword (by decide), ?_⟩
        -- `!=` comes first in the table
        rintro - rfl
        obtain ⟨rest, rfl⟩ := List.head?_eq_some_iff.mp hc
        cases hfind
      · exact stops_of_length (symbols_spec hmem).2 hbang rest
  · cases h

/-- The text between quotes is read as the token `t`, with `buf` in the buffer before it. -/
def Quotes (buf body : Bytes) (t : Token) : Prop :=
  ∀ (n : Nat) (rest : Bytes) (s : Scanner), body.length < n → s.rest = body ++ 34 :: rest →
    ∃ s', strLoop n buf s = .token t s' ∧ s'.rest = rest ∧ s'.pos = s.pos + body.length + 1 ∧
      s'.yylloc = ⟨s.yylloc.start, s'.pos⟩

theorem hexRule_quote (body rest rest' : Bytes) :
    hexRule (body ++ 34 :: rest) = hexRule (body ++ 34 :: rest') := by
  have hdigit : isDigitOf 16 34 = false := by decide
  match body with
  | [] => cases rest <;> cases rest' <;> simp [hexRule, hdigit]
  | [h] => simp [hexRule, hdigit]
  | h :: l :: body => rfl

/-- The closing quote ends every escape before it. -/
theorem escapeRule_quote (body rest rest' : Bytes) :
    escapeRule (body ++ 34 :: rest) = escapeRule (body ++ 34 :: rest') := by
  cases body with
  | nil => rfl
  | cons c body =>
      simp only [List.cons_append, escapeRule]
      rw [hexRule_quote body rest rest']

theorem strRule_quote (body rest rest' : Bytes) :
    strRule (body ++ 34 :: rest) = strRule (body ++ 34 :: rest') := by
  cases body with
  | nil => rfl
  | cons c body =>
      simp only [List.cons_append, strRule]
      rw [escapeRule_quote body rest rest']

/-- The number of bytes a rule takes. -/
def StrRule.size : StrRule → Nat
  | close => 1
  | put _ n => n
  | newline => 1

theorem hexRule_size (text : Bytes) :
    (hexRule text).size = 1 ∨ (hexRule text).size = 4 ∧ 2 ≤ text.length := by
  match text with
  | [] => exact .inl rfl
  | [h] => exact .inl rfl
  | h :: l :: text =>
      simp only [hexRule]
      split
      · exact .inr ⟨rfl, Nat.le_add_left 2 _⟩
      · exact .inl rfl

theorem escapeRule_size (text : Bytes) :
    0 < (escapeRule text).size ∧ (escapeRule text).size ≤ text.length + 1 := by
  cases text with
  | nil => exact ⟨Nat.one_pos, Nat.le_refl _⟩
  | cons c text =>
      have hhex := hexRule_size text
      have hput : ∀ b k, 0 < k → k ≤ 2 →
          0 < (StrRule.put b k).size ∧ (StrRule.put b k).size ≤ text.length + 1 + 1 :=
        fun b k hk hk' => ⟨hk, hk'.trans (Nat.le_add_left 2 _)⟩
      simp only [escapeRule, List.length_cons]
      split_ifs
      · exact hput 10 2 (by decide) (by decide)
      · exact hput 9 2 (by decide) (by decide)
      · exact hput 34 2 (by decide) (by decide)
      · exact hput 92 2 (by decide) (by decide)
      · omega
      · exact hput 92 1 (by decide) (by decide)

theorem strRule_size {text : Bytes} {rule : StrRule} (h : strRule text = some rule) :
    0 < rule.size ∧ rule.size ≤ text.length := by
  cases text with
  | nil => cases h
  | cons c text =>
      cases h
      have hone : 0 < 1 ∧ 1 ≤ (c :: text).length := ⟨Nat.one_pos, Nat.le_add_left 1 _⟩
      split_ifs
      · exact hone
      · exact escapeRule_size text
      · exact hone
      · exact hone

/-- Every rule but the closing quote puts a byte into the buffer, and which one depends on the rule
alone. -/
theorem strLoop_rule {rule : StrRule} (hne : rule ≠ .close) {buf : Bytes}
    (hroom : ¬ maxStringLen ≤ buf.length) :
    ∃ b, ∀ (n : Nat) (s : Scanner), strRule s.rest = some rule →
      ∃ s', strLoop (n + 1) buf s = strLoop n (buf ++ [b]) s' ∧ s'.rest = s.rest.drop rule.size ∧
        s'.pos = s.pos + rule.size ∧ s'.yylloc = s.yylloc := by
  cases rule with
  | close => exact absurd rfl hne
  | put b k =>
      refine ⟨b, fun n s hrule => ⟨s.consume k, ?_, rfl, rfl, rfl⟩⟩
      rw [strLoop, hrule]
      simp only [if_neg hroom]
  | newline =>
      refine ⟨10, fun n s hrule => ⟨s.newline 1, ?_, rfl, rfl, rfl⟩⟩
      rw [strLoop, hrule]
      simp only [if_neg hroom]

theorem strLoop_close {n : Nat} {buf : Bytes} (hroom : ¬ maxStringLen ≤ buf.length) {s : Scanner}
    (hrule : strRule s.rest = some .close) :
    strLoop (n + 1) buf s = .token (.string (buf.takeWhile (· ≠ 0))) s.closeQuote := by
  rw [strLoop, hrule]
  simp only [if_neg hroom]

theorem strRule_eq_close {text : Bytes} (h : strRule text = some .close) :
    ∃ rest, text = 34 :: rest := by
  cases text with
  | nil => cases h
  | cons c text =>
      simp only [strRule, Option.some.injEq] at h
      split_ifs at h with h₁ h₂ h₃
      · exact ⟨text, by rw [h₁]⟩
      · exfalso
        cases text with
        | nil => cases h
        | cons c text =>
            simp only [escapeRule] at h
            split_ifs at h
            rcases text with _ | ⟨a, _ | ⟨b, text⟩⟩
            · cases h
            · cases h
            · simp only [hexRule] at h
              split_ifs at h

/-- A literal that has been read is read in the same way wherever it stands. -/
theorem quotes_of_strLoop {n : Nat} {buf : Bytes} {s s' : Scanner} {t : Token}
    (h : strLoop n buf s = .token t s') :
    ∃ body, s.rest = body ++ 34 :: s'.rest ∧ Quotes buf body t ∧ ∃ str, t = .string str := by
  induction n generalizing buf s with
  | zero => cases h
  | succ n ih =>
      cases hrule : strRule s.rest with
      | none =>
          rw [strLoop, hrule] at h
          cases h
      | some rule =>
          by_cases hroom : maxStringLen ≤ buf.length
          · rw [strLoop, hrule] at h
            simp only [if_pos hroom] at h
            cases h
          by_cases hclose : rule = .close
          · subst hclose
            obtain ⟨rest, hrest⟩ := strRule_eq_close hrule
            rw [strLoop_close hroom hrule] at h
            cases h
            refine ⟨[], by simp [Scanner.closeQuote, Scanner.consume, hrest], ?_, _, rfl⟩
            intro m rest r hm hr
            obtain ⟨m, rfl⟩ := Nat.exists_eq_add_of_lt hm
            have hr' : strRule r.rest = some .close := by rw [hr]; rfl
            refine ⟨_, strLoop_close hroom hr', ?_, rfl, rfl⟩
            simp [Scanner.closeQuote, Scanner.consume, hr]
          · obtain ⟨b, hput⟩ := strLoop_rule hclose hroom
            obtain ⟨s₁, hloop, hrest₁, -, -⟩ := hput n s hrule
            rw [hloop] at h
            obtain ⟨body, hbody, hquotes, hstr⟩ := ih h
            obtain ⟨hpos, hle⟩ := strRule_size hrule
            have hlen : (s.rest.take rule.size).length = rule.size := List.length_take_of_le hle
            have hsplit : s.rest = s.rest.take rule.size ++ body ++ 34 :: s'.rest := by
              rw [List.append_assoc, ← hbody, hrest₁, List.take_append_drop]
            refine ⟨s.rest.take rule.size ++ body, hsplit, ?_, hstr⟩
            intro m rest r hm hr
            rw [List.length_append, hlen] at hm
            obtain ⟨m, rfl⟩ : ∃ m', m = m' + 1 := ⟨m - 1, by omega⟩
            -- the next rule is the same whatever follows the closing quote
            have hsame : strRule r.rest = some rule := by
              rw [hr, strRule_quote _ rest s'.rest, ← hsplit, hrule]
            obtain ⟨r₁, hloop₁, hrest₁', hpos₁, hloc₁⟩ := hput m r hsame
            have hr₁ : r₁.rest = body ++ 34 :: rest := by
              rw [hrest₁', hr, List.append_assoc, List.drop_left' hlen]
            obtain ⟨r', hlex, hrest', hpos', hloc'⟩ := hquotes m rest r₁ (by omega) hr₁
            refine ⟨r', by rw [hloop₁, hlex], hrest', ?_, by rw [hloc', hloc₁]⟩
            rw [hpos', hpos₁, List.length_append, hlen]
            omega

/-- Literals. -/
theorem spells_quoted {body : Bytes} {t : Token} (h : Quotes [] body t) :
    Spells t (34 :: (body ++ [34])) where
  sharp := fun rest => sharp_cons (by decide) _
  ne_nil := List.cons_ne_nil _ _
  lex := by
    intro s rest hs _
    have hs' : s.rest = 34 :: (body ++ 34 :: rest) := by simpa using hs
    have hlen : body.length < (body ++ 34 :: rest).length + 1 := by
      rw [List.length_append]
      omega
    obtain ⟨s', hlex, hrest, hpos, hloc⟩ := h ((body ++ 34 :: rest).length + 1) rest
      { s.consume 1 with yylloc := ⟨s.pos, s.yylloc.stop⟩ } hlen (by simp [Scanner.consume, hs'])
    have hend : s'.pos = s.pos + (34 :: (body ++ [34])).length := by
      rw [hpos]
      simp only [Scanner.consume, List.length_cons, List.length_append, List.length_nil]
      omega
    exact ⟨s', by rw [yylex_quote hs', hlex], hrest, hend, by rw [hloc, hend]⟩

theorem stops_quoted (body rest : Bytes) : Stops (34 :: (body ++ [34])) rest :=
  stops_of_length rfl (by simp) rest

theorem initialRule_quote {text : Bytes} (h : initialRule text = some .quote) :
    ∃ rest, text = 34 :: rest := by
  cases text with
  | nil => cases h
  | cons c rest =>
      by_cases hc : c = 34
      · exact ⟨rest, by rw [hc]⟩
      · simp only [initialRule, if_neg hc, Option.some.injEq] at h
        split_ifs at h
        exact absurd h (symbolRule_ne _).2.2

/-- A rule that returns a token matches a word or an operator. -/
theorem initialRule_token {c : UInt8} {rest : Bytes} {t : Token} {n : Nat}
    (h : initialRule (c :: rest) = some (.token t n)) :
    (isWord c = true ∧ t = wordToken ((c :: rest).takeWhile isWord) ∧
      n = ((c :: rest).takeWhile isWord).length) ∨ symbolRule (c :: rest) = .token t n := by
  simp only [initialRule, Option.some.injEq] at h
  split_ifs at h with h₁ h₂
  · cases h
    exact .inl ⟨h₂, rfl, rfl⟩
  · exact .inr h

theorem stops_takeWhile (text : Bytes) :
    Stops (text.takeWhile isWord) (text.dropWhile isWord) := by
  intro c hc
  have hstop : isWord c = false := by
    have := List.head?_dropWhile_not isWord text
    rw [hc] at this
    simpa using this
  refine ⟨fun _ => hstop, ?_⟩
  intro hbang
  have hmem : isWord 33 = true := List.mem_takeWhile_imp (hbang ▸ List.mem_singleton_self 33)
  cases hmem

/-- The token that begins here, with its text. -/
theorem spells_of_lexToken {s s' : Scanner} {t : Token} (h : lexToken s = .token t s')
    (ht : t ≠ .bad) : ∃ w, s.rest = w ++ s'.rest ∧ Spells t w ∧ Stops w s'.rest := by
  rw [lexToken] at h
  split at h
  · cases h
  · next hrule =>
      obtain ⟨rest, hrest⟩ := initialRule_quote hrule
      obtain ⟨body, hbody, hquotes, -⟩ := quotes_of_strLoop h
      refine ⟨34 :: (body ++ [34]), ?_, spells_quoted hquotes, stops_quoted body _⟩
      simp only [Scanner.consume, hrest, List.drop_succ_cons, List.drop_zero] at hbody
      rw [hrest, hbody]
      simp
  · next u n hrule =>
      cases h
      cases hs : s.rest with
      | nil =>
          rw [hs] at hrule
          cases hrule
      | cons c rest =>
          rw [hs] at hrule
          rcases initialRule_token hrule with ⟨hc, rfl, rfl⟩ | hsymbol
          · have hne : (c :: rest).takeWhile isWord ≠ [] := by
              rw [List.takeWhile_cons_of_pos hc]
              exact List.cons_ne_nil _ _
            have hrest : (s.advance ((c :: rest).takeWhile isWord).length).rest =
                (c :: rest).dropWhile isWord := by
              simp only [Scanner.advance, Scanner.consume, hs, drop_takeWhile]
            refine ⟨_, ?_, spells_word hne fun b hb => List.mem_takeWhile_imp hb, ?_⟩
            · rw [hrest]
              exact List.takeWhile_append_dropWhile.symm
            · rw [hrest]
              exact stops_takeWhile _
          · obtain ⟨w, rest', hmem, hsplit, hlen, hstop⟩ := symbolRule_token hsymbol
            have hrest : (s.advance n).rest = rest' := by
              simp only [Scanner.advance, Scanner.consume, hs, hsplit, ← hlen, List.drop_left]
            exact ⟨w, by rw [hsplit, hrest], spells_symbol hmem, by rwa [hrest]⟩
  · cases h
    exact absurd rfl ht

/-- A token that has been read, with the layout before it. -/
theorem spells_of_yylex {s s' : Scanner} {t : Token} (h : yylex s = .token t s') (ht : t ≠ .bad) :
    ∃ lay w, s.rest = lay ++ (w ++ s'.rest) ∧ Layout lay ∧ Spells t w ∧ Stops w s'.rest ∧
      s'.pos = s.pos + lay.length + w.length ∧ s'.yylloc = ⟨s.pos + lay.length, s'.pos⟩ := by
  obtain ⟨lay, hsplit, hlay, hpos, hrule⟩ := skipLayout_split s.rest.length s
  obtain ⟨w, hw, hspells, hstop⟩ := spells_of_lexToken h ht
  -- the scanner stands at the token, so `yylex` there gives the same result
  obtain ⟨s'', hlex, hrest, hpos', hloc⟩ := hspells.lex _ _ hw hstop
  have hhere : skipLayout (skipLayout s.rest.length s).rest.length (skipLayout s.rest.length s) =
      skipLayout s.rest.length s :=
    skipLayout_of_rule (fun k => (hrule (Nat.le_refl _) k).1) fun k => (hrule (Nat.le_refl _) k).2
  rw [yylex, hhere] at hlex
  cases hlex.symm.trans h
  refine ⟨lay, w, by rw [← hw, ← hsplit], hlay, hspells, hstop, ?_, ?_⟩
  · rw [hpos', hpos]
  · rw [hloc, hpos', hpos]

/-- Layout before a token is passed over. -/
theorem yylex_layout {s : Scanner} {lay rest : Bytes} (hlay : Layout lay) (hrest : Sharp rest)
    (hs : s.rest = lay ++ rest) :
    ∃ s₁, yylex s = yylex s₁ ∧ s₁.rest = rest ∧ s₁.pos = s.pos + lay.length := by
  have hlen : lay.length ≤ s.rest.length := by
    rw [hs, List.length_append]
    omega
  obtain ⟨hskip, hpos⟩ := skipLayout_layout hlay hlen hrest hs
  have hhere : skipLayout (skipLayout s.rest.length s).rest.length (skipLayout s.rest.length s) =
      skipLayout s.rest.length s :=
    Sharp.skipLayout (by rwa [hskip]) _
  refine ⟨skipLayout s.rest.length s, ?_, hskip, hpos⟩
  rw [yylex, yylex, hhere]

/-- A text with layout before it is read as its token. -/
theorem yylex_of_spells {s : Scanner} {lay w rest : Bytes} {t : Token} (hlay : Layout lay)
    (hspells : Spells t w) (hstop : Stops w rest) (hs : s.rest = lay ++ (w ++ rest)) :
    ∃ s', yylex s = .token t s' ∧ s'.rest = rest ∧ s'.pos = s.pos + lay.length + w.length ∧
      s'.yylloc = ⟨s.pos + lay.length, s.pos + lay.length + w.length⟩ := by
  obtain ⟨s₁, hlex₁, hrest, hpos⟩ := yylex_layout hlay (hspells.sharp rest) hs
  obtain ⟨s', hlex, hrest', hpos', hloc⟩ := hspells.lex s₁ rest hrest hstop
  refine ⟨s', hlex₁.trans hlex, hrest', ?_, ?_⟩
  · rw [hpos', hpos]
  · rw [hloc, hpos]

/-! ## Rows of tokens -/

/-- The text of a row of tokens that begins at `pos` and is followed by `rest`. -/
inductive Lexes : Nat → List Lexeme → Bytes → Bytes → Prop where
  | nil (pos : Nat) (rest : Bytes) : Lexes pos [] [] rest
  | cons {pos : Nat} {lay w text rest : Bytes} {t : Token} {ts : List Lexeme} (hlay : Layout lay)
      (hw : Spells t w) (hstop : Stops w (text ++ rest))
      (h : Lexes (pos + lay.length + w.length) ts text rest) :
      Lexes pos ((t, ⟨pos + lay.length, pos + lay.length + w.length⟩) :: ts) (lay ++ (w ++ text)) rest

/-- The tokens that calls of `yylex` return one after the other. -/
inductive Scans : Scanner → List Lexeme → Scanner → Prop where
  | nil (s : Scanner) : Scans s [] s
  | cons {s s₁ s₂ : Scanner} {t : Token} {ts : List Lexeme} (h : yylex s = .token t s₁)
      (hts : Scans s₁ ts s₂) : Scans s ((t, s₁.yylloc) :: ts) s₂

theorem lexes_of_scans {s s' : Scanner} {ts : List Lexeme} (h : Scans s ts s')
    (hbad : ∀ x ∈ ts, x.1 ≠ .bad) :
    ∃ text, s.rest = text ++ s'.rest ∧ Lexes s.pos ts text s'.rest := by
  induction h with
  | nil s => exact ⟨[], rfl, .nil _ _⟩
  | @cons s s₁ s₂ t ts h hts ih =>
      obtain ⟨lay, w, hrest, hlay, hw, hstop, hpos, hloc⟩ :=
        spells_of_yylex h (hbad _ (List.mem_cons_self ..))
      obtain ⟨text, hrest₁, hlexes⟩ := ih fun x hx => hbad x (List.mem_cons_of_mem _ hx)
      rw [hpos] at hlexes hloc
      rw [hrest₁] at hstop
      refine ⟨lay ++ (w ++ text), by rw [hrest, hrest₁]; simp, ?_⟩
      rw [hloc]
      exact .cons hlay hw hstop hlexes

theorem scans_of_lexes {pos : Nat} {ts : List Lexeme} {text rest : Bytes}
    (h : Lexes pos ts text rest) {s : Scanner} (hs : s.rest = text ++ rest) (hpos : s.pos = pos) :
    ∃ s', Scans s ts s' ∧ s'.rest = rest := by
  induction h generalizing s with
  | nil pos rest => exact ⟨s, .nil s, hs⟩
  | @cons pos lay w text rest t ts hlay hw hstop h ih =>
      have hs' : s.rest = lay ++ (w ++ (text ++ rest)) := by rw [hs]; simp
      obtain ⟨s₁, hlex, hrest₁, hpos₁, hloc⟩ := yylex_of_spells hlay hw hstop hs'
      obtain ⟨s', hscan, hrest'⟩ := ih hrest₁ (by rw [hpos₁, hpos])
      rw [hpos] at hloc
      rw [← hloc]
      exact ⟨s', .cons hlex hscan, hrest'⟩

theorem Lexes.length_le {pos : Nat} {ts : List Lexeme} {text rest : Bytes}
    (h : Lexes pos ts text rest) : ts.length ≤ text.length := by
  induction h with
  | nil => exact Nat.le_refl _
  | cons _ hw _ _ ih =>
      have := List.length_pos_iff.mpr hw.ne_nil
      simp only [List.length_cons, List.length_append]
      omega

/-- A row in two parts. -/
theorem Lexes.split {pos : Nat} {ts us : List Lexeme} {text rest : Bytes}
    (h : Lexes pos (ts ++ us) text rest) :
    ∃ a b, text = a ++ b ∧ Lexes pos ts a (b ++ rest) ∧ Lexes (pos + a.length) us b rest := by
  induction ts generalizing pos text with
  | nil => exact ⟨[], text, rfl, .nil _ _, h⟩
  | cons x ts ih =>
      rw [List.cons_append] at h
      cases h with
      | @cons _ lay w text _ t _ hlay hw hstop h =>
          obtain ⟨a, b, rfl, ha, hb⟩ := ih h
          refine ⟨lay ++ (w ++ a), b, by simp, .cons hlay hw (by rwa [← List.append_assoc]) ha, ?_⟩
          rw [List.length_append, List.length_append, ← Nat.add_assoc, ← Nat.add_assoc]
          exact hb

/-- A place without the first `d` bytes of the script. -/
def Loc.move (d : Nat) (l : Loc) : Loc := ⟨l.start - d, l.stop - d⟩

def moveLexeme (d : Nat) (x : Lexeme) : Lexeme := (x.1, x.2.move d)

theorem stops_alone {w text rest : Bytes} (h : Stops w (text ++ rest)) : Stops w (text ++ []) := by
  intro c hc
  rw [List.append_nil] at hc
  apply h c
  cases text with
  | nil => cases hc
  | cons b text => exact hc

theorem Lexes.move {pos d : Nat} {ts : List Lexeme} {text rest : Bytes} (hd : d ≤ pos)
    (h : Lexes pos ts text rest) : Lexes (pos - d) (ts.map (moveLexeme d)) text [] := by
  induction h with
  | nil => exact .nil _ _
  | @cons pos lay w text rest t ts hlay hw hstop h ih =>
      have htail := ih (by omega)
      have hsub : ∀ n, pos + n - d = pos - d + n := fun n => by omega
      have hsub₂ : pos + lay.length + w.length - d = pos - d + lay.length + w.length := by omega
      rw [hsub₂] at htail
      have hcons := Lexes.cons hlay hw (stops_alone hstop) htail
      rw [List.map_cons, moveLexeme, Loc.move]
      simpa only [hsub, hsub₂] using hcons

theorem Lexes.stop_eq {pos : Nat} {ts : List Lexeme} {text rest : Bytes}
    (h : Lexes pos ts text rest) (hne : ts ≠ []) : (span ts).stop = pos + text.length := by
  induction h with
  | nil => exact absurd rfl hne
  | @cons pos lay w text rest t ts hlay hw hstop h ih =>
      simp only [List.length_append]
      cases ts with
      | nil =>
          cases h
          simp only [span_singleton, List.length_nil]
          omega
      | cons y ys =>
          rw [span_cons _ (List.cons_ne_nil _ _)]
          simp only [Loc.join]
          rw [ih (List.cons_ne_nil _ _)]
          omega

/-- The text of some tokens without the layout before them, on its own. -/
theorem Lexes.alone {pos : Nat} {ts : List Lexeme} {text rest : Bytes}
    (h : Lexes pos ts text rest) (hne : ts ≠ []) :
    ∃ lay w, text = lay ++ w ∧ (span ts).start = pos + lay.length ∧
      Lexes 0 (ts.map (moveLexeme (span ts).start)) w [] := by
  cases h with
  | nil => exact absurd rfl hne
  | @cons _ lay w text _ t ts hlay hw hstop h =>
      refine ⟨lay, w ++ text, rfl, rfl, ?_⟩
      have hrow : Lexes (pos + lay.length)
          ((t, ⟨pos + lay.length, pos + lay.length + w.length⟩) :: ts) (w ++ text) rest :=
        Lexes.cons .nil hw hstop h
      have hmove := hrow.move (Nat.le_refl _)
      rw [Nat.sub_self] at hmove
      exact hmove

/-- The places of the tokens of a row: one after the other, in the text. -/
structure Placed (ts : List Lexeme) (lo hi : Nat) : Prop where
  ordered : ts.Pairwise fun x y => x.2.stop ≤ y.2.start
  start_le_stop : ∀ x ∈ ts, x.2.start ≤ x.2.stop
  lo_le : ∀ x ∈ ts, lo ≤ x.2.start
  le_hi : ∀ x ∈ ts, x.2.stop ≤ hi

theorem Lexes.placed {pos : Nat} {ts : List Lexeme} {text rest : Bytes}
    (h : Lexes pos ts text rest) : Placed ts pos (pos + text.length) := by
  induction h with
  | nil => exact ⟨.nil, by simp, by simp, by simp⟩
  | @cons pos lay w text rest t ts hlay hw hstop h ih =>
      refine ⟨List.Pairwise.cons ih.lo_le ih.ordered, ?_, ?_, ?_⟩
      · intro x hx
        rcases List.mem_cons.mp hx with rfl | hx
        · exact Nat.le_add_right _ _
        · exact ih.start_le_stop x hx
      · intro x hx
        rcases List.mem_cons.mp hx with rfl | hx
        · exact Nat.le_add_right _ _
        · have := ih.lo_le x hx
          omega
      · intro x hx
        simp only [List.length_append]
        rcases List.mem_cons.mp hx with rfl | hx
        · simp only
          omega
        · have := ih.le_hi x hx
          omega

/-! ## The parser on a row of tokens -/

theorem feed_bad (l : Loc) (s : Stack) : feed (.bad, l) s = none := by
  have hmove : move (.bad, l) s = none := by
    unfold move
    generalize settle (some Token.bad) s = s'
    obtain ⟨fs, top⟩ := s'
    cases top with
    | operand => rfl
    | name str m => rfl
    | expr e m => rfl
  rw [feed, hmove, ite_self]

theorem yyparse_scans {s s' : Scanner} {ts : List Lexeme} (h : Scans s ts s') {st st' : Stack}
    (hfeed : feedAll ts st = some st') (n : Nat) :
    yyparse (ts.length + n) s st = yyparse n s' st' := by
  induction h generalizing st with
  | nil s =>
      cases hfeed
      rw [List.length_nil, Nat.zero_add]
  | @cons s s₁ s₂ t ts h hts ih =>
      obtain ⟨st₁, hx, hrest⟩ := Option.bind_eq_some_iff.mp hfeed
      rw [List.length_cons, Nat.add_right_comm, yyparse, h]
      simp only [hx]
      exact ih hrest

/-- What the parser has read when it ends without errors. -/
theorem scans_of_yyparse {n : Nat} {s : Scanner} {st : Stack} {e : Expr}
    (h : yyparse n s st = .ok e) :
    ∃ ts s' st', Scans s ts s' ∧ yylex s' = .eof ∧ feedAll ts st = some st' ∧
      accept st' = some e ∧ ∀ x ∈ ts, x.1 ≠ .bad := by
  induction n generalizing s st with
  | zero => cases h
  | succ n ih =>
      rw [yyparse] at h
      split at h
      · cases h
      · next heof =>
          split at h
          · next e' haccept =>
              cases h
              exact ⟨[], s, st, .nil s, heof, rfl, haccept, by simp⟩
          · cases h
      · next t s₁ hlex =>
          split at h
          · next st₁ hfeed =>
              obtain ⟨ts, s', st', hscan, heof, hall, haccept, hbad⟩ := ih h
              refine ⟨(t, s₁.yylloc) :: ts, s', st', .cons hlex hscan, heof, ?_, haccept, ?_⟩
              · rw [feedAll, hfeed]
                exact hall
              · intro x hx
                rcases List.mem_cons.mp hx with rfl | hx
                · rintro rfl
                  rw [feed_bad] at hfeed
                  cases hfeed
                · exact hbad x hx
          · cases h

/-- A script without errors is a row of tokens with a derivation. -/
theorem lexes_of_parse {script : Bytes} {e : Expr} (h : parse script = .ok e) :
    ∃ ts k n text rest, script = text ++ rest ∧ Lexes 0 ts text rest ∧ Der (.expr k) n ts [e] ∧
      HasRoom n := by
  obtain ⟨ts, s', st', hscan, -, hfeed, haccept, hbad⟩ := scans_of_yyparse h
  obtain ⟨text, hrest, hlexes⟩ := lexes_of_scans hscan hbad
  obtain ⟨k, n, hder, hroom⟩ := der_of_accept hfeed haccept
  exact ⟨ts, k, n, text, s'.rest, hrest, hlexes, hder, hroom⟩

/-- The scanner reads a row of tokens with nothing but layout after it to the end. -/
theorem scans_of_row {script lay : Bytes} {ts : List Lexeme} (hlay : Layout lay)
    (h : Lexes 0 ts script lay) :
    ∃ s', Scans (Scanner.init (script ++ lay)) ts s' ∧ yylex s' = .eof := by
  obtain ⟨s', hscan, hrest⟩ := scans_of_lexes h (s := Scanner.init (script ++ lay)) rfl rfl
  refine ⟨s', hscan, ?_⟩
  have hend : Sharp [] := fun c hc => by cases hc
  obtain ⟨s₁, hlex, hrest₁, -⟩ := yylex_layout hlay hend (by rw [hrest, List.append_nil])
  have hsharp : Sharp s₁.rest := by rwa [hrest₁]
  rw [hlex, yylex, hsharp.skipLayout, lexToken, hrest₁]
  rfl

/-- The scanner has no choice. -/
theorem Scans.unique {s s₁ s₂ : Scanner} {ts us : List Lexeme} (h : Scans s ts s₁)
    (heof : yylex s₁ = .eof) (h' : Scans s us s₂) (heof' : yylex s₂ = .eof) : ts = us := by
  induction h generalizing us with
  | nil s =>
      cases h' with
      | nil => rfl
      | cons hlex _ =>
          rw [heof] at hlex
          cases hlex
  | cons hlex hts ih =>
      cases h' with
      | nil =>
          rw [heof'] at hlex
          cases hlex
      | cons hlex' hus =>
          rw [hlex] at hlex'
          cases hlex'
          rw [ih heof hus]

/-- A row of tokens with a derivation that has its places, and nothing but layout after it, is a
script without errors. -/
theorem parse_of_lexes {script lay : Bytes} {ts : List Lexeme} {k : Kind} {n : Nat} {e : Expr}
    (hlay : Layout lay) (h : Lexes 0 ts script lay) (hder : Der (.expr k) n ts [e])
    (hroom : HasRoom n) : parse (script ++ lay) = .ok e := by
  obtain ⟨s', hscan, heof⟩ := scans_of_row hlay h
  obtain ⟨st', hfeed, haccept⟩ := accept_of_der hder hroom
  have hlen := h.length_le
  obtain ⟨n, hn⟩ : ∃ n, (script ++ lay).length + 1 = ts.length + (n + 1) :=
    ⟨(script ++ lay).length - ts.length, by rw [List.length_append]; omega⟩
  rw [parse, hn, yyparse_scans hscan hfeed, yyparse, heof]
  simp only [haccept]

/-- It is one only if the derivation has its places. -/
theorem room_of_parse {script lay : Bytes} {ts : List Lexeme} {k : Kind} {n : Nat} {e root : Expr}
    (hlay : Layout lay) (h : Lexes 0 ts script lay) (hder : Der (.expr k) n ts [e])
    (hparse : parse (script ++ lay) = .ok root) : HasRoom n := by
  obtain ⟨s₁, hscan, heof⟩ := scans_of_row hlay h
  obtain ⟨us, s₂, st', hscan', heof', hfeed, haccept, -⟩ := scans_of_yyparse hparse
  cases hscan.unique heof hscan' heof'
  obtain ⟨k', n', hder', hroom⟩ := der_of_accept hfeed haccept
  rwa [(hder.unique hder').1]

end OpenRecovery.Edify
