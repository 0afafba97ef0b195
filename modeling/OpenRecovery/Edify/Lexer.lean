import Mathlib.Data.List.TakeWhile
import OpenRecovery.Storage.CString

/-!
# The scanner of the script language

`edify/lexer.l`. `initialRule` and `strRule` say which rule of a start condition matches the rest of
the text: the longest match, and of two equally long ones the rule that stands first. `yylex` runs
the actions up to the next token. The text is the script up to its NUL: `updater` scans a C string.

The value of a quoted literal is collected in `string_buffer`, which has room for `maxStringLen`
bytes. The code does not check this, so `Lexed.overflow` stands for a write behind the buffer. A
text that ends inside a literal ends there: flex has no rule for it and reports the end of the
input.

`yylex_literal` is about literals: every way to write a string of fewer than `maxStringLen` bytes
gives one token with that string, and a longer string is written behind the buffer.
-/

set_option autoImplicit false

namespace OpenRecovery.Edify

open OpenRecovery.Storage

/-- `MAX_STRING_LEN`. -/
def maxStringLen : Nat := 1024

/-- The tokens of `parser.y`. -/
inductive Token where
  | string (str : Bytes)
  | bad | and | or | eq | ne | if_ | then_ | else_ | endif
  | plus | lparen | rparen | comma | bang | semi
  deriving DecidableEq

/-- `YYLTYPE`. -/
structure Loc where
  start : Nat
  stop : Nat
  deriving DecidableEq

/-- The text that is not read yet, `gLine`, `gColumn`, `gPos` and `yylloc`. -/
structure Scanner where
  rest : Bytes
  line : Nat
  column : Nat
  pos : Nat
  yylloc : Loc
  deriving DecidableEq

namespace Scanner

/-- The scanner at the first `yyparse` of the process. -/
def init (text : Bytes) : Scanner := ⟨text, 1, 1, 0, ⟨0, 0⟩⟩

/-- Go on by `n` bytes of a line, with `yylloc` unchanged. -/
def consume (s : Scanner) (n : Nat) : Scanner :=
  { s with rest := s.rest.drop n, column := s.column + n, pos := s.pos + n }

/-- `ADVANCE`. -/
def advance (s : Scanner) (n : Nat) : Scanner :=
  { s.consume n with yylloc := ⟨s.pos, s.pos + n⟩ }

/-- The closing quote of a literal. -/
def closeQuote (s : Scanner) : Scanner :=
  { s.consume 1 with yylloc := ⟨s.yylloc.start, s.pos + 1⟩ }

/-- Go on by `n` bytes, the last of which ends a line. -/
def newline (s : Scanner) (n : Nat) : Scanner :=
  { s with rest := s.rest.drop n, line := s.line + 1, column := 1, pos := s.pos + n }

end Scanner

/-! ## Rules -/

/-- `[a-zA-Z0-9_:/.]`. -/
def isWord (c : UInt8) : Bool :=
  97 ≤ c && c ≤ 122 || 65 ≤ c && c ≤ 90 || 48 ≤ c && c ≤ 57 ||
    c = 95 || c = 58 || c = 47 || c = 46

/-- `[ \t]`. -/
def isBlank (c : UInt8) : Bool := c = 32 || c = 9

/-- What a rule outside literals does with the text it matches: return a token, open a literal, skip
blanks or the end of a line, or return `BAD`. -/
inductive Rule where
  | token (t : Token) (n : Nat)
  | quote
  | blank (n : Nat)
  | newline (n : Nat)
  | bad
  deriving DecidableEq

/-- A word is a keyword or a string. -/
def wordToken (w : Bytes) : Token :=
  if w = cstr "if" then .if_
  else if w = cstr "then" then .then_
  else if w = cstr "else" then .else_
  else if w = cstr "endif" then .endif
  else .string w

/-- The operators and punctuation; `!=` is longer than `!`. -/
def symbols : List (Bytes × Token) :=
  [([38, 38], .and), ([124, 124], .or), ([61, 61], .eq), ([33, 61], .ne), ([33], .bang),
    ([43], .plus), ([40], .lparen), ([41], .rparen), ([44], .comma), ([59], .semi)]

def symbolRule (text : Bytes) : Rule :=
  match symbols.find? fun p => p.1.isPrefixOf text with
  | some (w, t) => .token t w.length
  | none => .bad

/-- The rule of the start condition `INITIAL` that matches, `none` at the end of the text. A comment
only matches together with the end of its line. -/
def initialRule : Bytes → Option Rule
  | [] => none
  | c :: rest =>
      some <|
        if c = 34 then .quote
        else if isWord c then
          .token (wordToken ((c :: rest).takeWhile isWord)) ((c :: rest).takeWhile isWord).length
        else if isBlank c then .blank ((c :: rest).takeWhile isBlank).length
        else if c = 10 then .newline 1
        else if c = 35 then
          if 10 ∈ rest then .newline ((rest.takeWhile (· ≠ 10)).length + 2) else .bad
        else symbolRule (c :: rest)

/-- What a rule inside a literal does: close it, or put a byte into the buffer. -/
inductive StrRule where
  | close
  | put (b : UInt8) (n : Nat)
  | newline
  deriving DecidableEq

/-- `\\x[0-9a-fA-F]{2}` after the `x`; without two digits the backslash is an ordinary byte. -/
def hexRule : Bytes → StrRule
  | h :: l :: _ =>
      if isDigitOf 16 h && isDigitOf 16 l then .put (UInt8.ofNat (digitsValue 16 0 [h, l])) 4
      else .put 92 1
  | _ => .put 92 1

/-- The rules for a backslash; without a rule of its own it is an ordinary byte. -/
def escapeRule : Bytes → StrRule
  | [] => .put 92 1
  | c :: rest =>
      if c = 110 then .put 10 2
      else if c = 116 then .put 9 2
      else if c = 34 then .put 34 2
      else if c = 92 then .put 92 2
      else if c = 120 then hexRule rest
      else .put 92 1

/-- The rule of the start condition `STR` that matches, `none` at the end of the text. -/
def strRule : Bytes → Option StrRule
  | [] => none
  | c :: rest =>
      some <|
        if c = 34 then .close
        else if c = 92 then escapeRule rest
        else if c = 10 then .newline
        else .put c 1

/-! ## The scanner -/

/-- What `yylex` comes to. -/
inductive Lexed where
  | token (t : Token) (s : Scanner)
  | eof
  | overflow
  deriving DecidableEq

/-- Blanks, ends of lines and comments. -/
def skipLayout : Nat → Scanner → Scanner
  | 0, s => s
  | n + 1, s =>
      match initialRule s.rest with
      | some (.blank k) => skipLayout n (s.advance k)
      | some (.newline k) => skipLayout n (s.newline k)
      | _ => s

/-- A literal after its opening quote, with the bytes of `string_buffer` before `string_pos`. -/
def strLoop : Nat → Bytes → Scanner → Lexed
  | 0, _, _ => .eof
  | n + 1, buf, s =>
      match strRule s.rest with
      | none => .eof
      | some rule =>
          -- every rule writes one byte at `string_pos`, the closing quote a NUL
          if maxStringLen ≤ buf.length then .overflow
          else
            match rule with
            | .close => .token (.string (buf.takeWhile (· ≠ 0))) s.closeQuote
            | .put b k => strLoop n (buf ++ [b]) (s.consume k)
            | .newline => strLoop n (buf ++ [10]) (s.newline 1)

/-- The token that begins here. -/
def lexToken (s : Scanner) : Lexed :=
  match initialRule s.rest with
  | none => .eof
  | some .quote =>
      strLoop s.rest.length [] { s.consume 1 with yylloc := ⟨s.pos, s.yylloc.stop⟩ }
  | some (.token t n) => .token t (s.advance n)
  | some _ => .token .bad { s with rest := s.rest.drop 1 }

/-- `yylex`. -/
def yylex (s : Scanner) : Lexed := lexToken (skipLayout s.rest.length s)

/-! ## Literals -/

/-- The ways to write a byte in a literal. -/
inductive Writes : UInt8 → Bytes → Prop where
  | raw {b : UInt8} (hquote : b ≠ 34) (hbackslash : b ≠ 92) : Writes b [b]
  | newline : Writes 10 [92, 110]
  | tab : Writes 9 [92, 116]
  | quote : Writes 34 [92, 34]
  | backslash : Writes 92 [92, 92]
  | hex {h l : UInt8} (hh : isDigitOf 16 h = true) (hl : isDigitOf 16 l = true) :
      Writes (UInt8.ofNat (digitsValue 16 0 [h, l])) [92, 120, h, l]

/-- The texts between the quotes that stand for a string. -/
inductive Encodes : Bytes → Bytes → Prop where
  | nil : Encodes [] []
  | cons {b : UInt8} {str t text : Bytes} (hb : Writes b t) (h : Encodes str text) :
      Encodes (b :: str) (t ++ text)

/-- What the scanner has done with a piece of a literal: `k` bytes with `lines` ends of lines. -/
structure Past (s s' : Scanner) (text rest : Bytes) : Prop where
  rest_eq : s'.rest = rest
  line_eq : s'.line = s.line + text.count 10
  pos_eq : s'.pos = s.pos + text.length
  start_eq : s'.yylloc.start = s.yylloc.start

theorem past_consume {s : Scanner} {t rest : Bytes} (h : s.rest = t ++ rest) (ht : 10 ∉ t) :
    Past s (s.consume t.length) t rest where
  rest_eq := by simp [Scanner.consume, h]
  line_eq := by simp [Scanner.consume, List.count_eq_zero.mpr ht]
  pos_eq := rfl
  start_eq := rfl

/-- A byte written in any way is put into the buffer, if there is room for it. -/
theorem strLoop_writes {b : UInt8} {t : Bytes} (hb : Writes b t) (n : Nat) {buf rest : Bytes}
    (hbuf : buf.length < maxStringLen) {s : Scanner} (hs : s.rest = t ++ rest) :
    ∃ s', strLoop (n + 1) buf s = strLoop n (buf ++ [b]) s' ∧ Past s s' t rest := by
  have hroom : ¬ maxStringLen ≤ buf.length := Nat.not_le.mpr hbuf
  -- an escape is one rule without the end of a line
  have hput : ∀ k, strRule s.rest = some (.put b k) → k = t.length → 10 ∉ t →
      ∃ s', strLoop (n + 1) buf s = strLoop n (buf ++ [b]) s' ∧ Past s s' t rest := by
    intro k hrule hk ht
    subst hk
    refine ⟨s.consume t.length, ?_, past_consume hs ht⟩
    rw [strLoop, hrule]
    simp only [if_neg hroom]
  cases hb with
  | raw hquote hbackslash =>
      by_cases hnl : b = 10
      · subst hnl
        refine ⟨s.newline 1, ?_, ⟨by simp [Scanner.newline, hs], ?_, rfl, rfl⟩⟩
        · rw [strLoop, hs]
          simp [strRule, if_neg hroom]
        · simp [Scanner.newline]
      · apply hput 1 ?_ rfl (by simpa using Ne.symm hnl)
        simp [hs, strRule, hquote, hbackslash, hnl]
  | newline => exact hput 2 (by simp [hs, strRule, escapeRule]) rfl (by decide)
  | tab => exact hput 2 (by simp [hs, strRule, escapeRule]) rfl (by decide)
  | quote => exact hput 2 (by simp [hs, strRule, escapeRule]) rfl (by decide)
  | backslash => exact hput 2 (by simp [hs, strRule, escapeRule]) rfl (by decide)
  | hex hh hl =>
      apply hput 4 (by simp [hs, strRule, escapeRule, hexRule, hh, hl]) rfl
      intro hmem
      have hdigit : isDigitOf 16 10 = false := by decide
      simp only [List.mem_cons, List.not_mem_nil, or_false] at hmem
      rcases hmem with h | h | h | h
      · cases h
      · cases h
      · rw [← h, hdigit] at hh
        cases hh
      · rw [← h, hdigit] at hl
        cases hl

theorem Writes.length_pos {b : UInt8} {t : Bytes} (h : Writes b t) : 0 < t.length := by
  cases h <;> exact Nat.succ_pos _

theorem Encodes.length_le {str text : Bytes} (h : Encodes str text) :
    str.length ≤ text.length := by
  induction h with
  | nil => exact Nat.le_refl _
  | cons hb _ ih =>
      have ht := hb.length_pos
      rw [List.length_cons, List.length_append]
      omega

/-- A literal is read to its end if the buffer has room for all its bytes and the NUL. -/
theorem strLoop_encodes {str text : Bytes} (h : Encodes str text) {n : Nat}
    (hn : str.length < n) {buf rest : Bytes} (hlen : buf.length + str.length < maxStringLen)
    {s : Scanner} (hs : s.rest = text ++ 34 :: rest) :
    ∃ s', strLoop n buf s = .token (.string ((buf ++ str).takeWhile (· ≠ 0))) s' ∧
      s'.rest = rest ∧ s'.line = s.line + text.count 10 ∧ s'.pos = s.pos + text.length + 1 ∧
      s'.yylloc = ⟨s.yylloc.start, s'.pos⟩ := by
  induction h generalizing n buf s with
  | nil =>
      obtain ⟨n, rfl⟩ := Nat.exists_eq_add_of_lt hn
      have hroom : ¬ maxStringLen ≤ buf.length := by
        simp only [List.length_nil] at hlen
        omega
      refine ⟨s.closeQuote, ?_, ?_⟩
      · rw [strLoop, hs]
        simp only [List.nil_append, strRule, if_true, if_neg hroom, List.append_nil]
      · simp [Scanner.closeQuote, Scanner.consume, hs]
  | @cons b str t text hb _ ih =>
      rw [List.length_cons] at hn hlen
      obtain ⟨n, rfl⟩ : ∃ m, n = m + 1 := ⟨n - 1, by omega⟩
      have hroom : buf.length < maxStringLen := by omega
      have hlen' : (buf ++ [b]).length + str.length < maxStringLen := by
        rw [List.length_append, List.length_singleton]
        omega
      obtain ⟨s₁, hstep, hpast⟩ := strLoop_writes hb n hroom (hs.trans (List.append_assoc ..))
      obtain ⟨s', hrun, hrest, hline, hpos, hloc⟩ :=
        ih (Nat.lt_of_succ_lt_succ hn) hlen' hpast.rest_eq
      refine ⟨s', ?_, hrest, ?_, ?_, ?_⟩
      · rw [hstep, hrun]
        simp
      · rw [hline, hpast.line_eq, List.count_append, Nat.add_assoc]
      · rw [hpos, hpast.pos_eq, List.length_append]
        omega
      · rw [hloc, hpast.start_eq]

/-- A longer literal is written behind the buffer. -/
theorem strLoop_overflow {str text : Bytes} (h : Encodes str text) {n : Nat}
    (hn : str.length < n) {buf rest : Bytes} (hbuf : buf.length ≤ maxStringLen)
    (hlen : maxStringLen ≤ buf.length + str.length) {s : Scanner}
    (hs : s.rest = text ++ 34 :: rest) : strLoop n buf s = .overflow := by
  induction h generalizing n buf s with
  | nil =>
      obtain ⟨n, rfl⟩ := Nat.exists_eq_add_of_lt hn
      rw [strLoop, hs]
      simp only [List.nil_append, strRule, if_true]
      rw [if_pos (by simpa using hlen)]
  | @cons b str t text hb _ ih =>
      rw [List.length_cons] at hn hlen
      obtain ⟨n, rfl⟩ : ∃ m, n = m + 1 := ⟨n - 1, by omega⟩
      rcases Nat.lt_or_ge buf.length maxStringLen with hroom | hfull
      · obtain ⟨s₁, hstep, hpast⟩ := strLoop_writes hb n hroom (hs.trans (List.append_assoc ..))
        have happend : (buf ++ [b]).length = buf.length + 1 := by simp
        rw [hstep]
        apply ih (Nat.lt_of_succ_lt_succ hn) ?_ ?_ hpast.rest_eq
        · omega
        · omega
      · rw [strLoop]
        cases hrule : strRule s.rest with
        | none =>
            cases hrest : s.rest with
            | nil => simp [hs] at hrest
            | cons c rest =>
                rw [hrest] at hrule
                cases hrule
        | some rule => exact if_pos hfull

theorem skipLayout_of_rule {n : Nat} {s : Scanner} (hblank : ∀ k, initialRule s.rest ≠ some (.blank k))
    (hnewline : ∀ k, initialRule s.rest ≠ some (.newline k)) : skipLayout n s = s := by
  cases n with
  | zero => rfl
  | succ n =>
      rw [skipLayout]
      split
      · exact absurd ‹_› (hblank _)
      · exact absurd ‹_› (hnewline _)
      · rfl

theorem yylex_quote {s : Scanner} {rest : Bytes} (hs : s.rest = 34 :: rest) :
    yylex s = strLoop (rest.length + 1) [] { s.consume 1 with yylloc := ⟨s.pos, s.yylloc.stop⟩ } := by
  have hrule : initialRule s.rest = some .quote := by rw [hs, initialRule, if_pos rfl]
  have hskip : skipLayout s.rest.length s = s :=
    skipLayout_of_rule (by simp [hrule]) (by simp [hrule])
  rw [yylex, hskip, lexToken, hrule]
  simp only [hs, List.length_cons]

/-- The next token is the string `str`, written as `text` between quotes and followed by `rest`, and
the line and the position have been counted on over it. -/
def ReadsLiteral (s : Scanner) (str text rest : Bytes) : Prop :=
  ∃ s', yylex s = .token (.string str) s' ∧ s'.rest = rest ∧ s'.line = s.line + text.count 10 ∧
    s'.pos = s.pos + (text.length + 2) ∧ s'.yylloc = ⟨s.pos, s'.pos⟩

section Literal

variable {str text rest : Bytes} (h : Encodes str text) {s : Scanner}
  (hs : s.rest = 34 :: (text ++ 34 :: rest))

include h hs

theorem readsLiteral_of_length_lt (hnul : 0 ∉ str) (hlen : str.length < maxStringLen) :
    ReadsLiteral s str text rest := by
  have hfuel : str.length < (text ++ 34 :: rest).length + 1 := by
    have := h.length_le
    rw [List.length_append]
    omega
  have hbuf : ([] : Bytes).length + str.length < maxStringLen := by simpa using hlen
  have htext : ({ s.consume 1 with yylloc := ⟨s.pos, s.yylloc.stop⟩ } : Scanner).rest =
      text ++ 34 :: rest := by simp [Scanner.consume, hs]
  obtain ⟨s', hrun, hrest, hline, hpos, hloc⟩ := strLoop_encodes h hfuel hbuf htext
  have hval : ([] ++ str).takeWhile (· ≠ 0) = str := cText_eq_self hnul
  refine ⟨s', ?_, hrest, hline, ?_, hloc⟩
  · rw [yylex_quote hs, hrun, hval]
  · rw [hpos]
    simp only [Scanner.consume]
    omega

theorem yylex_overflow (hlen : maxStringLen ≤ str.length) : yylex s = .overflow := by
  have hfuel : str.length < (text ++ 34 :: rest).length + 1 := by
    have := h.length_le
    rw [List.length_append]
    omega
  have htext : ({ s.consume 1 with yylloc := ⟨s.pos, s.yylloc.stop⟩ } : Scanner).rest =
      text ++ 34 :: rest := by simp [Scanner.consume, hs]
  rw [yylex_quote hs]
  exact strLoop_overflow h hfuel (Nat.zero_le _) (by simpa using hlen) htext

/-- A literal is read as the string it stands for exactly when the string and its NUL fit into the
buffer. -/
theorem yylex_literal (hnul : 0 ∉ str) :
    ReadsLiteral s str text rest ↔ str.length < maxStringLen := by
  constructor
  · rintro ⟨s', hlex, -⟩
    by_contra hlen
    rw [yylex_overflow h hs (Nat.le_of_not_lt hlen)] at hlex
    cases hlex
  · exact readsLiteral_of_length_lt h hs hnul

end Literal

theorem encodes_replicate (n : Nat) : Encodes (List.replicate n 97) (List.replicate n 97) := by
  induction n with
  | zero => exact .nil
  | succ n ih => exact .cons (.raw (by decide) (by decide)) ih

/-- Every kind of escape, a raw end of line, and text after the literal. -/
theorem yylex_literal_escapes :
    ReadsLiteral (Scanner.init (34 :: (cstr "a\\n\\x4a\n" ++ 34 :: cstr "+b")))
      [97, 10, 74, 10] (cstr "a\\n\\x4a\n") (cstr "+b") := by
  have hhex : Writes 74 [92, 120, 52, 97] :=
    Writes.hex (h := 52) (l := 97) (by decide) (by decide)
  have hlast : Encodes [10] [10] := .cons (.raw (by decide) (by decide)) .nil
  have htext : Encodes [97, 10, 74, 10] (cstr "a\\n\\x4a\n") :=
    .cons (t := [97]) (.raw (by decide) (by decide)) (.cons .newline (.cons hhex hlast))
  exact (yylex_literal htext rfl (by decide)).mpr (by decide)

/-- 1024 letters in quotes: the NUL is written behind `string_buffer`. -/
theorem yylex_long_literal :
    Encodes (List.replicate 1024 97) (List.replicate 1024 97) ∧
      (0 : UInt8) ∉ List.replicate 1024 (97 : UInt8) ∧
      yylex (Scanner.init (34 :: (List.replicate 1024 97 ++ 34 :: []))) = .overflow ∧
      ¬ ReadsLiteral (Scanner.init (34 :: (List.replicate 1024 97 ++ 34 :: [])))
        (List.replicate 1024 97) (List.replicate 1024 97) [] := by
  have hlong : yylex (Scanner.init (34 :: (List.replicate 1024 97 ++ 34 :: []))) = .overflow :=
    yylex_overflow (encodes_replicate 1024) rfl (Nat.le_of_eq List.length_replicate.symm)
  have hnul : (0 : UInt8) ∉ List.replicate 1024 (97 : UInt8) := by
    intro hmem
    cases List.eq_of_mem_replicate hmem
  refine ⟨encodes_replicate 1024, hnul, hlong, ?_⟩
  rintro ⟨s', hlex, -⟩
  rw [hlong] at hlex
  cases hlex

end OpenRecovery.Edify
