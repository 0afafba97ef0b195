import Mathlib.Data.List.TakeWhile
import OpenRecovery.Storage.Bytes

/-!
# The C string functions the code calls

`strtok` as the list of tokens of a string, `strtol` in base 10 and `strtoul` in base 0 with the
rest of the string after the number, `strstr` and `isspace`.
-/

set_option autoImplicit false

namespace OpenRecovery.Storage

/-- A C string ends at its first NUL. -/
def cText (buf : Bytes) : Bytes := buf.takeWhile (· ≠ 0)

/-- A buffer without a NUL is its own text. -/
theorem cText_eq_self {buf : Bytes} (hnul : 0 ∉ buf) : cText buf = buf :=
  List.takeWhile_eq_self_iff.mpr fun _ hc => decide_eq_true fun h => hnul (h ▸ hc)

/-- The text ends at the first NUL. -/
theorem cText_append {cur rest : Bytes} (hnul : 0 ∉ cur) : cText (cur ++ 0 :: rest) = cur := by
  have hcur : ∀ c ∈ cur, decide (c ≠ 0) = true := fun c hc =>
    decide_eq_true fun h => hnul (h ▸ hc)
  rw [cText, List.takeWhile_append_of_pos hcur, List.takeWhile_cons_of_neg (by decide),
    List.append_nil]

/-- No text has a NUL. -/
theorem zero_notMem_cText (buf : Bytes) : 0 ∉ cText buf := by
  intro hmem
  have hne := List.all_eq_true.mp List.all_takeWhile 0 hmem
  exact of_decide_eq_true hne rfl

/-- All tokens `strtok` finds: maximal runs without the delimiter, so empty tokens do not occur. -/
def strtok (delim : UInt8) (s : Bytes) : List Bytes := (s.splitOn delim).filter (· ≠ [])

theorem strtok_nil (delim : UInt8) : strtok delim [] = [] := rfl

/-- No token is empty. -/
theorem ne_nil_of_mem_strtok {delim : UInt8} {s tok : Bytes} (h : tok ∈ strtok delim s) :
    tok ≠ [] := by simpa using (List.mem_filter.mp h).2

/-- A delimiter before the string is skipped. -/
theorem strtok_cons_delim (delim : UInt8) (s : Bytes) : strtok delim (delim :: s) = strtok delim s := by
  simp [strtok, List.splitOn_cons_eq_if_modifyHead]

/-- A delimiter at the end adds no token. -/
theorem strtok_concat_delim (delim : UInt8) (s : Bytes) : strtok delim (s ++ [delim]) = strtok delim s := by
  rw [strtok, List.splitOn_append_cons_self, List.splitOn_nil, List.filter_append,
    List.filter_cons_of_neg (by decide), List.filter_nil, List.append_nil, strtok]

/-- Another byte extends the first part. -/
theorem splitOn_cons_of_ne {delim c : UInt8} (hc : c ≠ delim) (s : Bytes) :
    ∃ head tail, s.splitOn delim = head :: tail ∧
      (c :: s).splitOn delim = (c :: head) :: tail := by
  obtain ⟨head, tail, h⟩ := List.exists_cons_of_ne_nil (List.splitOn_ne_nil delim s)
  refine ⟨head, tail, h, ?_⟩
  rw [List.splitOn_cons_eq_if_modifyHead, if_neg (by simpa using hc), h, List.modifyHead_cons]

/-- No part has a delimiter. -/
theorem not_mem_of_mem_splitOn {delim : UInt8} {s tok : Bytes} (h : tok ∈ s.splitOn delim) :
    delim ∉ tok := by
  induction s generalizing tok with
  | nil =>
      rw [List.splitOn_nil, List.mem_singleton] at h
      simp [h]
  | cons c s ih =>
      by_cases hc : c = delim
      · -- a delimiter starts a new token, which is empty so far
        rw [List.splitOn_cons_eq_if_modifyHead, if_pos (by simpa using hc)] at h
        rcases List.mem_cons.mp h with rfl | h
        · simp
        · exact ih h
      · obtain ⟨head, tail, hs, hcs⟩ := splitOn_cons_of_ne hc s
        rw [hcs] at h
        rw [hs] at ih
        rcases List.mem_cons.mp h with rfl | h
        · have hhead := ih (List.mem_cons_self ..)
          simp [hhead, Ne.symm hc]
        · exact ih (List.mem_cons_of_mem _ h)

/-- No token has a delimiter. -/
theorem not_mem_of_mem_strtok {delim : UInt8} {s tok : Bytes} (h : tok ∈ strtok delim s) :
    delim ∉ tok := not_mem_of_mem_splitOn (List.mem_filter.mp h).1

theorem flatten_filter_ne_nil (ls : List Bytes) : (ls.filter (· ≠ [])).flatten = ls.flatten := by
  induction ls with
  | nil => rfl
  | cons l ls ih =>
      cases l with
      | nil => simpa using ih
      | cons c l => simpa using ih

/-- The tokens make up the string without its delimiters. -/
theorem strtok_flatten (delim : UInt8) (s : Bytes) :
    (strtok delim s).flatten = s.filter (· ≠ delim) := by
  rw [strtok, flatten_filter_ne_nil]
  induction s with
  | nil => rfl
  | cons c s ih =>
      by_cases hc : c = delim
      · rw [List.splitOn_cons_eq_if_modifyHead, if_pos (by simpa using hc), List.flatten_cons, ih]
        simp [hc]
      · obtain ⟨head, tail, hs, hcs⟩ := splitOn_cons_of_ne hc s
        rw [hs, List.flatten_cons] at ih
        rw [hcs, List.flatten_cons, List.cons_append, ih, List.filter_cons_of_pos (by simpa using hc)]

/-- The parts with their delimiters are the text. -/
theorem flatMap_splitOn (delim : UInt8) (s : Bytes) :
    ((s.splitOn delim).flatMap fun tok => tok ++ [delim]) = s ++ [delim] := by
  induction s with
  | nil => rfl
  | cons c s ih =>
      by_cases hc : c = delim
      · rw [List.splitOn_cons_eq_if_modifyHead, if_pos (by simpa using hc), List.flatMap_cons, ih, hc]
        rfl
      · obtain ⟨head, tail, hs, hcs⟩ := splitOn_cons_of_ne hc s
        rw [hs, List.flatMap_cons] at ih
        rw [hcs, List.flatMap_cons, List.cons_append, List.cons_append, ih, List.cons_append]

/-- The tokens with a delimiter behind each of them are no longer than the string with one. -/
theorem strtok_length_le (delim : UInt8) (s : Bytes) :
    ((strtok delim s).flatMap fun tok => tok ++ [delim]).length ≤ s.length + 1 := by
  -- the tokens are some of the pieces, and the pieces make up the string
  have hsub : (strtok delim s).Sublist (s.splitOn delim) := List.filter_sublist
  have hlen := (hsub.flatMap fun tok => tok ++ [delim]).length_le
  rwa [flatMap_splitOn, List.length_append] at hlen

/-- `isspace` in the C locale. -/
def isspace (c : UInt8) : Bool := c = 32 || (9 ≤ c && c ≤ 13)

/-- `isdigit`. -/
def isdigit (c : UInt8) : Bool := 48 ≤ c && c ≤ 57

/-- Value of a string of decimal digits, continuing from `acc`. -/
def decimalValue (acc : Nat) : Bytes → Nat
  | [] => acc
  | c :: cs => decimalValue (acc * 10 + (c.toNat - 48)) cs

/-- The value of a `long` of `w` bits closest to `v`. -/
def clampLong (w : Nat) (v : Int) : Int := max (-2 ^ (w - 1)) (min v (2 ^ (w - 1) - 1))

/-- `strtol(s, &end, 10)` with a `long` of `w` bits: the value and the string from `end` on. A
string without digits gives 0 and `end = s`. -/
def strtol (w : Nat) (s : Bytes) : Int × Bytes :=
  let body := s.dropWhile isspace
  let (neg, digits) : Bool × Bytes := match body with
    | c :: rest => if c = 45 then (true, rest) else if c = 43 then (false, rest) else (false, body)
    | [] => (false, [])
  let num := digits.takeWhile isdigit
  if num = [] then (0, s)
  else (clampLong w (if neg then -(decimalValue 0 num : Int) else decimalValue 0 num),
    digits.dropWhile isdigit)

/-- `strstr(haystack, needle) != NULL`. -/
def strstr (haystack needle : Bytes) : Bool := haystack.tails.any needle.isPrefixOf

/-- Value of a digit in base 16 or less. -/
def digitValue (c : UInt8) : Option Nat :=
  if isdigit c then some (c.toNat - 48)
  else if 97 ≤ c ∧ c ≤ 102 then some (c.toNat - 87)
  else if 65 ≤ c ∧ c ≤ 70 then some (c.toNat - 55)
  else none

/-- Is `c` a digit of the base? -/
def isDigitOf (base : Nat) (c : UInt8) : Bool := (digitValue c).any (· < base)

/-- Value of a string of digits, continuing from `acc`. -/
def digitsValue (base acc : Nat) : Bytes → Nat
  | [] => acc
  | c :: cs => digitsValue base (acc * base + (digitValue c).getD 0) cs

/-- The base of a number and its digits: `0x` before a hexadecimal digit, a leading `0`, or
decimal. -/
def baseOf : Bytes → Nat × Bytes
  -- without a digit after it, the `x` does not belong to the number
  | 48 :: x :: c :: rest =>
      if (x = 120 ∨ x = 88) ∧ isDigitOf 16 c then (16, c :: rest) else (8, 48 :: x :: c :: rest)
  | 48 :: rest => (8, 48 :: rest)
  | s => (10, s)

/-- `strtoul(s, &end, 0)` with an `unsigned long` of `w` bits: the value and the string from `end`
on. A minus sign negates the value in the unsigned type. -/
def strtoul (w : Nat) (s : Bytes) : Nat × Bytes :=
  let body := s.dropWhile isspace
  let (neg, body) : Bool × Bytes := match body with
    | c :: rest => if c = 45 then (true, rest) else if c = 43 then (false, rest) else (false, body)
    | [] => (false, [])
  let (base, digits) := baseOf body
  let num := digits.takeWhile (isDigitOf base)
  if num = [] then (0, s)
  else
    let v := digitsValue base 0 num
    -- a value out of range is not negated
    let v := if 2 ^ w ≤ v then 2 ^ w - 1 else if neg then (2 ^ w - v) % 2 ^ w else v
    (v, digits.dropWhile (isDigitOf base))

example : strtoul 32 (cstr "0755") = (493, []) := by decide

example : strtoul 32 (cstr "0x1Fg") = (31, cstr "g") := by decide

example : strtol 32 (cstr " -42:x") = (-42, cstr ":x") := by decide

example : strtok 58 (cstr "EMMC:boot::12:") = [cstr "EMMC", cstr "boot", cstr "12"] := by decide

end OpenRecovery.Storage
