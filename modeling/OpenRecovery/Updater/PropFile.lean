import Mathlib.Algebra.BigOperators.Group.List.Basic
import OpenRecovery.Storage.Pointer
import OpenRecovery.Updater.Script

/-!
# Property files

The loop of `FileGetPropFn`, which takes the buffer apart where it stands: `strtok` cuts out a line,
the spaces at its beginning are skipped, and NULs are written behind the key and behind the value.
`propLine` is one line without pointers; `propLineAt_eq` says that the body of the loop does the
same and changes nothing behind the line. So the loop is `findProp` on the lines (`propBuffer_eq`).

`PropLookup` is what the function is for. It fails for the files in which `strtok` finds no line:
`strtok` returns NULL there, and the pointer is followed.
-/

set_option autoImplicit false

namespace OpenRecovery.Updater

open OpenRecovery.Crash OpenRecovery.Edify OpenRecovery.Storage

/-! ## The loop -/

/-- The body of the loop ends with `continue`, or the function has its result. -/
inductive LineEnd where
  | next (b : Bytes)
  | done (r : Except Bytes Bytes)

/-- `while (*p && isspace(*p)) ++p`. -/
def skipSpace (b : Bytes) (p : Int) : Option Int :=
  advance (fun c => c ≠ 0 ∧ isspace c = true) b b.length p

/-- The message for a line without an equals sign. -/
def malformedLine (name filename line : Bytes) : Bytes :=
  name ++ cstr ": malformed line \"" ++ line ++ cstr "\": " ++ filename ++ cstr " not a prop file?"

/-- The value behind the equals sign. -/
def valueAt (b : Bytes) (equal : Int) : Option Bytes := do
  let start ← skipSpace b (equal + 1)
  let val ← stringAt b start
  let b ← trimEnd b start (start + val.length)
  stringAt b start

/-- The body of the loop, behind the spaces at the beginning of the line. -/
def propTextAt (name filename key b : Bytes) (line : Int) : Option LineEnd := do
  let c ← load b line
  -- a comment or a blank line
  if c = 0 ∨ c = 35 then return .next b
  else do
    let equal ← strchr b line 61
    match equal with
    | none => do
        let text ← stringAt b line
        return .done (.error (malformedLine name filename text))
    | some equal => do
        let b ← trimEnd b line equal
        let text ← stringAt b line
        if key ≠ text then return .next b
        else do
          let val ← valueAt b equal
          return .done (.ok val)

/-- The body of the loop. -/
def propLineAt (name filename key b : Bytes) (line : Int) : Option LineEnd := do
  let line ← skipSpace b line
  propTextAt name filename key b line

/-- The loop, for at most `n` lines. -/
def propLoop (name filename key : Bytes) :
    Nat → Option Int → Bytes → Option Int → Option (Except Bytes Bytes)
  | 0, _, _, _ => none
  -- the first line may be NULL
  | _ + 1, none, _, _ => none
  | n + 1, some line, b, kept => do
      match ← propLineAt name filename key b line with
      | .done r => return r
      | .next b => do
          let (line, b, kept) ← nextToken newline b kept
          if line = none then return .ok [] else propLoop name filename key n line b kept

/-- From the first `strtok` on. -/
def propBuffer (name filename key b : Bytes) : Option (Except Bytes Bytes) := do
  let (line, b', kept) ← nextToken newline b (some 0)
  propLoop name filename key b.length line b' kept

/-! ## One line -/

/-- One line without pointers and without the spaces at its beginning: the result, or `none` if the
function goes on with the next line. -/
def propText (name filename key text : Bytes) : Option (Except Bytes Bytes) :=
  if text = [] ∨ text.head? = some 35 then none
  else if (61 : UInt8) ∉ text then some (.error (malformedLine name filename text))
  else if key ≠ (text.takeWhile (· ≠ 61)).rdropWhile isspace then none
  else some (.ok ((((text.dropWhile (· ≠ 61)).drop 1).dropWhile isspace).rdropWhile isspace))

/-- One line without pointers. -/
def propLine (name filename key line : Bytes) : Option (Except Bytes Bytes) :=
  propText name filename key (line.dropWhile isspace)

theorem findProp_cons (name filename key line : Bytes) (lines : List Bytes) :
    findProp name filename key (line :: lines) =
      (propLine name filename key line).getD (findProp name filename key lines) := by
  rw [findProp, propLine, propText]
  split
  · rfl
  · split
    · rfl
    · split <;> rfl

section Lines

variable (u v : Bytes)

/-- The pointer to the rest of a text without the spaces at its beginning. -/
theorem skipSpace_append {s : Bytes} (hs : (0 : UInt8) ∉ s) :
    skipSpace (u ++ (s ++ 0 :: v)) u.length = some ((u ++ s.takeWhile isspace).length : Int) := by
  have hsplit : s = s.takeWhile isspace ++ s.dropWhile isspace :=
    List.takeWhile_append_dropWhile.symm
  have hall : ∀ c ∈ s.takeWhile isspace, decide (c ≠ 0 ∧ isspace c = true) = true := by
    intro c hc
    have hne : c ≠ 0 := fun h => hs (h ▸ (List.takeWhile_sublist _).mem hc)
    simp [hne, List.mem_takeWhile_imp hc]
  obtain ⟨c, w, hcw, hc⟩ : ∃ c w, s.dropWhile isspace ++ 0 :: v = c :: w ∧
      decide (c ≠ 0 ∧ isspace c = true) = false := by
    cases hdrop : s.dropWhile isspace with
    | nil => exact ⟨0, v, rfl, rfl⟩
    | cons c w =>
        have hhead : isspace c = false := head?_dropWhile (f := isspace) (s := s) c (by simp [hdrop])
        exact ⟨c, w ++ 0 :: v, rfl, by simp [hhead]⟩
  have hbuffer : u ++ (s ++ 0 :: v) = u ++ (s.takeWhile isspace ++ c :: w) := by
    rw [← hcw, ← List.append_assoc (s.takeWhile isspace), ← hsplit]
  rw [skipSpace, hbuffer]
  exact advance_append u w c hall hc (by simp; omega)

/-- What is left of a text after the spaces at its beginning does not contain a NUL either. -/
theorem zero_not_mem_dropWhile {s : Bytes} (hs : (0 : UInt8) ∉ s) (f : UInt8 → Bool) :
    (0 : UInt8) ∉ s.dropWhile f := fun h => hs ((List.dropWhile_sublist _).mem h)

/-- The value is trimmed at both ends. -/
theorem valueAt_append {s : Bytes} (hs : (0 : UInt8) ∉ s) :
    valueAt (u ++ (s ++ 0 :: v)) (u.length - 1) =
      some ((s.dropWhile isspace).rdropWhile isspace) := by
  have hstart := skipSpace_append u v hs
  have htext := zero_not_mem_dropWhile hs isspace
  have hbuffer : u ++ (s ++ 0 :: v) =
      (u ++ s.takeWhile isspace) ++ (s.dropWhile isspace ++ 0 :: v) := by
    conv_lhs => rw [← List.takeWhile_append_dropWhile (p := isspace) (l := s)]
    simp only [List.append_assoc]
  obtain ⟨w, -, htrim⟩ := trimEnd_append (u ++ s.takeWhile isspace) v 0 (s := s.dropWhile isspace)
    head?_dropWhile
  have hval : (0 : UInt8) ∉ (s.dropWhile isspace).rdropWhile isspace := fun h =>
    htext ((List.rdropWhile_prefix isspace _).sublist.mem h)
  rw [valueAt, sub_add_cancel, hstart, hbuffer]
  simp only [Option.bind_eq_bind, Option.bind_some, stringAt_append _ v htext]
  rw [← Nat.cast_add, ← List.length_append, htrim, Option.bind_some, stringAt_append _ _ hval]

/-- A text is what stands before a byte of it, the byte, and the rest. -/
theorem exists_break {c : UInt8} {t : Bytes} (h : c ∈ t) : ∃ r,
    t = t.takeWhile (· ≠ c) ++ c :: r ∧ (t.dropWhile (· ≠ c)).drop 1 = r := by
  cases hdrop : t.dropWhile (· ≠ c) with
  | nil =>
      have hall := List.dropWhile_eq_nil_iff.mp hdrop c h
      simp at hall
  | cons d r =>
      have hhead : ∀ x ∈ (t.dropWhile (· ≠ c)).head?, decide (x ≠ c) = false := head?_dropWhile
      have hd : d = c := by simpa using hhead d (by rw [hdrop]; rfl)
      refine ⟨r, ?_, rfl⟩
      conv_lhs => rw [← List.takeWhile_append_dropWhile (p := (· ≠ c)) (l := t), hdrop, hd]

theorem head?_takeWhile {f g : UInt8 → Bool} {t : Bytes} (h : ∀ x ∈ t.head?, f x = false) :
    ∀ x ∈ (t.takeWhile g).head?, f x = false := by
  cases t with
  | nil => simp
  | cons c t =>
      intro x hx
      cases hc : g c with
      | false => simp [hc] at hx
      | true =>
          simp [hc] at hx
          exact h x (by simp [hx])

theorem propTextAt_eq (name filename key : Bytes) {t : Bytes} (ht : (0 : UInt8) ∉ t)
    (hhead : ∀ x ∈ t.head?, isspace x = false) :
    ∃ w, w.length = t.length ∧
      propTextAt name filename key (u ++ (t ++ 0 :: v)) u.length =
        some (match propText name filename key t with
          | some r => .done r
          | none => .next (u ++ (w ++ 0 :: v))) := by
  obtain ⟨c, hload, hc⟩ : ∃ c, load (u ++ (t ++ 0 :: v)) u.length = some c ∧
      (c = 0 ∨ c = 35 ↔ t = [] ∨ t.head? = some 35) := by
    cases t with
    | nil => exact ⟨0, load_append u v 0, by simp⟩
    | cons c t =>
        have hne : c ≠ 0 := fun h => ht (by simp [h])
        exact ⟨c, load_append u (t ++ 0 :: v) c, by simp [hne]⟩
  rw [propTextAt, propText, hload]
  simp only [Option.bind_eq_bind, Option.bind_some, hc, strchr_append u v 61 ht]
  by_cases hskip : t = [] ∨ t.head? = some 35
  · exact ⟨t, rfl, by simp only [if_pos hskip]; rfl⟩
  · simp only [if_neg hskip]
    by_cases hequal : (61 : UInt8) ∈ t
    · obtain ⟨r, hsplit, hr⟩ := exists_break hequal
      -- the key is cut off behind its last character
      obtain ⟨w, hw, htrim⟩ := trimEnd_append u (r ++ 0 :: v) 61 (s := t.takeWhile (· ≠ 61))
        (head?_takeWhile hhead)
      have hbuffer : u ++ (t ++ 0 :: v) = u ++ (t.takeWhile (· ≠ 61) ++ 61 :: (r ++ 0 :: v)) := by
        conv_lhs => rw [hsplit]
        simp only [List.append_assoc, List.cons_append]
      have hkey : (0 : UInt8) ∉ (t.takeWhile (· ≠ 61)).rdropWhile isspace := fun h =>
        ht ((List.takeWhile_sublist _).mem ((List.rdropWhile_prefix isspace _).sublist.mem h))
      have hzero : (0 : UInt8) ∉ r := fun h => ht (by rw [hsplit]; simp [h])
      -- the value stands where it stood before
      have hval := valueAt_append (u ++ ((t.takeWhile (· ≠ 61)).rdropWhile isspace ++ 0 :: w)) v hzero
      have hplace : ((u ++ t.takeWhile (· ≠ 61)).length : Int) =
          (u ++ ((t.takeWhile (· ≠ 61)).rdropWhile isspace ++ 0 :: w)).length - 1 := by
        simp only [List.length_append, List.length_cons] at hw ⊢
        omega
      refine ⟨(t.takeWhile (· ≠ 61)).rdropWhile isspace ++ 0 :: (w ++ r), ?_, ?_⟩
      · conv_rhs => rw [hsplit]
        simp only [List.length_append, List.length_cons] at hw ⊢
        omega
      · simp only [hequal, not_true, if_true, if_false, hr]
        rw [hbuffer, htrim]
        simp only [Option.bind_some, stringAt_append _ _ hkey]
        split
        · simp
        · rw [hplace]
          simp only [List.append_assoc, List.cons_append] at hval ⊢
          rw [hval]
          rfl
    · refine ⟨t, rfl, ?_⟩
      simp only [if_neg hequal, if_pos hequal, stringAt_append u v ht, Option.bind_some]
      rfl

/-- The body of the loop does what `propLine` says. Nothing behind the line is changed. -/
theorem propLineAt_eq (name filename key : Bytes) {s : Bytes} (hs : (0 : UInt8) ∉ s) :
    ∃ w, w.length = s.length ∧
      propLineAt name filename key (u ++ (s ++ 0 :: v)) u.length =
        some (match propLine name filename key s with
          | some r => .done r
          | none => .next (u ++ (w ++ 0 :: v))) := by
  have hstart := skipSpace_append u v hs
  have hsplit : s.takeWhile isspace ++ s.dropWhile isspace = s := List.takeWhile_append_dropWhile
  have hbuffer : u ++ (s ++ 0 :: v) =
      (u ++ s.takeWhile isspace) ++ (s.dropWhile isspace ++ 0 :: v) := by
    conv_lhs => rw [← hsplit]
    simp only [List.append_assoc]
  obtain ⟨w, hw, htext⟩ := propTextAt_eq (u ++ s.takeWhile isspace) v name filename key
    (zero_not_mem_dropWhile hs isspace) head?_dropWhile
  refine ⟨s.takeWhile isspace ++ w, ?_, ?_⟩
  · rw [List.length_append, hw, ← List.length_append, hsplit]
  · rw [propLineAt, propLine, hstart, hbuffer]
    rw [Option.bind_eq_bind, Option.bind_some, htext]
    simp only [List.append_assoc]

end Lines

/-! ## The whole buffer -/

/-- The loop, at a line that `strtok` has cut out, with enough fuel for the lines behind it. -/
theorem propLoop_eq (name filename key : Bytes) {n : Nat} {u tok v : Bytes} {kept : Option Int}
    {toks : List Bytes} (hn : toks.length < n) (htok : (0 : UInt8) ∉ tok)
    (h : Pending newline (u.length + tok.length + 1) v kept toks) :
    propLoop name filename key n (some (u.length : Int)) (u ++ (tok ++ 0 :: v)) kept =
      some (findProp name filename key (tok :: toks)) := by
  induction n generalizing u tok v kept toks with
  | zero => omega
  | succ n ih =>
      obtain ⟨w, hw, hline⟩ := propLineAt_eq u v name filename key htok
      rw [propLoop, hline, findProp_cons]
      simp only [Option.bind_eq_bind, Option.bind_some]
      cases propLine name filename key tok with
      | some r => rfl
      | none =>
          have hbuffer : u ++ (w ++ 0 :: v) = (u ++ w ++ [0]) ++ v := by simp
          have hfront : u.length + tok.length + 1 = (u ++ w ++ [0]).length := by
            simp [hw, Nat.add_assoc]
          rw [hfront] at h
          simp only [Option.getD_none, hbuffer]
          rcases nextToken_pending (by decide) h with ⟨rfl, b, hnext⟩ |
            ⟨tok', rest, p, v', kept', rfl, htok', hnext, hrest⟩
          · rw [hnext]
            rfl
          · rw [hnext]
            have hrestLength : rest.length < n := by simpa using hn
            simpa using ih hrestLength htok' hrest

theorem length_strtok_le (delim : UInt8) (s : Bytes) : (strtok delim s).length ≤ s.length := by
  have hone : ∀ n ∈ (strtok delim s).map List.length, 1 ≤ n := by
    intro n hn
    obtain ⟨tok, htok, rfl⟩ := List.mem_map.mp hn
    exact List.length_pos_iff.mpr (ne_nil_of_mem_strtok htok)
  calc (strtok delim s).length = ((strtok delim s).map List.length).length := by simp
    _ ≤ ((strtok delim s).map List.length).sum := List.length_le_sum_of_one_le _ hone
    _ = (s.filter (· ≠ delim)).length := by rw [← List.length_flatten, strtok_flatten]
    _ ≤ s.length := List.length_filter_le ..

/-- The loop is `findProp` on the lines, and it faults if there are none. -/
theorem propBuffer_eq (name filename key data : Bytes) :
    propBuffer name filename key (data ++ [0]) =
      match strtok newline (data.takeWhile (· ≠ 0)) with
      | [] => none
      | line :: lines => some (findProp name filename key (line :: lines)) := by
  obtain ⟨w, hw⟩ : ∃ w, data ++ [0] = data.takeWhile (· ≠ 0) ++ 0 :: w := by
    obtain ⟨w, hw, -⟩ := exists_break (c := (0 : UInt8)) (t := data ++ [0]) (by simp)
    refine ⟨w, ?_⟩
    have htake : (data ++ [0]).takeWhile (· ≠ 0) = data.takeWhile (· ≠ 0) := by
      rw [List.takeWhile_append]
      split
      · rename_i hlength
        simpa using ((List.takeWhile_prefix _).eq_of_length hlength).symm
      · rfl
    rwa [htake] at hw
  have hzero : (0 : UInt8) ∉ data.takeWhile (· ≠ 0) := fun h => by
    simpa using List.mem_takeWhile_imp h
  have hlength := length_strtok_le newline (data.takeWhile (· ≠ 0))
  have hpending : Pending newline ([] : Bytes).length (data ++ [0]) (some 0)
      (strtok newline (data.takeWhile (· ≠ 0))) := .inr ⟨rfl, _, w, hw, hzero, rfl⟩
  rcases nextToken_pending (by decide) hpending with ⟨hnil, b, hnext⟩ |
    ⟨tok, rest, p, v, kept, hcons, htok, hnext, hrest⟩
  · rw [hnil, propBuffer, ← List.nil_append (data ++ [0]), hnext]
    simp [propLoop]
  · rw [hcons] at hlength ⊢
    have hle := (List.takeWhile_sublist (· ≠ 0) (l := data)).length_le
    rw [propBuffer, ← List.nil_append (data ++ [0]), hnext]
    simp only [Option.bind_eq_bind, Option.bind_some]
    apply propLoop_eq name filename key _ htok hrest
    simp only [List.nil_append, List.length_append, List.length_cons, List.length_nil] at hlength ⊢
    omega

/-- `scanProps` in Lean is the loop of the source. -/
theorem scanProps_eq (name filename key data : Bytes) :
    scanProps name filename key data =
      match propBuffer name filename key (data ++ [0]) with
      | none => .halt
      | some r => .ret (r.map Result.string) := by
  rw [propBuffer_eq, scanProps]
  cases strtok newline (data.takeWhile (· ≠ 0)) <;> rfl

/-! ## The lookup -/

/-- Spaces at both ends cut off. -/
def trim (s : Bytes) : Bytes := (s.dropWhile isspace).rdropWhile isspace

/-- A blank line or a comment. -/
def Skipped (line : Bytes) : Prop :=
  line.dropWhile isspace = [] ∨ (line.dropWhile isspace).head? = some 35

/-- Neither of them, and without an equals sign. -/
def Malformed (line : Bytes) : Prop := ¬ Skipped line ∧ (61 : UInt8) ∉ line

/-- The text before the first equals sign is the key. -/
def Matches (key line : Bytes) : Prop :=
  ¬ Skipped line ∧ (61 : UInt8) ∈ line ∧ trim (line.takeWhile (· ≠ 61)) = key

/-- The text behind the first equals sign. -/
def valueOf (line : Bytes) : Bytes := trim ((line.dropWhile (· ≠ 61)).drop 1)

theorem dropWhile_takeWhile {f g : UInt8 → Bool} (hfg : ∀ c, f c = true → g c = true) (s : Bytes) :
    (s.takeWhile g).dropWhile f = (s.dropWhile f).takeWhile g := by
  induction s with
  | nil => rfl
  | cons c s ih =>
      cases hf : f c with
      | true => simp [hf, hfg c hf, ih]
      | false => cases hg : g c <;> simp [hf, hg]

theorem dropWhile_dropWhile {f g : UInt8 → Bool} (hfg : ∀ c, f c = true → g c = true) (s : Bytes) :
    (s.dropWhile f).dropWhile g = s.dropWhile g := by
  induction s with
  | nil => rfl
  | cons c s ih =>
      cases hf : f c with
      | true => simp [hf, hfg c hf, ih]
      | false => simp [hf]

theorem mem_dropWhile_of_not {f : UInt8 → Bool} {c : UInt8} (hc : f c = false) (s : Bytes) :
    c ∈ s.dropWhile f ↔ c ∈ s := by
  induction s with
  | nil => simp
  | cons d s ih =>
      cases hf : f d with
      | true =>
          have hne : c ≠ d := fun h => by rw [h, hf] at hc; cases hc
          simp [hf, ih, hne]
      | false => simp [hf]

/-- An equals sign is no space. -/
theorem ne_of_isspace (c : UInt8) (h : isspace c = true) : decide (c ≠ 61) = true := by
  have hne : c ≠ 61 := fun h61 => by rw [h61] at h; exact absurd h (by decide)
  simp [hne]

section PropLine

variable {name filename key line : Bytes}

theorem propLine_of_matches (h : Matches key line) :
    propLine name filename key line = some (.ok (valueOf line)) := by
  obtain ⟨hskip, hequal, hkey⟩ := h
  have hmem := (mem_dropWhile_of_not (f := isspace) (by decide) line).mpr hequal
  rw [trim, dropWhile_takeWhile ne_of_isspace] at hkey
  rw [Skipped] at hskip
  rw [propLine, propText, if_neg hskip, if_neg (not_not_intro hmem), if_neg (not_not_intro hkey.symm),
    dropWhile_dropWhile ne_of_isspace]
  rfl

theorem propLine_of_malformed (h : Malformed line) :
    propLine name filename key line =
      some (.error (malformedLine name filename (line.dropWhile isspace))) := by
  obtain ⟨hskip, hequal⟩ := h
  have hmem := mt (mem_dropWhile_of_not (f := isspace) (by decide) line).mp hequal
  rw [Skipped] at hskip
  rw [propLine, propText, if_neg hskip, if_pos hmem]

theorem propLine_of_not (hmatches : ¬ Matches key line) (hmalformed : ¬ Malformed line) :
    propLine name filename key line = none := by
  rw [propLine, propText]
  by_cases hskip : Skipped line
  · exact if_pos hskip
  · have hequal : (61 : UInt8) ∈ line := by
      by_contra h
      exact hmalformed ⟨hskip, h⟩
    have hmem := (mem_dropWhile_of_not (f := isspace) (by decide) line).mpr hequal
    have hkey : key ≠ ((line.dropWhile isspace).takeWhile (· ≠ 61)).rdropWhile isspace := by
      rintro rfl
      apply hmatches ⟨hskip, hequal, _⟩
      rw [trim, dropWhile_takeWhile ne_of_isspace]
    rw [Skipped] at hskip
    rw [if_neg hskip, if_neg (not_not_intro hmem), if_pos hkey]

end PropLine

section FindProp

variable {name filename key : Bytes}

/-- An empty line makes no difference, so it makes none that `strtok` leaves them out. -/
theorem findProp_strtok (data : Bytes) :
    findProp name filename key (strtok newline data) =
      findProp name filename key (data.splitOn newline) := by
  rw [strtok]
  induction data.splitOn newline with
  | nil => rfl
  | cons line lines ih =>
      cases line with
      | nil => simpa [findProp_cons, propLine, propText] using ih
      | cons c line => rw [List.filter_cons_of_pos (by simp), findProp_cons, findProp_cons, ih]

theorem findProp_found {pre post : List Bytes} {line : Bytes} (h : Matches key line)
    (hpre : ∀ l ∈ pre, ¬ Matches key l ∧ ¬ Malformed l) :
    findProp name filename key (pre ++ line :: post) = .ok (valueOf line) := by
  induction pre with
  | nil => rw [List.nil_append, findProp_cons, propLine_of_matches h, Option.getD_some]
  | cons l pre ih =>
      obtain ⟨hmatches, hmalformed⟩ := hpre l (List.mem_cons_self ..)
      rw [List.cons_append, findProp_cons, propLine_of_not hmatches hmalformed, Option.getD_none]
      exact ih fun x hx => hpre x (List.mem_cons_of_mem _ hx)

theorem findProp_missing {lines : List Bytes}
    (h : ∀ l ∈ lines, ¬ Matches key l ∧ ¬ Malformed l) :
    findProp name filename key lines = .ok [] := by
  induction lines with
  | nil => rfl
  | cons l lines ih =>
      obtain ⟨hmatches, hmalformed⟩ := h l (List.mem_cons_self ..)
      rw [findProp_cons, propLine_of_not hmatches hmalformed, Option.getD_none]
      exact ih fun x hx => h x (List.mem_cons_of_mem _ hx)

/-- The search fails at a malformed line that no matching line precedes. -/
theorem findProp_error_iff {lines : List Bytes} :
    (∃ msg, findProp name filename key lines = .error msg) ↔
      ∃ pre line post, lines = pre ++ line :: post ∧ Malformed line ∧ ∀ l ∈ pre, ¬ Matches key l := by
  induction lines with
  | nil => simp [findProp]
  | cons l lines ih =>
      rw [findProp_cons]
      by_cases hmatches : Matches key l
      · rw [propLine_of_matches hmatches, Option.getD_some]
        constructor
        · rintro ⟨msg, hmsg⟩
          cases hmsg
        · rintro ⟨pre, line, post, hlines, hline, hpre⟩
          cases pre with
          | nil =>
              obtain ⟨rfl, rfl⟩ := List.cons.inj hlines
              exact absurd hmatches.2.1 hline.2
          | cons x pre =>
              obtain ⟨rfl, rfl⟩ := List.cons.inj hlines
              exact absurd hmatches (hpre _ (List.mem_cons_self ..))
      · by_cases hmalformed : Malformed l
        · rw [propLine_of_malformed hmalformed, Option.getD_some]
          exact ⟨fun _ => ⟨[], l, lines, rfl, hmalformed, by simp⟩, fun _ => ⟨_, rfl⟩⟩
        · rw [propLine_of_not hmatches hmalformed, Option.getD_none, ih]
          constructor
          · rintro ⟨pre, line, post, rfl, hline, hpre⟩
            refine ⟨l :: pre, line, post, rfl, hline, ?_⟩
            intro x hx
            rcases List.mem_cons.mp hx with rfl | hx
            · exact hmatches
            · exact hpre x hx
          · rintro ⟨pre, line, post, hlines, hline, hpre⟩
            cases pre with
            | nil =>
                obtain ⟨rfl, rfl⟩ := List.cons.inj hlines
                exact absurd hline hmalformed
            | cons x pre =>
                obtain ⟨rfl, rfl⟩ := List.cons.inj hlines
                exact ⟨pre, line, post, rfl, hline, fun y hy => hpre y (List.mem_cons_of_mem _ hy)⟩

end FindProp

/-! ## The function -/

section Runs

variable {Op : Type} {Res : Op → Type} {α : Type}

theorem yields_op_iff {o : Op} {k : Res o → Prog Op Res α} {r : Res o} {t : Trace Op Res}
    {out : Option α} : Yields (.op o k) (⟨o, r⟩ :: t) out ↔ Yields (k r) t out :=
  ⟨fun h => by cases h; assumption, .op⟩

theorem yields_ret_iff {a : α} {out : Option α} :
    Yields (.ret a : Prog Op Res α) [] out ↔ out = some a := by
  constructor
  · exact fun h => (yields_ret h).2
  · rintro rfl
    exact .ret a

end Runs

/-- The run of the function in which the file is `data`. -/
def propTrace (filename key data : Bytes) : Trace Sys Sys.Res :=
  [⟨.args .fileGetProp [filename, key], ()⟩, ⟨.own (.stat filename), some data.length⟩,
    ⟨.own (.openForRead filename), true⟩, ⟨.own (.fread filename data.length), some data⟩]

/-- The only outcome of that run, when `m` is the message at the beginning. -/
def PropGives (name filename key data : Bytes) (m : Option Bytes)
    (out : Option Value × Option Bytes) : Prop :=
  ∀ out', Yields (fileGetPropFn (literalCall .fileGetProp name [filename, key]) m)
    (propTrace filename key data) out' ↔ out' = some out

/-- What the function is for: no pointer is followed out of the buffer; the value of the first line
with the key, and an empty one if there is no such line; an error for a malformed line that no line
with the key precedes. -/
structure PropLookup (name filename key data : Bytes) : Prop where
  alive : propBuffer name filename key (data ++ [0]) ≠ none
  found : ∀ m pre line post, data.splitOn newline = pre ++ line :: post → Matches key line →
    (∀ l ∈ pre, ¬ Matches key l ∧ ¬ Malformed l) →
      PropGives name filename key data m (some (stringValue (valueOf line)), m)
  missing : ∀ m, (∀ l ∈ data.splitOn newline, ¬ Matches key l ∧ ¬ Malformed l) →
    PropGives name filename key data m (some (stringValue []), m)
  aborts : ∀ m, (∃ msg, PropGives name filename key data m (none, some msg)) ↔
    ∃ pre line post, data.splitOn newline = pre ++ line :: post ∧ Malformed line ∧
      ∀ l ∈ pre, ¬ Matches key l

section Lookup

variable {name filename key data : Bytes}

theorem yields_propTrace (hsize : data.length ≤ maxFileGetpropSize) (m : Option Bytes)
    (out : Option (Option Value × Option Bytes)) :
    Yields (fileGetPropFn (literalCall .fileGetProp name [filename, key]) m)
      (propTrace filename key data) out ↔
      Yields (finish (scanProps name filename key data) m) [] out := by
  have hstat : ∀ t, Yields (fileGetPropFn (literalCall .fileGetProp name [filename, key]) m)
      (⟨.args .fileGetProp [filename, key], ()⟩ :: ⟨.own (.stat filename), some data.length⟩ :: t)
        out ↔
      Yields (finish (if data.length > maxFileGetpropSize then
          .ret (.error (filename ++ cstr " too large for " ++ name ++ cstr " (max " ++
            decimal maxFileGetpropSize ++ cstr ")"))
        else readProps name filename key data.length) m) t out :=
    fun t => yields_op_iff.trans yields_op_iff
  rw [propTrace, hstat, if_neg (Nat.not_lt.mpr hsize)]
  exact yields_op_iff.trans yields_op_iff

/-- With a line there is a result, and it is that of the search. -/
theorem propGives_iff (hnul : (0 : UInt8) ∉ data) (hsize : data.length ≤ maxFileGetpropSize)
    (hline : strtok newline data ≠ []) (m : Option Bytes) (out : Option Value × Option Bytes) :
    PropGives name filename key data m out ↔
      out = match findProp name filename key (data.splitOn newline) with
        | .ok val => (some (stringValue val), m)
        | .error msg => (none, some (msg.take 4095)) := by
  have htake : data.takeWhile (· ≠ 0) = data := cText_eq_self hnul
  obtain ⟨line, lines, hlines⟩ := List.exists_cons_of_ne_nil hline
  have hscan : scanProps name filename key data =
      .ret ((findProp name filename key (data.splitOn newline)).map Result.string) := by
    rw [scanProps, htake, hlines, ← findProp_strtok, hlines]
    rfl
  have hyields : ∀ out', Yields (finish (scanProps name filename key data) m) [] out' ↔
      out' = some (match findProp name filename key (data.splitOn newline) with
        | .ok val => (some (stringValue val), m)
        | .error msg => (none, some (msg.take 4095))) := by
    intro out'
    rw [hscan]
    cases findProp name filename key (data.splitOn newline) with
    | ok val => exact yields_ret_iff
    | error msg => exact yields_ret_iff
  simp only [PropGives, yields_propTrace hsize, hyields]
  constructor
  · exact fun h => (Option.some.inj ((h _).mp rfl)).symm
  · rintro rfl out'
    exact Iff.rfl

/-- `strtok` finds a line if and only if there is a byte that is no newline. -/
theorem strtok_ne_nil_iff {delim : UInt8} {s : Bytes} :
    strtok delim s ≠ [] ↔ ∃ c ∈ s, c ≠ delim := by
  have hflatten : strtok delim s ≠ [] ↔ (strtok delim s).flatten ≠ [] := by
    constructor
    · intro h hnil
      obtain ⟨tok, toks, htoks⟩ := List.exists_cons_of_ne_nil h
      have htok : tok ∈ strtok delim s := by simp [htoks]
      exact ne_nil_of_mem_strtok htok (List.flatten_eq_nil_iff.mp hnil tok htok)
    · rintro h hnil
      exact h (by rw [hnil]; rfl)
  rw [hflatten, strtok_flatten]
  simp

/-- The function looks a key up in a property file if and only if the file has a byte that is no
newline. -/
theorem fileGetProp_iff (name filename key data : Bytes) (hnul : (0 : UInt8) ∉ data)
    (hsize : data.length ≤ maxFileGetpropSize) :
    PropLookup name filename key data ↔ ∃ c ∈ data, c ≠ newline := by
  have htake : data.takeWhile (· ≠ 0) = data := cText_eq_self hnul
  rw [← strtok_ne_nil_iff]
  constructor
  · intro h hnil
    apply h.alive
    rw [propBuffer_eq, htake, hnil]
  · intro hline
    refine ⟨?_, ?_, ?_, ?_⟩
    · obtain ⟨line, lines, hlines⟩ := List.exists_cons_of_ne_nil hline
      rw [propBuffer_eq, htake, hlines]
      simp
    · intro m pre line post hlines hmatches hpre
      rw [propGives_iff hnul hsize hline, hlines, findProp_found hmatches hpre]
    · intro m hall
      rw [propGives_iff hnul hsize hline, findProp_missing hall]
    · intro m
      have herror : (∃ msg, findProp name filename key (data.splitOn newline) = .error msg) ↔ _ :=
        findProp_error_iff
      rw [← herror]
      simp only [propGives_iff hnul hsize hline]
      cases findProp name filename key (data.splitOn newline) with
      | ok val => simp
      | error msg => simp

/-- `# c`, `k = v`. -/
theorem fileGetProp_value :
    PropLookup (cstr "file_getprop") (cstr "/p") [107] [35, 32, 99, 10, 107, 32, 61, 32, 118, 10] :=
  (fileGetProp_iff _ _ _ _ (by decide) (by decide)).mpr ⟨35, by decide, by decide⟩

/-- The empty file: the null pointer that `strtok` returns is followed. -/
theorem fileGetProp_empty : ¬ PropLookup (cstr "file_getprop") (cstr "/p") [107] [] :=
  fun h => h.alive rfl

end Lookup

end OpenRecovery.Updater
