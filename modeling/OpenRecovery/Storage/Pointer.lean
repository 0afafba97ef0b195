import Mathlib.Data.List.DropRight
import Mathlib.Data.List.TakeWhile
import OpenRecovery.Storage.CString

/-!
# Pointers into a buffer

A text that is taken apart where it stands: a pointer is an offset into the buffer, which may be
behind its end or before its beginning as long as nothing is read there. Every read and every write
is checked, and `none` is a fault.

The lemmas are about a buffer that is written as a sum, `u ++ (s ++ c :: v)`, with a pointer
`u.length` to the beginning of `s`. `strtok` keeps a pointer to the text it has not seen yet;
`Pending` says that this text is still as it was, whatever has become of the tokens before it.
-/

set_option autoImplicit false

namespace OpenRecovery.Storage

/-- `*p`. -/
def load (b : Bytes) (p : Int) : Option UInt8 := if 0 ≤ p then b[p.toNat]? else none

/-- `*p = c`. -/
def store (b : Bytes) (p : Int) (c : UInt8) : Option Bytes :=
  if 0 ≤ p ∧ p.toNat < b.length then some (b.set p.toNat c) else none

/-- `while (f(*p)) ++p`, for at most `n` reads. -/
def advance (f : UInt8 → Bool) (b : Bytes) : Nat → Int → Option Int
  | 0, _ => none
  | n + 1, p => do
      let c ← load b p
      if f c then advance f b n (p + 1) else return p

/-- `while (p > lo && f(*p)) --p`, for at most `n` tests. -/
def retreat (f : UInt8 → Bool) (b : Bytes) (lo : Int) : Nat → Int → Option Int
  | 0, _ => none
  | n + 1, p =>
      if lo < p then do
        let c ← load b p
        if f c then retreat f b lo n (p - 1) else return p
      else some p

/-- `while (p > lo && f(*p)) *p-- = 0`, for at most `n` tests. -/
def zeroBack (f : UInt8 → Bool) (b : Bytes) (lo : Int) : Nat → Int → Option Bytes
  | 0, _ => none
  | n + 1, p =>
      if lo < p then do
        let c ← load b p
        if f c then do
          let b ← store b p 0
          zeroBack f b lo n (p - 1)
        else return b
      else some b

/-- The string at `p`, as `strlen`, `strcmp`, `strdup` and `%s` read it. -/
def stringAt (b : Bytes) (p : Int) : Option Bytes :=
  if 0 ≤ p ∧ 0 ∈ b.drop p.toNat then some ((b.drop p.toNat).takeWhile (· ≠ 0)) else none

/-- `strchr(p, c)`. The inner `none` is NULL. -/
def strchr (b : Bytes) (p : Int) (c : UInt8) : Option (Option Int) :=
  (stringAt b p).map fun s => if c ∈ s then some (p + (s.takeWhile (· ≠ c)).length) else none

/-- `strtok` from the pointer that it has kept: the token or NULL, the buffer with a NUL behind the
token, and the pointer that it keeps. -/
def nextToken (delim : UInt8) (b : Bytes) : Option Int → Option (Option Int × Bytes × Option Int)
  | none => some (none, b, none)
  | some p => do
      let start ← advance (· = delim) b b.length p
      let c ← load b start
      if c = 0 then return (none, b, none)
      else do
        let stop ← advance (fun c => c ≠ 0 ∧ c ≠ delim) b b.length start
        let c ← load b stop
        -- a token at the end of the text leaves nothing for the next call
        if c = 0 then return (some start, b, none)
        else do
          let b ← store b stop 0
          return (some start, b, some (stop + 1))

/-! ## Reads and writes -/

section Access

variable (u v : Bytes) (c : UInt8)

@[simp] theorem load_append : load (u ++ c :: v) u.length = some c := by
  simp [load]

@[simp] theorem store_append (d : UInt8) : store (u ++ c :: v) u.length d = some (u ++ d :: v) := by
  simp [store]

theorem stringAt_append {s : Bytes} (hs : (0 : UInt8) ∉ s) :
    stringAt (u ++ (s ++ 0 :: v)) u.length = some s := by
  have htake : (s ++ 0 :: v).takeWhile (· ≠ 0) = s := cText_append hs
  simp only [stringAt, Int.toNat_natCast, List.drop_left, htake]
  simp

theorem strchr_append {s : Bytes} (hs : (0 : UInt8) ∉ s) :
    strchr (u ++ (s ++ 0 :: v)) u.length c =
      some (if c ∈ s then some ((u ++ s.takeWhile (· ≠ c)).length : Int) else none) := by
  rw [strchr, stringAt_append u v hs, Option.map_some, List.length_append, Nat.cast_add]

/-- The pointer stops at the first byte that does not satisfy `f`. -/
theorem advance_append {f : UInt8 → Bool} {s : Bytes} (hs : ∀ x ∈ s, f x = true)
    (hc : f c = false) {n : Nat} (hn : s.length < n) :
    advance f (u ++ (s ++ c :: v)) n u.length = some ((u ++ s).length : Int) := by
  induction s generalizing u n with
  | nil =>
      obtain ⟨n, rfl⟩ := Nat.exists_eq_add_of_lt hn
      simp [advance, hc]
  | cons x s ih =>
      obtain ⟨n, rfl⟩ : ∃ m, n = m + 1 := ⟨n - 1, by omega⟩
      have hx : f x = true := hs x (List.mem_cons_self ..)
      -- the byte that was passed belongs to the text before the pointer
      have hrest := ih (u ++ [x]) (fun y hy => hs y (List.mem_cons_of_mem _ hy))
        (n := n) (by simp at hn; omega)
      simp only [List.append_assoc, List.singleton_append, List.length_append,
        List.length_singleton, Nat.cast_add, Nat.cast_one] at hrest
      simp only [List.cons_append, advance, load_append, Option.bind_eq_bind, Option.bind_some, hx,
        if_true, hrest]
      simp only [List.length_append, List.length_cons]
      congr 1

/-- The pointer comes back to the last byte that does not satisfy `f`. -/
theorem retreat_append {f : UInt8 → Bool} {s : Bytes} (hs : ∀ x ∈ s, f x = true)
    (hc : f c = false) {lo : Int} (hlo : lo ≤ u.length) {n : Nat} (hn : s.length < n) :
    retreat f (u ++ c :: (s ++ v)) lo n ((u ++ s).length : Int) = some (u.length : Int) := by
  induction s using List.reverseRecOn generalizing v n with
  | nil =>
      obtain ⟨n, rfl⟩ := Nat.exists_eq_add_of_lt hn
      simp [retreat, hc]
  | append_singleton s x ih =>
      obtain ⟨n, rfl⟩ : ∃ m, n = m + 1 := ⟨n - 1, by omega⟩
      have hx : f x = true := hs x (by simp)
      have hload : load (u ++ c :: (s ++ [x] ++ v)) ((u ++ (s ++ [x])).length : Int) = some x := by
        have happend : u ++ c :: (s ++ [x] ++ v) = (u ++ c :: s) ++ x :: v := by simp
        have hlength : (u ++ (s ++ [x])).length = (u ++ c :: s).length := by simp
        rw [happend, hlength, load_append]
      have hlt : lo < ((u ++ (s ++ [x])).length : Int) := by simp; omega
      have hback : ((u ++ (s ++ [x])).length : Int) - 1 = ((u ++ s).length : Int) := by simp; omega
      have hrest := ih (x :: v) (fun y hy => hs y (by simp [hy])) (n := n) (by simp at hn; omega)
      rw [retreat, if_pos hlt, hload, hback]
      simpa [hx] using hrest

end Access

/-! ## Cutting off spaces -/

/-- Cut off the spaces before `stop`: `end = stop - 1; while (end > start && isspace(*end)) --end;
end[1] = 0`. -/
def trimEnd (b : Bytes) (start stop : Int) : Option Bytes := do
  let last ← retreat isspace b start b.length (stop - 1)
  store b (last + 1) 0

/-- The last byte of the trimmed text, or the byte before the text if nothing is left of it. -/
theorem retreat_isspace (u v : Bytes) {s : Bytes} (hs : ∀ x ∈ s.head?, isspace x = false) {n : Nat}
    (hn : s.length < n) :
    retreat isspace (u ++ (s ++ v)) u.length n ((u ++ s).length - 1) =
      some ((u ++ s.rdropWhile isspace).length - 1 : Int) := by
  have hsplit : s.rdropWhile isspace ++ s.rtakeWhile isspace = s :=
    List.rdropWhile_append_rtakeWhile
  rcases List.eq_nil_or_concat (s.rdropWhile isspace) with hnil | ⟨k, x, hkx⟩
  · -- a text that does not begin with a space is empty if only spaces are left of it
    have hempty : s = [] := by
      cases s with
      | nil => rfl
      | cons x s =>
          have hx := List.rdropWhile_eq_nil_iff.mp hnil x (List.mem_cons_self ..)
          rw [hs x (by simp)] at hx
          cases hx
    obtain ⟨n, rfl⟩ : ∃ m, n = m + 1 := ⟨n - 1, by omega⟩
    simp [hempty, retreat]
  · rw [List.concat_eq_append] at hkx
    have hx : isspace x = false := by
      have hlast := List.rdropWhile_last_not isspace s (by simp [hkx])
      simpa [hkx] using hlast
    have hall : ∀ y ∈ s.rtakeWhile isspace, isspace y = true := fun y hy =>
      List.mem_rtakeWhile_imp hy
    rw [hkx] at hsplit
    have hlt : (s.rtakeWhile isspace).length < n := by
      rw [← hsplit] at hn
      simp only [List.length_append] at hn
      omega
    have hlo : (u.length : Int) ≤ (u ++ k).length := by simp
    have hback := retreat_append (u ++ k) v x hall hx hlo hlt
    have hbuffer : u ++ k ++ x :: (s.rtakeWhile isspace ++ v) = u ++ (s ++ v) := by
      conv_rhs => rw [← hsplit]
      simp
    have hstart : ((u ++ k ++ s.rtakeWhile isspace).length : Int) = (u ++ s).length - 1 := by
      conv_rhs => rw [← hsplit]
      simp
      omega
    rw [hbuffer, hstart] at hback
    rw [hback, hkx]
    simp
    omega

/-- The text is trimmed where it stands. The byte behind it may be overwritten, and bytes of the
text may stay behind the NUL. -/
theorem trimEnd_append (u v : Bytes) (c : UInt8) {s : Bytes}
    (hs : ∀ x ∈ s.head?, isspace x = false) :
    ∃ w, (s.rdropWhile isspace).length + w.length = s.length ∧
      trimEnd (u ++ (s ++ c :: v)) u.length (u ++ s).length =
        some (u ++ (s.rdropWhile isspace ++ 0 :: (w ++ v))) := by
  have hsplit : s.rdropWhile isspace ++ s.rtakeWhile isspace = s :=
    List.rdropWhile_append_rtakeWhile
  have hlength : (s.rdropWhile isspace).length + (s.rtakeWhile isspace).length = s.length := by
    rw [← List.length_append, hsplit]
  -- the place of the NUL is the first byte behind the trimmed text
  obtain ⟨y, w, hyw⟩ : ∃ y w, s.rtakeWhile isspace ++ [c] = y :: w :=
    List.exists_cons_of_ne_nil (by simp)
  have hw : w.length = (s.rtakeWhile isspace).length := by
    have h := congrArg List.length hyw
    simp at h
    omega
  have hbuffer : u ++ (s ++ c :: v) = (u ++ s.rdropWhile isspace) ++ y :: (w ++ v) := by
    calc u ++ (s ++ c :: v) = u ++ ((s.rdropWhile isspace ++ s.rtakeWhile isspace) ++ c :: v) := by
          rw [hsplit]
      _ = u ++ s.rdropWhile isspace ++ ((s.rtakeWhile isspace ++ [c]) ++ v) := by
          simp only [List.append_assoc, List.singleton_append]
      _ = (u ++ s.rdropWhile isspace) ++ y :: (w ++ v) := by rw [hyw]; simp
  have hlast : retreat isspace (u ++ (s ++ c :: v)) u.length (u ++ (s ++ c :: v)).length
      ((u ++ s).length - 1) = some ((u ++ s.rdropWhile isspace).length - 1 : Int) :=
    retreat_isspace u (c :: v) hs (by simp; omega)
  refine ⟨w, by omega, ?_⟩
  rw [trimEnd, hlast]
  simp only [Option.bind_eq_bind, Option.bind_some, sub_add_cancel]
  rw [hbuffer, store_append]
  simp

/-- All spaces at the end of a text become NULs. -/
theorem zeroBack_isspace (u v : Bytes) {s : Bytes} (hs : ∀ x ∈ s.head?, isspace x = false) {n : Nat}
    (hn : s.length < n) :
    zeroBack isspace (u ++ (s ++ v)) u.length n ((u ++ s).length - 1) =
      some (u ++ (s.rdropWhile isspace ++
        (List.replicate (s.rtakeWhile isspace).length 0 ++ v))) := by
  induction s using List.reverseRecOn generalizing v n with
  | nil =>
      obtain ⟨n, rfl⟩ : ∃ m, n = m + 1 := ⟨n - 1, by omega⟩
      simp [zeroBack]
  | append_singleton s x ih =>
      obtain ⟨n, rfl⟩ : ∃ m, n = m + 1 := ⟨n - 1, by omega⟩
      have hlast : ((u ++ (s ++ [x])).length : Int) - 1 = ((u ++ s).length : Int) := by simp; omega
      have hbuffer : u ++ (s ++ [x] ++ v) = (u ++ s) ++ x :: v := by simp
      rw [hlast, zeroBack]
      by_cases hx : isspace x = true
      · -- the first byte is no space, so the pointer is behind it
        have hlt : (u.length : Int) < ((u ++ s).length : Int) := by
          cases s with
          | nil =>
              rw [hs x rfl] at hx
              cases hx
          | cons c s =>
              rw [List.length_append, List.length_cons]
              omega
        have hstart : ∀ y ∈ s.head?, isspace y = false := by
          cases s with
          | nil => exact nofun
          | cons c s => exact hs
        rw [if_pos hlt, hbuffer, load_append]
        simp only [Option.bind_eq_bind, Option.bind_some, hx, if_true, store_append]
        have hrest := ih (0 :: v) hstart (n := n) (by
          rw [List.length_append, List.length_singleton] at hn
          omega)
        rw [List.append_assoc, hrest, List.rdropWhile_concat_pos _ _ _ hx,
          List.rtakeWhile_concat_pos _ _ _ hx, List.length_append, List.length_singleton,
          List.replicate_succ', List.append_assoc]
        rfl
      · rw [List.rdropWhile_concat_neg _ _ _ hx, List.rtakeWhile_concat_neg _ _ _ hx]
        split
        · rw [hbuffer, load_append]
          simp only [Option.bind_eq_bind, Option.bind_some, hx]
          simp
        · simp

/-! ## Tokens -/

/-- The text `rest`, which ends with a NUL in `v`, has not been seen: the pointer that is kept for
it is `front`, and its tokens are `toks`. Or there is nothing left. -/
def Pending (delim : UInt8) (front : Nat) (v : Bytes) (kept : Option Int) (toks : List Bytes) :
    Prop :=
  (kept = none ∧ toks = []) ∨
    kept = some (front : Int) ∧ ∃ rest w, v = rest ++ 0 :: w ∧ (0 : UInt8) ∉ rest ∧
      toks = strtok delim rest

theorem strtok_append_delims {delim : UInt8} {ds : Bytes} (hds : ∀ c ∈ ds, c = delim) (s : Bytes) :
    strtok delim (ds ++ s) = strtok delim s := by
  induction ds with
  | nil => rfl
  | cons c ds ih =>
      rw [hds c (List.mem_cons_self ..), List.cons_append, strtok_cons_delim]
      exact ih fun x hx => hds x (List.mem_cons_of_mem _ hx)

theorem strtok_token {delim : UInt8} {tok : Bytes} (htok : tok ≠ []) (hdelim : delim ∉ tok) :
    strtok delim tok = [tok] := by
  rw [strtok, List.splitOn_eq_singleton hdelim]
  simp [htok]

/-- The tokens before a delimiter and behind it. -/
theorem strtok_append_delim (delim : UInt8) (s s' : Bytes) :
    strtok delim (s ++ delim :: s') = strtok delim s ++ strtok delim s' := by
  rw [strtok, List.splitOn_append_cons_self, List.filter_append]
  rfl

theorem strtok_token_append {delim : UInt8} {tok : Bytes} (htok : tok ≠ []) (hdelim : delim ∉ tok)
    (s : Bytes) : strtok delim (tok ++ delim :: s) = tok :: strtok delim s := by
  rw [strtok_append_delim, strtok_token htok hdelim]
  rfl

theorem head?_dropWhile {f : UInt8 → Bool} {s : Bytes} :
    ∀ x ∈ (s.dropWhile f).head?, f x = false := by
  intro x hx
  have h := List.head?_dropWhile_not f s
  rwa [Option.mem_def.mp hx] at h

/-- A text has delimiters only, or it begins with a token after some of them. -/
theorem exists_token (delim : UInt8) (s : Bytes) :
    (∀ c ∈ s, c = delim) ∨ ∃ ds tok rest, (∀ c ∈ ds, c = delim) ∧ tok ≠ [] ∧ delim ∉ tok ∧
      s = ds ++ (tok ++ rest) ∧ (rest = [] ∨ ∃ s', rest = delim :: s') := by
  let ds := s.takeWhile (· = delim)
  let t := s.dropWhile (· = delim)
  have hds : ∀ c ∈ ds, c = delim := fun c hc => by simpa using List.mem_takeWhile_imp hc
  have hs : s = ds ++ t := List.takeWhile_append_dropWhile.symm
  have hhead : ∀ c ∈ t.head?, c ≠ delim := fun c hc => by simpa using head?_dropWhile c hc
  by_cases ht : t = []
  · rw [hs, ht, List.append_nil]
    exact .inl hds
  · right
    -- the token, and what is behind it
    let tok := t.takeWhile (· ≠ delim)
    let rest := t.dropWhile (· ≠ delim)
    have htoken : tok ≠ [] := by
      obtain ⟨x, t', hx⟩ := List.exists_cons_of_ne_nil ht
      have hne : x ≠ delim := hhead x (by simp [hx])
      simp [tok, hx, hne]
    have hdelim : delim ∉ tok := fun h => by simpa using List.mem_takeWhile_imp h
    have hsplit : t = tok ++ rest := List.takeWhile_append_dropWhile.symm
    refine ⟨ds, tok, rest, hds, htoken, hdelim, hsplit ▸ hs, ?_⟩
    cases hrest : rest with
    | nil => exact .inl rfl
    | cons c s' =>
        have hfirst : ∀ x ∈ rest.head?, decide (x ≠ delim) = false := head?_dropWhile
        have hc : c = delim := by simpa using hfirst c (by simp [hrest])
        exact .inr ⟨s', by rw [hc]⟩

section Next

variable {delim : UInt8} (u w : Bytes) {ds tok : Bytes} (hds : ∀ c ∈ ds, c = delim)

include hds

/-- Only delimiters are left. -/
theorem nextToken_end (hdelim : delim ≠ 0) :
    nextToken delim (u ++ (ds ++ 0 :: w)) (some u.length) =
      some (none, u ++ (ds ++ 0 :: w), none) := by
  have hstart := advance_append u w 0 (f := (· = delim)) (by simpa using hds)
    (by simpa using hdelim.symm) (n := (u ++ (ds ++ 0 :: w)).length) (by simp; omega)
  have hload : load (u ++ (ds ++ 0 :: w)) ((u ++ ds).length : Int) = some 0 := by
    rw [← List.append_assoc, load_append]
  simp [nextToken, hstart, hload, -List.length_append]

variable (htok : tok ≠ []) (hzero : (0 : UInt8) ∉ tok) (htokDelim : delim ∉ tok)

include htok hzero htokDelim

/-- The pointer to the token, and the pointer to the byte behind it. -/
theorem nextToken_start (c : UInt8) (hc : c = 0 ∨ c = delim) :
    nextToken delim (u ++ (ds ++ (tok ++ c :: w))) (some u.length) =
      if c = 0 then some (some ((u ++ ds).length : Int), u ++ (ds ++ (tok ++ c :: w)), none)
      else some (some ((u ++ ds).length : Int), u ++ (ds ++ (tok ++ 0 :: w)),
        some ((u ++ ds ++ tok).length + 1 : Int)) := by
  obtain ⟨x, tok', rfl⟩ := List.exists_cons_of_ne_nil htok
  have hx : x ≠ delim ∧ x ≠ 0 := by
    constructor
    · rintro rfl
      simp at htokDelim
    · rintro rfl
      simp at hzero
  have hstart := advance_append u (tok' ++ c :: w) x (f := (· = delim)) (by simpa using hds)
    (by simpa using hx.1) (n := (u ++ (ds ++ (x :: tok' ++ c :: w))).length) (by simp; omega)
  have hload : load (u ++ (ds ++ (x :: tok' ++ c :: w))) ((u ++ ds).length : Int) = some x := by
    rw [← List.append_assoc, List.cons_append, load_append]
  have hstop : advance (fun c => c ≠ 0 ∧ c ≠ delim) (u ++ (ds ++ (x :: tok' ++ c :: w)))
      (u ++ (ds ++ (x :: tok' ++ c :: w))).length ((u ++ ds).length : Int) =
        some ((u ++ ds ++ x :: tok').length : Int) := by
    rw [← List.append_assoc]
    apply advance_append (u ++ ds) w c
    · intro y hy
      have hy0 : y ≠ 0 := fun h => hzero (h ▸ hy)
      have hyd : y ≠ delim := fun h => htokDelim (h ▸ hy)
      simp [hy0, hyd]
    · rcases hc with rfl | rfl <;> simp
    · simp
      omega
  have hbuffer : u ++ (ds ++ (x :: tok' ++ c :: w)) = (u ++ ds ++ x :: tok') ++ c :: w := by simp
  have hend : load (u ++ (ds ++ (x :: tok' ++ c :: w))) ((u ++ ds ++ x :: tok').length : Int) =
      some c := by rw [hbuffer, load_append]
  have hcut : store (u ++ (ds ++ (x :: tok' ++ c :: w))) ((u ++ ds ++ x :: tok').length : Int) 0 =
      some (u ++ (ds ++ (x :: tok' ++ 0 :: w))) := by
    rw [hbuffer, store_append]
    simp
  simp only [nextToken, List.cons_append] at hstart hload hstop hend hcut ⊢
  simp only [hstart, hload, hstop, hend, hcut, Option.bind_eq_bind, Option.bind_some, hx.2, if_false]
  split <;> rfl

end Next

/-- What a call of `strtok` does: NULL if there are no tokens, and otherwise the first of them with
a NUL behind it, while the others are pending. -/
theorem nextToken_pending {delim : UInt8} (hdelim : delim ≠ 0) {u v : Bytes} {kept : Option Int}
    {toks : List Bytes} (h : Pending delim u.length v kept toks) :
    (toks = [] ∧ ∃ b, nextToken delim (u ++ v) kept = some (none, b, none)) ∨
      ∃ tok rest p v' kept', toks = tok :: rest ∧ (0 : UInt8) ∉ tok ∧
        nextToken delim (u ++ v) kept = some (some (p.length : Int), p ++ (tok ++ 0 :: v'), kept') ∧
        Pending delim (p.length + tok.length + 1) v' kept' rest := by
  rcases h with ⟨rfl, rfl⟩ | ⟨rfl, text, w, rfl, hzero, rfl⟩
  · exact .inl ⟨rfl, _, rfl⟩
  · rcases exists_token delim text with hds | ⟨ds, tok, q, hds, htok, htokDelim, rfl, hq⟩
    · have hnone : strtok delim text = [] := by
        rw [← List.append_nil text, strtok_append_delims hds, strtok_nil]
      exact .inl ⟨hnone, _, nextToken_end u w hds hdelim⟩
    · right
      rw [List.append_assoc, strtok_append_delims hds]
      have htokZero : (0 : UInt8) ∉ tok := fun h => hzero (by simp [h])
      rw [List.append_assoc]
      rcases hq with rfl | ⟨rest, rfl⟩
      · -- the token is the last one
        refine ⟨tok, [], u ++ ds, w, none, ?_, htokZero, ?_, .inl ⟨rfl, rfl⟩⟩
        · rw [List.append_nil, strtok_token htok htokDelim]
        · rw [List.nil_append, nextToken_start u w hds htok htokZero htokDelim 0 (.inl rfl),
            if_pos rfl, List.append_assoc]
      · -- the delimiter behind the token becomes a NUL
        have hrest : (0 : UInt8) ∉ rest := fun h => hzero (by simp [h])
        refine ⟨tok, strtok delim rest, u ++ ds, rest ++ 0 :: w,
          some ((u ++ ds ++ tok).length + 1 : Int), ?_, htokZero, ?_,
          .inr ⟨?_, rest, w, rfl, hrest, rfl⟩⟩
        · exact strtok_token_append htok htokDelim rest
        · rw [List.cons_append, nextToken_start u _ hds htok htokZero htokDelim delim (.inr rfl),
            if_neg hdelim, ← List.append_assoc u]
        · simp [Int.add_assoc]

end OpenRecovery.Storage
