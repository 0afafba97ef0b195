import OpenRecovery.ApplyPatch.Contents
import OpenRecovery.Recovery.Browser
import OpenRecovery.Updater.Install

/-!
# Strings for digests

`ParseSha1` and `FindMatchingPatch` as they run, digit by digit into the array `digest`, and
`PrintSha1`. A string denotes a digest if it is what `PrintSha1` writes, but for the case of its
letters (`Denotes`): these are the strings `ParseSha1` accepts for it (`parseSha1_iff`).
-/

set_option autoImplicit false

namespace OpenRecovery.Updater

open OpenRecovery.ApplyPatch OpenRecovery.Edify OpenRecovery.Storage
open OpenRecovery.Recovery (tolower)

/-- The characters that are hexadecimal digits. -/
def IsHexDigit (c : UInt8) : Prop :=
  48 ≤ c ∧ c ≤ 57 ∨ 97 ≤ c ∧ c ≤ 102 ∨ 65 ≤ c ∧ c ≤ 70

/-- The string is the digest of 20 bytes in hexadecimal digits of either case. -/
def Denotes (str d : Bytes) : Prop := d.length = 20 ∧ str.map tolower = printSha1 d

/-! ## The loops -/

/-- Digit number `i` goes to the upper or the lower half of the byte at `pd`. -/
def storeDigit (i : Nat) (digit : UInt8) (pd : Nat) (digest : Bytes) : Bytes × Nat :=
  if i % 2 = 0 then (digest.set pd (digit <<< 4), pd)
  else (digest.modify pd (· ||| digit), pd + 1)

/-- The loop of `ParseSha1` with `k` digits left: the rest of the string, if it gets there, and the
digest as it leaves it. The NUL at the end of the string is no digit. -/
def parseDigits : Nat → Nat → Bytes → Nat → Bytes → Option Bytes × Bytes
  | 0, _, ps, _, digest => (some ps, digest)
  | _ + 1, _, [], _, digest => (none, digest)
  | k + 1, i, c :: ps, pd, digest =>
      match hexDigit c with
      | none => (none, digest)
      | some digit =>
          let (digest, pd) := storeDigit i digit pd digest
          parseDigits k (i + 1) ps pd digest

/-- `ParseSha1`: what it returns, and the digest. -/
def parseSha1Into (str digest : Bytes) : Int × Bytes :=
  let (ps, digest) := parseDigits 40 0 str 0 digest
  (if ps = some [] then 0 else -1, digest)

/-- The loop of `FindMatchingPatch`. All strings are parsed into the same array. -/
def findLoop (sha1 : Bytes) : List Bytes → Bytes → Nat → Int
  | [], _, _ => -1
  | str :: strs, patchSha1, i =>
      let (r, patchSha1) := parseSha1Into str patchSha1
      if r = 0 ∧ patchSha1 = sha1 then i else findLoop sha1 strs patchSha1 (i + 1)

/-! ## Digits -/

theorem hexDigit_iff {c v : UInt8} :
    hexDigit c = some v ↔ v < 16 ∧ tolower c = printSha1.hexChar v := by
  unfold hexDigit tolower printSha1.hexChar
  grind

theorem hexDigit_isSome {c : UInt8} : (hexDigit c).isSome ↔ IsHexDigit c := by
  unfold hexDigit IsHexDigit
  grind

theorem tolower_hexChar {v : UInt8} (h : v < 16) :
    tolower (printSha1.hexChar v) = printSha1.hexChar v := by
  unfold tolower printSha1.hexChar
  grind

section Halves

variable {hi lo : UInt8}

theorem toNat_upper (b : UInt8) : (b >>> 4).toNat = b.toNat / 16 := by
  rw [UInt8.toNat_shiftRight]
  exact Nat.shiftRight_eq_div_pow b.toNat 4

theorem toNat_lower (b : UInt8) : (b &&& 15).toNat = b.toNat % 16 := by
  rw [UInt8.toNat_and]
  exact Nat.and_two_pow_sub_one_eq_mod b.toNat 4

theorem toNat_join (hhi : hi < 16) (hlo : lo < 16) :
    (hi <<< 4 ||| lo).toNat = 16 * hi.toNat + lo.toNat := by
  have hhi' : hi.toNat < 16 := UInt8.lt_iff_toNat_lt.mp hhi
  have hlo' : lo.toNat < 2 ^ 4 := UInt8.lt_iff_toNat_lt.mp hlo
  have hshift : (hi <<< 4).toNat = hi.toNat <<< 4 := by
    rw [UInt8.toNat_shiftLeft]
    refine Nat.mod_eq_of_lt ?_
    have hpow : hi.toNat <<< ((4 : UInt8).toNat % 8) = hi.toNat * 2 ^ 4 :=
      Nat.shiftLeft_eq hi.toNat 4
    omega
  rw [UInt8.toNat_or, hshift, ← Nat.shiftLeft_add_eq_or_of_lt hlo', Nat.shiftLeft_eq]
  omega

theorem upper_lt (b : UInt8) : b >>> 4 < 16 := by
  have hb := b.toNat_lt
  rw [UInt8.lt_iff_toNat_lt, toNat_upper]
  have h16 : (16 : UInt8).toNat = 16 := rfl
  omega

theorem lower_lt (b : UInt8) : b &&& 15 < 16 := by
  rw [UInt8.lt_iff_toNat_lt, toNat_lower]
  exact Nat.mod_lt _ (by decide)

/-- A byte is made of its halves. -/
theorem join_halves (b : UInt8) : (b >>> 4) <<< 4 ||| (b &&& 15) = b := by
  rw [← UInt8.toNat_inj, toNat_join (upper_lt b) (lower_lt b), toNat_upper, toNat_lower]
  omega

theorem upper_join (hhi : hi < 16) (hlo : lo < 16) : (hi <<< 4 ||| lo) >>> 4 = hi := by
  have hlo' : lo.toNat < 16 := UInt8.lt_iff_toNat_lt.mp hlo
  rw [← UInt8.toNat_inj, toNat_upper, toNat_join hhi hlo]
  omega

theorem lower_join (hhi : hi < 16) (hlo : lo < 16) : (hi <<< 4 ||| lo) &&& 15 = lo := by
  have hlo' : lo.toNat < 16 := UInt8.lt_iff_toNat_lt.mp hlo
  rw [← UInt8.toNat_inj, toNat_lower, toNat_join hhi hlo]
  omega

end Halves

/-! ## `ParseSha1` -/

theorem printSha1_cons (b : UInt8) (d : Bytes) :
    printSha1 (b :: d) =
      printSha1.hexChar (b >>> 4) :: printSha1.hexChar (b &&& 15) :: printSha1 d := rfl

theorem length_printSha1 (d : Bytes) : (printSha1 d).length = 2 * d.length := by
  induction d with
  | nil => rfl
  | cons b d ih =>
      rw [printSha1_cons, List.length_cons, List.length_cons, List.length_cons, ih]
      omega

/-- One pair of digits. -/
theorem hexPair_iff {a b x : UInt8} :
    (∃ hi, hexDigit a = some hi ∧ ∃ lo, hexDigit b = some lo ∧ hi <<< 4 ||| lo = x) ↔
      tolower a = printSha1.hexChar (x >>> 4) ∧ tolower b = printSha1.hexChar (x &&& 15) := by
  constructor
  · rintro ⟨hi, hhi, lo, hlo, rfl⟩
    rw [hexDigit_iff] at hhi hlo
    rw [upper_join hhi.1 hlo.1, lower_join hhi.1 hlo.1]
    exact ⟨hhi.2, hlo.2⟩
  · rintro ⟨ha, hb⟩
    exact ⟨_, hexDigit_iff.mpr ⟨upper_lt x, ha⟩, _, hexDigit_iff.mpr ⟨lower_lt x, hb⟩, join_halves x⟩

theorem parseHexPairs_cons {n : Nat} {a b x : UInt8} {rest d : Bytes} :
    parseHexPairs (n + 1) (a :: b :: rest) = some (x :: d) ↔
      (∃ hi, hexDigit a = some hi ∧ ∃ lo, hexDigit b = some lo ∧ hi <<< 4 ||| lo = x) ∧
        parseHexPairs n rest = some d := by
  simp only [parseHexPairs, Option.bind_eq_bind, Option.bind_eq_some_iff, Option.pure_def,
    Option.some_inj, List.cons.injEq]
  constructor
  · rintro ⟨hi, hhi, lo, hlo, tail, htail, hx, rfl⟩
    exact ⟨⟨hi, hhi, lo, hlo, hx⟩, htail⟩
  · rintro ⟨⟨hi, hhi, lo, hlo, hx⟩, htail⟩
    exact ⟨hi, hhi, lo, hlo, d, htail, hx, rfl⟩

/-- The last equation of `parseHexPairs` is for strings of another length. -/
theorem length_ne_of_no_pair {n : Nat} {str : Bytes} (hnil : n = 0 → str = [] → False)
    (hcons : ∀ m a b rest, n = m + 1 → str = a :: b :: rest → False) : str.length ≠ 2 * n := by
  intro hlen
  cases n with
  | zero => exact hnil rfl (List.length_eq_zero_iff.mp hlen)
  | succ n =>
      match str, hlen with
      | a :: b :: rest, _ => exact hcons n a b rest rfl rfl

/-- The pairs are read as exactly the bytes whose digits they are. -/
theorem parseHexPairs_iff {n : Nat} {str d : Bytes} :
    parseHexPairs n str = some d ↔ d.length = n ∧ str.map tolower = printSha1 d := by
  induction n, str using parseHexPairs.induct generalizing d with
  | case1 =>
      rw [parseHexPairs, Option.some_inj]
      constructor
      · rintro rfl
        exact ⟨rfl, rfl⟩
      · exact fun h => (List.length_eq_zero_iff.mp h.1).symm
  | case2 n a b rest ih =>
      cases d with
      | nil =>
          refine iff_of_false ?_ (fun h => by cases h.1)
          simp [parseHexPairs, Option.bind_eq_some_iff]
      | cons x d =>
          rw [parseHexPairs_cons, hexPair_iff, ih, printSha1_cons, List.map_cons, List.map_cons,
            List.cons.injEq, List.cons.injEq, List.length_cons, Nat.add_right_cancel_iff]
          tauto
  | case3 n str hnil hcons =>
      rw [parseHexPairs.eq_3 n str hnil hcons]
      refine iff_of_false (by simp) ?_
      rintro ⟨hlen, hmap⟩
      refine length_ne_of_no_pair hnil hcons ?_
      rw [← hlen, ← length_printSha1, ← hmap, List.length_map]

/-- `ParseSha1` accepts a string for a digest exactly if the string denotes it. -/
theorem parseSha1_iff {str d : Bytes} : parseSha1 str = some d ↔ Denotes str d := parseHexPairs_iff

/-- The pairs are read if and only if every character is a digit. -/
theorem parseHexPairs_isSome {n : Nat} {str : Bytes} :
    (parseHexPairs n str).isSome ↔ str.length = 2 * n ∧ ∀ c ∈ str, IsHexDigit c := by
  induction n, str using parseHexPairs.induct with
  | case1 => simp [parseHexPairs]
  | case2 n a b rest ih =>
      have hsome : (parseHexPairs (n + 1) (a :: b :: rest)).isSome ↔
          (hexDigit a).isSome ∧ (hexDigit b).isSome ∧ (parseHexPairs n rest).isSome := by
        simp only [parseHexPairs]
        cases hexDigit a <;> cases hexDigit b <;> cases parseHexPairs n rest <;> simp
      rw [hsome, ih, hexDigit_isSome, hexDigit_isSome, List.forall_mem_cons, List.forall_mem_cons,
        List.length_cons, List.length_cons]
      constructor
      · rintro ⟨ha, hb, hlen, hrest⟩
        exact ⟨by omega, ha, hb, hrest⟩
      · rintro ⟨hlen, ha, hb, hrest⟩
        exact ⟨ha, hb, by omega, hrest⟩
  | case3 n str hnil hcons =>
      rw [parseHexPairs.eq_3 n str hnil hcons]
      exact iff_of_false (by simp) fun h => length_ne_of_no_pair hnil hcons h.1

theorem denotes_printSha1 {d : Bytes} (h : d.length = 20) : Denotes (printSha1 d) d := by
  refine ⟨h, ?_⟩
  clear h
  induction d with
  | nil => rfl
  | cons b d ih =>
      rw [printSha1_cons, List.map_cons, List.map_cons, ih, tolower_hexChar (upper_lt b),
        tolower_hexChar (lower_lt b)]

section ParseSha1

theorem length_storeDigit (i : Nat) (digit : UInt8) (pd : Nat) (digest : Bytes) :
    (storeDigit i digit pd digest).1.length = digest.length := by
  unfold storeDigit
  split
  · exact List.length_set
  · exact List.length_modify _ _ _

/-- Whatever the string, the loop stays in the array. -/
theorem length_parseDigits (k i : Nat) (ps : Bytes) (pd : Nat) (digest : Bytes) :
    (parseDigits k i ps pd digest).2.length = digest.length := by
  induction k, i, ps, pd, digest using parseDigits.induct with
  | case1 => rfl
  | case2 => rfl
  | case3 k i c ps pd digest hdigit => rw [parseDigits, hdigit]
  | case4 k i c ps pd digest digit hdigit digest' pd' hstore ih =>
      rw [parseDigits, hdigit]
      simp only [hstore]
      rw [ih, ← length_storeDigit i digit pd digest, hstore]

theorem modify_set (l : Bytes) (i : Nat) (x y : UInt8) :
    (l.set i x).modify i (· ||| y) = l.set i (x ||| y) := by
  refine List.ext_getElem? fun j => ?_
  rw [List.getElem?_modify, List.getElem?_set, List.getElem?_set]
  by_cases hj : i = j
  · by_cases hi : i < l.length
    · simp [hj, hj ▸ hi]
    · simp [hj, hj ▸ hi]
  · simp [hj]

/-- Two passes read one pair. -/
theorem parseDigits_pair {n p : Nat} {a b hi lo : UInt8} {ps digest : Bytes}
    (ha : hexDigit a = some hi) (hb : hexDigit b = some lo) :
    parseDigits (2 * (n + 1)) (2 * p) (a :: b :: ps) p digest =
      parseDigits (2 * n) (2 * (p + 1)) ps (p + 1) (digest.set p (hi <<< 4 ||| lo)) := by
  have heven : storeDigit (2 * p) hi p digest = (digest.set p (hi <<< 4), p) := by
    rw [storeDigit, if_pos (by omega)]
  have hodd : storeDigit (2 * p + 1) lo p (digest.set p (hi <<< 4)) =
      (digest.set p (hi <<< 4 ||| lo), p + 1) := by
    rw [storeDigit, if_neg (by omega), modify_set]
  rw [show 2 * (n + 1) = 2 * n + 1 + 1 by omega, parseDigits, ha]
  simp only [heven]
  rw [parseDigits, hb]
  simp only [hodd]
  rfl

theorem parseDigits_some {n p : Nat} {ps digest d : Bytes} (hp : p + n ≤ digest.length)
    (h : parseHexPairs n (ps.take (2 * n)) = some d) :
    parseDigits (2 * n) (2 * p) ps p digest =
      (some (ps.drop (2 * n)), digest.take p ++ (d ++ digest.drop (p + n))) := by
  induction n generalizing p ps digest d with
  | zero =>
      cases h
      rw [List.nil_append, Nat.add_zero, List.take_append_drop]
      rfl
  | succ n ih =>
      have hlen := (parseHexPairs_isSome.mp (Option.isSome_iff_exists.mpr ⟨d, h⟩)).1
      rw [List.length_take] at hlen
      match ps with
      | [] => simp at hlen
      | [a] =>
          simp only [List.length_cons, List.length_nil] at hlen
          omega
      | a :: b :: ps =>
          have htwo : 2 * (n + 1) = 2 * n + 1 + 1 := by omega
          rw [htwo, List.take_succ_cons, List.take_succ_cons] at h
          obtain ⟨hdlen, -⟩ := parseHexPairs_iff.mp h
          obtain ⟨x, d, rfl⟩ := List.exists_cons_of_length_eq_add_one hdlen
          obtain ⟨⟨hi, hhi, lo, hlo, hx⟩, htail⟩ := parseHexPairs_cons.mp h
          have hset : p + 1 + n ≤ (digest.set p x).length := by
            rw [List.length_set]
            omega
          -- the bytes before `p` stay, this pair gives the byte at `p`, the rest those after it
          rw [parseDigits_pair hhi hlo, hx, ih hset htail, htwo, List.drop_succ_cons,
            List.drop_succ_cons, List.drop_set_of_lt (by omega), List.take_add_one,
            List.take_set_of_le (Nat.le_refl p), List.getElem?_set_self (by omega),
            show p + 1 + n = p + (n + 1) by omega]
          simp

theorem parseDigits_none {n p : Nat} {ps digest : Bytes}
    (h : parseHexPairs n (ps.take (2 * n)) = none) :
    (parseDigits (2 * n) (2 * p) ps p digest).1 = none := by
  induction n generalizing p ps digest with
  | zero => cases h
  | succ n ih =>
      have htwo : 2 * (n + 1) = 2 * n + 1 + 1 := by omega
      match ps with
      | [] => rw [htwo, parseDigits]
      | a :: ps =>
          -- the first character that is no digit, or the end of the string, ends the loop
          cases ha : hexDigit a with
          | none => rw [htwo, parseDigits, ha]
          | some hi =>
              match ps with
              | [] =>
                  rw [htwo, parseDigits, ha]
                  rfl
              | b :: ps =>
                  cases hb : hexDigit b with
                  | none =>
                      rw [htwo, parseDigits, ha]
                      simp only
                      rw [parseDigits, hb]
                  | some lo =>
                      rw [parseDigits_pair ha hb]
                      refine ih ?_
                      rw [htwo, List.take_succ_cons, List.take_succ_cons, parseHexPairs, ha, hb] at h
                      cases htail : parseHexPairs n (ps.take (2 * n)) with
                      | none => rfl
                      | some d => rw [htail] at h; cases h

/-- `ParseSha1` succeeds exactly as the string is parsed, whatever `digest` held before. -/
theorem parseSha1Into_spec (str : Bytes) {digest : Bytes} (hdigest : digest.length = 20) :
    (parseSha1Into str digest).2.length = 20 ∧
      parseSha1 str =
        if (parseSha1Into str digest).1 = 0 then some (parseSha1Into str digest).2 else none := by
  have hlength : (parseSha1Into str digest).2.length = 20 :=
    (length_parseDigits 40 0 str 0 digest).trans hdigest
  refine ⟨hlength, ?_⟩
  rw [parseSha1Into]
  cases hpairs : parseHexPairs 20 (str.take (2 * 20)) with
  | none =>
      have hnone := @parseDigits_none 20 0 str digest hpairs
      have hparse : parseSha1 str = none := by
        rw [Option.eq_none_iff_forall_ne_some]
        intro d hd
        have hlen := (parseHexPairs_isSome.mp (Option.isSome_iff_exists.mpr ⟨d, hd⟩)).1
        -- a string that can be parsed has 40 characters, so its first 40 would be pairs
        rw [List.take_of_length_le hlen.le] at hpairs
        exact absurd (hpairs.symm.trans hd) (by simp)
      simp [hparse, hnone]
  | some d =>
      have hd := (parseHexPairs_iff.mp hpairs).1
      -- all of `digest` is overwritten, so what it held before does not matter
      have hend : digest.drop (0 + 20) = [] := List.drop_of_length_le (by omega)
      have hsome : parseDigits 40 0 str 0 digest = (some (str.drop 40), d) := by
        have h := @parseDigits_some 20 0 str digest d (by omega) hpairs
        rwa [List.take_zero, List.nil_append, hend, List.append_nil] at h
      simp only [hsome, Option.some_inj]
      by_cases hrest : str.drop 40 = []
      · rw [if_pos hrest, if_pos rfl]
        rwa [List.take_of_length_le (List.drop_eq_nil_iff.mp hrest)] at hpairs
      · rw [if_neg hrest, if_neg (by decide), Option.eq_none_iff_forall_ne_some]
        intro e he
        have hlen := (parseHexPairs_isSome.mp (Option.isSome_iff_exists.mpr ⟨e, he⟩)).1
        exact hrest (List.drop_of_length_le hlen.le)

variable {str digest : Bytes}

/-- `ParseSha1` accepts exactly the strings of 40 hexadecimal digits. -/
theorem parseSha1Into_zero_iff (hdigest : digest.length = 20) :
    (parseSha1Into str digest).1 = 0 ↔ str.length = 40 ∧ ∀ c ∈ str, IsHexDigit c := by
  rw [← parseHexPairs_isSome (n := 20), ← parseSha1, (parseSha1Into_spec str hdigest).2]
  split
  · rename_i h0
    exact iff_of_true h0 rfl
  · rename_i h0
    exact iff_of_false h0 (by simp)

theorem denotes_of_zero (hdigest : digest.length = 20) (h : (parseSha1Into str digest).1 = 0) :
    Denotes str (parseSha1Into str digest).2 := by
  rw [← parseSha1_iff, (parseSha1Into_spec str hdigest).2, if_pos h]

/-- It reads back what `PrintSha1` writes. -/
theorem parseSha1Into_printSha1 {d : Bytes} (hd : d.length = 20) (hdigest : digest.length = 20) :
    parseSha1Into (printSha1 d) digest = (0, d) := by
  have hspec := (parseSha1Into_spec (printSha1 d) hdigest).2
  rw [parseSha1_iff.mpr (denotes_printSha1 hd)] at hspec
  split at hspec
  · next h0 => exact Prod.ext h0 (Option.some_inj.mp hspec).symm
  · cases hspec

end ParseSha1

/-! ## `FindMatchingPatch` -/

/-- The loop of `FindMatchingPatch` finds the first string that denotes the digest. -/
theorem findLoop_eq (sha1 : Bytes) (strs : List Bytes) {patchSha1 : Bytes}
    (hpatch : patchSha1.length = 20) (i : Nat) :
    findLoop sha1 strs patchSha1 i =
      ((findMatchingPatch sha1 strs).map fun k => ((i + k : Nat) : Int)).getD (-1) := by
  induction strs generalizing patchSha1 i with
  | nil => rfl
  | cons str strs ih =>
      obtain ⟨hlength, hparse⟩ := parseSha1Into_spec str hpatch
      -- the comparison is made only when the whole string has been read
      have hcond : (parseSha1Into str patchSha1).1 = 0 ∧ (parseSha1Into str patchSha1).2 = sha1 ↔
          parseSha1 str = some sha1 := by
        rw [hparse]
        split
        · rename_i h0
          rw [Option.some_inj]
          exact and_iff_right h0
        · rename_i h0
          exact iff_of_false (fun h => h0 h.1) (by simp)
      rw [findLoop, findMatchingPatch, List.findIdx?_cons]
      simp only [hcond, decide_eq_true_eq]
      split
      · rfl
      · rw [ih hlength, findMatchingPatch, Option.map_map]
        congr 2
        funext k
        simp only [Function.comp_apply, Int.natCast_inj]
        omega

/-- The index of the first string that denotes the digest. -/
theorem findMatchingPatch_iff {sha1 : Bytes} {strs : List Bytes} {i : Nat} :
    findMatchingPatch sha1 strs = some i ↔
      IsLeast {k | ∃ str, strs[k]? = some str ∧ Denotes str sha1} i := by
  rw [findMatchingPatch, List.findIdx?_eq_some_iff_getElem]
  simp only [decide_eq_true_eq, parseSha1_iff]
  constructor
  · rintro ⟨hi, hd, hmin⟩
    refine ⟨⟨strs[i], List.getElem?_eq_getElem hi, hd⟩, ?_⟩
    rintro k ⟨str, hk, hstr⟩
    refine Nat.le_of_not_lt fun hlt => hmin k hlt ?_
    rw [List.getElem?_eq_getElem (hlt.trans hi), Option.some_inj] at hk
    rwa [hk]
  · rintro ⟨⟨str, hi, hd⟩, hmin⟩
    obtain ⟨hlt, rfl⟩ := List.getElem?_eq_some_iff.mp hi
    refine ⟨hlt, hd, fun k hk hstr => ?_⟩
    exact Nat.lt_irrefl k (hk.trans_le (hmin ⟨_, List.getElem?_eq_getElem (hk.trans hlt), hstr⟩))

theorem findMatchingPatch_none {sha1 : Bytes} {strs : List Bytes} :
    findMatchingPatch sha1 strs = none ↔ ∀ str ∈ strs, ¬ Denotes str sha1 := by
  rw [findMatchingPatch, List.findIdx?_eq_none_iff]
  simp only [decide_eq_false_iff_not, parseSha1_iff]

/-- What the loop of `FindMatchingPatch` returns. -/
theorem findLoop_iff {d : Bytes} {strs : List Bytes} {patchSha1 : Bytes}
    (hpatch : patchSha1.length = 20) :
    (∀ i : Nat, findLoop d strs patchSha1 0 = i ↔
      IsLeast {k | ∃ str, strs[k]? = some str ∧ Denotes str d} i) ∧
    (findLoop d strs patchSha1 0 = -1 ↔ ∀ str ∈ strs, ¬ Denotes str d) := by
  rw [findLoop_eq d strs hpatch 0, ← findMatchingPatch_none]
  simp only [← findMatchingPatch_iff, Nat.zero_add]
  cases findMatchingPatch d strs with
  | none => exact ⟨fun i => iff_of_false (by simp) (by simp), iff_of_true rfl rfl⟩
  | some k =>
      refine ⟨fun i => ?_, iff_of_false (by simp) (by simp)⟩
      simp only [Option.map_some, Option.getD_some, Int.natCast_inj, Option.some_inj]

end OpenRecovery.Updater
