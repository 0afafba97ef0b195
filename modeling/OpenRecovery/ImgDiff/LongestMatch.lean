import OpenRecovery.ImgDiff.BsDiffSpec
import OpenRecovery.ImgDiff.QSufSortSpec

/-!
# What the search finds

`search` of `applypatch/bsdiff.c` on the array that `qsufsort` leaves. It compares a suffix with the
new data on their common length only, so that a suffix the new data starts with is taken for one
above it, though it is sorted below. The match it returns is therefore a longest one, or else it
runs to the end of the old data.
-/

set_option autoImplicit false

namespace OpenRecovery.ImgDiff

open OpenRecovery.ApplyPatch OpenRecovery.Storage OpenRecovery.SuffixOrder

/-! ## Comparing -/

theorem matchlen_eq_lcp : ∀ (a b : Bytes), matchlen a b = lcp a b
  | [], _ => rfl
  | _ :: _, [] => rfl
  | x :: a, y :: b => by
    rw [matchlen, lcp]
    by_cases hxy : x = y
    · rw [if_pos hxy, if_pos hxy, matchlen_eq_lcp a b]
    · rw [if_neg hxy, if_neg hxy]

theorem not_lt_of_memcmpNeg : ∀ {a b : Bytes}, memcmpNeg a b = true → ¬b < a
  | [], _, h => by cases h
  | _ :: _, [], h => by cases h
  | x :: a, y :: b, h => by
    rw [memcmpNeg, Bool.or_eq_true, Bool.and_eq_true, decide_eq_true_eq, decide_eq_true_eq] at h
    intro hlt
    rcases List.cons_lt_cons_iff.mp hlt with hyx | ⟨rfl, hba⟩
    · rcases h with hxy | ⟨rfl, -⟩
      · exact UInt8.lt_asymm hxy hyx
      · exact UInt8.lt_irrefl x hyx
    · rcases h with hyy | ⟨-, hab⟩
      · exact UInt8.lt_irrefl y hyy
      · exact not_lt_of_memcmpNeg hab hba

/-- A suffix not below the new data on their common length is not below it, or the new data starts
with it. -/
theorem not_lt_or_prefix : ∀ {a b : Bytes}, memcmpNeg a b = false → ¬a < b ∨ a <+: b
  | [], b, _ => Or.inr (List.nil_prefix)
  | _ :: _, [], _ => Or.inl (List.not_lt_nil _)
  | x :: a, y :: b, h => by
    rw [memcmpNeg, Bool.or_eq_false_iff, Bool.and_eq_false_iff, decide_eq_false_iff_not,
      decide_eq_false_iff_not] at h
    obtain ⟨hxy, hrest⟩ := h
    by_cases heq : x = y
    · subst heq
      rcases not_lt_or_prefix (hrest.resolve_left (not_not.mpr rfl)) with hnlt | hpre
      · refine Or.inl fun hlt => ?_
        rcases List.cons_lt_cons_iff.mp hlt with hxx | ⟨-, hab⟩
        · exact hxy hxx
        · exact hnlt hab
      · exact Or.inr (List.cons_prefix_cons.mpr ⟨rfl, hpre⟩)
    · refine Or.inl fun hlt => ?_
      rcases List.cons_lt_cons_iff.mp hlt with hxy' | ⟨hxy', -⟩
      · exact hxy hxy'
      · exact heq hxy'

/-! ## The search -/

section Search

variable {old new : Bytes} {I : List ℕ}

/-- The suffix at an index of the array. -/
def suffixAt (old : Bytes) (I : List ℕ) (i : ℕ) : Bytes := old.drop (I.getD i 0)

/-- What the bounds of the search say: the lower one is below the new data or the first, the upper
one is not or is the last. -/
structure Bracket (old new : Bytes) (I : List ℕ) (st en : ℕ) : Prop where
  le : st ≤ en
  le_length : en ≤ old.length
  lt : 0 < old.length → st < en
  below : st = 0 ∨ memcmpNeg (suffixAt old I st) new = true
  above : en = old.length ∨ memcmpNeg (suffixAt old I en) new = false

/-- The suffixes are in strictly ascending order. -/
def Ascending (old : Bytes) (I : List ℕ) : Prop :=
  ∀ i j, i < j → j ≤ old.length → suffixAt old I i < suffixAt old I j

theorem lcp_le_below (hI : Ascending old I) {i j : ℕ} (hij : i ≤ j) (hj : j ≤ old.length)
    (hnot : ¬new < suffixAt old I j) : lcp (suffixAt old I i) new ≤ lcp (suffixAt old I j) new := by
  rcases Nat.lt_or_eq_of_le hij with hlt | rfl
  · exact lcp_le_of_lt (hI i j hlt hj) hnot
  · exact Nat.le_refl _

theorem lcp_le_above (hI : Ascending old I) {i j : ℕ} (hij : j ≤ i) (hi : i ≤ old.length)
    (hnot : ¬suffixAt old I j < new) : lcp (suffixAt old I i) new ≤ lcp (suffixAt old I j) new := by
  rcases Nat.lt_or_eq_of_le hij with hlt | rfl
  · exact lcp_le_of_gt (hI j i hlt hi) hnot
  · exact Nat.le_refl _

/-- At the end of the search one of the two bounds has the longest match, or the upper one is a
suffix the new data starts with and the lower one has no longer match. -/
theorem Bracket.longest (hI : Ascending old I) {st en : ℕ} (hb : Bracket old new I st en)
    (hend : en - st < 2) :
    (∀ i, i ≤ old.length → lcp (suffixAt old I i) new ≤
      max (lcp (suffixAt old I st) new) (lcp (suffixAt old I en) new)) ∨
    suffixAt old I en <+: new ∧ lcp (suffixAt old I st) new ≤ lcp (suffixAt old I en) new := by
  have hle := hb.le
  have hlen := hb.le_length
  have hlow : ∀ i, i ≤ st → lcp (suffixAt old I i) new ≤ lcp (suffixAt old I st) new := by
    intro i hi
    rcases hb.below with rfl | hneg
    · rw [Nat.le_zero.mp hi]
    · exact lcp_le_below hI hi (by omega) (not_lt_of_memcmpNeg hneg)
  rcases Bool.eq_false_or_eq_true (memcmpNeg (suffixAt old I en) new) with hneg | hpos
  · -- not compared: the last suffix, and below the new data
    left
    intro i hi
    have hlast : en = old.length := by
      rcases hb.above with hlast | hpos
      · exact hlast
      · rw [hneg] at hpos
        cases hpos
    have hle' := lcp_le_below hI (by omega : i ≤ en) hlen (not_lt_of_memcmpNeg hneg)
    omega
  · rcases not_lt_or_prefix hpos with hnlt | hpre
    · left
      intro i hi
      by_cases hist : i ≤ st
      · have hle' := hlow i hist
        omega
      · have hle' := lcp_le_above hI (by omega : en ≤ i) hi hnlt
        omega
    · exact Or.inr ⟨hpre, lcp_le_below hI hle hlen (List.IsPrefix.le hpre)⟩

theorem search_bracket (hI : Ascending old I) (hlen : I.length = old.length + 1) {fuel : ℕ} :
    ∀ {st en : ℕ}, en - st < fuel → Bracket old new I st en →
    ∃ i l, i ≤ old.length ∧ search I old new fuel st en = some (I.getD i 0, l) ∧
      l = lcp (suffixAt old I i) new ∧
      ((∀ j, j ≤ old.length → lcp (suffixAt old I j) new ≤ l) ∨ suffixAt old I i <+: new) := by
  have hget : ∀ k, k ≤ old.length → I[k]? = some (I.getD k 0) := by
    intro k hk
    rw [List.getD_eq_getElem?_getD, List.getElem?_eq_getElem (by omega)]
    rfl
  induction fuel with
  | zero =>
    intro st en hfuel
    omega
  | succ fuel ih =>
    intro st en hfuel hb
    have hle := hb.le
    have hen := hb.le_length
    rw [search]
    by_cases hend : en - st < 2
    · rw [if_pos hend, hget st (by omega), hget en hen]
      show ∃ i l, _ ∧ (if matchlen (suffixAt old I st) new > matchlen (suffixAt old I en) new then
        some (I.getD st 0, matchlen (suffixAt old I st) new)
        else some (I.getD en 0, matchlen (suffixAt old I en) new)) = _ ∧ _
      rw [matchlen_eq_lcp, matchlen_eq_lcp]
      have hbest := hb.longest hI hend
      by_cases hgt : lcp (suffixAt old I st) new > lcp (suffixAt old I en) new
      · rw [if_pos hgt]
        refine ⟨st, _, by omega, rfl, rfl, Or.inl fun j hj => ?_⟩
        rcases hbest with hbest | ⟨-, hle'⟩
        · have hj' := hbest j hj
          omega
        · omega
      · rw [if_neg hgt]
        refine ⟨en, _, hen, rfl, rfl, hbest.imp (fun hall j hj => ?_) And.left⟩
        have hj' := hall j hj
        omega
    · rw [if_neg hend]
      show ∃ i l, _ ∧ (I[st + (en - st) / 2]?).bind _ = _ ∧ _
      rw [hget (st + (en - st) / 2) (by omega)]
      show ∃ i l, _ ∧ (if memcmpNeg (suffixAt old I (st + (en - st) / 2)) new = true then
        search I old new fuel (st + (en - st) / 2) en
        else search I old new fuel st (st + (en - st) / 2)) = _ ∧ _
      by_cases hneg : memcmpNeg (suffixAt old I (st + (en - st) / 2)) new = true
      · rw [if_pos hneg]
        exact ih (by omega) ⟨by omega, hen, fun _ => by omega, Or.inr hneg, hb.above⟩
      · rw [if_neg hneg]
        exact ih (by omega) ⟨by omega, by omega, fun _ => by omega, hb.below,
          Or.inr (Bool.eq_false_of_not_eq_true hneg)⟩

end Search

theorem SuffixArray.at {old : Bytes} {s : Arrays} (h : SuffixArray old s) :
    (s.entries old).length = old.length + 1 ∧ Ascending old (s.entries old) := by
  have hlen : (s.entries old).length = old.length + 1 := by
    rw [h.perm.length_eq, List.length_range]
  refine ⟨hlen, fun i j hij hj => ?_⟩
  rw [suffixAt, suffixAt, List.getD_eq_getElem _ _ (by omega), List.getD_eq_getElem _ _ (by omega)]
  exact List.pairwise_iff_getElem.mp h.ascending i j _ _ hij

/-- **The match.** With the array that `qsufsort` has sorted, the search `bsdiff` makes finds a
longest match of the new data in the old data, or a match up to the end of the old data. -/
theorem search_sortedIndex (s : Arrays) (old new : Bytes) :
    ∃ pos len, search (sortedIndex s old).entries old new (old.length + 1) 0 old.length =
        some (pos, len) ∧
      pos ≤ old.length ∧ len = matchlen (old.drop pos) new ∧
      ((∀ p, p ≤ old.length → matchlen (old.drop p) new ≤ len) ∨ pos + len = old.length) := by
  obtain ⟨s', hrun, hsa⟩ := qsufsort_spec old s
  obtain ⟨hlen, hasc⟩ := hsa.at
  have hentries : (sortedIndex s old).entries = s'.entries old := by
    show ((qsufsort old s).map (Arrays.entries old)).getD [] = _
    rw [hrun]
    rfl
  obtain ⟨i, l, hi, hsearch, hl, hbest⟩ := search_bracket hasc hlen
    (Nat.lt_succ_self (old.length - 0))
    (⟨Nat.zero_le _, Nat.le_refl _, fun hpos => hpos, Or.inl rfl, Or.inl rfl⟩ :
      Bracket old new (s'.entries old) 0 old.length)
  have hpos : (s'.entries old).getD i 0 ≤ old.length := by
    have hmem : (s'.entries old).getD i 0 ∈ List.range (old.length + 1) := by
      rw [← hsa.perm.mem_iff, List.getD_eq_getElem _ _ (by omega)]
      exact List.getElem_mem _
    rw [List.mem_range] at hmem
    omega
  rw [hentries]
  refine ⟨_, l, hsearch, hpos, hl.trans (matchlen_eq_lcp _ _).symm, ?_⟩
  rcases hbest with hall | hpre
  · left
    intro p hp
    have hmem : p ∈ s'.entries old := by
      rw [hsa.perm.mem_iff, List.mem_range]
      omega
    obtain ⟨j, hj, rfl⟩ := List.getElem_of_mem hmem
    have hjle := hall j (by omega)
    rwa [suffixAt, List.getD_eq_getElem _ _ hj, ← matchlen_eq_lcp] at hjle
  · right
    rw [hl, lcp_eq_length_of_prefix hpre, suffixAt, List.length_drop]
    omega

end OpenRecovery.ImgDiff
