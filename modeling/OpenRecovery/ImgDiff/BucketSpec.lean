import Mathlib.Data.List.GetD
import OpenRecovery.ImgDiff.CountingSort
import OpenRecovery.ImgDiff.GroupOrder

/-!
# Sorted by the first byte

The loops before the first pass of `qsufsort`: the buckets hold the numbers of smaller bytes, every
position goes to its place of the counting sort, and the arrays are laid out in groups that tell one
byte. The empty suffix has index 0 to itself.
-/

set_option autoImplicit false

namespace OpenRecovery.ImgDiff

open OpenRecovery.ApplyPatch OpenRecovery.CountingSort OpenRecovery.Storage
  OpenRecovery.SuffixOrder

/-- The bytes as indices of the buckets. -/
def keys (old : Bytes) : List ℕ := old.map UInt8.toNat

@[simp] theorem length_keys (old : Bytes) : (keys old).length = old.length := List.length_map _

/-- The keys are bytes. -/
theorem keys_lt {old : Bytes} {p : ℕ} (hp : p < (keys old).length) : (keys old)[p] < 256 := by
  simp only [keys, List.getElem_map]
  exact UInt8.toNat_lt _

/-! ## Buckets -/

section Buckets

variable {old : Bytes} {b : List ℕ} {c i v : ℕ}

/-- Reading after a write. -/
theorem getD_set (hi : i < b.length) :
    (b.set i v).getD c 0 = if c = i then v else b.getD c 0 := by
  rw [List.getD_eq_getElem?_getD, List.getD_eq_getElem?_getD, List.getElem?_set]
  by_cases hc : c = i
  · rw [if_pos hc.symm, if_pos hc, if_pos hi]
    rfl
  · rw [if_neg (Ne.symm hc), if_neg hc]

/-- The counting loop adds the bytes it has seen. -/
theorem countBytes_from : ∀ (old : Bytes) (b : List ℕ), b.length = 256 →
    (old.foldl (fun b c => b.set c.toNat (b.getD c.toNat 0 + 1)) b).length = 256 ∧
    ∀ c, (old.foldl (fun b c => b.set c.toNat (b.getD c.toNat 0 + 1)) b).getD c 0 =
      b.getD c 0 + (keys old).count c
  | [], b, hb => ⟨hb, fun _ => rfl⟩
  | x :: old, b, hb => by
    have hx : x.toNat < b.length := by
      rw [hb]
      exact UInt8.toNat_lt x
    obtain ⟨hlen, hget⟩ := countBytes_from old (b.set x.toNat (b.getD x.toNat 0 + 1)) (by
      rw [List.length_set, hb])
    refine ⟨hlen, fun c => ?_⟩
    rw [List.foldl_cons, hget, getD_set hx]
    show _ = b.getD c 0 + (x.toNat :: keys old).count c
    rw [List.count_cons]
    by_cases hc : c = x.toNat
    · rw [if_pos hc, hc, beq_self_eq_true, if_pos rfl]
      omega
    · rw [if_neg hc, if_neg (by simpa using Ne.symm hc)]
      omega

/-- The loop that adds up the buckets, up to `m`. -/
theorem sumBuckets_prefix {m : ℕ} (hb : b.length = 256) (hm : m ≤ 255)
    (hcount : ∀ c, c < 256 → b.getD c 0 = (keys old).count c) :
    ((List.range' 1 m).foldl (fun b i => b.set i (b.getD i 0 + b.getD (i - 1) 0)) b).length = 256 ∧
    ∀ c, c < 256 →
      ((List.range' 1 m).foldl (fun b i => b.set i (b.getD i 0 + b.getD (i - 1) 0)) b).getD c 0 =
        if c ≤ m then below (keys old) (c + 1) else (keys old).count c := by
  induction m with
  | zero =>
    refine ⟨hb, fun c hc => ?_⟩
    show b.getD c 0 = _
    rw [hcount c hc]
    by_cases h0 : c ≤ 0
    · obtain rfl : c = 0 := by omega
      rw [if_pos h0, below_succ, below_zero, Nat.zero_add]
    · rw [if_neg h0]
  | succ m ih =>
    obtain ⟨hlen, hget⟩ := ih (by omega)
    rw [List.range'_1_concat, List.foldl_append, List.foldl_cons, List.foldl_nil, Nat.add_comm 1 m]
    refine ⟨by rw [List.length_set, hlen], fun c hc => ?_⟩
    rw [getD_set (by omega), hget c hc, hget (m + 1) (by omega), Nat.add_sub_cancel,
      hget m (by omega), if_neg (by omega : ¬m + 1 ≤ m), if_pos (Nat.le_refl m)]
    by_cases hcm : c = m + 1
    · rw [if_pos hcm, if_pos (by omega), hcm, below_succ _ (m + 1), Nat.add_comm]
    · rw [if_neg hcm]
      by_cases hle : c ≤ m
      · rw [if_pos hle, if_pos (by omega)]
      · rw [if_neg hle, if_neg (by omega)]

/-- The loop that moves the buckets up by one, from `m` down. -/
theorem shiftBuckets_prefix {m : ℕ} (hm : m ≤ 255) : ∀ (b : List ℕ), b.length = 256 →
    ((List.range' 1 m).reverse.foldl (fun b i => b.set i (b.getD (i - 1) 0)) b).length = 256 ∧
    ∀ c, c < 256 →
      ((List.range' 1 m).reverse.foldl (fun b i => b.set i (b.getD (i - 1) 0)) b).getD c 0 =
        if 1 ≤ c ∧ c ≤ m then b.getD (c - 1) 0 else b.getD c 0 := by
  induction m with
  | zero =>
    intro b hb
    refine ⟨hb, fun c _ => ?_⟩
    rw [if_neg (by omega)]
    rfl
  | succ m ih =>
    intro b hb
    rw [List.range'_1_concat, List.reverse_append, List.reverse_singleton, List.singleton_append,
      List.foldl_cons, Nat.add_comm 1 m, Nat.add_sub_cancel]
    obtain ⟨hlen, hget⟩ := ih (by omega) (b.set (m + 1) (b.getD m 0)) (by rw [List.length_set, hb])
    refine ⟨hlen, fun c hc => ?_⟩
    rw [hget c hc, getD_set (by omega), getD_set (by omega)]
    by_cases hcm : c = m + 1
    · rw [if_neg (by omega : ¬(1 ≤ c ∧ c ≤ m)), if_pos hcm, if_pos (by omega), hcm,
        Nat.add_sub_cancel]
    · rw [if_neg hcm]
      by_cases hle : 1 ≤ c ∧ c ≤ m
      · rw [if_pos hle, if_neg (by omega : ¬c - 1 = m + 1), if_pos (by omega)]
      · rw [if_neg hle, if_neg (by omega)]

/-- The buckets before the positions are placed: a bucket starts behind all smaller bytes. -/
theorem buckets_start (old : Bytes) :
    (shiftBuckets (sumBuckets (countBytes old))).length = 256 ∧
    ∀ c, c < 256 → (shiftBuckets (sumBuckets (countBytes old))).getD c 0 = below (keys old) c := by
  obtain ⟨hlen₁, hget₁⟩ := countBytes_from old (List.replicate 256 0) List.length_replicate
  have hcount : ∀ c, c < 256 → (countBytes old).getD c 0 = (keys old).count c := by
    intro c hc
    have h := hget₁ c
    rw [List.getD_replicate _ hc, Nat.zero_add] at h
    exact h
  have hlen : (countBytes old).length = 256 := hlen₁
  obtain ⟨hlen₂, hget₂⟩ := sumBuckets_prefix hlen (Nat.le_refl 255) hcount
  rw [← sumBuckets] at hlen₂ hget₂
  obtain ⟨hlen₃, hget₃⟩ := shiftBuckets_prefix (Nat.le_refl 255) _ hlen₂
  refine ⟨by rw [shiftBuckets, List.length_set]; exact hlen₃, fun c hc => ?_⟩
  rw [shiftBuckets, getD_set (by rw [hlen₃]; omega)]
  by_cases h0 : c = 0
  · rw [if_pos h0, h0, below_zero]
  · rw [if_neg h0, hget₃ c hc, if_pos (by omega), hget₂ (c - 1) (by omega),
      if_pos (by omega : c - 1 ≤ 255), Nat.sub_add_cancel (by omega)]

end Buckets

/-! ## The loops -/

section Loops

variable {old : Bytes} {n : ℕ}

/-- The index of a position: index 0 is the empty suffix. -/
def slot (old : Bytes) (c p : ℕ) : ℕ := place (keys old) c p + 1

/-- Every place is inside the array. -/
theorem slot_le {p : ℕ} (hp : p < (keys old).length) : slot old (keys old)[p] p ≤ old.length := by
  have hlt := place_lt hp rfl
  have hle := below_le_length (keys old) ((keys old)[p] + 1)
  rw [length_keys] at hle
  rw [slot]
  omega

/-- The loop that puts each position into its bucket, counting up in it. Induction on the bytes
left. -/
theorem placeLoop_spec : ∀ (rest : Bytes) {i : ℕ} {b : List ℕ} {s : Arrays},
    old.drop i = rest → i ≤ old.length → b.length = 256 →
    (∀ c, c < 256 → b.getD c 0 = place (keys old) c i) →
    (∀ p, ∀ hp : p < (keys old).length, p < i → s.I (slot old (keys old)[p] p) = p) →
    ∃ b' s', placeLoop old.length rest i b s = some (b', s') ∧ s'.V = s.V ∧
      (∀ c, c < 256 → b'.getD c 0 = below (keys old) (c + 1)) ∧
      (∀ p, ∀ hp : p < (keys old).length, s'.I (slot old (keys old)[p] p) = p) := by
  intro rest
  induction rest with
  | nil =>
    intro i b s hrest hi hlen hb hI
    obtain rfl : i = old.length := by
      have h := congrArg List.length hrest
      rw [List.length_drop, List.length_nil] at h
      omega
    refine ⟨b, s, rfl, rfl, fun c hc => ?_, fun p hp => ?_⟩
    · rw [hb c hc, place, below_succ, List.take_of_length_le (by rw [length_keys])]
    · exact hI p hp (by rwa [length_keys] at hp)
  | cons x rest ih =>
    intro i b s hrest hi hlen hb hI
    have hilt : i < old.length := by
      by_contra hge
      rw [List.drop_of_length_le (by omega)] at hrest
      cases hrest
    have hik : i < (keys old).length := by rwa [length_keys]
    have hx : (keys old)[i] = x.toNat := by
      rw [List.drop_eq_getElem_cons hilt] at hrest
      injection hrest with hhead _
      simp only [keys, List.getElem_map, hhead]
    have hx256 : x.toNat < b.length := by
      rw [hlen]
      exact UInt8.toNat_lt x
    have hslot : (b.set x.toNat (b.getD x.toNat 0 + 1)).getD x.toNat 0 = slot old (keys old)[i] i := by
      rw [getD_set hx256, if_pos rfl, hb _ (UInt8.toNat_lt x), slot, hx]
    rw [placeLoop]
    show ∃ b' s', (s.setI old.length _ _).bind _ = _ ∧ _
    rw [hslot, Arrays.setI, if_pos (slot_le hik)]
    refine ih (s := { s with I := Function.update s.I (slot old (keys old)[i] i) i }) ?_ hilt ?_ ?_ ?_
    · rw [← List.drop_drop, hrest]
      rfl
    · rw [List.length_set, hlen]
    · intro c hc
      rw [getD_set hx256, place]
      by_cases hcx : c = x.toNat
      · rw [if_pos hcx, hcx, hb _ (UInt8.toNat_lt x), place, count_take_succ hik hx]
        rfl
      · rw [if_neg hcx, hb c hc, place, count_take_succ_of_ne hik (by rw [hx]; exact Ne.symm hcx)]
    · intro p hp hpi
      show Function.update s.I _ _ _ = _
      by_cases hpeq : p = i
      · subst hpeq
        exact Function.update_self _ _ _
      · rw [Function.update_of_ne]
        · exact hI p hp (by omega)
        · intro heq
          rw [slot, slot] at heq
          exact hpeq (place_injective hp hik (Nat.succ_injective heq))

/-- The loop that numbers the positions by their buckets. -/
theorem rankLoop_spec {b : List ℕ} : ∀ (rest : Bytes) {i : ℕ} {s : Arrays}, old.drop i = rest →
    ∃ s', rankLoop old.length b rest i s = some s' ∧ s'.I = s.I ∧
      (∀ p, p < i → s'.V p = s.V p) ∧
      (∀ p, ∀ hp : p < (keys old).length, i ≤ p → s'.V p = b.getD (keys old)[p] 0) := by
  intro rest
  induction rest with
  | nil =>
    intro i s hrest
    refine ⟨s, rfl, rfl, fun _ _ => rfl, fun p hp hip => ?_⟩
    have h := congrArg List.length hrest
    rw [List.length_drop, List.length_nil] at h
    rw [length_keys] at hp
    omega
  | cons x rest ih =>
    intro i s hrest
    have hilt : i < old.length := by
      by_contra hge
      rw [List.drop_of_length_le (by omega)] at hrest
      cases hrest
    rw [rankLoop]
    show ∃ s', (s.setV old.length (i : ℤ) _).bind _ = _ ∧ _
    rw [Arrays.setV, if_pos (by omega), Int.toNat_natCast]
    obtain ⟨s', hrun, hI, hbefore, hafter⟩ := ih (i := i + 1)
      (s := { s with V := Function.update s.V i (b.getD x.toNat 0) }) (by
        rw [← List.drop_drop, hrest]
        rfl)
    refine ⟨s', hrun, hI, fun p hp => ?_, fun p hp hip => ?_⟩
    · rw [hbefore p (by omega)]
      exact Function.update_of_ne (by omega) _ _
    · by_cases hpi : p = i
      · subst hpi
        rw [hbefore p (by omega)]
        refine (Function.update_self _ _ _).trans ?_
        rw [List.drop_eq_getElem_cons hilt] at hrest
        injection hrest with hhead _
        simp only [keys, List.getElem_map, hhead]
      · exact hafter p hp (by omega)

/-- One position has this byte. -/
def Single (old : Bytes) (c : ℕ) : Prop := below (keys old) (c + 1) = below (keys old) c + 1

/-- The loop that marks the buckets of one position. -/
theorem singleLoop_spec {b : List ℕ} (hb : ∀ c, c < 256 → b.getD c 0 = below (keys old) (c + 1))
    {m : ℕ} : ∀ {i : ℕ} {s : Arrays}, 1 ≤ i → i + m ≤ 256 →
    ∃ s', singleLoop old.length b m i s = some s' ∧ s'.V = s.V ∧
      (∀ c, i ≤ c → c < i + m → Single old c → s'.I (below (keys old) (c + 1)) = -1) ∧
      (∀ t, (∀ c, i ≤ c → c < i + m → Single old c → t ≠ below (keys old) (c + 1)) →
        s'.I t = s.I t) := by
  induction m with
  | zero =>
    intro i s _ _
    exact ⟨s, rfl, rfl, fun c ha hb => by omega, fun t _ => rfl⟩
  | succ m ih =>
    intro i s h1 him
    have hbi : b.getD i 0 = below (keys old) (i + 1) := hb i (by omega)
    have hbp : b.getD (i - 1) 0 = below (keys old) i := by
      rw [hb (i - 1) (by omega), Nat.sub_add_cancel h1]
    have hrest : ∀ s₁ : Arrays, s₁.V = s.V →
        (Single old i → s₁.I (below (keys old) (i + 1)) = -1) →
        (∀ t, (Single old i → t ≠ below (keys old) (i + 1)) → s₁.I t = s.I t) →
        ∃ s', singleLoop old.length b m (i + 1) s₁ = some s' ∧ s'.V = s.V ∧
          (∀ c, i ≤ c → c < i + (m + 1) → Single old c → s'.I (below (keys old) (c + 1)) = -1) ∧
          (∀ t, (∀ c, i ≤ c → c < i + (m + 1) → Single old c → t ≠ below (keys old) (c + 1)) →
            s'.I t = s.I t) := by
      intro s₁ hV hset hkeep
      obtain ⟨s', hrun, hV', hset', hkeep'⟩ := ih (i := i + 1) (s := s₁) (by omega) (by omega)
      refine ⟨s', hrun, hV'.trans hV, ?_, ?_⟩
      · intro c ha hb hc
        by_cases hci : c = i
        · subst hci
          -- whatever a later bucket writes there is the same
          by_cases hagain : ∃ d, c + 1 ≤ d ∧ d < c + 1 + m ∧ Single old d ∧
              below (keys old) (c + 1) = below (keys old) (d + 1)
          · obtain ⟨d, had, hbd, hd, heq⟩ := hagain
            rw [heq]
            exact hset' d had hbd hd
          · rw [hkeep' _ fun d had hbd hd heq => hagain ⟨d, had, hbd, hd, heq⟩]
            exact hset hc
        · exact hset' c (by omega) (by omega) hc
      · intro t ht
        rw [hkeep' t fun c ha hb => ht c (by omega) (by omega)]
        exact hkeep t (ht i (Nat.le_refl i) (by omega))
    rw [singleLoop]
    show ∃ s', (if b.getD i 0 = b.getD (i - 1) 0 + 1 then
      (s.setI old.length (b.getD i 0) (-1)).bind fun s => singleLoop old.length b m (i + 1) s
      else singleLoop old.length b m (i + 1) s) = _ ∧ _
    rw [hbi, hbp]
    by_cases hone : Single old i
    · have hle := below_le_length (keys old) (i + 1)
      rw [length_keys] at hle
      rw [if_pos (show below (keys old) (i + 1) = below (keys old) i + 1 from hone), Arrays.setI, if_pos hle]
      refine hrest { s with I := Function.update s.I (below (keys old) (i + 1)) (-1) } rfl
        (fun _ => Function.update_self _ _ _) fun t ht => ?_
      exact Function.update_of_ne (ht hone) _ _
    · rw [if_neg (show ¬below (keys old) (i + 1) = below (keys old) i + 1 from hone)]
      exact hrest s rfl (fun h => absurd h hone) fun t _ => rfl

end Loops

/-! ## The arrays before the first pass -/

/-- The arrays after the bucket sort. -/
structure Bucketed (old : Bytes) (s : Arrays) : Prop where
  rank : ∀ p, ∀ hp : p < (keys old).length, s.V p = below (keys old) ((keys old)[p] + 1)
  last : s.V old.length = 0
  head : s.I 0 = -1
  entry : ∀ p, ∀ hp : p < (keys old).length, (keys old)[p] = 0 ∨ ¬Single old (keys old)[p] →
    s.I (slot old (keys old)[p] p) = p
  single : ∀ c, 1 ≤ c → c < 256 → Single old c → s.I (below (keys old) (c + 1)) = -1

/-- **The bucket sort** ends with no access outside the arrays, whatever they held before. -/
theorem bucketSort_spec (old : Bytes) (s : Arrays) :
    ∃ s', bucketSort old s = some s' ∧ Bucketed old s' := by
  obtain ⟨hlen, hstart⟩ := buckets_start old
  obtain ⟨b, s₁, hplace, hV₁, hb, hI₁⟩ := placeLoop_spec (s := s) old (i := 0) (List.drop_zero)
    (Nat.zero_le _) hlen (fun c hc => (hstart c hc).trans (Nat.add_zero _).symm)
    (fun p _ hp => absurd hp (Nat.not_lt_zero p))
  obtain ⟨s₃, hrank, hI₃, -, hV₃⟩ := rankLoop_spec (b := b)
    (s := { s₁ with I := Function.update s₁.I 0 old.length }) old (i := 0) (List.drop_zero)
  obtain ⟨s₅, hsingle, hV₅, hset, hkeep⟩ := singleLoop_spec (m := 255) hb (i := 1)
    (s := { s₃ with V := Function.update s₃.V old.length 0 }) (Nat.le_refl 1) (by omega)
  refine ⟨{ s₅ with I := Function.update s₅.I 0 (-1) }, ?_, ?_⟩
  · rw [bucketSort, hplace]
    show (s₁.setI old.length 0 old.length).bind (fun s => (rankLoop old.length b old 0 s).bind
      fun s => (s.setV old.length old.length 0).bind fun s => (singleLoop old.length b 255 1 s).bind
      fun s => s.setI old.length 0 (-1)) = _
    rw [Arrays.setI, if_pos (Nat.zero_le _)]
    show (rankLoop old.length b old 0 _).bind _ = _
    rw [hrank]
    show (s₃.setV old.length (old.length : ℤ) 0).bind _ = _
    rw [Arrays.setV, if_pos (by omega), Int.toNat_natCast]
    show (singleLoop old.length b 255 1 _).bind _ = _
    rw [hsingle, Option.bind_some, Arrays.setI, if_pos (Nat.zero_le _)]
  · constructor
    · intro p hp
      show s₅.V p = _
      rw [hV₅]
      refine (Function.update_of_ne ?_ _ _).trans ?_
      · rw [length_keys] at hp
        omega
      · rw [hV₃ p hp (Nat.zero_le p), hb _ (keys_lt hp)]
    · show s₅.V old.length = 0
      rw [hV₅]
      exact Function.update_self _ _ _
    · exact Function.update_self 0 (-1) s₅.I
    · intro p hp hnot
      refine (Function.update_of_ne (Nat.succ_ne_zero _) (-1) s₅.I).trans ?_
      rw [hkeep]
      · show s₃.I _ = _
        rw [hI₃]
        exact (Function.update_of_ne (Nat.succ_ne_zero _) (old.length : ℤ) s₁.I).trans (hI₁ p hp)
      · intro c h1 _ hc heq
        -- the place of this position is not the only one of its byte
        have hsingle := hc
        rw [Single] at hsingle
        have hpa := below_le_place (keys old) (keys old)[p] p
        have hpb := place_lt hp rfl
        rcases Nat.lt_trichotomy (keys old)[p] c with hlt | hkey | hgt
        · have hmono : below (keys old) ((keys old)[p] + 1) ≤ below (keys old) c := below_mono hlt
          omega
        · rw [hkey] at hnot
          rcases hnot with h0 | hno
          · omega
          · exact hno hc
        · have hmono : below (keys old) (c + 1) ≤ below (keys old) (keys old)[p] := below_mono hgt
          omega
    · intro c h1 hc hone
      refine (Function.update_of_ne ?_ (-1) s₅.I).trans (hset c h1 (by omega) hone)
      rw [Single] at hone
      omega

section Bucketed

variable {old : Bytes} {s : Arrays}

/-- A smaller number means a smaller byte. -/
theorem Bucketed.lt_of_rank (hb : Bucketed old s) {p q : ℕ} (hp : p < (keys old).length)
    (hq : q < (keys old).length) (hlt : s.V p < s.V q) : (keys old)[p] < (keys old)[q] := by
  rw [hb.rank p hp, hb.rank q hq] at hlt
  by_contra hge
  have hmono : below (keys old) ((keys old)[q] + 1) ≤ below (keys old) ((keys old)[p] + 1) :=
    below_mono (by omega)
  omega

/-- Equal numbers mean equal bytes. -/
theorem Bucketed.eq_of_rank (hb : Bucketed old s) {p q : ℕ} (hp : p < (keys old).length)
    (hq : q < (keys old).length) (heq : s.V p = s.V q) : (keys old)[p] = (keys old)[q] := by
  rw [hb.rank p hp, hb.rank q hq] at heq
  have hpb := below_lt_below_succ hp rfl
  have hqb := below_lt_below_succ hq rfl
  rcases Nat.lt_trichotomy (keys old)[p] (keys old)[q] with hlt | hkey | hgt
  · have hmono : below (keys old) ((keys old)[p] + 1) ≤ below (keys old) (keys old)[q] :=
      below_mono hlt
    omega
  · exact hkey
  · have hmono : below (keys old) ((keys old)[q] + 1) ≤ below (keys old) (keys old)[p] :=
      below_mono hgt
    omega

/-- Number 0 is left for the empty suffix. -/
theorem Bucketed.pos (hb : Bucketed old s) {p : ℕ} (hp : p < (keys old).length) : 0 < s.V p := by
  have hpb := below_lt_below_succ hp rfl
  rw [hb.rank p hp]
  omega

/-- The numbers are in the order of the first bytes. -/
theorem Bucketed.numbered (hb : Bucketed old s) : Numbered old 1 s.V where
  le p hp := by
    by_cases hlast : p = old.length
    · rw [hlast, hb.last]
      exact Nat.zero_le _
    · rw [hb.rank p (by rw [length_keys]; omega)]
      exact (below_le_length _ _).trans_eq (length_keys old)
  lt p q hp hq hlt := by
    have hqlt : q < old.length := by
      by_contra hge
      obtain rfl : q = old.length := by omega
      rw [hb.last] at hlt
      omega
    by_cases hlast : p = old.length
    · rw [hlast]
      exact drop_length_lt hqlt
    · have hplt : p < old.length := by omega
      have hkey := hb.lt_of_rank (by rwa [length_keys]) (by rwa [length_keys]) hlt
      simp only [keys, List.getElem_map] at hkey
      exact drop_lt_drop_of_getElem_lt hplt hqlt (UInt8.lt_iff_toNat_lt.mpr hkey)
  agree p q hp hq heq := by
    by_cases hplast : p = old.length
    · by_cases hqlast : q = old.length
      · rw [hplast, hqlast]
        rfl
      · have hpos := hb.pos (p := q) (by rw [length_keys]; omega)
        rw [hplast, hb.last] at heq
        omega
    · by_cases hqlast : q = old.length
      · have hpos := hb.pos (p := p) (by rw [length_keys]; omega)
        rw [hqlast, hb.last] at heq
        omega
      · have hkey := hb.eq_of_rank (by rw [length_keys]; omega) (by rw [length_keys]; omega) heq
        simp only [keys, List.getElem_map] at hkey
        exact agree_one (by omega) (by omega) (UInt8.toNat_inj.mp hkey)

/-- Who has a number from the range of a byte has that byte. -/
theorem Bucketed.key_of_rank (hb : Bucketed old s) {c q : ℕ} (hq : q ≤ old.length)
    (ha : below (keys old) c + 1 ≤ s.V q) (hle : s.V q ≤ below (keys old) (c + 1)) :
    ∃ hq : q < (keys old).length, (keys old)[q] = c := by
  have hqlt : q < (keys old).length := by
    by_contra hge
    rw [length_keys] at hge
    obtain rfl : q = old.length := by omega
    rw [hb.last] at ha
    omega
  refine ⟨hqlt, ?_⟩
  rw [hb.rank q hqlt] at ha hle
  have hqb := below_lt_below_succ hqlt rfl
  rcases Nat.lt_trichotomy (keys old)[q] c with hlt | hkey | hgt
  · have hmono : below (keys old) ((keys old)[q] + 1) ≤ below (keys old) c := below_mono hlt
    omega
  · exact hkey
  · have hmono : below (keys old) (c + 1) ≤ below (keys old) (keys old)[q] := below_mono hgt
    omega

/-- The entries of one byte: nothing, one position in its place, or a group. -/
theorem Bucketed.bucket (hb : Bucketed old s) {c : ℕ} (hc : c < 256) :
    Layout old 1 s.I s.V (below (keys old) c + 1) (below (keys old) (c + 1) + 1) := by
  have hsucc := below_succ (keys old) c
  by_cases hnone : (keys old).count c = 0
  · rw [hsucc, hnone]
    exact Layout.nil _
  by_cases hone : 1 ≤ c ∧ Single old c
  · obtain ⟨h1, hone⟩ := hone
    have hI := hb.single c h1 hc hone
    have hnum := hone
    rw [Single] at hnum
    rw [hnum] at hI ⊢
    refine Layout.run (m := 1) (by rw [hI, Nat.cast_one]) Nat.one_pos ?_ (Layout.nil _)
    intro i ha hbi
    obtain rfl : i = below (keys old) c + 1 := by omega
    obtain ⟨p, hp, hkey, hplace⟩ := exists_place (c := c) (Nat.le_refl (below (keys old) c)) (by omega)
    have hple : p ≤ old.length := by
      rw [length_keys] at hp
      omega
    have hpV : s.V p = below (keys old) c + 1 := by rw [hb.rank p hp, hkey, hnum]
    refine ⟨p, hple, hpV, fun q hq hqV => ?_⟩
    obtain ⟨hq', hqkey⟩ := hb.key_of_rank (c := c) hq (by omega) (by omega)
    refine place_injective hq' hp ?_
    have hqb := place_lt hq' hqkey
    have hqa := below_le_place (keys old) c q
    rw [hqkey, hkey]
    omega
  · refine Layout.group (m := (keys old).count c) (by omega) ?_ ?_
    · have hentry : ∀ i, below (keys old) c + 1 ≤ i →
          i < below (keys old) c + 1 + (keys old).count c →
          ∃ p, ∃ hp : p < (keys old).length, (keys old)[p] = c ∧ slot old c p = i ∧ s.I i = p := by
        intro i ha hbi
        obtain ⟨p, hp, hkey, hplace⟩ := exists_place (l := keys old) (c := c) (t := i - 1)
          (by omega) (by omega)
        have hslot : slot old c p = i := by
          rw [slot]
          omega
        refine ⟨p, hp, hkey, hslot, ?_⟩
        have hI := hb.entry p hp (by
          rw [hkey]
          by_cases h0 : c = 0
          · exact Or.inl h0
          · exact Or.inr fun hs => hone ⟨by omega, hs⟩)
        rwa [hkey, hslot] at hI
      refine ⟨⟨?_, ?_⟩, ?_, ?_⟩
      · intro i ha hbi
        obtain ⟨p, -, -, -, hI⟩ := hentry i ha hbi
        exact ⟨p, hI⟩
      · intro i j hia hib hja hjb heq
        obtain ⟨p, hp, -, hpi, hIp⟩ := hentry i hia hib
        obtain ⟨q, hq, -, hqj, hIq⟩ := hentry j hja hjb
        have hpq : p = q := by
          rw [hIp, hIq] at heq
          exact Int.ofNat_inj.mp heq
        rw [← hpi, ← hqj, hpq]
      · rintro p ⟨i, hia, hib, hpi⟩
        obtain ⟨q, hq, hkey, hqi, hIq⟩ := hentry i hia hib
        obtain rfl : p = q := Int.ofNat_inj.mp (hpi.symm.trans hIq)
        rw [hb.rank p hq, hkey]
        rw [length_keys] at hq
        omega
      · intro q hq ha hlt
        obtain ⟨hq', hqkey⟩ := hb.key_of_rank (c := c) hq ha (by omega)
        have hqb := place_lt hq' hqkey
        have hqa := below_le_place (keys old) c q
        obtain ⟨p, hp, hkey, hslot, hI⟩ := hentry (slot old c q)
          (by rw [slot]; omega) (by rw [slot]; omega)
        have hpq : p = q := by
          refine place_injective hp hq' ?_
          rw [slot, slot] at hslot
          rw [hkey, hqkey]
          omega
        refine ⟨slot old c q, by rw [slot]; omega, by rw [slot]; omega, ?_⟩
        rw [hI, hpq]
    · rw [hsucc, Nat.add_right_comm]
      exact Layout.nil _

/-- The buckets are the groups of the first round. -/
theorem Bucketed.layout (hb : Bucketed old s) : Layout old 1 s.I s.V 0 (old.length + 1) := by
  have hupto : ∀ c, c ≤ 256 → Layout old 1 s.I s.V 0 (below (keys old) c + 1) := by
    intro c
    induction c with
    | zero =>
      intro _
      rw [below_zero]
      refine Layout.run (m := 1) (by rw [hb.head, Nat.cast_one]) Nat.one_pos ?_ (Layout.nil _)
      intro i ha hi
      obtain rfl : i = 0 := by omega
      refine ⟨old.length, Nat.le_refl _, hb.last, fun q hq hq0 => ?_⟩
      by_contra hne
      have hpos := hb.pos (p := q) (by rw [length_keys]; omega)
      omega
    | succ c ih =>
      intro hc
      exact (ih (by omega)).append (hb.bucket (by omega))
  have hall : below (keys old) 256 = old.length := by
    rw [← length_keys, below, List.countP_eq_length]
    intro k hk
    obtain ⟨p, hp, rfl⟩ := List.getElem_of_mem hk
    exact decide_eq_true (keys_lt hp)
  have h256 := hupto 256 (Nat.le_refl 256)
  rwa [hall] at h256

end Bucketed

end OpenRecovery.ImgDiff
