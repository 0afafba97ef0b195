import OpenRecovery.Minzip.HashSpec

/-!
# The hash table over whole sequences of calls

`Step` is the finite map with the table's calls as operations, `Represents` ties a table to a state
of the map. `hashTable_refines_iff` says for which initial sizes a table is such a map for good:
`roundUpPower2` gives zero above `2 ^ 31`, and nothing else can go wrong.
-/

set_option autoImplicit false

namespace OpenRecovery.Minzip

open OpenRecovery.Probing

variable {α : Type}

/-! ## The size of a new table -/

/-- One round of the bit hack: the bits of `x` reach twice as far down. -/
theorem getLsbD_smear {x y : BitVec 32} {m : Nat}
    (h : ∀ i, y.getLsbD i = true ↔ ∃ d < m, x.getLsbD (i + d) = true) (i : Nat) :
    (y ||| y >>> m).getLsbD i = true ↔ ∃ d < 2 * m, x.getLsbD (i + d) = true := by
  rw [BitVec.getLsbD_or, BitVec.getLsbD_ushiftRight, Bool.or_eq_true, h, h]
  constructor
  · rintro (⟨d, hd, hx⟩ | ⟨d, hd, hx⟩)
    · exact ⟨d, by omega, hx⟩
    · exact ⟨m + d, by omega, by rwa [show i + (m + d) = m + i + d by omega]⟩
  · rintro ⟨d, hd, hx⟩
    by_cases hdm : d < m
    · exact .inl ⟨d, hdm, hx⟩
    · exact .inr ⟨d - m, by omega, by rwa [show m + i + (d - m) = i + d by omega]⟩

/-- All bits from the highest one of `x` downwards. -/
theorem toNat_smear {x y : BitVec 32}
    (h : ∀ i, y.getLsbD i = true ↔ ∃ d < 32, x.getLsbD (i + d) = true) (hx : x.toNat ≠ 0) :
    y.toNat = 2 ^ (x.toNat.log2 + 1) - 1 := by
  apply Nat.eq_of_testBit_eq
  intro i
  rw [Nat.testBit_two_pow_sub_one, Bool.eq_iff_iff, decide_eq_true_iff]
  refine (h i).trans ⟨?_, ?_⟩
  · rintro ⟨d, -, hbit⟩
    have hbig : 2 ^ (i + d) ≤ x.toNat := Nat.ge_two_pow_of_testBit hbit
    have hle : i + d ≤ x.toNat.log2 := (Nat.le_log2 hx).mpr hbig
    omega
  · intro hi
    have hlog : x.toNat.log2 < 32 := (Nat.log2_lt hx).mpr x.isLt
    refine ⟨x.toNat.log2 - i, by omega, ?_⟩
    rw [show i + (x.toNat.log2 - i) = x.toNat.log2 by omega]
    exact Nat.testBit_log2 hx

theorem roundUpPower2_toNat {v : BitVec 32} (hv : 1 < v.toNat) :
    (roundUpPower2 v).toNat = 2 ^ ((v.toNat - 1).log2 + 1) % 2 ^ 32 := by
  have hsub : (v - 1).toNat = v.toNat - 1 := by
    rw [BitVec.toNat_sub_of_le (by rw [BitVec.le_def]; simp; omega)]
    rfl
  have h1 : ∀ i, (v - 1).getLsbD i = true ↔ ∃ d < 1, (v - 1).getLsbD (i + d) = true := by
    intro i
    constructor
    · intro h
      exact ⟨0, by omega, h⟩
    · rintro ⟨d, hd, h⟩
      rwa [show d = 0 by omega] at h
  have hall := getLsbD_smear (getLsbD_smear (getLsbD_smear (getLsbD_smear (getLsbD_smear h1))))
  have hnat := toNat_smear hall (by omega)
  rw [hsub] at hnat
  have hpos : 0 < 2 ^ ((v.toNat - 1).log2 + 1) := Nat.two_pow_pos _
  rw [roundUpPower2, BitVec.toNat_add, hnat]
  change (2 ^ ((v.toNat - 1).log2 + 1) - 1 + 1) % 2 ^ 32 = _
  rw [Nat.sub_add_cancel hpos]

/-- Up to `2 ^ 31` the size is a power of two that fits. -/
theorem roundUpPower2_pow {v : BitVec 32} (hpos : 0 < v.toNat) (hle : v.toNat ≤ 2 ^ 31) :
    ∃ k < 32, (roundUpPower2 v).toNat = 2 ^ k := by
  by_cases hone : v.toNat = 1
  · have hv : v = 1 := BitVec.eq_of_toNat_eq hone
    exact ⟨0, by omega, by rw [hv]; decide⟩
  · have hlog : (v.toNat - 1).log2 < 31 := (Nat.log2_lt (by omega)).mpr (by omega)
    refine ⟨(v.toNat - 1).log2 + 1, by omega, ?_⟩
    rw [roundUpPower2_toNat (by omega)]
    exact Nat.mod_eq_of_lt (Nat.pow_lt_pow_right (by omega) (by omega))

/-- Above, the sum wraps around to zero. -/
theorem roundUpPower2_zero {v : BitVec 32} (hlt : 2 ^ 31 < v.toNat) : roundUpPower2 v = 0 := by
  have hlog : (v.toNat - 1).log2 = 31 := by
    refine (Nat.log2_eq_iff (by omega)).mpr ⟨by omega, ?_⟩
    have := v.isLt
    omega
  apply BitVec.eq_of_toNat_eq
  rw [roundUpPower2_toNat (by omega), hlog]
  rfl

/-! ## The finite map -/

/-- The calls on a finite map that holds the items `S`, no two of which compare equal. -/
inductive Step [DecidableEq α] (cmpFunc : α → α → Int) (freeFunc : Bool) :
    Finset α → Op α → Answer α → Finset α → Prop
  | found {S : Finset α} {x item : α} {doAdd : Bool} :
      x ∈ S → cmpFunc x item = 0 →
      Step cmpFunc freeFunc S (.lookup item doAdd) (.found (.item x)) S
  | added {S : Finset α} {item : α} :
      (∀ x ∈ S, cmpFunc x item ≠ 0) →
      Step cmpFunc freeFunc S (.lookup item true) (.found (.item item)) (insert item S)
  | missing {S : Finset α} {item : α} :
      (∀ x ∈ S, cmpFunc x item ≠ 0) →
      Step cmpFunc freeFunc S (.lookup item false) (.found .null) S
  | removed {S : Finset α} {item : α} :
      item ∈ S → Step cmpFunc freeFunc S (.remove item) (.removed true) (S.erase item)
  | absent {S : Finset α} {item : α} :
      item ∉ S → Step cmpFunc freeFunc S (.remove item) (.removed false) S
  | cleared {S : Finset α} {freed : List α} :
      (if freeFunc then freed.Perm S.toList else freed = []) →
      Step cmpFunc freeFunc S .clear (.cleared freed) ∅

/-- A sequence of calls on the map. -/
inductive Steps [DecidableEq α] (cmpFunc : α → α → Int) (freeFunc : Bool) :
    Finset α → List (Op α) → List (Answer α) → Finset α → Prop
  | nil {S : Finset α} : Steps cmpFunc freeFunc S [] [] S
  | cons {S S' S'' : Finset α} {op : Op α} {ops : List (Op α)} {a : Answer α}
      {as : List (Answer α)} :
      Step cmpFunc freeFunc S op a S' → Steps cmpFunc freeFunc S' ops as S'' →
      Steps cmpFunc freeFunc S (op :: ops) (a :: as) S''

/-! ## Tables that hold a state of the map -/

/-- The table's array holds the items `S`, each where a walk from its hash finds it, and the
counters are right. -/
structure Stored (hash : α → BitVec 32) (cmpFunc : α → α → Int) (t : HashTable α)
    (S : Finset α) : Prop where
  power : t.pEntries.length.isPowerOfTwo
  size : t.tableSize = t.pEntries.length
  fits : t.pEntries.length * sizeofHashTable < 2 ^ 32
  live : (liveItems t.pEntries).Perm S.toList
  numEntries : t.numEntries = S.card
  numDeadEntries : t.numDeadEntries = countTombStones t
  distinct : ∀ x ∈ S, ∀ y ∈ S, cmpFunc x y = 0 → x = y
  placed : Placed hash t.pEntries.length t.pEntries

/-- And no more than five of eight slots are used. -/
structure Represents (hash : α → BitVec 32) (cmpFunc : α → α → Int) (t : HashTable α)
    (S : Finset α) : Prop extends Stored hash cmpFunc t S where
  load : (t.numEntries + t.numDeadEntries) * LOAD_DENOM ≤ t.tableSize * LOAD_NUMER

section Tables

variable {hash : α → BitVec 32} {cmpFunc : α → α → Int} {t : HashTable α} {S : Finset α}

theorem Stored.mem_iff (h : Stored hash cmpFunc t S) {x : α} :
    x ∈ liveItems t.pEntries ↔ x ∈ S := by
  rw [h.live.mem_iff, Finset.mem_toList]

theorem Stored.length_live (h : Stored hash cmpFunc t S) :
    ((liveItems t.pEntries).length : Int) = t.numEntries := by
  rw [h.live.length_eq, Finset.length_toList, h.numEntries]

theorem Stored.pos (h : Stored hash cmpFunc t S) : 0 < t.pEntries.length := by
  obtain ⟨k, hk⟩ := h.power
  rw [hk]
  exact Nat.two_pow_pos k

/-- The mask is the remainder. -/
theorem Stored.slotOf_eq (h : Stored hash cmpFunc t S) (hv : BitVec 32) :
    slotOf hv t.tableSize = hv.toNat % t.pEntries.length := by
  obtain ⟨k, hk⟩ := h.power
  have hlt : k < 32 := by
    have hfits := h.fits
    rw [sizeofHashTable] at hfits
    exact (Nat.pow_lt_pow_iff_right (show 1 < 2 by omega)).mp (by omega)
  rw [h.size, hk, slotOf_eq_mod hv hlt]

/-- The load test leaves an empty slot. -/
theorem Represents.exists_free (h : Represents hash cmpFunc t S) :
    ∃ i < t.pEntries.length, Free t.pEntries i := by
  apply Minzip.exists_free
  have hload := h.load
  have hlive := h.length_live
  have hdead : t.numDeadEntries = (tombstones t.pEntries : Int) := h.numDeadEntries
  have hpos := h.pos
  rw [h.size, LOAD_DENOM, LOAD_NUMER] at hload
  omega

/-- A table with one slot has it empty, so no search reaches the break. -/
theorem Represents.search_ne_pastEnd (h : Represents hash cmpFunc t S)
    (found : HashEntry α → Bool) (fuel i : Nat) : search found t fuel i ≠ some .pastEnd := by
  refine Minzip.search_ne_pastEnd rfl h.size (fun hone => ?_) fuel i
  obtain ⟨z, hz, hfree⟩ := h.exists_free
  rwa [show z = 0 by omega] at hfree

/-- Every search ends at its first stop. -/
theorem Represents.search_eq (h : Represents hash cmpFunc t S) (found : HashEntry α → Bool)
    (hv : BitVec 32) : ∃ k < t.pEntries.length,
      FirstStop (Stops found t.pEntries) t.pEntries.length (hv.toNat % t.pEntries.length) k ∧
      search found t (t.pEntries.length + 1) (slotOf hv t.tableSize) =
        some (.at (walk t.pEntries.length (hv.toNat % t.pEntries.length) k)) := by
  obtain ⟨z, hz, hfree⟩ := h.exists_free
  have hstart : hv.toNat % t.pEntries.length < t.pEntries.length := Nat.mod_lt _ h.pos
  obtain ⟨k, hk, hstop⟩ := exists_firstStop hstart hz (hfree.stops found)
  refine ⟨k, hk, hstop, ?_⟩
  rw [h.slotOf_eq]
  exact search_eq_at rfl h.size hstart (by omega) (by omega) hstop

/-- `P` holds of what the call returns; it returns unless `refused`. -/
def Outcome.Ends {β : Type} (refused : Prop) (P : β → Prop) : Outcome β → Prop
  | .returned b => P b
  | .aborted => refused
  | .asserted => False
  | .undefined => False

theorem Outcome.Ends.mono {β : Type} {R R' : Prop} {P : β → Prop} {o : Outcome β} (h : o.Ends R P)
    (hR : R → R') : o.Ends R' P := by
  cases o with
  | returned b => exact h
  | aborted => exact hR h
  | asserted => exact h
  | undefined => exact h

theorem Outcome.Ends.bind {β γ : Type} {R : Prop} {P : β → Prop} {Q : γ → Prop}
    {o : Outcome β} {f : β → Outcome γ} (h : o.Ends R P)
    (hf : ∀ b, o = .returned b → P b → (f b).Ends R Q) : (o.bind f).Ends R Q := by
  cases o with
  | returned b => exact hf b rfl h
  | aborted => exact h
  | asserted => exact h
  | undefined => exact h

/-- There is no memory for an array of twice the size. -/
def NoRoom (calloc : Nat → Nat → Bool) (t : HashTable α) : Prop :=
  calloc (BitVec.ofInt 32 (t.tableSize * 2)).toNat sizeofHashTable = false

/-- The call adds an item with which the array is too full, and there is no memory for a larger one.
-/
def Refused (calloc : Nat → Nat → Bool) (cmpFunc : α → α → Int) (t : HashTable α) (op : Op α) : Prop :=
  ∃ item, op = .lookup item true ∧ (∀ x ∈ liveItems t.pEntries, cmpFunc x item ≠ 0) ∧
    t.tableSize * LOAD_NUMER < (t.numEntries + 1 + t.numDeadEntries) * LOAD_DENOM ∧ NoRoom calloc t

variable {calloc : Nat → Nat → Bool}

/-- A resize to twice the size keeps the items and leaves the tombstones behind. -/
theorem Stored.resize (hcalloc : ∀ n size, calloc n size = true → n * size < 2 ^ 32)
    (h : Stored hash cmpFunc t S)
    (hload : (t.numEntries + t.numDeadEntries) * LOAD_DENOM ≤ t.tableSize * LOAD_NUMER + LOAD_DENOM) :
    (resizeHash calloc t (t.tableSize * 2)).Ends False fun r =>
      (r = none → NoRoom calloc t) ∧
      ∀ t', r = some t' → Represents hash cmpFunc t' S ∧ t'.freeFunc = t.freeFunc := by
  obtain ⟨k, hk⟩ := h.power
  have hfits := h.fits
  have hlive := h.length_live
  have hdead : t.numDeadEntries = (tombstones t.pEntries : Int) := h.numDeadEntries
  have hpos := h.pos
  rw [sizeofHashTable] at hfits
  rw [h.size, LOAD_DENOM, LOAD_NUMER] at hload
  have hnew : t.tableSize * 2 = ((2 ^ (k + 1) : Nat) : Int) := by
    rw [h.size, hk, Nat.pow_succ]
    push_cast
    rfl
  have hbits : (BitVec.ofInt 32 (t.tableSize * 2)).toNat = 2 ^ (k + 1) := by
    rw [hnew, BitVec.ofInt_natCast, BitVec.toNat_ofNat]
    apply Nat.mod_eq_of_lt
    rw [Nat.pow_succ, ← hk]
    omega
  unfold resizeHash
  rw [if_neg (by rw [h.numDeadEntries]; simp)]
  simp only [hbits]
  by_cases hc : calloc (2 ^ (k + 1)) sizeofHashTable = true
  · have hfits' := hcalloc _ _ hc
    have hk32 : k + 1 < 32 := by
      rw [sizeofHashTable] at hfits'
      exact (Nat.pow_lt_pow_iff_right (show 1 < 2 by omega)).mp (by omega)
    have hhash : ∀ e ∈ t.pEntries, ∀ p, e.data = .item p → e.hashValue = hash p := by
      intro e he p hp
      obtain ⟨i, hi⟩ := List.mem_iff_getElem?.mp he
      exact h.placed.hashed i e p hi hp
    have hempty : liveItems (List.replicate (2 ^ (k + 1)) (HashEntry.zero : HashEntry α)) = [] := by
      simp [liveItems, HashEntry.zero]
    obtain ⟨new, hmove, hplaced, htomb, hperm⟩ :=
      moveEntries_spec hk32 t.pEntries (List.replicate (2 ^ (k + 1)) HashEntry.zero) hhash
        (placed_replicate hash _) (by simp [tombstones, HashEntry.zero]) (by
          rw [hempty, List.length_nil, Nat.pow_succ, ← hk]
          omega)
    rw [hempty, List.append_nil] at hperm
    rw [if_pos hc, hnew, hmove]
    simp only
    have hcount : countTombStones { t with
        pEntries := new, tableSize := ((2 ^ (k + 1) : Nat) : Int), numDeadEntries := 0 } = 0 := by
      change ((tombstones new : Nat) : Int) = 0
      rw [htomb, Nat.cast_zero]
    rw [if_neg (by rw [hcount]; simp)]
    refine ⟨by rintro ⟨⟩, ?_⟩
    intro t' ht'
    cases ht'
    refine ⟨⟨⟨⟨k + 1, hplaced.length⟩, by rw [hplaced.length], ?_, hperm.trans h.live, h.numEntries,
      hcount.symm, h.distinct, by rw [hplaced.length]; exact hplaced⟩, ?_⟩, rfl⟩
    · rw [hplaced.length]
      exact hfits'
    · rw [LOAD_DENOM, LOAD_NUMER]
      simp only [Nat.pow_succ, ← hk]
      push_cast
      rcases Nat.lt_or_ge t.pEntries.length 2 with h2 | h2
      · omega
      · omega
  · rw [if_neg hc]
    refine ⟨fun _ => ?_, by rintro t' ⟨⟩⟩
    rw [NoRoom, hbits]
    simpa using hc

/-- After a new item was put into the array, with or without a resize. -/
theorem Stored.afterAdd (hcalloc : ∀ n size, calloc n size = true → n * size < 2 ^ 32)
    (h : Stored hash cmpFunc t S)
    (hload : (t.numEntries + t.numDeadEntries) * LOAD_DENOM ≤ t.tableSize * LOAD_NUMER + LOAD_DENOM)
    (item : α) :
    (Minzip.afterAdd calloc t item).Ends
      (t.tableSize * LOAD_NUMER < (t.numEntries + t.numDeadEntries) * LOAD_DENOM ∧ NoRoom calloc t)
      fun r => r.2 = .item item ∧ Represents hash cmpFunc r.1 S ∧ r.1.freeFunc = t.freeFunc := by
  -- the assertion at the end holds because of the load
  have hfinish : ∀ (R : Prop) (t' : HashTable α), Represents hash cmpFunc t' S →
      t'.freeFunc = t.freeFunc →
      (if t'.numEntries < t'.tableSize then Outcome.returned (t', Data.item item)
        else Outcome.asserted).Ends R fun r =>
          r.2 = .item item ∧ Represents hash cmpFunc r.1 S ∧ r.1.freeFunc = t.freeFunc := by
    intro R t' hrep hfree
    have hroom : t'.numEntries < t'.tableSize := by
      have hl := hrep.load
      have hlen := hrep.length_live
      have hdead : t'.numDeadEntries = (tombstones t'.pEntries : Int) := hrep.numDeadEntries
      have hpos := hrep.pos
      rw [hrep.size, LOAD_DENOM, LOAD_NUMER] at hl
      rw [hrep.size]
      omega
    rw [if_pos hroom]
    exact ⟨rfl, hrep, hfree⟩
  unfold Minzip.afterAdd
  split
  · next hfull =>
    refine ((h.resize hcalloc hload).mono False.elim).bind fun r _ hr => ?_
    cases r with
    | none => exact ⟨hfull, hr.1 rfl⟩
    | some t' => exact hfinish _ t' (hr.2 t' rfl).1 (hr.2 t' rfl).2
  · next hle => exact hfinish _ t ⟨h, by omega⟩ rfl

/-! ## The calls -/

/-- What a comparison has to be: an equivalence under which equal items have equal hashes. -/
structure Compares (hash : α → BitVec 32) (cmpFunc : α → α → Int) : Prop where
  equivalence : Equivalence fun a b => cmpFunc a b = 0
  hash_eq : ∀ a b, cmpFunc a b = 0 → hash a = hash b

theorem matches?_eq_true {itemHash : BitVec 32} {item : α} {e : HashEntry α} :
    matches? itemHash item cmpFunc e = true ↔
      ∃ p, e.data = .item p ∧ e.hashValue = itemHash ∧ cmpFunc p item = 0 := by
  unfold matches?
  cases hd : e.data with
  | null => simp
  | tombstone => simp
  | item p => simp

/-- The item `x` stops a search that is made for it, and no empty slot comes before. -/
theorem Represents.not_free (h : Represents hash cmpFunc t S) {found : HashEntry α → Bool} {x : α}
    (hx : x ∈ S) (hfound : ∀ e : HashEntry α, e.data = .item x → e.hashValue = hash x →
      found e = true) {k : Nat}
    (hstop : FirstStop (Stops found t.pEntries) t.pEntries.length
      ((hash x).toNat % t.pEntries.length) k) :
    ¬ Free t.pEntries (walk t.pEntries.length ((hash x).toNat % t.pEntries.length) k) := by
  obtain ⟨i, e, he, hd⟩ := mem_liveItems.mp (h.mem_iff.mpr hx)
  refine hstop.not_free (h.placed.reached i e x he hd)
    ⟨e, he, .inr (hfound e hd (h.placed.hashed i e x he hd))⟩ ?_
  rintro ⟨e', he', hnull⟩
  rw [he] at he'
  cases he'
  rw [hd, Data.isNull_item] at hnull
  cases hnull

/-- An item put into the slot where the search for it ended. -/
theorem Represents.stored_put [DecidableEq α] (h : Represents hash cmpFunc t S)
    (hcmp : Compares hash cmpFunc) {item : α} (hnew : ∀ x ∈ S, cmpFunc x item ≠ 0)
    {found : HashEntry α → Bool} {k : Nat} (hk : k < t.pEntries.length)
    (hstop : FirstStop (Stops found t.pEntries) t.pEntries.length
      ((hash item).toNat % t.pEntries.length) k)
    (hfree : Free t.pEntries (walk t.pEntries.length ((hash item).toNat % t.pEntries.length) k)) :
    Stored hash cmpFunc
      { t with
        pEntries := t.pEntries.set
          (walk t.pEntries.length ((hash item).toNat % t.pEntries.length) k)
          ⟨hash item, .item item⟩
        numEntries := t.numEntries + 1 }
      (insert item S) := by
  have hnot : item ∉ S := fun hmem => hnew item hmem (hcmp.equivalence.refl item)
  have hplaced := h.placed.put hk hstop fun x _ hx => hx.stops found
  constructor
  · simpa using h.power
  · simpa using h.size
  · simpa using h.fits
  · exact (liveItems_put hfree _ _).trans
      ((h.live.cons item).trans (Finset.toList_insert hnot).symm)
  · rw [Finset.card_insert_of_notMem hnot, h.numEntries]
    push_cast
    rfl
  · rw [h.numDeadEntries]
    exact congrArg Nat.cast (tombstones_put hfree _ _).symm
  · intro x hx y hy hxy
    rcases Finset.mem_insert.mp hx with hxi | hxS
    · rcases Finset.mem_insert.mp hy with hyi | hyS
      · exact hxi.trans hyi.symm
      · exact absurd (hcmp.equivalence.symm (hxi ▸ hxy)) (hnew y hyS)
    · rcases Finset.mem_insert.mp hy with hyi | hyS
      · exact absurd (hyi ▸ hxy) (hnew x hxS)
      · exact h.distinct x hxS y hyS hxy
  · simpa using hplaced

theorem Represents.lookup [DecidableEq α] (h : Represents hash cmpFunc t S)
    (hcalloc : ∀ n size, calloc n size = true → n * size < 2 ^ 32) (hcmp : Compares hash cmpFunc)
    (item : α) (doAdd : Bool) :
    (mzHashTableLookup calloc t (hash item) item cmpFunc doAdd).Ends
      (Refused calloc cmpFunc t (.lookup item doAdd)) fun r =>
        ∃ S', Step cmpFunc t.freeFunc S (.lookup item doAdd) (.found r.2) S' ∧
          Represents hash cmpFunc r.1 S' ∧ r.1.freeFunc = t.freeFunc := by
  have hsize : t.tableSize > 0 := by
    have := h.pos
    rw [h.size]
    omega
  obtain ⟨k, hk, hstop, hsearch⟩ := h.search_eq (matches? (hash item) item cmpFunc) (hash item)
  obtain ⟨e, he, hor⟩ := hstop.stops
  unfold mzHashTableLookup
  rw [if_neg (by omega), hsearch]
  simp only [he]
  by_cases hnull : e.data.isNull = true
  · -- no item of the table compares equal: its slot would have come first
    have hnew : ∀ x ∈ S, cmpFunc x item ≠ 0 := by
      intro x hx heq
      have hhash : hash x = hash item := hcmp.hash_eq x item heq
      have hfirst := hstop
      have hfree : Free t.pEntries _ := ⟨e, he, hnull⟩
      rw [show (hash item).toNat = (hash x).toNat by rw [hhash]] at hfirst hfree
      exact h.not_free hx (fun e' hd hv => matches?_eq_true.mpr ⟨x, hd, hv.trans hhash, heq⟩)
        hfirst hfree
    rw [if_pos hnull]
    cases doAdd with
    | false => exact ⟨S, .missing hnew, h, rfl⟩
    | true =>
      have hstored := h.stored_put hcmp hnew hk hstop ⟨e, he, hnull⟩
      have hload := h.load
      have hend := hstored.afterAdd hcalloc (by
        simp only [LOAD_DENOM, LOAD_NUMER] at hload ⊢
        omega) item
      rw [if_pos rfl]
      generalize afterAdd calloc _ item = o at hend
      cases o with
      | returned r =>
        obtain ⟨hr, hrep, hfreeFunc⟩ := hend
        exact ⟨insert item S, by rw [hr]; exact .added hnew, hrep, hfreeFunc⟩
      | aborted => exact ⟨item, rfl, fun x hx => hnew x (h.mem_iff.mp hx), hend⟩
      | asserted => exact hend
      | undefined => exact hend
  · rw [if_neg hnull]
    obtain ⟨p, hd, -, heq⟩ := matches?_eq_true.mp (hor.resolve_left hnull)
    refine ⟨S, ?_, h, rfl⟩
    rw [hd]
    exact .found (h.mem_iff.mp (mem_liveItems.mpr ⟨_, e, he, hd⟩)) heq

theorem Represents.remove [DecidableEq α] (h : Represents hash cmpFunc t S) (item : α) :
    (mzHashTableRemove t (hash item) item).Ends False fun r =>
      ∃ S', Step cmpFunc t.freeFunc S (.remove item) (.removed r.2) S' ∧
        Represents hash cmpFunc r.1 S' ∧ r.1.freeFunc = t.freeFunc := by
  have hsize : t.tableSize > 0 := by
    have := h.pos
    rw [h.size]
    omega
  obtain ⟨k, hk, hstop, hsearch⟩ := h.search_eq (fun e => e.data = .item item) (hash item)
  obtain ⟨e, he, hor⟩ := hstop.stops
  unfold mzHashTableRemove
  rw [if_neg (by omega), hsearch]
  simp only [he]
  by_cases hd : e.data = .item item
  · have hmem : item ∈ S := h.mem_iff.mp (mem_liveItems.mpr ⟨_, e, he, hd⟩)
    have hload := h.load
    have hcard : ((S.erase item).card : Int) = S.card - 1 := by
      rw [Finset.card_erase_of_mem hmem]
      have := Finset.card_pos.mpr ⟨item, hmem⟩
      omega
    rw [if_pos hd]
    refine ⟨S.erase item, .removed hmem, ⟨⟨?_, ?_, ?_, ?_, ?_, ?_, ?_, ?_⟩, ?_⟩, rfl⟩
    · simpa using h.power
    · simpa using h.size
    · simpa using h.fits
    · have hperm := ((liveItems_bury he hd).symm.trans h.live).trans
        (Finset.insert_erase hmem ▸ Finset.toList_insert (Finset.notMem_erase item S))
      exact hperm.cons_inv
    · rw [hcard, h.numEntries]
    · change t.numDeadEntries + 1 = ((tombstones _ : Nat) : Int)
      rw [tombstones_bury he hd, h.numDeadEntries]
      rfl
    · intro x hx y hy
      exact h.distinct x (Finset.mem_of_mem_erase hx) y (Finset.mem_of_mem_erase hy)
    · simpa using h.placed.bury
    · simp only [LOAD_DENOM, LOAD_NUMER] at hload ⊢
      omega
  · rw [if_neg hd]
    have hnull : e.data.isNull = true := hor.resolve_right (by simpa using hd)
    have hnot : item ∉ S := fun hmem =>
      h.not_free hmem (fun e' hd' _ => by simpa using hd') hstop ⟨e, he, hnull⟩
    exact ⟨S, .absent hnot, h, rfl⟩

theorem Represents.clear [DecidableEq α] (h : Represents hash cmpFunc t S) :
    Step cmpFunc t.freeFunc S .clear (.cleared (mzHashTableClear t).2) ∅ ∧
      Represents hash cmpFunc (mzHashTableClear t).1 ∅ := by
  have hnull : ∀ (i : Nat) (e : HashEntry α),
      (t.pEntries.map fun e => { e with data := Data.null })[i]? = some e → e.data = .null := by
    intro i e he
    rw [List.getElem?_map] at he
    obtain ⟨_, _, rfl⟩ := Option.map_eq_some_iff.mp he
    rfl
  have hlive : liveItems (t.pEntries.map fun e => { e with data := Data.null (α := α) }) = [] := by
    simp [liveItems, List.filterMap_map, Function.comp_def]
  have htomb : tombstones (t.pEntries.map fun e => { e with data := Data.null (α := α) }) = 0 := by
    simp [tombstones, List.countP_map, Function.comp_def]
  refine ⟨.cleared ?_, ⟨⟨?_, ?_, ?_, ?_, ?_, ?_, ?_, ?_⟩, ?_⟩⟩
  · cases hf : t.freeFunc with
    | false => simp [mzHashTableClear, hf]
    | true => simpa [mzHashTableClear, hf, liveItems] using h.live
  · simpa [mzHashTableClear] using h.power
  · simpa [mzHashTableClear] using h.size
  · simpa [mzHashTableClear] using h.fits
  · rw [Finset.toList_empty]
    exact List.Perm.of_eq hlive
  · rfl
  · exact (congrArg Nat.cast htomb).symm
  · intro x hx
    simp at hx
  · refine ⟨rfl, ?_, ?_⟩
    · intro i e p he hp
      rw [hnull i e he] at hp
      cases hp
    · intro i e p he hp
      rw [hnull i e he] at hp
      cases hp
  · have hpos := h.pos
    simp [mzHashTableClear, h.size, LOAD_NUMER]

/-- Every call is a call on the map. -/
theorem Represents.exec [DecidableEq α] (h : Represents hash cmpFunc t S)
    (hcalloc : ∀ n size, calloc n size = true → n * size < 2 ^ 32) (hcmp : Compares hash cmpFunc)
    (op : Op α) :
    (op.exec calloc hash cmpFunc t).Ends (Refused calloc cmpFunc t op) fun r =>
      ∃ S', Step cmpFunc t.freeFunc S op r.2 S' ∧ Represents hash cmpFunc r.1 S' ∧
        r.1.freeFunc = t.freeFunc := by
  cases op with
  | lookup item doAdd => exact (h.lookup hcalloc hcmp item doAdd).bind fun r _ hr => hr
  | remove item => exact ((h.remove item).mono False.elim).bind fun r _ hr => hr
  | clear => exact ⟨∅, h.clear.1, h.clear.2, rfl⟩

/-- Some calls return, and the next one is refused. -/
def RefusedIn [DecidableEq α] (calloc : Nat → Nat → Bool) (hash : α → BitVec 32)
    (cmpFunc : α → α → Int) (t : HashTable α) (ops : List (Op α)) : Prop :=
  ∃ done op rest r, ops = done ++ op :: rest ∧
    Minzip.runOps calloc hash cmpFunc t done = .returned r ∧ Refused calloc cmpFunc r.1 op

theorem RefusedIn.cons [DecidableEq α] {op : Op α} {ops : List (Op α)} {r : HashTable α × Answer α}
    (hexec : op.exec calloc hash cmpFunc t = .returned r)
    (h : RefusedIn calloc hash cmpFunc r.1 ops) : RefusedIn calloc hash cmpFunc t (op :: ops) := by
  obtain ⟨done, op', rest, r', rfl, hrun, hrefused⟩ := h
  refine ⟨op :: done, op', rest, (r'.1, r.2 :: r'.2), rfl, ?_, hrefused⟩
  rw [Minzip.runOps, hexec, Outcome.bind, hrun, Outcome.bind]

/-- So is every sequence of calls. -/
theorem Represents.runOps [DecidableEq α]
    (hcalloc : ∀ n size, calloc n size = true → n * size < 2 ^ 32) (hcmp : Compares hash cmpFunc) :
    ∀ (ops : List (Op α)) {t : HashTable α} {S : Finset α}, Represents hash cmpFunc t S →
      (Minzip.runOps calloc hash cmpFunc t ops).Ends (RefusedIn calloc hash cmpFunc t ops) fun r =>
        ∃ S', Steps cmpFunc t.freeFunc S ops r.2 S' ∧ Represents hash cmpFunc r.1 S' := by
  intro ops
  induction ops with
  | nil => intro t S h; exact ⟨S, .nil, h⟩
  | cons op ops ih =>
    intro t S h
    have hfirst := (h.exec hcalloc hcmp op).mono fun hrefused =>
      (⟨[], op, ops, (t, []), rfl, rfl, hrefused⟩ : RefusedIn calloc hash cmpFunc t (op :: ops))
    refine hfirst.bind fun r hexec hr => ?_
    obtain ⟨S₁, hstep, hrep, hfree⟩ := hr
    refine ((ih hrep).mono (RefusedIn.cons hexec)).bind fun r' _ hr' => ?_
    obtain ⟨S₂, hsteps, hrep'⟩ := hr'
    exact ⟨S₂, .cons hstep (hfree ▸ hsteps), hrep'⟩

/-- A table that `calloc` gave memory for is empty. -/
theorem represents_new (hash : α → BitVec 32) (cmpFunc : α → α → Int) {k : Nat} (hk : k < 31)
    (hfits : 2 ^ k * sizeofHashTable < 2 ^ 32) {size : BitVec 32} (hsize : size.toNat = 2 ^ k)
    (freeFunc : Bool) :
    Represents hash cmpFunc
      ⟨size.toInt, 0, 0, List.replicate size.toNat .zero, freeFunc⟩ (∅ : Finset α) := by
  have hlt : 2 ^ k < 2 ^ 31 := Nat.pow_lt_pow_right (by omega) hk
  have hint : size.toInt = ((2 ^ k : Nat) : Int) := by
    rw [BitVec.toInt_eq_toNat_of_lt (by omega), hsize]
  rw [hsize, hint]
  refine ⟨⟨⟨k, by simp⟩, by simp, by simpa using hfits, ?_, rfl, ?_, ?_, ?_⟩, ?_⟩
  · simp [liveItems, HashEntry.zero]
  · simp [countTombStones, HashEntry.zero, List.countP_replicate]
  · intro x hx
    simp at hx
  · simpa using placed_replicate hash (2 ^ k)
  · simp [LOAD_NUMER]

end Tables

/-- Whatever is called on the table, it answers as the map does and stays in order: the calls end,
an empty slot remains, and no search takes the break for a single slot. Only an addition that needs
a larger array can abort, where there is no memory for that. -/
def RefinesMap [DecidableEq α] (calloc : Nat → Nat → Bool) (hash : α → BitVec 32)
    (cmpFunc : α → α → Int) (t : HashTable α) : Prop :=
  ∀ ops : List (Op α),
    (runOps calloc hash cmpFunc t ops).Ends (RefusedIn calloc hash cmpFunc t ops) fun r =>
      ∃ S, Steps cmpFunc t.freeFunc ∅ ops r.2 S ∧ Represents hash cmpFunc r.1 S ∧
        (∃ i, Free r.1.pEntries i) ∧
        ∀ (found : HashEntry α → Bool) (fuel i : Nat), search found r.1 fuel i ≠ some .pastEnd

theorem refinesMap_of_represents [DecidableEq α] {calloc : Nat → Nat → Bool}
    {hash : α → BitVec 32} {cmpFunc : α → α → Int} {t : HashTable α}
    (hcalloc : ∀ n size, calloc n size = true → n * size < 2 ^ 32) (hcmp : Compares hash cmpFunc)
    (h : Represents hash cmpFunc t ∅) : RefinesMap calloc hash cmpFunc t := by
  intro ops
  have hrun := Represents.runOps hcalloc hcmp ops h
  generalize runOps calloc hash cmpFunc t ops = o at hrun
  cases o with
  | returned r =>
    obtain ⟨S, hsteps, hrep⟩ := hrun
    obtain ⟨i, -, hfree⟩ := hrep.exists_free
    exact ⟨S, hsteps, hrep, ⟨i, hfree⟩, hrep.search_ne_pastEnd⟩
  | aborted => exact hrun
  | asserted => exact hrun
  | undefined => exact hrun

/-- A table that was made for a size up to `2 ^ 31` is empty. -/
theorem represents_create {calloc : Nat → Nat → Bool}
    (hcalloc : ∀ n size, calloc n size = true → n * size < 2 ^ 32) (hash : α → BitVec 32)
    (cmpFunc : α → α → Int) {initialSize : BitVec 32} (hpos : 1 ≤ initialSize.toNat)
    (hle : initialSize.toNat ≤ 2 ^ 31) (freeFunc : Bool) :
    ∃ r, mzHashTableCreate calloc initialSize freeFunc = .returned r ∧
      ∀ t, r = some t → Represents hash cmpFunc t (∅ : Finset α) := by
  have hne : initialSize ≠ 0 := by
    rintro rfl
    simp at hpos
  obtain ⟨k, hk, hpow⟩ := roundUpPower2_pow hpos hle
  simp only [mzHashTableCreate, if_neg hne]
  by_cases hc : calloc (roundUpPower2 initialSize).toNat sizeofHashTable = true
  · have hfits := hcalloc _ _ hc
    rw [hpow] at hfits
    have hk31 : k < 31 := by
      rw [sizeofHashTable] at hfits
      exact (Nat.pow_lt_pow_iff_right (show 1 < 2 by omega)).mp (by omega)
    refine ⟨_, if_pos hc, ?_⟩
    rintro t ht
    cases ht
    exact represents_new hash cmpFunc hk31 hfits hpow _
  · exact ⟨none, if_neg hc, nofun⟩

/-- A new table is a finite map exactly if its initial size is at most `2 ^ 31`, or `calloc` refuses
an array of no slots. -/
theorem hashTable_refines_iff [DecidableEq α] (calloc : Nat → Nat → Bool)
    (hcalloc : ∀ n size, calloc n size = true → n * size < 2 ^ 32) (hash : α → BitVec 32)
    (cmpFunc : α → α → Int) (hcmp : Compares hash cmpFunc) (initialSize : BitVec 32)
    (hpos : 1 ≤ initialSize.toNat) (freeFunc : Bool) :
    (∃ r, mzHashTableCreate calloc initialSize freeFunc = .returned r ∧
      ∀ t, r = some t → RefinesMap calloc hash cmpFunc t) ↔
      initialSize.toNat ≤ 2 ^ 31 ∨ calloc 0 sizeofHashTable = false := by
  have hne : initialSize ≠ 0 := by
    rintro rfl
    simp at hpos
  by_cases hle : initialSize.toNat ≤ 2 ^ 31
  · obtain ⟨r, hr, hrep⟩ := represents_create hcalloc hash cmpFunc hpos hle freeFunc
    exact iff_of_true ⟨r, hr, fun t ht => refinesMap_of_represents hcalloc hcmp (hrep t ht)⟩
      (.inl hle)
  · -- the size wraps to zero, which is no power of two
    have hzero : roundUpPower2 initialSize = 0 := roundUpPower2_zero (Nat.lt_of_not_le hle)
    simp only [mzHashTableCreate, if_neg hne, hzero]
    by_cases hc : calloc 0 sizeofHashTable = true
    · refine iff_of_false ?_ (by rw [hc]; exact not_or.mpr ⟨hle, by simp⟩)
      rintro ⟨r, hr, hrefines⟩
      rw [if_pos (by simpa using hc)] at hr
      cases hr
      obtain ⟨S, -, hrep, -⟩ := hrefines _ rfl []
      exact absurd hrep.pos (by simp)
    · refine iff_of_true ⟨none, ?_, nofun⟩ (.inr (by simpa using hc))
      rw [if_neg (by simpa using hc)]

namespace Sample

/-- An allocator with all the memory a 32-bit address space can hold. -/
def calloc (n size : Nat) : Bool := decide (n * size < 2 ^ 32)

/-- Numbers as items, compared as numbers, with a hash that collides. -/
def hash (n : Nat) : BitVec 32 := BitVec.ofNat 32 (n % 2)

def cmpFunc (a b : Nat) : Int := (a : Int) - b

theorem compares : Compares hash cmpFunc := by
  have heq : ∀ a b : Nat, cmpFunc a b = 0 ↔ a = b := by
    intro a b
    unfold cmpFunc
    omega
  constructor
  · constructor
    · intro a
      exact (heq a a).mpr rfl
    · intro a b h
      exact (heq b a).mpr ((heq a b).mp h).symm
    · intro a b c h h'
      exact (heq a c).mpr (((heq a b).mp h).trans ((heq b c).mp h'))
  · intro a b h
    rw [(heq a b).mp h]

theorem calloc_fits (n size : Nat) (h : calloc n size = true) : n * size < 2 ^ 32 :=
  of_decide_eq_true h

theorem hashTable_refines_one :
    ∃ r, mzHashTableCreate calloc 1 false = .returned r ∧
      ∀ t, r = some t → RefinesMap calloc hash cmpFunc t :=
  (hashTable_refines_iff calloc calloc_fits hash cmpFunc compares 1 (by decide) false).mpr
    (.inl (by decide))

/-- With an initial size of `2 ^ 31 + 1` the table has no slot at all. -/
theorem hugeTable_not_refines :
    ¬ (∃ r, mzHashTableCreate calloc (BitVec.ofNat 32 (2 ^ 31 + 1)) false = .returned r ∧
      ∀ t, r = some t → RefinesMap calloc hash cmpFunc t) := by
  rintro ⟨r, hr, hrefines⟩
  have hcreate : mzHashTableCreate (α := Nat) calloc (BitVec.ofNat 32 (2 ^ 31 + 1)) false =
      .returned (some ⟨0, 0, 0, [], false⟩) := rfl
  rw [hcreate] at hr
  cases hr
  -- the first lookup runs into the assertion on the size
  exact hrefines _ rfl [.lookup 0 true]

end Sample

end OpenRecovery.Minzip
