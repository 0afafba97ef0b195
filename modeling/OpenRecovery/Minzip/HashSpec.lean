import Mathlib.Data.Finset.Card
import Mathlib.Tactic
import OpenRecovery.Minzip.Hash
import OpenRecovery.Probing.Ring

/-!
# The hash table is a finite map

`Represents` says that a table holds the items `S`: each item of `S` is in exactly one slot and a
walk from its hash comes to that slot before it meets an empty one. `Step` is the map the table is
for. Every call on a table that represents `S` gives an answer of the map and a table that
represents the map's next state (`Represents.exec`), so every sequence of calls does.

The searches end because the load test counts tombstones: with at most five of eight slots used,
one is empty.
-/

set_option autoImplicit false

namespace OpenRecovery.Minzip

open OpenRecovery.Probing

variable {α : Type}

/-! ## What an array of slots holds -/

def liveItems (es : List (HashEntry α)) : List α := es.filterMap fun e => e.data.item?

def tombstones (es : List (HashEntry α)) : Nat := es.countP fun e => e.data.isTombstone

/-- Slot `i` is empty. -/
def Free (es : List (HashEntry α)) (i : Nat) : Prop := ∃ e, es[i]? = some e ∧ e.data.isNull = true

/-- A search for `found` stops at slot `i`. -/
def Stops (found : HashEntry α → Bool) (es : List (HashEntry α)) (i : Nat) : Prop :=
  ∃ e, es[i]? = some e ∧ (e.data.isNull = true ∨ found e = true)

theorem Free.stops {es : List (HashEntry α)} {i : Nat} (found : HashEntry α → Bool)
    (h : Free es i) : Stops found es i := by
  obtain ⟨e, he, hnull⟩ := h
  exact ⟨e, he, .inl hnull⟩

theorem mem_liveItems {es : List (HashEntry α)} {p : α} :
    p ∈ liveItems es ↔ ∃ (i : Nat) (e : HashEntry α), es[i]? = some e ∧ e.data = .item p := by
  unfold liveItems
  rw [List.mem_filterMap]
  constructor
  · rintro ⟨e, he, hp⟩
    obtain ⟨i, hi⟩ := List.mem_iff_getElem?.mp he
    refine ⟨i, e, hi, ?_⟩
    cases hd : e.data <;> simp_all
  · rintro ⟨i, e, hi, hp⟩
    exact ⟨e, List.mem_of_getElem? hi, by rw [hp, Data.item?_item]⟩

/-- An array with fewer items and tombstones than slots has an empty slot. -/
theorem exists_free {es : List (HashEntry α)}
    (h : (liveItems es).length + tombstones es < es.length) : ∃ i < es.length, Free es i := by
  induction es with
  | nil => simp at h
  | cons e es ih =>
    cases hd : e.data with
    | null => exact ⟨0, by simp, e, rfl, by rw [hd, Data.isNull_null]⟩
    | tombstone =>
      have hlt : (liveItems es).length + tombstones es < es.length := by
        simp [liveItems, tombstones, hd] at h ⊢
        omega
      obtain ⟨i, hi, e', he'⟩ := ih hlt
      exact ⟨i + 1, by simpa using hi, e', by simpa using he'⟩
    | item p =>
      have hlt : (liveItems es).length + tombstones es < es.length := by
        simp [liveItems, tombstones, hd] at h ⊢
        omega
      obtain ⟨i, hi, e', he'⟩ := ih hlt
      exact ⟨i + 1, by simpa using hi, e', by simpa using he'⟩

/-- The array around one of its slots. -/
theorem split_at {es : List (HashEntry α)} {i : Nat} {e : HashEntry α} (h : es[i]? = some e) :
    es = es.take i ++ e :: es.drop (i + 1) := by
  obtain ⟨hi, he⟩ := List.getElem?_eq_some_iff.mp h
  rw [← he, ← List.drop_eq_getElem_cons hi, List.take_append_drop]

theorem set_split {es : List (HashEntry α)} {i : Nat} {e : HashEntry α} (h : es[i]? = some e)
    (e' : HashEntry α) : es.set i e' = es.take i ++ e' :: es.drop (i + 1) :=
  List.set_eq_take_cons_drop _ (List.getElem?_eq_some_iff.mp h).1

/-- An item put into an empty slot. -/
theorem liveItems_put {es : List (HashEntry α)} {i : Nat} (h : Free es i) (hv : BitVec 32) (p : α) :
    (liveItems (es.set i ⟨hv, .item p⟩)).Perm (p :: liveItems es) := by
  obtain ⟨e, he, hnull⟩ := h
  have hnone : e.data.item? = none := by rw [Data.eq_null hnull, Data.item?_null]
  rw [set_split he]
  conv_rhs => rw [split_at he]
  simp only [liveItems, List.filterMap_append, List.filterMap_cons, hnone, Data.item?_item]
  exact List.perm_middle

theorem tombstones_put {es : List (HashEntry α)} {i : Nat} (h : Free es i) (hv : BitVec 32)
    (p : α) : tombstones (es.set i ⟨hv, .item p⟩) = tombstones es := by
  obtain ⟨e, he, hnull⟩ := h
  have hno : e.data.isTombstone = false := by rw [Data.eq_null hnull, Data.isTombstone_null]
  rw [set_split he]
  conv_rhs => rw [split_at he]
  simp [tombstones, List.countP_append, hno]

/-- An item replaced by a tombstone. -/
theorem liveItems_bury {es : List (HashEntry α)} {i : Nat} {e : HashEntry α} {p : α}
    (he : es[i]? = some e) (hp : e.data = .item p) :
    (liveItems es).Perm (p :: liveItems (es.set i { e with data := .tombstone })) := by
  rw [set_split he]
  conv_lhs => rw [split_at he]
  simp only [liveItems, List.filterMap_append, List.filterMap_cons, hp, Data.item?_item,
    Data.item?_tombstone]
  exact List.perm_middle

theorem tombstones_bury {es : List (HashEntry α)} {i : Nat} {e : HashEntry α} {p : α}
    (he : es[i]? = some e) (hp : e.data = .item p) :
    tombstones (es.set i { e with data := .tombstone }) = tombstones es + 1 := by
  rw [set_split he]
  conv_rhs => rw [split_at he]
  simp [tombstones, List.countP_append, List.countP_cons, hp]
  omega

/-! ## The place of an item -/

/-- Every item of the array stands where a walk from its hash finds it. -/
structure Placed (hash : α → BitVec 32) (n : Nat) (es : List (HashEntry α)) : Prop where
  length : es.length = n
  hashed : ∀ (i : Nat) (e : HashEntry α) (p : α), es[i]? = some e → e.data = .item p →
    e.hashValue = hash p
  reached : ∀ (i : Nat) (e : HashEntry α) (p : α), es[i]? = some e → e.data = .item p →
    Reached (Free es) n ((hash p).toNat % n) i

theorem placed_replicate (hash : α → BitVec 32) (n : Nat) :
    Placed hash n (List.replicate n .zero) := by
  have hnone : ∀ (i : Nat) (e : HashEntry α) (p : α),
      (List.replicate n HashEntry.zero)[i]? = some e → e.data ≠ .item p := by
    intro i e p he hp
    have hzero : e = HashEntry.zero := List.eq_of_mem_replicate (List.mem_of_getElem? he)
    rw [hzero] at hp
    cases hp
  exact ⟨List.length_replicate, fun i e p he hp => absurd hp (hnone i e p he),
    fun i e p he hp => absurd hp (hnone i e p he)⟩

/-- A slot that changes from empty to used, or from an item to a tombstone, hides no item. -/
theorem free_of_free_set {es : List (HashEntry α)} {i : Nat} {e' : HashEntry α}
    (he' : e'.data.isNull = false) {x : Nat} (h : Free (es.set i e') x) : Free es x := by
  obtain ⟨e, he, hnull⟩ := h
  by_cases hx : i = x
  · subst hx
    rw [List.getElem?_set_self'] at he
    obtain ⟨_, _, rfl⟩ := Option.map_eq_some_iff.mp he
    simp [he'] at hnull
  · rw [List.getElem?_set_ne hx] at he
    exact ⟨e, he, hnull⟩

theorem Placed.put {hash : α → BitVec 32} {n : Nat} {es : List (HashEntry α)} {p : α} {k : Nat}
    {stop : Nat → Prop} (h : Placed hash n es) (hk : k < n)
    (hstop : FirstStop stop n ((hash p).toNat % n) k) (hsub : ∀ x < n, Free es x → stop x) :
    Placed hash n (es.set (walk n ((hash p).toNat % n) k) ⟨hash p, .item p⟩) := by
  -- no slot has become empty, so a walk that passed still passes
  have hfree : ∀ x < n, Free (es.set (walk n ((hash p).toNat % n) k) ⟨hash p, .item p⟩) x →
      Free es x := fun x _ hx => free_of_free_set rfl hx
  have hcase : ∀ (i : Nat) (e : HashEntry α) (q : α),
      (es.set (walk n ((hash p).toNat % n) k) ⟨hash p, .item p⟩)[i]? = some e →
      e.data = .item q → (i = walk n ((hash p).toNat % n) k ∧ e = ⟨hash p, .item p⟩ ∧ q = p) ∨
        es[i]? = some e := by
    intro i e q he hq
    by_cases hi : walk n ((hash p).toNat % n) k = i
    · left
      rw [← hi, List.getElem?_set_self (by rw [h.length]; exact walk_lt (by omega) _ _)] at he
      cases he
      cases hq
      exact ⟨hi.symm, rfl, rfl⟩
    · right
      rwa [List.getElem?_set_ne hi] at he
  constructor
  · rw [List.length_set, h.length]
  · intro i e q he hq
    rcases hcase i e q he hq with ⟨-, rfl, rfl⟩ | hold
    · rfl
    · exact h.hashed i e q hold hq
  · intro i e q he hq
    rcases hcase i e q he hq with ⟨rfl, -, rfl⟩ | hold
    · exact (hstop.reached hk hsub).mono hfree
    · exact (h.reached i e q hold hq).mono hfree

theorem Placed.bury {hash : α → BitVec 32} {n : Nat} {es : List (HashEntry α)}
    (h : Placed hash n es) {i : Nat} {e : HashEntry α} :
    Placed hash n (es.set i { e with data := .tombstone }) := by
  -- a tombstone is not empty: walks go on over it
  have hfree : ∀ x < n, Free (es.set i { e with data := .tombstone }) x → Free es x :=
    fun x _ hx => free_of_free_set rfl hx
  have hcase : ∀ (j : Nat) (e' : HashEntry α) (q : α),
      (es.set i { e with data := .tombstone })[j]? = some e' → e'.data = .item q →
        es[j]? = some e' := by
    intro j e' q he' hq
    by_cases hj : i = j
    · subst hj
      rw [List.getElem?_set_self'] at he'
      obtain ⟨_, _, rfl⟩ := Option.map_eq_some_iff.mp he'
      cases hq
    · rwa [List.getElem?_set_ne hj] at he'
  constructor
  · rw [List.length_set, h.length]
  · intro j e' q he' hq
    exact h.hashed j e' q (hcase j e' q he' hq) hq
  · intro j e' q he' hq
    exact (h.reached j e' q (hcase j e' q he' hq) hq).mono hfree

/-! ## The searches -/

/-- The mask of a table whose size is a power of two. -/
theorem slotOf_eq_mod (h : BitVec 32) {k : Nat} (hk : k < 32) :
    slotOf h ((2 ^ k : Nat) : Int) = h.toNat % 2 ^ k := by
  have hpos : 0 < 2 ^ k := Nat.two_pow_pos k
  have hlt : 2 ^ k < 2 ^ 32 := Nat.pow_lt_pow_right (by omega) hk
  have hcast : ((2 ^ k : Nat) : Int) - 1 = ((2 ^ k - 1 : Nat) : Int) := by omega
  rw [slotOf, hcast, BitVec.ofInt_natCast, BitVec.toNat_and, BitVec.toNat_ofNat,
    Nat.mod_eq_of_lt (show 2 ^ k - 1 < 2 ^ 32 by omega), Nat.and_two_pow_sub_one_eq_mod]

theorem getElem?_of_not_stops {found : HashEntry α → Bool} {es : List (HashEntry α)} {i : Nat}
    (hi : i < es.length) (h : ¬ Stops found es i) :
    ∃ e, es[i]? = some e ∧ e.data.isNull = false ∧ found e = false := by
  refine ⟨es[i], List.getElem?_eq_getElem hi, ?_, ?_⟩
  · by_contra hnull
    exact h ⟨es[i], List.getElem?_eq_getElem hi, .inl (by simpa using hnull)⟩
  · by_contra hfound
    exact h ⟨es[i], List.getElem?_eq_getElem hi, .inr (by simpa using hfound)⟩

/-- The loop ends at the first slot where it can stop. -/
theorem search_eq_at {found : HashEntry α → Bool} {t : HashTable α} {n : Nat}
    (hlen : t.pEntries.length = n) (hsize : t.tableSize = n) :
    ∀ {fuel i k : Nat}, i < n → k < fuel → (n = 1 → k = 0) →
      FirstStop (Stops found t.pEntries) n i k → search found t fuel i = some (.at (walk n i k)) := by
  intro fuel
  induction fuel with
  | zero => intro i k _ hk; omega
  | succ fuel ih =>
    intro i k hi hk hone hstop
    cases k with
    | zero =>
      have hstops := hstop.stops
      rw [walk_zero hi] at hstops ⊢
      obtain ⟨e, he, hor⟩ := hstops
      unfold search
      rw [he]
      rcases hor with hnull | hfound
      · simp [hnull]
      · simp [hfound]
    | succ k =>
      have hpass := hstop.passes 0 (by omega)
      rw [walk_zero hi] at hpass
      obtain ⟨e, he, hnull, hfound⟩ := getElem?_of_not_stops (hlen ▸ hi) hpass
      -- in a table of one slot the loop would break here
      have hn : n ≠ 1 := fun h => by have := hone h; omega
      have hnext : search found t fuel (walk n i 1) = some (.at (walk n (walk n i 1) k)) :=
        ih (walk_lt (by omega) i 1) (by omega) (fun h => absurd h hn) hstop.tail
      rw [walk_succ, ← hnext, walk_one hi, search]
      simp only [he, hnull, hfound, hsize, Bool.false_eq_true, if_false]
      -- the index goes round at the end of the array
      by_cases hend : i + 1 = n
      · rw [if_pos (by exact_mod_cast hend), if_neg (by exact_mod_cast hn), if_pos hend]
      · rw [if_neg (by exact_mod_cast hend), if_neg hend]

/-- A single slot that is empty ends every search before the break. -/
theorem search_ne_pastEnd {found : HashEntry α → Bool} {t : HashTable α} {n : Nat}
    (hlen : t.pEntries.length = n) (hsize : t.tableSize = n) (hone : n = 1 → Free t.pEntries 0) :
    ∀ fuel i : Nat, search found t fuel i ≠ some .pastEnd := by
  intro fuel
  induction fuel with
  | zero => intro i; simp [search]
  | succ fuel ih =>
    intro i
    unfold search
    cases he : t.pEntries[i]? with
    | none => simp
    | some e =>
      by_cases hn : n = 1
      · have hi : i = 0 := by
          have := (List.getElem?_eq_some_iff.mp he).1
          omega
        obtain ⟨e', he', hnull⟩ := hone hn
        rw [hi, he'] at he
        cases he
        simp [hnull]
      · have hsize' : t.tableSize ≠ 1 := by rw [hsize]; exact_mod_cast hn
        simp only [if_neg hsize']
        split
        · simp
        · split
          · simp
          · split
            · exact ih 0
            · exact ih (i + 1)

/-- The inner loop of a resize ends at the first empty slot. -/
theorem freeSlot_eq {es : List (HashEntry α)} {m : Nat} (hm : m < 32)
    (hlen : es.length = 2 ^ m) :
    ∀ {fuel i k : Nat}, i < 2 ^ m → k < fuel → FirstStop (Free es) (2 ^ m) i k →
      freeSlot es ((2 ^ m : Nat) : Int) fuel i = some (walk (2 ^ m) i k) := by
  have hlt : 2 ^ m < 2 ^ 32 := Nat.pow_lt_pow_right (by omega) hm
  intro fuel
  induction fuel with
  | zero => intro i k _ hk; omega
  | succ fuel ih =>
    intro i k hi hk hstop
    cases k with
    | zero =>
      have hstops := hstop.stops
      rw [walk_zero hi] at hstops ⊢
      obtain ⟨e, he, hnull⟩ := hstops
      simp [freeSlot, he, hnull]
    | succ k =>
      have hpass := hstop.passes 0 (by omega)
      rw [walk_zero hi] at hpass
      have he : es[i]? = some es[i] := List.getElem?_eq_getElem (hlen ▸ hi)
      have hnull : es[i].data.isNull = false := by
        by_contra hne
        exact hpass ⟨es[i], he, by simpa using hne⟩
      -- masking the next index is going round
      have hstep : slotOf (BitVec.ofNat 32 (i + 1)) ((2 ^ m : Nat) : Int) = walk (2 ^ m) i 1 := by
        rw [slotOf_eq_mod _ hm, BitVec.toNat_ofNat, Nat.mod_eq_of_lt (show i + 1 < 2 ^ 32 by omega),
          walk]
      rw [walk_succ, ← ih (walk_lt (Nat.two_pow_pos m) i 1) (by omega) hstop.tail, ← hstep]
      simp [freeSlot, he, hnull]

/-- The outer loop of a resize moves every item. -/
theorem moveEntries_spec {hash : α → BitVec 32} {m : Nat} (hm : m < 32) :
    ∀ (old new : List (HashEntry α)),
      (∀ e ∈ old, ∀ p, e.data = .item p → e.hashValue = hash p) → Placed hash (2 ^ m) new →
      tombstones new = 0 → (liveItems old).length + (liveItems new).length < 2 ^ m →
      ∃ new', moveEntries ((2 ^ m : Nat) : Int) old new = some new' ∧ Placed hash (2 ^ m) new' ∧
        tombstones new' = 0 ∧ (liveItems new').Perm (liveItems old ++ liveItems new) := by
  intro old
  induction old with
  | nil => intro new _ hnew htomb _; exact ⟨new, rfl, hnew, htomb, .refl _⟩
  | cons e old ih =>
    intro new hhash hnew htomb hroom
    have hhash' : ∀ e' ∈ old, ∀ p, e'.data = .item p → e'.hashValue = hash p :=
      fun e' he' => hhash e' (List.mem_cons_of_mem e he')
    cases hd : e.data with
    | null =>
      simp only [liveItems, List.filterMap_cons, hd, Data.item?_null] at hroom ⊢
      obtain ⟨new', hmove, hrest⟩ := ih new hhash' hnew htomb hroom
      exact ⟨new', by simpa [moveEntries, hd] using hmove, hrest⟩
    | tombstone =>
      simp only [liveItems, List.filterMap_cons, hd, Data.item?_tombstone] at hroom ⊢
      obtain ⟨new', hmove, hrest⟩ := ih new hhash' hnew htomb hroom
      exact ⟨new', by simpa [moveEntries, hd] using hmove, hrest⟩
    | item p =>
      have hp : e.hashValue = hash p := hhash e (List.mem_cons_self ..) p hd
      have hlive : liveItems (e :: old) = p :: liveItems old := by
        simp [liveItems, hd]
      rw [hlive, List.length_cons] at hroom
      -- the new array has an empty slot, so the inner loop ends
      obtain ⟨z, hz, hfree⟩ := @exists_free _ new (by rw [htomb, hnew.length]; omega)
      have hstart : (hash p).toNat % 2 ^ m < 2 ^ m := Nat.mod_lt _ (Nat.two_pow_pos m)
      obtain ⟨k, hk, hstop⟩ := exists_firstStop hstart (hnew.length ▸ hz) hfree
      have hslot : freeSlot new ((2 ^ m : Nat) : Int) (new.length + 1)
          (slotOf e.hashValue ((2 ^ m : Nat) : Int)) =
          some (walk (2 ^ m) ((hash p).toNat % 2 ^ m) k) := by
        rw [hp, slotOf_eq_mod _ hm]
        exact freeSlot_eq hm hnew.length hstart (by rw [hnew.length]; omega) hstop
      have hperm := liveItems_put hstop.stops (hash p) p
      obtain ⟨new', hmove, hplaced, htomb', hperm'⟩ :=
        ih _ hhash' (hnew.put hk hstop fun _ _ h => h)
          ((tombstones_put hstop.stops (hash p) p).trans htomb) (by
            have := hperm.length_eq
            rw [List.length_cons] at this
            omega)
      refine ⟨new', ?_, hplaced, htomb', ?_⟩
      · unfold moveEntries
        simp only [hd, hslot]
        rw [hp]
        exact hmove
      · rw [hlive]
        exact hperm'.trans ((hperm.append_left _).trans List.perm_middle)

end OpenRecovery.Minzip
