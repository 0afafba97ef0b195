import OpenRecovery.Minzip.HashMap
import OpenRecovery.Minzip.Sorting

/-!
# Looking up entries

The hash table of the archive holds a pointer to one entry of each name. It is filled with
`hashcmpZipEntry` and searched with `hashcmpZipName`; both compare names, so for the items that are
in the table they are the same comparison (`compareAt`), and what is known of the table
(`Represents`) can be used. A lookup that does not add leaves the table as it is.
-/

set_option autoImplicit false

namespace OpenRecovery.Minzip

open OpenRecovery.Storage
open OpenRecovery.ApplyPatch (Decode)

/-! ## Comparing names -/

/-- Bytes of one length are equal when `memcmp` finds no difference. -/
theorem memcmp_eq_zero {a b : Bytes} (h : a.length = b.length) : memcmp a b = 0 ↔ a = b := by
  induction a generalizing b with
  | nil =>
      rw [List.length_nil] at h
      simp [memcmp, List.length_eq_zero_iff.mp h.symm]
  | cons x a ih =>
      obtain ⟨y, b, rfl⟩ := List.exists_cons_of_length_eq_add_one h.symm
      rw [memcmp]
      by_cases hxy : x = y
      · simp [hxy, ih (by simpa using h)]
      · have hne : (x.toNat : Int) - y.toNat ≠ 0 := by
          intro hzero
          exact hxy (UInt8.toNat_inj.mp (by omega))
        simp [hxy, hne]

/-- Names are equal when neither length nor bytes differ. -/
theorem compareNames_eq_zero {a b : Bytes} : compareNames a b = 0 ↔ a = b := by
  rw [compareNames]
  by_cases h : a.length = b.length
  · rw [if_neg (not_not_intro h), memcmp_eq_zero h]
  · rw [if_pos h]
    constructor
    · omega
    · rintro rfl
      exact absurd rfl h

/-- The name behind a pointer of either kind. -/
def nameAt (slots : Slots) : ZipPtr → Bytes
  | .entry i => entryName slots (.entry i)
  | .name str => str

/-- Both comparisons in one. -/
def compareAt (slots : Slots) (p item : ZipPtr) : Int :=
  compareNames (nameAt slots p) (nameAt slots item)

/-- The hash of the name. -/
def hashAt (slots : Slots) (p : ZipPtr) : BitVec 32 := computeHash (nameAt slots p)

/-- The comparison of the table is that of the names. -/
theorem compares_compareAt (slots : Slots) : Compares (hashAt slots) (compareAt slots) := by
  constructor
  · constructor
    · exact fun a => compareNames_eq_zero.mpr rfl
    · exact fun h => compareNames_eq_zero.mpr (compareNames_eq_zero.mp h).symm
    · exact fun h h' =>
        compareNames_eq_zero.mpr ((compareNames_eq_zero.mp h).trans (compareNames_eq_zero.mp h'))
  · intro a b h
    rw [hashAt, hashAt, compareNames_eq_zero.mp h]

/-! ## Lookups -/

section Lookups

variable {α : Type}

/-- A search depends on the entries of the table only. -/
theorem search_congr {found found' : HashEntry α → Bool} {t : HashTable α}
    (h : ∀ e ∈ t.pEntries, found e = found' e) (fuel i : Nat) :
    search found t fuel i = search found' t fuel i := by
  induction fuel generalizing i with
  | zero => rfl
  | succ fuel ih =>
      rw [search, search]
      cases he : t.pEntries[i]? with
      | none => rfl
      | some e => simp only [h e (List.mem_of_getElem? he), ih]

/-- Only the comparisons with the items of the table count. -/
theorem lookup_congr {calloc : Nat → Nat → Bool} {t : HashTable α} {cmpFunc cmpFunc' : α → α → Int}
    {item : α} (h : ∀ p ∈ liveItems t.pEntries, cmpFunc p item = cmpFunc' p item)
    (itemHash : BitVec 32) (doAdd : Bool) :
    mzHashTableLookup calloc t itemHash item cmpFunc doAdd =
      mzHashTableLookup calloc t itemHash item cmpFunc' doAdd := by
  have hfound : ∀ e ∈ t.pEntries,
      matches? itemHash item cmpFunc e = matches? itemHash item cmpFunc' e := by
    intro e he
    rw [matches?, matches?]
    cases hd : e.data with
    | null => rfl
    | tombstone => rfl
    | item p =>
        obtain ⟨i, hi⟩ := List.getElem?_of_mem he
        simp only [h p (mem_liveItems.mpr ⟨i, e, hi, hd⟩)]
  rw [mzHashTableLookup, mzHashTableLookup, search_congr hfound]

/-- A lookup that does not add needs no memory and leaves the table as it is. -/
theorem lookup_unchanged {calloc : Nat → Nat → Bool} {t : HashTable α} {cmpFunc : α → α → Int}
    {item : α} {itemHash : BitVec 32} {o : Outcome (HashTable α × Data α)}
    (h : mzHashTableLookup calloc t itemHash item cmpFunc false = o) :
    o ≠ .aborted ∧ ∀ r, o = .returned r → r.1 = t := by
  rw [mzHashTableLookup] at h
  simp only [Bool.false_eq_true, if_false] at h
  split at h
  · simp [← h]
  · split at h
    · simp [← h]
    · simp [← h]
    · split at h
      · simp [← h]
      · split at h
        · simp [← h]
        · simp [← h]

end Lookups

/-! ## Filling the table -/

/-- The table holds pointers to the first `i` entries, and one for every name among them. -/
structure Holds (slots : Slots) (i : Nat) (t : HashTable ZipPtr) (S : Finset ZipPtr) : Prop
    extends Represents (hashAt slots) (compareAt slots) t S where
  entries : ∀ p ∈ S, ∃ j < i, p = .entry j
  names : ∀ j < i, ∃ p ∈ S, nameAt slots p = nameAt slots (.entry j)

section Filling

variable {calloc : Nat → Nat → Bool} {slots : Slots}

/-- In the table there are only entries, for which the comparisons agree. -/
theorem Holds.liveEntry {i : Nat} {t : HashTable ZipPtr} {S : Finset ZipPtr} (h : Holds slots i t S)
    {p : ZipPtr} (hp : p ∈ liveItems t.pEntries) : ∃ j < i, p = .entry j :=
  h.entries p (h.mem_iff.mp hp)

/-- Adding an entry. A refused resize aborts. -/
theorem addEntry_spec (hcalloc : ∀ n size, calloc n size = true → n * size < 2 ^ 32) {i : Nat}
    {t : HashTable ZipPtr} {S : Finset ZipPtr} (h : Holds slots i t S) :
    (addEntryToHashTable calloc slots t i).Ends (∃ n, calloc n sizeofHashTable = false) fun t' =>
      ∃ S', Holds slots (i + 1) t' S' := by
  have hcongr : ∀ p ∈ liveItems t.pEntries,
      hashcmpZipEntry slots p (.entry i) = compareAt slots p (.entry i) := by
    intro p hp
    obtain ⟨j, -, rfl⟩ := h.liveEntry hp
    rfl
  rw [addEntryToHashTable, lookup_congr hcongr]
  have hlookup := (h.lookup hcalloc (compares_compareAt slots) (.entry i) true).mono
    fun ⟨_, _, _, _, hroom⟩ => (⟨_, hroom⟩ : ∃ n, calloc n sizeofHashTable = false)
  refine hlookup.bind fun r _ hr => ?_
  obtain ⟨S', hstep, hrep, -⟩ := hr
  generalize r.2 = d at hstep
  cases hstep with
  | @found x _ _ hx heq =>
      -- a duplicate: the entry that is in the table already stands for both
      refine ⟨S, hrep, ?_, ?_⟩
      · intro p hp
        obtain ⟨j, hj, rfl⟩ := h.entries p hp
        exact ⟨j, by omega, rfl⟩
      · intro j hj
        rcases Nat.lt_succ_iff_lt_or_eq.mp hj with hj | rfl
        · exact h.names j hj
        · exact ⟨x, hx, compareNames_eq_zero.mp heq⟩
  | added hnew =>
      refine ⟨_, hrep, ?_, ?_⟩
      · intro p hp
        rcases Finset.mem_insert.mp hp with rfl | hp
        · exact ⟨i, by omega, rfl⟩
        · obtain ⟨j, hj, rfl⟩ := h.entries p hp
          exact ⟨j, by omega, rfl⟩
      · intro j hj
        rcases Nat.lt_succ_iff_lt_or_eq.mp hj with hj | rfl
        · obtain ⟨p, hp, hname⟩ := h.names j hj
          exact ⟨p, Finset.mem_insert_of_mem hp, hname⟩
        · exact ⟨_, Finset.mem_insert_self _ _, rfl⟩

/-- The loop that adds all entries. Induction on their number. -/
theorem fillTable_spec (hcalloc : ∀ n size, calloc n size = true → n * size < 2 ^ 32) {n i : Nat}
    {t : HashTable ZipPtr} {S : Finset ZipPtr} (h : Holds slots i t S) :
    (fillTable calloc slots n i t).Ends (∃ n, calloc n sizeofHashTable = false) fun t' =>
      ∃ S', Holds slots (i + n) t' S' := by
  induction n generalizing i t S with
  | zero => exact ⟨S, h⟩
  | succ n ih =>
      refine (addEntry_spec hcalloc h).bind fun t' _ ht' => ?_
      obtain ⟨S', h'⟩ := ht'
      have hrest := ih h'
      rwa [Nat.add_right_comm] at hrest

/-- A new table holds nothing. -/
theorem holds_new {t : HashTable ZipPtr}
    (h : Represents (hashAt slots) (compareAt slots) t ∅) : Holds slots 0 t ∅ :=
  ⟨h, by simp, by simp⟩

end Filling

/-! ## `mzFindZipEntry` -/

/-- A lookup in a table of `n` entries. -/
theorem find_spec {calloc : Nat → Nat → Bool}
    (hcalloc : ∀ n size, calloc n size = true → n * size < 2 ^ 32) {archive : ZipArchive} {n : Nat}
    {S : Finset ZipPtr} (h : Holds archive.pEntries n archive.pHash S) (name : Bytes) :
    (∃ i < n, mzFindZipEntry calloc archive name = .returned (archive.pHash, .item (.entry i)) ∧
        entryName archive.pEntries (.entry i) = name) ∨
      mzFindZipEntry calloc archive name = .returned (archive.pHash, .null) ∧
        ∀ i < n, entryName archive.pEntries (.entry i) ≠ name := by
  have hcongr : ∀ p ∈ liveItems archive.pHash.pEntries,
      hashcmpZipName archive.pEntries p (.name name) =
        compareAt archive.pEntries p (.name name) := by
    intro p hp
    obtain ⟨j, -, rfl⟩ := h.liveEntry hp
    rfl
  rw [mzFindZipEntry, lookup_congr hcongr]
  have hlookup := h.lookup hcalloc (compares_compareAt archive.pEntries) (.name name) false
  rw [hashAt, nameAt] at hlookup
  cases hrun : mzHashTableLookup calloc archive.pHash (computeHash name) (.name name)
      (compareAt archive.pEntries) false with
  | aborted => exact absurd rfl (lookup_unchanged hrun).1
  | asserted => simp [hrun, Outcome.Ends] at hlookup
  | undefined => simp [hrun, Outcome.Ends] at hlookup
  | returned r =>
      rw [hrun] at hlookup
      obtain ⟨S', hstep, -⟩ := hlookup
      have hsame := (lookup_unchanged hrun).2 r rfl
      obtain ⟨t, d⟩ := r
      obtain rfl : t = archive.pHash := hsame
      cases hstep with
      | @found x _ _ hx heq =>
          obtain ⟨i, hi, rfl⟩ := h.entries x hx
          exact .inl ⟨i, hi, rfl, compareNames_eq_zero.mp heq⟩
      | missing hnone =>
          refine .inr ⟨rfl, ?_⟩
          intro i hi heq
          obtain ⟨p, hp, hname⟩ := h.names i hi
          exact hnone p hp (compareNames_eq_zero.mpr (hname.trans heq))

/-! ## The archive that was parsed -/

/-- Two bytes are below 65536. -/
theorem get2LE_lt {map : MemMapping} {ptr n : Nat} (h : map.get2LE ptr = some n) : n < 65536 := by
  obtain ⟨b, hb, rfl⟩ := Option.map_eq_some_iff.mp h
  have hlt := leNat_lt (a := b)
  rwa [slice_length hb] at hlt

/-- Four bytes are below `2 ^ 32`. -/
theorem get4LE_lt {map : MemMapping} {ptr n : Nat} (h : map.get4LE ptr = some n) : n < 2 ^ 32 := by
  obtain ⟨b, hb, rfl⟩ := Option.map_eq_some_iff.mp h
  have hlt := leNat_lt (a := b)
  rwa [slice_length hb] at hlt

/-- A directory that is accepted has between 1 and 65535 entries. -/
theorem parseDirectory_ok {map : MemMapping} {n off : Nat} (h : parseDirectory map = .ok (n, off)) :
    0 < n ∧ n < 65536 := by
  rw [parseDirectory] at h
  obtain ⟨val, -, h⟩ := Decode.ok_of_bind h
  split at h
  · cases h
  · obtain ⟨ptr, -, h⟩ := Decode.ok_of_bind h
    obtain ⟨numEntries, hn, h⟩ := Decode.ok_of_bind h
    obtain ⟨cdOffset, -, h⟩ := Decode.ok_of_bind h
    split at h
    · cases h
    · rename_i hvalid
      cases h
      exact ⟨by omega, get2LE_lt (Decode.some_of_ofAccess hn)⟩

/-- The size that is asked for does not overflow. -/
theorem mzHashSize_toNat {n : Nat} (h : n < 65536) :
    (mzHashSize (BitVec.ofNat 32 n)).toNat = n * 8 / 5 + 1 := by
  have hsize : n * 8 < 4294967296 := by omega
  have hsum : n * 8 / 5 + 1 < 4294967296 := by omega
  have hn : n < 4294967296 := by omega
  simp [mzHashSize, LOAD_NUMER, LOAD_DENOM, Nat.mod_eq_of_lt hn, Nat.mod_eq_of_lt hsize,
    Nat.mod_eq_of_lt hsum]

/-- What becomes of the archive: the assertions hold, only a read outside the map goes wrong, and
an archive that was accepted has the sorted entries and a table that holds them. -/
def Parsed (iop : SafeIop) (map : MemMapping) : Outcome (Option ZipArchive) → Prop
  | .returned none => True
  | .returned (some archive) => ∃ n off entries S, parseDirectory map = .ok (n, off) ∧
      parseEntries iop map n (map.addr + off) [] = .ok entries ∧
      archive.pEntries = entries.map some ∧ Holds archive.pEntries n archive.pHash S
  | .aborted => True
  | .asserted => False
  | .undefined => parseZipArchive iop map = .fault

/-- An archive that is parsed has the names of its entries in the table. -/
theorem parseArchive_spec (iop : SafeIop) {calloc : Nat → Nat → Bool}
    (hcalloc : ∀ n size, calloc n size = true → n * size < 2 ^ 32) (map : MemMapping) :
    Parsed iop map (parseArchive iop calloc map) := by
  rw [parseArchive]
  cases hdir : parseDirectory map with
  | failed => trivial
  | fault =>
      show parseZipArchive iop map = .fault
      rw [parseZipArchive_eq, hdir]
      rfl
  | hang => exact absurd hdir (parseDirectory_halts map)
  | ok d =>
      obtain ⟨n, off⟩ := d
      obtain ⟨hpos, hsmall⟩ := parseDirectory_ok hdir
      have hsize := mzHashSize_toNat hsmall
      obtain ⟨table, hcreate, -⟩ := represents_create hcalloc (hashAt []) (compareAt [])
        (show 1 ≤ (mzHashSize (BitVec.ofNat 32 n)).toNat by omega) (by omega) false
      simp only [Outcome.ofDecode, Outcome.orBail, Outcome.bind, hcreate]
      split
      · rename_i table _
        rw [fillEntries_start iop map _ (Nat.le_refl n) (by omega), Nat.sub_self]
        cases hparse : parseEntries iop map n (map.addr + off) [] with
        | failed => trivial
        | fault =>
            show parseZipArchive iop map = .fault
            rw [parseZipArchive_eq, hdir]
            exact hparse
        | hang => exact absurd hparse (parseEntries_halts _ _ _ _ _)
        | ok entries =>
            simp only [Decode.ok_bind, Outcome.ofDecode, List.replicate_zero, List.append_nil]
            obtain ⟨r, hr, hrep⟩ := represents_create hcalloc (hashAt (entries.map some))
              (compareAt (entries.map some))
              (show 1 ≤ (mzHashSize (BitVec.ofNat 32 n)).toNat by omega) (by omega) false
            have htable : Represents (hashAt (entries.map some)) (compareAt (entries.map some)) table ∅ :=
              hrep table (Outcome.returned.inj (hr.symm.trans hcreate))
            have hends := fillTable_spec hcalloc (n := n) (holds_new htable)
            cases hrun : fillTable calloc (entries.map some) n 0 table with
            | aborted => trivial
            | asserted => simp [hrun, Outcome.Ends] at hends
            | undefined => simp [hrun, Outcome.Ends] at hends
            | returned t =>
                rw [hrun, Nat.zero_add] at hends
                obtain ⟨S, hholds⟩ := hends
                exact ⟨n, off, entries, S, hdir, hparse, rfl, hholds⟩
      · trivial

end OpenRecovery.Minzip
