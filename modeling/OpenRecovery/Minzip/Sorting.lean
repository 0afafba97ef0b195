import OpenRecovery.Minzip.Archive

/-!
# The entries are sorted

`nameDiff` says on which side of a name another one belongs in the lexicographic order, where a
proper prefix comes first (`nameDiff_neg_iff`). So a name finds its place among sorted entries, room
is made there and nowhere else, and the array stays sorted: `fillEntries` does to the slots what
`parseEntries` does to a list (`fillEntries_eq`). `Records` are the records that the loop has come
through; the entries are those records in another order.
-/

set_option autoImplicit false

namespace OpenRecovery.Minzip

open OpenRecovery.Storage
open OpenRecovery.ApplyPatch (Decode)

/-! ## The order of the names -/

/-- The first byte decides, or the rest. -/
theorem nameDiff_cons (a b : UInt8) (as bs : Bytes) :
    nameDiff (a :: as) (b :: bs) =
      if a = b then nameDiff as bs else (a.toNat : Int) - b.toNat := by
  by_cases h : a = b
  · simp [nameDiff, strncmp, h]
  · have hne : (a.toNat : Int) - b.toNat ≠ 0 := by
      intro hzero
      exact h (UInt8.toNat_inj.mp (by omega))
    simp [nameDiff, strncmp, h, hne]

/-- The sign of `strncmp` is the order of the names. -/
theorem nameDiff_neg_iff {a b : Bytes} : nameDiff a b < 0 ↔ a < b := by
  induction a generalizing b with
  | nil =>
      cases b with
      | nil => simp [nameDiff, strncmp]
      | cons y b =>
          simp [nameDiff, strncmp]
          omega
  | cons x a ih =>
      cases b with
      | nil =>
          simp [nameDiff, strncmp]
          omega
      | cons y b =>
          rw [nameDiff_cons, List.cons_lt_cons_iff]
          by_cases h : x = y
          · simp [h, ih]
          · rw [if_neg h, UInt8.lt_iff_toNat_lt]
            simp only [h, false_and, or_false]
            omega

/-- The comparison the other way round. -/
theorem nameDiff_neg (a b : Bytes) : nameDiff b a = - nameDiff a b := by
  induction a generalizing b with
  | nil => cases b <;> simp [nameDiff, strncmp]
  | cons x a ih =>
      cases b with
      | nil => simp [nameDiff, strncmp]
      | cons y b =>
          rw [nameDiff_cons, nameDiff_cons]
          by_cases h : x = y
          · simp [h, ih]
          · rw [if_neg h, if_neg (Ne.symm h)]
            omega

/-- A positive sign is the order the other way round. -/
theorem nameDiff_pos_iff {a b : Bytes} : 0 < nameDiff a b ↔ b < a := by
  rw [← nameDiff_neg_iff, nameDiff_neg a b]
  omega

/-- Sorted by name. -/
def Sorted (entries : List ZipEntry) : Prop := entries.Pairwise fun a b => a.fileName ≤ b.fileName

/-- The sign is monotone. -/
theorem sign_le_sign {x y : Int} (hpos : 0 < x → 0 < y) (hneg : y < 0 → x < 0) :
    x.sign ≤ y.sign := by
  rcases lt_trichotomy y 0 with hy | hy | hy
  · rw [Int.sign_eq_neg_one_of_neg (hneg hy), Int.sign_eq_neg_one_of_neg hy]
  · rw [hy, Int.sign_zero, Int.sign_nonpos_iff]
    omega
  · rw [Int.sign_eq_one_of_pos hy]
    rcases Int.sign_trichotomy x with hx | hx | hx <;> omega

/-- The sides of a name ascend. -/
theorem Sorted.ascending {entries : List ZipEntry} (h : Sorted entries) (fileName : Bytes) :
    Ascending (fun e : ZipEntry => nameDiff e.fileName fileName) entries := by
  apply List.Pairwise.imp _ h
  intro a b hab
  apply sign_le_sign
  · intro ha
    rw [nameDiff_pos_iff] at ha ⊢
    by_contra hb
    exact hab (List.lt_of_le_of_lt hb ha)
  · intro hb
    rw [nameDiff_neg_iff] at hb ⊢
    exact List.lt_of_le_of_lt hab hb

/-! ## The place of an entry -/

/-- The search of `parseEntries` gives the same place. -/
theorem searchPlace_eq {entries : List ZipEntry} {fileName : Bytes} (rest : Slots) {fuel : Nat}
    {low high place : Int} (hlow : 0 ≤ low) (hhigh : high < entries.length)
    (h : binarySearch (fun e : ZipEntry => nameDiff e.fileName fileName)
      (entries.map some ++ rest) fuel low high = some place) :
    searchPlace entries fileName fuel low high = place := by
  induction fuel generalizing low high with
  | zero => cases h
  | succ fuel ih =>
      rw [binarySearch] at h
      rw [searchPlace]
      by_cases hc : low ≤ high
      · rw [if_pos hc] at h ⊢
        obtain ⟨mid, hmid⟩ : ∃ mid : Nat, low + (high - low) / 2 = (mid : Int) :=
          ⟨(low + (high - low) / 2).toNat, by omega⟩
        have hlt : mid < entries.length := by omega
        simp only [hmid, slotAt_map rest hlt, Option.bind_eq_bind, Option.bind_some] at h
        simp only [hmid, Int.toNat_natCast, List.getElem?_eq_getElem hlt]
        split at h
        · rw [if_pos ‹_›]
          exact ih (by omega) hhigh h
        · rw [if_neg ‹_›]
          split at h
          · rw [if_pos ‹_›]
            exact ih hlow (by omega) h
          · rw [if_neg ‹_›]
            exact Option.some.inj h
      · rw [if_neg hc] at h ⊢
        exact Option.some.inj h

section Insertion

variable {entries : List ZipEntry} {fileName : Bytes}

/-- The place of a name divides the entries into those before it and those behind it. -/
theorem findPlace_spec (hs : Sorted entries) (hsmall : entries.length < 2 ^ 31) (rest : Slots)
    (fileName : Bytes) : ∃ l r, entries = l ++ r ∧
      findPlace (entries.map some ++ rest) entries.length fileName = .returned l.length ∧
      (∀ x ∈ l, x.fileName ≤ fileName) ∧ (∀ x ∈ r, fileName ≤ x.fileName) ∧
      ∀ e : ZipEntry, e.fileName = fileName → insertEntry entries e = l ++ e :: r := by
  have hsearch : ∃ place, binarySearch (fun e : ZipEntry => nameDiff e.fileName fileName)
      (entries.map some ++ rest) (entries.length + 1) 0 ((entries.length : Int) - 1) = some place ∧
        Place (fun e : ZipEntry => nameDiff e.fileName fileName) entries place := by
    apply search_eq (hs.ascending fileName) rest <;> try omega
    intro i hi x hx
    obtain ⟨hil, -⟩ := List.getElem?_eq_some_iff.mp hx
    omega
  obtain ⟨high, hsearch, hplace⟩ := hsearch
  -- the search in the slots finds what the one in the list finds
  have hsame := searchPlace_eq rest (Int.le_refl 0) (by omega) hsearch
  have hlower := hplace.lower
  have hupper := hplace.upper
  -- the index after the last smaller name, which is not negative
  obtain ⟨target, htarget⟩ : ∃ target : Nat, high + 1 = target := ⟨(high + 1).toNat, by omega⟩
  have hle : target ≤ entries.length := by omega
  refine ⟨entries.take target, entries.drop target, (List.take_append_drop ..).symm, ?_, ?_, ?_, ?_⟩
  · rw [List.length_take, Nat.min_eq_left hle, findPlace]
    by_cases hpos : 0 < entries.length
    · have hunsigned : (BitVec.ofInt 32 (high + 1)).toNat = target := by
        rw [htarget, BitVec.ofInt_natCast, BitVec.toNat_ofNat]
        omega
      rw [if_pos hpos, hsearch]
      simp only [hunsigned, if_pos hle]
    · rw [if_neg hpos]
      congr 1
      omega
  · intro x hx
    obtain ⟨i, hi, rfl⟩ := List.getElem_of_mem hx
    rw [List.length_take] at hi
    have hdiff := hplace.before i (by omega) entries[i] (by simp)
    rw [List.getElem_take]
    intro hlt
    have hpos := nameDiff_pos_iff.mpr hlt
    omega
  · intro x hx
    obtain ⟨i, hi, rfl⟩ := List.getElem_of_mem hx
    rw [List.length_drop] at hi
    have hdiff := hplace.after (target + i) (by omega) entries[target + i] (by simp)
    rw [List.getElem_drop]
    intro hlt
    have hneg := nameDiff_neg_iff.mpr hlt
    omega
  · intro e he
    have hinsert := insertIdx_append (entries.take target) (entries.drop target) e
    rw [List.take_append_drop, List.length_take, Nat.min_eq_left hle] at hinsert
    rw [insertEntry, he, hsame, htarget, Int.toNat_natCast, hinsert]

/-- Room is made at the place. -/
theorem makeRoom_spec (l r : List ZipEntry) (s : Option ZipEntry) (rest : Slots) :
    ∃ y, makeRoom ((l ++ r).map some ++ s :: rest) (l ++ r).length l.length =
      .returned (l.map some ++ y :: (r.map some ++ rest)) := by
  rw [makeRoom]
  by_cases hr : r = []
  · refine ⟨s, ?_⟩
    rw [hr, if_neg (by simp)]
    simp
  · have hne : l.length ≠ (l ++ r).length := by
      have hpos := List.length_pos_iff.mpr hr
      rw [List.length_append]
      omega
    obtain ⟨y, hy⟩ := memmove_eq (l.map some) (r.map some) rest s
    -- the entries of `r` move up by one slot
    have hcount : (l ++ r).length - l.length = r.length := by simp
    rw [List.length_map, List.length_map] at hy
    rw [if_pos hne, hcount, List.map_append, hy]
    exact ⟨y, rfl⟩

/-- The entry is written there. -/
theorem putEntry_spec (l r : List ZipEntry) (y : Option ZipEntry) (rest : Slots) (e : ZipEntry) :
    putEntry (l.map some ++ y :: (r.map some ++ rest)) l.length e =
      .returned (some ((l ++ e :: r).map some ++ rest)) := by
  rw [putEntry, if_pos (by simp)]
  congr 2
  rw [List.set_append_right _ _ (by simp)]
  simp

/-- An entry put at its place keeps the list sorted. -/
theorem sorted_insert {l r : List ZipEntry} {e : ZipEntry} (hs : Sorted (l ++ r))
    (hl : ∀ x ∈ l, x.fileName ≤ e.fileName) (hr : ∀ x ∈ r, e.fileName ≤ x.fileName) :
    Sorted (l ++ e :: r) := by
  obtain ⟨hsl, hsr, hlr⟩ := List.pairwise_append.mp hs
  refine List.pairwise_append.mpr ⟨hsl, List.pairwise_cons.mpr ⟨hr, hsr⟩, ?_⟩
  intro a ha b hb
  rcases List.mem_cons.mp hb with rfl | hb
  · exact hl a ha
  · exact hlr a ha b hb

end Insertion

/-! ## The loop -/

/-- The name of an entry is that of its record. -/
theorem fileName_of_parseTail {iop : SafeIop} {map : MemMapping} {ptr : Nat} {h : RecordHead}
    {e : ZipEntry} (he : parseTail iop map ptr h = .ok e) : e.fileName = h.fileName := by
  rw [parseTail] at he
  obtain ⟨compLen, -, he⟩ := Decode.ok_of_bind he
  obtain ⟨uncompLen, -, he⟩ := Decode.ok_of_bind he
  obtain ⟨compression, -, he⟩ := Decode.ok_of_bind he
  obtain ⟨modTime, -, he⟩ := Decode.ok_of_bind he
  obtain ⟨crc32, -, he⟩ := Decode.ok_of_bind he
  obtain ⟨versionMadeBy, -, he⟩ := Decode.ok_of_bind he
  split at he
  · cases he
  · obtain ⟨attributes, -, he⟩ := Decode.ok_of_bind he
    obtain ⟨offset, -, he⟩ := Decode.ok_of_bind he
    cases he
    rfl

/-- The records from `ptr` on, up to the place where the loop has come to. -/
inductive Records (iop : SafeIop) (map : MemMapping) : Nat → List ZipEntry → Nat → Prop where
  | nil (ptr : Nat) : Records iop map ptr [] ptr
  | cons {ptr next stop : Nat} {e : ZipEntry} {es : List ZipEntry}
      (h : parseEntry iop map ptr = .ok (e, next)) (rest : Records iop map next es stop) :
      Records iop map ptr (e :: es) stop

/-- Steps that may fail, one after the other. -/
theorem outcome_ofDecode_bind {α β : Type} (x : Decode α) (f : α → Decode β) :
    Outcome.ofDecode (x >>= f) = (Outcome.ofDecode x).orBail fun a => Outcome.ofDecode (f a) := by
  cases x <;> rfl

/-- The slots hold what the list holds: the searches end, the assertion holds, and `memmove` and the
new entry leave the others as they are. -/
theorem fillEntries_eq (iop : SafeIop) (map : MemMapping) {n : Nat} {entries : List ZipEntry}
    {ptr : Nat} {rest : Slots} (hs : Sorted entries) (hrest : n ≤ rest.length)
    (hsmall : entries.length + n < 2 ^ 31) :
    fillEntries iop map n entries.length ptr (entries.map some ++ rest) =
      Outcome.ofDecode (do
        let es ← parseEntries iop map n ptr entries
        .ok (es.map some ++ rest.drop n)) := by
  induction n generalizing entries ptr rest with
  | zero => rfl
  | succ n ih =>
      -- there is a slot behind the entries
      obtain ⟨s, rest, rfl⟩ := List.exists_cons_of_length_pos (show 0 < rest.length by omega)
      rw [fillEntries, parseEntries, parseEntry_eq]
      simp only [Decode.bind_assoc, Decode.ok_bind, outcome_ofDecode_bind]
      cases parseHead map ptr with
      | failed => rfl
      | fault => rfl
      | hang => rfl
      | ok h =>
          obtain ⟨l, r, hlr, hplace, hl, hr, hinsert⟩ :=
            findPlace_spec hs (by omega) (s :: rest) h.fileName
          have hroom := makeRoom_spec l r s rest
          rw [← hlr] at hroom
          obtain ⟨y, hroom⟩ := hroom
          -- the room is made before the rest of the record is read
          simp only [Outcome.ofDecode, Outcome.orBail, Outcome.bind, hplace, hroom]
          cases htail : parseTail iop map ptr h with
          | failed => rfl
          | fault => rfl
          | hang => rfl
          | ok e =>
              have hname := fileName_of_parseTail htail
              have hlength : entries.length + 1 = (l ++ e :: r).length := by
                rw [hlr]
                simp
                omega
              -- the place was found for the name of the record, which the entry keeps
              have hsorted : Sorted (l ++ e :: r) := by
                rw [← hname] at hl hr
                exact sorted_insert (hlr ▸ hs) hl hr
              have hnext : fillEntries iop map n (l ++ e :: r).length (h.next ptr)
                  ((l ++ e :: r).map some ++ rest) = _ :=
                ih hsorted (Nat.le_of_succ_le_succ hrest) (by omega)
              simp only [putEntry_spec, hinsert e hname]
              rw [hlength, hnext, outcome_ofDecode_bind, List.drop_succ_cons]
              rfl

/-- The first `i` records in an array of `n` slots. -/
theorem fillEntries_start (iop : SafeIop) (map : MemMapping) {i n : Nat} (ptr : Nat) (hi : i ≤ n)
    (hsmall : n < 2 ^ 31) :
    fillEntries iop map i 0 ptr (List.replicate n none) =
      Outcome.ofDecode (do
        let es ← parseEntries iop map i ptr []
        .ok (es.map some ++ List.replicate (n - i) none)) := by
  have hrest : i ≤ (List.replicate n (none : Option ZipEntry)).length := by
    rwa [List.length_replicate]
  have hfill : fillEntries iop map i ([] : List ZipEntry).length ptr
      (([] : List ZipEntry).map some ++ List.replicate n none) = _ :=
    fillEntries_eq iop map .nil hrest (by rw [List.length_nil]; omega)
  simpa only [List.map_nil, List.nil_append, List.length_nil, List.drop_replicate] using hfill

/-- A new entry is one more, and the entries stay sorted. -/
theorem insertEntry_spec {entries : List ZipEntry} (hs : Sorted entries)
    (hsmall : entries.length < 2 ^ 31) (e : ZipEntry) :
    (insertEntry entries e).Perm (e :: entries) ∧ Sorted (insertEntry entries e) := by
  obtain ⟨l, r, hlr, -, hl, hr, hinsert⟩ := findPlace_spec hs hsmall [] e.fileName
  rw [hinsert e rfl]
  constructor
  · rw [hlr]
    exact List.perm_middle
  · exact sorted_insert (hlr ▸ hs) hl hr

/-- So does every list of new entries. -/
theorem insertEntries_spec {entries : List ZipEntry} (records : List ZipEntry) (hs : Sorted entries)
    (hsmall : entries.length + records.length < 2 ^ 31) :
    (records.foldl insertEntry entries).Perm (records ++ entries) ∧
      Sorted (records.foldl insertEntry entries) := by
  induction records generalizing entries with
  | nil => exact ⟨.refl _, hs⟩
  | cons e records ih =>
      rw [List.length_cons] at hsmall
      obtain ⟨hperm, hsorted⟩ := insertEntry_spec hs (by omega) e
      have hlength : (insertEntry entries e).length = entries.length + 1 := hperm.length_eq
      obtain ⟨hrest, hrestSorted⟩ := ih hsorted (by omega)
      refine ⟨?_, hrestSorted⟩
      calc (records.foldl insertEntry (insertEntry entries e)).Perm
            (records ++ insertEntry entries e) := hrest
        _ |>.Perm (records ++ e :: entries) := hperm.append_left records
        _ |>.Perm (e :: records ++ entries) := List.perm_middle

/-- The loop inserts the records one after another. -/
theorem Records.parse {iop : SafeIop} {map : MemMapping} {ptr stop : Nat} {records : List ZipEntry}
    (h : Records iop map ptr records stop) (entries : List ZipEntry) :
    parseEntries iop map records.length ptr entries = .ok (records.foldl insertEntry entries) := by
  induction h generalizing entries with
  | nil ptr => rfl
  | cons he rest ih =>
      rw [List.length_cons, parseEntries, he]
      exact ih _

/-- The records that are parsed, one after the other, and their entries. -/
theorem records_of_parse {iop : SafeIop} {map : MemMapping} {n ptr : Nat}
    {entries es : List ZipEntry} (h : parseEntries iop map n ptr entries = .ok es) :
    ∃ records stop, Records iop map ptr records stop ∧ records.length = n ∧
      es = records.foldl insertEntry entries := by
  induction n generalizing entries ptr with
  | zero =>
      cases h
      exact ⟨[], ptr, .nil ptr, rfl, rfl⟩
  | succ n ih =>
      rw [parseEntries] at h
      obtain ⟨⟨e, next⟩, he, h⟩ := Decode.ok_of_bind h
      obtain ⟨records, stop, hrecords, hn, rfl⟩ := ih h
      exact ⟨e :: records, stop, .cons he hrecords, by simp [hn], rfl⟩

/-- The records up to one of them. -/
theorem Records.split {iop : SafeIop} {map : MemMapping} {ptr stop : Nat} {l r : List ZipEntry}
    (h : Records iop map ptr (l ++ r) stop) :
    ∃ mid, Records iop map ptr l mid ∧ Records iop map mid r stop := by
  induction l generalizing ptr with
  | nil => exact ⟨ptr, .nil ptr, h⟩
  | cons e l ih =>
      cases h with
      | cons he rest =>
          obtain ⟨mid, hl, hr⟩ := ih rest
          exact ⟨mid, .cons he hl, hr⟩

/-! ## Every loop ends -/

section Halts

variable {α β : Type}

/-- The computation ends. -/
def Halts (d : Decode α) : Prop := d ≠ .hang

theorem halts_ok (a : α) : Halts (.ok a) := nofun

theorem halts_failed : Halts (.failed : Decode α) := nofun

/-- Two steps, one after the other. -/
theorem Halts.bind {x : Decode α} {f : α → Decode β} (hx : Halts x) (hf : ∀ a, Halts (f a)) :
    Halts (x >>= f) := by
  cases x with
  | ok a => exact hf a
  | failed => exact nofun
  | fault => exact nofun
  | hang => exact absurd rfl hx

/-- A read, and what comes after it. -/
theorem halts_access {x : Option α} {f : α → Decode β} (hf : ∀ a, Halts (f a)) :
    Halts (Decode.ofAccess x >>= f) := by
  apply Halts.bind _ hf
  cases x <;> exact nofun

/-- Each branch. -/
theorem Halts.ite {p : Prop} [Decidable p] {x y : Decode α} (hx : Halts x) (hy : Halts y) :
    Halts (if p then x else y) := by
  split
  · exact hx
  · exact hy

end Halts

theorem parseHead_halts (map : MemMapping) (ptr : Nat) : Halts (parseHead map ptr) := by
  apply Halts.ite halts_failed
  refine halts_access fun _ => .ite halts_failed ?_
  refine halts_access fun _ => halts_access fun _ => halts_access fun _ => halts_access fun _ => ?_
  refine .ite halts_failed ?_
  exact halts_access fun _ => .ite (halts_ok _) halts_failed

theorem parseLocal_halts (iop : SafeIop) (map : MemMapping) (localHdrOffset compLen : Nat) :
    Halts (parseLocal iop map localHdrOffset compLen) := by
  refine .ite (.ite halts_failed ?_) halts_failed
  refine halts_access fun _ => .ite halts_failed ?_
  refine halts_access fun _ => halts_access fun _ => ?_
  exact .ite (.ite halts_failed (halts_ok _)) halts_failed

theorem parseTail_halts (iop : SafeIop) (map : MemMapping) (ptr : Nat) (h : RecordHead) :
    Halts (parseTail iop map ptr h) := by
  refine halts_access fun _ => halts_access fun _ => halts_access fun _ => halts_access fun _ => ?_
  refine halts_access fun _ => halts_access fun _ => .ite halts_failed ?_
  exact halts_access fun _ => (parseLocal_halts _ _ _ _).bind fun _ => halts_ok _

theorem parseEntry_halts (iop : SafeIop) (map : MemMapping) (ptr : Nat) :
    Halts (parseEntry iop map ptr) := by
  rw [parseEntry_eq]
  exact (parseHead_halts _ _).bind fun h => (parseTail_halts _ _ _ _).bind fun _ => halts_ok _

/-- The loop over the records ends. Induction on their number. -/
theorem parseEntries_halts (iop : SafeIop) (map : MemMapping) (n ptr : Nat)
    (entries : List ZipEntry) : Halts (parseEntries iop map n ptr entries) := by
  induction n generalizing ptr entries with
  | zero => exact halts_ok _
  | succ n ih => exact (parseEntry_halts _ _ _).bind fun r => ih _ _

/-- The search for the end record ends. -/
theorem findEnd_halts (map : MemMapping) (k : Nat) : Halts (findEnd map k) := by
  induction k with
  | zero => exact halts_access fun _ => .ite (halts_ok _) halts_failed
  | succ k ih => exact halts_access fun _ => .ite (halts_ok _) ih

theorem parseDirectory_halts (map : MemMapping) : Halts (parseDirectory map) := by
  refine halts_access fun _ => .ite halts_failed ((findEnd_halts _ _).bind fun _ => ?_)
  exact halts_access fun _ => halts_access fun _ => .ite halts_failed (halts_ok _)

/-- Parsing ends on every map. -/
theorem parseZipArchive_halts (iop : SafeIop) (map : MemMapping) :
    Halts (parseZipArchive iop map) := by
  rw [parseZipArchive_eq]
  exact (parseDirectory_halts map).bind fun _ => parseEntries_halts _ _ _ _ _

end OpenRecovery.Minzip
