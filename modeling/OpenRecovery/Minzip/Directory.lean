import OpenRecovery.Minzip.ExtractSpec
import OpenRecovery.Minzip.Lookup

/-!
# The entries of an accepted archive

`pEntries` is the central directory, sorted by name (`parseArchive_sorted`), and `mzFindZipEntry`
finds what is there and nothing else (`mzFindZipEntry_exact`).
-/

set_option autoImplicit false

namespace OpenRecovery.Minzip

open OpenRecovery.Storage
open OpenRecovery.ApplyPatch (Decode)

/-! ## The insertions -/

/-- The entry `e` is inserted behind `l` and before `r`: the search ends there, the assertion holds,
`memmove` makes room, and all that was in the slots is still in them. -/
structure Inserted (l r : List ZipEntry) (rest : Slots) (e : ZipEntry) : Prop where
  place : findPlace ((l ++ r).map some ++ none :: rest) (l ++ r).length e.fileName =
    .returned l.length
  room : ∃ slots, makeRoom ((l ++ r).map some ++ none :: rest) (l ++ r).length l.length =
      .returned slots ∧
    putEntry slots l.length e = .returned (some ((l ++ e :: r).map some ++ rest))

theorem inserted_of_sorted {entries : List ZipEntry} (hs : Sorted entries)
    (hsmall : entries.length < 2 ^ 31) (rest : Slots) (e : ZipEntry) :
    ∃ l r, entries = l ++ r ∧ Inserted l r rest e := by
  obtain ⟨l, r, hlr, hplace, -⟩ := findPlace_spec hs hsmall (none :: rest) e.fileName
  obtain ⟨y, hroom⟩ := makeRoom_spec l r none rest
  rw [hlr] at hplace
  exact ⟨l, r, hlr, hplace, _, hroom, putEntry_spec l r y rest e⟩

/-- The slots are a sorted permutation of the records, and were so after every record. -/
def SortedDirectory (iop : SafeIop) (map : MemMapping) (slots : Slots) : Prop :=
  ∃ n off records stop entries, parseDirectory map = .ok (n, off) ∧
    Records iop map (map.addr + off) records stop ∧ records.length = n ∧
    slots = entries.map some ∧ entries.Perm records ∧ Sorted entries ∧
    ∀ before e after, records = before ++ e :: after →
      ∃ l r, (l ++ r).Perm before ∧
        fillEntries iop map before.length 0 (map.addr + off) (List.replicate n none) =
          .returned (some ((l ++ r).map some ++ none :: List.replicate after.length none)) ∧
        Inserted l r (List.replicate after.length none) e

/-- The entries of an accepted archive are the records, inserted one after another. -/
theorem records_of_parseArchive {iop : SafeIop} {calloc : Nat → Nat → Bool}
    (hcalloc : ∀ n size, calloc n size = true → n * size < 2 ^ 32) {map : MemMapping}
    {archive : ZipArchive} (h : parseArchive iop calloc map = .returned (some archive)) :
    ∃ n off records stop entries S, parseDirectory map = .ok (n, off) ∧ n < 65536 ∧
      Records iop map (map.addr + off) records stop ∧ records.length = n ∧
        archive.pEntries = entries.map some ∧ entries.Perm records ∧ Sorted entries ∧
          Holds archive.pEntries n archive.pHash S := by
  have hparsed := parseArchive_spec iop hcalloc map
  rw [h] at hparsed
  obtain ⟨n, off, entries, S, hdir, hparse, hentries, hholds⟩ := hparsed
  obtain ⟨-, hsmall⟩ := parseDirectory_ok hdir
  obtain ⟨records, stop, hrecords, hn, rfl⟩ := records_of_parse hparse
  obtain ⟨hperm, hsorted⟩ := insertEntries_spec records (show Sorted [] from .nil)
    (by rw [List.length_nil]; omega)
  rw [List.append_nil] at hperm
  exact ⟨n, off, records, stop, _, S, hdir, hsmall, hrecords, hn, hentries, hperm, hsorted, hholds⟩

/-- The assertion on the place of an entry never fails, and the entries of an accepted archive are
the records of the central directory, sorted by name. -/
theorem parseArchive_sorted (iop : SafeIop) {calloc : Nat → Nat → Bool}
    (hcalloc : ∀ n size, calloc n size = true → n * size < 2 ^ 32) (map : MemMapping) :
    parseArchive iop calloc map ≠ .asserted ∧
      ∀ archive, parseArchive iop calloc map = .returned (some archive) →
        SortedDirectory iop map archive.pEntries := by
  constructor
  · intro h
    have hparsed := parseArchive_spec iop hcalloc map
    rw [h] at hparsed
    exact hparsed
  · intro archive h
    obtain ⟨n, off, records, stop, entries, -, hdir, hsmall, hrecords, hn, hentries, hperm, hsorted,
      -⟩ := records_of_parseArchive hcalloc h
    refine ⟨n, off, records, stop, _, hdir, hrecords, hn, hentries, hperm, hsorted, ?_⟩
    rintro before e after rfl
    rw [List.length_append, List.length_cons] at hn
    -- the state of the loop when it comes to `e`
    obtain ⟨mid, hbefore, -⟩ := hrecords.split
    obtain ⟨hpermBefore, hsortedBefore⟩ := insertEntries_spec before (show Sorted [] from .nil)
      (by rw [List.length_nil]; omega)
    rw [List.append_nil] at hpermBefore
    have hlength := hpermBefore.length_eq
    obtain ⟨l, r, hlr, hinserted⟩ :=
      inserted_of_sorted hsortedBefore (by omega) (List.replicate after.length none) e
    refine ⟨l, r, hlr ▸ hpermBefore, ?_, hinserted⟩
    have hleft : n - before.length = after.length + 1 := by omega
    rw [fillEntries_start iop map _ (by omega) (by omega), hbefore.parse, Decode.ok_bind, hlr,
      hleft, List.replicate_succ]
    rfl

namespace Sample

/-- An archive with entries of the given names and no data; they share a local header. -/
def zip (names : List Bytes) : Bytes :=
  let localHdr := write4 locsig ++ List.replicate 26 0
  let records := names.flatMap fun name =>
    write4 censig ++ List.replicate 24 0 ++ [UInt8.ofNat name.length, 0] ++ List.replicate 16 0 ++ name
  let count := UInt8.ofNat names.length
  localHdr ++ records ++ write4 endsig ++ List.replicate 4 0 ++ [count, 0, count, 0] ++
    write4 records.length ++ write4 localHdr.length ++ [0, 0]

/-- Three entries, two of them of one name. -/
def names : MemMapping := ⟨0x40000000, zip [cstr "b", cstr "ab", cstr "b"]⟩

end Sample

/-- The entry of the archive of `Sample.zip` with this name. -/
def Sample.named (name : Bytes) : ZipEntry := ⟨name, 30, 0, 0, 0, 0, 0, 0, 0⟩

theorem exists_archive {o : Outcome (Option ZipArchive)} {slots : Slots}
    (h : (o.orBail fun archive => .returned (some archive.pEntries)) = .returned (some slots)) :
    ∃ archive, o = .returned (some archive) ∧ archive.pEntries = slots := by
  cases o with
  | aborted => cases h
  | asserted => cases h
  | undefined => cases h
  | returned r =>
      cases r with
      | none => cases h
      | some archive =>
          refine ⟨archive, rfl, ?_⟩
          simpa [Outcome.orBail, Outcome.bind] using h

theorem parseArchive_names : ∃ archive,
    parseArchive Sample.iop Sample.calloc Sample.names = .returned (some archive) ∧
      archive.pEntries = [cstr "ab", cstr "b", cstr "b"].map fun s => some (Sample.named s) :=
  exists_archive (by decide +kernel)

theorem parseArchive_sorted_names : ∃ archive,
    parseArchive Sample.iop Sample.calloc Sample.names = .returned (some archive) ∧
      archive.pEntries = [cstr "ab", cstr "b", cstr "b"].map (fun s => some (Sample.named s)) ∧
      SortedDirectory Sample.iop Sample.names archive.pEntries := by
  obtain ⟨archive, harchive, hentries⟩ := parseArchive_names
  exact ⟨archive, harchive, hentries,
    (parseArchive_sorted Sample.iop Sample.calloc_fits Sample.names).2 archive harchive⟩

/-! ## Lookups -/

/-- What a lookup of `name` gives: an entry of that name, or NULL if there is none. -/
def Exact (archive : ZipArchive) (name : Bytes) : Data ZipPtr → Prop
  | .item (.entry i) => ∃ e, archive.pEntries[i]? = some (some e) ∧ e.fileName = name
  | .null => ∀ e, some e ∈ archive.pEntries → e.fileName ≠ name
  | _ => False

/-- Lookups leave the archive as it is, so they go on as they began. -/
theorem findAll_eq {calloc : Nat → Nat → Bool} {archive : ZipArchive} {answer : Bytes → Data ZipPtr}
    (h : ∀ name, mzFindZipEntry calloc archive name = .returned (archive.pHash, answer name))
    (names : List Bytes) : findAll calloc archive names = .returned (names.map answer) := by
  induction names with
  | nil => rfl
  | cons name names ih =>
      simp only [findAll, h name, Outcome.bind, ih, List.map_cons]

theorem entryName_map {entries : List ZipEntry} {i : Nat} (hi : i < entries.length) :
    entryName (entries.map some) (.entry i) = entries[i].fileName := by
  simp [entryName, hi]

/-- Whatever the lookups are and in whatever order they come, each name has its answer, and it is
the right one. -/
theorem mzFindZipEntry_exact (iop : SafeIop) {calloc : Nat → Nat → Bool}
    (hcalloc : ∀ n size, calloc n size = true → n * size < 2 ^ 32) {map : MemMapping}
    {archive : ZipArchive} (h : parseArchive iop calloc map = .returned (some archive)) :
    ∃ answer : Bytes → Data ZipPtr,
      (∀ names, findAll calloc archive names = .returned (names.map answer)) ∧
        ∀ name, Exact archive name (answer name) := by
  obtain ⟨n, off, records, stop, entries, S, -, -, -, hn, hentries, hperm, -, hholds⟩ :=
    records_of_parseArchive hcalloc h
  have hlength : entries.length = n := hperm.length_eq.trans hn
  have hanswer : ∀ name, ∃ d, mzFindZipEntry calloc archive name = .returned (archive.pHash, d) ∧
      Exact archive name d := by
    intro name
    rcases find_spec hcalloc hholds name with ⟨i, hi, hfind, hname⟩ | ⟨hfind, hnone⟩
    · have hlt : i < entries.length := by omega
      rw [hentries, entryName_map hlt] at hname
      exact ⟨_, hfind, entries[i], by simp [hentries, hlt], hname⟩
    · refine ⟨_, hfind, ?_⟩
      intro e he
      rw [hentries] at he
      obtain ⟨i, hi, rfl⟩ := List.getElem_of_mem (List.mem_map_of_injective (Option.some_injective _) |>.mp he)
      have hne := hnone i (by omega)
      rwa [hentries, entryName_map hi] at hne
  choose answer hfind hexact using hanswer
  exact ⟨answer, findAll_eq hfind, hexact⟩

theorem mzFindZipEntry_exact_names : ∃ archive,
    parseArchive Sample.iop Sample.calloc Sample.names = .returned (some archive) ∧
      ∃ answer : Bytes → Data ZipPtr,
        (∀ names, findAll Sample.calloc archive names = .returned (names.map answer)) ∧
          ∀ name, Exact archive name (answer name) := by
  obtain ⟨archive, harchive, -⟩ := parseArchive_names
  exact ⟨archive, harchive, mzFindZipEntry_exact Sample.iop Sample.calloc_fits harchive⟩

end OpenRecovery.Minzip
