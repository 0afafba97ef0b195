import OpenRecovery.Minzip.Hash
import OpenRecovery.Minzip.Zip
import OpenRecovery.Storage.SortedArray

/-!
# The archive in memory

`parseZipArchive` with the array and the hash table that it fills: a record of the central directory
goes to its place in `pEntries` by a binary search and a `memmove`, and when all are there the hash
table gets a pointer to each of them. `parseHead` and `parseTail` are the two parts of `parseEntry`
around the search.

A pointer in the table is one to an entry; the item of a lookup can also be a name. The slots of
`pEntries` are `none` as long as `calloc` has left nothing but zeros there. `char` is unsigned.
-/

set_option autoImplicit false

namespace OpenRecovery.Minzip

open OpenRecovery.Storage
open OpenRecovery.ApplyPatch (Decode)

/-! ## The records -/

/-- What is read of a record before its place is searched. -/
structure RecordHead where
  localHdrOffset : Nat
  fileNameLen : Nat
  extraLen : Nat
  commentLen : Nat
  fileName : Bytes

/-- The next record. -/
def RecordHead.next (h : RecordHead) (ptr : Nat) : Nat :=
  ptr + cenhdr + h.fileNameLen + h.extraLen + h.commentLen

/-- A record of the central directory up to its name. -/
def parseHead (map : MemMapping) (ptr : Nat) : Decode RecordHead :=
  if map.stop < ptr + cenhdr then .failed
  else do
    let sig ← Decode.ofAccess (map.get4LE ptr)
    if sig ≠ censig then .failed
    else do
      let localHdrOffset ← Decode.ofAccess (map.get4LE (ptr + 42))
      let fileNameLen ← Decode.ofAccess (map.get2LE (ptr + 28))
      let extraLen ← Decode.ofAccess (map.get2LE (ptr + 30))
      let commentLen ← Decode.ofAccess (map.get2LE (ptr + 32))
      if map.stop < ptr + cenhdr + fileNameLen then .failed
      else do
        let fileName ← Decode.ofAccess (map.read (ptr + cenhdr) fileNameLen)
        if validFilename fileName then .ok ⟨localHdrOffset, fileNameLen, extraLen, commentLen, fileName⟩
        else .failed

/-- The offset of the data, from the local header. -/
def parseLocal (iop : SafeIop) (map : MemMapping) (localHdrOffset compLen : Nat) : Decode Int :=
  if iop.addUnsigned map.addr localHdrOffset then
    let localHdr := (map.addr + localHdrOffset) % 2 ^ 32
    -- the sum is one of `uintptr_t`
    if map.stop < (localHdr + lochdr) % 2 ^ 32 then .failed
    else do
      let sig ← Decode.ofAccess (map.get4LE localHdr)
      if sig ≠ locsig then .failed
      else do
        let nameLen ← Decode.ofAccess (map.get2LE (localHdr + 26))
        let extra ← Decode.ofAccess (map.get2LE (localHdr + 28))
        let offset := long (localHdrOffset + lochdr + nameLen + extra)
        if iop.addSigned offset (long compLen) then
          if map.bytes.length < (size offset + compLen) % 2 ^ 32 then .failed
          else .ok offset
        else .failed
  else .failed

/-- The rest of the record. -/
def parseTail (iop : SafeIop) (map : MemMapping) (ptr : Nat) (h : RecordHead) : Decode ZipEntry := do
  let compLen ← Decode.ofAccess (map.get4LE (ptr + 20))
  let uncompLen ← Decode.ofAccess (map.get4LE (ptr + 24))
  let compression ← Decode.ofAccess (map.get2LE (ptr + 10))
  let modTime ← Decode.ofAccess (map.get4LE (ptr + 12))
  let crc32 ← Decode.ofAccess (map.get4LE (ptr + 16))
  let versionMadeBy ← Decode.ofAccess (map.get2LE (ptr + 4))
  if versionMadeBy / 256 * 256 ≠ 0 ∧ versionMadeBy / 256 * 256 ≠ cenvemUnix then .failed
  else do
    let attributes ← Decode.ofAccess (map.get4LE (ptr + 38))
    let offset ← parseLocal iop map h.localHdrOffset compLen
    .ok ⟨h.fileName, offset, long compLen, long uncompLen, compression, long modTime, long crc32,
      versionMadeBy, long attributes⟩

section Bind

variable {α β γ : Type}

theorem Decode.bind_assoc (x : Decode α) (f : α → Decode β) (g : β → Decode γ) :
    ((x >>= f) >>= g) = x >>= fun a => f a >>= g := by
  cases x <;> rfl

theorem Decode.ite_bind {p : Prop} [Decidable p] (x y : Decode α) (f : α → Decode β) :
    ((if p then x else y) >>= f) = if p then x >>= f else y >>= f := by
  split <;> rfl

end Bind

/-- A record is its two parts. -/
theorem parseEntry_eq (iop : SafeIop) (map : MemMapping) (ptr : Nat) :
    parseEntry iop map ptr = (do
      let h ← parseHead map ptr
      let e ← parseTail iop map ptr h
      .ok (e, h.next ptr)) := by
  simp only [parseEntry, parseHead, parseTail, parseLocal, Decode.bind_assoc, Decode.ite_bind,
    Decode.failed_bind, Decode.ok_bind, RecordHead.next]

/-! ## The array -/

/-- The result of a step: `none` after `goto bail`. A read outside the map is an access outside an
array. -/
def Outcome.ofDecode {α : Type} : Decode α → Outcome (Option α)
  | .ok a => .returned (some a)
  | .failed => .returned none
  | .fault => .undefined
  | .hang => .undefined

/-- Go on unless the step went to `bail`. -/
def Outcome.orBail {α β : Type} (o : Outcome (Option α)) (f : α → Outcome (Option β)) :
    Outcome (Option β) :=
  o.bind fun
    | none => .returned none
    | some a => f a

/-- `pEntries`. -/
abbrev Slots := List (Option ZipEntry)

/-- The place of a name among the first `i` entries. -/
def findPlace (slots : Slots) (i : Nat) (fileName : Bytes) : Outcome Nat :=
  if 0 < i then
    match binarySearch (fun e : ZipEntry => nameDiff e.fileName fileName) slots (i + 1) 0 (i - 1) with
    | none => .undefined
    | some high =>
        let target := (BitVec.ofInt 32 (high + 1)).toNat
        if target ≤ i then .returned target else .asserted
  else .returned 0

/-- `memmove` unless the place is at the end. -/
def makeRoom (slots : Slots) (i target : Nat) : Outcome Slots :=
  if target ≠ i then
    match memmove slots (target + 1) target (i - target) with
    | none => .undefined
    | some slots => .returned slots
  else .returned slots

/-- An entry is written into its slot. -/
def putEntry (slots : Slots) (target : Nat) (e : ZipEntry) : Outcome (Option Slots) :=
  if target < slots.length then .returned (some (slots.set target (some e))) else .undefined

/-- The loop over the central directory, at record `i` with `n` to go. -/
def fillEntries (iop : SafeIop) (map : MemMapping) :
    Nat → Nat → Nat → Slots → Outcome (Option Slots)
  | 0, _, _, slots => .returned (some slots)
  | n + 1, i, ptr, slots =>
      (Outcome.ofDecode (parseHead map ptr)).orBail fun h =>
        (findPlace slots i h.fileName).bind fun target =>
          (makeRoom slots i target).bind fun slots =>
            (Outcome.ofDecode (parseTail iop map ptr h)).orBail fun e =>
              (putEntry slots target e).orBail fun slots =>
                fillEntries iop map n (i + 1) (h.next ptr) slots

/-! ## The hash table -/

/-- What the table and its users point to. -/
inductive ZipPtr where
  | entry (i : Nat)
  | name (str : Bytes)
  deriving DecidableEq

/-- The name of the entry that a pointer points to. -/
def entryName (slots : Slots) : ZipPtr → Bytes
  | .entry i => ((slots[i]?).join.map ZipEntry.fileName).getD []
  | .name _ => []

/-- The string that a pointer points to. -/
def stringOf : ZipPtr → Bytes
  | .entry _ => []
  | .name str => str

/-- `memcmp`, of names of the same length. -/
def memcmp : Bytes → Bytes → Int
  | a :: as, b :: bs => if a = b then memcmp as bs else (a.toNat : Int) - b.toNat
  | _, _ => 0

/-- The lengths of two names first. -/
def compareNames (a b : Bytes) : Int :=
  if a.length ≠ b.length then (a.length : Int) - b.length else memcmp a b

/-- `hashcmpZipEntry`. -/
def hashcmpZipEntry (slots : Slots) (ventry1 ventry2 : ZipPtr) : Int :=
  compareNames (entryName slots ventry1) (entryName slots ventry2)

/-- `hashcmpZipName`. -/
def hashcmpZipName (slots : Slots) (ventry vname : ZipPtr) : Int :=
  compareNames (entryName slots ventry) (stringOf vname)

/-- `computeHash`. -/
def computeHash (name : Bytes) : BitVec 32 :=
  name.foldl (fun hash ch => hash * 31 + BitVec.ofNat 32 ch.toNat) 2

/-- `addEntryToHashTable`. What the lookup returns is only compared and printed. -/
def addEntryToHashTable (calloc : Nat → Nat → Bool) (slots : Slots) (t : HashTable ZipPtr) (i : Nat) :
    Outcome (HashTable ZipPtr) :=
  (mzHashTableLookup calloc t (computeHash (entryName slots (.entry i))) (.entry i)
    (hashcmpZipEntry slots) true).bind fun r => .returned r.1

/-- The loop that fills the table, at entry `i` with `n` to go. -/
def fillTable (calloc : Nat → Nat → Bool) (slots : Slots) :
    Nat → Nat → HashTable ZipPtr → Outcome (HashTable ZipPtr)
  | 0, _, t => .returned t
  | n + 1, i, t =>
      (addEntryToHashTable calloc slots t i).bind fun t => fillTable calloc slots n (i + 1) t

/-! ## The archive -/

/-- `ZipArchive`. -/
structure ZipArchive where
  pEntries : Slots
  pHash : HashTable ZipPtr

/-- `sizeof(ZipEntry)`. -/
def sizeofZipEntry : Nat := 40

/-- The number of entries and the offset of the central directory. -/
def parseDirectory (map : MemMapping) : Decode (Nat × Nat) := do
  let val ← Decode.ofAccess (map.get4LE map.addr)
  if val ≠ locsig then .failed
  else do
    let ptr ← findEnd map (map.bytes.length - endhdr)
    let numEntries ← Decode.ofAccess (map.get2LE (ptr + 8))
    let cdOffset ← Decode.ofAccess (map.get4LE (ptr + 16))
    if numEntries = 0 ∨ map.bytes.length ≤ cdOffset then .failed else .ok (numEntries, cdOffset)

/-- `parseZipArchive` with all it leaves in the archive; `none` is false. -/
def parseArchive (iop : SafeIop) (calloc : Nat → Nat → Bool) (map : MemMapping) :
    Outcome (Option ZipArchive) :=
  (Outcome.ofDecode (parseDirectory map)).orBail fun (numEntries, cdOffset) =>
    (mzHashTableCreate calloc (mzHashSize (BitVec.ofNat 32 numEntries)) false).bind fun table =>
      match calloc numEntries sizeofZipEntry, table with
      | true, some table =>
          (fillEntries iop map numEntries 0 (map.addr + cdOffset)
            (List.replicate numEntries none)).orBail fun slots =>
              (fillTable calloc slots numEntries 0 table).bind fun table =>
                .returned (some ⟨slots, table⟩)
      | _, _ => .returned none

/-- `mzFindZipEntry`: the table, and the entry or NULL. -/
def mzFindZipEntry (calloc : Nat → Nat → Bool) (archive : ZipArchive) (entryName : Bytes) :
    Outcome (HashTable ZipPtr × Data ZipPtr) :=
  mzHashTableLookup calloc archive.pHash (computeHash entryName) (.name entryName)
    (hashcmpZipName archive.pEntries) false

/-- Lookups one after another. -/
def findAll (calloc : Nat → Nat → Bool) : ZipArchive → List Bytes → Outcome (List (Data ZipPtr))
  | _, [] => .returned []
  | archive, name :: names =>
      (mzFindZipEntry calloc archive name).bind fun r =>
        (findAll calloc { archive with pHash := r.1 } names).bind fun found =>
          .returned (r.2 :: found)

theorem parseZipArchive_eq (iop : SafeIop) (map : MemMapping) :
    parseZipArchive iop map = (do
      let d ← parseDirectory map
      parseEntries iop map d.1 (map.addr + d.2) []) := by
  simp only [parseZipArchive, parseDirectory, Decode.bind_assoc, Decode.ite_bind,
    Decode.failed_bind, Decode.ok_bind]

end OpenRecovery.Minzip
