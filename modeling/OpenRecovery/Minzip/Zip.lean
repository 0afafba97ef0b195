import OpenRecovery.ApplyPatch.BsPatch

/-!
# The archive parser of minzip

`parseZipArchive` of `minzip/Zip.c`, with the widths of the target: `long`, `size_t` and `uintptr_t`
are 32 bits. The archive is mapped at an address; a pointer is an address, and a read outside the
map is a fault. `safe_add` comes from another library: it is given by what it answers.

The hash table that `mzFindZipEntry` uses is the subject of `Minzip.Hash`.
-/

set_option autoImplicit false

namespace OpenRecovery.Minzip

open OpenRecovery.Storage
open OpenRecovery.ApplyPatch (Decode)

/-- `safe_add` on `uintptr_t` and on `long` operands: does the sum fit? -/
structure SafeIop where
  addUnsigned : Nat → Nat → Bool
  addSigned : Int → Int → Bool

/-- The archive in memory. -/
structure MemMapping where
  addr : Nat
  bytes : Bytes

structure ZipEntry where
  fileName : Bytes
  offset : Int
  compLen : Int
  uncompLen : Int
  compression : Nat
  modTime : Int
  crc32 : Int
  versionMadeBy : Nat
  externalFileAttributes : Int
  deriving DecidableEq

def stored : Nat := 0
def deflated : Nat := 8

def censig : Nat := 0x02014b50
def cenhdr : Nat := 46
def endsig : Nat := 0x06054b50
def endhdr : Nat := 22
def locsig : Nat := 0x04034b50
def lochdr : Nat := 30
def cenvemUnix : Nat := 3 * 256
def pathMax : Nat := 4096

namespace MemMapping

variable (map : MemMapping)

/-- One past the last byte. -/
def stop : Nat := map.addr + map.bytes.length

/-- The `n` bytes at a pointer. -/
def read (ptr n : Nat) : Option Bytes := slice map.bytes ((ptr : Int) - map.addr) n

def get2LE (ptr : Nat) : Option Nat := (map.read ptr 2).map leNat

def get4LE (ptr : Nat) : Option Nat := (map.read ptr 4).map leNat

end MemMapping

/-- A `long` with the given bits. -/
def long (n : Nat) : Int := signed 32 (n % 2 ^ 32)

/-- A `long` as a `size_t`. -/
def size (v : Int) : Nat := (v % 2 ^ 32).toNat

/-- The search for the end of the central directory: from index `k` of the map downwards. -/
def findEnd (map : MemMapping) : Nat → Decode Nat
  | 0 => do
      let sig ← Decode.ofAccess (map.get4LE map.addr)
      if sig = endsig then .ok map.addr else .failed
  | k + 1 => do
      let sig ← Decode.ofAccess (map.get4LE (map.addr + (k + 1)))
      if sig = endsig then .ok (map.addr + (k + 1)) else findEnd map k

/-- `validFilename`. -/
def validFilename (fileName : Bytes) : Bool :=
  fileName.length < pathMax && fileName.all fun ch => 32 ≤ ch.toNat && ch.toNat < 127

/-- `strncmp` of two strings without NUL, as far as both go. -/
def strncmp : Bytes → Bytes → Int
  | a :: as, b :: bs => if a = b then strncmp as bs else (a.toNat : Int) - b.toNat
  | _, _ => 0

/-- `diff` of the binary search: the names as far as both go, then their lengths. -/
def nameDiff (a b : Bytes) : Int :=
  if strncmp a b = 0 then (a.length : Int) - b.length else strncmp a b

/-- The binary search for the place of a name: the last value of `high`. One step of fuel for each
entry of the range is enough. -/
def searchPlace (entries : List ZipEntry) (fileName : Bytes) : Nat → Int → Int → Int
  | 0, _, high => high
  | fuel + 1, low, high =>
      if low ≤ high then
        let mid := low + (high - low) / 2
        match entries[mid.toNat]? with
        | none => high
        | some e =>
            let diff := nameDiff e.fileName fileName
            if diff < 0 then searchPlace entries fileName fuel (mid + 1) high
            else if 0 < diff then searchPlace entries fileName fuel low (mid - 1)
            else mid
      else high

/-- The entry goes to its place among the sorted entries. -/
def insertEntry (entries : List ZipEntry) (e : ZipEntry) : List ZipEntry :=
  let high := searchPlace entries e.fileName (entries.length + 1) 0 (entries.length - 1)
  entries.insertIdx (high + 1).toNat e

/-- One record of the central directory, at `ptr`: the entry and the next record. -/
def parseEntry (iop : SafeIop) (map : MemMapping) (ptr : Nat) : Decode (ZipEntry × Nat) :=
  if map.stop < ptr + cenhdr then .failed
  else do
    let sig ← Decode.ofAccess (map.get4LE ptr)
    if sig ≠ censig then .failed
    else do
      let localHdrOffset ← Decode.ofAccess (map.get4LE (ptr + 42))
      let fileNameLen ← Decode.ofAccess (map.get2LE (ptr + 28))
      let extraLen ← Decode.ofAccess (map.get2LE (ptr + 30))
      let commentLen ← Decode.ofAccess (map.get2LE (ptr + 32))
      if map.stop < ptr + cenhdr + fileNameLen then .failed
      else do
        let fileName ← Decode.ofAccess (map.read (ptr + cenhdr) fileNameLen)
        if validFilename fileName then do
          let compLen ← Decode.ofAccess (map.get4LE (ptr + 20))
          let uncompLen ← Decode.ofAccess (map.get4LE (ptr + 24))
          let compression ← Decode.ofAccess (map.get2LE (ptr + 10))
          let modTime ← Decode.ofAccess (map.get4LE (ptr + 12))
          let crc32 ← Decode.ofAccess (map.get4LE (ptr + 16))
          let versionMadeBy ← Decode.ofAccess (map.get2LE (ptr + 4))
          if versionMadeBy / 256 * 256 ≠ 0 ∧ versionMadeBy / 256 * 256 ≠ cenvemUnix then .failed
          else do
            let attributes ← Decode.ofAccess (map.get4LE (ptr + 38))
            if iop.addUnsigned map.addr localHdrOffset then
              let localHdr := (map.addr + localHdrOffset) % 2 ^ 32
              -- the sum is one of `uintptr_t`
              if map.stop < (localHdr + lochdr) % 2 ^ 32 then .failed
              else do
                let sig ← Decode.ofAccess (map.get4LE localHdr)
                if sig ≠ locsig then .failed
                else do
                  let nameLen ← Decode.ofAccess (map.get2LE (localHdr + 26))
                  let extra ← Decode.ofAccess (map.get2LE (localHdr + 28))
                  let offset := long (localHdrOffset + lochdr + nameLen + extra)
                  if iop.addSigned offset (long compLen) then
                    if map.bytes.length < (size offset + compLen) % 2 ^ 32 then .failed
                    else
                      .ok (⟨fileName, offset, long compLen, long uncompLen, compression,
                        long modTime, long crc32, versionMadeBy, long attributes⟩,
                        ptr + cenhdr + fileNameLen + extraLen + commentLen)
                  else .failed
            else .failed
        else .failed

/-- The loop over the central directory. -/
def parseEntries (iop : SafeIop) (map : MemMapping) :
    Nat → Nat → List ZipEntry → Decode (List ZipEntry)
  | 0, _, entries => .ok entries
  | n + 1, ptr, entries => do
      let (e, ptr) ← parseEntry iop map ptr
      parseEntries iop map n ptr (insertEntry entries e)

/-- `parseZipArchive`, on a map that is not too short for it. -/
def parseZipArchive (iop : SafeIop) (map : MemMapping) : Decode (List ZipEntry) := do
  let val ← Decode.ofAccess (map.get4LE map.addr)
  if val ≠ locsig then .failed
  else do
    let ptr ← findEnd map (map.bytes.length - endhdr)
    let numEntries ← Decode.ofAccess (map.get2LE (ptr + 8))
    let cdOffset ← Decode.ofAccess (map.get4LE (ptr + 16))
    if numEntries = 0 ∨ map.bytes.length ≤ cdOffset then .failed
    else parseEntries iop map numEntries (map.addr + cdOffset) []

/-- What `mzOpenZipArchive` leaves in the archive. -/
def mzOpenZipArchive (iop : SafeIop) (map : MemMapping) : Decode (List ZipEntry) :=
  if map.bytes.length < endhdr then .failed else parseZipArchive iop map

end OpenRecovery.Minzip
