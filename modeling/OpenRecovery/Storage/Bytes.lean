import Mathlib.Tactic

/-!
# Byte strings, little-endian numbers and the external libraries

C strings and file contents are lists of bytes; a C string carries no final NUL. `write4`, `write8`,
`read2`, `read4` and `read8` are the functions of `applypatch/utils.c`. The readers take the
position in the buffer and answer `none` outside it. `read4_write4` and `read8_write8` say that a
number in range is read back as it was written, wherever it stands in a larger buffer.

`Libs` collects what the recovery code takes from outside the repository: the SHA-1 of `mincrypt`,
the bzip2 decompressor, zlib's raw inflate and deflate, and the width of `size_t`.
-/

set_option autoImplicit false

namespace OpenRecovery.Storage

/-- File contents, digests and C strings. -/
abbrev Bytes := List UInt8

/-- File names are C strings. -/
abbrev Name := List UInt8

/-- The bytes of a string literal. -/
def cstr (s : String) : Bytes := s.toList.map fun c => UInt8.ofNat c.toNat

/-! ## Little-endian numbers -/

/-- Byte number `k` of the two's complement representation of `v`. -/
def byteOf (v : Int) (k : Nat) : UInt8 := UInt8.ofNat (v / 256 ^ k % 256).toNat

/-- `Write4`. -/
def write4 (v : Int) : Bytes := [byteOf v 0, byteOf v 1, byteOf v 2, byteOf v 3]

/-- `Write8`. -/
def write8 (v : Int) : Bytes :=
  [byteOf v 0, byteOf v 1, byteOf v 2, byteOf v 3, byteOf v 4, byteOf v 5, byteOf v 6, byteOf v 7]

/-- The unsigned number with the given bytes, lowest first. -/
def leNat : Bytes → Nat
  | [] => 0
  | b :: bs => b.toNat + 256 * leNat bs

/-- Conversion of an unsigned number to the signed type of `w` bits. -/
def signed (w n : Nat) : Int := if n < 2 ^ (w - 1) then n else (n : Int) - 2 ^ w

/-- The bytes at `[pos, pos + n)`, if they lie in the buffer. -/
def slice (p : Bytes) (pos : Int) (n : Nat) : Option Bytes :=
  if 0 ≤ pos ∧ pos.toNat + n ≤ p.length then some ((p.drop pos.toNat).take n) else none

/-- `Read2`. -/
def read2 (p : Bytes) (pos : Int) : Option Int := (slice p pos 2).map fun b => (leNat b : Int)

/-- `Read4`. -/
def read4 (p : Bytes) (pos : Int) : Option Int := (slice p pos 4).map fun b => signed 32 (leNat b)

/-- `Read8`. -/
def read8 (p : Bytes) (pos : Int) : Option Int := (slice p pos 8).map fun b => signed 64 (leNat b)

@[simp] theorem length_write4 (v : Int) : (write4 v).length = 4 := rfl

@[simp] theorem length_write8 (v : Int) : (write8 v).length = 8 := rfl

/-- A slice that is a part of its own. -/
theorem slice_append (pre mid post : Bytes) (pos : Int) (n : Nat) (hpos : pos = pre.length)
    (hn : mid.length = n) : slice (pre ++ (mid ++ post)) pos n = some mid := by
  subst hpos hn
  have h : (0 : Int) ≤ pre.length ∧
      (pre.length : Int).toNat + mid.length ≤ (pre ++ (mid ++ post)).length := by
    refine ⟨Int.natCast_nonneg _, ?_⟩
    simp only [Int.toNat_natCast, List.length_append]
    omega
  rw [slice, if_pos h]
  simp

/-- A slice inside the array. -/
theorem slice_natCast {p : Bytes} {pos n : Nat} (h : pos + n ≤ p.length) :
    slice p pos n = some ((p.drop pos).take n) := by
  rw [slice, Int.toNat_natCast]
  exact if_pos ⟨Int.natCast_nonneg pos, h⟩

/-- A slice has the length that was asked for. -/
theorem slice_length {p b : Bytes} {pos : Int} {n : Nat} (h : slice p pos n = some b) :
    b.length = n := by
  unfold slice at h
  split at h
  · rename_i hb
    cases h
    rw [List.length_take, List.length_drop]
    omega
  · cases h

theorem leNat_lt {a : Bytes} : leNat a < 256 ^ a.length := by
  induction a with
  | nil => decide
  | cons x xs ih =>
      have hx := x.toNat_lt
      simp only [leNat, List.length_cons, pow_succ]
      omega

/-- Byte `k` of a number. -/
theorem toNat_byteOf (v : Int) (k : Nat) : ((byteOf v k).toNat : Int) = v / 256 ^ k % 256 := by
  have h0 : 0 ≤ v / 256 ^ k % 256 := Int.emod_nonneg _ (by norm_num)
  have h1 : v / 256 ^ k % 256 < 256 := Int.emod_lt_of_pos _ (by norm_num)
  rw [byteOf, UInt8.toNat_ofNat', Nat.mod_eq_of_lt (by omega), Int.toNat_of_nonneg h0]

/-- The four bytes of a number give it back modulo `2 ^ 32`. -/
theorem leNat_write4 (v : Int) : ((leNat (write4 v) : Nat) : Int) = v % 2 ^ 32 := by
  simp only [write4, leNat, Nat.cast_add, Nat.cast_mul, toNat_byteOf]
  norm_num
  omega

/-- The eight bytes of a number give it back modulo `2 ^ 64`. -/
theorem leNat_write8 (v : Int) : ((leNat (write8 v) : Nat) : Int) = v % 2 ^ 64 := by
  simp only [write8, leNat, Nat.cast_add, Nat.cast_mul, toNat_byteOf]
  norm_num
  omega

/-- A number in the range is given back by its residue. -/
theorem signed_of_emod {w n : Nat} {v : Int} (hw : 0 < w) (hn : (n : Int) = v % 2 ^ w)
    (hlo : -2 ^ (w - 1) ≤ v) (hhi : v < 2 ^ (w - 1)) : signed w n = v := by
  obtain ⟨k, rfl⟩ : ∃ k, w = k + 1 := ⟨w - 1, by omega⟩
  have hp : (2 : Int) ^ (k + 1) = 2 * 2 ^ k := by ring
  have hpos : (0 : Int) < 2 ^ k := by positivity
  rw [show k + 1 - 1 = k by omega] at hlo hhi
  rcases lt_or_ge v 0 with hv | hv
  · have hm : v % 2 ^ (k + 1) = v + 2 ^ (k + 1) := by
      rw [← Int.add_emod_right]
      exact Int.emod_eq_of_lt (by omega) (by omega)
    have hge : ¬ (n < 2 ^ (k + 1 - 1)) := by
      rw [show k + 1 - 1 = k by omega, not_lt]
      zify
      omega
    rw [signed, if_neg hge]
    omega
  · have hm : v % 2 ^ (k + 1) = v := Int.emod_eq_of_lt hv (by omega)
    have hlt : n < 2 ^ (k + 1 - 1) := by
      rw [show k + 1 - 1 = k by omega]
      zify
      omega
    rw [signed, if_pos hlt]
    omega

/-- A 32-bit number is read back from any place it was written to. -/
theorem read4_write4 (pre post : Bytes) (pos v : Int) (hpos : pos = pre.length)
    (hlo : -2 ^ 31 ≤ v) (hhi : v < 2 ^ 31) : read4 (pre ++ (write4 v ++ post)) pos = some v := by
  rw [read4, slice_append pre (write4 v) post pos 4 hpos rfl, Option.map_some]
  exact congrArg some (signed_of_emod (by norm_num) (leNat_write4 v) hlo hhi)

/-- A 64-bit number is read back from any place it was written to. -/
theorem read8_write8 (pre post : Bytes) (pos v : Int) (hpos : pos = pre.length)
    (hlo : -2 ^ 63 ≤ v) (hhi : v < 2 ^ 63) : read8 (pre ++ (write8 v ++ post)) pos = some v := by
  rw [read8, slice_append pre (write8 v) post pos 8 hpos rfl, Option.map_some]
  exact congrArg some (signed_of_emod (by norm_num) (leNat_write8 v) hlo hhi)

/-! ## External libraries -/

/-- How a bzip2 stream goes on after the bytes it produced: it has ended, its data is corrupt, or
it waits for input that never comes. -/
inductive BzEnd where
  | streamEnd
  | dataError
  | starved
  deriving DecidableEq

/-- The encoder parameters of `deflateInit2`. -/
structure DeflateParams where
  level : Int
  method : Int
  windowBits : Int
  memLevel : Int
  strategy : Int
  deriving DecidableEq

/-- What the code takes from outside the repository.

`sha1` is `SHA_hash` of `mincrypt`. `bzDecompress` gives the bytes the decompressor produces from
an input and how it goes on after them; input after the end of the stream is ignored. `inflate` is
the output of a raw inflate of a buffer that begins with a complete stream, with the number of
bytes the stream takes, and `none` on anything else. `inflateStarved` is its output from a buffer in
which the stream breaks off, so that it asks for more input, and `none` on anything else. `deflate`
is the output of a whole raw deflate, and `none` when `deflateInit2` refuses the parameters.
`sizeBits` is the width of `size_t`, at least 32 bits. -/
structure Libs where
  sha1 : Bytes → Bytes
  bzDecompress : Bytes → Bytes × BzEnd
  inflate : Bytes → Option (Bytes × Nat)
  inflateStarved : Bytes → Option Bytes
  deflate : DeflateParams → Bytes → Option Bytes
  sizeBits : Nat
  wide : 32 ≤ sizeBits

/-- The narrowest `size_t` is wide enough. -/
theorem Libs.wide_narrow : 32 ≤ 32 := Nat.le_refl 32

/-- The libraries of the tools that make patches: `bzCompress` is the stream that `BZ2_bzWrite` and
`BZ2_bzWriteClose` put into a file. -/
structure HostLibs extends Libs where
  bzCompress : Bytes → Bytes

end OpenRecovery.Storage
