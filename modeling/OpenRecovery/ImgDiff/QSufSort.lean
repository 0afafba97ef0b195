import OpenRecovery.ImgDiff.BsDiff

/-!
# Sorting the suffixes

`qsufsort` and `split` of `applypatch/bsdiff.c`. The two arrays have `oldsize + 1` entries each,
which `malloc` leaves with any contents. An entry of `V` is an index of `I`; an entry of `I` is a
position of the data, or minus the length of a run of suffixes that have found their place. Every
access is checked and every loop has a bound on its passes: `none` is an access outside an array or
a loop that does not end.
-/

set_option autoImplicit false

namespace OpenRecovery.ImgDiff

open OpenRecovery.ApplyPatch OpenRecovery.Storage

/-- The arrays `I` and `V`. -/
structure Arrays where
  I : ℕ → ℤ
  V : ℕ → ℕ

namespace Arrays

variable (n : ℕ) (s : Arrays)

/-- `I[i]`. -/
def getI (i : ℕ) : Option ℤ := if i ≤ n then some (s.I i) else none

/-- `I[i] = x`. -/
def setI (i : ℕ) (x : ℤ) : Option Arrays :=
  if i ≤ n then some { s with I := Function.update s.I i x } else none

/-- `V[x]`, for an index taken from the other array. -/
def getV (x : ℤ) : Option ℕ := if 0 ≤ x ∧ x ≤ n then some (s.V x.toNat) else none

/-- `V[x] = v`. -/
def setV (x : ℤ) (v : ℕ) : Option Arrays :=
  if 0 ≤ x ∧ x ≤ n then some { s with V := Function.update s.V x.toNat v } else none

/-- `V[I[i] + h]`, what the suffixes are compared by. -/
def key (h i : ℕ) : Option ℕ := do
  let x ← s.getI n i
  s.getV n (x + h)

/-- `tmp = I[i]; I[i] = I[j]; I[j] = tmp`. -/
def swap (i j : ℕ) : Option Arrays := do
  let tmp ← s.getI n i
  let x ← s.getI n j
  let s ← s.setI n i x
  s.setI n j tmp

end Arrays

/-! ## Splitting a group -/

section Split

variable (n h : ℕ)

/-- `for (i = 1; k + i < start + len; i++)`, `m` passes: the entries with the smallest key come
first, `j` of them. -/
def selectLoop (k : ℕ) : ℕ → ℕ → ℕ → ℕ → Arrays → Option (ℕ × Arrays)
  | 0, _, _, j, s => some (j, s)
  | m + 1, i, x, j, s => do
      let y ← s.key n h (k + i)
      -- a smaller key: what was found so far is of no use
      let j := if y < x then 0 else j
      let x := if y < x then y else x
      if y = x then do
        let s ← s.swap n (k + j) (k + i)
        selectLoop k m (i + 1) x (j + 1) s
      else selectLoop k m (i + 1) x j s

/-- `for (i = 0; i < m; i++) V[I[k + i]] = v`. -/
def number (v : ℕ) : ℕ → ℕ → Arrays → Option Arrays
  | 0, _, s => some s
  | m + 1, k, s => do
      let x ← s.getI n k
      let s ← s.setV n x v
      number v m (k + 1) s

/-- Number the group of `m` entries from `k` on. A single entry has found its place. -/
def closeGroup (k m : ℕ) (s : Arrays) : Option Arrays := do
  let s ← number n (k + m - 1) m k s
  if m = 1 then s.setI n k (-1) else some s

/-- `for (k = start; k < start + len; k += j)`, the selection sort of a short group. -/
def selectionSplit (stop : ℕ) : ℕ → ℕ → Arrays → Option Arrays
  | 0, _, _ => none
  | fuel + 1, k, s =>
      if k < stop then do
        let x ← s.key n h k
        let (j, s) ← selectLoop n h k (stop - (k + 1)) 1 x 1 s
        let s ← closeGroup n k j s
        selectionSplit stop fuel (k + j) s
      else some s

/-- The number of keys below `x` and the number equal to it, `m` entries from `i` on. -/
def countLoop (x : ℕ) (s : Arrays) : ℕ → ℕ → ℕ → ℕ → Option (ℕ × ℕ)
  | 0, _, jj, kk => some (jj, kk)
  | m + 1, i, jj, kk => do
      let y ← s.key n h i
      countLoop x s m (i + 1) (if y < x then jj + 1 else jj) (if y = x then kk + 1 else kk)

/-- `while (i < jj)`: the smaller keys to the front. -/
def lowLoop (x jj kk : ℕ) : ℕ → ℕ → ℕ → ℕ → Arrays → Option (ℕ × ℕ × Arrays)
  | 0, _, _, _, _ => none
  | fuel + 1, i, j, k, s =>
      if i < jj then do
        let y ← s.key n h i
        if y < x then lowLoop x jj kk fuel (i + 1) j k s
        else if y = x then do
          let s ← s.swap n i (jj + j)
          lowLoop x jj kk fuel i (j + 1) k s
        else do
          let s ← s.swap n i (kk + k)
          lowLoop x jj kk fuel i j (k + 1) s
      else some (j, k, s)

/-- `while (jj + j < kk)`: the larger keys to the back. -/
def highLoop (x jj kk : ℕ) : ℕ → ℕ → ℕ → Arrays → Option Arrays
  | 0, _, _, _ => none
  | fuel + 1, j, k, s =>
      if jj + j < kk then do
        let y ← s.key n h (jj + j)
        if y = x then highLoop x jj kk fuel (j + 1) k s
        else do
          let s ← s.swap n (jj + j) (kk + k)
          highLoop x jj kk fuel j (k + 1) s
      else some s

/-- `split`: the group of `len` entries from `start` on, by the keys `h` further on. -/
def split : ℕ → ℕ → ℕ → Arrays → Option Arrays
  | 0, _, _, _ => none
  | fuel + 1, start, len, s =>
      if len < 16 then selectionSplit n h (start + len) (len + 1) start s
      else do
        let x ← s.key n h (start + len / 2)
        let (jj, kk) ← countLoop n h x s len start 0 0
        let jj := jj + start
        let kk := kk + jj
        let (j, k, s) ← lowLoop n h x jj kk (len + 1) start 0 0 s
        let s ← highLoop n h x jj kk (len + 1) j k s
        let s ← if jj > start then split fuel start (jj - start) s else some s
        let s ← closeGroup n jj (kk - jj) s
        if start + len > kk then split fuel kk (start + len - kk) s else some s

end Split

/-! ## The first letter -/

/-- `for (i = 0; i < oldsize; i++) buckets[old[i]]++`, from zeros on. -/
def countBytes (old : Bytes) : List ℕ :=
  old.foldl (fun b c => b.set c.toNat (b.getD c.toNat 0 + 1)) (List.replicate 256 0)

/-- `for (i = 1; i < 256; i++) buckets[i] += buckets[i - 1]`. -/
def sumBuckets (b : List ℕ) : List ℕ :=
  (List.range' 1 255).foldl (fun b i => b.set i (b.getD i 0 + b.getD (i - 1) 0)) b

/-- `for (i = 255; i > 0; i--) buckets[i] = buckets[i - 1]; buckets[0] = 0`. -/
def shiftBuckets (b : List ℕ) : List ℕ :=
  ((List.range' 1 255).reverse.foldl (fun b i => b.set i (b.getD (i - 1) 0)) b).set 0 0

/-- `for (i = 0; i < oldsize; i++) I[++buckets[old[i]]] = i`, on the bytes from `i` on. -/
def placeLoop (n : ℕ) : Bytes → ℕ → List ℕ → Arrays → Option (List ℕ × Arrays)
  | [], _, b, s => some (b, s)
  | c :: cs, i, b, s => do
      let b := b.set c.toNat (b.getD c.toNat 0 + 1)
      let s ← s.setI n (b.getD c.toNat 0) i
      placeLoop n cs (i + 1) b s

/-- `for (i = 0; i < oldsize; i++) V[i] = buckets[old[i]]`, on the bytes from `i` on. -/
def rankLoop (n : ℕ) (b : List ℕ) : Bytes → ℕ → Arrays → Option Arrays
  | [], _, s => some s
  | c :: cs, i, s => do
      let s ← s.setV n i (b.getD c.toNat 0)
      rankLoop n b cs (i + 1) s

/-- `for (i = 1; i < 256; i++) if (buckets[i] == buckets[i - 1] + 1) I[buckets[i]] = -1`, `m`
passes. A single byte 0 is left to the first pass. -/
def singleLoop (n : ℕ) (b : List ℕ) : ℕ → ℕ → Arrays → Option Arrays
  | 0, _, s => some s
  | m + 1, i, s => do
      let s ← if b.getD i 0 = b.getD (i - 1) 0 + 1 then s.setI n (b.getD i 0) (-1) else some s
      singleLoop n b m (i + 1) s

/-- The arrays before the first pass: sorted by the first byte. -/
def bucketSort (old : Bytes) (s : Arrays) : Option Arrays := do
  let n := old.length
  let b := shiftBuckets (sumBuckets (countBytes old))
  let (b, s) ← placeLoop n old 0 b s
  let s ← s.setI n 0 n
  let s ← rankLoop n b old 0 s
  let s ← s.setV n n 0
  let s ← singleLoop n b 255 1 s
  s.setI n 0 (-1)

/-! ## Doubling -/

/-- `if (len) I[i - len] = -len`. -/
def closeRun (n i len : ℕ) (s : Arrays) : Option Arrays :=
  if len ≠ 0 then s.setI n (i - len) (-len) else some s

/-- `for (i = 0; i < oldsize + 1;)`: split every group, and count the entries in their place since
the last one in `len`. -/
def passLoop (n h : ℕ) : ℕ → ℕ → ℕ → Arrays → Option Arrays
  | 0, _, _, _ => none
  | fuel + 1, i, len, s =>
      if i < n + 1 then do
        let x ← s.getI n i
        if x < 0 then passLoop n h fuel (i + (-x).toNat) (len + (-x).toNat) s
        else do
          let s ← closeRun n i len s
          let v ← s.getV n x
          -- a group that ends before it starts
          if v + 1 ≤ i then none
          else do
            let len := v + 1 - i
            let s ← split n h (len + 1) i len s
            passLoop n h fuel (i + len) 0 s
      else closeRun n i len s

/-- `for (h = 1; I[0] != -(oldsize + 1); h += h)`. -/
def doubleLoop (n : ℕ) : ℕ → ℕ → Arrays → Option Arrays
  | 0, _, _ => none
  | fuel + 1, h, s => do
      let x ← s.getI n 0
      if x ≠ -((n : ℤ) + 1) then do
        let s ← passLoop n h (n + 2) 0 0 s
        doubleLoop n fuel (h + h) s
      else some s

/-- `for (i = 0; i < oldsize + 1; i++) I[V[i]] = i`, `m` passes. -/
def invertLoop (n : ℕ) : ℕ → ℕ → Arrays → Option Arrays
  | 0, _, s => some s
  | m + 1, i, s => do
      let v ← s.getV n i
      let s ← s.setI n v i
      invertLoop n m (i + 1) s

/-- `qsufsort`, on arrays as `malloc` returns them. -/
def qsufsort (old : Bytes) (s : Arrays) : Option Arrays := do
  let s ← bucketSort old s
  let s ← doubleLoop old.length (old.length + 2) 1 s
  invertLoop old.length (old.length + 1) 0 s

end OpenRecovery.ImgDiff
