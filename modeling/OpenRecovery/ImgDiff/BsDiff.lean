import OpenRecovery.ApplyPatch.BsPatch

/-!
# Making a bsdiff patch

`applypatch/bsdiff.c`. The suffix array is given as a list of positions (`SuffixIndex`): what the
scan needs of `qsufsort`, or of the array an earlier call left behind, is only that every entry is a
position of the old data. All indices are signed numbers as in the source, every access to the old
data, the new data and the two output buffers is checked, and every loop has a bound on its passes;
`none` is an access outside a buffer or a loop that does not end.
-/

set_option autoImplicit false

namespace OpenRecovery.ImgDiff

open OpenRecovery.ApplyPatch OpenRecovery.Edify OpenRecovery.Storage

/-- The array `I` for the data `old`: one entry more than the data has bytes, all of them
positions. -/
structure SuffixIndex (old : Bytes) where
  entries : List Nat
  length_eq : entries.length = old.length + 1
  le_length : ∀ k ∈ entries, k ≤ old.length

/-- `matchlen`: length of the common prefix. -/
def matchlen : Bytes → Bytes → Nat
  | a :: as, b :: bs => if a = b then matchlen as bs + 1 else 0
  | _, _ => 0

/-- `memcmp(a, b, n) < 0` for `n` the smaller length. -/
def memcmpNeg : Bytes → Bytes → Bool
  | a :: as, b :: bs => a < b || a = b && memcmpNeg as bs
  | _, _ => false

/-- `search`: a position and the length of the match there. -/
def search (I : List Nat) (old new : Bytes) : Nat → Nat → Nat → Option (Nat × Nat)
  | 0, _, _ => none
  | fuel + 1, st, en =>
      if en - st < 2 then do
        let i ← I[st]?
        let j ← I[en]?
        let x := matchlen (old.drop i) new
        let y := matchlen (old.drop j) new
        -- the last of two equal matches
        if x > y then some (i, x) else some (j, y)
      else do
        let x := st + (en - st) / 2
        let k ← I[x]?
        -- a suffix below the new data: on to the right of it
        if memcmpNeg (old.drop k) new then search I old new fuel x en
        else search I old new fuel st x

/-! ## The scan -/

/-- `(k + offset < oldsize) && (old[k + offset] == new[k])`. -/
def sameAt (old new : Bytes) (offset k : Int) : Option Bool :=
  if k + offset < old.length then do
    let a ← byteAt old (k + offset)
    let b ← byteAt new k
    return decide (a = b)
  else some false

/-- `for (; scsc < scan + len; scsc++)`, `n` passes from `k` on. -/
def addScore (old new : Bytes) (offset : Int) : Nat → Int → Int → Option Int
  | 0, _, score => some score
  | n + 1, k, score => do
      let same ← sameAt old new offset k
      addScore old new offset n (k + 1) (if same then score + 1 else score)

/-- Local variables after the inner loop. `pos` has no value before the first search. -/
structure Found where
  scan : Int
  len : Int
  pos : Option Int
  oldscore : Int

/-- `for (scsc = scan += len; scan < newsize; scan++)`. -/
def scanLoop {old : Bytes} (I : SuffixIndex old) (new : Bytes) (lastoffset : Int) :
    Nat → Int → Found → Option Found
  | 0, _, _ => none
  | fuel + 1, scsc, f =>
      if f.scan < new.length then do
        let (p, l) ← search I.entries old (new.drop f.scan.toNat) (old.length + 1) 0 old.length
        let len : Int := l
        -- the score of the bytes up to the end of this match, each counted once
        let oldscore ← addScore old new lastoffset (f.scan + len - scsc).toNat scsc f.oldscore
        -- the loop over `scsc` does not go back
        let scsc := max scsc (f.scan + len)
        -- as good as the old offset, or eight bytes better
        if (len = oldscore ∧ len ≠ 0) ∨ len > oldscore + 8 then
          return ⟨f.scan, len, some p, oldscore⟩
        else do
          let same ← sameAt old new lastoffset f.scan
          scanLoop I new lastoffset fuel scsc
            ⟨f.scan + 1, len, some p, if same then oldscore - 1 else oldscore⟩
      else some f

/-! ## Extending and splitting -/

/-- The forward extension: `lenf`. -/
def forwardLoop (old new : Bytes) (lastscan lastpos scan : Int) :
    Nat → Int → Int → Int → Int → Option Int
  | 0, _, _, _, _ => none
  | fuel + 1, i, s, sf, lenf =>
      if lastscan + i < scan ∧ lastpos + i < old.length then do
        let a ← byteAt old (lastpos + i)
        let b ← byteAt new (lastscan + i)
        let s := if a = b then s + 1 else s
        let i := i + 1
        if s * 2 - i > sf * 2 - lenf then forwardLoop old new lastscan lastpos scan fuel i s s i
        else forwardLoop old new lastscan lastpos scan fuel i s sf lenf
      else some lenf

/-- The backward extension: `lenb`. -/
def backwardLoop (old new : Bytes) (lastscan scan pos : Int) :
    Nat → Int → Int → Int → Int → Option Int
  | 0, _, _, _, _ => none
  | fuel + 1, i, s, sb, lenb =>
      if scan ≥ lastscan + i ∧ pos ≥ i then do
        let a ← byteAt old (pos - i)
        let b ← byteAt new (scan - i)
        let s := if a = b then s + 1 else s
        if s * 2 - i > sb * 2 - lenb then backwardLoop old new lastscan scan pos fuel (i + 1) s s i
        else backwardLoop old new lastscan scan pos fuel (i + 1) s sb lenb
      else some lenb

/-- `lenb`, 0 at the end of the new data. -/
def backward (old new : Bytes) (lastscan scan pos : Int) : Option Int :=
  if scan < new.length then
    backwardLoop old new lastscan scan pos (scan - lastscan).toNat.succ 1 0 0 0
  else some 0

/-- Where to split an overlap: `lens`. `newF`, `oldF`, `newB` and `oldB` are the positions the four
accesses start from. -/
def overlapLoop (old new : Bytes) (newF oldF newB oldB : Int) :
    Nat → Int → Int → Int → Int → Option Int
  | 0, _, _, _, lens => some lens
  | n + 1, i, s, ss, lens => do
      let a ← byteAt new (newF + i)
      let b ← byteAt old (oldF + i)
      let s := if a = b then s + 1 else s
      let c ← byteAt new (newB + i)
      let d ← byteAt old (oldB + i)
      let s := if c = d then s - 1 else s
      if s > ss then overlapLoop old new newF oldF newB oldB n (i + 1) s s (i + 1)
      else overlapLoop old new newF oldF newB oldB n (i + 1) s ss lens

/-- `lenf` and `lenb` for a match at `scan` and `pos`. -/
def extend (old new : Bytes) (lastscan lastpos scan pos : Int) : Option (Int × Int) := do
  let lenf ← forwardLoop old new lastscan lastpos scan (scan - lastscan).toNat.succ 0 0 0 0
  let lenb ← backward old new lastscan scan pos
  -- both extensions claim the bytes in between
  if lastscan + lenf > scan - lenb then do
    let overlap := (lastscan + lenf) - (scan - lenb)
    let lens ← overlapLoop old new (lastscan + lenf - overlap) (lastpos + lenf - overlap)
      (scan - lenb) (pos - lenb) overlap.toNat 0 0 0 0
    return (lenf + (lens - overlap), lenb - lens)
  else return (lenf, lenb)

/-! ## Emitting blocks -/

/-- `new[k + i] - old[j + i]` for `n` values of `i`. -/
def diffBytes (old new : Bytes) : Nat → Int → Int → Option Bytes
  | 0, _, _ => some []
  | n + 1, k, j => do
      let b ← byteAt new k
      let a ← byteAt old j
      let rest ← diffBytes old new n (k + 1) (j + 1)
      return (b - a) :: rest

/-- `new[k + i]` for `n` values of `i`. -/
def copyBytes (new : Bytes) : Nat → Int → Option Bytes
  | 0, _ => some []
  | n + 1, k => do
      let b ← byteAt new k
      let rest ← copyBytes new n (k + 1)
      return b :: rest

/-- A control triple: add, copy, seek. -/
structure Triple where
  add : Int
  copy : Int
  seek : Int
  deriving DecidableEq

/-- Local variables of the outer loop, with the bytes in `db` and `eb` and the triples written. -/
structure DiffState where
  scan : Int
  len : Int
  pos : Option Int
  lastscan : Int
  lastpos : Int
  lastoffset : Int
  db : Bytes
  eb : Bytes
  ctrl : List Triple

/-- Emit the block up to a match. `db` and `eb` have room for `newsize + 1` bytes. -/
def emitBlock (old new : Bytes) (st : DiffState) (scan len pos : Int) : Option DiffState := do
  let (lenf, lenb) ← extend old new st.lastscan st.lastpos scan pos
  let extra := (scan - lenb) - (st.lastscan + lenf)
  if lenf < 0 ∨ extra < 0 ∨ st.db.length + lenf > new.length + 1 ∨
      st.eb.length + extra > new.length + 1 then none
  else do
    let d ← diffBytes old new lenf.toNat st.lastscan st.lastpos
    let e ← copyBytes new extra.toNat (st.lastscan + lenf)
    return {
      scan := scan
      len := len
      pos := some pos
      lastscan := scan - lenb
      lastpos := pos - lenb
      lastoffset := pos - scan
      db := st.db ++ d
      eb := st.eb ++ e
      ctrl := st.ctrl ++ [⟨lenf, extra, (pos - lenb) - (st.lastpos + lenf)⟩] }

/-- The body of `while (scan < newsize)`. -/
def diffStep {old : Bytes} (I : SuffixIndex old) (new : Bytes) (st : DiffState) :
    Option DiffState := do
  let start := st.scan + st.len
  let f ← scanLoop I new st.lastoffset (new.length + 1) start ⟨start, st.len, st.pos, 0⟩
  -- a match that the old offset gives as well is no new block
  if f.len ≠ f.oldscore ∨ f.scan = new.length then do
    let pos ← f.pos
    emitBlock old new st f.scan f.len pos
  else return { st with scan := f.scan, len := f.len, pos := f.pos }

/-- `while (scan < newsize)`. -/
def diffLoop {old : Bytes} (I : SuffixIndex old) (new : Bytes) : Nat → DiffState → Option DiffState
  | 0, _ => none
  | fuel + 1, st =>
      if st.scan < new.length then do
        let st ← diffStep I new st
        diffLoop I new fuel st
      else some st

/-- The blocks of a patch. -/
def diffBlocks {old : Bytes} (I : SuffixIndex old) (new : Bytes) : Option DiffState :=
  diffLoop I new (new.length + 2) ⟨0, 0, none, 0, 0, 0, [], [], []⟩

/-! ## The patch file -/

/-- `offtout`: magnitude, lowest byte first, and the sign in the top bit. -/
def offtout (x : Int) : Bytes :=
  let y : Int := x.natAbs
  [byteOf y 0, byteOf y 1, byteOf y 2, byteOf y 3, byteOf y 4, byteOf y 5, byteOf y 6,
    if x < 0 then byteOf y 7 ||| 0x80 else byteOf y 7]

/-- The control block. -/
def controlBytes (ctrl : List Triple) : Bytes :=
  ctrl.flatMap fun t => offtout t.add ++ (offtout t.copy ++ offtout t.seek)

/-- The file `bsdiff` writes for the blocks `st`. -/
def patchFile (H : HostLibs) (new : Bytes) (st : DiffState) : Bytes :=
  let ctrl := H.bzCompress (controlBytes st.ctrl)
  let diff := H.bzCompress st.db
  cstr "BSDIFF40" ++ (offtout ctrl.length ++ (offtout diff.length ++ (offtout new.length ++
    (ctrl ++ (diff ++ H.bzCompress st.eb)))))

/-- `bsdiff`: the patch file, and the array kept for the next call on the same data. `IP` is the
array an earlier call has left, if any. -/
def bsdiff (H : HostLibs) (qsufsort : (old : Bytes) → SuffixIndex old) (old : Bytes)
    (IP : Option (SuffixIndex old)) (new : Bytes) : Option (Bytes × SuffixIndex old) := do
  -- sorted for the first chunk only
  let I := IP.getD (qsufsort old)
  let st ← diffBlocks I new
  return (patchFile H new st, I)

end OpenRecovery.ImgDiff
