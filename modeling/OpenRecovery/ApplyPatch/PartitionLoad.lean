import OpenRecovery.ApplyPatch.CrashSafety
import OpenRecovery.Storage.Qsort

/-!
# `LoadPartitionContents` in memory

The loop of `LoadPartitionContents` with its buffer, its pointer `p`, `file->size` and the running
hash apart, and the index array in any order `qsort` may leave. An access outside an array or the
buffer ends the process. `prefixLoop_eq` relates the loop to `matchPairs`, and
`loadPartition_smallest` says what a name with well-formed pairs loads.
-/

set_option autoImplicit false

namespace OpenRecovery.ApplyPatch

open OpenRecovery.Crash OpenRecovery.Storage

/-! ## The function -/

/-- What the C library leaves open: the order of equal elements after `qsort`, and the bytes of a
buffer that `malloc` has returned. -/
structure Runtime where
  qsort : Qsort Nat
  fresh : Nat → Bytes
  length_fresh : ∀ n, (fresh n).length = n

/-- `compare_size_indices`, with `size_array`. -/
def compareSizeIndices (sizeArray : List Nat) (aa bb : Nat) : Int :=
  if sizeArray.getD aa 0 < sizeArray.getD bb 0 then -1
  else if sizeArray.getD aa 0 > sizeArray.getD bb 0 then 1
  else 0

/-- Variables of the loop: the buffer `file->data`, the index of `p` in it, `file->size`, the bytes
that went into `sha_ctx`, and the position in the device. -/
structure PrefixRead where
  buf : Bytes
  p : Nat
  size : Nat
  ctx : Bytes
  pos : Nat

/-- `fread(.., 1, n, dev)` at the position. -/
def fread (dev : Bytes) (pos n : Nat) : Bytes := (dev.drop pos).take n

/-- The bytes go to the buffer, from index `p` on; `none` is a write outside it. -/
def storeAt (buf : Bytes) (p : Nat) (out : Bytes) : Option Bytes :=
  if p + out.length ≤ buf.length then some (buf.take p ++ out ++ buf.drop (p + out.length)) else none

/-- How the body of the loop goes on: a short read, a digest that does not parse, a match, or the
next pair. -/
inductive Try where
  | short (v : PrefixRead)
  | badSha (v : PrefixRead)
  | matched (v : PrefixRead)
  | next (v : PrefixRead)

/-- Read up to the next size: whether all of it was there, and the number of bytes. -/
def readUpTo (dev : Bytes) (next : Nat) (v : PrefixRead) : Option (Bool × Nat × PrefixRead) :=
  if next > 0 then do
    let got := fread dev v.pos next
    let buf ← storeAt v.buf v.p got
    let v := { v with buf := buf, pos := v.pos + got.length }
    if next ≠ got.length then return (false, got.length, v)
    else do
      let bytes ← slice v.buf v.p got.length
      return (true, got.length, { v with ctx := v.ctx ++ bytes, size := v.size + got.length })
  else return (true, 0, v)

/-- The body of the loop for one pair. The difference of the sizes is a `size_t`, and a missing
digest is a null pointer. -/
def tryPair (L : Libs) (dev : Bytes) (size : Nat) (sha : Option Bytes) (v : PrefixRead) :
    Option Try := do
  let next := (size + 2 ^ L.sizeBits - v.size) % 2 ^ L.sizeBits
  let (complete, read, v) ← readUpTo dev next v
  if !complete then return .short v
  else do
    let str ← sha
    match parseSha1 str with
    | none => return .badSha v
    | some parsed =>
        if L.sha1 v.ctx = parsed then return .matched v
        else return .next { v with p := v.p + read }

/-- The loop over the sorted indices, and what follows it. Of `file->data` the contents are the
first `file->size` bytes. -/
def prefixLoop (L : Libs) (dev : Bytes) (file : FileContents) :
    List (Nat × Option Bytes) → PrefixRead → Option (Int × FileContents)
  | [], v => some (-1, { file with data := none, size := v.size })
  | (size, sha) :: rest, v => do
      match ← tryPair L dev size sha v with
      | .short v => return (-1, { file with data := none, size := v.size })
      | .badSha v => return (-1, { file with data := none, size := v.size })
      | .matched v => return (0, ⟨L.sha1 v.ctx, some (v.buf.take v.size), v.size, ⟨0o644, 0, 0⟩⟩)
      | .next v => prefixLoop L dev file rest v

/-- The pairs in the order of the index array; `none` is an index outside the arrays. -/
def inOrder (ps : List (Nat × Option Bytes)) (index : List Nat) :
    Option (List (Nat × Option Bytes)) := index.mapM fun i => ps[i]?

/-- From the sorted indices to the end. -/
def loadPrefix (L : Libs) (rt : Runtime) (dev : Bytes) (file : FileContents)
    (ps : List (Nat × Option Bytes)) : Option (Int × FileContents) := do
  let index := rt.qsort.sort (compareSizeIndices (ps.map Prod.fst)) (List.range ps.length)
  let sorted ← inOrder ps index
  -- `size[index[pairs-1]]` is outside the array when there is no pair
  let largest ← sorted.getLast?
  prefixLoop L dev file sorted ⟨rt.fresh largest.1, 0, 0, [], 0⟩

/-- `LoadPartitionContents`, with `file->data` already null. -/
def loadPartition (L : Libs) (rt : Runtime) (filename : Name) (file : FileContents) :
    FsProg (Int × FileContents) :=
  match strtok colon filename with
  | [] => .halt
  | magic :: tokens =>
      if magic ≠ cstr "EMMC" then return (-1, file)
      else do
        -- a wrong number of colons is reported and otherwise ignored
        let pairs := (filename.count colon - 1) / 2
        match ← readPairs L pairs tokens.tail with
        | none => return (-1, file)
        | some ps =>
            match tokens.head? with
            | none => .halt
            | some partition =>
                match ← sysLoadPart partition with
                | none => return (-1, file)
                | some dev =>
                    match loadPrefix L rt dev file ps with
                    | none => .halt
                    | some r => return r

/-! ## One pair -/

section Step

variable {L : Libs} {dev : Bytes} {cap : Nat} {v : PrefixRead}

/-- A prefix of the device is in the buffer and in the hash, and `p` is at its end. -/
structure Holding (dev : Bytes) (cap : Nat) (v : PrefixRead) : Prop where
  allocated : v.buf.length = cap
  within : v.size ≤ cap
  pointer : v.p = v.size
  position : v.pos = v.size
  read : v.size ≤ dev.length
  hashed : v.ctx = dev.take v.size
  stored : v.buf.take v.size = dev.take v.size

theorem length_fread (dev : Bytes) (pos n : Nat) :
    (fread dev pos n).length = min n (dev.length - pos) := by
  rw [fread, List.length_take, List.length_drop]

theorem take_append_fread (dev : Bytes) (pos n : Nat) :
    dev.take pos ++ fread dev pos n = dev.take (pos + n) := (List.take_add ..).symm

theorem storeAt_of_le {buf out : Bytes} {p : Nat} (h : p + out.length ≤ buf.length) :
    storeAt buf p out = some (buf.take p ++ out ++ buf.drop (p + out.length)) := if_pos h

/-- What is read back from where it was stored. -/
theorem slice_stored {buf out : Bytes} {p : Nat} (h : p + out.length ≤ buf.length) :
    slice (buf.take p ++ out ++ buf.drop (p + out.length)) p out.length = some out := by
  rw [List.append_assoc]
  refine slice_append _ _ _ _ _ ?_ rfl
  rw [List.length_take, Nat.min_eq_left (by omega)]

/-- Reading up to a size that is in the device. -/
theorem readUpTo_complete (h : Holding dev cap v) (next : Nat) (hcap : v.size + next ≤ cap)
    (hdev : v.size + next ≤ dev.length) :
    ∃ w, readUpTo dev next v = some (true, next, w) ∧ w.size = v.size + next ∧
      Holding dev cap { w with p := w.p + next } := by
  unfold readUpTo
  split
  next hpos =>
    have hlen : (fread dev v.pos next).length = next := by
      rw [length_fread, h.position]
      omega
    have hroom : v.p + (fread dev v.pos next).length ≤ v.buf.length := by
      rw [hlen, h.pointer, h.allocated]
      exact hcap
    have hslice := slice_stored hroom
    rw [hlen] at hslice
    simp only [storeAt_of_le hroom, Option.bind_eq_bind, Option.bind_some, hlen, ne_eq,
      not_true_eq_false, if_false, hslice]
    refine ⟨_, rfl, rfl, ?_⟩
    have htaken : v.buf.take v.p ++ fread dev v.pos next = dev.take (v.size + next) := by
      rw [h.pointer, h.stored, h.position, take_append_fread]
    have hshort : (dev.take (v.size + next)).length = v.size + next := by
      rw [List.length_take, Nat.min_eq_left hdev]
    exact {
      allocated := by
        simp only [List.length_append, List.length_take, List.length_drop, hlen]
        have := h.allocated
        omega
      within := hcap
      pointer := congrArg (· + next) h.pointer
      position := congrArg (· + next) h.position
      read := hdev
      hashed := by
        show v.ctx ++ fread dev v.pos next = _
        rw [h.hashed, h.position, take_append_fread]
      stored := by
        show List.take (v.size + next) (v.buf.take v.p ++ fread dev v.pos next ++ _) = _
        rw [htaken]
        exact List.take_left' hshort }
  next hzero =>
    obtain rfl : next = 0 := by omega
    exact ⟨v, rfl, rfl, h⟩

/-- Reading up to a size that is not in the device. -/
theorem readUpTo_short (h : Holding dev cap v) (next : Nat) (hcap : v.size + next ≤ cap)
    (hdev : dev.length < v.size + next) :
    ∃ n w, readUpTo dev next v = some (false, n, w) ∧ w.size = v.size := by
  have hread := h.read
  have hpos : next > 0 := by omega
  have hlen : (fread dev v.pos next).length = dev.length - v.size := by
    rw [length_fread, h.position]
    omega
  have hroom : v.p + (fread dev v.pos next).length ≤ v.buf.length := by
    rw [hlen, h.pointer, h.allocated]
    omega
  have hne : next ≠ (fread dev v.pos next).length := by omega
  rw [readUpTo, if_pos hpos]
  simp only [storeAt_of_le hroom, Option.bind_eq_bind, Option.bind_some, if_pos hne]
  exact ⟨_, _, rfl, rfl⟩

/-- The difference of two sizes in order does not wrap around. -/
theorem sub_size {bits a b : Nat} (hab : a ≤ b) (hb : b < 2 ^ bits) :
    (b + 2 ^ bits - a) % 2 ^ bits = b - a := by
  rw [show b + 2 ^ bits - a = b - a + 2 ^ bits by omega, Nat.add_mod_right]
  exact Nat.mod_eq_of_lt (by omega)

/-- A pair whose size is not in the device. -/
theorem tryPair_short (h : Holding dev cap v) {size : Nat} (sha : Option Bytes)
    (hfrom : v.size ≤ size) (hcap : size ≤ cap) (hbits : size < 2 ^ L.sizeBits)
    (hdev : dev.length < size) : ∃ w, tryPair L dev size sha v = some (.short w) ∧ w.size = v.size := by
  obtain ⟨n, w, hread, hw⟩ := readUpTo_short h (size - v.size) (by omega) (by omega)
  refine ⟨w, ?_, hw⟩
  simp only [tryPair, sub_size hfrom hbits, hread]
  rfl

/-- A pair whose size is in the device: the hash of that prefix decides. -/
theorem tryPair_complete (h : Holding dev cap v) {size : Nat} (str : Bytes) (hfrom : v.size ≤ size)
    (hcap : size ≤ cap) (hbits : size < 2 ^ L.sizeBits) (hdev : size ≤ dev.length) :
    ∃ w, w.size = size ∧ Holding dev cap { w with p := w.p + (size - v.size) } ∧
      tryPair L dev size (some str) v = some (match parseSha1 str with
        | none => .badSha w
        | some parsed =>
            if L.sha1 (dev.take size) = parsed then .matched w
            else .next { w with p := w.p + (size - v.size) }) := by
  have hnext : v.size + (size - v.size) = size := by omega
  obtain ⟨w, hread, hw, hhold⟩ := readUpTo_complete h (size - v.size) (by omega) (by omega)
  rw [hnext] at hw
  refine ⟨w, hw, hhold, ?_⟩
  have hctx : w.ctx = dev.take size := hw ▸ hhold.hashed
  simp only [tryPair, sub_size hfrom hbits, hread, Option.bind_eq_bind, Option.bind_some,
    Bool.not_true, Bool.false_eq_true, if_false, hctx]
  cases parseSha1 str with
  | none => rfl
  | some parsed =>
      simp only
      split
      · rfl
      · rfl

theorem tryPair_null (h : Holding dev cap v) {size : Nat} (hfrom : v.size ≤ size)
    (hcap : size ≤ cap) (hbits : size < 2 ^ L.sizeBits) (hdev : size ≤ dev.length) :
    tryPair L dev size none v = none := by
  obtain ⟨w, hread, -⟩ := readUpTo_complete h (size - v.size) (by omega) (by omega)
  simp only [tryPair, sub_size hfrom hbits, hread]
  rfl

end Step

/-! ## All pairs -/

section Loop

variable {L : Libs} {dev : Bytes} {file : FileContents}

/-- The sizes ascend from `got` to at most `cap`. -/
structure Ascending (L : Libs) (got cap : Nat) (ps : List (Nat × Option Bytes)) : Prop where
  sorted : ps.Pairwise fun a b => a.1 ≤ b.1
  above : ∀ p ∈ ps, got ≤ p.1
  below : ∀ p ∈ ps, p.1 ≤ cap
  fits : ∀ p ∈ ps, p.1 < 2 ^ L.sizeBits

theorem Ascending.tail {got cap : Nat} {p : Nat × Option Bytes} {ps : List (Nat × Option Bytes)}
    (h : Ascending L got cap (p :: ps)) : Ascending L p.1 cap ps where
  sorted := (List.pairwise_cons.1 h.sorted).2
  above := (List.pairwise_cons.1 h.sorted).1
  below q hq := h.below q (List.mem_cons_of_mem p hq)
  fits q hq := h.fits q (List.mem_cons_of_mem p hq)

/-- In memory the loop does what `matchPairs` says, and stays inside the buffer. -/
theorem prefixLoop_eq (s : Fs) {cap : Nat} (ps : List (Nat × Option Bytes)) (v : PrefixRead)
    (hps : Ascending L v.size cap ps) (h : Holding dev cap v) :
    prefixLoop L dev file ps v = readResult s (matchPairs L dev file ps v.size) := by
  induction ps generalizing v with
  | nil => rfl
  | cons p ps ih =>
      obtain ⟨size, sha⟩ := p
      have hfrom : v.size ≤ size := hps.above _ (List.mem_cons_self ..)
      have hcap : size ≤ cap := hps.below _ (List.mem_cons_self ..)
      have hbits : size < 2 ^ L.sizeBits := hps.fits _ (List.mem_cons_self ..)
      simp only [prefixLoop, matchPairs]
      by_cases hdev : dev.length < size
      · obtain ⟨w, hw, hsize⟩ := tryPair_short (L := L) h sha hfrom hcap hbits hdev
        simp only [hw, if_pos hdev, Option.bind_eq_bind, Option.bind_some, hsize]
        rfl
      · have hin : size ≤ dev.length := Nat.not_lt.1 hdev
        rw [if_neg hdev]
        cases sha with
        | none =>
            rw [tryPair_null h hfrom hcap hbits hin]
            rfl
        | some str =>
            obtain ⟨w, hw, hhold, htry⟩ := tryPair_complete (L := L) h str hfrom hcap hbits hin
            simp only [htry, Option.bind_eq_bind, Option.bind_some]
            cases parseSha1 str with
            | none => simp only [hw]; rfl
            | some parsed =>
                by_cases heq : L.sha1 (dev.take size) = parsed
                · have hctx : w.ctx = dev.take size := hw ▸ hhold.hashed
                  have hbuf : w.buf.take size = dev.take size := hw ▸ hhold.stored
                  simp only [if_pos heq, hctx, hbuf, hw]
                  rfl
                · subst hw
                  simp only [if_neg heq]
                  exact ih _ hps.tail hhold

/-- The prefix of the device that the pair names has its digest. -/
def Matches (L : Libs) (dev : Bytes) (p : Nat × Option Bytes) : Prop :=
  p.1 ≤ dev.length ∧ p.2.bind parseSha1 = some (L.sha1 (dev.take p.1))

/-- The sizes of the pairs that match. -/
def matchingSizes (L : Libs) (dev : Bytes) (ps : List (Nat × Option Bytes)) : Set Nat :=
  {n | ∃ p ∈ ps, p.1 = n ∧ Matches L dev p}

/-- Status and contents after looking for the smallest matching size among the pairs. -/
def Finds (L : Libs) (dev : Bytes) (ps : List (Nat × Option Bytes)) (r : Int × FileContents) : Prop :=
  (r.1 = 0 ↔ (matchingSizes L dev ps).Nonempty) ∧
    (r.1 = 0 → ∃ n, IsLeast (matchingSizes L dev ps) n ∧
      r.2 = ⟨L.sha1 (dev.take n), some (dev.take n), n, ⟨0o644, 0, 0⟩⟩)

theorem matchingSizes_cons_of_not {p : Nat × Option Bytes} {ps : List (Nat × Option Bytes)}
    (h : ¬ Matches L dev p) : matchingSizes L dev (p :: ps) = matchingSizes L dev ps := by
  ext n
  constructor
  · rintro ⟨q, hq, hn, hm⟩
    rcases List.mem_cons.1 hq with rfl | hq
    · exact absurd hm h
    · exact ⟨q, hq, hn, hm⟩
  · rintro ⟨q, hq, hn, hm⟩
    exact ⟨q, List.mem_cons_of_mem p hq, hn, hm⟩

theorem finds_none {ps : List (Nat × Option Bytes)} (h : ∀ p ∈ ps, ¬ Matches L dev p)
    (f : FileContents) : Finds L dev ps (-1, f) := by
  have hstatus : ¬ (-1 : Int) = 0 := by decide
  refine ⟨iff_of_false hstatus ?_, fun h => absurd h hstatus⟩
  rintro ⟨n, p, hp, -, hm⟩
  exact h p hp hm

/-- Trying the pairs in order of size finds the smallest one that matches. -/
theorem matchPairs_finds (s : Fs) (ps : List (Nat × Option Bytes))
    (hsorted : ps.Pairwise fun a b => a.1 ≤ b.1)
    (hsha : ∀ p ∈ ps, (p.2.bind parseSha1).isSome = true) (got : Nat) :
    ∃ r, readResult s (matchPairs L dev file ps got) = some r ∧ Finds L dev ps r := by
  induction ps generalizing got with
  | nil => exact ⟨_, rfl, finds_none (fun _ h => absurd h List.not_mem_nil) _⟩
  | cons p ps ih =>
      obtain ⟨size, sha⟩ := p
      obtain ⟨hle, hrest⟩ := List.pairwise_cons.1 hsorted
      simp only [matchPairs]
      by_cases hdev : dev.length < size
      · -- no later pair is in the device either
        rw [if_pos hdev]
        refine ⟨_, rfl, finds_none ?_ _⟩
        intro q hq hm
        have hq : size ≤ q.1 := by
          rcases List.mem_cons.1 hq with rfl | hq
          · exact Nat.le_refl _
          · exact hle q hq
        have := hm.1
        omega
      · rw [if_neg hdev]
        obtain ⟨str, parsed, hstr, hparsed⟩ : ∃ str parsed, sha = some str ∧
            parseSha1 str = some parsed := by
          have h := hsha _ (List.mem_cons_self ..)
          obtain ⟨parsed, h⟩ := Option.isSome_iff_exists.1 h
          obtain ⟨str, hstr, hparsed⟩ := Option.bind_eq_some_iff.1 h
          exact ⟨str, parsed, hstr, hparsed⟩
        subst hstr
        simp only [hparsed]
        by_cases heq : L.sha1 (dev.take size) = parsed
        · rw [if_pos heq]
          have hm : Matches L dev (size, some str) :=
            ⟨Nat.not_lt.1 hdev, by rw [Option.bind_some, hparsed, heq]⟩
          have hmem : size ∈ matchingSizes L dev ((size, some str) :: ps) :=
            ⟨_, List.mem_cons_self .., rfl, hm⟩
          refine ⟨_, rfl, iff_of_true rfl ⟨size, hmem⟩, fun _ => ⟨size, ⟨hmem, ?_⟩, rfl⟩⟩
          rintro n ⟨q, hq, rfl, -⟩
          rcases List.mem_cons.1 hq with rfl | hq
          · exact Nat.le_refl _
          · exact hle q hq
        · rw [if_neg heq]
          have hnot : ¬ Matches L dev (size, some str) := by
            rintro ⟨-, h⟩
            rw [Option.bind_some, hparsed] at h
            exact heq (Option.some.inj h).symm
          obtain ⟨r, hr, hfinds⟩ := ih hrest (fun q hq => hsha q (List.mem_cons_of_mem _ hq)) size
          refine ⟨r, hr, ?_⟩
          rwa [Finds, matchingSizes_cons_of_not hnot]

end Loop

/-! ## The index array -/

section Index

variable {L : Libs}

/-- The pair at an index. -/
def pairAt (ps : List (Nat × Option Bytes)) (i : Nat) : Nat × Option Bytes := ps.getD i (0, none)

theorem getD_sizes (ps : List (Nat × Option Bytes)) (i : Nat) :
    (ps.map Prod.fst).getD i 0 = (pairAt ps i).1 := by
  simp only [pairAt, List.getD_eq_getElem?_getD, List.getElem?_map]
  cases ps[i]? with
  | none => rfl
  | some p => rfl

theorem compareSizeIndices_le (ps : List (Nat × Option Bytes)) (a b : Nat) :
    compareSizeIndices (ps.map Prod.fst) a b ≤ 0 ↔ (pairAt ps a).1 ≤ (pairAt ps b).1 := by
  simp only [compareSizeIndices, getD_sizes]
  split
  · omega
  · split
    · omega
    · omega

theorem inOrder_eq (ps : List (Nat × Option Bytes)) {index : List Nat}
    (h : ∀ i ∈ index, i < ps.length) : inOrder ps index = some (index.map (pairAt ps)) := by
  unfold inOrder
  induction index with
  | nil => rfl
  | cons i index ih =>
      have hi : ps[i]? = some (pairAt ps i) := by
        rw [pairAt, List.getD_eq_getElem?_getD, List.getElem?_eq_getElem (h i (List.mem_cons_self ..))]
        rfl
      rw [List.mapM_cons, hi, ih fun j hj => h j (List.mem_cons_of_mem i hj)]
      rfl

theorem map_pairAt_range (ps : List (Nat × Option Bytes)) :
    (List.range ps.length).map (pairAt ps) = ps := by
  refine List.ext_getElem (by simp) ?_
  intro i h _
  have hi : i < ps.length := by simpa using h
  simp [pairAt, hi]

/-- The index array puts the pairs in order of size, whatever `qsort` does with equal sizes. -/
theorem inOrder_sorted (rt : Runtime) (ps : List (Nat × Option Bytes)) :
    ∃ sorted, inOrder ps (rt.qsort.sort (compareSizeIndices (ps.map Prod.fst))
        (List.range ps.length)) = some sorted ∧
      sorted.Perm ps ∧ sorted.Pairwise fun a b => a.1 ≤ b.1 := by
  have hperm := rt.qsort.perm (compareSizeIndices (ps.map Prod.fst)) (List.range ps.length)
  refine ⟨_, inOrder_eq ps ?_, ?_, ?_⟩
  · intro i hi
    exact List.mem_range.1 (hperm.mem_iff.1 hi)
  · have h := hperm.map (pairAt ps)
    rwa [map_pairAt_range] at h
  · rw [List.pairwise_map]
    refine (rt.qsort.sorted _ _ (.of_key (fun i => (pairAt ps i).1) ?_)).imp ?_
    · exact compareSizeIndices_le ps
    · exact fun h => (compareSizeIndices_le ps _ _).1 h

/-- The last pair in order has the largest size. -/
theorem largest_last {ps : List (Nat × Option Bytes)} (hne : ps ≠ [])
    (hsorted : ps.Pairwise fun a b => a.1 ≤ b.1) :
    ∃ p, ps.getLast? = some p ∧ ∀ q ∈ ps, q.1 ≤ p.1 := by
  obtain ⟨init, p, rfl⟩ := (List.eq_nil_or_concat ps).resolve_left hne
  rw [List.concat_eq_append] at hsorted ⊢
  refine ⟨p, List.getLast?_concat, ?_⟩
  intro q hq
  rcases List.mem_append.1 hq with hq | hq
  · exact (List.pairwise_append.1 hsorted).2.2 q hq p (List.mem_singleton_self p)
  · rw [List.mem_singleton.1 hq]

theorem matchingSizes_perm {dev : Bytes} {ps qs : List (Nat × Option Bytes)} (h : ps.Perm qs) :
    matchingSizes L dev ps = matchingSizes L dev qs := by
  ext n
  simp only [matchingSizes, Set.mem_ofPred_eq, h.mem_iff]

/-- From the arrays of pairs to the end: nothing outside an array or the buffer is accessed, and the
smallest matching size is found. -/
theorem loadPrefix_finds (rt : Runtime) (dev : Bytes) (file : FileContents)
    {ps : List (Nat × Option Bytes)} (hne : ps ≠ []) (hfits : ∀ p ∈ ps, p.1 < 2 ^ L.sizeBits)
    (hsha : ∀ p ∈ ps, (p.2.bind parseSha1).isSome = true) (s : Fs) :
    ∃ r, loadPrefix L rt dev file ps = some r ∧ Finds L dev ps r := by
  obtain ⟨sorted, horder, hperm, hsorted⟩ := inOrder_sorted rt ps
  have hsortedNe : sorted ≠ [] := by
    rintro rfl
    exact hne hperm.nil_eq.symm
  obtain ⟨p, hlast, hmax⟩ := largest_last hsortedNe hsorted
  obtain ⟨r, hr, hfinds⟩ :
      ∃ r, readResult s (matchPairs L dev file sorted 0) = some r ∧ Finds L dev sorted r :=
    matchPairs_finds s sorted hsorted (fun q hq => hsha q (hperm.mem_iff.1 hq)) 0
  refine ⟨r, ?_, by rwa [Finds, ← matchingSizes_perm hperm]⟩
  simp only [loadPrefix, horder, hlast, Option.bind_eq_bind, Option.bind_some]
  rw [← hr]
  refine prefixLoop_eq s sorted _ ⟨hsorted, ?_, hmax, ?_⟩ ?_
  · exact fun _ _ => Nat.zero_le _
  · exact fun q hq => hfits q (hperm.mem_iff.1 hq)
  · exact ⟨rt.length_fresh p.1, Nat.zero_le _, rfl, rfl, Nat.zero_le _, rfl, rfl⟩

end Index

/-! ## Names of partitions -/

/-- A pair of a partition name as it stands there: a size that `strtol` reads as a positive number,
and a digest. -/
structure SizeSha (L : Libs) where
  sizeStr : Bytes
  shaStr : Bytes
  token : colon ∉ sizeStr
  positive : 0 < (strtol L.sizeBits sizeStr).1
  digest : (parseSha1 shaStr).isSome = true

/-- The number the size stands for. -/
def SizeSha.size {L : Libs} (x : SizeSha L) : Nat := (strtol L.sizeBits x.sizeStr).1.toNat

/-- A partition name with at least one such pair. -/
structure PartitionName (L : Libs) where
  device : Name
  pairs : List (SizeSha L)
  device_ne : device ≠ []
  device_token : colon ∉ device
  pairs_ne : pairs ≠ []

section Names

variable {L : Libs}

/-- The tokens of the pairs. -/
def pairTokens (xs : List (SizeSha L)) : List Bytes := xs.flatMap fun x => [x.sizeStr, x.shaStr]

/-- `"EMMC:<device>:<size_1>:<sha1_1>:<size_2>:<sha1_2>:..."` -/
def PartitionName.name (n : PartitionName L) : Name :=
  [colon].intercalate (cstr "EMMC" :: n.device :: pairTokens n.pairs)

/-- The prefix of the device of that size has that digest. -/
def SizeSha.Matches (x : SizeSha L) (dev : Bytes) : Prop :=
  x.size ≤ dev.length ∧ parseSha1 x.shaStr = some (L.sha1 (dev.take x.size))

theorem strtol_nil (w : Nat) : strtol w [] = (0, []) := rfl

theorem clampLong_lt (w : Nat) (v : Int) : clampLong w v < 2 ^ (w - 1) := by
  have hpos : (0 : Int) < 2 ^ (w - 1) := by positivity
  unfold clampLong
  omega

theorem strtol_lt (w : Nat) (str : Bytes) : (strtol w str).1 < 2 ^ (w - 1) := by
  have hpos : (0 : Int) < 2 ^ (w - 1) := by positivity
  have hsigned : ∀ x : Bool × Bytes,
      (if x.2.takeWhile isdigit = [] then ((0 : Int), str)
        else (clampLong w (if x.1 then -(decimalValue 0 (x.2.takeWhile isdigit) : Int)
          else decimalValue 0 (x.2.takeWhile isdigit)), x.2.dropWhile isdigit)).1 < 2 ^ (w - 1) := by
    intro x
    split
    · exact hpos
    · exact clampLong_lt w _
  exact hsigned _

theorem SizeSha.size_lt (x : SizeSha L) : x.size < 2 ^ L.sizeBits := by
  have hlt := strtol_lt L.sizeBits x.sizeStr
  have hle : (2 : Nat) ^ (L.sizeBits - 1) ≤ 2 ^ L.sizeBits := Nat.pow_le_pow_right (by decide) (by omega)
  have hnat : x.size < 2 ^ (L.sizeBits - 1) := by
    rw [SizeSha.size, Int.toNat_lt_of_ne_zero (by positivity)]
    exact_mod_cast hlt
  omega

/-- The size as the `size_t` that the code assigns it to. -/
theorem SizeSha.size_eq (x : SizeSha L) :
    ((strtol L.sizeBits x.sizeStr).1 % 2 ^ L.sizeBits).toNat = x.size := by
  have hpos := x.positive
  have hlt : (strtol L.sizeBits x.sizeStr).1 < 2 ^ L.sizeBits := by
    have h := x.size_lt
    rw [SizeSha.size] at h
    zify at h
    rwa [Int.toNat_of_nonneg (by omega)] at h
  rw [Int.emod_eq_of_lt (by omega) hlt, SizeSha.size]

theorem SizeSha.size_pos (x : SizeSha L) : 0 < x.size := by
  have := x.positive
  rw [SizeSha.size]
  omega

theorem SizeSha.sizeStr_ne (x : SizeSha L) : x.sizeStr ≠ [] := by
  intro h
  have hpos := x.positive
  rw [h, strtol_nil] at hpos
  exact absurd hpos (by decide)

theorem hexDigit_colon : hexDigit colon = none := by decide

theorem colon_not_mem_of_parse {n : Nat} {str out : Bytes} (h : parseHexPairs n str = some out) :
    colon ∉ str := by
  induction n, str using parseHexPairs.induct generalizing out with
  | case1 => exact List.not_mem_nil
  | case2 n a b rest ih =>
      simp only [parseHexPairs, Option.bind_eq_bind, Option.bind_eq_some_iff] at h
      obtain ⟨hi, hhi, lo, hlo, tail, htail, -⟩ := h
      simp only [List.mem_cons, not_or]
      refine ⟨?_, ?_, ih htail⟩
      · rintro rfl
        cases hexDigit_colon.symm.trans hhi
      · rintro rfl
        cases hexDigit_colon.symm.trans hlo
  | case3 n str hnil hcons =>
      rw [parseHexPairs.eq_3 n str hnil hcons] at h
      cases h

theorem SizeSha.shaStr_token (x : SizeSha L) : x.shaStr ≠ [] ∧ colon ∉ x.shaStr := by
  obtain ⟨out, h⟩ := Option.isSome_iff_exists.1 x.digest
  refine ⟨?_, colon_not_mem_of_parse h⟩
  intro hnil
  rw [hnil] at h
  cases h

theorem pairTokens_spec {xs : List (SizeSha L)} {tok : Bytes} (h : tok ∈ pairTokens xs) :
    tok ≠ [] ∧ colon ∉ tok := by
  obtain ⟨x, -, hx⟩ := List.mem_flatMap.1 h
  rcases List.mem_pair.1 hx with rfl | rfl
  · exact ⟨x.sizeStr_ne, x.token⟩
  · exact x.shaStr_token

theorem PartitionName.tokens_spec (n : PartitionName L) {tok : Bytes}
    (h : tok ∈ cstr "EMMC" :: n.device :: pairTokens n.pairs) : tok ≠ [] ∧ colon ∉ tok := by
  rcases List.mem_cons.1 h with rfl | h
  · decide
  · rcases List.mem_cons.1 h with rfl | h
    · exact ⟨n.device_ne, n.device_token⟩
    · exact pairTokens_spec h

theorem PartitionName.strtok_name (n : PartitionName L) :
    strtok colon n.name = cstr "EMMC" :: n.device :: pairTokens n.pairs := by
  rw [strtok, PartitionName.name, List.splitOn_intercalate colon (fun _ h => (n.tokens_spec h).2)
    (List.cons_ne_nil _ _), List.filter_eq_self]
  intro tok h
  simpa using (n.tokens_spec h).1

/-- The delimiters stand between the tokens only. -/
theorem count_intercalate {delim : UInt8} (toks : List Bytes) (h : ∀ tok ∈ toks, delim ∉ tok) :
    ([delim].intercalate toks).count delim = toks.length - 1 := by
  induction toks with
  | nil => rfl
  | cons tok toks ih =>
      have htok : tok.count delim = 0 := List.count_eq_zero.2 (h tok (List.mem_cons_self ..))
      cases toks with
      | nil => simpa [List.intercalate] using htok
      | cons next toks =>
          have ih := ih fun t ht => h t (List.mem_cons_of_mem tok ht)
          rw [List.intercalate_cons_cons, List.count_append, List.count_append, htok, ih,
            List.count_singleton_self]
          simp only [List.length_cons]
          omega

theorem length_pairTokens (xs : List (SizeSha L)) : (pairTokens xs).length = 2 * xs.length := by
  induction xs with
  | nil => rfl
  | cons x xs ih =>
      rw [pairTokens, List.flatMap_cons, List.length_append, ← pairTokens, ih]
      simp only [List.length_cons, List.length_nil]
      omega

/-- The pair as the code keeps it. -/
def SizeSha.pair (x : SizeSha L) : Nat × Option Bytes := (x.size, some x.shaStr)

theorem readPairs_pairTokens (xs : List (SizeSha L)) :
    readPairs L xs.length (pairTokens xs) = return some (xs.map SizeSha.pair) := by
  induction xs with
  | nil => rfl
  | cons x xs ih =>
      have hpos := x.size_pos
      have htail : (x.shaStr :: pairTokens xs).tail = pairTokens xs := rfl
      simp only [pairTokens, List.flatMap_cons, List.cons_append, List.nil_append, List.length_cons,
        readPairs, x.size_eq, if_neg (Nat.ne_of_gt hpos)]
      rw [← pairTokens, htail, ih]
      rfl

theorem PartitionName.pairs_count (n : PartitionName L) :
    (n.name.count colon - 1) / 2 = n.pairs.length := by
  rw [PartitionName.name, count_intercalate _ fun _ h => (n.tokens_spec h).2]
  simp only [List.length_cons, length_pairTokens]
  omega

theorem mem_matchingSizes {dev : Bytes} {xs : List (SizeSha L)} {k : Nat} :
    k ∈ matchingSizes L dev (xs.map SizeSha.pair) ↔ ∃ x ∈ xs, x.size = k ∧ x.Matches dev := by
  constructor
  · rintro ⟨p, hp, rfl, hm⟩
    obtain ⟨x, hx, rfl⟩ := List.mem_map.1 hp
    exact ⟨x, hx, rfl, hm⟩
  · rintro ⟨x, hx, rfl, hm⟩
    exact ⟨x.pair, List.mem_map_of_mem hx, rfl, hm⟩

end Names

/-- What a partition name loads: the smallest of its prefixes that has its digest, if there is one,
and nothing else. In particular no access leaves the arrays or the buffer, which has room for the
largest size. -/
theorem loadPartition_smallest (L : Libs) (rt : Runtime) (n : PartitionName L) (s : Fs) (D : Bytes)
    (hD : s.parts n.device = some D) (file : FileContents) :
    ∃ status f, readResult s (loadPartition L rt n.name file) = some (status, f) ∧
      (status = 0 ↔ ∃ x ∈ n.pairs, x.Matches D ∧
        ∀ y ∈ n.pairs, y.size ≤ x.size → y.size ≤ D.length) ∧
      (status = 0 → ∃ k, IsLeast {k | ∃ x ∈ n.pairs, x.size = k ∧ x.Matches D} k ∧
        f.size = k ∧ f.data = some (D.take k) ∧ f.sha1 = L.sha1 (D.take k)) := by
  have hne : n.pairs.map SizeSha.pair ≠ [] := by
    simpa using n.pairs_ne
  obtain ⟨⟨status, f⟩, hload, hzero, hfound⟩ := loadPrefix_finds rt D file hne
    (by
      intro p hp
      obtain ⟨x, -, rfl⟩ := List.mem_map.1 hp
      exact x.size_lt)
    (by
      intro p hp
      obtain ⟨x, -, rfl⟩ := List.mem_map.1 hp
      exact x.digest) s
  refine ⟨status, f, ?_, ?_, ?_⟩
  · simp only [loadPartition, n.strtok_name, ne_eq, not_true_eq_false, if_false, n.pairs_count,
      List.tail_cons, List.head?_cons, readPairs_pairTokens]
    rw [Prog.pure_eq_ret, Prog.ret_bind, (readOnly_sysLoadPart _).readResult_bind]
    simp only [sysLoadPart, Prog.call, readResult, hD, Option.bind_some, hload]
    rfl
  · refine hzero.trans ⟨?_, ?_⟩
    · rintro ⟨k, hk⟩
      obtain ⟨x, hx, -, hm⟩ := mem_matchingSizes.1 hk
      exact ⟨x, hx, hm, fun y _ hle => hle.trans hm.1⟩
    · rintro ⟨x, hx, hm, -⟩
      exact ⟨x.size, mem_matchingSizes.2 ⟨x, hx, rfl, hm⟩⟩
  · intro h
    obtain ⟨k, hleast, rfl⟩ := hfound h
    refine ⟨k, ?_, rfl, rfl, rfl⟩
    have hset : {k | ∃ x ∈ n.pairs, x.size = k ∧ x.Matches D} =
        matchingSizes L D (n.pairs.map SizeSha.pair) := Set.ext fun _ => mem_matchingSizes.symm
    rwa [hset]

namespace Sample

/-- A size and the digest of sample contents. -/
def sizeSha (size : Bytes) (x : Bytes) (token : colon ∉ size)
    (positive : 0 < (strtol 32 size).1) (digest : (parseSha1 (hex x)).isSome = true) :
    SizeSha libs := ⟨size, hex x, token, positive, digest⟩

/-- `EMMC:boot` with a size larger than the device, and one size with two digests. -/
def threePairs : PartitionName libs where
  device := cstr "boot"
  pairs := [sizeSha (cstr "3") (cstr "d") (by decide) (by decide) (by decide),
    sizeSha (cstr "1") (cstr "b") (by decide) (by decide) (by decide),
    sizeSha (cstr "1") (cstr "a") (by decide) (by decide) (by decide)]
  device_ne := by decide
  device_token := by decide
  pairs_ne := by simp

/-- The device `boot` with two bytes. -/
def bootDevice : Fs := { start with parts := fun n => if n = cstr "boot" then some (cstr "ab") else none }

/-- Insertion sort, and buffers of zeros. -/
def zeroed : Runtime where
  qsort := .insertion Nat
  fresh n := List.replicate n 0
  length_fresh _ := List.length_replicate

end Sample

/-- With `ab` in the device the first byte is loaded, though there is a size the device does not
have. -/
theorem loadPartition_threePairs :
    ∃ f, readResult Sample.bootDevice
        (loadPartition Sample.libs Sample.zeroed Sample.threePairs.name ⟨[], none, 0, newStat⟩) =
          some (0, f) ∧ f.size = 1 ∧ f.data = some (cstr "a") := by
  obtain ⟨status, f, hload, hzero, hfound⟩ := loadPartition_smallest Sample.libs Sample.zeroed
    Sample.threePairs Sample.bootDevice (cstr "ab") (by decide) ⟨[], none, 0, newStat⟩
  have hlisted : Sample.sizeSha (cstr "1") (cstr "a") (by decide) (by decide) (by decide) ∈
      Sample.threePairs.pairs := by
    simp [Sample.threePairs]
  have hmatch : (Sample.sizeSha (cstr "1") (cstr "a") (by decide) (by decide) (by decide)).Matches
      (cstr "ab") := ⟨by decide, by decide⟩
  have hstatus : status = 0 := hzero.2 ⟨_, hlisted, hmatch, fun _ _ h => h.trans hmatch.1⟩
  obtain ⟨k, ⟨⟨x, -, hx, -⟩, hleast⟩, hsize, hdata, -⟩ := hfound hstatus
  have hk : k = 1 := by
    have hle : k ≤ 1 := hleast ⟨_, hlisted, by decide, hmatch⟩
    have hpos := x.size_pos
    omega
  subst hk
  exact ⟨f, hstatus ▸ hload, hsize, hdata⟩

end OpenRecovery.ApplyPatch
