import OpenRecovery.ApplyPatch.PatchAccess
import OpenRecovery.ImgDiff.ReadImage
import OpenRecovery.Storage.Qsort
import Mathlib.Order.CompletePartialOrder

/-!
# Breaking a zip archive apart

`ReadZip` of `applypatch/imgdiff.c`. `zipEntries` finds the end of the central directory and reads
the deflate entries from it, `readZip` sorts them and sweeps over the file with two pointers.
`failed` is the null result, and an access outside a buffer is a `fault`; the loop takes fuel, and
`hang` says that it has run out. Offsets and lengths are `int`, the fields of the chunks `size_t`.

`readZip_tiles_iff` says when the chunks tile the archive: the sweep ends with the file, and leaves
out an entry without data that comes after.
-/

set_option autoImplicit false

namespace OpenRecovery.ImgDiff

open OpenRecovery.ApplyPatch OpenRecovery.ApplyPatch.Access OpenRecovery.Storage

/-! ## The central directory -/

/-- `ZipFileEntry`. The name is the C string, up to the first NUL. -/
structure ZipFileEntry where
  dataOffset : Int
  deflateLen : Int
  uncompLen : Int
  filename : Name
  deriving DecidableEq

/-- `fileentry_compare`. -/
def fileentryCompare (a b : ZipFileEntry) : Int :=
  if a.dataOffset < b.dataOffset then -1
  else if a.dataOffset > b.dataOffset then 1
  else 0

/-- The bytes `50 4b x y` stand at the position. -/
def signatureAt (img : Bytes) (pos : Int) (x y : UInt8) : Decode Bool :=
  Decode.ofAccess ((slice img pos 4).map fun b => b = [0x50, 0x4b, x, y])

/-- The loop that looks backwards for the end of the central directory: where it stops. -/
def findEnd (img : Bytes) : Nat → Int → Decode Int
  | 0, i => .ok i
  | n + 1, i =>
      if i ≥ 0 ∧ i > (img.length : Int) - 65600 then do
        let found ← signatureAt img i 0x05 0x06
        if found then .ok i else findEnd img n (i - 1)
      else .ok i

/-- The loop over the central directory: the deflate entries of the next `n` records. -/
def readEntries (img : Bytes) : Nat → Int → Decode (List ZipFileEntry)
  | 0, _ => .ok []
  | n + 1, cd => do
      let good ← signatureAt img cd 0x01 0x02
      if !good then .failed
      else do
        let clen ← .ofAccess (read4 img (cd + 20))
        let ulen ← .ofAccess (read4 img (cd + 24))
        let nlen ← .ofAccess (read2 img (cd + 28))
        let xlen ← .ofAccess (read2 img (cd + 30))
        let mlen ← .ofAccess (read2 img (cd + 32))
        let hoffset ← .ofAccess (read4 img (cd + 42))
        let filename ← .ofAccess (slice img (cd + 46) nlen.toNat)
        let method ← .ofAccess (read2 img (cd + 10))
        let next := cd + 46 + nlen + xlen + mlen
        if method ≠ 8 then readEntries img n next
        else do
          let good ← signatureAt img hoffset 0x03 0x04
          if !good then .failed
          else do
            let lnlen ← .ofAccess (read2 img (hoffset + 26))
            if lnlen ≠ nlen then .failed
            else do
              let lname ← .ofAccess (slice img (hoffset + 30) nlen.toNat)
              if lname ≠ filename then .failed
              else do
                -- may be different from the length in the central directory
                let xlen ← .ofAccess (read2 img (hoffset + 28))
                let rest ← readEntries img n next
                return ⟨int32 (hoffset + 30 + nlen + xlen), clen, ulen, cText filename⟩ :: rest

/-- The deflate entries that the central directory lists. -/
def zipEntries (img : Bytes) : Decode (List ZipFileEntry) := do
  let i ← findEnd img img.length ((img.length : Int) - 20)
  -- the archive consists of a single disk
  let disks ← .ofAccess (slice img (i + 4) 4)
  if disks ≠ [0, 0, 0, 0] then .failed
  else do
    let cdcount ← .ofAccess (read2 img (i + 8))
    let cdoffset ← .ofAccess (read4 img (i + 16))
    readEntries img cdcount.toNat cdoffset

/-! ## The sweep -/

/-- What is not in the source: `qsort`, the memory that chunks are made in, and the contents of a
buffer before anything is written to it. -/
structure ZipRuntime where
  qsort : Qsort ZipFileEntry
  unset : Nat → ImageChunk
  fresh : Nat → Bytes

/-- The chunk of an entry, with the inflated data at the beginning of its buffer. -/
def entryChunk (L : Libs) (rt : ZipRuntime) (i : Nat) (e : ZipFileEntry) (d : Bytes) : ImageChunk :=
  { rt.unset i with
    type := .deflate, start := e.dataOffset.toNat, deflateLen := toSize L e.deflateLen
    deflateData := e.dataOffset.toNat, filename := some e.filename, I := none
    len := toSize L e.uncompLen
    data := .buffer (d ++ rt.fresh (toSize L e.uncompLen - d.length)) }

/-- A normal chunk; its name is a null pointer. -/
def plainChunk (rt : ZipRuntime) (i pos len : Nat) : ImageChunk :=
  { normalChunk (rt.unset i) pos len with filename := none }

/-- The one call of `inflate` for an entry: the data, or `failed` if the stream does not end in the
input or has more output than room. `avail_in` and `avail_out` are `unsigned int`. -/
def inflateEntry (L : Libs) (img : Bytes) (e : ZipFileEntry) : Decode Bytes :=
  let availIn := toSize L e.deflateLen % 2 ^ 32
  let availOut := toSize L e.uncompLen % 2 ^ 32
  let input := (img.drop e.dataOffset.toNat).take availIn
  match L.inflate input, L.inflateStarved input with
  | some (d, _), _ => if d.length ≤ availOut then .ok d else .failed
  | none, some out =>
      -- the next byte of the input is read while there is room for output
      if 0 < availIn ∧ img.length < e.dataOffset.toNat + availIn ∧ out.length ≤ availOut then .fault
      else .failed
  | none, none => .failed

section Sweep

variable (L : Libs) (rt : ZipRuntime) (img : Bytes) (cap : Nat)

/-- The loop over the file, with the entries that are left and the number of the next chunk; `cap`
chunks are allocated. -/
def sweep : Nat → Int → List ZipFileEntry → Nat → Decode (List ImageChunk)
  | 0, _, _, _ => .hang
  | fuel + 1, pos, es, i =>
      if pos < img.length then
        -- a position before the file, or a chunk outside the array
        if pos < 0 ∨ cap ≤ i then .fault
        else
          match es with
          | [] => do
              let len := toSize L (img.length - pos)
              let rest ← sweep fuel (int32 (pos + len)) [] (i + 1)
              return plainChunk rt i pos.toNat len :: rest
          | e :: es =>
              if pos = e.dataOffset then do
                let d ← inflateEntry L img e
                let rest ← sweep fuel (int32 (pos + toSize L e.deflateLen)) es (i + 1)
                return entryChunk L rt i e d :: rest
              else do
                let len := toSize L (e.dataOffset - pos)
                let rest ← sweep fuel (int32 (pos + len)) (e :: es) (i + 1)
                return plainChunk rt i pos.toNat len :: rest
      else return []

end Sweep

/-- The chunk for the whole file, if it is wanted. -/
def pseudoChunks (rt : ZipRuntime) (img : Bytes) (includePseudoChunk : Bool) : List ImageChunk :=
  if includePseudoChunk then [plainChunk rt 0 0 img.length] else []

/-- `ReadZip`, once the file has been read: the pseudo chunk, if there is one, and the others. -/
def readZip (L : Libs) (rt : ZipRuntime) (img : Bytes) (includePseudoChunk : Bool) (fuel : Nat) :
    Decode (List ImageChunk × List ImageChunk) := do
  let entries ← zipEntries img
  let sorted := rt.qsort.sort fileentryCompare entries
  let pseudo := pseudoChunks rt img includePseudoChunk
  let chunks ← sweep L rt img (entries.length * 2 + 2) fuel 0 sorted pseudo.length
  return (pseudo, chunks)

/-! ## What the chunks should be -/

/-- The data of the entries is in the file, and no two entries have a byte in common. The file is
below 2³¹ bytes. -/
structure ZipRanges (img : Bytes) (es : List ZipFileEntry) : Prop where
  small : img.length < 2 ^ 31
  inside : ∀ e ∈ es, 0 ≤ e.dataOffset ∧ 0 ≤ e.deflateLen ∧ e.dataOffset + e.deflateLen ≤ img.length
  disjoint : es.Pairwise fun a b => Disjoint (Set.Ico a.dataOffset (a.dataOffset + a.deflateLen))
    (Set.Ico b.dataOffset (b.dataOffset + b.deflateLen))

/-- The chunks follow each other from `pos` to `fin`. -/
inductive Contiguous : Nat → List ImageChunk → Nat → Prop where
  | nil (pos : Nat) : Contiguous pos [] pos
  | cons {pos fin : Nat} {c : ImageChunk} {cs : List ImageChunk} (start : c.start = pos)
      (tail : Contiguous (pos + c.extent) cs fin) : Contiguous pos (c :: cs) fin

/-- Name, offset, and compressed and uncompressed length of a chunk. -/
def ImageChunk.entry (c : ImageChunk) : Option Name × Nat × Nat × Nat :=
  (c.filename, c.start, c.deflateLen, c.len)

/-- The same of an entry. -/
def ZipFileEntry.entry (L : Libs) (e : ZipFileEntry) : Option Name × Nat × Nat × Nat :=
  (some e.filename, e.dataOffset.toNat, e.deflateLen.toNat, toSize L e.uncompLen)

/-- The deflate chunks. -/
def deflateChunks (cs : List ImageChunk) : List ImageChunk := cs.filter fun c => c.type = .deflate

/-- The chunks cover the file without a gap, and the deflate chunks are the entries. -/
structure ZipTiled (L : Libs) (img : Bytes) (es : List ZipFileEntry) (cs : List ImageChunk) : Prop where
  covers : Contiguous 0 cs img.length
  entries : ((deflateChunks cs).map ImageChunk.entry).Perm (es.map (ZipFileEntry.entry L))

/-! ## Numbers -/

section Numbers

variable (L : Libs)

theorem toSize_cast (v : Int) : (toSize L v : Int) = v % 2 ^ L.sizeBits := by
  rw [toSize, Int.toNat_of_nonneg (Int.emod_nonneg _ (by positivity))]

theorem toSize_of_lt {v : Int} (h0 : 0 ≤ v) (h1 : v < 2 ^ 31) : toSize L v = v.toNat := by
  have hbits : (2 : Int) ^ 32 ≤ 2 ^ L.sizeBits := by
    exact_mod_cast Nat.pow_le_pow_right (by decide : 0 < 2) L.wide
  rw [toSize, Int.emod_eq_of_lt h0 (by omega)]

theorem int32_of_lt {v : Int} (h0 : 0 ≤ v) (h1 : v < 2 ^ 31) : int32 v = v := by
  unfold int32
  rw [Int.bmod_def]
  omega

/-- Adding the difference to a position gives the other position, also after it has wrapped
around. -/
theorem int32_add_toSize (pos : Int) {t : Int} (h0 : 0 ≤ t) (h1 : t < 2 ^ 31) :
    int32 (pos + toSize L (t - pos)) = t := by
  have hdvd : (2 : Int) ^ 32 ∣ 2 ^ L.sizeBits := pow_dvd_pow 2 L.wide
  have hmod : (pos + toSize L (t - pos)) % 2 ^ 32 = t % 2 ^ 32 := by
    rw [toSize_cast, Int.add_emod, Int.emod_emod_of_dvd _ hdvd, ← Int.add_emod]
    congr 1
    omega
  have hbmod : ∀ x : Int, int32 x = (x % 2 ^ 32).bmod (2 ^ 32) := by
    intro x
    exact (Int.emod_bmod ..).symm
  rw [hbmod, hmod, ← hbmod]
  exact int32_of_lt h0 h1

end Numbers

/-! ## The sweep ends -/

section Bound

variable {L : Libs} {rt : ZipRuntime} {img : Bytes} {cap : Nat}

/-- A bound for the number of passes. -/
def budget (pos : Int) : List ZipFileEntry → Nat
  | [] => 1
  | e :: es => if pos = e.dataOffset then 2 * (es.length + 1) else 2 * (es.length + 1) + 1

theorem budget_le (pos : Int) (es : List ZipFileEntry) : budget pos es ≤ 2 * es.length + 1 := by
  cases es with
  | nil => exact Nat.le_refl _
  | cons e es =>
      rw [budget, List.length_cons]
      split
      · exact Nat.le_succ _
      · exact Nat.le_refl _

theorem budget_pos (pos : Int) (es : List ZipFileEntry) : 0 < budget pos es := by
  cases es with
  | nil => exact Nat.one_pos
  | cons e es =>
      rw [budget]
      split
      · omega
      · omega

theorem inflateEntry_inside {e : ZipFileEntry} (hsmall : img.length < 2 ^ 31) (hoff : 0 ≤ e.dataOffset)
    (hlen : 0 ≤ e.deflateLen) (hle : e.dataOffset + e.deflateLen ≤ img.length) :
    Ended (inflateEntry L img e) := by
  have hin : ¬ img.length < e.dataOffset.toNat + toSize L e.deflateLen % 2 ^ 32 := by
    rw [toSize_of_lt L hlen (by omega), Nat.mod_eq_of_lt (by omega)]
    omega
  unfold inflateEntry
  simp only [hin, false_and, and_false, if_false]
  split
  · split
    · exact .inr ⟨_, rfl⟩
    · exact .inl rfl
  · exact .inl rfl
  · exact .inl rfl

theorem Ended.map {α β : Type} {x : Decode α} (h : Ended x) (f : α → β) :
    Ended (x >>= fun a => pure (f a)) := by
  rw [ended_bind]
  rcases h with h | ⟨a, h⟩
  · exact .inl h
  · exact .inr ⟨a, h, .inr ⟨f a, rfl⟩⟩

theorem sweep_end (fuel : Nat) {pos : Int} (h : ¬ pos < img.length) (es : List ZipFileEntry) (i : Nat) :
    sweep L rt img cap (fuel + 1) pos es i = .ok [] := by
  unfold sweep
  exact if_neg h

theorem sweep_ended (hsmall : img.length < 2 ^ 31) (fuel : Nat) {pos : Int} {es : List ZipFileEntry}
    {i : Nat} (h0 : 0 ≤ pos)
    (hin : ∀ e ∈ es, 0 ≤ e.dataOffset ∧ 0 ≤ e.deflateLen ∧ e.dataOffset + e.deflateLen ≤ img.length)
    (hcap : i + budget pos es ≤ cap) (hfuel : budget pos es < fuel) :
    Ended (sweep L rt img cap fuel pos es i) := by
  induction fuel generalizing pos es i with
  | zero => exact absurd hfuel (Nat.not_lt_zero _)
  | succ fuel ih =>
      by_cases hpos : pos < img.length
      · have hslot : ¬ (pos < 0 ∨ cap ≤ i) := by
          have := budget_pos pos es
          omega
        cases es with
        | nil =>
            -- the normal chunk goes to the end of the file
            obtain ⟨fuel, rfl⟩ : ∃ n, fuel = n + 1 := ⟨fuel - 1, by simp only [budget] at hfuel; omega⟩
            have hnext := int32_add_toSize L pos (Int.natCast_nonneg img.length) (by omega)
            unfold sweep
            simp only [if_pos hpos, if_neg hslot, hnext]
            rw [sweep_end fuel (lt_irrefl _)]
            exact .inr ⟨_, rfl⟩
        | cons e es =>
            obtain ⟨hoff, hlen, hle⟩ := hin e List.mem_cons_self
            unfold sweep
            simp only [if_pos hpos, if_neg hslot]
            by_cases hat : pos = e.dataOffset
            · have hnext : int32 (pos + toSize L e.deflateLen) = pos + e.deflateLen := by
                rw [toSize_of_lt L hlen (by omega), Int.toNat_of_nonneg hlen]
                exact int32_of_lt (by omega) (by omega)
              have hbudget := budget_le (pos + e.deflateLen) es
              simp only [budget, if_pos hat] at hcap hfuel
              rw [if_pos hat, hnext, ended_bind]
              rcases inflateEntry_inside hsmall hoff hlen hle with hfail | ⟨d, hd⟩
              · exact .inl hfail
              · refine .inr ⟨d, hd, ?_⟩
                apply Ended.map
                apply ih (by omega) (fun e' he' => hin e' (List.mem_cons_of_mem e he'))
                · omega
                · omega
            · have hnext := int32_add_toSize L pos hoff (by omega)
              simp only [budget, if_neg hat] at hcap hfuel
              rw [if_neg hat]
              simp only [hnext]
              apply Ended.map
              -- the next pass stands on the entry
              apply ih hoff hin
              · simp only [budget, if_true]
                omega
              · simp only [budget, if_true]
                omega
      · rw [sweep_end fuel hpos]
        exact .inr ⟨[], rfl⟩

end Bound

/-! ## What the sweep returns -/

section Result

variable (L : Libs) (rt : ZipRuntime) (img : Bytes)

/-- The chunks of a sweep that returns. -/
inductive Swept : Int → List ZipFileEntry → Nat → List ImageChunk → Prop
  | done {pos : Int} {es : List ZipFileEntry} {i : Nat} (past : ¬ pos < img.length) :
      Swept pos es i []
  | last {pos : Int} {i : Nat} {cs : List ImageChunk} (inside : pos < img.length)
      (rest : Swept (int32 (pos + toSize L (img.length - pos))) [] (i + 1) cs) :
      Swept pos [] i (plainChunk rt i pos.toNat (toSize L (img.length - pos)) :: cs)
  | entry {e : ZipFileEntry} {es : List ZipFileEntry} {i : Nat} {d : Bytes} {cs : List ImageChunk}
      (inside : e.dataOffset < img.length) (data : inflateEntry L img e = .ok d)
      (rest : Swept (int32 (e.dataOffset + toSize L e.deflateLen)) es (i + 1) cs) :
      Swept e.dataOffset (e :: es) i (entryChunk L rt i e d :: cs)
  | gap {pos : Int} {e : ZipFileEntry} {es : List ZipFileEntry} {i : Nat} {cs : List ImageChunk}
      (inside : pos < img.length) (off : pos ≠ e.dataOffset)
      (rest : Swept (int32 (pos + toSize L (e.dataOffset - pos))) (e :: es) (i + 1) cs) :
      Swept pos (e :: es) i (plainChunk rt i pos.toNat (toSize L (e.dataOffset - pos)) :: cs)

variable {L rt img} {cap : Nat}

theorem swept_of_sweep (fuel : Nat) {pos : Int} {es : List ZipFileEntry} {i : Nat} {cs : List ImageChunk}
    (h : sweep L rt img cap fuel pos es i = .ok cs) : Swept L rt img pos es i cs := by
  induction fuel generalizing pos es i cs with
  | zero => cases h
  | succ fuel ih =>
      by_cases hpos : pos < img.length
      · unfold sweep at h
        rw [if_pos hpos] at h
        split at h
        next => cases h
        next hslot =>
          cases es with
          | nil =>
              obtain ⟨rest, hrest, hcs⟩ := Decode.ok_of_bind h
              cases hcs
              exact .last hpos (ih hrest)
          | cons e es =>
              simp only at h
              split at h
              next hat =>
                obtain ⟨d, hd, h⟩ := Decode.ok_of_bind h
                obtain ⟨rest, hrest, hcs⟩ := Decode.ok_of_bind h
                cases hcs
                subst hat
                exact .entry hpos hd (ih hrest)
              next hat =>
                obtain ⟨rest, hrest, hcs⟩ := Decode.ok_of_bind h
                cases hcs
                exact .gap hpos hat (ih hrest)
      · rw [sweep_end fuel hpos] at h
        cases h
        exact .done hpos

/-- The sweep does not make a deflate chunk without data, because an empty input is no stream. -/
theorem Swept.deflateLen_ne_zero (hempty : L.inflate [] = none) {pos : Int} {es : List ZipFileEntry}
    {i : Nat} {cs : List ImageChunk} (h : Swept L rt img pos es i cs) :
    ∀ c ∈ deflateChunks cs, c.deflateLen ≠ 0 := by
  induction h with
  | done past => exact fun c hc => absurd hc List.not_mem_nil
  | last inside rest ih => exact ih
  | gap inside off rest ih => exact ih
  | @entry e es i d cs inside data rest ih =>
      have hne : toSize L e.deflateLen ≠ 0 := by
        intro hzero
        unfold inflateEntry at data
        simp only [hzero, Nat.zero_mod, List.take_zero, hempty, lt_irrefl, false_and, if_false] at data
        split at data
        next hsome => cases hsome
        next => cases data
        next => cases data
      intro c hc
      rcases List.mem_cons.1 hc with rfl | hc
      · exact hne
      · exact ih c hc

theorem Swept.eq_nil {pos : Int} {es : List ZipFileEntry} {i : Nat} {cs : List ImageChunk}
    (h : Swept L rt img pos es i cs) (hpast : ¬ pos < img.length) : cs = [] := by
  cases h with
  | done past => rfl
  | last inside rest => exact absurd inside hpast
  | entry inside data rest => exact absurd inside hpast
  | gap inside off rest => exact absurd inside hpast

theorem Swept.length_le (hsmall : img.length < 2 ^ 31) {pos : Int} {es : List ZipFileEntry} {i : Nat}
    {cs : List ImageChunk} (h : Swept L rt img pos es i cs)
    (hin : ∀ e ∈ es, 0 ≤ e.dataOffset ∧ e.dataOffset ≤ img.length) : cs.length ≤ budget pos es := by
  induction h with
  | done past => exact Nat.zero_le _
  | last inside rest =>
      rw [int32_add_toSize L _ (Int.natCast_nonneg img.length) (by omega)] at rest
      rw [rest.eq_nil (lt_irrefl _)]
      exact Nat.le_refl 1
  | @entry e es i d cs inside data rest ih =>
      have hcs := ih fun e' he' => hin e' (List.mem_cons_of_mem e he')
      have hbudget := budget_le (int32 (e.dataOffset + toSize L e.deflateLen)) es
      simp only [budget, List.length_cons, if_true]
      omega
  | @gap pos e es i cs inside off rest ih =>
      obtain ⟨hoff, hle⟩ := hin e List.mem_cons_self
      have hcs := ih hin
      rw [int32_add_toSize L _ hoff (by omega)] at hcs
      simp only [budget, if_true] at hcs
      simp only [budget, if_neg off, List.length_cons]
      omega

/-- The entries follow each other behind the position, and have data. -/
structure Ahead (img : Bytes) (pos : Int) (es : List ZipFileEntry) : Prop where
  behind : ∀ e ∈ es, pos ≤ e.dataOffset
  inside : ∀ e ∈ es, 0 < e.deflateLen ∧ e.dataOffset + e.deflateLen ≤ img.length
  order : es.Pairwise fun a b => a.dataOffset + a.deflateLen ≤ b.dataOffset

/-- The entries from the first one on. -/
theorem Ahead.head {pos : Int} {e : ZipFileEntry} {es : List ZipFileEntry}
    (h : Ahead img pos (e :: es)) : Ahead img e.dataOffset (e :: es) where
  behind e' he' := by
    rcases List.mem_cons.1 he' with rfl | he'
    · exact le_refl _
    · have hfirst := (List.pairwise_cons.1 h.order).1 e' he'
      have hlen := (h.inside e List.mem_cons_self).1
      omega
  inside := h.inside
  order := h.order

/-- The entries after the first one. -/
theorem Ahead.tail {pos : Int} {e : ZipFileEntry} {es : List ZipFileEntry}
    (h : Ahead img pos (e :: es)) : Ahead img (e.dataOffset + e.deflateLen) es where
  behind := (List.pairwise_cons.1 h.order).1
  inside e' he' := h.inside e' (List.mem_cons_of_mem e he')
  order := (List.pairwise_cons.1 h.order).2

/-- The chunks of a sweep over entries with data: the invariant is that every entry left is at the
position or behind it. -/
theorem Swept.tiles (hsmall : img.length < 2 ^ 31) {pos : Int} {es : List ZipFileEntry} {i : Nat}
    {cs : List ImageChunk} (h : Swept L rt img pos es i cs) (h0 : 0 ≤ pos) (hle : pos ≤ img.length)
    (ahead : Ahead img pos es) :
    Contiguous pos.toNat cs img.length ∧
      (deflateChunks cs).map ImageChunk.entry = es.map (ZipFileEntry.entry L) := by
  induction h with
  | @done pos es i past =>
      have hend : pos = img.length := by omega
      have hes : es = [] := by
        apply List.eq_nil_iff_forall_not_mem.2
        intro e he
        have hbehind := ahead.behind e he
        have hinside := ahead.inside e he
        omega
      subst hes hend
      exact ⟨.nil _, rfl⟩
  | @last pos i cs inside rest ih =>
      rw [int32_add_toSize L _ (Int.natCast_nonneg img.length) (by omega)] at rest
      rw [rest.eq_nil (lt_irrefl _), toSize_of_lt L (by omega) (by omega)]
      refine ⟨.cons rfl ?_, rfl⟩
      have hfin : pos.toNat + (plainChunk rt i pos.toNat (img.length - pos).toNat).extent =
          img.length := by
        show pos.toNat + (img.length - pos).toNat = img.length
        omega
      rw [hfin]
      exact .nil _
  | @entry e es i d cs inside data rest ih =>
      obtain ⟨hlen, hend⟩ := ahead.inside e List.mem_cons_self
      have hsize : toSize L e.deflateLen = e.deflateLen.toNat := toSize_of_lt L (by omega) (by omega)
      have hnext : int32 (e.dataOffset + toSize L e.deflateLen) = e.dataOffset + e.deflateLen := by
        rw [hsize, Int.toNat_of_nonneg (by omega)]
        exact int32_of_lt (by omega) (by omega)
      rw [hnext] at ih
      obtain ⟨hcs, hentries⟩ := ih (by omega) (by omega) ahead.tail
      constructor
      · refine .cons rfl ?_
        have hfin : e.dataOffset.toNat + (entryChunk L rt i e d).extent =
            (e.dataOffset + e.deflateLen).toNat := by
          show e.dataOffset.toNat + toSize L e.deflateLen = _
          omega
        rw [hfin]
        exact hcs
      · have hfirst : (entryChunk L rt i e d).entry = e.entry L := by
          show (some e.filename, e.dataOffset.toNat, toSize L e.deflateLen, toSize L e.uncompLen) = _
          rw [hsize, ZipFileEntry.entry]
        show (entryChunk L rt i e d).entry :: (deflateChunks cs).map ImageChunk.entry = _
        rw [hfirst, hentries, List.map_cons]
  | @gap pos e es i cs inside off rest ih =>
      have hbehind := ahead.behind e List.mem_cons_self
      obtain ⟨hlen, hend⟩ := ahead.inside e List.mem_cons_self
      rw [int32_add_toSize L _ (by omega) (by omega)] at ih
      obtain ⟨hcs, hentries⟩ := ih (by omega) (by omega) ahead.head
      constructor
      · refine .cons rfl ?_
        have hfin : pos.toNat + (plainChunk rt i pos.toNat (toSize L (e.dataOffset - pos))).extent =
            e.dataOffset.toNat := by
          show pos.toNat + toSize L (e.dataOffset - pos) = _
          rw [toSize_of_lt L (by omega) (by omega)]
          omega
        rw [hfin]
        exact hcs
      · exact hentries

end Result

/-! ## The whole function -/

theorem fileentryCompare_le (a b : ZipFileEntry) :
    fileentryCompare a b ≤ 0 ↔ a.dataOffset ≤ b.dataOffset := by
  unfold fileentryCompare
  split
  · omega
  · split
    · omega
    · omega

theorem isCompare_fileentryCompare : IsCompare fileentryCompare :=
  .of_key ZipFileEntry.dataOffset fileentryCompare_le

/-- Sorting puts disjoint entries that have data one behind the other. -/
theorem ahead_sort (rt : ZipRuntime) {img : Bytes} {es : List ZipFileEntry} (h : ZipRanges img es)
    (hdata : ∀ e ∈ es, e.deflateLen ≠ 0) : Ahead img 0 (rt.qsort.sort fileentryCompare es) := by
  have hperm := rt.qsort.perm fileentryCompare es
  have hinside : ∀ e ∈ rt.qsort.sort fileentryCompare es, 0 ≤ e.dataOffset ∧ 0 < e.deflateLen ∧
      e.dataOffset + e.deflateLen ≤ img.length := by
    intro e he
    obtain ⟨hoff, hlen, hle⟩ := h.inside e (hperm.mem_iff.1 he)
    have hne := hdata e (hperm.mem_iff.1 he)
    omega
  refine ⟨fun e he => (hinside e he).1, fun e he => (hinside e he).2, ?_⟩
  have hdisjoint := hperm.symm.pairwise h.disjoint fun {a b} hab => hab.symm
  have hsorted := rt.qsort.sorted fileentryCompare es isCompare_fileentryCompare
  refine (hsorted.and hdisjoint).imp_of_mem ?_
  rintro a b ha hb ⟨hle, hab⟩
  have hab := Set.Ico_disjoint_Ico.1 hab
  have hle := (fileentryCompare_le a b).1 hle
  have hlena := (hinside a ha).2.1
  have hlenb := (hinside b hb).2.1
  omega

/-- On an archive whose deflate entries lie apart from each other in the file, `ReadZip` returns,
the chunks fit into the array, and they tile the archive exactly when every deflate entry has data.
-/
theorem readZip_tiles_iff (L : Libs) (hempty : L.inflate [] = none) (rt : ZipRuntime) (img : Bytes)
    (includePseudoChunk : Bool) (entries : List ZipFileEntry) (hentries : zipEntries img = .ok entries)
    (hranges : ZipRanges img entries) :
    (∃ fuel, Ended (readZip L rt img includePseudoChunk fuel)) ∧
      ∀ fuel first chunks, readZip L rt img includePseudoChunk fuel = .ok (first, chunks) →
        first = pseudoChunks rt img includePseudoChunk ∧
        first.length + chunks.length ≤ entries.length * 2 + 2 ∧
        (ZipTiled L img entries chunks ↔ ∀ e ∈ entries, e.deflateLen ≠ 0) := by
  have hperm := rt.qsort.perm fileentryCompare entries
  have hin : ∀ e ∈ rt.qsort.sort fileentryCompare entries,
      0 ≤ e.dataOffset ∧ 0 ≤ e.deflateLen ∧ e.dataOffset + e.deflateLen ≤ img.length :=
    fun e he => hranges.inside e (hperm.mem_iff.1 he)
  have hbudget : (pseudoChunks rt img includePseudoChunk).length +
      budget 0 (rt.qsort.sort fileentryCompare entries) ≤ entries.length * 2 + 2 := by
    have hpseudo : (pseudoChunks rt img includePseudoChunk).length ≤ 1 := by
      unfold pseudoChunks
      split
      · exact Nat.le_refl 1
      · exact Nat.zero_le 1
    have hle := budget_le 0 (rt.qsort.sort fileentryCompare entries)
    rw [hperm.length_eq] at hle
    omega
  simp only [readZip, hentries, Decode.ok_bind]
  constructor
  · refine ⟨entries.length * 2 + 3, Ended.map ?_ _⟩
    exact sweep_ended hranges.small _ (le_refl 0) hin hbudget (by omega)
  · intro fuel first chunks h
    obtain ⟨cs, hsweep, hcs⟩ := Decode.ok_of_bind h
    cases hcs
    have hswept := swept_of_sweep fuel hsweep
    have hlength := hswept.length_le hranges.small fun e he => by
      have := hin e he
      omega
    refine ⟨rfl, by omega, ?_, ?_⟩
    · intro htiled e he hzero
      -- a chunk for an entry without data would have been inflated from nothing
      have hmem : e.entry L ∈ (deflateChunks chunks).map ImageChunk.entry :=
        htiled.entries.mem_iff.2 (List.mem_map_of_mem he)
      obtain ⟨c, hc, hentry⟩ := List.mem_map.1 hmem
      apply hswept.deflateLen_ne_zero hempty c hc
      have hlen : c.deflateLen = e.deflateLen.toNat := congrArg (fun x => x.2.2.1) hentry
      rw [hlen, hzero]
      rfl
    · intro hdata
      obtain ⟨hcovers, hdeflate⟩ := hswept.tiles hranges.small (le_refl 0) (Int.natCast_nonneg _)
        (ahead_sort rt hranges hdata)
      refine ⟨hcovers, ?_⟩
      rw [hdeflate]
      exact hperm.map _

namespace Sample

/-- The memory is zero, and `qsort` an insertion sort. -/
def zipRuntime : ZipRuntime where
  qsort := .insertion ZipFileEntry
  unset := zeroChunk
  fresh n := List.replicate n 0

/-- An archive with the one deflate entry `a`, which has an extra field of `xlen` bytes in the local
header and the compressed data `data`. -/
def archive (xlen : UInt8) (data : Bytes) : Bytes :=
  [0x50, 0x4b, 3, 4] ++ List.replicate 22 0 ++ [1, 0, xlen, 0, 0x61] ++ data ++
  ([0x50, 0x4b, 1, 2] ++ List.replicate 6 0 ++ [8, 0] ++ List.replicate 8 0 ++ write4 data.length ++
    write4 0 ++ [1, 0, 0, 0, 0, 0] ++ List.replicate 8 0 ++ write4 0 ++ [0x61]) ++
  ([0x50, 0x4b, 5, 6, 0, 0, 0, 0, 1, 0, 1, 0] ++ write4 47 ++ write4 (31 + data.length) ++ [0, 0])

/-- Its entry. -/
def archiveEntry (xlen : UInt8) (data : Bytes) : ZipFileEntry :=
  ⟨31 + xlen.toNat, data.length, 0, [0x61]⟩

/-- The chunks when the data is the empty stream. -/
def archiveChunks : List ImageChunk :=
  [plainChunk zipRuntime 1 0 31, entryChunk emptyStream zipRuntime 2 (archiveEntry 0 [3, 0]) [],
    plainChunk zipRuntime 3 33 69]

end Sample

/-- An entry with the empty stream, and the pseudo chunk. -/
theorem readZip_tiles_one :
    readZip Sample.emptyStream Sample.zipRuntime (Sample.archive 0 [3, 0]) true 5 =
        .ok ([plainChunk Sample.zipRuntime 0 0 102], Sample.archiveChunks) ∧
      ZipTiled Sample.emptyStream (Sample.archive 0 [3, 0]) [Sample.archiveEntry 0 [3, 0]]
        Sample.archiveChunks := by
  have hentries : zipEntries (Sample.archive 0 [3, 0]) = .ok [Sample.archiveEntry 0 [3, 0]] := by
    decide +kernel
  have hranges : ZipRanges (Sample.archive 0 [3, 0]) [Sample.archiveEntry 0 [3, 0]] :=
    ⟨by decide, by decide, List.pairwise_singleton _ _⟩
  have hread : readZip Sample.emptyStream Sample.zipRuntime (Sample.archive 0 [3, 0]) true 5 =
      .ok ([plainChunk Sample.zipRuntime 0 0 102], Sample.archiveChunks) := by decide +kernel
  have hall := readZip_tiles_iff Sample.emptyStream rfl Sample.zipRuntime _ true _ hentries hranges
  exact ⟨hread, (hall.2 5 _ _ hread).2.2.2 (by decide)⟩

/-- The extra field in the local header reaches to the end of the archive, and an entry without data
comes after it: the one chunk covers the archive, and there is none for the entry. -/
theorem readZip_drops_entry :
    zipEntries (Sample.archive 69 []) = .ok [Sample.archiveEntry 69 []] ∧
      ZipRanges (Sample.archive 69 []) [Sample.archiveEntry 69 []] ∧
      readZip Sample.emptyStream Sample.zipRuntime (Sample.archive 69 []) false 2 =
        .ok ([], [plainChunk Sample.zipRuntime 0 0 100]) ∧
      ¬ ZipTiled Sample.emptyStream (Sample.archive 69 []) [Sample.archiveEntry 69 []]
        [plainChunk Sample.zipRuntime 0 0 100] := by
  refine ⟨by decide +kernel, ⟨by decide, by decide, List.pairwise_singleton _ _⟩,
    by decide +kernel, ?_⟩
  intro htiled
  have hlength := htiled.entries.length_eq
  exact absurd hlength (by decide)

end OpenRecovery.ImgDiff
