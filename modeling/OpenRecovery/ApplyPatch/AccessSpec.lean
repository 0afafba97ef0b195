import OpenRecovery.ApplyPatch.PatchAccess

/-!
# When the patch appliers stay inside their buffers

The code checks upper bounds only: a negative length passes every check, a sum that wraps around
passes too, and the offsets and lengths of a record are not checked at all. The conditions below are
about the numbers in the patch and the lengths of the decompressed streams; each of them is exact.
-/

set_option autoImplicit false

namespace OpenRecovery.ApplyPatch.Access

open OpenRecovery.Storage

/-! ## Safe computations -/

section SafeThen

variable {α β : Type}

/-- The computation returns an error, or a result with the property; it never leaves a buffer and
always ends. -/
def SafeThen (d : Decode α) (Q : α → Prop) : Prop :=
  match d with
  | .ok a => Q a
  | .failed => True
  | .fault => False
  | .hang => False

/-- An error or a result. -/
def Safe (d : Decode α) : Prop := d ≠ .fault ∧ d ≠ .hang

variable {Q : α → Prop}

@[simp] theorem safeThen_ok (a : α) : SafeThen (.ok a) Q ↔ Q a := Iff.rfl

@[simp] theorem safeThen_failed : SafeThen .failed Q ↔ True := Iff.rfl

@[simp] theorem safeThen_fault : SafeThen .fault Q ↔ False := Iff.rfl

@[simp] theorem safeThen_hang : SafeThen .hang Q ↔ False := Iff.rfl

@[simp] theorem safeThen_bind (d : Decode α) (f : α → Decode β) (R : β → Prop) :
    SafeThen (d >>= f) R ↔ SafeThen d fun a => SafeThen (f a) R := by
  cases d <;> rfl

@[simp] theorem safeThen_ofAccess (x : Option α) :
    SafeThen (Decode.ofAccess x) Q ↔ ∃ a, x = some a ∧ Q a := by
  cases x <;> simp [Decode.ofAccess]

@[simp] theorem safeThen_ite (p : Prop) [Decidable p] (a b : Decode α) :
    SafeThen (if p then a else b) Q ↔ if p then SafeThen a Q else SafeThen b Q := by
  split <;> rfl

/-- A weaker statement about the result holds too. -/
theorem SafeThen.mono {d : Decode α} {R : α → Prop} (h : SafeThen d Q) (hqr : ∀ a, Q a → R a) :
    SafeThen d R := by
  cases d with
  | ok a => exact hqr a h
  | failed => exact trivial
  | fault => exact h
  | hang => exact h

/-- Safety alone is the case in which nothing is asked of the result. -/
theorem safe_iff (d : Decode α) : Safe d ↔ SafeThen d fun _ => True := by
  cases d <;> simp [Safe]

end SafeThen

/-! ## Filling a buffer -/

/-- A decompressor that has given all its output ends with an error. -/
def Ends (fin : StreamEnd) : Prop := fin = .streamEnd ∨ fin = .dataError

/-- An empty stream is harmless exactly when its end is reported. -/
theorem safeThen_exhausted {α : Type} {Q : α → Prop} (fin : StreamEnd) :
    SafeThen (exhausted fin) Q ↔ Ends fin := by
  cases fin <;> simp [exhausted, Ends]

/-- `FillBuffer` of `size` bytes into room for `cap`, from a stream that still gives `n`. -/
def FillOk (cap n : Nat) (fin : StreamEnd) (size : Int) (next : Prop) : Prop :=
  0 ≤ size ∧ if size ≤ n then size ≤ cap ∧ next else n ≤ cap ∧ Ends fin

/-- What the loop of `FillBuffer` asks for: room for the bytes and, where the stream is too short
for them, an end that is reported. The continuation sees the lengths only. -/
theorem safeThen_fillBytes {fin : StreamEnd} {Q : Bytes × BzStream → Prop} {next : Prop}
    {n i : Nat} {out buf : Bytes} (hi : i ≤ buf.length)
    (hnext : n ≤ buf.length - i → ∀ new stream, new.length = buf.length →
      stream.out.length = out.length - n → stream.fin = fin → (Q (new, stream) ↔ next)) :
    SafeThen (fillBytes fin n i out buf) Q ↔
      if n ≤ out.length then n ≤ buf.length - i ∧ next
      else out.length ≤ buf.length - i ∧ Ends fin := by
  induction n generalizing i out buf with
  | zero => simp [fillBytes, hnext (Nat.zero_le _) buf ⟨out, fin⟩ rfl rfl rfl]
  | succ n ih =>
    cases out with
    | nil => simp [fillBytes, safeThen_exhausted]
    | cons b out =>
      simp only [fillBytes, safeThen_ite, safeThen_fault, List.length_cons]
      split
      next hlt =>
        rw [ih (by simpa using hlt)]
        · simp only [List.length_set, Nat.add_le_add_iff_right]
          have hroom : ∀ m, m ≤ buf.length - (i + 1) ↔ m + 1 ≤ buf.length - i := by
            intro m
            omega
          simp only [hroom]
        · intro hfits new stream hnew hout hfin
          rw [List.length_set] at hfits hnew
          exact hnext (by omega) new stream hnew (by simpa using hout) hfin
      next hge =>
        have hroom : buf.length - i = 0 := by omega
        simp [hroom]

/-- `FillBuffer` from its first byte on. -/
theorem safeThen_fillBuffer {Q : Bytes × BzStream → Prop} {next : Prop} {i : Nat} {buf : Bytes}
    {size : Int} {stream : BzStream} (hi : i ≤ buf.length)
    (hnext : 0 ≤ size → size.toNat ≤ buf.length - i → ∀ new (rest : BzStream),
      new.length = buf.length → rest.out.length = stream.out.length - size.toNat →
      rest.fin = stream.fin → (Q (new, rest) ↔ next)) :
    SafeThen (fillBuffer buf i size stream) Q ↔
      FillOk (buf.length - i) stream.out.length stream.fin size next := by
  unfold fillBuffer FillOk
  rw [safeThen_ite]
  split
  next hneg => simp [Int.not_le.mpr hneg]
  next hpos =>
    rw [safeThen_fillBytes hi (hnext (Int.not_lt.mp hpos))]
    obtain ⟨k, rfl⟩ := Int.eq_ofNat_of_zero_le (Int.not_lt.mp hpos)
    simp

/-! ## Adding the old data -/

/-- The read of the old data for byte `i` of a diff string: a position that passes the two
comparisons lies in the buffer. -/
def ReadOk (oldLen : Nat) (start oldSize oldpos : Int) (i : Nat) : Prop :=
  0 ≤ int32 (oldpos + i) → int32 (oldpos + i) < oldSize →
    0 ≤ start + int32 (oldpos + i) ∧ start + int32 (oldpos + i) < oldLen

/-- A byte can be read exactly inside the array. -/
theorem byteAt_eq_some (p : Bytes) (i : Int) :
    (∃ b, byteAt p i = some b) ↔ 0 ≤ i ∧ i < p.length := by
  unfold byteAt
  split
  next hneg => simp [Int.not_le.mpr hneg]
  next hpos =>
    obtain ⟨k, rfl⟩ := Int.eq_ofNat_of_zero_le (Int.not_lt.mp hpos)
    simp [List.getElem?_eq_some_iff]

/-- One index of a range, and the others. -/
theorem forall_range_succ {P : Nat → Prop} {i n : Nat} :
    (∀ j, i ≤ j → j < i + (n + 1) → P j) ↔ P i ∧ ∀ j, i + 1 ≤ j → j < i + 1 + n → P j := by
  constructor
  · intro h
    exact ⟨h i (by omega) (by omega), fun j hj hlt => h j (by omega) (by omega)⟩
  · rintro ⟨hi, h⟩ j hj hlt
    rcases Nat.eq_or_lt_of_le hj with rfl | hj
    · exact hi
    · exact h j hj (by omega)

/-- The loop that adds the old bytes: each byte it adds is read inside the source. Induction on the
bytes left. -/
theorem safeThen_addOld_from {old : Bytes} {start oldSize oldpos : Int} {newpos n i : Nat}
    {new : Bytes} {Q : Bytes → Prop} {next : Prop} (hroom : newpos + (i + n) ≤ new.length)
    (hnext : ∀ w : Bytes, w.length = new.length → (Q w ↔ next)) :
    SafeThen (addOld old start oldSize oldpos newpos n i new) Q ↔
      (∀ j, i ≤ j → j < i + n → ReadOk old.length start oldSize oldpos j) ∧ next := by
  induction n generalizing i new with
  | zero =>
    rw [addOld, safeThen_ok, hnext new rfl]
    constructor
    · intro h
      exact ⟨fun j hj hlt => by omega, h⟩
    · exact fun h => h.2
  | succ n ih =>
    rw [forall_range_succ, and_assoc]
    simp only [addOld]
    split
    next hin =>
      have hlt : newpos + i < new.length := by omega
      rw [List.getElem?_eq_getElem hlt]
      have hbyte := byteAt_eq_some old (start + int32 (oldpos + i))
      cases ha : byteAt old (start + int32 (oldpos + i)) with
      | none =>
        rw [ha] at hbyte
        simp only [safeThen_fault, false_iff]
        rintro ⟨h, -⟩
        obtain ⟨b, hb⟩ := hbyte.mpr (h hin.1 hin.2)
        cases hb
      | some a =>
        simp only
        rw [ih (by simpa using by omega) fun w hw => hnext w (by simpa using hw)]
        have hread := hbyte.mp ⟨a, ha⟩
        constructor
        · intro h
          exact ⟨fun _ _ => hread, h⟩
        · exact fun h => h.2
    next hout =>
      rw [ih (by omega) hnext]
      constructor
      · intro h
        exact ⟨fun h0 hlt => absurd ⟨h0, hlt⟩ hout, h⟩
      · exact fun h => h.2

/-- The same from the first byte on. -/
theorem safeThen_addOld {old : Bytes} {start oldSize oldpos : Int} {newpos x : Nat} {new : Bytes}
    {Q : Bytes → Prop} {next : Prop} (hroom : newpos + x ≤ new.length)
    (hnext : ∀ w : Bytes, w.length = new.length → (Q w ↔ next)) :
    SafeThen (addOld old start oldSize oldpos newpos x 0 new) Q ↔
      (∀ i < x, ReadOk old.length start oldSize oldpos i) ∧ next := by
  rw [safeThen_addOld_from (by omega) hnext]
  simp

/-! ## ApplyBSDiffPatchMem -/

/-- The condition on the triples still to come, with the bytes that the diff and the extra stream
still give; `done` is what has to hold where the loop runs to its end. -/
def TriplesOk (oldLen : Nat) (start oldSize : Int) (newSize : Nat) (cfin dfin efin : StreamEnd)
    (done : Prop) : List Triple → Nat → Int → Nat → Nat → Prop
  | [], newpos, _, _, _ => if newpos < newSize then Ends cfin else done
  | t :: ts, newpos, oldpos, dn, en =>
      if newpos < newSize then
        (newSize : Int) < int32 (newpos + t.x) ∨
          FillOk (newSize - newpos) dn dfin t.x
            ((∀ i < t.x.toNat, ReadOk oldLen start oldSize oldpos i) ∧
              ((newSize : Int) < int32 ((newpos + t.x.toNat : Nat) + t.y) ∨
                FillOk (newSize - (newpos + t.x.toNat)) en efin t.y
                  (TriplesOk oldLen start oldSize newSize cfin dfin efin done ts
                    (newpos + t.x.toNat + t.y.toNat) (int32 (int32 (oldpos + t.x) + t.z))
                    (dn - t.x.toNat) (en - t.y.toNat))))
      else done

theorem ite_true_or {p q : Prop} [Decidable p] : (if p then True else q) ↔ p ∨ q := by
  by_cases h : p <;> simp [h]

/-- The main loop of bspatch, triple by triple: its demands are `TriplesOk` of the lengths, whatever
the streams hold. -/
theorem safeThen_patchLoop {old : Bytes} {start oldSize : Int} {cfin : StreamEnd} {done : Prop}
    (ts : List Triple) {new : Bytes} {newpos : Nat} {oldpos : Int} {dstream estream : BzStream} :
    SafeThen (patchLoop old start oldSize cfin ts new newpos oldpos dstream estream)
        (fun _ => done) ↔
      TriplesOk old.length start oldSize new.length cfin dstream.fin estream.fin done ts newpos
        oldpos dstream.out.length estream.out.length := by
  induction ts generalizing new newpos oldpos dstream estream with
  | nil =>
    simp only [patchLoop, TriplesOk, safeThen_ite, safeThen_exhausted, safeThen_ok]
  | cons t ts ih =>
    simp only [patchLoop, TriplesOk]
    by_cases hlt : newpos < new.length
    · rw [if_pos hlt, if_pos hlt, safeThen_ite, safeThen_failed, ite_true_or]
      refine or_congr_right ?_
      rw [safeThen_bind]
      refine safeThen_fillBuffer hlt.le fun hx hroom diffed dstream hnew hdn hdfin => ?_
      rw [safeThen_bind]
      have hadd : newpos + t.x.toNat ≤ diffed.length := by omega
      refine safeThen_addOld hadd fun added hadded => ?_
      have hsize : added.length = new.length := hadded.trans hnew
      rw [safeThen_ite, safeThen_failed, ite_true_or, hsize]
      refine or_congr_right ?_
      rw [safeThen_bind, ← hsize]
      refine safeThen_fillBuffer (by omega) fun hy hroom filled estream hfilled hen hefin => ?_
      rw [ih, hfilled, hsize, hdn, hdfin, hen, hefin]
    · rw [if_neg hlt, if_neg hlt, safeThen_ok]

/-- The condition on a bsdiff patch at `patchOffset`. -/
def BsOk (c : Codecs) (oldLen : Nat) (start oldSize : Int) (data : Bytes) (patchOffset : Int)
    (done : Prop) : Prop :=
  ∃ magic, slice data patchOffset 8 = some magic ∧
    (magic = cstr "BSDIFF40" → ∃ h, bsHeader data patchOffset = some h ∧
      (0 ≤ h.ctrlLen → 0 ≤ h.dataLen → 0 ≤ h.newSize → c.malloc h.newSize.toNat = true →
        let pos := patchOffset + 32
        let cstream := openStream c data pos h.ctrlLen
        let dstream := openStream c data (pos + h.ctrlLen) h.dataLen
        let estream := openStream c data (pos + h.ctrlLen + h.dataLen)
          (data.length - (pos + h.ctrlLen + h.dataLen))
        TriplesOk oldLen start oldSize h.newSize.toNat cstream.fin dstream.fin estream.fin done
          (triplesOf cstream.out) 0 0 dstream.out.length estream.out.length))

/-- `ApplyBSDiffPatchMem` is safe exactly when header and triples are in order. -/
theorem safeThen_applyBSDiffPatchMem {c : Codecs} {old : Bytes} {start oldSize : Int}
    {data : Bytes} {patchOffset : Int} {done : Prop} :
    SafeThen (applyBSDiffPatchMem c old start oldSize data patchOffset) (fun _ => done) ↔
      BsOk c old.length start oldSize data patchOffset done := by
  unfold applyBSDiffPatchMem BsOk
  rw [safeThen_bind, safeThen_ofAccess]
  refine exists_congr fun magic => and_congr_right fun _ => ?_
  by_cases hmagic : magic = cstr "BSDIFF40"
  · rw [if_neg (not_not.mpr hmagic), safeThen_bind, safeThen_ofAccess]
    simp only [hmagic, forall_const]
    refine exists_congr fun h => and_congr_right fun _ => ?_
    by_cases hneg : h.ctrlLen < 0 ∨ h.dataLen < 0 ∨ h.newSize < 0
    · rw [if_pos hneg, safeThen_failed, true_iff]
      intro hctrl hdata hnew
      omega
    · rw [if_neg hneg, safeThen_ite, safeThen_patchLoop, List.length_replicate]
      obtain ⟨hctrl, hdata, hnew⟩ : 0 ≤ h.ctrlLen ∧ 0 ≤ h.dataLen ∧ 0 ≤ h.newSize := by omega
      by_cases hmem : c.malloc h.newSize.toNat = true
      · simp only [hmem, hctrl, hdata, hnew, if_true, forall_const]
      · simp [hmem]
  · simp [hmagic]

/-! ## The records of an image patch -/

/-- The sink that takes everything. -/
def takesAll : Accepts := fun _ _ => true

/-- The condition on a normal record; what follows it has to be in order whatever its outcome. -/
def NormalOk (c : Codecs) (oldLen : Nat) (data : Bytes) (pos : Int) (rest : Int → Prop) : Prop :=
  (data.length : Int) < int32 (pos + 24) ∨
    ∃ h, normalHeader data pos = some h ∧
      BsOk c oldLen (uint32 h.1) (int32 h.2.1) data (int32 h.2.2) True ∧ rest (pos + 24)

/-- The condition on a raw record. -/
def RawOk (data : Bytes) (pos : Int) (rest : Int → Prop) : Prop :=
  (data.length : Int) < int32 (pos + 4) ∨
    ∃ dataLen, read4 data pos = some dataLen ∧
      ((data.length : Int) < int32 (pos + 4 + dataLen) ∨
        0 ≤ dataLen ∧ (∃ piece, slice data (pos + 4) dataLen.toNat = some piece) ∧
          rest (pos + 4 + dataLen))

/-- Inflating the source of a deflate record: the input is empty or ends inside the old data, or
where it is cut off the output has already filled its buffer. -/
def SourceOk (c : Codecs) (old : Bytes) (start len expandedLen : Int) : Prop :=
  (c.inflate ((old.drop start.toNat).take len.toNat)).2 = .starved →
    0 < len → (old.length : Int) < start + len →
    expandedLen < (c.inflate ((old.drop start.toNat).take len.toNat)).1.length

/-- The source inflates to exactly the expected length. -/
def SourceFits (c : Codecs) (old : Bytes) (start len expandedLen : Int) : Prop :=
  (c.inflate ((old.drop start.toNat).take len.toNat)).2 = .streamEnd ∧
    ((c.inflate ((old.drop start.toNat).take len.toNat)).1.length : Int) = expandedLen

/-- The condition on a deflate record. -/
def DeflateOk (c : Codecs) (old data : Bytes) (pos : Int) (rest : Int → Prop) : Prop :=
  (data.length : Int) < int32 (pos + 60) ∨
    ∃ h, deflateHeader data pos = some h ∧
      (c.malloc (uint32 h.expandedLen).toNat = true →
        SourceOk c old (uint32 h.srcStart) (uint32 h.srcLen) (uint32 h.expandedLen) ∧
        (SourceFits c old (uint32 h.srcStart) (uint32 h.srcLen) (uint32 h.expandedLen) →
          BsOk c (uint32 h.expandedLen).toNat 0 (int32 (uint32 h.expandedLen)) data
            (int32 h.patchOffset)
            (((tempBuffer c (uint32 h.expandedLen)).2 = true ∧ c.deflateInit h.params = true) ∧
              rest (pos + 60))))

/-- The condition on one record: `rest` is what has to hold of the position after it. -/
def RecordOk (c : Codecs) (old data : Bytes) (pos : Int) (rest : Int → Prop) : Prop :=
  (data.length : Int) < int32 (pos + 4) ∨
    ∃ type, read4 data pos = some type ∧
      if type = chunkNormal then NormalOk c old.length data (pos + 4) rest
      else if type = chunkRaw then RawOk data (pos + 4) rest
      else if type = chunkDeflate then DeflateOk c old data (pos + 4) rest
      else True

/-- The condition on the records from `pos` on. -/
def RecordsOk (c : Codecs) (old data : Bytes) : Nat → Int → Prop
  | 0, _ => True
  | n + 1, pos => RecordOk c old data pos (RecordsOk c old data n)

/-- The condition on an image patch. -/
def ImageOk (c : Codecs) (old data : Bytes) : Prop :=
  12 ≤ data.length → slice data 0 8 = some (cstr "IMGDIFF2") →
    ∀ numChunks, read4 data 8 = some numChunks → RecordsOk c old data numChunks.toNat 12

section Records

variable {c : Codecs} {old data : Bytes} {pos : Int} {offered : List Bytes} {rest : Int → Prop}

/-- A `CHUNK_NORMAL` record. Its status is dropped, so the next record is reached either way. -/
theorem safeThen_normalRecord (accepts : Accepts) :
    SafeThen (normalRecord c accepts old data pos offered) (fun p => rest p.1) ↔
      NormalOk c old.length data pos rest := by
  unfold normalRecord NormalOk
  rw [safeThen_ite, safeThen_failed, ite_true_or]
  refine or_congr_right ?_
  rw [safeThen_bind, safeThen_ofAccess]
  refine exists_congr fun ⟨srcStart, srcLen, patchOffset⟩ => and_congr_right fun _ => ?_
  rw [← safeThen_applyBSDiffPatchMem]
  simp only [applyBSDiffPatch]
  cases applyBSDiffPatchMem c old (uint32 srcStart) (int32 srcLen) data (int32 patchOffset) with
  | ok new => cases h : accepts offered new <;> simp [h]
  | failed => simp
  | fault => simp
  | hang => simp

/-- A `CHUNK_RAW` record, as long as the sink takes everything. -/
theorem safeThen_rawRecord :
    SafeThen (rawRecord takesAll data pos offered) (fun p => rest p.1) ↔ RawOk data pos rest := by
  unfold rawRecord RawOk
  rw [safeThen_ite, safeThen_failed, ite_true_or]
  refine or_congr_right ?_
  rw [safeThen_bind, safeThen_ofAccess]
  refine exists_congr fun dataLen => and_congr_right fun _ => ?_
  rw [safeThen_ite, safeThen_failed, ite_true_or]
  refine or_congr_right ?_
  by_cases hneg : dataLen < 0
  · simp [hneg, Int.not_le.mpr hneg]
  · simp [hneg, Int.not_lt.mp hneg, takesAll]

/-- Inflating the source of a `CHUNK_DEFLATE` record. -/
theorem safeThen_inflateSource {start len expandedLen : Int} {Q : Bytes → Prop} {next : Prop}
    (hnext : ∀ out : Bytes, (out.length : Int) = expandedLen → (Q out ↔ next)) :
    SafeThen (inflateSource c old start len expandedLen) Q ↔
      SourceOk c old start len expandedLen ∧ (SourceFits c old start len expandedLen → next) := by
  unfold inflateSource SourceOk SourceFits
  rcases c.inflate ((old.drop start.toNat).take len.toNat) with ⟨out, fin⟩
  cases fin with
  | streamEnd =>
    by_cases hlen : (out.length : Int) = expandedLen
    · simp [hlen, hnext out hlen]
    · simp [hlen]
  | dataError => simp
  | starved =>
    simp only [safeThen_ite, safeThen_fault, safeThen_failed, reduceCtorEq, forall_const,
      false_and, false_imp_iff, and_true]
    split
    next hcut =>
      refine iff_of_false not_false fun h => ?_
      exact absurd (h hcut.1 hcut.2.1) (Int.not_lt.mpr hcut.2.2)
    next hcut =>
      refine iff_of_true trivial fun hpos hlt => ?_
      exact Int.not_le.mp fun hle => hcut ⟨hpos, hlt, hle⟩

/-- A sink that takes everything is offered all blocks. -/
theorem safeThen_offerBlocks {Q : List Bytes → Prop} {next : Prop} (bs : List Bytes)
    (hnext : ∀ offered, Q offered ↔ next) :
    SafeThen (offerBlocks takesAll bs offered) Q ↔ next := by
  induction bs generalizing offered with
  | nil => exact hnext offered
  | cons b bs ih => simpa [offerBlocks, takesAll] using ih

/-- A `CHUNK_DEFLATE` record, as long as the sink takes everything. -/
theorem safeThen_deflateRecord :
    SafeThen (deflateRecord c takesAll old data pos offered) (fun p => rest p.1) ↔
      DeflateOk c old data pos rest := by
  unfold deflateRecord DeflateOk
  rw [safeThen_ite, safeThen_failed, ite_true_or]
  refine or_congr_right ?_
  rw [safeThen_bind, safeThen_ofAccess]
  refine exists_congr fun h => and_congr_right fun _ => ?_
  simp only [safeThen_ite, safeThen_failed]
  by_cases hmem : c.malloc (uint32 h.expandedLen).toNat = true
  · simp only [hmem, if_true, forall_const]
    rw [safeThen_bind]
    refine safeThen_inflateSource fun expanded hlen => ?_
    rw [safeThen_bind, ← hlen, Int.toNat_natCast, ← safeThen_applyBSDiffPatchMem]
    refine iff_of_eq (congrArg _ (funext fun target => propext ?_))
    rw [hlen, safeThen_ite]
    split
    next hready =>
      rw [safeThen_bind, and_iff_right hready]
      exact safeThen_offerBlocks _ fun _ => Iff.rfl
    next hready => simp [hready]
  · simp [hmem]

/-! A sink can end the run early and nothing else: what is in order with the sink that takes
everything is in order with every sink. -/

/-- A sink that stops early makes the record no less safe. -/
theorem safeThen_rawRecord_of (accepts : Accepts) (h : RawOk data pos rest) :
    SafeThen (rawRecord accepts data pos offered) (fun p => rest p.1) := by
  unfold rawRecord
  rcases h with hcut | ⟨dataLen, hread, hcut | ⟨hpos, ⟨piece, hpiece⟩, hrest⟩⟩
  · simp [hcut]
  · simp [hread, hcut]
  · simp [hread, Int.not_lt.mpr hpos, hpiece, hrest]

/-- Offering blocks is safe with any sink. -/
theorem safeThen_offerBlocks_of (accepts : Accepts) {Q : List Bytes → Prop} (bs : List Bytes)
    (hnext : ∀ offered, Q offered) : SafeThen (offerBlocks accepts bs offered) Q := by
  induction bs generalizing offered with
  | nil => exact hnext offered
  | cons b bs ih => simp [offerBlocks, ih]

/-- A sink that stops early makes the record no less safe. -/
theorem safeThen_deflateRecord_of (accepts : Accepts) (h : DeflateOk c old data pos rest) :
    SafeThen (deflateRecord c accepts old data pos offered) (fun p => rest p.1) := by
  unfold deflateRecord
  rw [safeThen_ite, safeThen_failed, ite_true_or]
  refine h.imp_right ?_
  rintro ⟨h, hread, hrecord⟩
  rw [safeThen_bind, safeThen_ofAccess]
  refine ⟨h, hread, ?_⟩
  rw [safeThen_ite, safeThen_failed]
  split
  next hmem =>
    rw [safeThen_bind]
    -- the inflated source has the length that the condition is about
    have hsource := (safeThen_inflateSource (fun expanded hlen => and_iff_right hlen)).mpr
      (hrecord hmem)
    refine hsource.mono ?_
    rintro expanded ⟨hlen, hbs⟩
    rw [← hlen, Int.toNat_natCast, ← safeThen_applyBSDiffPatchMem] at hbs
    rw [safeThen_bind, ← hlen]
    refine hbs.mono fun target hdone => ?_
    rw [if_pos hdone.1, safeThen_bind]
    exact safeThen_offerBlocks_of accepts _ fun _ => hdone.2
  next hmem => trivial

/-- One record of any type. -/
theorem safeThen_chunkRecord :
    SafeThen (chunkRecord c takesAll old data pos offered) (fun p => rest p.1) ↔
      RecordOk c old data pos rest := by
  unfold chunkRecord RecordOk
  rw [safeThen_ite, safeThen_failed, ite_true_or]
  refine or_congr_right ?_
  rw [safeThen_bind, safeThen_ofAccess]
  refine exists_congr fun type => and_congr_right fun _ => ?_
  simp only [safeThen_ite, safeThen_failed, safeThen_normalRecord, safeThen_rawRecord,
    safeThen_deflateRecord]

/-- One record of any type, with any sink. -/
theorem safeThen_chunkRecord_of (accepts : Accepts) (h : RecordOk c old data pos rest) :
    SafeThen (chunkRecord c accepts old data pos offered) (fun p => rest p.1) := by
  unfold chunkRecord
  rw [safeThen_ite, safeThen_failed, ite_true_or]
  refine h.imp_right ?_
  rintro ⟨type, hread, h⟩
  rw [safeThen_bind, safeThen_ofAccess]
  refine ⟨type, hread, ?_⟩
  simp only [safeThen_ite, safeThen_failed]
  split_ifs at h ⊢
  · exact (safeThen_normalRecord accepts).mpr h
  · exact safeThen_rawRecord_of accepts h
  · exact safeThen_deflateRecord_of accepts h

/-- The loop over the records: each one is in order, from the position at which it is found. -/
theorem safe_chunkLoop {n : Nat} :
    SafeThen (chunkLoop c takesAll old data n pos offered) (fun _ => True) ↔
      RecordsOk c old data n pos := by
  induction n generalizing pos offered with
  | zero => simp [chunkLoop, RecordsOk]
  | succ n ih =>
    rw [chunkLoop, RecordsOk, safeThen_bind]
    simp only [ih]
    exact safeThen_chunkRecord

/-- The loop over the records, with any sink. -/
theorem safe_chunkLoop_of (accepts : Accepts) {n : Nat} (h : RecordsOk c old data n pos) :
    SafeThen (chunkLoop c accepts old data n pos offered) (fun _ => True) := by
  induction n generalizing pos offered with
  | zero => exact trivial
  | succ n ih =>
    rw [chunkLoop, safeThen_bind]
    exact (safeThen_chunkRecord_of accepts h).mono fun p hp => ih hp

end Records

/-! ## Every patch -/

/-- An image patch is safe with every sink exactly when it is safe with one that takes everything.
-/
theorem safe_applyImagePatch (c : Codecs) (old data : Bytes) :
    (∀ accepts, Safe (applyImagePatch c accepts old data)) ↔ ImageOk c old data := by
  unfold applyImagePatch ImageOk
  simp only [safe_iff, safeThen_ite, safeThen_failed]
  by_cases hshort : data.length < 12
  · simp [hshort, Nat.not_le.mpr hshort]
  · obtain ⟨numChunks, hnum⟩ : ∃ v, read4 data 8 = some v := by
      simp [read4, slice, Nat.not_lt.mp hshort]
    have hmagic : slice data 0 8 = some (data.take 8) := by
      simp [slice]
      omega
    simp only [hshort, if_false, Nat.not_lt.mp hshort, hmagic, Option.some.injEq, hnum,
      Decode.ofAccess_some, Decode.ok_bind, safeThen_ite, safeThen_failed, forall_const,
      forall_eq']
    by_cases heq : data.take 8 = cstr "IMGDIFF2"
    · simp only [heq, ne_eq, not_true_eq_false, if_false, forall_const]
      constructor
      · intro h
        exact safe_chunkLoop.mp (h takesAll)
      · intro h accepts
        exact safe_chunkLoop_of accepts h
    · simp [heq]

/-- A bsdiff patch of its own. The sink is offered the result once, after all reads. -/
theorem safe_applyBSDiffPatch (c : Codecs) (accepts : Accepts) (old data : Bytes)
    (start oldSize patchOffset : Int) (offered : List Bytes) :
    Safe (applyBSDiffPatch c accepts old start oldSize data patchOffset offered) ↔
      BsOk c old.length start oldSize data patchOffset True := by
  rw [safe_iff, applyBSDiffPatch, safeThen_bind, ← safeThen_applyBSDiffPatchMem]
  simp

/-- The three functions on a source and a patch: each ends with an error or a result, inside its
buffers and with no negative length, whatever the sink answers. -/
def PatchSafe (c : Codecs) (old data : Bytes) : Prop :=
  (∀ accepts, Safe (applyImagePatch c accepts old data)) ∧
    (∀ accepts, Safe (applyBSDiffPatch c accepts old 0 old.length data 0 [])) ∧
      Safe (applyBSDiffPatchMem c old 0 old.length data 0)

namespace Sample

/-- Libraries that know nothing but an empty stream. -/
def codecs : Codecs where
  bz _ := ([], .streamEnd)
  inflate _ := ([], .streamEnd)
  deflateInit _ := true
  deflate _ out := out
  malloc _ := true

/-- An image patch with one raw record, whose length is -1. -/
def negativeRaw : Bytes := cstr "IMGDIFF2" ++ write4 1 ++ write4 chunkRaw ++ write4 (-1)

end Sample

end OpenRecovery.ApplyPatch.Access
