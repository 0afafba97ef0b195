import OpenRecovery.ApplyPatch.LoopsSpec

/-!
# What ApplyImagePatch reports

`ApplyImagePatch` looks at the outcome of every raw and every deflate record, and at nothing of a
normal record. So it returns 0 with all chunks written exactly if no normal chunk fails, or a record
after the one that fails ends the call with an error.
-/

set_option autoImplicit false

namespace OpenRecovery.ApplyPatch.Loops

open OpenRecovery.Storage
open OpenRecovery.ApplyPatch.Access

/-! ## The output of a chunk -/

/-- The pieces that make up the complete output of the record at `pos`, and the position after it;
`failed` where the record is cut off or its output cannot be produced. -/
def chunkPieces (c : Codecs) (n : Nat) (old data : Bytes) (pos : Int) :
    Decode (List Bytes × Int) := do
  let type ← Decode.ofAccess (read4 data pos)
  if type = chunkNormal then do
    let (srcStart, srcLen, patchOffset) ← Decode.ofAccess (normalHeader data (pos + 4))
    let new ← applyBSDiffPatchMem c n old (uint32 srcStart) (int32 srcLen) data (int32 patchOffset)
    .ok ([new], pos + 4 + 24)
  else if type = chunkRaw then do
    let dataLen ← Decode.ofAccess (read4 data (pos + 4))
    let piece ← Decode.ofAccess (slice data (pos + 4 + 4) dataLen.toNat)
    .ok ([piece], pos + 4 + 4 + dataLen)
  else if type = chunkDeflate then do
    let h ← Decode.ofAccess (deflateHeader data (pos + 4))
    let target ← deflateTarget c n old data h
    if deflateReady c h then
      let out := c.deflate h.params target
      .ok (deflateBlocks (tempBuffer c (uint32 h.expandedLen)).1 out.length out, pos + 4 + 60)
    else .failed
  else .failed

section Sinks

variable {τ : Type} (sink : SinkFn τ)

/-- The pieces go to the sink one after another; `none` as soon as it does not take a whole one. -/
def deliver : List Bytes → Output τ → Option (Output τ)
  | [], o => some o
  | piece :: pieces, o =>
      let (taken, tok) := sink o.tok piece
      if taken < piece.length then none else deliver pieces ⟨tok, o.ctx ++ piece⟩

/-- The complete output of the chunk at `pos` is produced, and the sink takes all of it. -/
def ChunkDone (c : Codecs) (n : Nat) (old data : Bytes) (pos : Int) (o : Output τ) (pos' : Int)
    (o' : Output τ) : Prop :=
  ∃ pieces, chunkPieces c n old data pos = .ok (pieces, pos') ∧ deliver sink pieces o = some o'

/-- The complete output of the `k` chunks from `pos` on is produced and taken. -/
def AllDone (c : Codecs) (n : Nat) (old data : Bytes) : Nat → Int → Output τ → Prop
  | 0, _, _ => True
  | k + 1, pos, o =>
      ∃ pos' o', ChunkDone sink c n old data pos o pos' o' ∧ AllDone c n old data k pos' o'

/-- `ApplyImagePatch` returns 0 only if every chunk has been written. -/
def Reports (c : Codecs) (old data : Bytes) (o : Output τ) : Prop :=
  ∀ n o', applyImagePatch sink c n old data o = .ok o' →
    ∃ numChunks, read4 data 8 = some numChunks ∧ AllDone sink c n old data numChunks.toNat 12 o

/-! ## The condition -/

/-- At `pos` there is a normal record, and `ApplyBSDiffPatch` fails on it. -/
def NormalFails (c : Codecs) (n : Nat) (old data : Bytes) (pos : Int) (o : Output τ) : Prop :=
  ∃ srcStart srcLen patchOffset status o', read4 data pos = some chunkNormal ∧
    normalHeader data (pos + 4) = some (srcStart, srcLen, patchOffset) ∧
    applyBSDiffPatch sink c n old (uint32 srcStart) (int32 srcLen) data (int32 patchOffset) o =
      .ok (status, o') ∧ status ≠ 0

/-- One of the `k` records from `pos` on ends the call: it is cut off, of unknown type, or a raw or
deflate record that fails. -/
def LaterError (c : Codecs) (n : Nat) (old data : Bytes) : Nat → Int → Output τ → Prop
  | 0, _, _ => False
  | k + 1, pos, o =>
      ∀ pos' o', chunkRecord sink c n old data pos o = .ok (pos', o') →
        LaterError c n old data k pos' o'

/-- Of the `k` records from `pos` on, the first normal one that fails is followed by a record that
ends the call. -/
def Told (c : Codecs) (n : Nat) (old data : Bytes) : Nat → Int → Output τ → Prop
  | 0, _, _ => True
  | k + 1, pos, o =>
      ∀ pos' o', chunkRecord sink c n old data pos o = .ok (pos', o') →
        (NormalFails sink c n old data pos o → LaterError sink c n old data k pos' o') ∧
          (¬ NormalFails sink c n old data pos o → Told c n old data k pos' o')

/-- The condition on a whole patch. -/
def ImageTold (c : Codecs) (n : Nat) (old data : Bytes) (o : Output τ) : Prop :=
  12 ≤ data.length → slice data 0 8 = some (cstr "IMGDIFF2") →
    ∀ numChunks, read4 data 8 = some numChunks → Told sink c n old data numChunks.toNat 12 o

end Sinks

/-! ## One record -/

section Records

variable {τ : Type} {sink : SinkFn τ} {c : Codecs} {n : Nat} {old data : Bytes} {pos pos' : Int}
  {o o' : Output τ}

theorem deliver_cons {piece : Bytes} {pieces : List Bytes}
    (htaken : (sink o.tok piece).1 = piece.length) :
    deliver sink (piece :: pieces) o =
      deliver sink pieces ⟨(sink o.tok piece).2, o.ctx ++ piece⟩ := by
  simp [deliver, htaken]

/-- One turn of the loop around `deflate`, where the sink takes the block. -/
theorem deflateLoop_ok {tempSize : Nat} {out : Bytes}
    (h : deflateLoop sink true tempSize n out o = .ok o') :
    ∃ m, n = m + 1 ∧ (sink o.tok (out.take tempSize)).1 = (out.take tempSize).length ∧
      (if out.length < tempSize then
          ⟨(sink o.tok (out.take tempSize)).2, o.ctx ++ out.take tempSize⟩ = o'
        else
          deflateLoop sink true tempSize m (out.drop tempSize)
            ⟨(sink o.tok (out.take tempSize)).2, o.ctx ++ out.take tempSize⟩ = .ok o') := by
  cases n with
  | zero => cases h
  | succ m =>
    simp only [deflateLoop, if_true, ne_eq, true_and] at h
    split at h
    next => cases h
    next htaken =>
      refine ⟨m, rfl, not_not.mp htaken, ?_⟩
      split at h
      next hlast =>
        rw [if_pos hlast]
        exact Decode.ok.inj h
      next hlast =>
        rw [if_neg hlast]
        rwa [List.length_take_of_le (Nat.not_lt.mp hlast)] at h

theorem deflateLoop_not_ready_ne_ok (tempSize n : Nat) (out : Bytes) (o : Output τ) :
    deflateLoop sink false tempSize n out o ≠ .ok o' := by
  induction n generalizing out o with
  | zero => rintro ⟨⟩
  | succ n ih =>
    simp only [deflateLoop, Bool.false_eq_true, false_and, if_false]
    split
    · rintro ⟨⟩
    · exact ih _ _

/-- The loop around `deflate` delivers its blocks. -/
theorem deliver_of_deflateLoop {tempSize : Nat} (hsize : 0 < tempSize) {out : Bytes} (fuel : Nat)
    (hfuel : out.length ≤ fuel) (h : deflateLoop sink true tempSize n out o = .ok o') :
    deliver sink (deflateBlocks tempSize fuel out) o = some o' := by
  induction fuel generalizing n out o with
  | zero =>
    obtain ⟨m, rfl, htaken, hrest⟩ := deflateLoop_ok h
    have hlast : out.length < tempSize := by omega
    rw [List.take_of_length_le hlast.le] at htaken hrest
    rw [if_pos hlast] at hrest
    rw [deflateBlocks, deliver_cons htaken, deliver, hrest]
  | succ fuel ih =>
    obtain ⟨m, rfl, htaken, hrest⟩ := deflateLoop_ok h
    rw [deflateBlocks]
    split
    next hlast =>
      rw [List.take_of_length_le hlast.le] at htaken hrest
      rw [if_pos hlast] at hrest
      rw [deliver_cons htaken, deliver, hrest]
    next hlast =>
      rw [if_neg hlast] at hrest
      rw [deliver_cons htaken]
      exact ih (by rw [List.length_drop]; omega) hrest

/-- The status of a normal record is known from its data and the answer of the sink. -/
theorem applyBSDiffPatch_zero {start oldSize patchOffset : Int}
    (h : applyBSDiffPatch sink c n old start oldSize data patchOffset o = .ok (0, o')) :
    ∃ new, applyBSDiffPatchMem c n old start oldSize data patchOffset = .ok new ∧
      deliver sink [new] o = some o' := by
  unfold applyBSDiffPatch at h
  split at h
  next new hnew =>
    refine ⟨new, hnew, ?_⟩
    simp only [sinkNew, Decode.ok.injEq] at h
    simp only [deliver]
    split at h
    next => cases h
    next htaken =>
      rw [if_neg htaken]
      exact congrArg some (Prod.mk.inj h).2
  next => cases h
  next => cases h
  next => cases h

/-- A normal chunk that fails is not written. -/
theorem applyBSDiffPatch_nonzero {start oldSize patchOffset status : Int}
    (h : applyBSDiffPatch sink c n old start oldSize data patchOffset o = .ok (status, o'))
    (hstatus : status ≠ 0) {new : Bytes}
    (hnew : applyBSDiffPatchMem c n old start oldSize data patchOffset = .ok new) :
    deliver sink [new] o = none := by
  rw [applyBSDiffPatch, hnew] at h
  simp only [sinkNew, Decode.ok.injEq] at h
  simp only [deliver]
  split at h
  next htaken => rw [if_pos htaken]
  next => exact absurd (Prod.mk.inj h).1.symm hstatus

theorem not_chunkDone_of_normalFails (h : NormalFails sink c n old data pos o) :
    ¬ ChunkDone sink c n old data pos o pos' o' := by
  obtain ⟨srcStart, srcLen, patchOffset, status, _, htype, hheader, happly, hstatus⟩ := h
  rintro ⟨pieces, hpieces, hdeliver⟩
  simp only [chunkPieces, htype, hheader, Decode.ofAccess_some, Decode.ok_bind, if_true] at hpieces
  -- the complete output would need the sink to take what it has refused
  obtain ⟨new, hnew, hout⟩ := Decode.ok_of_bind hpieces
  obtain ⟨rfl, rfl⟩ := Prod.mk.inj (Decode.ok.inj hout)
  rw [applyBSDiffPatch_nonzero happly hstatus hnew] at hdeliver
  cases hdeliver

theorem chunkDone_normal (htype : read4 data pos = some chunkNormal)
    (h : normalRecord sink c n old data (pos + 4) o = .ok (pos', o'))
    (hnormal : ¬ NormalFails sink c n old data pos o) :
    ChunkDone sink c n old data pos o pos' o' := by
  unfold normalRecord at h
  split at h
  next => cases h
  next =>
    obtain ⟨⟨srcStart, srcLen, patchOffset⟩, hheader, h⟩ := Decode.ok_of_bind h
    replace hheader := Decode.some_of_ofAccess hheader
    obtain ⟨⟨status, o₁⟩, happly, h⟩ := Decode.ok_of_bind h
    obtain ⟨rfl, rfl⟩ := Prod.mk.inj (Decode.ok.inj h)
    -- the status is the one thing nobody looks at
    have hzero : status = 0 := by
      by_contra hstatus
      exact hnormal ⟨_, _, _, _, _, htype, hheader, happly, hstatus⟩
    subst hzero
    obtain ⟨new, hnew, hdeliver⟩ := applyBSDiffPatch_zero happly
    refine ⟨[new], ?_, hdeliver⟩
    simp only [chunkPieces, htype, hheader, Decode.ofAccess_some, Decode.ok_bind, if_true, hnew]

theorem chunkDone_raw (htype : read4 data pos = some chunkRaw)
    (h : rawRecord sink data (pos + 4) o = .ok (pos', o')) :
    ChunkDone sink c n old data pos o pos' o' := by
  unfold rawRecord at h
  split at h
  next => cases h
  next =>
    obtain ⟨dataLen, hlen, h⟩ := Decode.ok_of_bind h
    replace hlen := Decode.some_of_ofAccess hlen
    split_ifs at h with hover hneg
    obtain ⟨piece, hpiece, h⟩ := Decode.ok_of_bind h
    replace hpiece := Decode.some_of_ofAccess hpiece
    simp only at h
    split at h
    next => cases h
    next htaken =>
      obtain ⟨rfl, rfl⟩ := Prod.mk.inj (Decode.ok.inj h)
      -- a raw record is checked against its length, which is that of the piece
      have hwhole : (sink o.tok piece).1 = piece.length := by
        rw [not_not.mp htaken, slice_length hpiece]
        exact (Int.toNat_of_nonneg (Int.not_lt.mp hneg)).symm
      refine ⟨[piece], ?_, deliver_cons hwhole⟩
      have hkind : chunkRaw ≠ chunkNormal := by decide
      simp only [chunkPieces, htype, hlen, hpiece, hkind, Decode.ofAccess_some, Decode.ok_bind,
        if_true, if_false]

theorem chunkDone_deflate (htype : read4 data pos = some chunkDeflate)
    (h : deflateRecord sink c n old data (pos + 4) o = .ok (pos', o')) :
    ChunkDone sink c n old data pos o pos' o' := by
  unfold deflateRecord at h
  split at h
  next => cases h
  next =>
    obtain ⟨header, hheader, h⟩ := Decode.ok_of_bind h
    replace hheader := Decode.some_of_ofAccess hheader
    obtain ⟨target, htarget, h⟩ := Decode.ok_of_bind h
    obtain ⟨o₁, hloop, h⟩ := Decode.ok_of_bind h
    obtain ⟨rfl, rfl⟩ := Prod.mk.inj (Decode.ok.inj h)
    -- with parameters `deflateInit2` refuses the loop does not end
    have hready : deflateReady c header = true := by
      by_contra hready
      rw [Bool.not_eq_true] at hready
      rw [hready] at hloop
      exact deflateLoop_not_ready_ne_ok _ _ _ _ hloop
    rw [hready] at hloop
    refine ⟨_, ?_, deliver_of_deflateLoop (tempBuffer_pos _ _) _ le_rfl hloop⟩
    have hkind : chunkDeflate ≠ chunkNormal ∧ chunkDeflate ≠ chunkRaw := by decide
    simp only [chunkPieces, htype, hheader, htarget, hkind.1, hkind.2, hready,
      Decode.ofAccess_some, Decode.ok_bind, if_true, if_false]

/-- A record that does not end the call is written, but for a normal one that fails. -/
theorem chunkDone_of_chunkRecord (h : chunkRecord sink c n old data pos o = .ok (pos', o'))
    (hnormal : ¬ NormalFails sink c n old data pos o) :
    ChunkDone sink c n old data pos o pos' o' := by
  unfold chunkRecord at h
  split at h
  next => cases h
  next =>
    obtain ⟨type, htype, h⟩ := Decode.ok_of_bind h
    replace htype := Decode.some_of_ofAccess htype
    split_ifs at h with hn hr hd
    · exact chunkDone_normal (hn ▸ htype) h hnormal
    · exact chunkDone_raw (hr ▸ htype) h
    · exact chunkDone_deflate (hd ▸ htype) h

theorem ChunkDone.unique {pos₁ pos₂ : Int} {o₁ o₂ : Output τ}
    (h₁ : ChunkDone sink c n old data pos o pos₁ o₁)
    (h₂ : ChunkDone sink c n old data pos o pos₂ o₂) : pos₁ = pos₂ ∧ o₁ = o₂ := by
  obtain ⟨pieces₁, hpieces₁, hdeliver₁⟩ := h₁
  obtain ⟨pieces₂, hpieces₂, hdeliver₂⟩ := h₂
  rw [hpieces₁] at hpieces₂
  obtain ⟨rfl, rfl⟩ := Prod.mk.inj (Decode.ok.inj hpieces₂)
  rw [hdeliver₁] at hdeliver₂
  exact ⟨rfl, Option.some.inj hdeliver₂⟩

/-! ## The records of a patch -/

theorem laterError_iff (k : Nat) :
    LaterError sink c n old data k pos o ↔ ∀ o', chunkLoop sink c n old data k pos o ≠ .ok o' := by
  induction k generalizing pos o with
  | zero => exact ⟨False.elim, fun h => h o rfl⟩
  | succ k ih =>
    rw [LaterError, chunkLoop]
    cases hrecord : chunkRecord sink c n old data pos o with
    | ok p =>
      constructor
      · intro h
        exact (ih.mp (h p.1 p.2 rfl))
      · rintro h pos' o' hp
        cases hp
        exact ih.mpr h
    | failed => exact ⟨by rintro - _ ⟨⟩, by rintro - _ _ ⟨⟩⟩
    | fault => exact ⟨by rintro - _ ⟨⟩, by rintro - _ _ ⟨⟩⟩
    | hang => exact ⟨by rintro - _ ⟨⟩, by rintro - _ _ ⟨⟩⟩

/-- The step of the induction: what the first record contributes. -/
theorem allDone_succ {k : Nat} (h : chunkRecord sink c n old data pos o = .ok (pos', o')) :
    AllDone sink c n old data (k + 1) pos o ↔
      ¬ NormalFails sink c n old data pos o ∧ AllDone sink c n old data k pos' o' := by
  constructor
  · rintro ⟨pos₁, o₁, hdone, hrest⟩
    have hnormal : ¬ NormalFails sink c n old data pos o := fun hfails =>
      not_chunkDone_of_normalFails hfails hdone
    obtain ⟨rfl, rfl⟩ := hdone.unique (chunkDone_of_chunkRecord h hnormal)
    exact ⟨hnormal, hrest⟩
  · rintro ⟨hnormal, hrest⟩
    exact ⟨pos', o', chunkDone_of_chunkRecord h hnormal, hrest⟩

theorem told_iff (k : Nat) :
    Told sink c n old data k pos o ↔
      ((∃ o', chunkLoop sink c n old data k pos o = .ok o') →
        AllDone sink c n old data k pos o) := by
  induction k generalizing pos o with
  | zero => exact ⟨fun _ _ => trivial, fun _ => trivial⟩
  | succ k ih =>
    rw [Told, chunkLoop]
    cases hrecord : chunkRecord sink c n old data pos o with
    | ok p =>
      rw [allDone_succ hrecord]
      simp only [Decode.ok.injEq, Decode.ok_bind]
      constructor
      · rintro h ⟨o', hloop⟩
        obtain ⟨hlater, hrest⟩ := h p.1 p.2 rfl
        have hnormal : ¬ NormalFails sink c n old data pos o := fun hfails =>
          (laterError_iff k).mp (hlater hfails) o' hloop
        exact ⟨hnormal, ih.mp (hrest hnormal) ⟨o', hloop⟩⟩
      · rintro h pos' o' rfl
        constructor
        · intro hfails
          -- a failure here must not be followed by a good end
          exact (laterError_iff k).mpr fun o₁ hloop => (h ⟨o₁, hloop⟩).1 hfails
        · intro _
          exact ih.mpr fun hloop => (h hloop).2
    | failed => exact ⟨fun _ h => (by cases h.choose_spec), by rintro - _ _ ⟨⟩⟩
    | fault => exact ⟨fun _ h => (by cases h.choose_spec), by rintro - _ _ ⟨⟩⟩
    | hang => exact ⟨fun _ h => (by cases h.choose_spec), by rintro - _ _ ⟨⟩⟩

end Records

/-- A result of `ApplyImagePatch` is one of the loop over the records. -/
theorem applyImagePatch_ok_iff {τ : Type} {sink : SinkFn τ} {c : Codecs} {n : Nat}
    {old data : Bytes} {o o' : Output τ} :
    applyImagePatch sink c n old data o = .ok o' ↔
      12 ≤ data.length ∧ slice data 0 8 = some (cstr "IMGDIFF2") ∧
        ∃ numChunks, read4 data 8 = some numChunks ∧
          chunkLoop sink c n old data numChunks.toNat 12 o = .ok o' := by
  unfold applyImagePatch
  constructor
  · intro h
    split at h
    next => cases h
    next hlong =>
      obtain ⟨magic, hmagic, h⟩ := Decode.ok_of_bind h
      replace hmagic := Decode.some_of_ofAccess hmagic
      split at h
      next => cases h
      next heq =>
        obtain ⟨numChunks, hnum, h⟩ := Decode.ok_of_bind h
        exact ⟨Nat.not_lt.mp hlong, not_not.mp heq ▸ hmagic, numChunks, Decode.some_of_ofAccess hnum, h⟩
  · rintro ⟨hlong, hmagic, numChunks, hnum, h⟩
    simp only [Nat.not_lt.mpr hlong, if_false, hmagic, hnum, Decode.ofAccess_some, Decode.ok_bind,
      ne_eq, not_true_eq_false, h]

namespace Sample

/-- An image patch with one normal record, whose bsdiff patch is no bsdiff patch: it is the image
patch itself. -/
def badNormal : Bytes := cstr "IMGDIFF2" ++ write4 1 ++ write4 chunkNormal ++ List.replicate 24 0

end Sample

end OpenRecovery.ApplyPatch.Loops
