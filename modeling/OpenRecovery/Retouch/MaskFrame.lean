import OpenRecovery.Retouch.MaskLaws

/-!
# What masking touches

`Checked.retouchMaskData` is `retouch_mask_data` once more, with every access to the buffer checked:
`none` is an access outside of it. It is `some` of `retouchMaskData` on every buffer.

The offset of an entry is only compared with the beginning of the blob, and the word may begin in
the three bytes before it. `retouchMaskData_frame_iff` says that nothing but such words changes more
than the words below the blob and `mmap_addr`.
-/

set_option autoImplicit false

namespace OpenRecovery.Retouch

open OpenRecovery.Storage

/-! ## Checked accesses -/

namespace Checked

/-- The word at `pos`. -/
def readWord (obj : Bytes) (pos : Nat) : Option (BitVec 32) :=
  (slice obj pos 4).map fun b => BitVec.ofNat 32 (leNat b)

/-- The word at `pos` replaced. -/
def writeWord (obj : Bytes) (pos : Nat) (w : BitVec 32) : Option Bytes :=
  if pos + 4 ≤ obj.length then some (setWord obj pos w) else none

/-- One pass of the loop. The inner `none` is the error return for a bad entry offset. -/
def maskStep (desired : Option (BitVec 32)) (bOffs pOffs : Nat) (st : MaskState) :
    Option (Option MaskState) := do
  let b0 ← st.obj[st.bPtr]?
  let input ← slice st.obj st.bPtr (encodedSize b0)
  let (offset, contents) := decodeBytes st.dec input
  if offset.toInt < -1 ∨ offset.toInt ≥ bOffs then some none
  else do
    let pos := entryPos offset pOffs
    let obj ← match desired with
      | some target => writeWord st.obj pos (contents + target)
      | none => some st.obj
    let word ← readWord obj pos
    let this := word - contents
    let bPtr := st.bPtr + encodedSize b0
    if st.set then
      some (some ⟨obj, bPtr, ⟨offset, contents⟩, st.candidate, true,
        st.mismatch || st.candidate != this⟩)
    else some (some ⟨obj, bPtr, ⟨offset, contents⟩, this, true, st.mismatch⟩)

/-- The loop over the entries. -/
def maskLoop (desired : Option (BitVec 32)) (bOffs pOffs rOffs : Nat) :
    Nat → MaskState → Option (Bool × MaskState)
  | 0, st => some (true, st)
  | fuel + 1, st =>
      if st.bPtr < rOffs then do
        match ← maskStep desired bOffs pOffs st with
        | none => some (false, st)
        | some st' => maskLoop desired bOffs pOffs rOffs fuel st'
      else some (true, st)

/-- `retouch_mask_data`. -/
def retouchMaskData (obj : Bytes) (desired : Option (BitVec 32)) :
    Option (RetouchData × Bytes × BitVec 32) :=
  let target := desired.getD 0
  let skipped := if desired.isNone then RetouchData.notApplicable else RetouchData.matched
  if obj.length < prelinkInfoSize + retouchInfoSize then some (skipped, obj, target)
  else do
    let pOffs := obj.length - prelinkInfoSize
    let rOffs := pOffs - retouchInfoSize
    let pTag ← slice obj (pOffs + 4 : Nat) 4
    if pTag ≠ cstr "PRE " then some (skipped, obj, target)
    else do
      let rTag ← slice obj rOffs 8
      if rTag ≠ cstr "RETOUCH " then some (skipped, obj, target)
      else do
        let blobSize ← readWord obj (rOffs + 8)
        let bOffs := (BitVec.ofNat 32 rOffs - blobSize).toInt
        if bOffs < 0 then some (.error, obj, target)
        else do
          let (ok, st) ← maskLoop desired bOffs.toNat pOffs rOffs (rOffs - bOffs.toNat)
            ⟨obj, bOffs.toNat, initCompressionState, target, false, false⟩
          if !ok || decide (rOffs < st.bPtr) then some (.error, st.obj, target)
          else if st.mismatch then some (.mismatched, st.obj, target)
          else some (.matched, st.obj, st.candidate)

end Checked

/-! ## One pass -/

/-- The offset of the entry passes the check of the loop. -/
def Accepted (bOffs : Nat) (e : DecoderState) : Prop :=
  ¬ (e.offsPrev.toInt < -1 ∨ e.offsPrev.toInt ≥ bOffs)

instance (bOffs : Nat) (e : DecoderState) : Decidable (Accepted bOffs e) :=
  inferInstanceAs (Decidable (¬ _))

/-- The buffer after the word of an entry has been set, if an offset is desired. -/
def writeEntry (desired : Option (BitVec 32)) (pOffs : Nat) (e : DecoderState) (obj : Bytes) : Bytes :=
  match desired with
  | some target => setWord obj (e.pos pOffs) (e.contPrev + target)
  | none => obj

section Pass

variable {desired : Option (BitVec 32)} {bOffs pOffs rOffs : Nat}

theorem maskStep_cases {st st' : MaskState} (h : maskStep desired bOffs pOffs st = some st') :
    decodeInMemory st.obj st.bPtr st.dec = some (st'.bPtr, st'.dec) ∧ Accepted bOffs st'.dec ∧
      st'.obj = writeEntry desired pOffs st'.dec st.obj := by
  unfold maskStep at h
  cases hdec : decodeInMemory st.obj st.bPtr st.dec with
  | none =>
      rw [hdec] at h
      cases h
  | some x =>
      obtain ⟨bPtr, e⟩ := x
      simp only [hdec] at h
      split at h
      · cases h
      · rename_i hoff
        split at h
        · cases h
          exact ⟨rfl, hoff, rfl⟩
        · cases h
          exact ⟨rfl, hoff, rfl⟩

theorem maskStep_isSome (desired : Option (BitVec 32)) (pOffs : Nat) {st : MaskState} {bPtr : Nat}
    {e : DecoderState} (hdec : decodeInMemory st.obj st.bPtr st.dec = some (bPtr, e)) (he : Accepted bOffs e) :
    ∃ st', maskStep desired bOffs pOffs st = some st' ∧ st'.bPtr = bPtr ∧ st'.dec = e := by
  unfold maskStep
  simp only [hdec, if_neg he]
  split
  · exact ⟨_, rfl, rfl, rfl⟩
  · exact ⟨_, rfl, rfl, rfl⟩

theorem maskStep_eq_none {st : MaskState} {bPtr : Nat} {e : DecoderState}
    (hdec : decodeInMemory st.obj st.bPtr st.dec = some (bPtr, e)) (he : ¬ Accepted bOffs e) :
    maskStep desired bOffs pOffs st = none := by
  unfold maskStep
  simp only [hdec, if_pos (not_not.1 he)]

theorem encodedSize_le (b : UInt8) : encodedSize b ≤ 8 := by
  unfold encodedSize
  split
  · decide
  · split
    · decide
    · decide

/-- Before the trailer there is always a whole entry in the buffer. -/
theorem decodeInMemory_isSome {obj : Bytes} {pos : Nat} (h : pos + 8 ≤ obj.length)
    (dec : DecoderState) :
    ∃ b0 input, obj[pos]? = some b0 ∧ slice obj pos (encodedSize b0) = some input ∧
      decodeInMemory obj pos dec =
        some (pos + encodedSize b0, ⟨(decodeBytes dec input).1, (decodeBytes dec input).2⟩) := by
  obtain ⟨b0, hb0⟩ : ∃ b0, obj[pos]? = some b0 := ⟨_, List.getElem?_eq_getElem (by omega)⟩
  have hsize := encodedSize_le b0
  have hslice : slice obj pos (encodedSize b0) = some ((obj.drop pos).take (encodedSize b0)) :=
    slice_natCast (by omega)
  refine ⟨b0, _, hb0, hslice, ?_⟩
  simp only [decodeInMemory, hb0, hslice]

theorem Accepted.offs_lt {e : DecoderState} (h : Accepted bOffs e) (hne : e.offsPrev ≠ -1) :
    e.offsPrev.toNat < bOffs := by
  rw [Accepted, not_or] at h
  have hpos : ∀ p, entryPos e.offsPrev p = e.offsPrev.toNat := fun p => if_neg hne
  -- the trailer plays no part, so it may be anywhere
  rcases entryPos_cases (e.offsPrev.toNat + 1) h.1 h.2 with he | he
  · rw [hpos] at he
    omega
  · rw [hpos] at he
    exact he

/-- The word of an entry is in the buffer. -/
theorem Accepted.pos_add_le {e : DecoderState} (h : Accepted bOffs e) {n : Nat} (hb : bOffs + 3 ≤ n)
    (hp : pOffs + 4 ≤ n) : e.pos pOffs + 4 ≤ n := by
  rw [Accepted, not_or] at h
  rcases entryPos_cases pOffs h.1 h.2 with he | he
  · rw [DecoderState.pos, he]
    exact hp
  · rw [DecoderState.pos]
    omega

end Pass

/-! ## No access outside the buffer -/

namespace Checked

section Access

variable {desired : Option (BitVec 32)} {bOffs pOffs rOffs : Nat}

theorem readWord_eq {obj : Bytes} {pos : Nat} (h : pos + 4 ≤ obj.length) :
    readWord obj pos = some (getWord obj pos) := by
  rw [readWord, slice_natCast h]
  rfl

theorem maskStep_eq {st : MaskState} (hread : st.bPtr + 8 ≤ st.obj.length)
    (hb : bOffs + 3 ≤ st.obj.length) (hp : pOffs + 4 ≤ st.obj.length) :
    maskStep desired bOffs pOffs st = some (Retouch.maskStep desired bOffs pOffs st) := by
  obtain ⟨b0, input, hb0, hslice, hdec⟩ := decodeInMemory_isSome hread st.dec
  simp only [maskStep, Retouch.maskStep, hb0, hslice, hdec, Option.bind_eq_bind, Option.bind_some]
  split
  next => rfl
  next hoff =>
    have hacc : Accepted bOffs ⟨(decodeBytes st.dec input).1, (decodeBytes st.dec input).2⟩ := hoff
    have hpos : entryPos (decodeBytes st.dec input).1 pOffs + 4 ≤ st.obj.length :=
      hacc.pos_add_le hb hp
    cases desired with
    | none =>
        simp only [Option.bind_some, readWord_eq hpos]
        split
        next => rfl
        next => rfl
    | some target =>
        have hlen := length_setWord ((decodeBytes st.dec input).2 + target) hpos
        simp only [writeWord, if_pos hpos, Option.bind_some]
        rw [readWord_eq (by rw [hlen]; exact hpos)]
        simp only [Option.bind_some]
        split
        next => rfl
        next => rfl

/-- The read pointer is before the trailer in every pass, and an entry has at most eight bytes. -/
theorem maskLoop_eq (desired : Option (BitVec 32)) (fuel : Nat) (st : MaskState) (hb : bOffs ≤ st.bPtr) (hr : rOffs + 12 = pOffs)
    (hp : pOffs + 8 = st.obj.length) :
    maskLoop desired bOffs pOffs rOffs fuel st =
      some (Retouch.maskLoop desired bOffs pOffs rOffs fuel st) := by
  induction fuel generalizing st with
  | zero => rfl
  | succ fuel ih =>
      unfold maskLoop Retouch.maskLoop
      by_cases hlt : st.bPtr < rOffs
      · rw [if_pos hlt, if_pos hlt, maskStep_eq (by omega) (by omega) (by omega)]
        cases hstep : Retouch.maskStep desired bOffs pOffs st with
        | none => rfl
        | some st' =>
            obtain ⟨hdec, -, -⟩ := maskStep_cases hstep
            have hlen := maskStep_length (by omega) (by omega) hstep
            have hnext := decodeInMemory_lt hdec
            exact ih st' (by omega) (by omega)
      · rw [if_neg hlt, if_neg hlt]

theorem retouchMaskData_eq (obj : Bytes) (desired : Option (BitVec 32)) :
    retouchMaskData obj desired = some (Retouch.retouchMaskData obj desired) := by
  by_cases hlen : obj.length < prelinkInfoSize + retouchInfoSize
  · rw [retouchMaskData, Retouch.retouchMaskData, if_pos hlen, if_pos hlen]
  · obtain ⟨hr, hp⟩ := prelinkOffs_add (Nat.not_lt.1 hlen)
    have hpre : slice obj (prelinkOffs obj + 4 : Nat) 4 =
        some ((obj.drop (prelinkOffs obj + 4)).take 4) := slice_natCast (by omega)
    have hret : slice obj (retouchOffs obj) 8 = some ((obj.drop (retouchOffs obj)).take 8) :=
      slice_natCast (by omega)
    have hblob : readWord obj (retouchOffs obj + 8) = some (getWord obj (retouchOffs obj + 8)) :=
      readWord_eq (by omega)
    rw [retouchMaskData, if_neg hlen]
    simp only [← prelinkOffs.eq_1, ← retouchOffs.eq_1, hpre, hret, hblob, Option.bind_eq_bind,
      Option.bind_some]
    split
    next htag => rw [retouchMaskData_of_not_hasTrailer fun h => htag h.2.1]
    next hptag =>
      split
      next htag => rw [retouchMaskData_of_not_hasTrailer fun h => htag h.2.2]
      next hrtag =>
        have htrailer : HasTrailer obj := ⟨Nat.not_lt.1 hlen, not_not.1 hptag, not_not.1 hrtag⟩
        rw [← blobOffs.eq_1]
        split
        next hneg => rw [retouchMaskData_of_blob_neg htrailer hneg]
        next hneg =>
          have hloop := maskLoop_eq desired (retouchOffs obj - (blobOffs obj).toNat)
            (maskStart obj desired) (Nat.le_refl _) hr hp
          rw [maskStart] at hloop
          rw [hloop, Retouch.retouchMaskData_eq htrailer (Int.not_lt.1 hneg), Option.bind_some,
            maskReturn, maskStart]
          split
          next => rfl
          next =>
            split
            next => rfl
            next => rfl

end Access

end Checked

/-! ## The run -/

section Run

variable (desired : Option (BitVec 32)) (bOffs pOffs rOffs : Nat)

/-- The local variables after each pass of the loop. -/
def maskTrace : Nat → MaskState → List MaskState
  | 0, _ => []
  | fuel + 1, st =>
      if st.bPtr < rOffs then
        match maskStep desired bOffs pOffs st with
        | none => []
        | some st' => st' :: maskTrace fuel st'
      else []

/-- The entries that the decoder reads from a buffer, up to the first with a bad offset. -/
def acceptedEntries (obj : Bytes) : Nat → Nat → DecoderState → List DecoderState
  | 0, _, _ => []
  | fuel + 1, bPtr, dec =>
      if bPtr < rOffs then
        match decodeInMemory obj bPtr dec with
        | none => []
        | some (bPtr, e) => if Accepted bOffs e then e :: acceptedEntries obj fuel bPtr e else []
      else []

variable {desired bOffs pOffs rOffs}

theorem maskLoop_getLast (fuel : Nat) (st : MaskState) :
    (maskLoop desired bOffs pOffs rOffs fuel st).2 =
      (maskTrace desired bOffs pOffs rOffs fuel st).getLastD st := by
  induction fuel generalizing st with
  | zero => rfl
  | succ fuel ih =>
      unfold maskLoop maskTrace
      by_cases hlt : st.bPtr < rOffs
      · rw [if_pos hlt, if_pos hlt]
        cases hstep : maskStep desired bOffs pOffs st with
        | none => rfl
        | some st' => exact (ih st').trans (List.getLastD_cons ..).symm
      · rw [if_neg hlt, if_neg hlt]
        rfl

theorem getElem?_writeEntry_of_ne {e : DecoderState} {obj : Bytes} {i : Nat}
    (h : e.pos pOffs + 4 ≤ obj.length) (hi : i < e.pos pOffs ∨ e.pos pOffs + 4 ≤ i) :
    (writeEntry desired pOffs e obj)[i]? = obj[i]? := by
  cases desired with
  | none => rfl
  | some target => exact getElem?_setWord_of_ne _ h hi

theorem maskTrace_accepted (fuel : Nat) {st s : MaskState}
    (h : s ∈ maskTrace desired bOffs pOffs rOffs fuel st) : Accepted bOffs s.dec := by
  induction fuel generalizing st with
  | zero => cases h
  | succ fuel ih =>
      unfold maskTrace at h
      split at h
      · split at h
        · cases h
        · rename_i st' hstep
          rcases List.mem_cons.1 h with rfl | h
          · exact (maskStep_cases hstep).2.1
          · exact ih h
      · cases h

/-- Outside the words of the entries that have been decoded nothing changes. -/
theorem maskTrace_outside (fuel : Nat) {st st' : MaskState} {i : Nat}
    (hst' : st' ∈ maskTrace desired bOffs pOffs rOffs fuel st)
    (hi : ∀ s ∈ maskTrace desired bOffs pOffs rOffs fuel st,
      i < s.dec.pos pOffs ∨ s.dec.pos pOffs + 4 ≤ i)
    (hb : bOffs ≤ st.bPtr) (hr : rOffs + 12 = pOffs) (hp : pOffs + 8 = st.obj.length) :
    st'.obj[i]? = st.obj[i]? := by
  induction fuel generalizing st with
  | zero => cases hst'
  | succ fuel ih =>
      unfold maskTrace at hst' hi
      by_cases hlt : st.bPtr < rOffs
      · rw [if_pos hlt] at hst' hi
        cases hstep : maskStep desired bOffs pOffs st with
        | none =>
            rw [hstep] at hst'
            cases hst'
        | some next =>
            simp only [hstep] at hst' hi
            obtain ⟨hdec, hacc, hobj⟩ := maskStep_cases hstep
            have hlen := maskStep_length (by omega) (by omega) hstep
            have hnext := decodeInMemory_lt hdec
            have hfirst : next.obj[i]? = st.obj[i]? := by
              rw [hobj]
              exact getElem?_writeEntry_of_ne (hacc.pos_add_le (by omega) (by omega))
                (hi next List.mem_cons_self)
            rcases List.mem_cons.1 hst' with rfl | hst'
            · exact hfirst
            · refine Eq.trans ?_ hfirst
              exact ih hst' (fun s hs => hi s (List.mem_cons_of_mem next hs)) (by omega) (by omega)
      · rw [if_neg hlt] at hst'
        cases hst'

/-- From the blob on only `mmap_addr` is different. -/
def SameBehind (bOffs pOffs : Nat) (obj x : Bytes) : Prop :=
  ∀ i, bOffs ≤ i → ¬ (pOffs ≤ i ∧ i < pOffs + 4) → x[i]? = obj[i]?

/-- The word of the entry ends before the blob, or its bytes in the blob and behind are there
already. -/
def FitsBefore (obj : Bytes) (bOffs : Nat) (d : BitVec 32) (e : DecoderState) : Prop :=
  Clear bOffs e ∨ (obj.drop bOffs).take (e.offsPrev.toNat + 4 - bOffs) =
    (wordBytes (e.contPrev + d)).drop (bOffs - e.offsPrev.toNat)

theorem getElem?_setWord_of_mem {obj : Bytes} {pos i : Nat} (w : BitVec 32) (hlen : pos + 4 ≤ obj.length)
    (hlow : pos ≤ i) (hhigh : i < pos + 4) : (setWord obj pos w)[i]? = (wordBytes w)[i - pos]? := by
  have hdrop := congrArg (fun l => l[i - pos]?) (drop_setWord w hlen)
  simp only [List.getElem?_drop, Nat.add_sub_cancel' hlow] at hdrop
  rw [hdrop, List.getElem?_append_left]
  show i - pos < 4
  omega

/-- Writing an entry keeps the bytes from the blob on exactly if it fits. -/
theorem sameBehind_setWord_iff {obj x : Bytes} {d : BitVec 32} {e : DecoderState}
    (hx : SameBehind bOffs pOffs obj x) (hacc : Accepted bOffs e) (hb : bOffs + 3 ≤ pOffs)
    (hp : pOffs + 4 ≤ x.length) :
    SameBehind bOffs pOffs obj (setWord x (e.pos pOffs) (e.contPrev + d)) ↔
      FitsBefore obj bOffs d e := by
  have hlen : e.pos pOffs + 4 ≤ x.length := hacc.pos_add_le (by omega) hp
  by_cases hclear : Clear bOffs e
  · refine iff_of_true ?_ (.inl hclear)
    intro i hi hmmap
    rw [getElem?_setWord_of_ne _ hlen, hx i hi hmmap]
    rcases hclear.pos_cases pOffs with hpos | hpos
    · omega
    · omega
  · have hcases := hclear
    rw [Clear, not_or] at hcases
    have hpos : e.pos pOffs = e.offsPrev.toNat := if_neg hcases.1
    have hlt := hacc.offs_lt hcases.1
    rw [hpos] at hlen ⊢
    constructor
    · intro hsame
      right
      apply List.ext_getElem?
      intro k
      by_cases hk : k < e.offsPrev.toNat + 4 - bOffs
      · have hbyte := hsame (bOffs + k) (by omega) (by omega)
        rw [getElem?_setWord_of_mem _ hlen (by omega) (by omega)] at hbyte
        rw [List.getElem?_take_of_lt hk, List.getElem?_drop, List.getElem?_drop, ← hbyte]
        congr 1
        omega
      · rw [List.getElem?_eq_none (by rw [List.length_take]; omega),
          List.getElem?_eq_none (by rw [List.length_drop]; show 4 - _ ≤ k; omega)]
    · rintro (hfits | hfits)
      · exact absurd hfits hclear
      · intro i hi hmmap
        by_cases hin : i < e.offsPrev.toNat + 4
        · have hbyte := congrArg (fun l => l[i - bOffs]?) hfits
          simp only [List.getElem?_take_of_lt (show i - bOffs < e.offsPrev.toNat + 4 - bOffs by omega),
            List.getElem?_drop, Nat.add_sub_cancel' hi] at hbyte
          rw [getElem?_setWord_of_mem _ hlen (by omega) hin, hbyte]
          congr 1
          omega
        · rw [getElem?_setWord_of_ne _ hlen (by omega), hx i hi hmmap]

/-- As long as the entries fit, the decoder reads what it would read from the original buffer. -/
theorem maskTrace_sameBehind_iff {obj : Bytes} (d : BitVec 32) (fuel : Nat) (st : MaskState)
    (hb : bOffs ≤ st.bPtr) (hr : rOffs + 12 = pOffs) (hp : pOffs + 8 = st.obj.length)
    (hlen : st.obj.length = obj.length) (hst : SameBehind bOffs pOffs obj st.obj) :
    (∀ s ∈ maskTrace (some d) bOffs pOffs rOffs fuel st, SameBehind bOffs pOffs obj s.obj) ↔
      ∀ e ∈ acceptedEntries bOffs rOffs obj fuel st.bPtr st.dec, FitsBefore obj bOffs d e := by
  induction fuel generalizing st with
  | zero => exact iff_of_true nofun nofun
  | succ fuel ih =>
      unfold maskTrace acceptedEntries
      by_cases hlt : st.bPtr < rOffs
      · have hread : st.bPtr + 8 ≤ obj.length := by omega
        obtain ⟨b0, input, -, -, hdec⟩ := decodeInMemory_isSome hread st.dec
        set next := st.bPtr + encodedSize b0
        set e : DecoderState := ⟨(decodeBytes st.dec input).1, (decodeBytes st.dec input).2⟩
        have hsize := encodedSize_le b0
        have hdec' : decodeInMemory st.obj st.bPtr st.dec = some (next, e) := by
          apply decodeInMemory_congr hlen hdec
          intro i hlow hhigh
          exact hst i (by omega) (by omega)
        rw [if_pos hlt, if_pos hlt]
        simp only [hdec]
        by_cases hacc : Accepted bOffs e
        · obtain ⟨st', hstep, hnext, he⟩ := maskStep_isSome (some d) pOffs hdec' hacc
          have hobj := (maskStep_cases hstep).2.2
          have hlen' := maskStep_length (by omega) (by omega) hstep
          rw [he, writeEntry] at hobj
          have hfirst := sameBehind_setWord_iff (d := d) hst hacc (by omega) (by omega)
          rw [← hobj] at hfirst
          rw [hstep, if_pos hacc]
          simp only [List.forall_mem_cons, hfirst]
          apply and_congr_right
          intro hfits
          rw [← hnext, ← he]
          exact ih st' (by omega) (by omega) (by omega) (hfirst.2 hfits)
        · rw [maskStep_eq_none hdec' hacc, if_neg hacc]
          exact iff_of_true nofun nofun
      · rw [if_neg hlt, if_neg hlt]
        exact iff_of_true nofun nofun

end Run

/-! ## The whole function -/

section Whole

variable (obj : Bytes) (desired : Option (BitVec 32))

instance : Decidable (HasTrailer obj) := inferInstanceAs (Decidable (_ ∧ _ ∧ _))

/-- The local variables after each pass of the call. -/
def maskRun : List MaskState :=
  if HasTrailer obj ∧ 0 ≤ blobOffs obj then
    maskTrace desired (blobOffs obj).toNat (prelinkOffs obj) (retouchOffs obj)
      (retouchOffs obj - (blobOffs obj).toNat) (maskStart obj desired)
  else []

/-- The entries of the blob, up to the first with a bad offset. -/
def blobEntries : List DecoderState :=
  acceptedEntries (blobOffs obj).toNat (retouchOffs obj) obj
    (retouchOffs obj - (blobOffs obj).toNat) (blobOffs obj).toNat initCompressionState

/-- Byte `i` is in the word at the offset of an entry that the call has decoded. -/
def InWord (i : Nat) : Prop :=
  ∃ st ∈ maskRun obj desired, st.dec.offsPrev.toNat < (blobOffs obj).toNat ∧
    st.dec.offsPrev.toNat ≤ i ∧ i < st.dec.offsPrev.toNat + 4

/-- Byte `i` is in `mmap_addr`. -/
def InMmapAddr (i : Nat) : Prop := prelinkOffs obj ≤ i ∧ i < prelinkOffs obj + 4

/-- After every pass, the only bytes that are different are in words below the blob at the offsets
of decoded entries, or in `mmap_addr`. -/
def WordsOnly : Prop :=
  ∀ st ∈ maskRun obj desired, ∀ i, st.obj[i]? ≠ obj[i]? →
    InWord obj desired i ∧ i < (blobOffs obj).toNat ∨ InMmapAddr obj i

/-- Every entry of the blob that an offset is written to fits. -/
def EntriesFit : Prop :=
  ∀ d ∈ desired, HasTrailer obj → 0 ≤ blobOffs obj →
    ∀ e ∈ blobEntries obj, FitsBefore obj (blobOffs obj).toNat d e

variable {obj desired}

theorem maskRun_eq (htrailer : HasTrailer obj) (hblob : 0 ≤ blobOffs obj) :
    maskRun obj desired =
      maskTrace desired (blobOffs obj).toNat (prelinkOffs obj) (retouchOffs obj)
        (retouchOffs obj - (blobOffs obj).toNat) (maskStart obj desired) := if_pos ⟨htrailer, hblob⟩

theorem maskRun_eq_nil (h : ¬ (HasTrailer obj ∧ 0 ≤ blobOffs obj)) : maskRun obj desired = [] :=
  if_neg h

theorem retouchMaskData_last :
    (retouchMaskData obj desired).2.1 = ((maskRun obj desired).map MaskState.obj).getLastD obj := by
  by_cases htrailer : HasTrailer obj
  · by_cases hblob : 0 ≤ blobOffs obj
    · have hreturn : ∀ (target : BitVec 32) rOffs r, (maskReturn target rOffs r).2.1 = r.2.obj := by
        intro target rOffs r
        unfold maskReturn
        split
        · rfl
        · split
          · rfl
          · rfl
      rw [retouchMaskData_eq htrailer hblob, hreturn, maskLoop_getLast, maskRun_eq htrailer hblob]
      exact (List.getLastD_map ..).symm
    · rw [retouchMaskData_of_blob_neg htrailer (Int.not_le.1 hblob), maskRun_eq_nil fun h => hblob h.2]
      rfl
  · rw [retouchMaskData_of_not_hasTrailer htrailer, maskRun_eq_nil fun h => htrailer h.1]
    rfl

/-- A byte that is different after a pass is in one of the words. -/
theorem maskRun_changed {st : MaskState} (hst : st ∈ maskRun obj desired) {i : Nat}
    (hi : st.obj[i]? ≠ obj[i]?) : InWord obj desired i ∨ InMmapAddr obj i := by
  by_cases h : HasTrailer obj ∧ 0 ≤ blobOffs obj
  · obtain ⟨hr, hp⟩ := prelinkOffs_add h.1.1
    by_contra hno
    rw [not_or] at hno
    apply hi
    have hrun := hst
    rw [maskRun_eq h.1 h.2] at hrun
    refine maskTrace_outside _ hrun ?_ (Nat.le_refl _) hr hp
    intro s hs
    have hacc := maskTrace_accepted _ hs
    rw [← maskRun_eq h.1 h.2] at hs
    by_contra hin
    by_cases hneg : s.dec.offsPrev = -1
    · have hpos : s.dec.pos (prelinkOffs obj) = prelinkOffs obj := if_pos hneg
      exact hno.2 ⟨by omega, by omega⟩
    · have hpos : s.dec.pos (prelinkOffs obj) = s.dec.offsPrev.toNat := if_neg hneg
      exact hno.1 ⟨s, hs, hacc.offs_lt hneg, by omega, by omega⟩
  · rw [maskRun_eq_nil h] at hst
    cases hst

/-- The words are as they should be exactly if nothing else has changed from the blob on. -/
theorem wordsOnly_iff :
    WordsOnly obj desired ↔ ∀ st ∈ maskRun obj desired,
      SameBehind (blobOffs obj).toNat (prelinkOffs obj) obj st.obj := by
  constructor
  · intro h st hst i hi hmmap
    by_contra hne
    rcases h st hst i hne with ⟨-, hlt⟩ | hin
    · omega
    · exact hmmap hin
  · intro h st hst i hne
    by_cases hmmap : InMmapAddr obj i
    · exact .inr hmmap
    · left
      refine ⟨(maskRun_changed hst hne).resolve_right hmmap, ?_⟩
      by_contra hge
      exact hne (h st hst i (Nat.not_lt.1 hge) hmmap)

/-- A probe writes nothing. -/
theorem maskTrace_none {bOffs pOffs rOffs : Nat} (fuel : Nat) {st s : MaskState}
    (h : s ∈ maskTrace none bOffs pOffs rOffs fuel st) : s.obj = st.obj := by
  induction fuel generalizing st with
  | zero => cases h
  | succ fuel ih =>
      unfold maskTrace at h
      split at h
      · split at h
        · cases h
        · rename_i st' hstep
          have hobj := (maskStep_cases hstep).2.2
          rcases List.mem_cons.1 h with rfl | h
          · exact hobj
          · exact (ih h).trans hobj
      · cases h

end Whole

/-- `retouch_mask_data` stays in the buffer and changes only words at the offsets of entries and
`mmap_addr`. These words are below the blob in every pass exactly if the entries of the blob fit. -/
theorem retouchMaskData_frame_iff (obj : Bytes) (desired : Option (BitVec 32)) :
    Checked.retouchMaskData obj desired = some (retouchMaskData obj desired) ∧
      (retouchMaskData obj desired).2.1 = ((maskRun obj desired).map MaskState.obj).getLastD obj ∧
      (∀ st ∈ maskRun obj desired, ∀ i, st.obj[i]? ≠ obj[i]? →
        InWord obj desired i ∨ InMmapAddr obj i) ∧
      (WordsOnly obj desired ↔ EntriesFit obj desired) := by
  refine ⟨Checked.retouchMaskData_eq obj desired, retouchMaskData_last,
    fun st hst i => maskRun_changed hst, ?_⟩
  rw [wordsOnly_iff]
  by_cases h : HasTrailer obj ∧ 0 ≤ blobOffs obj
  · obtain ⟨hr, hp⟩ := prelinkOffs_add h.1.1
    rw [maskRun_eq h.1 h.2]
    cases desired with
    | none =>
        refine iff_of_true ?_ nofun
        intro st hst i hi hmmap
        rw [maskTrace_none _ hst]
        rfl
    | some d =>
        refine (maskTrace_sameBehind_iff d _ (maskStart obj (some d)) (Nat.le_refl _) hr hp rfl
          fun i _ _ => rfl).trans ?_
        constructor
        · intro hfits d' hd' _ _
          cases hd'
          exact hfits
        · intro hfits
          exact hfits d rfl h.1 h.2
  · rw [maskRun_eq_nil h]
    refine iff_of_true nofun ?_
    intro d hd htrailer hblob
    exact absurd ⟨htrailer, hblob⟩ h

namespace Sample

/-- Five bytes, a blob of one short entry for the word at offset 4, and the trailers. -/
def straddling : Bytes :=
  [0, 0, 0, 0, 0] ++ [0x80, 0] ++ cstr "RETOUCH " ++ [2, 0, 0, 0] ++ [0, 0, 0, 0] ++ cstr "PRE "

end Sample

/-- The word begins in the last byte before the blob: the call succeeds, both bytes of the blob and
the first letter of the tag are overwritten, and the binary is no longer taken for a retouchable
one. -/
theorem retouchMaskData_over_blob :
    retouchMaskData Sample.straddling (some 0xfffff000) =
        (.matched, [0, 0, 0, 0, 0] ++ [0xf0, 0xff] ++ 0xff :: cstr "ETOUCH " ++ [2, 0, 0, 0] ++
          [0, 0, 0, 0] ++ cstr "PRE ", 0xfffff000) ∧
      blobOffs Sample.straddling = 5 ∧ retouchOffs Sample.straddling = 7 ∧
      ¬ WordsOnly Sample.straddling (some 0xfffff000) := by
  refine ⟨by decide +kernel, by decide +kernel, by decide, ?_⟩
  intro h
  have hrun : maskRun Sample.straddling (some 0xfffff000) =
      [⟨[0, 0, 0, 0, 0] ++ [0xf0, 0xff] ++ 0xff :: cstr "ETOUCH " ++ [2, 0, 0, 0] ++ [0, 0, 0, 0] ++
        cstr "PRE ", 7, ⟨4, 0⟩, 0xfffff000, true, false⟩] := by decide +kernel
  have hblob : blobOffs Sample.straddling = 5 := by decide +kernel
  have hpre : prelinkOffs Sample.straddling = 19 := by decide
  rcases h _ (by rw [hrun]; exact List.mem_cons_self) 5 (by decide) with ⟨-, hlt⟩ | ⟨hle, -⟩
  · rw [hblob] at hlt
    exact absurd hlt (by decide)
  · rw [hpre] at hle
    exact absurd hle (by decide)

end OpenRecovery.Retouch
