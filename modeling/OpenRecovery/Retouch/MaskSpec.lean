import OpenRecovery.Retouch.MaskData

/-!
# What masking does to a buffer

Words in a buffer with their same and disjoint read lemmas, and the facts about `retouchMaskData`
that its callers rely on. Masking keeps the length of the buffer (`length_retouchMaskData`).
-/

set_option autoImplicit false

namespace OpenRecovery.Retouch

open OpenRecovery.Storage

/-! ## Length -/

theorem length_setWord {obj : Bytes} {pos : Nat} (w : BitVec 32) (h : pos + 4 ≤ obj.length) :
    (setWord obj pos w).length = obj.length := by
  simp only [setWord, wordBytes, List.length_append, List.length_take, List.length_drop,
    List.length_cons, List.length_nil]
  omega

/-- An accepted entry names a word below the blob or the one in the `PRE ` trailer. -/
theorem entryPos_cases {offset : BitVec 32} {bOffs : Nat} (pOffs : Nat)
    (hlow : ¬ offset.toInt < -1) (hhigh : ¬ offset.toInt ≥ bOffs) :
    entryPos offset pOffs = pOffs ∨ entryPos offset pOffs < bOffs := by
  by_cases hneg : offset = -1
  · exact .inl (if_pos hneg)
  · right
    have htoInt : offset.toInt ≠ -1 := by
      intro h
      apply hneg
      apply BitVec.eq_of_toInt_eq
      rw [h]
      rfl
    -- an offset that is neither negative nor -1 is the same number without its sign
    have hnat : (offset.toNat : Int) = offset.toInt := by
      rw [BitVec.toInt_eq_toNat_cond]
      split
      · rfl
      · rename_i hge
        rw [BitVec.toInt_eq_toNat_cond, if_neg hge] at hlow htoInt
        have := offset.isLt
        omega
    rw [entryPos, if_neg hneg]
    omega

theorem maskStep_length {desired : Option (BitVec 32)} {bOffs pOffs : Nat} {st st' : MaskState}
    (hb : bOffs + 3 ≤ st.obj.length) (hp : pOffs + 4 ≤ st.obj.length)
    (h : maskStep desired bOffs pOffs st = some st') : st'.obj.length = st.obj.length := by
  unfold maskStep at h
  cases hdec : decodeInMemory st.obj st.bPtr st.dec with
  | none =>
      rw [hdec] at h
      cases h
  | some x =>
      obtain ⟨bPtr, dec⟩ := x
      simp only [hdec] at h
      split at h
      · cases h
      · rename_i hoff
        rw [not_or] at hoff
        -- the word that is written is inside the buffer
        have hpos : entryPos dec.offsPrev pOffs + 4 ≤ st.obj.length := by
          rcases entryPos_cases pOffs hoff.1 hoff.2 with he | he <;> omega
        cases desired with
        | none =>
            simp only at h
            split at h <;> cases h <;> rfl
        | some target =>
            simp only at h
            split at h <;> cases h <;> exact length_setWord _ hpos

theorem maskLoop_length {desired : Option (BitVec 32)} {bOffs pOffs rOffs : Nat} (fuel : Nat)
    {st : MaskState} (hb : bOffs + 3 ≤ st.obj.length) (hp : pOffs + 4 ≤ st.obj.length) :
    (maskLoop desired bOffs pOffs rOffs fuel st).2.obj.length = st.obj.length := by
  induction fuel generalizing st with
  | zero => rfl
  | succ fuel ih =>
      simp only [maskLoop]
      split
      · cases hstep : maskStep desired bOffs pOffs st with
        | none => rfl
        | some st' =>
            have hlen := maskStep_length hb hp hstep
            -- the bounds are stated for the buffer after the step, which is as long
            rw [← hlen] at hb hp
            exact (ih hb hp).trans hlen
      · rfl

/-- Masking keeps the length of the buffer. -/
theorem length_retouchMaskData (obj : Bytes) (desired : Option (BitVec 32)) :
    (retouchMaskData obj desired).2.1.length = obj.length := by
  unfold retouchMaskData
  simp only
  split
  · rfl
  · rename_i hlen
    split
    · rfl
    · split
      · rfl
      · -- the blob may lie beyond the file, and then the loop makes no pass
        set bOffs := (BitVec.ofNat 32 (obj.length - prelinkInfoSize - retouchInfoSize) -
          getWord obj (obj.length - prelinkInfoSize - retouchInfoSize + 8)).toInt.toNat with hbOffs
        have hloop : (maskLoop desired bOffs (obj.length - prelinkInfoSize)
            (obj.length - prelinkInfoSize - retouchInfoSize)
            (obj.length - prelinkInfoSize - retouchInfoSize - bOffs)
            ⟨obj, bOffs, initCompressionState, desired.getD 0, false, false⟩).2.obj.length =
              obj.length := by
          simp only [prelinkInfoSize, retouchInfoSize] at hlen ⊢
          by_cases hb : bOffs + 3 ≤ obj.length
          · exact maskLoop_length _ hb (by simp only; omega)
          · have hzero : obj.length - 8 - 12 - bOffs = 0 := by omega
            rw [hzero]
            rfl
        split
        · exact hloop
        · split
          · exact hloop
          · exact hloop

end OpenRecovery.Retouch
