import OpenRecovery.ImgDiff.BsDiffSpec

/-!
# Identical data

`bsdiff` on a file and itself, whatever array it searches: every byte scores at the offset 0, so
that no match it finds is worth a new block before the end, and the one block emitted there adds
zeros to the whole of the old data.
-/

set_option autoImplicit false

namespace OpenRecovery.ImgDiff

open OpenRecovery.ApplyPatch OpenRecovery.Edify OpenRecovery.Storage

variable {old : Bytes}

theorem sameAt_self {k : ℕ} (hk : k < old.length) : sameAt old old 0 k = some true := by
  rw [sameAt, Int.add_zero, if_pos (by omega), byteAt_natCast hk]
  simp

/-- At the offset 0 every byte scores. -/
theorem hits_self {k : ℕ} (hk : k ≤ old.length) : hits old old 0 k = k := by
  induction k with
  | zero => rfl
  | succ k ih => rw [hits_succ, ih (by omega), sameAt_self (by omega), if_pos rfl]

theorem search_length_le (I : SuffixIndex old) {scan : ℕ} (hscan : scan ≤ old.length) :
    ∃ p l : ℕ, search I.entries old (old.drop scan) (old.length + 1) 0 old.length = some (p, l) ∧
      scan + l ≤ old.length := by
  obtain ⟨p, l, hsearch, -, hl⟩ := search_spec I (old.drop scan) (Nat.zero_le old.length)
    (Nat.le_refl _) (show old.length - 0 < old.length + 1 by omega)
  refine ⟨p, l, hsearch, ?_⟩
  have h := matchlen_le (old.drop p) (old.drop scan)
  rw [← hl, List.length_drop] at h
  omega

/-- What the inner loop leaves: the end of the data, or a match that scores as well at the old
offset. -/
structure Matched (old : Bytes) (f : Found) : Prop where
  le : f.scan ≤ old.length
  pos : ∃ p, f.pos = some p
  stop : f.scan < old.length → f.len = f.oldscore ∧ 0 < f.len ∧ f.scan + f.len ≤ old.length

/-- The score is the number of bytes from `scan` up to where it has been counted. -/
theorem scanLoop_self (I : SuffixIndex old) {fuel scan scsc : ℕ} {len : Int} {pos : Option Int}
    (hscan : scan ≤ old.length) (hscsc : scsc ≤ old.length)
    (hpos : scan < old.length ∨ ∃ p, pos = some p) (hfuel : old.length - scan < fuel) :
    ∃ f, scanLoop I old 0 fuel scsc ⟨scan, len, pos, (scsc : Int) - scan⟩ = some f ∧
      Matched old f ∧ scan ≤ f.scan := by
  induction fuel generalizing scan scsc len pos with
  | zero => omega
  | succ fuel ih =>
    rw [scanLoop]
    by_cases hlt : scan < old.length
    · obtain ⟨p, l, hsearch, hle⟩ := search_length_le I hscan
      obtain ⟨m, hm⟩ : ∃ m, max scsc (scan + l) = m := ⟨_, rfl⟩
      have hadd : addScore old old 0 (scan + l - scsc) scsc ((scsc : Int) - scan) =
          some ((m : Int) - scan) := by
        rw [addScore_spec (by omega) (by omega), hits_self hscsc, hits_self (by omega)]
        congr 1
        omega
      have htoNat : ((scan : Int) + (l : Int) - scsc).toNat = scan + l - scsc := by omega
      have hmax : max (scsc : Int) ((scan : Int) + (l : Int)) = m := by omega
      rw [if_pos (show ((scan : ℕ) : Int) < old.length by omega)]
      simp only [Int.toNat_natCast, hsearch, Option.bind_eq_bind, Option.bind_some, htoNat, hadd, hmax,
        sameAt_self hlt, if_true]
      split
      · rename_i hbreak
        have hfound : (scan : Int) ≤ old.length ∧ (l : Int) = m - scan ∧ 0 < (l : Int) ∧
            (scan : Int) + l ≤ old.length := by omega
        exact ⟨_, rfl, ⟨hfound.1, ⟨p, rfl⟩, fun _ => hfound.2⟩, Int.le_refl _⟩
      · have hcast : ((scan : Int) + 1) = ((scan + 1 : ℕ) : Int) := by push_cast; rfl
        have hscore : (m : Int) - scan - 1 = (m : Int) - (scan + 1 : ℕ) := by push_cast; ring
        rw [hcast, hscore]
        obtain ⟨f, hf, hdone, hge⟩ := @ih (scan + 1) m l (some p) (by omega) (by omega)
          (Or.inr ⟨p, rfl⟩) (by omega)
        exact ⟨f, hf, hdone, by omega⟩
    · rw [if_neg (show ¬((scan : ℕ) : Int) < old.length by omega)]
      have hle : (scan : Int) ≤ old.length ∧ ¬(scan : Int) < old.length := by omega
      exact ⟨_, rfl, ⟨hle.1, hpos.resolve_left hlt, fun h => absurd h hle.2⟩, Int.le_refl _⟩

theorem forwardLoop_self {fuel i : ℕ} (hi : i ≤ old.length) (hfuel : old.length - i < fuel) :
    forwardLoop old old 0 0 old.length fuel i i i i = some (old.length : Int) := by
  induction fuel generalizing i with
  | zero => omega
  | succ fuel ih =>
    rw [forwardLoop, Int.zero_add]
    by_cases hlt : i < old.length
    · have hcast : ((i : Int) + 1) = ((i + 1 : ℕ) : Int) := by push_cast; rfl
      rw [if_pos (by omega)]
      simp only [byteAt_natCast hlt, Option.bind_eq_bind, Option.bind_some, if_true, hcast]
      rw [if_pos (by push_cast; omega)]
      exact ih (by omega) (by omega)
    · obtain rfl : i = old.length := by omega
      rw [if_neg (by omega)]

theorem diffBytes_self {n k : ℕ} (h : k + n ≤ old.length) :
    diffBytes old old n k k = some (List.replicate n 0) := by
  induction n generalizing k with
  | zero => rfl
  | succ n ih =>
    have hcast : ((k : Int) + 1) = ((k + 1 : ℕ) : Int) := by push_cast; rfl
    simp only [diffBytes, byteAt_natCast (show k < old.length by omega), hcast,
      ih (show k + 1 + n ≤ old.length by omega), Option.bind_eq_bind, Option.bind_some]
    rw [UInt8.sub_self]
    rfl

/-- Nothing has been emitted yet. -/
structure Untouched (old : Bytes) (st : DiffState) : Prop where
  lastscan : st.lastscan = 0
  lastpos : st.lastpos = 0
  lastoffset : st.lastoffset = 0
  db : st.db = []
  eb : st.eb = []
  ctrl : st.ctrl = []
  nonneg : 0 ≤ st.scan + st.len
  le : st.scan + st.len ≤ old.length
  pos : st.scan + st.len < old.length ∨ ∃ p, st.pos = some p

/-- The whole of the data in one block. -/
structure OneBlock (old : Bytes) (st : DiffState) : Prop where
  db : st.db = List.replicate old.length 0
  eb : st.eb = []
  ctrl : ∃ seek, st.ctrl = [⟨old.length, 0, seek⟩]

theorem emitBlock_self {st : DiffState} (h : Untouched old st) (len pos : Int) :
    ∃ st', emitBlock old old st old.length len pos = some st' ∧ OneBlock old st' ∧
      st'.scan = old.length := by
  have hext : extend old old 0 0 old.length pos = some ((old.length : Int), 0) := by
    have hforward := @forwardLoop_self old _ _ (Nat.zero_le _)
      (by omega : old.length - 0 < ((old.length : Int) - 0).toNat.succ)
    rw [Nat.cast_zero] at hforward
    rw [extend, backward, if_neg (Int.lt_irrefl _), hforward]
    show (if (0 : Int) + old.length > old.length - 0 then _ else some _) = _
    rw [if_neg (by omega)]
  have hdiff : diffBytes old old old.length 0 0 = some (List.replicate old.length 0) :=
    diffBytes_self (Nat.le_of_eq (Nat.zero_add _))
  rw [emitBlock, h.lastscan, h.lastpos, hext, h.db, h.eb, h.ctrl]
  have hextra : (old.length : Int) - 0 - (0 + old.length) = 0 := by ring
  have hroom : ¬((old.length : Int) < 0 ∨ (0 : Int) < 0 ∨ (0 : Int) + old.length > old.length + 1 ∨
      (0 : Int) + 0 > old.length + 1) := by omega
  simp only [Option.bind_eq_bind, Option.bind_some, List.length_nil, Nat.cast_zero, hextra, hroom,
    if_false, Int.toNat_natCast, hdiff, Int.toNat_zero, copyBytes, List.nil_append]
  exact ⟨_, rfl, ⟨rfl, rfl, _, rfl⟩, rfl⟩

/-- A pass of the outer loop emits nothing before the end. -/
theorem diffStep_self (I : SuffixIndex old) {st : DiffState} (h : Untouched old st) :
    ∃ st', diffStep I old st = some st' ∧
      (OneBlock old st' ∧ st'.scan = old.length ∨
        Untouched old st' ∧ st'.scan < old.length ∧ st.scan + st.len < st'.scan + st'.len) := by
  have hle := h.le
  obtain ⟨start, hstart⟩ := Int.eq_ofNat_of_zero_le h.nonneg
  obtain ⟨f, hf, hdone, hge⟩ := @scanLoop_self old I (old.length + 1) start start st.len st.pos
    (by omega) (by omega) (h.pos.imp_left fun hlt => by omega) (by omega)
  obtain ⟨p, hp⟩ := hdone.pos
  rw [diffStep, h.lastoffset, hstart]
  show ∃ st', (scanLoop I old 0 (old.length + 1) start ⟨start, st.len, st.pos, 0⟩).bind _ = _ ∧ _
  rw [Int.sub_self] at hf
  rw [hf, Option.bind_some]
  by_cases hend : f.scan = old.length
  · obtain ⟨st', hst', hblock, hscan⟩ := emitBlock_self h f.len p
    refine ⟨st', ?_, Or.inl ⟨hblock, hscan⟩⟩
    rw [if_pos (Or.inr hend), hp, hend]
    exact hst'
  · have hfle := hdone.le
    obtain ⟨hlen, hpos, hroom⟩ := hdone.stop (by omega)
    refine ⟨{ st with scan := f.scan, len := f.len, pos := f.pos }, ?_, Or.inr ⟨?_, ?_, ?_⟩⟩
    · rw [if_neg, h.lastoffset]
      · rfl
      · rintro (hne | heq)
        · exact hne hlen
        · exact hend heq
    · constructor
      case lastscan => exact h.lastscan
      case lastpos => exact h.lastpos
      case lastoffset => exact h.lastoffset
      case db => exact h.db
      case eb => exact h.eb
      case ctrl => exact h.ctrl
      case nonneg =>
        show 0 ≤ f.scan + f.len
        omega
      case le => exact hroom
      case pos => exact Or.inr ⟨p, hp⟩
    · show f.scan < old.length
      omega
    · show _ < f.scan + f.len
      omega

theorem diffLoop_self (I : SuffixIndex old) {fuel : ℕ} {st : DiffState} (h : Untouched old st)
    (hlt : st.scan < old.length) (hfuel : old.length - (st.scan + st.len) + 1 < fuel) :
    ∃ st', diffLoop I old fuel st = some st' ∧ OneBlock old st' := by
  induction fuel generalizing st with
  | zero =>
    have hle := h.le
    omega
  | succ fuel ih =>
    rw [diffLoop, if_pos hlt]
    obtain ⟨st₁, hst₁, hblock | ⟨huntouched, hlt₁, hadv⟩⟩ := diffStep_self I h
    · obtain ⟨hblock, hscan⟩ := hblock
      have hle := h.le
      obtain ⟨fuel, rfl⟩ : ∃ m, fuel = m + 1 := ⟨fuel - 1, by omega⟩
      refine ⟨st₁, ?_, hblock⟩
      rw [hst₁, Option.bind_eq_bind, Option.bind_some, diffLoop, if_neg (by omega)]
    · obtain ⟨st', hrun, hblock⟩ := ih huntouched hlt₁ (by omega)
      refine ⟨st', ?_, hblock⟩
      rw [hst₁, Option.bind_eq_bind, Option.bind_some, hrun]

/-- **A patch from a file to itself.** One control triple adds zeros to all of the old data and
copies nothing; only the empty file has no triple at all. -/
theorem bsdiff_self (H : HostLibs) (qsufsort : (old : Bytes) → SuffixIndex old) (old : Bytes)
    (IP : Option (SuffixIndex old)) :
    ∃ st, bsdiff H qsufsort old IP old = some (patchFile H old st, IP.getD (qsufsort old)) ∧
      st.db = List.replicate old.length 0 ∧ st.eb = [] ∧
      (old = [] ∧ st.ctrl = [] ∨ old ≠ [] ∧ ∃ seek, st.ctrl = [⟨old.length, 0, seek⟩]) := by
  rw [bsdiff, diffBlocks]
  by_cases hnil : old = []
  · subst hnil
    exact ⟨_, rfl, rfl, rfl, Or.inl ⟨rfl, rfl⟩⟩
  · have hpos : 0 < old.length := List.length_pos_iff.mpr hnil
    have hstart : Untouched old ⟨0, 0, none, 0, 0, 0, [], [], []⟩ :=
      ⟨rfl, rfl, rfl, rfl, rfl, rfl, Int.le_refl _, Int.natCast_nonneg _, Or.inl (by
        show (0 : Int) + 0 < old.length
        omega)⟩
    obtain ⟨st, hst, hblock⟩ := diffLoop_self (IP.getD (qsufsort old)) hstart
      (by show (0 : Int) < old.length; omega)
      (by show (old.length : Int) - (0 + 0) + 1 < ((old.length + 2 : ℕ) : Int); push_cast; omega)
    refine ⟨st, ?_, hblock.db, hblock.eb, Or.inr ⟨hnil, hblock.ctrl⟩⟩
    rw [hst]
    rfl

end OpenRecovery.ImgDiff
