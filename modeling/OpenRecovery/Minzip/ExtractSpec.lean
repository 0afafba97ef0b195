import OpenRecovery.Minzip.Extract

/-!
# What the extractors deliver

The two loops hand their data to the process function piece by piece. What they hand over depends on
the file and the decoder only, so a run is the delivery of a list of pieces followed by a verdict
(`storedLoop_eq`, `inflateLoop_eq`). The three extractors are then compared on what their process
functions make of such a list.
-/

set_option autoImplicit false

namespace OpenRecovery.Minzip

open OpenRecovery.Storage
open OpenRecovery.ApplyPatch (Decode)

/-! ## Reading -/

/-- What full reads give of the next `n` bytes of a file. -/
def readable (file : Bytes) (n : Nat) : Bytes :=
  -- each read asks for a full buffer or the rest; a short one is an error and gives nothing
  if n ≤ file.length then file.take n else file.take (bufSize * (file.length / bufSize))

/-- Nothing is asked for. -/
theorem readable_zero (file : Bytes) : readable file 0 = [] := by
  simp [readable]

/-- A file that is too short for the next piece gives nothing. -/
theorem readable_short {file : Bytes} {n : Nat} (h : file.length < min n bufSize) :
    readable file n = [] := by
  have hn : ¬ n ≤ file.length := by omega
  have hblocks : file.length / bufSize = 0 := Nat.div_eq_of_lt (by omega)
  simp [readable, hn, hblocks]

/-- The next piece, and the rest. -/
theorem readable_split {file : Bytes} {n : Nat} (h : min n bufSize ≤ file.length) :
    readable file n =
      file.take (min n bufSize) ++ readable (file.drop (min n bufSize)) (n - min n bufSize) := by
  unfold readable
  rw [List.length_drop]
  by_cases hn : n ≤ file.length
  · rw [if_pos hn, if_pos (by omega), ← List.take_add]
    congr 1
    omega
  · have hmin : min n bufSize = bufSize := by omega
    rw [if_neg hn, if_neg (by omega), hmin, ← List.take_add]
    congr 1
    rw [hmin] at h
    have hdiv : file.length / bufSize = (file.length - bufSize) / bufSize + 1 :=
      Nat.div_eq_sub_div (by decide) h
    rw [hdiv]
    ring

/-! ## Delivering -/

section Deliver

variable {κ : Type} (process : ProcessFunction κ)

/-- The pieces go to the process function, until it answers `false`. -/
def deliver : List Bytes → κ → Decode (Bool × κ)
  | [], c => .ok (true, c)
  | b :: bs, c => do
      let (ret, c) ← process b c
      if ret then deliver bs c else .ok (false, c)

/-- A delivery with what is returned after it, or `bail` where the process function gave up. -/
def deliverThen {β : Type} (pieces : List Bytes) (c : κ) (result bail : β) : Decode (β × κ) := do
  let (ret, c) ← deliver process pieces c
  .ok (if ret then result else bail, c)

theorem deliverThen_nil {β : Type} (c : κ) (result bail : β) :
    deliverThen process [] c result bail = .ok (result, c) := rfl

/-- The first piece, and the others if it was taken. -/
theorem deliverThen_cons {β : Type} (b : Bytes) (bs : List Bytes) (c : κ) (result bail : β) :
    deliverThen process (b :: bs) c result bail = (do
      let (ret, c) ← process b c
      if ret then deliverThen process bs c result bail else .ok (bail, c)) := by
  unfold deliverThen
  rw [deliver]
  cases process b c with
  | ok p =>
    obtain ⟨ret, c'⟩ := p
    cases ret <;> rfl
  | failed => rfl
  | fault => rfl
  | hang => rfl

/-- The pieces of a list of bytes: none is empty, and each fits into a buffer. -/
def Pieces (pieces : List Bytes) (data : Bytes) : Prop :=
  (∀ b ∈ pieces, b ≠ [] ∧ b.length ≤ bufSize) ∧ pieces.flatten = data

theorem Pieces.nil : Pieces [] [] := ⟨by simp, rfl⟩

/-- One more piece. -/
theorem Pieces.cons {b : Bytes} {bs : List Bytes} {data : Bytes} (h : Pieces bs data)
    (hb : b ≠ []) (hlen : b.length ≤ bufSize) : Pieces (b :: bs) (b ++ data) := by
  refine ⟨?_, ?_⟩
  · intro x hx
    rcases List.mem_cons.mp hx with rfl | hx
    · exact ⟨hb, hlen⟩
    · exact h.1 x hx
  · rw [List.flatten_cons, h.2]

theorem Pieces.eq_nil {pieces : List Bytes} (h : Pieces pieces []) : pieces = [] := by
  cases pieces with
  | nil => rfl
  | cons b bs =>
    have hflat := h.2
    rw [List.flatten_cons, List.append_eq_nil_iff] at hflat
    exact absurd hflat.1 (h.1 b List.mem_cons_self).1

/-! ## Stored entries -/

/-- The loop over a stored entry delivers what can be read, piece by piece. Induction on the fuel.
-/
theorem storedLoop_eq {fuel n : Nat} (file : Bytes) (hfuel : n ≤ fuel) :
    ∃ pieces, Pieces pieces (readable file n) ∧ ∀ c : κ,
      storedLoop process fuel n file c =
        deliverThen process pieces c (decide (n ≤ file.length)) false := by
  -- one round takes a full buffer from the file, or the last piece
  induction fuel generalizing n file with
  | zero =>
    obtain rfl : n = 0 := by omega
    refine ⟨[], by simpa [readable_zero] using Pieces.nil, fun c => ?_⟩
    simp [storedLoop, deliverThen_nil]
  | succ fuel ih =>
    by_cases hn : n = 0
    · subst hn
      refine ⟨[], by simpa [readable_zero] using Pieces.nil, fun c => ?_⟩
      simp [storedLoop, deliverThen_nil]
    · by_cases hshort : file.length < min n bufSize
      · refine ⟨[], by simpa [readable_short hshort] using Pieces.nil, fun c => ?_⟩
        have hle : ¬ n ≤ file.length := by omega
        simp only [storedLoop, if_neg hn, if_pos hshort, deliverThen_nil, hle, decide_false]
      · have hpos : 0 < min n bufSize := Nat.lt_min.mpr ⟨Nat.pos_of_ne_zero hn, by decide⟩
        obtain ⟨pieces, hpieces, heq⟩ :=
          ih (file.drop (min n bufSize)) (n := n - min n bufSize) (by omega)
        refine ⟨file.take (min n bufSize) :: pieces, ?_, fun c => ?_⟩
        · rw [readable_split (Nat.not_lt.mp hshort)]
          refine hpieces.cons (fun hnil => ?_) (by rw [List.length_take]; omega)
          have hlen := congrArg List.length hnil
          rw [List.length_take, List.length_nil] at hlen
          omega
        · simp only [storedLoop, if_neg hn, if_neg hshort, deliverThen_cons, heq]
          have hle : n ≤ file.length ↔
              n - min n bufSize ≤ (file.drop (min n bufSize)).length := by
            rw [List.length_drop]
            omega
          simp only [hle]

end Deliver

/-! ## Deflated entries -/

/-- zlib streams the decoded data. `decode input` is what an input decodes to, as far as that goes,
and whether it is a complete stream. `Rel` relates a state of the decoder to the input that is left,
the output to come, and whether the stream is complete. -/
structure StreamsBy {σ : Type} (Z : Inflate σ) (decode : Bytes → Bytes × Bool)
    (Rel : σ → Bytes → Bytes → Bool → Prop) : Prop where
  init : ∃ s, Z.init = some s ∧ ∀ input, Rel s input (decode input).1 (decode input).2
  /-- A call that answers `Z_OK` makes progress. -/
  call_ok : ∀ {s rest out fin chunk room}, Rel s (chunk ++ rest) out fin →
    (chunk = [] → rest = []) → 0 < room → (Z.call s chunk room).code = .ok →
    (Z.call s chunk room).consumed ≤ chunk.length ∧
      (Z.call s chunk room).produced.length ≤ room ∧
      0 < (Z.call s chunk room).consumed + (Z.call s chunk room).produced.length ∧
      ∃ later, out = (Z.call s chunk room).produced ++ later ∧
        Rel (Z.call s chunk room).state (chunk.drop (Z.call s chunk room).consumed ++ rest) later fin
  call_streamEnd : ∀ {s rest out fin chunk room}, Rel s (chunk ++ rest) out fin →
    (chunk = [] → rest = []) → 0 < room → (Z.call s chunk room).code = .streamEnd →
    (Z.call s chunk room).produced = out ∧ out.length ≤ room ∧ fin = true
  /-- The call that comes to an error has written what stands before it. -/
  call_error : ∀ {s rest out fin chunk room}, Rel s (chunk ++ rest) out fin →
    (chunk = [] → rest = []) → 0 < room → (Z.call s chunk room).code = .error →
    (Z.call s chunk room).produced = out ∧ out.length ≤ room ∧ fin = false

def Streams {σ : Type} (Z : Inflate σ) (decode : Bytes → Bytes × Bool) : Prop :=
  ∃ Rel, StreamsBy Z decode Rel

/-- The output of the calls of `inflate` that succeed, and whether they come to the end of the
stream, for calls as `processDeflatedEntry` makes them: on blocks of `bufSize` bytes, with the room
that `held` bytes leave in `procBuf`. `short` says that behind the input the reads fail. -/
def given {σ : Type} (Z : Inflate σ) : Nat → σ → Bytes → Bytes → Bool → Nat → Bytes × Bool
  | 0, _, _, _, _, _ => ([], false)
  | fuel + 1, s, chunk, rest, short, held =>
      if chunk = [] ∧ rest = [] ∧ short = true then ([], false)
      else
        let input := if chunk = [] then rest.take bufSize else chunk
        let rest := if chunk = [] then rest.drop bufSize else rest
        let r := Z.call s input (bufSize - held)
        match r.code with
        | .error => ([], false)
        | .streamEnd => (r.produced, true)
        | .ok =>
            let later := given Z fuel r.state (input.drop r.consumed) rest short
              ((held + r.produced.length) % bufSize)
            (r.produced ++ later.1, later.2)

section Given

variable {σ : Type} {Z : Inflate σ} {decode : Bytes → Bytes × Bool}
  {Rel : σ → Bytes → Bytes → Bool → Prop} {s : σ} {chunk rest out : Bytes} {short fin : Bool}
  {held : Nat}

/-- The next block of the input. -/
def nextBlock (chunk rest : Bytes) : Bytes × Bytes :=
  if chunk = [] then (rest.take bufSize, rest.drop bufSize) else (chunk, rest)

/-- The next block is taken off the input. -/
theorem nextBlock_append : (nextBlock chunk rest).1 ++ (nextBlock chunk rest).2 = chunk ++ rest := by
  rw [nextBlock]
  split
  next h => rw [h, List.take_append_drop, List.nil_append]
  next => rfl

/-- No block is left only if nothing is. -/
theorem nextBlock_nil (chunk rest : Bytes) (h : (nextBlock chunk rest).1 = []) : (nextBlock chunk rest).2 = [] := by
  rw [nextBlock] at h ⊢
  split at h
  next hchunk =>
    have hrest : rest = [] := by
      rcases List.take_eq_nil_iff.1 h with h | h
      · cases h
      · exact h
    rw [if_pos hchunk, hrest, List.drop_nil]
  next hchunk => exact absurd h hchunk

/-- One round of the calls of `inflate`. -/
theorem given_succ (fuel : Nat) :
    given Z (fuel + 1) s chunk rest short held =
      if chunk = [] ∧ rest = [] ∧ short = true then ([], false)
      else
        let r := Z.call s (nextBlock chunk rest).1 (bufSize - held)
        match r.code with
        | .error => ([], false)
        | .streamEnd => (r.produced, true)
        | .ok =>
            (r.produced ++ (given Z fuel r.state ((nextBlock chunk rest).1.drop r.consumed)
                (nextBlock chunk rest).2 short ((held + r.produced.length) % bufSize)).1,
              (given Z fuel r.state ((nextBlock chunk rest).1.drop r.consumed)
                (nextBlock chunk rest).2 short ((held + r.produced.length) % bufSize)).2) := by
  rw [given, nextBlock]
  split
  next => rfl
  next =>
    split
    next => rfl
    next => rfl

/-- The calls give the decoded data as far as they go, and all of it unless a read fails before. -/
theorem given_spec (hz : StreamsBy Z decode Rel) {fuel : Nat} (hrel : Rel s (chunk ++ rest) out fin)
    (hheld : held < bufSize) (hfuel : (chunk ++ rest).length + out.length < fuel) :
    (given Z fuel s chunk rest short held).1 <+: out ∧
      ((given Z fuel s chunk rest short held).2 = true →
        (given Z fuel s chunk rest short held).1 = out ∧ fin = true) ∧
      (short = false → (given Z fuel s chunk rest short held).2 = fin) := by
  induction fuel generalizing s chunk rest out held with
  | zero => omega
  | succ fuel ih =>
      rw [given_succ]
      split
      next hshort =>
        refine ⟨List.nil_prefix, Bool.noConfusion, fun h => ?_⟩
        rw [h] at hshort
        cases hshort.2.2
      next =>
        rw [← nextBlock_append] at hrel hfuel
        have hroom : 0 < bufSize - held := by omega
        have hnil := nextBlock_nil chunk rest
        generalize nextBlock chunk rest = block at hrel hfuel hnil
        obtain ⟨input, rest'⟩ := block
        simp only at hrel hfuel hnil ⊢
        generalize hr : Z.call s input (bufSize - held) = r
        cases hcode : r.code with
        | error =>
            obtain ⟨-, -, rfl⟩ := hz.call_error hrel hnil hroom (by rw [hr]; exact hcode)
            exact ⟨List.nil_prefix, Bool.noConfusion, fun _ => rfl⟩
        | streamEnd =>
            obtain ⟨hout, -, rfl⟩ := hz.call_streamEnd hrel hnil hroom (by rw [hr]; exact hcode)
            rw [hr] at hout
            rw [hout]
            exact ⟨List.prefix_rfl, fun _ => ⟨rfl, rfl⟩, fun _ => rfl⟩
        | ok =>
            obtain ⟨hconsumed, hlen, hprogress, later, hout, hrel'⟩ :=
              hz.call_ok hrel hnil hroom (by rw [hr]; exact hcode)
            rw [hr] at hconsumed hlen hprogress hout hrel'
            subst hout
            have hleft : (input.drop r.consumed ++ rest').length + later.length < fuel := by
              simp only [List.length_append, List.length_drop] at hfuel ⊢
              omega
            obtain ⟨hbegins, hall, hfin⟩ := ih hrel' (Nat.mod_lt (held + r.produced.length)
              (by decide)) hleft
            refine ⟨(List.prefix_append_right_inj _).2 hbegins, fun h => ?_, hfin⟩
            obtain ⟨hsame, hfin'⟩ := hall h
            exact ⟨congrArg (r.produced ++ ·) hsame, hfin'⟩

/-- More fuel makes no difference. -/
theorem given_fuel (hz : StreamsBy Z decode Rel) {fuel fuel' : Nat}
    (hrel : Rel s (chunk ++ rest) out fin) (hheld : held < bufSize)
    (hfuel : (chunk ++ rest).length + out.length < fuel)
    (hfuel' : (chunk ++ rest).length + out.length < fuel') :
    given Z fuel s chunk rest short held = given Z fuel' s chunk rest short held := by
  induction fuel generalizing fuel' s chunk rest out held with
  | zero => omega
  | succ fuel ih =>
      obtain ⟨fuel', rfl⟩ : ∃ k, fuel' = k + 1 := ⟨fuel' - 1, by omega⟩
      rw [given_succ, given_succ]
      rw [← nextBlock_append] at hrel hfuel hfuel'
      have hroom : 0 < bufSize - held := by omega
      have hnil := nextBlock_nil chunk rest
      generalize nextBlock chunk rest = block at hrel hfuel hfuel' hnil
      obtain ⟨input, rest'⟩ := block
      simp only at hrel hfuel hfuel' hnil ⊢
      generalize hr : Z.call s input (bufSize - held) = r
      cases hcode : r.code with
      | error => rfl
      | streamEnd => rfl
      | ok =>
          obtain ⟨hconsumed, hlen, hprogress, later, hout, hrel'⟩ :=
            hz.call_ok hrel hnil hroom (by rw [hr]; exact hcode)
          rw [hr] at hconsumed hlen hprogress hout hrel'
          subst hout
          simp only [List.length_append] at hfuel hfuel'
          have hlater : given Z fuel r.state (input.drop r.consumed) rest' short
              ((held + r.produced.length) % bufSize) =
              given Z fuel' r.state (input.drop r.consumed) rest' short
                ((held + r.produced.length) % bufSize) := by
            refine ih hrel' (Nat.mod_lt _ (by decide)) ?_ ?_
            · simp only [List.length_append, List.length_drop]
              omega
            · simp only [List.length_append, List.length_drop]
              omega
          simp only [hlater]

end Given

/-- What is processed of an output: all of it at the end of the stream, whole buffers otherwise. -/
def processed (out : Bytes) (fin : Bool) : Bytes :=
  if fin then out else out.take (bufSize * (out.length / bufSize))

/-- Less than a buffer is not processed before the end. -/
theorem processed_small {out : Bytes} (h : out.length < bufSize) : processed out false = [] := by
  simp [processed, Nat.div_eq_of_lt h]

/-- A full buffer is processed at once. -/
theorem processed_full {buf : Bytes} (h : buf.length = bufSize) (out : Bytes) (fin : Bool) :
    processed (buf ++ out) fin = buf ++ processed out fin := by
  cases fin with
  | true => rfl
  | false =>
    have hdiv : (buf ++ out).length / bufSize = out.length / bufSize + 1 := by
      rw [List.length_append, h, Nat.add_comm, Nat.add_div_right _ (by decide)]
    simp only [processed, Bool.false_eq_true, if_false]
    rw [hdiv, Nat.mul_add, Nat.mul_one, Nat.add_comm, ← h, List.take_length_add_append]

section Inflating

variable {σ κ : Type}

/-- The file still has the bytes that remain, and all of them can be read. -/
def Inflating.unread (s : Inflating σ) : Bytes := readable s.file s.compRemaining.toNat

/-- The file ends before the entry does. -/
def Inflating.short (s : Inflating σ) : Bool := decide (s.file.length < s.compRemaining.toNat)

/-- A read takes the next block of what is left. -/
theorem Inflating.refill_cases (s : Inflating σ) (hcomp : 0 ≤ s.compRemaining) :
    (s.refill = .failed ∧ s.input = [] ∧ s.unread = [] ∧ s.short = true) ∨
    ∃ t : Inflating σ, s.refill = .ok t ∧ 0 ≤ t.compRemaining ∧
      (t.input, t.unread) = nextBlock s.input s.unread ∧ t.short = s.short ∧
      ¬ (s.input = [] ∧ s.unread = [] ∧ s.short = true) ∧
      t.state = s.state ∧ t.procBuf = s.procBuf ∧ t.totalOut = s.totalOut := by
  obtain ⟨n, hn⟩ := Int.eq_ofNat_of_zero_le hcomp
  -- the file is read only when the decoder has used up what was read before
  by_cases hinput : s.input = []
  · have hsize : (if (bufSize : Int) < s.compRemaining then (bufSize : Int) else s.compRemaining) =
        (min n bufSize : Nat) := by
      rw [hn]
      split <;> omega
    simp only [refill, hinput, if_true, hsize]
    rw [if_neg (by omega)]
    by_cases hshort : s.file.length < min n bufSize
    · left
      rw [if_pos (by omega)]
      refine ⟨rfl, trivial, ?_, ?_⟩
      · simp [unread, hn, readable_short hshort]
      · simp only [short, hn, Int.toNat_natCast, decide_eq_true_eq]
        omega
    · right
      rw [if_neg (by omega)]
      have hrest : ((n : Int) - (min n bufSize : Nat)).toNat = n - min n bufSize := by omega
      have hsplit := readable_split (Nat.not_lt.mp hshort)
      have hlen : (s.file.take (min n bufSize)).length = min n bufSize := by
        rw [List.length_take]
        omega
      refine ⟨_, rfl, ?_, ?_, ?_, ?_, rfl, rfl, rfl⟩
      · show 0 ≤ s.compRemaining - _
        omega
      · simp only [nextBlock, if_true, unread, hn, hrest, Int.toNat_natCast, hsplit]
        by_cases hfull : bufSize ≤ n
        · have hblock : (s.file.take (min n bufSize)).length = bufSize := by omega
          rw [List.take_left' hblock, List.drop_left' hblock]
        · have hnone : n - min n bufSize = 0 := by omega
          have hlast : (s.file.take (min n bufSize)).length ≤ bufSize := by omega
          rw [hnone, readable_zero, List.append_nil, List.take_of_length_le hlast,
            List.drop_of_length_le hlast]
      · simp only [short, hn, Int.toNat_natCast, List.length_drop]
        congr 1
        rw [eq_iff_iff]
        omega
      · rintro ⟨-, hunread, hshort'⟩
        simp only [unread, short, hn, Int.toNat_natCast, hsplit, List.append_eq_nil_iff,
          decide_eq_true_eq] at hunread hshort'
        rw [hunread.1, List.length_nil] at hlen
        have hsize : 0 < bufSize := by decide
        omega
  · right
    refine ⟨s, ?_, hcomp, ?_, rfl, fun h => hinput h.1, rfl, rfl, rfl⟩
    · simp [refill, hinput]
    · rw [nextBlock, if_neg hinput]

variable (process : ProcessFunction κ)

/-- A buffer that is full, or the last one, goes to the process function. -/
theorem flush_piece {code : ZCode} {s : Inflating σ} (c : κ)
    (h : s.procBuf.length = bufSize ∨ (code = .streamEnd ∧ s.procBuf ≠ [])) :
    flush process code s c = (do
      let (ret, c) ← process s.procBuf c
      .ok (ret, { s with procBuf := [] }, c)) := by
  rw [flush, if_pos h]

/-- A buffer that is not full waits for the end. -/
theorem flush_none {code : ZCode} {s : Inflating σ} (c : κ)
    (h : ¬ (s.procBuf.length = bufSize ∨ (code = .streamEnd ∧ s.procBuf ≠ []))) :
    flush process code s c = .ok (true, s, c) := by
  rw [flush, if_neg h]

/-- A step that cannot fail. -/
theorem bind_assoc_ok {α β γ : Type} (d : Decode α) (f : α → β) (g : β → Decode γ) :
    ((d >>= fun a => .ok (f a)) >>= g) = d >>= fun a => g (f a) := by
  cases d <;> rfl

/-- The loop delivers what the calls give. -/
theorem inflateLoop_eq {Z : Inflate σ} {decode : Bytes → Bytes × Bool}
    {Rel : σ → Bytes → Bytes → Bool → Prop} (hz : StreamsBy Z decode Rel) {fuel : Nat}
    (s : Inflating σ) {out : Bytes} {fin : Bool} (hcomp : 0 ≤ s.compRemaining)
    (hbuf : s.procBuf.length < bufSize) (hrel : Rel s.state (s.input ++ s.unread) out fin)
    (hfuel : (s.input ++ s.unread).length + out.length < fuel) {data : Bytes} {ended : Bool}
    (hgiven : given Z fuel s.state s.input s.unread s.short s.procBuf.length = (data, ended)) :
    ∃ pieces, Pieces pieces (processed (s.procBuf ++ data) ended) ∧ ∀ c : κ,
      inflateLoop process Z fuel s c =
        deliverThen process pieces c (if ended then some (s.totalOut + data.length) else none)
          none := by
  induction fuel generalizing s out data ended with
  | zero => omega
  | succ fuel ih =>
    rw [given_succ] at hgiven
    simp only [inflateLoop]
    rcases s.refill_cases hcomp with ⟨hrefill, hin, hunread, hshort⟩ |
      ⟨t, hrefill, hcomp', hblock, hshort, hreads, hstate, hprocBuf, htotal⟩
    · -- the read failed: nothing more is decoded, and the buffer that is not full is lost
      rw [if_pos ⟨hin, hunread, hshort⟩] at hgiven
      cases hgiven
      refine ⟨[], ?_, fun c => ?_⟩
      · rw [List.append_nil, processed_small hbuf]
        exact Pieces.nil
      · rw [hrefill]
        rfl
    · have hchunk := nextBlock_nil s.input s.unread
      rw [if_neg hreads] at hgiven
      rw [hrefill]
      rw [← nextBlock_append] at hrel hfuel
      rw [← hblock] at hgiven hrel hfuel hchunk
      simp only [← hstate, ← hprocBuf, ← hshort] at hgiven hrel
      rw [← hprocBuf] at hbuf
      rw [← hprocBuf, ← htotal]
      have hroom : 0 < bufSize - t.procBuf.length := by omega
      simp only at hgiven hrel hfuel hchunk ⊢
      generalize hr : Z.call t.state t.input (bufSize - t.procBuf.length) = r at hgiven
      cases hcode : r.code with
      | error =>
        -- as after a failed read, what stands in the buffer is not processed
        rw [hcode] at hgiven
        cases hgiven
        refine ⟨[], ?_, fun c => ?_⟩
        · rw [List.append_nil, processed_small hbuf]
          exact Pieces.nil
        · simp [deliverThen_nil]
      | streamEnd =>
        obtain ⟨hout, hlen, -⟩ := hz.call_streamEnd hrel hchunk hroom (by rw [hr]; exact hcode)
        rw [hr] at hout
        subst hout
        rw [hcode] at hgiven
        cases hgiven
        simp only [reduceCtorEq, if_false, if_true]
        -- at the end of the stream the buffer goes out, unless it is empty
        by_cases hempty : t.procBuf ++ r.produced = []
        · refine ⟨[], ?_, fun c => ?_⟩
          · simpa [processed, hempty] using Pieces.nil
          · have hnil : (t.after r).procBuf = [] := hempty
            rw [flush_none process c (by simp [hnil, bufSize])]
            rfl
        · refine ⟨[t.procBuf ++ r.produced], ?_, fun c => ?_⟩
          · have hfits : (t.procBuf ++ r.produced).length ≤ bufSize := by
              rw [List.length_append]
              omega
            simpa [processed] using Pieces.nil.cons hempty hfits
          · rw [flush_piece process c (.inr ⟨rfl, hempty⟩), deliverThen_cons, bind_assoc_ok]
            rfl
      | ok =>
        obtain ⟨hconsumed, hlen, hprogress, later, hout, hrel'⟩ :=
          hz.call_ok hrel hchunk hroom (by rw [hr]; exact hcode)
        rw [hr] at hconsumed hlen hprogress hout hrel'
        subst hout
        rw [hcode] at hgiven
        simp only at hgiven
        -- `Z_OK` made progress, so the input left and the output to come shrink together
        have hleft' : ((t.input.drop r.consumed ++ t.unread).length + later.length) < fuel := by
          simp only [List.length_append, List.length_drop] at hfuel ⊢
          omega
        obtain ⟨data', ended', hrest⟩ : ∃ data' ended', given Z fuel r.state
            (t.input.drop r.consumed) t.unread t.short
            ((t.procBuf.length + r.produced.length) % bufSize) = (data', ended') := ⟨_, _, rfl⟩
        rw [hrest] at hgiven
        cases hgiven
        have htotal' : t.totalOut + (r.produced ++ data').length =
            (t.after r).totalOut + data'.length := by
          simp only [List.length_append, Inflating.after]
          omega
        rw [← List.append_assoc, htotal']
        simp only [reduceCtorEq, if_false, if_true]
        by_cases hfull : (t.procBuf ++ r.produced).length = bufSize
        · -- the buffer is full: one piece, and the rest goes into an empty one
          rw [← List.length_append, hfull, Nat.mod_self] at hrest
          obtain ⟨pieces, hpieces, heq⟩ :=
            ih { t.after r with procBuf := [] } hcomp' (by simp [bufSize]) hrel' hleft' hrest
          refine ⟨(t.procBuf ++ r.produced) :: pieces, ?_, fun c => ?_⟩
          · rw [processed_full hfull]
            refine hpieces.cons (fun hnil => ?_) (Nat.le_of_eq hfull)
            rw [hnil] at hfull
            cases hfull
          · rw [flush_piece process c (.inl hfull), deliverThen_cons, bind_assoc_ok]
            simp only [heq]
            rfl
        · have hsmall : (t.procBuf ++ r.produced).length < bufSize := by
            rw [List.length_append] at hfull ⊢
            omega
          rw [← List.length_append, Nat.mod_eq_of_lt hsmall] at hrest
          obtain ⟨pieces, hpieces, heq⟩ := ih (t.after r) hcomp' hsmall hrel' hleft' hrest
          refine ⟨pieces, hpieces, fun c => ?_⟩
          rw [flush_none process c (by simpa [Inflating.after] using hfull)]
          exact heq c

end Inflating

/-! ## The process functions -/

/-- The process function for a buffer takes the pieces while they fit, and writes outside otherwise.
-/
theorem deliver_buffer (cap : Nat) (pieces : List Bytes) (b : Filled)
    (hb : b.written.length ≤ cap) :
    deliver (bufferProcessFunction cap) pieces b =
      if b.written.length + pieces.flatten.length ≤ cap then
        .ok (true, ⟨b.written ++ pieces.flatten, b.left - pieces.flatten.length⟩)
      else .fault := by
  induction pieces generalizing b with
  | nil => simp [deliver, hb]
  | cons x pieces ih =>
    simp only [deliver, bufferProcessFunction, Filled.append, List.flatten_cons,
      List.length_append]
    by_cases hx : b.written.length + x.length ≤ cap
    · rw [if_pos hx, Decode.ok_bind]
      show deliver (bufferProcessFunction cap) pieces _ = _
      rw [ih _ (by simpa using hx)]
      simp only [List.length_append, List.append_assoc, Nat.add_assoc, Nat.cast_add,
        Int.sub_sub]
    · rw [if_neg hx, if_neg (by omega)]
      rfl

/-- The copying process function keeps to its buffer, and takes all that fits. -/
theorem deliver_copy (cap : Nat) {pieces : List Bytes} (b : Filled)
    (hne : ∀ x ∈ pieces, x ≠ []) (hb : b.left ≤ (cap : Int) - b.written.length) :
    ∃ ret b', deliver (copyProcessFunction cap) pieces b = .ok (ret, b') ∧
      (ret = true → b'.written = b.written ++ pieces.flatten) ∧
      ((pieces.flatten.length : Int) ≤ b.left ∨ pieces = [] → ret = true) := by
  induction pieces generalizing b with
  | nil => exact ⟨true, b, rfl, by simp, fun _ => rfl⟩
  | cons x pieces ih =>
    simp only [deliver, copyProcessFunction, Filled.append]
    have hx : 0 < x.length := List.length_pos_of_ne_nil (hne x List.mem_cons_self)
    by_cases hfits : (x.length : Int) ≤ b.left
    · rw [if_pos hfits, if_pos (by omega), Decode.ok_bind]
      obtain ⟨ret, b', heq, hwritten, hret⟩ :=
        ih ⟨b.written ++ x, b.left - x.length⟩ (fun y hy => hne y (List.mem_cons_of_mem _ hy))
          (by simp only [List.length_append, Nat.cast_add]; omega)
      refine ⟨ret, b', heq, ?_, ?_⟩
      · intro h
        rw [hwritten h, List.flatten_cons, List.append_assoc]
      · rintro (hle | hnil)
        · rw [List.flatten_cons, List.length_append, Nat.cast_add] at hle
          exact hret (.inl (by show _ ≤ b.left - x.length; omega))
        · cases hnil
    · rw [if_neg hfits, Decode.ok_bind]
      refine ⟨false, b, rfl, by simp, ?_⟩
      rintro (hle | hnil)
      · rw [List.flatten_cons, List.length_append, Nat.cast_add] at hle
        omega
      · cases hnil

/-- A write loop that succeeds has written everything. -/
theorem writeLoop_written (answers : List WriteAnswer) (data file : Bytes)
    (h : (writeLoop answers data file).1 = true) :
    (writeLoop answers data file).2.written = file ++ data := by
  induction answers generalizing data file with
  | nil => rfl
  | cons a answers ih =>
    cases a with
    -- `EINTR` is tried again with the same data
    | interrupted => exact ih data file h
    | error => cases h
    | wrote more =>
      unfold writeLoop at h ⊢
      split_ifs at h ⊢ with hall hover
      · rfl
      · rw [ih _ _ h, List.append_assoc, List.take_append_drop]

/-- The process function for a file writes the pieces one after the other. -/
theorem deliver_write (pieces : List Bytes) (o : Output) :
    ∃ ret o', deliver writeProcessFunction pieces o = .ok (ret, o') ∧
      (ret = true → o'.written = o.written ++ pieces.flatten) := by
  induction pieces generalizing o with
  | nil => exact ⟨true, o, rfl, by simp⟩
  | cons x pieces ih =>
    simp only [deliver, writeProcessFunction, Decode.ok_bind]
    cases hret : (writeLoop o.answers x o.written).1 with
    | false => exact ⟨false, (writeLoop o.answers x o.written).2, by simp, by simp⟩
    | true =>
      obtain ⟨ret, o', heq, hwritten⟩ := ih (writeLoop o.answers x o.written).2
      refine ⟨ret, o', by simpa using heq, fun h => ?_⟩
      rw [hwritten h, writeLoop_written _ _ _ hret, List.flatten_cons, List.append_assoc]

/-! ## The three extractors -/

section Agreement

variable {σ : Type} (Z : Inflate σ) (decode : Bytes → Bytes × Bool) (archive : Bytes)
  (cur : Nat) (e : ZipEntry)

/-- What can be read of the data of a deflated entry. -/
def entryInput : Bytes := readable (entryData archive cur e) e.compLen.toNat

/-- What a deflated entry decodes to. -/
def decoded : Bytes × Bool := decode (entryInput archive cur e)

/-- What the calls of `inflate` give of it, with fuel that is enough. -/
def inflated : Bytes × Bool :=
  match Z.init with
  | none => ([], false)
  | some state =>
      given Z ((entryInput archive cur e).length + (decoded decode archive cur e).1.length + 1) state []
        (entryInput archive cur e) (decide ((entryData archive cur e).length < e.compLen.toNat)) 0

/-- The decoded content of an entry, if it is complete. -/
def decodedContent : Option Bytes :=
  if e.compression = stored then
    if size e.compLen ≤ (entryData archive cur e).length then
      some ((entryData archive cur e).take (size e.compLen))
    else none
  else if e.compression = deflated ∧ 0 ≤ e.compLen then
    if (decoded decode archive cur e).2 then some (decoded decode archive cur e).1 else none
  else none

/-- A run that returns, inside its buffer, and where it returns `true` has delivered the content, in
its declared length. -/
def Extracts (content : Option Bytes) (uncompLen : Int) (d : Decode (Bool × Bytes)) : Prop :=
  ∃ ret delivered, d = .ok (ret, delivered) ∧
    (ret = true → content = some delivered ∧ (delivered.length : Int) = uncompLen)

/-- The extractors agree on an entry, each with a buffer of the declared length and whatever the
answers of `write` are. -/
def ExtractorsAgree : Prop :=
  ∃ bound, ∀ fuel, bound ≤ fuel →
    Extracts (decodedContent decode archive cur e) e.uncompLen
      (mzReadZipEntry Z fuel archive cur e e.uncompLen.toNat e.uncompLen) ∧
    Extracts (decodedContent decode archive cur e) e.uncompLen
      (mzExtractZipEntryToBuffer Z fuel archive cur e e.uncompLen.toNat) ∧
    ∀ answers, Extracts (decodedContent decode archive cur e) e.uncompLen
      (mzExtractZipEntryToFile Z fuel archive cur e answers)

/-- The contents of the entry are streamed as `data`. -/
def StreamedAs (fuel : Nat) (data : Bytes) (result bail : Bool) : Prop :=
  ∀ (κ : Type) (process : ProcessFunction κ), ∃ pieces, Pieces pieces data ∧ ∀ c : κ,
    mzProcessZipEntryContents process Z fuel archive cur e c =
      deliverThen process pieces c result bail

variable {Z decode archive cur e}

/-- When `mzReadZipEntry` returns the contents. -/
theorem read_extracts {fuel : Nat} {data : Bytes} {result bail : Bool} {content : Option Bytes}
    (h : StreamedAs Z archive cur e fuel data result bail)
    (hfits : data.length ≤ e.uncompLen.toNat) :
    Extracts content e.uncompLen
        (mzReadZipEntry Z fuel archive cur e e.uncompLen.toNat e.uncompLen) ↔
      (result = true → content = some data ∧ (data.length : Int) = e.uncompLen) := by
  obtain ⟨pieces, hpieces, heq⟩ := h _ (copyProcessFunction e.uncompLen.toNat)
  obtain ⟨ret, b, hdeliver, hwritten, hret⟩ :=
    deliver_copy e.uncompLen.toNat ⟨[], e.uncompLen⟩ (fun x hx => (hpieces.1 x hx).1)
      (by simp only [List.length_nil]; omega)
  -- the copy fails only for what does not fit, and all of the data fits
  obtain rfl : ret = true := by
    refine hret ?_
    rw [hpieces.2]
    by_cases hneg : 0 ≤ e.uncompLen
    · exact .inl (by show _ ≤ e.uncompLen; omega)
    · refine .inr (Pieces.eq_nil ?_)
      have hnil : data = [] := List.eq_nil_of_length_eq_zero (by omega)
      rwa [hnil] at hpieces
  have hb : b.written = data := by simpa [hpieces.2] using hwritten rfl
  unfold Extracts mzReadZipEntry
  rw [heq, deliverThen, hdeliver]
  simp [hb, and_comm]

/-- When `mzExtractZipEntryToBuffer` returns the contents. -/
theorem buffer_extracts {fuel : Nat} {data : Bytes} {result bail : Bool} {content : Option Bytes}
    (h : StreamedAs Z archive cur e fuel data result bail) :
    Extracts content e.uncompLen
        (mzExtractZipEntryToBuffer Z fuel archive cur e e.uncompLen.toNat) ↔
      data.length ≤ e.uncompLen.toNat ∧
        (result = true → (data.length : Int) = e.uncompLen → content = some data) := by
  obtain ⟨pieces, ⟨-, rfl⟩, heq⟩ := h _ (bufferProcessFunction e.uncompLen.toNat)
  have hdeliver := deliver_buffer e.uncompLen.toNat pieces ⟨[], e.uncompLen⟩ (Nat.zero_le _)
  rw [List.length_nil, Nat.zero_add] at hdeliver
  unfold Extracts mzExtractZipEntryToBuffer
  rw [heq, deliverThen, hdeliver]
  split
  next hfits =>
    rw [and_iff_right hfits]
    have hleft : e.uncompLen - pieces.flatten.length = 0 ↔
        (pieces.flatten.length : Int) = e.uncompLen := by omega
    constructor
    · rintro ⟨ret, delivered, hd, hcontent⟩ hresult hlen
      cases hd
      refine (hcontent ?_).1
      simp only [if_true, Bool.and_eq_true, decide_eq_true_eq, hleft]
      exact ⟨hresult, hlen⟩
    · intro hcontent
      refine ⟨_, _, rfl, fun hret => ?_⟩
      simp only [if_true, Bool.and_eq_true, decide_eq_true_eq, hleft] at hret
      exact ⟨hcontent hret.1 hret.2, hret.2⟩
  next hfits =>
    refine iff_of_false ?_ fun h => hfits h.1
    rintro ⟨ret, delivered, hd, -⟩
    cases hd

/-- When `mzExtractZipEntryToFile` returns the contents. -/
theorem file_extracts {fuel : Nat} {data : Bytes} {result bail : Bool} {content : Option Bytes}
    (h : StreamedAs Z archive cur e fuel data result bail) (hbail : data = [] ∨ bail = false)
    (hresult : result = true → content = some data ∧ (data.length : Int) = e.uncompLen)
    (answers : List WriteAnswer) :
    Extracts content e.uncompLen (mzExtractZipEntryToFile Z fuel archive cur e answers) := by
  obtain ⟨pieces, hpieces, heq⟩ := h _ writeProcessFunction
  obtain ⟨ret, o, hdeliver, hwritten⟩ := deliver_write pieces ⟨[], answers⟩
  unfold mzExtractZipEntryToFile
  rw [heq, deliverThen, hdeliver]
  refine ⟨if ret then result else bail, o.written, rfl, ?_⟩
  cases ret with
  | true =>
    have ho : o.written = data := by simpa [hpieces.2] using hwritten rfl
    rw [ho]
    exact hresult
  | false =>
    rcases hbail with rfl | rfl
    · rw [hpieces.eq_nil] at hdeliver
      cases hdeliver
    · intro hfalse
      cases hfalse

/-- Where an entry is streamed, the extractors agree exactly if the data fits and a good result
means the content in its declared length. -/
theorem streamed_agree_iff {data : Bytes} {result bail : Bool} {bound : Nat}
    (h : ∀ fuel, bound ≤ fuel → StreamedAs Z archive cur e fuel data result bail)
    (hbail : 0 ≤ e.uncompLen → bail = false) :
    ExtractorsAgree Z decode archive cur e ↔
      data.length ≤ e.uncompLen.toNat ∧
        (result = true → decodedContent decode archive cur e = some data ∧
          (data.length : Int) = e.uncompLen) := by
  constructor
  · rintro ⟨bound', hagree⟩
    obtain ⟨hread, hbuffer, -⟩ := hagree (max bound bound') (le_max_right _ _)
    have hs := h (max bound bound') (le_max_left _ _)
    have hfits := ((buffer_extracts hs).mp hbuffer).1
    exact ⟨hfits, (read_extracts hs hfits).mp hread⟩
  · rintro ⟨hfits, hresult⟩
    refine ⟨bound, fun fuel hfuel => ?_⟩
    have hs := h fuel hfuel
    refine ⟨(read_extracts hs hfits).mpr hresult, (buffer_extracts hs).mpr ⟨hfits, ?_⟩,
      file_extracts hs ?_ hresult⟩
    · exact fun hr _ => (hresult hr).1
    · by_cases hneg : 0 ≤ e.uncompLen
      · exact .inr (hbail hneg)
      · exact .inl (List.eq_nil_of_length_eq_zero (by omega))

/-- A stored entry is streamed as it can be read. -/
theorem stored_streamed (hmethod : e.compression = stored) (fuel : Nat) :
    StreamedAs Z archive cur e fuel (readable (entryData archive cur e) (size e.compLen))
      (decide (size e.compLen ≤ (entryData archive cur e).length)) false := by
  intro κ process
  obtain ⟨pieces, hpieces, heq⟩ := storedLoop_eq process (entryData archive cur e)
    (le_refl (size e.compLen))
  refine ⟨pieces, hpieces, fun c => ?_⟩
  rw [mzProcessZipEntryContents, if_pos hmethod, processStoredEntry, heq]

theorem deflated_ne_stored : ¬ deflated = stored := by decide

/-- A result that is not negative is no failure. -/
theorem bail_false {v : Int} (h : 0 ≤ v) : decide (resultOf none = v) = false := by
  rw [decide_eq_false_iff_not, resultOf]
  omega

/-- A deflated entry is streamed as it is inflated, the last buffer only at the end of the stream.
-/
theorem deflated_streamed (archive : Bytes) (cur : Nat) (hz : Streams Z decode)
    (hmethod : e.compression = deflated) (hcomp : 0 ≤ e.compLen) :
    ∃ bound, ∀ fuel, bound ≤ fuel →
      StreamedAs Z archive cur e fuel
        (processed (inflated Z decode archive cur e).1 (inflated Z decode archive cur e).2)
        (decide (resultOf (if (inflated Z decode archive cur e).2
          then some (inflated Z decode archive cur e).1.length else none) = e.uncompLen))
        (decide (resultOf none = e.uncompLen)) := by
  obtain ⟨Rel, hz⟩ := hz
  obtain ⟨state, hinit, hrel⟩ := hz.init
  refine ⟨(entryInput archive cur e).length + (decoded decode archive cur e).1.length + 1,
    fun fuel hfuel κ process => ?_⟩
  have hmore : ∀ short, given Z fuel state [] (entryInput archive cur e) short 0 =
      given Z ((entryInput archive cur e).length + (decoded decode archive cur e).1.length + 1) state
        [] (entryInput archive cur e) short 0 := fun short =>
    given_fuel hz (hrel ([] ++ _)) (by decide) hfuel (Nat.lt_succ_self _)
  have hinflated : inflated Z decode archive cur e = given Z fuel state [] (entryInput archive cur e)
      (decide ((entryData archive cur e).length < e.compLen.toNat)) 0 := by
    rw [inflated, hinit, hmore]
  obtain ⟨pieces, hpieces, heq⟩ := inflateLoop_eq process hz
    ⟨state, [], entryData archive cur e, e.compLen, [], 0⟩ hcomp (by simp [bufSize])
    (hrel _) hfuel hinflated.symm
  refine ⟨pieces, hpieces, fun c => ?_⟩
  have hnot : e.compression ≠ stored := by rw [hmethod]; exact deflated_ne_stored
  rw [mzProcessZipEntryContents, if_neg hnot, if_pos hmethod, processDeflatedEntry, hinit]
  simp only [heq, Nat.zero_add]
  unfold deliverThen
  cases deliver process pieces c with
  | ok p =>
    obtain ⟨ret, c'⟩ := p
    cases ret <;> rfl
  | failed => rfl
  | fault => rfl
  | hang => rfl

/-- What the calls give is the decoded data as far as they go. -/
theorem inflated_spec (archive : Bytes) (cur : Nat) (e : ZipEntry) (hz : Streams Z decode) :
    (inflated Z decode archive cur e).1 <+: (decoded decode archive cur e).1 ∧
      ((inflated Z decode archive cur e).2 = true →
        inflated Z decode archive cur e = decoded decode archive cur e) ∧
      (e.compLen.toNat ≤ (entryData archive cur e).length →
        (inflated Z decode archive cur e).2 = (decoded decode archive cur e).2) := by
  obtain ⟨Rel, hz⟩ := hz
  obtain ⟨state, hinit, hrel⟩ := hz.init
  have hinflated : inflated Z decode archive cur e = given Z
      (([] ++ entryInput archive cur e).length + (decode (entryInput archive cur e)).1.length).succ
      state [] (entryInput archive cur e)
      (decide ((entryData archive cur e).length < e.compLen.toNat)) 0 := by
    rw [inflated, hinit]
    rfl
  have hheld : 0 < bufSize := by decide
  have hspec := @given_spec _ _ _ _ _ [] _ _ (decide ((entryData archive cur e).length < e.compLen.toNat))
    _ _ hz _ (hrel (entryInput archive cur e)) hheld (Nat.lt_succ_self _)
  rw [hinflated]
  refine ⟨hspec.1, fun h => ?_, fun hle => hspec.2.2 (decide_eq_false (Nat.not_lt.2 hle))⟩
  obtain ⟨hdata, hfin⟩ := hspec.2.1 h
  exact Prod.ext hdata (h.trans hfin.symm)

/-- A deflated entry with a negative length: the first read fails, or passes for one that did not.
-/
theorem deflated_negative (archive : Bytes) (cur : Nat) (hz : Streams Z decode)
    (hmethod : e.compression = deflated) (hneg : e.compLen < 0) {κ : Type} (process : ProcessFunction κ) (fuel : Nat) (c : κ) :
    mzProcessZipEntryContents process Z (fuel + 1) archive cur e c =
      if e.compLen = -1 then .fault else .ok (decide (resultOf none = e.uncompLen), c) := by
  obtain ⟨Rel, hz⟩ := hz
  obtain ⟨state, hinit, -⟩ := hz.init
  have hnot : e.compression ≠ stored := by rw [hmethod]; exact deflated_ne_stored
  have hsize : ¬ (bufSize : Int) < e.compLen := by omega
  rw [mzProcessZipEntryContents, if_neg hnot, if_pos hmethod, processDeflatedEntry, hinit]
  simp only [inflateLoop, Inflating.refill, if_true, if_neg hsize]
  by_cases hone : e.compLen = -1
  · simp only [hone, if_true]
    rfl
  · simp only [hone, if_false, hneg, true_or, if_true]
    rfl

/-- The condition on the sizes of an entry. -/
def SizesOk (Z : Inflate σ) (decode : Bytes → Bytes × Bool) (archive : Bytes) (cur : Nat)
    (e : ZipEntry) : Prop :=
  if e.compression = stored then
    if size e.compLen ≤ (entryData archive cur e).length then (size e.compLen : Int) = e.uncompLen
    -- the archive ends too early: whole buffers were delivered all the same, and must fit
    else bufSize * ((entryData archive cur e).length / bufSize) ≤ e.uncompLen.toNat
  else if e.compression = deflated then
    -- the error is reported as -1, which a declared length of -1 takes for the right one
    if e.compLen < 0 then e.compLen ≠ -1 ∧ e.uncompLen ≠ -1
    else
      (processed (inflated Z decode archive cur e).1 (inflated Z decode archive cur e).2).length ≤
          e.uncompLen.toNat ∧
        (e.uncompLen = -1 → (inflated Z decode archive cur e).2 = true)
  else True

/-- The three functions agree on a stored entry exactly if its sizes are right. -/
theorem stored_agree_iff (hmethod : e.compression = stored) :
    ExtractorsAgree Z decode archive cur e ↔ SizesOk Z decode archive cur e := by
  have hs : ∀ fuel, 0 ≤ fuel → StreamedAs Z archive cur e fuel _ _ false :=
    fun fuel _ => stored_streamed hmethod fuel
  rw [streamed_agree_iff hs fun _ => rfl]
  simp only [SizesOk, decodedContent, hmethod, if_true, decide_eq_true_eq]
  by_cases hle : size e.compLen ≤ (entryData archive cur e).length
  · simp only [readable, hle, if_true, true_and, forall_const, List.length_take,
      Nat.min_eq_left hle]
    constructor
    · exact fun h => h.2
    · exact fun h => ⟨by omega, h⟩
  · have hblocks : bufSize * ((entryData archive cur e).length / bufSize) ≤
        (entryData archive cur e).length := Nat.mul_div_le _ _
    simp only [readable, hle, if_false, false_imp_iff, and_true, List.length_take,
      Nat.min_eq_left hblocks]

/-- A number that fits is converted without loss. -/
theorem long_eq {n : Nat} {v : Int} (h : long n = v) (hle : n ≤ v.toNat) : (n : Int) = v := by
  unfold long signed at h
  split at h <;> omega

/-- The three functions agree on a deflated entry exactly if its sizes are right. -/
theorem deflated_agree_iff (hz : Streams Z decode) (hmethod : e.compression = deflated) :
    ExtractorsAgree Z decode archive cur e ↔ SizesOk Z decode archive cur e := by
  by_cases hneg : e.compLen < 0
  · have hrun {κ : Type} (process : ProcessFunction κ) (fuel : Nat) (c : κ) :=
      deflated_negative archive cur hz hmethod hneg process fuel c
    simp only [SizesOk, hmethod, deflated_ne_stored, if_true, if_false, hneg]
    by_cases hone : e.compLen = -1
    · -- the run past `readBuf`
      refine iff_of_false ?_ fun h => h.1 hone
      rintro ⟨bound, hagree⟩
      obtain ⟨⟨ret, delivered, hread, -⟩, -⟩ := hagree (bound + 1) (Nat.le_succ _)
      rw [mzReadZipEntry, hrun, if_pos hone] at hread
      cases hread
    · have hs : ∀ fuel, 1 ≤ fuel → StreamedAs Z archive cur e fuel []
          (decide (resultOf none = e.uncompLen)) (decide (resultOf none = e.uncompLen)) := by
        intro fuel hfuel κ process
        obtain ⟨fuel, rfl⟩ : ∃ k, fuel = k + 1 := ⟨fuel - 1, by omega⟩
        refine ⟨[], Pieces.nil, fun c => ?_⟩
        rw [hrun, if_neg hone, deliverThen_nil]
      rw [streamed_agree_iff hs bail_false]
      simp only [decodedContent, hmethod, deflated_ne_stored, if_false, Int.not_le.mpr hneg,
        and_false, List.length_nil, Nat.zero_le, true_and, reduceCtorEq, false_and, ne_eq, hone,
        not_false_eq_true]
      rw [decide_eq_true_iff, resultOf, imp_false, eq_comm]
  · obtain ⟨bound, hs⟩ := deflated_streamed archive cur hz hmethod (Int.not_lt.mp hneg)
    rw [streamed_agree_iff hs bail_false]
    simp only [SizesOk, hmethod, deflated_ne_stored, if_true, hneg, if_false, decodedContent,
      Int.not_lt.mp hneg, and_self]
    refine and_congr_right fun hfits => ?_
    have hall := (inflated_spec archive cur e hz).2.1
    generalize inflated Z decode archive cur e = d at hfits hall ⊢
    obtain ⟨out, fin⟩ := d
    cases fin with
    | true =>
      rw [← hall rfl]
      simp only [if_true, processed] at hfits ⊢
      refine iff_of_true (fun hresult => ?_) fun _ => trivial
      exact ⟨trivial, long_eq (of_decide_eq_true hresult) hfits⟩
    | false =>
      -- a length that is good although the stream has not ended is -1
      simp only [Bool.false_eq_true, if_false, imp_false]
      rw [decide_eq_true_iff, resultOf]
      constructor
      · intro hresult huncomp
        obtain ⟨-, hlen⟩ := hresult huncomp.symm
        omega
      · intro hne hresult
        exact absurd hresult.symm hne

/-- The extractors agree on an entry exactly if its sizes are in order. -/
theorem extractorsAgree_iff (hz : Streams Z decode) (archive : Bytes) (cur : Nat) (e : ZipEntry)
    (hmethod : e.compression = stored ∨ e.compression = deflated) :
    ExtractorsAgree Z decode archive cur e ↔ SizesOk Z decode archive cur e := by
  rcases hmethod with hstored | hdeflated
  · exact stored_agree_iff hstored
  · exact deflated_agree_iff hz hdeflated

end Agreement

namespace Sample

/-- The sums that `safe_add` tests. -/
def iop : SafeIop where
  addUnsigned a b := a + b < 2 ^ 32
  addSigned a b := -2 ^ 31 ≤ a + b ∧ a + b < 2 ^ 31

/-- An archive with one entry, of the given method, lengths and data. -/
def archive (method : UInt8) (compLen uncompLen : Int) (data : Bytes) : Bytes :=
  let name := cstr "a"
  let localHdr := write4 locsig ++ List.replicate 22 0 ++ [1, 0, 0, 0] ++ name
  let record := write4 censig ++ List.replicate 6 0 ++ [method, 0] ++ List.replicate 8 0 ++
    write4 compLen ++ write4 uncompLen ++ [1, 0, 0, 0, 0, 0] ++ List.replicate 8 0 ++ write4 0 ++
    name
  let eocd := write4 endsig ++ List.replicate 4 0 ++ [1, 0, 1, 0] ++ write4 record.length ++
    write4 (localHdr ++ data).length ++ [0, 0]
  localHdr ++ data ++ record ++ eocd

/-- The entry of such an archive. -/
def entry (method : Nat) (compLen uncompLen : Int) : ZipEntry :=
  ⟨cstr "a", 31, compLen, uncompLen, method, 0, 0, 0, 0⟩

/-- The letter `a`, deflated. -/
def word : Bytes := [0x4b, 0x04, 0x00]

/-- A decoder for this one stream; the state is what is left of it. -/
def inflateWord : Inflate Bytes where
  init := some word
  call s chunk _ :=
    if s <+: chunk then ⟨[], s.length, [97], .streamEnd⟩
    else if chunk ≠ [] ∧ chunk <+: s then ⟨s.drop chunk.length, chunk.length, [], .ok⟩
    else ⟨s, 0, [], .error⟩

def decodeWord : Bytes → Bytes × Bool := fun input =>
  if word <+: input then ([97], true) else ([], false)

/-- The state is what is still missing, and the output comes with the last byte. -/
def wordRel (s input out : Bytes) (fin : Bool) : Prop :=
  s ≠ [] ∧ (s <+: input ∧ out = [97] ∧ fin = true ∨ ¬ s <+: input ∧ out = [] ∧ fin = false)

/-- The decoder of the sample behaves like a stream decoder. -/
theorem inflateWord_streams : Streams inflateWord decodeWord := by
  refine ⟨wordRel, ⟨⟨word, rfl, ?_⟩, ?_, ?_, ?_⟩⟩
  · intro input
    by_cases h : word <+: input
    · exact ⟨by decide, .inl ⟨h, by simp [decodeWord, h]⟩⟩
    · exact ⟨by decide, .inr ⟨h, by simp [decodeWord, h]⟩⟩
  · rintro s rest out fin chunk room ⟨hs, hrel⟩ hchunk hroom hcode
    by_cases hend : s <+: chunk
    · simp [inflateWord, hend] at hcode
    · by_cases hgo : chunk ≠ [] ∧ chunk <+: s
      · obtain ⟨hne, ⟨later, rfl⟩⟩ := hgo
        have hlater : later ≠ [] := by
          rintro rfl
          exact hend (by simp)
        have hpos : 0 < chunk.length := List.length_pos_of_ne_nil hne
        simp only [inflateWord, hend, if_false, hne, ne_eq, not_false_eq_true, true_and,
          List.prefix_append, if_true, le_refl, List.length_nil, Nat.zero_le, Nat.add_zero, hpos,
          List.nil_append, List.drop_left, List.drop_length]
        rw [List.prefix_append_right_inj] at hrel
        exact ⟨out, rfl, hlater, hrel⟩
      · simp [inflateWord, hend, hgo] at hcode
  · rintro s rest out fin chunk room ⟨hs, hrel⟩ hchunk hroom hcode
    by_cases hend : s <+: chunk
    · rcases hrel with ⟨-, rfl, rfl⟩ | ⟨hnot, -⟩
      · exact ⟨by simp [inflateWord, hend], hroom, rfl⟩
      · exact absurd (hend.trans (List.prefix_append _ _)) hnot
    · by_cases hgo : chunk ≠ [] ∧ chunk <+: s
      · simp [inflateWord, hend, hgo] at hcode
      · simp [inflateWord, hend, hgo] at hcode
  · rintro s rest out fin chunk room ⟨hs, hrel⟩ hchunk hroom hcode
    rcases hrel with ⟨hin, -⟩ | ⟨hnot, rfl, rfl⟩
    · by_cases hnil : chunk = []
      · subst hnil
        rw [hchunk rfl] at hin
        exact absurd (List.prefix_nil.mp hin) hs
      · rcases List.prefix_or_prefix_of_prefix hin (List.prefix_append chunk rest) with hend | hgo
        · simp [inflateWord, hend] at hcode
        · by_cases hend : s <+: chunk
          · simp [inflateWord, hend] at hcode
          · simp [inflateWord, hend, hnil, hgo] at hcode
    · refine ⟨?_, Nat.zero_le _, rfl⟩
      have hend : ¬ s <+: chunk := fun h => hnot (h.trans (List.prefix_append _ _))
      by_cases hgo : chunk ≠ [] ∧ chunk <+: s
      · simp [inflateWord, hend, hgo] at hcode
      · simp [inflateWord, hend, hgo]

/-- A deflated entry of the right size. -/
theorem deflated_agrees :
    ExtractorsAgree inflateWord decodeWord (archive 8 3 1 word) 0 (entry deflated 3 1) :=
  (extractorsAgree_iff inflateWord_streams _ _ _ (.inr rfl)).mpr (by
    unfold SizesOk
    decide +kernel)

/-- A stored entry that is longer than it says. -/
theorem longStored_disagrees :
    parseZipArchive iop ⟨0x40000000, archive 0 1 0 [7]⟩ = .ok [entry stored 1 0] ∧
      ¬ ExtractorsAgree inflateWord decodeWord (archive 0 1 0 [7]) 0 (entry stored 1 0) := by
  refine ⟨by decide +kernel, ?_⟩
  rw [stored_agree_iff rfl]
  unfold SizesOk
  decide +kernel

end Sample

end OpenRecovery.Minzip
