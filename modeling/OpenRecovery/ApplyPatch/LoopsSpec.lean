import OpenRecovery.ApplyPatch.AccessSpec
import OpenRecovery.ApplyPatch.PatchLoops

/-!
# When the patch appliers end

The control loop always ends, since every turn takes 24 bytes of a finite stream. `FillBuffer` does
not: on a stream that is cut off it waits for bytes that never come. Nor does the loop around
`deflate` where `deflateInit2` has failed. The conditions below say which patches reach one of the
two, and they are exact. A run that leaves a buffer counts as one that has ended: what comes after
that is not determined by the program.
-/

set_option autoImplicit false

namespace OpenRecovery.ApplyPatch.Loops

open OpenRecovery.Storage
open OpenRecovery.ApplyPatch.Access

/-! ## Fuel -/

section Fuel

variable {α β : Type}

/-- With more fuel: a computation that has run out of it may go on, every other stays. -/
def Below (d d' : Decode α) : Prop := d = .hang ∨ d' = d

/-- A computation is below itself. -/
theorem Below.refl (d : Decode α) : Below d d := .inr rfl

/-- Two steps, each of them below. -/
theorem Below.bind {d d' : Decode α} {f f' : α → Decode β} (h : Below d d')
    (hf : ∀ a, Below (f a) (f' a)) : Below (d >>= f) (d' >>= f') := by
  rcases h with rfl | rfl
  · exact .inl rfl
  · cases d' with
    | ok a => exact hf a
    | failed => exact .refl _
    | fault => exact .refl _
    | hang => exact .refl _

/-- Each branch is below. -/
theorem Below.ite {p : Prop} [Decidable p] {d d' e e' : Decode α} (hd : Below d d')
    (he : Below e e') : Below (if p then d else e) (if p then d' else e') := by
  split
  · exact hd
  · exact he

/-- More fuel changes nothing once the computation has ended. -/
def Fueled (x : Nat → Decode α) : Prop := ∀ n, Below (x n) (x (n + 1))

/-- The computation ends, with some fuel. -/
def Terminates (x : Nat → Decode α) : Prop := ∃ n, x n ≠ .hang

/-- The computation has ended, its result has the property, and `F` holds after an error. -/
def EndsIn (F : Prop) (d : Decode α) (Q : α → Prop) : Prop :=
  match d with
  | .ok a => Q a
  | .failed => F
  | .fault => True
  | .hang => False

/-- The computation ends with some fuel, its result has the property, and `F` holds after an
error. -/
def EndsThen (F : Prop) (x : Nat → Decode α) (Q : α → Prop) : Prop := ∃ n, EndsIn F (x n) Q

variable {F : Prop} {Q : α → Prop}

@[simp] theorem endsIn_ok (a : α) : EndsIn F (.ok a) Q ↔ Q a := Iff.rfl

@[simp] theorem endsIn_failed : EndsIn F .failed Q ↔ F := Iff.rfl

@[simp] theorem endsIn_fault : EndsIn F .fault Q ↔ True := Iff.rfl

@[simp] theorem endsIn_hang : EndsIn F .hang Q ↔ False := Iff.rfl

@[simp] theorem endsIn_bind (d : Decode α) (f : α → Decode β) (R : β → Prop) :
    EndsIn F (d >>= f) R ↔ EndsIn F d fun a => EndsIn F (f a) R := by
  cases d <;> rfl

@[simp] theorem endsIn_ofAccess (x : Option α) :
    EndsIn F (Decode.ofAccess x) Q ↔ ∀ a, x = some a → Q a := by
  cases x <;> simp [Decode.ofAccess]

/-- A weaker statement about the result. -/
theorem EndsIn.mono {d : Decode α} {R : α → Prop} (h : EndsIn F d Q) (hqr : ∀ a, Q a → R a) :
    EndsIn F d R := by
  cases d with
  | ok a => exact hqr a h
  | failed => exact h
  | fault => exact trivial
  | hang => exact h

/-- In the words of `SafeThen`, for a computation with no error: what holds of a safe run. -/
theorem endsIn_iff_safeThen {d : Decode α} (herror : d ≠ .failed) (hend : d ≠ .hang) :
    EndsIn F d Q ↔ (SafeThen d (fun _ => True) → SafeThen d Q) := by
  cases d with
  | ok a => simp
  | failed => exact absurd rfl herror
  | fault => simp
  | hang => exact absurd rfl hend

/-- Termination alone asks nothing of the result. -/
theorem terminates_iff (x : Nat → Decode α) : Terminates x ↔ EndsThen True x fun _ => True := by
  refine exists_congr fun n => ?_
  cases x n <;> simp

/-- A computation without loops needs no fuel. -/
theorem fueled_const (d : Decode α) : Fueled fun _ => d := fun _ => .refl d

/-- More fuel does not change how a computation ends. -/
theorem Fueled.endsIn {x : Nat → Decode α} (hx : Fueled x) {m n : Nat} (hle : m ≤ n)
    (h : EndsIn F (x m) Q) : EndsIn F (x n) Q := by
  induction hle with
  | refl => exact h
  | @step k _ ih =>
    rcases hx k with hk | hk
    · rw [hk] at ih
      exact ih.elim
    · rw [hk]
      exact ih

@[simp] theorem endsThen_const (d : Decode α) : EndsThen F (fun _ => d) Q ↔ EndsIn F d Q :=
  exists_const Nat

/-- Two computations one after the other: the fuel for both is the larger of the two. -/
theorem endsThen_bind {x : Nat → Decode α} {f : Nat → α → Decode β} {R : β → Prop}
    (hx : Fueled x) (hf : ∀ a, Fueled fun n => f n a) :
    EndsThen F (fun n => x n >>= f n) R ↔ EndsThen F x fun a => EndsThen F (fun n => f n a) R := by
  constructor
  · rintro ⟨n, h⟩
    rw [endsIn_bind] at h
    exact ⟨n, h.mono fun a ha => ⟨n, ha⟩⟩
  · rintro ⟨n, h⟩
    cases hn : x n with
    | ok a =>
      rw [hn] at h
      obtain ⟨m, hm⟩ := h
      -- both parts end with the larger fuel
      refine ⟨max n m, ?_⟩
      have hx' : EndsIn F (x (max n m)) (· = a) :=
        hx.endsIn (le_max_left n m) (by rw [hn]; exact rfl)
      rw [endsIn_bind]
      refine hx'.mono ?_
      rintro b rfl
      exact (hf b).endsIn (le_max_right n m) hm
    | failed =>
      rw [hn] at h
      exact ⟨n, (endsIn_bind ..).mpr (by rw [hn]; exact h)⟩
    | fault => exact ⟨n, (endsIn_bind ..).mpr (by rw [hn]; trivial)⟩
    | hang =>
      rw [hn] at h
      exact h.elim

/-- A first part without loops. -/
theorem endsThen_const_bind {d : Decode α} {f : Nat → α → Decode β} {R : β → Prop}
    (hf : ∀ a, Fueled fun n => f n a) :
    EndsThen F (fun n => d >>= f n) R ↔ EndsIn F d fun a => EndsThen F (fun n => f n a) R := by
  rw [endsThen_bind (fueled_const d) hf, endsThen_const]

/-- Each branch ends. -/
theorem endsThen_ite {p : Prop} [Decidable p] {x y : Nat → Decode α} :
    EndsThen F (fun n => if p then x n else y n) Q ↔ if p then EndsThen F x Q else EndsThen F y Q := by
  split <;> rfl

/-- A loop may be looked at from its first turn on. -/
theorem endsThen_succ {x : Nat → Decode α} (hx : Fueled x) :
    EndsThen F x Q ↔ EndsThen F (fun n => x (n + 1)) Q := by
  constructor
  · rintro ⟨n, h⟩
    exact ⟨n, hx.endsIn (Nat.le_succ n) h⟩
  · rintro ⟨n, h⟩
    exact ⟨n + 1, h⟩

/-- Two computations one after the other. -/
theorem Fueled.bind {x : Nat → Decode α} {f : Nat → α → Decode β} (hx : Fueled x)
    (hf : ∀ a, Fueled fun n => f n a) : Fueled fun n => x n >>= f n :=
  fun n => (hx n).bind fun a => hf a n

/-- Each branch. -/
theorem Fueled.ite {p : Prop} [Decidable p] {x y : Nat → Decode α} (hx : Fueled x)
    (hy : Fueled y) : Fueled fun n => if p then x n else y n :=
  fun n => (hx n).ite (hy n)

end Fuel

/-! ## Filling a buffer -/

/-- Fuel that is enough for the loop of `FillBuffer` stays enough. -/
theorem fueled_fillLoop (buf : Bytes) (i avail : Nat) (stream : BzStream) :
    Fueled fun n => fillLoop n buf i avail stream := by
  intro n
  induction n generalizing buf i avail stream with
  | zero => exact .inl rfl
  | succ n ih =>
    refine .ite (.refl _) (.bind (.refl _) fun ⟨out, bzerr, stream⟩ => ?_)
    exact .bind (.refl _) fun buf => .ite (.refl _) (ih buf _ _ stream)

/-- The same for `FillBuffer`. -/
theorem fueled_fillBuffer (buf : Bytes) (i : Nat) (size : Int) (stream : BzStream) :
    Fueled fun n => fillBuffer n buf i size stream :=
  fueled_fillLoop buf i _ stream

/-- The loop never comes to an end on a stream that is cut off. -/
theorem fillLoop_starved (n : Nat) {buf : Bytes} {i avail : Nat} (hi : i ≤ buf.length)
    (havail : avail ≠ 0) : fillLoop n buf i avail ⟨[], .starved⟩ = .hang := by
  induction n generalizing buf with
  | zero => rfl
  | succ n ih =>
    have hdecompress : bzDecompress avail ⟨[], .starved⟩ = .ok ([], .ok, ⟨[], .starved⟩) :=
      if_neg (by simpa using havail)
    have hwrite : writeAt buf i [] = .ok buf := by
      simp [writeAt, hi]
    rw [fillLoop, if_neg havail, hdecompress, Decode.ok_bind]
    simp only [hwrite, Decode.ok_bind, List.length_nil, Nat.add_zero, Nat.sub_zero]
    rw [if_neg (by decide), ih hi]

/-- The buffer with the bytes from index `i` on. -/
def written (buf : Bytes) (i : Nat) (out : Bytes) : Bytes :=
  buf.take i ++ out ++ buf.drop (i + out.length)

/-- Writing inside the buffer keeps its length. -/
theorem length_written {buf : Bytes} {i : Nat} {out : Bytes} (h : i + out.length ≤ buf.length) :
    (written buf i out).length = buf.length := by
  simp only [written, List.length_append, List.length_take, List.length_drop]
  omega

/-- A write ends if it stays inside the buffer. -/
theorem endsIn_writeAt {F : Prop} {buf : Bytes} {i : Nat} {out : Bytes} {Q : Bytes → Prop} :
    EndsIn F (writeAt buf i out) Q ↔ (i + out.length ≤ buf.length → Q (written buf i out)) := by
  unfold writeAt written
  split
  next h => simp [h]
  next h => simp [h]

/-- What comes after all the output of a stream: an error, or nothing at all where it is cut off. -/
def Exhausted (F : Prop) : StreamEnd → Prop
  | .streamEnd => F
  | .dataError => F
  | .starved => False
  | .overrun => True

/-- Nothing is asked for, and the loop is over. -/
theorem fillLoop_zero (n : Nat) (buf : Bytes) (i : Nat) (stream : BzStream) :
    fillLoop (n + 1) buf i 0 stream = .ok (buf, stream) :=
  if_pos rfl

/-- The call after the end of a stream is an error. -/
theorem fillLoop_error (n : Nat) {buf : Bytes} {i avail : Nat} (hi : i ≤ buf.length)
    (havail : avail ≠ 0) : fillLoop (n + 1) buf i avail ⟨[], .dataError⟩ = .failed := by
  have hdecompress : bzDecompress avail ⟨[], .dataError⟩ = .ok ([], .error, ⟨[], .dataError⟩) :=
    if_neg (by simpa using havail)
  have hwrite : writeAt buf i [] = .ok buf := by
    simp [writeAt, hi]
  rw [fillLoop, if_neg havail, hdecompress, Decode.ok_bind]
  simp only [hwrite, Decode.ok_bind, if_true]

/-- One turn of the loop, after the call. -/
theorem endsThen_fillTurn {F : Prop} {buf : Bytes} {i avail : Nat} {Q : Bytes × BzStream → Prop}
    (out : Bytes) (bzerr : BzStatus) (rest : BzStream) :
    EndsThen F (fun n => (do
        let buf ← writeAt buf i out
        if bzerr = .error then .failed
        else fillLoop n buf (i + out.length) (avail - out.length) rest)) Q ↔
      (i + out.length ≤ buf.length →
        if bzerr = .error then F
        else EndsThen F (fun n => fillLoop n (written buf i out) (i + out.length)
          (avail - out.length) rest) Q) := by
  rw [endsThen_const_bind fun buf => (fueled_const _).ite (fueled_fillLoop buf _ _ rest),
    endsIn_writeAt]
  refine imp_congr_right fun _ => ?_
  rw [endsThen_ite, endsThen_const, endsIn_failed]

/-- When `FillBuffer` ends. -/
theorem endsThen_fillLoop {F : Prop} {buf : Bytes} {i avail : Nat} {stream : BzStream}
    {Q : Bytes × BzStream → Prop} (hi : i ≤ buf.length) :
    EndsThen F (fun n => fillLoop n buf i avail stream) Q ↔
      if avail ≤ stream.out.length then
        i + avail ≤ buf.length →
          Q (written buf i (stream.out.take avail), ⟨stream.out.drop avail, stream.fin⟩)
      else i + stream.out.length ≤ buf.length → Exhausted F stream.fin := by
  -- the first call answers for all that the stream still gives; what follows depends on how it ends
  rw [endsThen_succ (fueled_fillLoop buf i avail stream)]
  by_cases hzero : avail = 0
  · subst hzero
    simp [fillLoop_zero, written, hi]
  simp only [fillLoop, if_neg hzero]
  rw [endsThen_const_bind (by
    rintro ⟨out, bzerr, stream⟩
    exact (fueled_const _).bind fun buf => (fueled_const _).ite (fueled_fillLoop buf _ _ stream))]
  unfold bzDecompress
  split
  next hle =>
    rw [endsIn_ok, endsThen_fillTurn, List.length_take_of_le hle, Nat.sub_self,
      if_neg (show ¬BzStatus.ok = .error by decide)]
    refine imp_congr_right fun hfits => ?_
    rw [endsThen_succ (fueled_fillLoop _ _ _ _)]
    simp [fillLoop_zero]
  next hgt =>
    have hmore : avail - stream.out.length ≠ 0 := by omega
    cases hfin : stream.fin with
    | streamEnd =>
      rw [endsIn_ok, endsThen_fillTurn, if_neg (show ¬BzStatus.streamEnd = .error by decide)]
      refine imp_congr_right fun hfits => ?_
      have hroom : i + stream.out.length ≤ (written buf i stream.out).length := by
        rw [length_written hfits]
        exact hfits
      rw [endsThen_succ (fueled_fillLoop _ _ _ _)]
      -- the end of the stream is no error yet, but the next call is one
      simp [fillLoop_error _ hroom hmore, Exhausted]
    | dataError =>
      rw [endsIn_ok, endsThen_fillTurn, if_pos rfl]
      rfl
    | starved =>
      rw [endsIn_ok, endsThen_fillTurn, if_neg (show ¬BzStatus.ok = .error by decide)]
      refine imp_congr_right fun hfits => ?_
      have hroom : i + stream.out.length ≤ (written buf i stream.out).length := by
        rw [length_written hfits]
        exact hfits
      simp [EndsThen, fillLoop_starved _ hroom hmore, Exhausted]
    | overrun => simp [Exhausted]

/-- `FillBuffer` of `size` bytes into room for `cap`, from a stream that still gives `n`: where the
buffer is filled `next` has to hold, and after an error `F`. -/
def FillEnds (F : Prop) (cap n : Nat) (fin : StreamEnd) (size : Int) (next : Prop) : Prop :=
  if 0 ≤ size ∧ size ≤ n then size ≤ cap → next else n ≤ cap → Exhausted F fin

/-- Each branch may be replaced. -/
theorem ite_iff_ite {p a a' b b' : Prop} [Decidable p] (ha : a ↔ a') (hb : b ↔ b') :
    (if p then a else b) ↔ if p then a' else b' := by
  split
  · exact ha
  · exact hb

/-- What comes after matters only when the request was met. -/
theorem fillEnds_congr {F : Prop} {cap n : Nat} {fin : StreamEnd} {size : Int} {next next' : Prop}
    (h : 0 ≤ size → size ≤ n → size ≤ cap → (next ↔ next')) :
    FillEnds F cap n fin size next ↔ FillEnds F cap n fin size next' := by
  unfold FillEnds
  split
  next hgives => exact imp_congr_right fun hroom => h hgives.1 hgives.2 hroom
  next => rfl

/-- A number that is not negative is passed on as it is. -/
theorem uint32_of_nonneg {v : Int} (h : 0 ≤ v) (hlt : v < 2 ^ 31) : uint32 v = v := by
  unfold uint32
  omega

/-- A negative one is passed on as 2 GiB or more. -/
theorem le_uint32_of_neg {v : Int} (h : v < 0) (hle : -2 ^ 31 ≤ v) : 2 ^ 31 ≤ uint32 v := by
  unfold uint32
  omega

/-- `FillBuffer` ends exactly in these cases: the stream has the bytes and they fit, or it is cut
off by an error. Otherwise it asks for ever. -/
theorem endsThen_fillBuffer {F : Prop} {buf : Bytes} {i : Nat} {size : Int} {stream : BzStream}
    {Q : Bytes × BzStream → Prop} (hi : i ≤ buf.length) (hbuf : buf.length < 2 ^ 31)
    (hlow : -2 ^ 31 ≤ size) (hhigh : size < 2 ^ 31) :
    EndsThen F (fun n => fillBuffer n buf i size stream) Q ↔
      FillEnds F (buf.length - i) stream.out.length stream.fin size
        (Q (written buf i (stream.out.take size.toNat),
          ⟨stream.out.drop size.toNat, stream.fin⟩)) := by
  unfold fillBuffer FillEnds
  rw [endsThen_fillLoop hi]
  have hroom : ∀ m : Nat, i + m ≤ buf.length ↔ m ≤ buf.length - i := by
    intro m
    omega
  rcases lt_or_ge size 0 with hneg | hpos
  · -- no buffer has room for a negative length
    -- as `avail_out` it is at least 2^31
    have hhuge := le_uint32_of_neg hneg hlow
    have hnot : ¬(0 ≤ size ∧ size ≤ stream.out.length) := fun h =>
      absurd h.1 (Int.not_le.mpr hneg)
    rw [if_neg hnot, hroom, hroom]
    split
    next hle =>
      refine iff_of_true (fun hfits => ?_) (fun hfits => ?_)
      · omega
      · omega
    next => rfl
  · rw [uint32_of_nonneg hpos hhigh]
    obtain ⟨k, rfl⟩ := Int.eq_ofNat_of_zero_le hpos
    simp only [Int.toNat_natCast, hroom, Int.natCast_nonneg, true_and, Nat.cast_le]

/-! ## The control loop -/

/-- What fits into an `int`. -/
theorem int32_bounds (v : Int) : -2 ^ 31 ≤ int32 v ∧ int32 v < 2 ^ 31 := by
  have hlow := Int.le_bmod (x := v) (m := 2 ^ 32) (by decide)
  have hhigh := Int.bmod_lt (x := v) (m := 2 ^ 32) (by decide)
  unfold int32
  omega

/-- What `offtin` can give. -/
theorem offtin_bounds (b : Bytes) : -2 ^ 31 ≤ Access.offtin b ∧ Access.offtin b < 2 ^ 31 := by
  unfold Access.offtin
  split
  · exact int32_bounds _
  · exact int32_bounds _

/-- Less than 24 bytes are no triple. -/
theorem triplesOf_short {out : Bytes} (h : out.length < 24) : triplesOf out = [] := by
  simp [triplesOf, Nat.div_eq_of_lt h]

/-- 24 bytes are the first triple. -/
theorem triplesOf_cons {out : Bytes} (h : 24 ≤ out.length) :
    triplesOf out = tripleOf (out.take 24) :: triplesOf (out.drop 24) := by
  have hcount : out.length / 24 = (out.drop 24).length / 24 + 1 := by
    rw [List.length_drop]
    omega
  have hmore : ∀ k, 24 * (k + 1) = 24 + 24 * k := by
    intro k
    omega
  simp only [triplesOf, hcount, List.range_succ_eq_map, List.map_cons, List.map_map, tripleOf,
    List.drop_drop, Nat.mul_zero, List.drop_zero, Nat.zero_add, List.take_take, List.drop_take]
  refine congrArg₂ _ (by simp) (List.map_congr_left fun k _ => ?_)
  simp only [Function.comp, Nat.succ_eq_add_one, hmore, Nat.add_assoc]

/-- Adding the old bytes has no error path and ends. -/
theorem addOld_ok_or_fault {old : Bytes} {start oldSize oldpos : Int} {newpos : Nat} (n i : Nat)
    (new : Bytes) :
    Access.addOld old start oldSize oldpos newpos n i new ≠ .failed ∧
      Access.addOld old start oldSize oldpos newpos n i new ≠ .hang := by
  induction n generalizing i new with
  | zero => exact ⟨by rintro ⟨⟩, by rintro ⟨⟩⟩
  | succ n ih =>
    simp only [Access.addOld]
    split
    · split
      · exact ih _ _
      · exact ⟨by rintro ⟨⟩, by rintro ⟨⟩⟩
    · exact ih _ _

/-- The lengths after it are those before it. -/
theorem endsIn_addOld {F : Prop} {old : Bytes} {start oldSize oldpos : Int} {newpos x : Nat}
    {new : Bytes} {Q : Bytes → Prop} {next : Prop} (hroom : newpos + x ≤ new.length)
    (hnext : ∀ w : Bytes, w.length = new.length → (Q w ↔ next)) :
    EndsIn F (Access.addOld old start oldSize oldpos newpos x 0 new) Q ↔
      ((∀ i < x, ReadOk old.length start oldSize oldpos i) → next) := by
  obtain ⟨herror, hend⟩ := @addOld_ok_or_fault old start oldSize oldpos newpos x 0 new
  rw [endsIn_iff_safeThen herror hend, safeThen_addOld hroom fun _ _ => (Iff.rfl : True ↔ True),
    safeThen_addOld hroom hnext]
  constructor
  · intro h hread
    exact (h ⟨hread, trivial⟩).2
  · rintro h ⟨hread, -⟩
    exact ⟨hread, h hread⟩

/-- The condition on the triples still to come, with the bytes that the diff and the extra stream
still give; `done` is what has to hold where the loop runs to its end, and `F` after an error. -/
def TriplesEnd (oldLen : Nat) (start oldSize : Int) (newSize : Nat) (cfin dfin efin : StreamEnd)
    (F done : Prop) : List Triple → Nat → Int → Nat → Nat → Prop
  | [], newpos, _, _, _ => if newpos < newSize then Exhausted F cfin else done
  | t :: ts, newpos, oldpos, dn, en =>
      if newpos < newSize then
        -- the sanity check is a comparison in 32 bits, and the sum may have wrapped
        if (newSize : Int) < int32 (newpos + t.x) then F
        else
          FillEnds F (newSize - newpos) dn dfin t.x
            ((∀ i < t.x.toNat, ReadOk oldLen start oldSize oldpos i) →
              if (newSize : Int) < int32 ((newpos + t.x.toNat : Nat) + t.y) then F
              else
                FillEnds F (newSize - (newpos + t.x.toNat)) en efin t.y
                  (TriplesEnd oldLen start oldSize newSize cfin dfin efin F done ts
                    (newpos + t.x.toNat + t.y.toNat) (int32 (int32 (oldpos + t.x) + t.z))
                    (dn - t.x.toNat) (en - t.y.toNat)))
      else done

/-- A turn of the control loop, after its control data. -/
def turn (old : Bytes) (start oldSize : Int) (n : Nat) (new : Bytes) (newpos : Nat) (oldpos : Int)
    (dstream estream : BzStream) (control : Bytes × BzStream) : Decode Bytes :=
  let t := tripleOf control.1
  if (new.length : Int) < int32 (newpos + t.x) then .failed
  else do
    let (new, dstream) ← fillBuffer n new newpos t.x dstream
    let new ← Access.addOld old start oldSize oldpos newpos t.x.toNat 0 new
    let newpos := newpos + t.x.toNat
    let oldpos := int32 (oldpos + t.x)
    if (new.length : Int) < int32 (newpos + t.y) then .failed
    else do
      let (new, estream) ← fillBuffer n new newpos t.y estream
      patchLoop old start oldSize n new (newpos + t.y.toNat) (int32 (oldpos + t.z)) control.2
        dstream estream

section ControlLoop

variable {F : Prop} {old : Bytes} {start oldSize : Int}

/-- One round of the main loop of bspatch. -/
theorem patchLoop_succ (n : Nat) (new : Bytes) (newpos : Nat) (oldpos : Int)
    (cstream dstream estream : BzStream) :
    patchLoop old start oldSize (n + 1) new newpos oldpos cstream dstream estream =
      if newpos < new.length then
        fillBuffer n (List.replicate 24 0) 0 24 cstream >>=
          turn old start oldSize n new newpos oldpos dstream estream
      else .ok new := by
  rw [patchLoop]
  rfl

/-- A round is below the one with more fuel if the rounds after it are. -/
theorem below_turn {n : Nat} (hloop : ∀ new newpos oldpos cstream dstream estream,
      Below (patchLoop old start oldSize n new newpos oldpos cstream dstream estream)
        (patchLoop old start oldSize (n + 1) new newpos oldpos cstream dstream estream))
    (new : Bytes) (newpos : Nat) (oldpos : Int) (dstream estream : BzStream)
    (control : Bytes × BzStream) :
    Below (turn old start oldSize n new newpos oldpos dstream estream control)
      (turn old start oldSize (n + 1) new newpos oldpos dstream estream control) := by
  refine .ite (.refl _) (.bind (fueled_fillBuffer _ _ _ _ n) fun ⟨new, dstream⟩ => ?_)
  refine .bind (.refl _) fun new => ?_
  refine .ite (.refl _) (.bind (fueled_fillBuffer _ _ _ _ n) fun ⟨new, estream⟩ => ?_)
  exact hloop new _ _ control.2 dstream estream

/-- More fuel does not change how the main loop ends. Induction on the fuel. -/
theorem fueled_patchLoop (new : Bytes) (newpos : Nat) (oldpos : Int)
    (cstream dstream estream : BzStream) :
    Fueled fun n => patchLoop old start oldSize n new newpos oldpos cstream dstream estream := by
  intro n
  induction n generalizing new newpos oldpos cstream dstream estream with
  | zero => exact .inl rfl
  | succ n ih =>
    exact .ite (.bind (fueled_fillBuffer _ _ _ _ n) (below_turn ih _ _ _ _ _)) (.refl _)

/-- The same for a round. -/
theorem fueled_turn (new : Bytes) (newpos : Nat) (oldpos : Int) (dstream estream : BzStream)
    (control : Bytes × BzStream) :
    Fueled fun n => turn old start oldSize n new newpos oldpos dstream estream control :=
  fun n => below_turn (fun _ _ _ _ _ _ => fueled_patchLoop _ _ _ _ _ _ n) _ _ _ _ _ control

/-- The read of the control data: 24 bytes, or what is left of a stream that may be cut off. -/
theorem endsThen_control {cstream : BzStream} {Q : Bytes × BzStream → Prop} :
    EndsThen F (fun n => fillBuffer n (List.replicate 24 0) 0 24 cstream) Q ↔
      if 24 ≤ cstream.out.length then
        Q (cstream.out.take 24, ⟨cstream.out.drop 24, cstream.fin⟩)
      else Exhausted F cstream.fin := by
  have hroom : (List.replicate 24 (0 : UInt8)).length - 0 = 24 := by rw [List.length_replicate]
  rw [endsThen_fillBuffer (Nat.zero_le _) (by rw [List.length_replicate]; decide) (by decide)
    (by decide), hroom, show (24 : Int).toNat = 24 from rfl]
  unfold FillEnds
  by_cases h : 24 ≤ cstream.out.length
  · have hwhole : written (List.replicate 24 0) 0 (cstream.out.take 24) = cstream.out.take 24 := by
      simp only [written, List.take_zero, List.nil_append, List.length_take_of_le h, Nat.zero_add]
      rw [List.drop_eq_nil_of_le (by rw [List.length_replicate]), List.append_nil]
    rw [if_pos h, if_pos ⟨by decide, by exact_mod_cast h⟩, hwhole]
    exact ⟨fun hnext => hnext (by decide), fun hnext _ => hnext⟩
  · rw [if_neg h, if_neg (fun hc => h (by exact_mod_cast hc.2))]
    exact ⟨fun hend => hend (by omega), fun hend _ => hend⟩

/-- One turn, where the rest of the loop is known. -/
theorem endsThen_turn {new : Bytes} {newpos : Nat} {oldpos : Int} {dstream estream : BzStream}
    {control : Bytes × BzStream} {Q : Bytes → Prop} {t : Triple} {rest : Nat → Nat → Prop}
    (ht : tripleOf control.1 = t) (hlt : newpos < new.length) (hnew : new.length < 2 ^ 31)
    (hrest : ∀ (w : Bytes) (d e : BzStream), w.length = new.length → d.fin = dstream.fin →
      e.fin = estream.fin →
      (EndsThen F (fun n => patchLoop old start oldSize n w (newpos + t.x.toNat + t.y.toNat)
          (int32 (int32 (oldpos + t.x) + t.z)) control.2 d e) Q ↔
        rest d.out.length e.out.length)) :
    EndsThen F (fun n => turn old start oldSize n new newpos oldpos dstream estream control) Q ↔
      if (new.length : Int) < int32 (newpos + t.x) then F
      else
        FillEnds F (new.length - newpos) dstream.out.length dstream.fin t.x
          ((∀ i < t.x.toNat, ReadOk old.length start oldSize oldpos i) →
            if (new.length : Int) < int32 ((newpos + t.x.toNat : Nat) + t.y) then F
            else
              FillEnds F (new.length - (newpos + t.x.toNat)) estream.out.length estream.fin t.y
                (rest (dstream.out.length - t.x.toNat) (estream.out.length - t.y.toNat))) := by
  have hx : -2 ^ 31 ≤ t.x ∧ t.x < 2 ^ 31 := by
    rw [← ht]
    exact offtin_bounds _
  have hy : -2 ^ 31 ≤ t.y ∧ t.y < 2 ^ 31 := by
    rw [← ht]
    exact offtin_bounds _
  simp only [turn, ht]
  rw [endsThen_ite, endsThen_const, endsIn_failed]
  refine ite_iff_ite Iff.rfl ?_
  rw [endsThen_bind (fueled_fillBuffer _ _ _ _) fun ⟨_, _⟩ => .bind (fueled_const _) fun _ =>
      .ite (fueled_const _) (.bind (fueled_fillBuffer _ _ _ _) fun ⟨_, _⟩ =>
        fueled_patchLoop _ _ _ _ _ _),
    endsThen_fillBuffer hlt.le hnew hx.1 hx.2]
  -- the diff string was read whole, so the additions take place
  refine fillEnds_congr fun hx0 hxn hxroom => ?_
  have hdiffed : (written new newpos (dstream.out.take t.x.toNat)).length = new.length := by
    refine length_written ?_
    rw [List.length_take]
    omega
  rw [endsThen_const_bind fun _ => .ite (fueled_const _) (.bind (fueled_fillBuffer _ _ _ _)
    fun ⟨_, _⟩ => fueled_patchLoop _ _ _ _ _ _)]
  refine endsIn_addOld (by rw [hdiffed]; omega) fun added hadded => ?_
  have hsize : added.length = new.length := hadded.trans hdiffed
  rw [endsThen_ite, endsThen_const, endsIn_failed, hsize]
  refine ite_iff_ite Iff.rfl ?_
  rw [endsThen_bind (fueled_fillBuffer _ _ _ _) fun ⟨_, _⟩ => fueled_patchLoop _ _ _ _ _ _,
    endsThen_fillBuffer (by omega) (by omega) hy.1 hy.2, hsize]
  refine fillEnds_congr fun hy0 hyn hyroom => ?_
  have hfilled : (written added (newpos + t.x.toNat) (estream.out.take t.y.toNat)).length =
      new.length := by
    refine (length_written ?_).trans hsize
    rw [List.length_take]
    omega
  have hdone := hrest _ ⟨dstream.out.drop t.x.toNat, dstream.fin⟩
    ⟨estream.out.drop t.y.toNat, estream.fin⟩ hfilled rfl rfl
  rw [List.length_drop, List.length_drop] at hdone
  exact hdone

/-- The main loop ends exactly if `TriplesEnd` holds of its triples. Induction on them. -/
theorem endsThen_patchLoop {done : Prop} (ts : List Triple) {new : Bytes} {newpos : Nat}
    {oldpos : Int} {cstream dstream estream : BzStream} (hts : triplesOf cstream.out = ts)
    (hnew : new.length < 2 ^ 31) :
    EndsThen F (fun n => patchLoop old start oldSize n new newpos oldpos cstream dstream estream)
        (fun _ => done) ↔
      TriplesEnd old.length start oldSize new.length cstream.fin dstream.fin estream.fin F done ts
        newpos oldpos dstream.out.length estream.out.length := by
  -- the induction is on the triples: every turn takes one of them
  induction ts generalizing new newpos oldpos cstream dstream estream with
  | nil =>
    have hshort : ¬ 24 ≤ cstream.out.length := by
      intro h
      rw [triplesOf_cons h] at hts
      cases hts
    rw [endsThen_succ (fueled_patchLoop _ _ _ _ _ _), TriplesEnd]
    simp only [patchLoop_succ]
    rw [endsThen_ite, endsThen_const, endsIn_ok,
      endsThen_bind (fueled_fillBuffer _ _ _ _) (fueled_turn _ _ _ _ _), endsThen_control,
      if_neg hshort]
  | cons t ts ih =>
    have hlong : 24 ≤ cstream.out.length := by
      by_contra h
      rw [triplesOf_short (Nat.not_le.mp h)] at hts
      cases hts
    obtain ⟨ht, hrest⟩ : tripleOf (cstream.out.take 24) = t ∧
        triplesOf (cstream.out.drop 24) = ts := by
      rw [triplesOf_cons hlong] at hts
      exact List.cons.inj hts
    rw [endsThen_succ (fueled_patchLoop _ _ _ _ _ _), TriplesEnd]
    simp only [patchLoop_succ]
    by_cases hlt : newpos < new.length
    · simp only [if_pos hlt]
      rw [endsThen_bind (fueled_fillBuffer _ _ _ _) (fueled_turn _ _ _ _ _), endsThen_control,
        if_pos hlong, endsThen_turn ht hlt hnew]
      intro w d e hw hd he
      rw [ih hrest (by rw [hw]; exact hnew), hw, hd, he]
    · simp only [if_neg hlt, endsThen_const, endsIn_ok]

end ControlLoop

/-! ## ApplyBSDiffPatchMem -/

/-- The condition on a bsdiff patch at `patchOffset`. -/
def BsEnds (c : Codecs) (oldLen : Nat) (start oldSize : Int) (data : Bytes) (patchOffset : Int)
    (F done : Prop) : Prop :=
  ∀ magic, slice data patchOffset 8 = some magic →
    if magic ≠ cstr "BSDIFF40" then F
    else
      ∀ h, bsHeader data patchOffset = some h →
        if h.ctrlLen < 0 ∨ h.dataLen < 0 ∨ h.newSize < 0 then F
        else
          let pos := patchOffset + 32
          let cstream := openStream c data pos h.ctrlLen
          let dstream := openStream c data (pos + h.ctrlLen) h.dataLen
          let estream := openStream c data (pos + h.ctrlLen + h.dataLen)
            (data.length - (pos + h.ctrlLen + h.dataLen))
          if c.malloc h.newSize.toNat then
            TriplesEnd oldLen start oldSize h.newSize.toNat cstream.fin dstream.fin estream.fin F
              done (triplesOf cstream.out) 0 0 dstream.out.length estream.out.length
          else F

/-- The size of the result fits into an `int`. -/
theorem newSize_lt {data : Bytes} {patchOffset : Int} {h : BsHeader}
    (hread : bsHeader data patchOffset = some h) : h.newSize.toNat < 2 ^ 31 := by
  simp only [bsHeader, Option.bind_eq_bind, Option.bind_eq_some_iff, Option.pure_def,
    Option.some.injEq] at hread
  obtain ⟨_, -, _, -, newSize, -, rfl⟩ := hread
  have hbound := (offtin_bounds newSize).2
  change (Access.offtin newSize).toNat < 2 ^ 31
  omega

/-- More fuel does not change how `ApplyBSDiffPatchMem` ends. -/
theorem fueled_applyBSDiffPatchMem (c : Codecs) (old : Bytes) (start oldSize : Int) (data : Bytes)
    (patchOffset : Int) :
    Fueled fun n => applyBSDiffPatchMem c n old start oldSize data patchOffset :=
  .bind (fueled_const _) fun _ => .ite (fueled_const _) <| .bind (fueled_const _) fun _ =>
    .ite (fueled_const _) (.ite (fueled_patchLoop _ _ _ _ _ _) (fueled_const _))

/-- It ends exactly if `BsEnds` holds of its numbers. -/
theorem endsThen_applyBSDiffPatchMem {c : Codecs} {old : Bytes} {start oldSize : Int}
    {data : Bytes} {patchOffset : Int} {F done : Prop} :
    EndsThen F (fun n => applyBSDiffPatchMem c n old start oldSize data patchOffset)
        (fun _ => done) ↔
      BsEnds c old.length start oldSize data patchOffset F done := by
  unfold applyBSDiffPatchMem BsEnds
  rw [endsThen_const_bind fun _ => .ite (fueled_const _) <| .bind (fueled_const _) fun _ =>
    .ite (fueled_const _) (.ite (fueled_patchLoop _ _ _ _ _ _) (fueled_const _)),
    endsIn_ofAccess]
  refine forall_congr' fun magic => imp_congr_right fun _ => ?_
  rw [endsThen_ite, endsThen_const, endsIn_failed]
  refine ite_iff_ite Iff.rfl ?_
  rw [endsThen_const_bind fun _ => .ite (fueled_const _)
    (.ite (fueled_patchLoop _ _ _ _ _ _) (fueled_const _)), endsIn_ofAccess]
  refine forall_congr' fun h => imp_congr_right fun hread => ?_
  rw [endsThen_ite, endsThen_const, endsIn_failed]
  refine ite_iff_ite Iff.rfl ?_
  rw [endsThen_ite, endsThen_const, endsIn_failed]
  refine ite_iff_ite ?_ Iff.rfl
  rw [endsThen_patchLoop _ rfl (by rw [List.length_replicate]; exact newSize_lt hread),
    List.length_replicate]

/-! ## The records of an image patch -/

/-- The sink that takes everything. -/
def acceptAll : SinkFn Unit := fun _ piece => (piece.length, ())

/-- The condition on a normal record; what follows it has to be in order whatever its status. -/
def NormalEnds (c : Codecs) (oldLen : Nat) (data : Bytes) (pos : Int) (rest : Int → Prop) : Prop :=
  (data.length : Int) < int32 (pos + 24) ∨
    ∀ h, normalHeader data pos = some h →
      BsEnds c oldLen (uint32 h.1) (int32 h.2.1) data (int32 h.2.2) (rest (pos + 24))
        (rest (pos + 24))

/-- The condition on a raw record. -/
def RawEnds (data : Bytes) (pos : Int) (rest : Int → Prop) : Prop :=
  (data.length : Int) < int32 (pos + 4) ∨
    ∀ dataLen, read4 data pos = some dataLen →
      ((data.length : Int) < int32 (pos + 4 + dataLen) ∨
        (0 ≤ dataLen → ∀ piece, slice data (pos + 4) dataLen.toNat = some piece →
          rest (pos + 4 + dataLen)))

/-- The condition on a deflate record. -/
def DeflateEnds (c : Codecs) (old data : Bytes) (pos : Int) (rest : Int → Prop) : Prop :=
  (data.length : Int) < int32 (pos + 60) ∨
    ∀ h, deflateHeader data pos = some h →
      c.malloc (uint32 h.expandedLen).toNat = true →
      SourceFits c old (uint32 h.srcStart) (uint32 h.srcLen) (uint32 h.expandedLen) →
        BsEnds c (uint32 h.expandedLen).toNat 0 (int32 (uint32 h.expandedLen)) data
          (int32 h.patchOffset) True (deflateReady c h = true ∧ rest (pos + 60))

/-- The condition on one record: `rest` is what has to hold of the position after it. -/
def RecordEnds (c : Codecs) (old data : Bytes) (pos : Int) (rest : Int → Prop) : Prop :=
  (data.length : Int) < int32 (pos + 4) ∨
    ∀ type, read4 data pos = some type →
      if type = chunkNormal then NormalEnds c old.length data (pos + 4) rest
      else if type = chunkRaw then RawEnds data (pos + 4) rest
      else if type = chunkDeflate then DeflateEnds c old data (pos + 4) rest
      else True

/-- The condition on the records from `pos` on. -/
def RecordsEnd (c : Codecs) (old data : Bytes) : Nat → Int → Prop
  | 0, _ => True
  | k + 1, pos => RecordEnds c old data pos (RecordsEnd c old data k)

/-- The condition on an image patch. -/
def ImageEnds (c : Codecs) (old data : Bytes) : Prop :=
  12 ≤ data.length → slice data 0 8 = some (cstr "IMGDIFF2") →
    ∀ numChunks, read4 data 8 = some numChunks → RecordsEnd c old data numChunks.toNat 12

section Records

variable {τ : Type} {c : Codecs} {old data : Bytes} {pos : Int} {rest : Int → Prop}

/-- More fuel does not change how `ApplyBSDiffPatch` ends. -/
theorem fueled_applyBSDiffPatch (sink : SinkFn τ) (start oldSize patchOffset : Int)
    (o : Output τ) :
    Fueled fun n => applyBSDiffPatch sink c n old start oldSize data patchOffset o := by
  intro n
  have hmem := fueled_applyBSDiffPatchMem c old start oldSize data patchOffset n
  simp only [applyBSDiffPatch]
  rcases hmem with h | h
  · exact .inl (by simp only [h])
  · exact .inr (by simp only [h])

/-- The caller goes on after an error as after a success. -/
theorem endsThen_applyBSDiffPatch {F q : Prop} (sink : SinkFn τ) {start oldSize patchOffset : Int}
    {o : Output τ} :
    EndsThen F (fun n => applyBSDiffPatch sink c n old start oldSize data patchOffset o)
        (fun _ => q) ↔
      BsEnds c old.length start oldSize data patchOffset q q := by
  rw [← endsThen_applyBSDiffPatchMem]
  refine exists_congr fun n => ?_
  simp only [applyBSDiffPatch]
  cases applyBSDiffPatchMem c n old start oldSize data patchOffset <;> exact Iff.rfl

/-- More fuel does not change how a `CHUNK_NORMAL` record ends. -/
theorem fueled_normalRecord (sink : SinkFn τ) (o : Output τ) :
    Fueled fun n => normalRecord sink c n old data pos o :=
  .ite (fueled_const _) <| .bind (fueled_const _) fun ⟨_, _, _⟩ =>
    .bind (fueled_applyBSDiffPatch sink _ _ _ o) fun ⟨_, _⟩ => fueled_const _

/-- A `CHUNK_NORMAL` record ends with every sink, or with none. -/
theorem endsThen_normalRecord (sink : SinkFn τ) {o : Output τ} :
    EndsThen True (fun n => normalRecord sink c n old data pos o) (fun p => rest p.1) ↔
      NormalEnds c old.length data pos rest := by
  unfold normalRecord NormalEnds
  rw [endsThen_ite, endsThen_const, endsIn_failed, ite_true_or]
  refine or_congr_right ?_
  rw [endsThen_const_bind fun ⟨_, _, _⟩ => .bind (fueled_applyBSDiffPatch sink _ _ _ o)
    fun ⟨_, _⟩ => fueled_const _, endsIn_ofAccess]
  refine forall_congr' fun ⟨srcStart, srcLen, patchOffset⟩ => imp_congr_right fun _ => ?_
  rw [endsThen_bind (fueled_applyBSDiffPatch sink _ _ _ o) fun ⟨_, _⟩ => fueled_const _]
  simp only [endsThen_const, endsIn_ok]
  exact endsThen_applyBSDiffPatch sink

/-- A `CHUNK_RAW` record has no loop of its own. -/
theorem endsIn_rawRecord {o : Output Unit} :
    EndsIn True (rawRecord acceptAll data pos o) (fun p => rest p.1) ↔ RawEnds data pos rest := by
  unfold rawRecord RawEnds
  split
  next hcut => simp [hcut]
  next hcut =>
    rw [or_iff_right hcut, endsIn_bind, endsIn_ofAccess]
    refine forall_congr' fun dataLen => imp_congr_right fun _ => ?_
    split
    next hover => simp [hover]
    next hover =>
      rw [or_iff_right hover]
      split
      next hneg => simp [Int.not_le.mpr hneg]
      next hpos =>
        rw [forall_prop_of_true (Int.not_lt.mp hpos), endsIn_bind, endsIn_ofAccess]
        refine forall_congr' fun piece => imp_congr_right fun hpiece => ?_
        have hlen : (piece.length : Int) = dataLen := by
          rw [slice_length hpiece]
          exact Int.toNat_of_nonneg (Int.not_lt.mp hpos)
        simp [acceptAll, hlen]

/-- Inflating the source ends; what comes after is reached if it fits. -/
theorem endsIn_inflateSource {start len expandedLen : Int} {Q : Bytes → Prop}
    {next : Prop} (hnext : ∀ out : Bytes, (out.length : Int) = expandedLen → (Q out ↔ next)) :
    EndsIn True (inflateSource c old start len expandedLen) Q ↔
      (SourceFits c old start len expandedLen → next) := by
  unfold inflateSource SourceFits
  rcases c.inflate ((old.drop start.toNat).take len.toNat) with ⟨out, fin⟩
  cases fin with
  | streamEnd =>
    by_cases hlen : (out.length : Int) = expandedLen
    · simp [hlen, hnext out hlen]
    · simp [hlen]
  | dataError => simp
  | starved =>
    simp only [reduceCtorEq, false_and, false_imp_iff, iff_true]
    split
    · trivial
    · trivial

/-- More fuel does not change how the loop around `deflate` ends. -/
theorem fueled_deflateLoop (sink : SinkFn τ) (ready : Bool) (tempSize : Nat) (out : Bytes)
    (o : Output τ) : Fueled fun n => deflateLoop sink ready tempSize n out o := by
  intro n
  induction n generalizing out o with
  | zero => exact .inl rfl
  | succ n ih => exact .ite (.refl _) (.ite (.refl _) (ih _ _))

/-- A stream that works ends with the block that is not full. -/
theorem endsThen_deflateLoop_ready {q : Prop} {tempSize : Nat} (hsize : 0 < tempSize) (out : Bytes)
    (o : Output Unit) :
    EndsThen True (fun n => deflateLoop acceptAll true tempSize n out o) (fun _ => q) ↔ q := by
  induction hlen : out.length using Nat.strong_induction_on generalizing out o with
  | _ len ih =>
    subst hlen
    rw [endsThen_succ (fueled_deflateLoop _ _ _ _ _)]
    by_cases hlast : out.length < tempSize
    · simp [deflateLoop, acceptAll, hlast]
    · have hblock : (out.take tempSize).length = tempSize :=
        List.length_take_of_le (Nat.not_lt.mp hlast)
      have hturn : ∀ n, deflateLoop acceptAll true tempSize (n + 1) out o =
          deflateLoop acceptAll true tempSize n (out.drop tempSize)
            ⟨(), o.ctx ++ out.take tempSize⟩ := by
        intro n
        simp [deflateLoop, acceptAll, hlast, hblock]
      simp only [hturn]
      exact ih _ (by rw [List.length_drop]; omega) _ _ rfl

/-- A stream that was not initialised gives no progress, and the loop never sees its end. -/
theorem deflateLoop_not_ready (tempSize n : Nat) (out : Bytes) (o : Output Unit) :
    deflateLoop acceptAll false tempSize n out o = .hang := by
  induction n generalizing out o with
  | zero => rfl
  | succ n ih => simp [deflateLoop, acceptAll, ih]

/-- The loop around `deflate` ends exactly if the stream was initialised. -/
theorem endsThen_deflateLoop {q : Prop} {tempSize : Nat} (hsize : 0 < tempSize) (ready : Bool)
    (out : Bytes) (o : Output Unit) :
    EndsThen True (fun n => deflateLoop acceptAll ready tempSize n out o) (fun _ => q) ↔
      ready = true ∧ q := by
  cases ready with
  | true => rw [endsThen_deflateLoop_ready hsize, and_iff_right rfl]
  | false => simp [EndsThen, deflateLoop_not_ready]

/-- The buffer of the loop is not empty. -/
theorem tempBuffer_pos (c : Codecs) (expandedLen : Int) : 0 < (tempBuffer c expandedLen).1 := by
  unfold tempBuffer
  split
  · exact Nat.zero_lt_succ _
  · change 0 < (int32 expandedLen).toNat
    omega

/-- More fuel does not change how the target of a `CHUNK_DEFLATE` record is made. -/
theorem fueled_deflateTarget (h : DeflateHeader) :
    Fueled fun n => deflateTarget c n old data h :=
  .ite (.bind (fueled_const _) fun _ => fueled_applyBSDiffPatchMem _ _ _ _ _ _) (fueled_const _)

/-- The target is made if the source is inflated and the patch in the record ends. -/
theorem endsThen_deflateTarget {h : DeflateHeader} {q : Prop} :
    EndsThen True (fun n => deflateTarget c n old data h) (fun _ => q) ↔
      (c.malloc (uint32 h.expandedLen).toNat = true →
        SourceFits c old (uint32 h.srcStart) (uint32 h.srcLen) (uint32 h.expandedLen) →
          BsEnds c (uint32 h.expandedLen).toNat 0 (int32 (uint32 h.expandedLen)) data
            (int32 h.patchOffset) True q) := by
  unfold deflateTarget
  rw [endsThen_ite, endsThen_const, endsIn_failed]
  split
  next hmem =>
    rw [forall_prop_of_true hmem,
      endsThen_const_bind fun _ => fueled_applyBSDiffPatchMem _ _ _ _ _ _]
    refine endsIn_inflateSource fun expanded hlen => ?_
    rw [endsThen_applyBSDiffPatchMem, ← hlen, Int.toNat_natCast]
  next hmem => simp [hmem]

/-- More fuel does not change how a `CHUNK_DEFLATE` record ends. -/
theorem fueled_deflateRecord (sink : SinkFn τ) (o : Output τ) :
    Fueled fun n => deflateRecord sink c n old data pos o :=
  .ite (fueled_const _) <| .bind (fueled_const _) fun h => .bind (fueled_deflateTarget h) fun _ =>
    .bind (fueled_deflateLoop _ _ _ _ _) fun _ => fueled_const _

/-- When a `CHUNK_DEFLATE` record ends, for a sink that takes everything. -/
theorem endsThen_deflateRecord {o : Output Unit} :
    EndsThen True (fun n => deflateRecord acceptAll c n old data pos o) (fun p => rest p.1) ↔
      DeflateEnds c old data pos rest := by
  unfold deflateRecord DeflateEnds
  rw [endsThen_ite, endsThen_const, endsIn_failed, ite_true_or]
  refine or_congr_right ?_
  rw [endsThen_const_bind fun h => .bind (fueled_deflateTarget h) fun _ =>
    .bind (fueled_deflateLoop _ _ _ _ _) fun o => fueled_const (.ok (pos + 60, o)),
    endsIn_ofAccess]
  refine forall_congr' fun h => imp_congr_right fun _ => ?_
  rw [← endsThen_deflateTarget, endsThen_bind (fueled_deflateTarget h) fun _ =>
    .bind (fueled_deflateLoop _ _ _ _ _) fun o => fueled_const (.ok (pos + 60, o))]
  refine iff_of_eq (congrArg _ (funext fun target => propext ?_))
  rw [endsThen_bind (fueled_deflateLoop _ _ _ _ _) fun o => fueled_const (.ok (pos + 60, o))]
  simp only [endsThen_const, endsIn_ok]
  exact endsThen_deflateLoop (tempBuffer_pos _ _) _ _ _

/-- More fuel does not change how a record ends. -/
theorem fueled_chunkRecord (sink : SinkFn τ) (pos : Int) (o : Output τ) :
    Fueled fun n => chunkRecord sink c n old data pos o :=
  .ite (fueled_const _) <| .bind (fueled_const _) fun _ => .ite (fueled_normalRecord sink o) <|
    .ite (fueled_const _) <| .ite (fueled_deflateRecord sink o) (fueled_const _)

/-- When a record of any type ends. -/
theorem endsThen_chunkRecord {o : Output Unit} :
    EndsThen True (fun n => chunkRecord acceptAll c n old data pos o) (fun p => rest p.1) ↔
      RecordEnds c old data pos rest := by
  unfold chunkRecord RecordEnds
  rw [endsThen_ite, endsThen_const, endsIn_failed, ite_true_or]
  refine or_congr_right ?_
  rw [endsThen_const_bind fun _ => .ite (fueled_normalRecord acceptAll o) <|
    .ite (fueled_const _) <| .ite (fueled_deflateRecord acceptAll o) (fueled_const _),
    endsIn_ofAccess]
  refine forall_congr' fun type => imp_congr_right fun _ => ?_
  simp only [endsThen_ite, endsThen_const, endsIn_failed, endsThen_normalRecord, endsIn_rawRecord,
    endsThen_deflateRecord]

/-- More fuel does not change how the loop over the records ends. -/
theorem fueled_chunkLoop (sink : SinkFn τ) (k : Nat) (pos : Int) (o : Output τ) :
    Fueled fun n => chunkLoop sink c n old data k pos o := by
  induction k generalizing pos o with
  | zero => exact fueled_const _
  | succ k ih => exact .bind (fueled_chunkRecord sink pos o) fun p => ih p.1 p.2

/-- The loop over the records. Induction on the number of records. -/
theorem endsThen_chunkLoop {k : Nat} {o : Output Unit} :
    EndsThen True (fun n => chunkLoop acceptAll c n old data k pos o) (fun _ => True) ↔
      RecordsEnd c old data k pos := by
  induction k generalizing pos o with
  | zero => simp [chunkLoop, RecordsEnd]
  | succ k ih =>
    simp only [chunkLoop]
    rw [endsThen_bind (fueled_chunkRecord acceptAll pos o) fun p =>
      fueled_chunkLoop acceptAll k p.1 p.2, RecordsEnd]
    simp only [ih]
    exact endsThen_chunkRecord

/-! A sink can end the run early and nothing else: with the same fuel, what ends with the sink that
takes everything ends with every sink. -/

/-- A sink that stops early keeps a record from nothing but going on. -/
theorem endsIn_normalRecord_of (sink : SinkFn τ) {n : Nat} {o : Output Unit} (o' : Output τ)
    (h : EndsIn True (normalRecord acceptAll c n old data pos o) fun p => rest p.1) :
    EndsIn True (normalRecord sink c n old data pos o') fun p => rest p.1 := by
  unfold normalRecord at h ⊢
  split
  next => trivial
  next hcut =>
    rw [if_neg hcut, endsIn_bind, endsIn_ofAccess] at h
    rw [endsIn_bind, endsIn_ofAccess]
    intro header hread
    have hrecord := h header hread
    simp only [endsIn_bind, endsIn_ok, applyBSDiffPatch] at hrecord ⊢
    generalize applyBSDiffPatchMem c n old (uint32 header.1) (int32 header.2.1) data
      (int32 header.2.2) = d at hrecord ⊢
    cases d with
    | ok new => exact hrecord
    | failed => exact hrecord
    | fault => trivial
    | hang => exact hrecord

/-- The same for a raw record. -/
theorem endsIn_rawRecord_of (sink : SinkFn τ) {o : Output Unit} (o' : Output τ)
    (h : EndsIn True (rawRecord acceptAll data pos o) fun p => rest p.1) :
    EndsIn True (rawRecord sink data pos o') fun p => rest p.1 := by
  rcases endsIn_rawRecord.mp h with hcut | hread
  · simp [rawRecord, hcut]
  · unfold rawRecord
    split
    next => trivial
    next =>
      rw [endsIn_bind, endsIn_ofAccess]
      intro dataLen hlen
      split
      next => trivial
      next hover =>
        split
        next => trivial
        next hpos =>
          rw [endsIn_bind, endsIn_ofAccess]
          intro piece hpiece
          have hrest := (hread dataLen hlen).resolve_left hover (Int.not_lt.mp hpos) piece hpiece
          simp only
          split
          · trivial
          · exact hrest

/-- The same for the loop around `deflate`. -/
theorem endsIn_deflateLoop_of (sink : SinkFn τ) {q : Prop} {ready : Bool} {tempSize n : Nat}
    {out : Bytes} {o : Output Unit} (o' : Output τ)
    (h : EndsIn True (deflateLoop acceptAll ready tempSize n out o) fun _ => q) :
    EndsIn True (deflateLoop sink ready tempSize n out o') fun _ => q := by
  induction n generalizing out o o' with
  | zero => exact h
  | succ n ih =>
    simp only [deflateLoop, acceptAll, ne_eq, not_true_eq_false, if_false] at h ⊢
    generalize (if ready = true then out.take tempSize else []) = block at h ⊢
    split
    next => trivial
    next =>
      split at h
      next hlast =>
        rw [if_pos hlast]
        exact h
      next hlast =>
        rw [if_neg hlast]
        exact ih _ h

/-- The same for a `CHUNK_DEFLATE` record. -/
theorem endsIn_deflateRecord_of (sink : SinkFn τ) {n : Nat} {o : Output Unit} (o' : Output τ)
    (h : EndsIn True (deflateRecord acceptAll c n old data pos o) fun p => rest p.1) :
    EndsIn True (deflateRecord sink c n old data pos o') fun p => rest p.1 := by
  unfold deflateRecord at h ⊢
  split
  next => trivial
  next hcut =>
    rw [if_neg hcut, endsIn_bind, endsIn_ofAccess] at h
    rw [endsIn_bind, endsIn_ofAccess]
    intro header hread
    have hrecord := h header hread
    rw [endsIn_bind] at hrecord ⊢
    refine hrecord.mono fun target htarget => ?_
    rw [endsIn_bind] at htarget ⊢
    exact endsIn_deflateLoop_of (q := rest (pos + 60)) sink o' htarget

/-- The same for a record of any type. -/
theorem endsIn_chunkRecord_of (sink : SinkFn τ) {n : Nat} {o : Output Unit} (o' : Output τ)
    (h : EndsIn True (chunkRecord acceptAll c n old data pos o) fun p => rest p.1) :
    EndsIn True (chunkRecord sink c n old data pos o') fun p => rest p.1 := by
  unfold chunkRecord at h ⊢
  split
  next => trivial
  next hcut =>
    rw [if_neg hcut, endsIn_bind, endsIn_ofAccess] at h
    rw [endsIn_bind, endsIn_ofAccess]
    intro type hread
    have hrecord := h type hread
    split_ifs at hrecord ⊢
    · exact endsIn_normalRecord_of sink o' hrecord
    · exact endsIn_rawRecord_of sink o' hrecord
    · exact endsIn_deflateRecord_of sink o' hrecord
    · trivial

/-- The same for the loop over the records. -/
theorem endsIn_chunkLoop_of (sink : SinkFn τ) {n k : Nat} {o : Output Unit} (o' : Output τ)
    (h : EndsIn True (chunkLoop acceptAll c n old data k pos o) fun _ => True) :
    EndsIn True (chunkLoop sink c n old data k pos o') fun _ => True := by
  induction k generalizing pos o o' with
  | zero => trivial
  | succ k ih =>
    rw [chunkLoop, endsIn_bind] at h ⊢
    -- the two runs go on from the same position
    let rest : Int → Prop := fun pos =>
      ∃ o, EndsIn True (chunkLoop acceptAll c n old data k pos o) fun _ => True
    have hrest : EndsIn True (chunkRecord acceptAll c n old data pos o) fun p => rest p.1 :=
      h.mono fun p hp => ⟨p.2, hp⟩
    refine (endsIn_chunkRecord_of sink o' hrest).mono ?_
    rintro p ⟨o, hp⟩
    exact ih p.2 hp

end Records

/-! ## Every patch -/

/-- An image patch ends with every sink exactly if `ImageEnds` holds of it. -/
theorem terminates_applyImagePatch (c : Codecs) (old data : Bytes) :
    (∀ (τ : Type) (sink : SinkFn τ) (o : Output τ),
        Terminates fun n => applyImagePatch sink c n old data o) ↔
      ImageEnds c old data := by
  unfold applyImagePatch ImageEnds
  by_cases hshort : data.length < 12
  · simp [hshort, Nat.not_le.mpr hshort, Terminates]
  · obtain ⟨numChunks, hnum⟩ : ∃ v, read4 data 8 = some v := by
      simp [read4, slice, Nat.not_lt.mp hshort]
    have hmagic : slice data 0 8 = some (data.take 8) := by
      simp [slice]
      omega
    simp only [hshort, if_false, Nat.not_lt.mp hshort, hmagic, Option.some.injEq, hnum,
      Decode.ofAccess_some, Decode.ok_bind, forall_const, forall_eq']
    by_cases heq : data.take 8 = cstr "IMGDIFF2"
    · simp only [heq, ne_eq, not_true_eq_false, if_false, forall_const]
      constructor
      · intro h
        exact endsThen_chunkLoop.mp ((terminates_iff _).mp (h Unit acceptAll ⟨(), []⟩))
      · intro h τ sink o
        obtain ⟨n, hn⟩ := (endsThen_chunkLoop (o := ⟨(), []⟩)).mpr h
        exact (terminates_iff _).mpr ⟨n, endsIn_chunkLoop_of sink o hn⟩
    · simp [heq, Terminates]

/-- The three functions on a source and a patch end, whatever the sink answers. -/
def PatchEnds (c : Codecs) (old data : Bytes) (patchOffset : Int) : Prop :=
  (∀ (τ : Type) (sink : SinkFn τ) (o : Output τ),
      Terminates fun n => applyImagePatch sink c n old data o) ∧
    (∀ (τ : Type) (sink : SinkFn τ) (o : Output τ),
      Terminates fun n => applyBSDiffPatch sink c n old 0 old.length data patchOffset o) ∧
    Terminates fun n => applyBSDiffPatchMem c n old 0 old.length data patchOffset

namespace Sample

/-- Libraries that know no compressed data: an empty input is the start of a bzip2 stream, and
everything else is not one. -/
def codecs : Codecs where
  bz input := if input = [] then ([], .starved) else ([], .dataError)
  inflate input := if input = [] then ([], .starved) else ([], .dataError)
  deflateInit _ := true
  deflate _ out := out
  malloc _ := true

/-- A bsdiff patch for one byte of new data, with nothing in its three streams. -/
def emptyStreams : Bytes :=
  cstr "BSDIFF40" ++ List.replicate 16 0 ++ [1, 0, 0, 0, 0, 0, 0, 0]

end Sample

end OpenRecovery.ApplyPatch.Loops
