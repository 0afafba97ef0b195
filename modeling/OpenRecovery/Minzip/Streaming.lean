import OpenRecovery.Minzip.Untrusted

/-!
# Streaming an entry

Whatever the process function is, it gets the content of the entry piece by piece, and no more after
it has answered `false` (`Delivered`). A good result of a deflated entry rests on a comparison of
`total_out` with the declared length in 32 bits (`stream_iff`).
-/

set_option autoImplicit false

namespace OpenRecovery.Minzip

open OpenRecovery.Storage
open OpenRecovery.ApplyPatch (Decode)

/-! ## The file offset and the checksum -/

/-- `lseek`, which fails for a negative offset. -/
def lseek (cur : Nat) (off : Int) : Nat := if 0 ≤ off then off.toNat else cur

section Calls

variable {σ κ : Type} (Z : Inflate σ) (fuel : Nat) (archive : Bytes) (cur : Nat) (e : ZipEntry)

/-- `mzProcessZipEntryContents` with the offset of the file after it; `left` is where the loops have
left it. -/
def mzProcessZipEntryContentsAt (process : ProcessFunction κ) (left : Nat) (c : κ) :
    Decode (Bool × κ × Nat) := do
  let oldOff := cur
  let (ret, c) ← mzProcessZipEntryContents process Z fuel archive cur e c
  .ok (ret, c, lseek left oldOff)

/-- `crcProcessFunction`. -/
def crcProcessFunction (crc32 : Nat → Bytes → Nat) : ProcessFunction Nat := fun data crc =>
  .ok (true, crc32 crc data)

/-- `mzIsZipEntryIntact`; `crc32` of nothing is 0. -/
def mzIsZipEntryIntact (crc32 : Nat → Bytes → Nat) : Decode Bool := do
  let (ret, crc) ← mzProcessZipEntryContents (crcProcessFunction crc32) Z fuel archive cur e 0
  .ok (ret && decide (crc = size e.crc32))

end Calls

/-! ## What is delivered -/

section Delivery

variable {κ : Type}

/-- A process function with a log of its calls: the piece and the answer. -/
def logged (f : Bytes → κ → Bool × κ) : ProcessFunction (κ × List (Bytes × Bool)) := fun b s =>
  .ok ((f b s.1).1, (f b s.1).2, s.2 ++ [(b, (f b s.1).1)])

/-- The pieces that a process function got. -/
def piecesOf (calls : List (Bytes × Bool)) : List Bytes := calls.map Prod.fst

/-- The pieces go to the function in their order, up to the first that it refuses. -/
theorem deliver_logged (f : Bytes → κ → Bool × κ) (pieces : List Bytes) (c : κ)
    (before : List (Bytes × Bool)) :
    ∃ ret c' calls, deliver (logged f) pieces (c, before) = .ok (ret, c', before ++ calls) ∧
      piecesOf calls <+: pieces ∧ (ret = true → piecesOf calls = pieces) ∧
        (∀ pre b post, calls = pre ++ (b, false) :: post → post = [] ∧ ret = false) ∧
          ((∀ b c, (f b c).1 = true) → ret = true) := by
  induction pieces generalizing c before with
  | nil =>
      refine ⟨true, c, [], by rw [deliver, List.append_nil], List.prefix_rfl, fun _ => rfl, ?_,
        fun _ => rfl⟩
      intro pre b post h
      exact absurd h (by simp)
  | cons b pieces ih =>
      rw [deliver, logged, Decode.ok_bind]
      cases hret : (f b c).1 with
      | false =>
          refine ⟨false, (f b c).2, [(b, false)], by simp, ?_, Bool.noConfusion, ?_,
            fun hf => absurd (hf b c) (by simp [hret])⟩
          · exact List.prefix_append [b] pieces
          · intro pre b' post h
            refine ⟨?_, rfl⟩
            cases pre with
            -- the refused piece is the only call
            | nil => exact (List.cons.inj h).2.symm
            | cons x pre => exact absurd (List.cons.inj h).2 (by simp)
      | true =>
          obtain ⟨ret, c', calls, hdeliver, hbegins, hall, hstop, htrue⟩ :=
            ih (f b c).2 (before ++ [(b, true)])
          refine ⟨ret, c', (b, true) :: calls, ?_, ?_, ?_, ?_, htrue⟩
          · rw [List.append_assoc] at hdeliver
            exact hdeliver
          · exact List.cons_prefix_cons.mpr ⟨rfl, hbegins⟩
          · intro h
            exact congrArg (b :: ·) (hall h)
          · intro pre b' post h
            cases pre with
            | nil => exact absurd (List.cons.inj h).1 (by simp)
            -- a refusal later on is one of the remaining calls
            | cons x pre => exact hstop pre b' post (List.cons.inj h).2

/-- A checksum is that of all pieces. -/
theorem deliver_crc {crc32 : Nat → Bytes → Nat}
    (hcrc : ∀ a b, crc32 (crc32 0 a) b = crc32 0 (a ++ b)) (pieces : List Bytes) (a : Bytes) :
    deliver (crcProcessFunction crc32) pieces (crc32 0 a) =
      .ok (true, crc32 0 (a ++ pieces.flatten)) := by
  induction pieces generalizing a with
  | nil => rw [deliver, List.flatten_nil, List.append_nil]
  | cons b pieces ih =>
      -- the checksum so far is that of `a`, and goes on to that of `a ++ b`
      rw [deliver, crcProcessFunction, Decode.ok_bind, hcrc, List.flatten_cons, ← List.append_assoc]
      exact ih (a ++ b)

end Delivery

/-! ## Entries -/

section Entries

variable {σ : Type} (Z : Inflate σ) (decode : Bytes → Bytes × Bool) (archive : Bytes)
  (cur : Nat) (e : ZipEntry)

/-- The decoded content of an entry, as far as it goes, and whether it is complete. -/
def entryContent : Bytes × Bool :=
  if e.compression = stored then
    ((entryData archive cur e).take (size e.compLen),
      decide (size e.compLen ≤ (entryData archive cur e).length))
  else if e.compression = deflated then decoded decode archive cur e
  else ([], false)

/-- The content is complete, and a deflated one has its declared length. -/
def IsWhole : Prop :=
  (entryContent decode archive cur e).2 = true ∧
    (e.compression = deflated →
      ((entryContent decode archive cur e).1.length : Int) = e.uncompLen)

/-- The calls of a process function: pieces that fit into a buffer, the content in its order, all of
it for a good result, and no call after one that answered `false`. -/
structure Delivered (ret : Bool) (calls : List (Bytes × Bool)) : Prop where
  chunks : ∀ b ∈ piecesOf calls, b ≠ [] ∧ b.length ≤ bufSize
  inOrder : (piecesOf calls).flatten <+: (entryContent decode archive cur e).1
  whole : ret = true → IsWhole decode archive cur e ∧
    (piecesOf calls).flatten = (entryContent decode archive cur e).1
  stops : ∀ pre b post, calls = pre ++ (b, false) :: post → post = [] ∧ ret = false

/-- Every process function gets the content once and in order, the file is left at its offset, and
an entry is intact exactly if its data is whole and its checksum is right. -/
def StreamsOnce : Prop :=
  ∃ bound, ∀ fuel, bound ≤ fuel →
    (∀ (κ : Type) (f : Bytes → κ → Bool × κ) (c : κ) (left : Nat), ∃ ret c' calls,
      mzProcessZipEntryContentsAt Z fuel archive cur e (logged f) left (c, []) =
        .ok (ret, (c', calls), cur) ∧ Delivered decode archive cur e ret calls) ∧
    ∀ crc32 : Nat → Bytes → Nat, crc32 0 [] = 0 →
      (∀ a b, crc32 (crc32 0 a) b = crc32 0 (a ++ b)) → ∃ intact,
        mzIsZipEntryIntact Z fuel archive cur e crc32 = .ok intact ∧
          (intact = true ↔ IsWhole decode archive cur e ∧
            crc32 0 (entryContent decode archive cur e).1 = size e.crc32)

/-- The decoded data has another length than declared, but `total_out` is the same number. -/
def Wraps : Prop :=
  e.compression = deflated ∧ (decoded decode archive cur e).2 = true ∧
    ((decoded decode archive cur e).1.length : Int) ≠ e.uncompLen ∧
      long (decoded decode archive cur e).1.length = e.uncompLen

variable {Z decode archive cur e}

theorem processed_isPrefix (out : Bytes) (fin : Bool) : processed out fin <+: out := by
  rw [processed]
  split
  · exact List.prefix_rfl
  · exact List.take_prefix _ _

theorem readable_prefix (file : Bytes) (n : Nat) : readable file n <+: file.take n := by
  rw [readable]
  split
  · exact List.prefix_rfl
  · rename_i h
    rw [List.take_of_length_le (Nat.le_of_not_le h)]
    exact List.take_prefix _ _

/-- Every entry whose data is in the archive is streamed: a part of the content, and a good result
if that is all of it. -/
theorem entry_streamed (hz : Streams Z decode) (archive : Bytes) (cur : Nat) {e : ZipEntry}
    (hcomp : 0 ≤ e.compLen) (huncomp : 0 ≤ e.uncompLen)
    (hinside : e.compLen.toNat ≤ (entryData archive cur e).length) :
    ∃ bound data result, (∀ fuel, bound ≤ fuel →
        StreamedAs Z archive cur e fuel data result false) ∧
      data <+: (entryContent decode archive cur e).1 ∧
      (result = true → data = (entryContent decode archive cur e).1) ∧
      (result = true ↔ (entryContent decode archive cur e).2 = true ∧
        (e.compression = deflated →
          long (entryContent decode archive cur e).1.length = e.uncompLen)) := by
  by_cases hstored : e.compression = stored
  · have hne : ¬ e.compression = deflated := fun h => deflated_ne_stored (h.symm.trans hstored)
    refine ⟨0, _, _, fun fuel _ => stored_streamed hstored fuel, ?_, ?_, ?_⟩
    · rw [entryContent, if_pos hstored]
      exact readable_prefix _ _
    · intro h
      rw [entryContent, if_pos hstored, readable, if_pos (of_decide_eq_true h)]
    · rw [entryContent, if_pos hstored]
      exact ⟨fun h => ⟨h, fun hd => absurd hd hne⟩, fun h => h.1⟩
  · by_cases hdeflated : e.compression = deflated
    · have hcontent : entryContent decode archive cur e = decoded decode archive cur e := by
        rw [entryContent, if_neg hstored, if_pos hdeflated]
      obtain ⟨bound, hstream⟩ := deflated_streamed archive cur hz hdeflated hcomp
      obtain ⟨hbegins, hall, hfin⟩ := inflated_spec archive cur e hz
      rw [bail_false huncomp, hfin hinside] at hstream
      rw [hfin hinside] at hall
      refine ⟨bound, _, _, hstream, ?_, ?_, ?_⟩
      · rw [hcontent]
        exact (processed_isPrefix _ _).trans hbegins
      · intro h
        rw [hcontent]
        cases hfin : (decoded decode archive cur e).2 with
        | true =>
            rw [hall hfin]
            rfl
        | false =>
            rw [hfin, if_neg Bool.false_ne_true, bail_false huncomp] at h
            cases h
      · rw [hcontent]
        cases hfin : (decoded decode archive cur e).2 with
        | true =>
            rw [if_pos rfl, decide_eq_true_eq, resultOf, hall hfin]
            exact ⟨fun h => ⟨rfl, fun _ => h⟩, fun h => h.2 hdeflated⟩
        | false =>
            rw [if_neg Bool.false_ne_true, bail_false huncomp]
            exact iff_of_false Bool.false_ne_true fun h => Bool.false_ne_true h.1
    · have hcontent : entryContent decode archive cur e = ([], false) := by
        rw [entryContent, if_neg hstored, if_neg hdeflated]
      refine ⟨0, [], false, ?_, ?_, Bool.noConfusion, ?_⟩
      · intro fuel _ κ process
        refine ⟨[], Pieces.nil, fun c => ?_⟩
        rw [mzProcessZipEntryContents, if_neg hstored, if_neg hdeflated, deliverThen_nil]
      · rw [hcontent]
      · rw [hcontent]
        exact iff_of_false Bool.false_ne_true fun h => Bool.false_ne_true h.1

theorem streamed_calls {fuel : Nat} {data : Bytes} {result : Bool}
    (h : StreamedAs Z archive cur e fuel data result false) {κ : Type} (f : Bytes → κ → Bool × κ)
    (c : κ) (left : Nat) : ∃ ret c' calls,
      mzProcessZipEntryContentsAt Z fuel archive cur e (logged f) left (c, []) =
        .ok (ret, (c', calls), cur) ∧
      (∀ b ∈ piecesOf calls, b ≠ [] ∧ b.length ≤ bufSize) ∧ (piecesOf calls).flatten <+: data ∧
        (ret = true → result = true ∧ (piecesOf calls).flatten = data) ∧
          (∀ pre b post, calls = pre ++ (b, false) :: post → post = [] ∧ ret = false) ∧
            ((∀ b c, (f b c).1 = true) → ret = result) := by
  obtain ⟨pieces, ⟨hpieces, rfl⟩, hrun⟩ := h _ (logged f)
  obtain ⟨ret, c', calls, hdeliver, ⟨rest, hbegins⟩, hall, hstop, htrue⟩ :=
    deliver_logged f pieces c []
  refine ⟨if ret then result else false, c', calls, ?_, ?_, ?_, ?_, ?_, ?_⟩
  · rw [mzProcessZipEntryContentsAt, hrun, deliverThen, hdeliver]
    simp only [Decode.ok_bind, List.nil_append, lseek, Int.natCast_nonneg, if_true, Int.toNat_natCast]
  · intro b hb
    apply hpieces
    rw [← hbegins]
    exact List.mem_append_left _ hb
  · rw [← hbegins, List.flatten_append]
    exact List.prefix_append _ _
  · intro hret
    cases ret with
    | true => exact ⟨hret, by rw [hall rfl]⟩
    | false => cases hret
  · intro pre b post hcalls
    obtain ⟨hpost, rfl⟩ := hstop pre b post hcalls
    exact ⟨hpost, rfl⟩
  · intro hf
    rw [htrue hf, if_pos rfl]

theorem streamed_intact {fuel : Nat} {data : Bytes} {result : Bool}
    (h : StreamedAs Z archive cur e fuel data result false) {crc32 : Nat → Bytes → Nat}
    (hnil : crc32 0 [] = 0) (hcrc : ∀ a b, crc32 (crc32 0 a) b = crc32 0 (a ++ b)) :
    mzIsZipEntryIntact Z fuel archive cur e crc32 =
      .ok (result && decide (crc32 0 data = size e.crc32)) := by
  obtain ⟨pieces, ⟨-, rfl⟩, hrun⟩ := h _ (crcProcessFunction crc32)
  have hdeliver := deliver_crc hcrc pieces []
  rw [hnil, List.nil_append] at hdeliver
  rw [mzIsZipEntryIntact, hrun, deliverThen, hdeliver]
  rfl

theorem content_of_deflated (hdeflated : e.compression = deflated) :
    entryContent decode archive cur e = decoded decode archive cur e := by
  rw [entryContent, if_neg (fun h => deflated_ne_stored (hdeflated.symm.trans h)), if_pos hdeflated]

/-- A process function that takes everything gets a good result for data of the wrong length. -/
theorem not_streamsOnce (hz : Streams Z decode) (archive : Bytes) (cur : Nat) {e : ZipEntry}
    (hcomp : 0 ≤ e.compLen) (huncomp : 0 ≤ e.uncompLen)
    (hinside : e.compLen.toNat ≤ (entryData archive cur e).length)
    (hwraps : Wraps decode archive cur e) : ¬ StreamsOnce Z decode archive cur e := by
  obtain ⟨bound, data, result, hstream, -, -, hresult⟩ :=
    entry_streamed hz archive cur hcomp huncomp hinside
  rintro ⟨bound', honce⟩
  obtain ⟨hdeflated, hfin, hne, hlong⟩ := hwraps
  have hcontent : entryContent decode archive cur e = decoded decode archive cur e :=
    content_of_deflated hdeflated
  -- the numbers agree, so the entry gets a good result
  have hgood : result = true := hresult.mpr (by rw [hcontent]; exact ⟨hfin, fun _ => hlong⟩)
  -- the function that takes everything
  obtain ⟨ret, c', calls, hrun, hdelivered⟩ := (honce (max bound bound') (Nat.le_max_right _ _)).1
    Unit (fun _ _ => (true, ())) () 0
  obtain ⟨ret', c'', calls', hrun', -, -, -, -, htrue⟩ :=
    streamed_calls (hstream _ (Nat.le_max_left bound bound')) (fun _ _ => (true, ())) () 0
  rw [hrun] at hrun'
  cases hrun'
  obtain ⟨⟨-, hlength⟩, -⟩ := hdelivered.whole ((htrue fun _ _ => rfl).trans hgood)
  rw [hcontent] at hlength
  exact hne (hlength hdeflated)

theorem long_long (n : Nat) (h : 0 ≤ long n) : long (long n).toNat = long n := by
  rw [long_nonneg_iff] at h
  rw [long_of_lt h, Int.toNat_natCast, long_of_lt (by omega), Nat.mod_mod]

/-- The data of an entry is in an accepted archive, if its offset and its length are not negative.
-/
theorem data_inside {iop : SafeIop} {map : MemMapping} {entries : List ZipEntry}
    (h : parseZipArchive iop map = .ok entries) {e : ZipEntry} (he : e ∈ entries)
    (hoffset : 0 ≤ e.offset) (hcomp : 0 ≤ e.compLen) (cur : Nat) :
    e.compLen.toNat ≤ (entryData map.bytes cur e).length := by
  obtain ⟨ptr, next, hentry⟩ := exists_record h he
  rw [parseEntry_eq] at hentry
  obtain ⟨head, -, hentry⟩ := Decode.ok_of_bind hentry
  obtain ⟨e', htail, hentry⟩ := Decode.ok_of_bind hentry
  cases hentry
  obtain ⟨compLen, -, hread, -, hcompLen, -, hlocal⟩ := parseTail_ok htail
  obtain ⟨nameLen, extra, -, -, hoff, -, hfits⟩ := parseLocal_ok hlocal
  have hlt : compLen < 2 ^ 32 := by
    obtain ⟨b, hb, rfl⟩ := Option.map_eq_some_iff.1 hread
    have hle : leNat b < 256 ^ b.length := leNat_lt
    rwa [slice_length hb] at hle
  rw [hcompLen, long_nonneg_iff] at hcomp
  rw [hcompLen, long_of_lt hcomp, Int.toNat_natCast, entryData, if_pos hoffset, List.length_drop]
  rw [hoff] at hoffset hfits ⊢
  rw [long_nonneg_iff] at hoffset
  rw [size_long] at hfits
  rw [long_of_lt hoffset, Int.toNat_natCast]
  omega

/-- Entries are streamed as they should be, except for a deflated one whose length wraps to the
declared one. -/
theorem stream_iff (hz : Streams Z decode) {iop : SafeIop} {map : MemMapping}
    {entries : List ZipEntry} (h : parseZipArchive iop map = .ok entries) {e : ZipEntry}
    (he : e ∈ entries) (hoffset : 0 ≤ e.offset) (hcomp : 0 ≤ e.compLen)
    (huncomp : 0 ≤ e.uncompLen) (cur : Nat) :
    StreamsOnce Z decode map.bytes cur e ↔ ¬ Wraps decode map.bytes cur e := by
  have hinside := data_inside h he hoffset hcomp cur
  constructor
  · exact fun honce hwraps => not_streamsOnce hz map.bytes cur hcomp huncomp hinside hwraps honce
  · intro hwraps
    obtain ⟨bound, data, result, hstream, hbegins, hdata, hresult⟩ :=
      entry_streamed hz map.bytes cur hcomp huncomp hinside
    have hwhole : result = true ↔ IsWhole decode map.bytes cur e := by
      rw [hresult, IsWhole]
      refine and_congr_right fun hfin => forall_congr' fun hdeflated => ?_
      rw [content_of_deflated hdeflated] at hfin ⊢
      constructor
      · intro hlong
        by_contra hne
        exact hwraps ⟨hdeflated, hfin, hne, hlong⟩
      · intro hlength
        obtain ⟨ptr, next, hentry⟩ := exists_record h he
        obtain ⟨n, hn⟩ := uncompLen_of_parseEntry hentry
        rw [hn] at huncomp hlength ⊢
        -- the declared length is in range, so equal lengths stay equal when they are cut to 32 bits
        rw [← long_long n huncomp, ← hlength, Int.toNat_natCast]
    refine ⟨bound, fun fuel hfuel => ⟨?_, ?_⟩⟩
    · intro κ f c left
      obtain ⟨ret, c', calls, hrun, hchunks, horder, hret, hstop, -⟩ :=
        streamed_calls (hstream fuel hfuel) f c left
      refine ⟨ret, c', calls, hrun, hchunks, horder.trans hbegins, ?_, hstop⟩
      intro htrue
      obtain ⟨hgood, hall⟩ := hret htrue
      exact ⟨hwhole.mp hgood, hall.trans (hdata hgood)⟩
    · intro crc32 hnil hcrc
      refine ⟨_, streamed_intact (hstream fuel hfuel) hnil hcrc, ?_⟩
      rw [Bool.and_eq_true, hwhole, decide_eq_true_eq]
      refine and_congr_right fun h => ?_
      rw [hdata (hwhole.mpr h)]

end Entries

namespace Sample

/-- A decoder for which any data stands for a run of zeros; the state is the rest of the run. The
input is consumed with the last zero. -/
def inflateRun (run : Nat) : Inflate Nat where
  init := some run
  call n chunk room :=
    if chunk = [] then ⟨n, 0, [], .error⟩
    else if n ≤ room then ⟨0, chunk.length, List.replicate n 0, .streamEnd⟩
    else ⟨n - room, 0, List.replicate room 0, .ok⟩

def decodeRun (run : Nat) : Bytes → Bytes × Bool := fun input =>
  if input = [] then ([], false) else (List.replicate run 0, true)

/-- The output to come. -/
def runRel (n : Nat) (input out : Bytes) (fin : Bool) : Prop :=
  if input = [] then out = [] ∧ fin = false else out = List.replicate n 0 ∧ fin = true

theorem inflateRun_streams (run : Nat) : Streams (inflateRun run) (decodeRun run) := by
  have hcall : ∀ {n : Nat} {rest out : Bytes} {fin : Bool} {chunk : Bytes},
      runRel n (chunk ++ rest) out fin → chunk ≠ [] → out = List.replicate n 0 ∧ fin = true := by
    intro n rest out fin chunk hrel hchunk
    rwa [runRel, if_neg (by simp [hchunk])] at hrel
  refine ⟨runRel, ⟨⟨run, rfl, ?_⟩, ?_, ?_, ?_⟩⟩
  · intro input
    rw [runRel, decodeRun]
    split
    · exact ⟨rfl, rfl⟩
    · exact ⟨rfl, rfl⟩
  · intro n rest out fin chunk room hrel hnil hroom hcode
    by_cases hchunk : chunk = []
    · simp [inflateRun, hchunk] at hcode
    · obtain ⟨rfl, rfl⟩ := hcall hrel hchunk
      by_cases hfits : n ≤ room
      · simp [inflateRun, hchunk, hfits] at hcode
      · have hrun : (inflateRun run).call n chunk room =
            ⟨n - room, 0, List.replicate room 0, .ok⟩ := by
          simp [inflateRun, hchunk, hfits]
        rw [hrun]
        refine ⟨Nat.zero_le _, by simp, by simpa using hroom, List.replicate (n - room) 0, ?_, ?_⟩
        · rw [← List.replicate_add]
          congr 1
          omega
        · rw [runRel, if_neg (by simp [hchunk])]
          exact ⟨rfl, rfl⟩
  · intro n rest out fin chunk room hrel hnil hroom hcode
    by_cases hchunk : chunk = []
    · simp [inflateRun, hchunk] at hcode
    · obtain ⟨rfl, rfl⟩ := hcall hrel hchunk
      by_cases hfits : n ≤ room
      · simp [inflateRun, hchunk, hfits]
      · simp [inflateRun, hchunk, hfits] at hcode
  · intro n rest out fin chunk room hrel hnil hroom hcode
    by_cases hchunk : chunk = []
    · obtain rfl := hnil hchunk
      rw [runRel, hchunk, List.append_nil, if_pos rfl] at hrel
      obtain ⟨rfl, rfl⟩ := hrel
      exact ⟨by simp [inflateRun, hchunk], Nat.zero_le _, rfl⟩
    · by_cases hfits : n ≤ room
      · simp [inflateRun, hchunk, hfits] at hcode
      · simp [inflateRun, hchunk, hfits] at hcode

/-- One byte that stands for `2 ^ 32` zeros, declared as nothing. -/
theorem run_wraps :
    parseZipArchive iop ⟨0x40000000, archive 8 1 0 [1]⟩ = .ok [entry deflated 1 0] ∧
      Streams (inflateRun (2 ^ 32)) (decodeRun (2 ^ 32)) ∧
        ¬ StreamsOnce (inflateRun (2 ^ 32)) (decodeRun (2 ^ 32)) (archive 8 1 0 [1]) 0
          (entry deflated 1 0) := by
  have haccepted : parseZipArchive iop ⟨0x40000000, archive 8 1 0 [1]⟩ =
      .ok [entry deflated 1 0] := by
    decide +kernel
  have hdecoded : decoded (decodeRun (2 ^ 32)) (archive 8 1 0 [1]) 0 (entry deflated 1 0) =
      (List.replicate (2 ^ 32) 0, true) := by
    rw [decoded, decodeRun, if_neg (by decide +kernel)]
  refine ⟨haccepted, inflateRun_streams _, not_streamsOnce (inflateRun_streams _) _ 0 (by decide)
    (by decide) (by decide +kernel) ⟨rfl, ?_, ?_, ?_⟩⟩
  · rw [hdecoded]
  · rw [hdecoded, List.length_replicate]
    decide
  · rw [hdecoded, List.length_replicate]
    decide

/-- The letter `a`, deflated. -/
theorem word_streams :
    StreamsOnce inflateWord decodeWord (archive 8 3 1 word) 0 (entry deflated 3 1) := by
  have haccepted : parseZipArchive iop ⟨0x40000000, archive 8 3 1 word⟩ =
      .ok [entry deflated 3 1] := by
    decide +kernel
  refine (stream_iff inflateWord_streams haccepted (List.mem_singleton_self _) (by decide)
    (by decide) (by decide) 0).mpr ?_
  unfold Wraps
  decide +kernel

end Sample

end OpenRecovery.Minzip
