import OpenRecovery.ImgDiff.Tiling

/-!
# Breaking an image apart

`ReadImage` of `applypatch/imgdiff.c`: it looks for gzip members in an image and makes three chunks
of each, and a normal chunk of everything between. The loop takes fuel, and `hang` says that it has
run out; `failed` is the null result. An access outside a buffer is a `fault`.

`Walk` is the way the loop takes through the image, from one gzip member to the next. `Stuck` says
where it makes no progress, and `readImage_ends_iff` that nothing else keeps it from ending.
`readImage_covers_iff` says when the chunks tile the image.
-/

set_option autoImplicit false

namespace OpenRecovery.ImgDiff

open OpenRecovery.ApplyPatch OpenRecovery.Storage

/-! ## The function -/

/-- `1f8b0800`: a gzip header with deflate compression and no flags. -/
def gzipMagic : Bytes := [0x1f, 0x8b, 0x08, 0x00]

/-- `GZIP_HEADER_LEN`. -/
def gzipHeaderLen : Nat := 10

/-- `GZIP_FOOTER_LEN`. -/
def gzipFooterLen : Nat := 8

/-- The image with four zero bytes behind it. -/
def padded (img : Bytes) : Bytes := img ++ [0, 0, 0, 0]

/-- The four bytes stand at the position, with the bytes behind the image. -/
def magicAt (img : Bytes) (pos : Nat) : Bool := ((padded img).drop pos).take 4 = gzipMagic

/-- The test for a gzip chunk. -/
def startsGzip (img : Bytes) (pos : Nat) : Bool := img.length - pos ≥ 4 && magicAt img pos

/-- The loop over `inflate`, for a stream that inflates to `d`: the data that was received, and
`curr->len`, which is computed from what is left of `avail_out`. `late` says whether a call that has
filled the buffer to the last byte leaves the end of the stream to the next call. -/
def inflateLoop (sizeBits : Nat) (late : Nat → Bool) (d : Bytes) :
    Nat → Nat → Nat → Bytes → Decode (Bytes × Nat)
  | 0, _, _, _ => .hang
  | fuel + 1, allocated, len, data =>
      -- `avail_out` is an `unsigned int`
      let room := (allocated - len) % 2 ^ 32
      let piece := (d.drop data.length).take room
      let data := data ++ piece
      let availOut := room - piece.length
      let len := allocated - availOut
      let filled := availOut = 0 ∧ 0 < piece.length
      -- `allocated` becomes 0, and `realloc` frees what has been received
      if filled ∧ 2 ^ sizeBits ≤ allocated * 2 then .fault
      else if data.length = d.length ∧ ¬ (filled ∧ late allocated = true) then .ok (data, len)
      else inflateLoop sizeBits late d fuel (if availOut = 0 then allocated * 2 else allocated) len data

/-- The stream at `p` and its footer: the data, `curr->len`, `deflate_len`, and the number in the
last four bytes of the footer. `avail_in` is an `unsigned int`. The loop never ends without a
complete stream. -/
def inflateMember (L : Libs) (late : Nat → Bool) (img : Bytes) (p : Nat) :
    Decode (Bytes × Nat × Nat × Int) :=
  -- behind the image `avail_in` wraps around, and `inflate` reads outside of the buffer
  if img.length < p then .fault
  else
    let availIn := (img.length - p) % 2 ^ 32
    match L.inflate ((img.drop p).take availIn) with
    | none => .hang
    | some (d, n) => do
        let (data, len) ← inflateLoop L.sizeBits late d (d.length + 2) 32768 0 []
        let deflateLen := img.length - (availIn - n) - p
        let footer ← .ofAccess (read4 (padded img) (p + deflateLen + gzipFooterLen - 4 : Nat))
        return (data, len, deflateLen, footer)

/-- A normal chunk. -/
def normalChunk (unset : ImageChunk) (pos len : Nat) : ImageChunk :=
  { unset with type := .normal, start := pos, len := len, data := .file pos, I := none }

/-- A deflate chunk with its inflated data. -/
def deflateChunk (unset : ImageChunk) (pos deflateLen len : Nat) (data : Bytes) : ImageChunk :=
  { unset with
    type := .deflate, start := pos, len := len, data := .buffer data, I := none
    deflateLen := deflateLen, deflateData := pos, filename := none }

/-- The number of bytes up to the next gzip header, or to the end of the image. -/
def scanLen (img : Bytes) : Nat → Nat → Nat
  | 0, _ => 0
  | n + 1, pos => if magicAt img pos then 0 else scanLen img n (pos + 1) + 1

section Read

variable (L : Libs) (late : Nat → Bool) (unset : Nat → ImageChunk) (img : Bytes)

/-- One pass of the loop: the new chunks, of which the first has number `i`, and the position after
them. -/
def readPass (pos i : Nat) : Decode (List ImageChunk × Nat) :=
  if startsGzip img pos then do
    let p := pos + gzipHeaderLen
    let (data, len, deflateLen, footer) ← inflateMember L late img p
    if footer % 2 ^ L.sizeBits ≠ len then .failed
    else
      let q := p + deflateLen
      return ([normalChunk (unset i) pos gzipHeaderLen,
        deflateChunk (unset (i + 1)) p deflateLen len data,
        normalChunk (unset (i + 2)) q gzipFooterLen], q + gzipFooterLen)
  else
    let len := scanLen img (img.length - pos) pos
    return ([normalChunk (unset i) pos len], pos + len)

/-- The loop of `ReadImage`. -/
def readLoop : Nat → Nat → Nat → Decode (List ImageChunk)
  | 0, _, _ => .hang
  | fuel + 1, pos, i =>
      if pos < img.length then do
        let (cs, pos) ← readPass L late unset img pos i
        let rest ← readLoop fuel pos (i + cs.length)
        return cs ++ rest
      else return []

/-- `ReadImage`, once the file has been read. -/
def readImage (fuel : Nat) : Decode (List ImageChunk) := readLoop L late unset img fuel 0 0

/-- The call returns. -/
def ReadImageEnds : Prop :=
  ∃ fuel, readImage L late unset img fuel = .failed ∨
    ∃ cs, readImage L late unset img fuel = .ok cs

end Read

/-! ## The way through the image -/

section Way

variable (L : Libs) (img : Bytes)

/-- There is room for the data: `avail_out` can hold the size of every buffer that is filled, and
`size_t` that of the next one. -/
def Roomy (d : Bytes) : Prop := d.length ≤ 2 ^ 32 ∧ d.length < 2 ^ (L.sizeBits - 1)

/-- The stream and the footer behind a gzip header at `pos`: the inflated data, the length of the
deflate chunk and the number in the footer. -/
structure IsMember (pos : Nat) (d : Bytes) (k : Nat) (v : Int) : Prop where
  header : pos + gzipHeaderLen ≤ img.length
  stream : ∃ n, L.inflate ((img.drop (pos + gzipHeaderLen)).take
      ((img.length - (pos + gzipHeaderLen)) % 2 ^ 32)) = some (d, n) ∧
    k = img.length - ((img.length - (pos + gzipHeaderLen)) % 2 ^ 32 - n) - (pos + gzipHeaderLen)
  room : Roomy L d
  footer : read4 (padded img) (pos + gzipHeaderLen + k + gzipFooterLen - 4 : Nat) = some v

/-- A pass that succeeds. -/
inductive Next : Nat → Nat → Prop
  | member {pos k : Nat} {d : Bytes} {v : Int} (inside : pos < img.length)
      (magic : startsGzip img pos = true) (member : IsMember L img pos d k v)
      (size : v % 2 ^ L.sizeBits = d.length) :
      Next pos (pos + gzipHeaderLen + k + gzipFooterLen)
  | scan {pos : Nat} (inside : pos < img.length) (magic : startsGzip img pos = false) :
      Next pos (pos + scanLen img (img.length - pos) pos)

/-- The positions the loop comes to. -/
def Walk (pos pos' : Nat) : Prop := Relation.ReflTransGen (Next L img) pos pos'

/-- The last three bytes are the beginning of the magic number. -/
def TailAt (pos : Nat) : Prop := pos + 3 = img.length ∧ img.drop pos = [0x1f, 0x8b, 0x08]

/-- Positions from which the loop does not go on: the last three bytes are taken for a gzip header
by the scan and not by the test for a gzip chunk; or the stream behind a header does not end in the
input that `inflate` is given, there is no room for its data, or its footer is not in the buffer. -/
def Stuck (pos : Nat) : Prop :=
  TailAt img pos ∨ startsGzip img pos = true ∧ ¬ ∃ d k v, IsMember L img pos d k v

/-- Every gzip header in the image belongs to a member that is in the image: a header, a deflate
stream and a footer. -/
def CompleteMembers : Prop :=
  ∀ pos, startsGzip img pos = true → ∃ d n, L.inflate (img.drop (pos + gzipHeaderLen)) = some (d, n) ∧
    pos + gzipHeaderLen + n + gzipFooterLen ≤ img.length

/-- There is room for the data of every gzip member. -/
def RoomyMembers : Prop :=
  ∀ pos d n, startsGzip img pos = true → L.inflate (img.drop (pos + gzipHeaderLen)) = some (d, n) →
    Roomy L d

end Way

/-! ## One pass -/

section Pass

variable {L : Libs} {late : Nat → Bool} {unset : Nat → ImageChunk} {img : Bytes}

/-- A call that does not fill the buffer has received the rest. -/
theorem inflateLoop_rest {w fuel allocated : Nat} {d data : Bytes} (hdata : data = d.take data.length)
    (hlt : d.length < allocated) (hle : data.length ≤ d.length)
    (hroom : allocated - data.length < 2 ^ 32) :
    inflateLoop w late d (fuel + 1) allocated data.length data = .ok (d, d.length) := by
  have hrest : (d.drop data.length).take ((allocated - data.length) % 2 ^ 32) =
      d.drop data.length := by
    rw [Nat.mod_eq_of_lt hroom, List.take_of_length_le (by rw [List.length_drop]; omega)]
  have hall : data ++ d.drop data.length = d := by
    conv_lhs => rw [hdata]
    rw [List.length_take, Nat.min_eq_left hle, List.take_append_drop]
  have hleft : (allocated - data.length) % 2 ^ 32 - (d.length - data.length) = allocated - d.length := by
    rw [Nat.mod_eq_of_lt hroom]
    omega
  have hnot : ¬ (allocated - d.length = 0 ∧ 0 < d.length - data.length) := by omega
  simp only [inflateLoop, hrest, hall, List.length_drop, hleft]
  rw [if_neg fun h => hnot h.1, if_pos ⟨trivial, fun h => hnot h.1⟩]
  congr 2
  omega

/-- A call that fills the buffer. -/
theorem inflateLoop_filled {w fuel allocated : Nat} {d data : Bytes}
    (hdata : data = d.take data.length) (hle : allocated ≤ d.length) (hlt : data.length < allocated)
    (hroom : allocated - data.length < 2 ^ 32) :
    inflateLoop w late d (fuel + 1) allocated data.length data =
      if 2 ^ w ≤ allocated * 2 then .fault
      else if allocated = d.length ∧ late allocated = false then .ok (d, d.length)
      else inflateLoop w late d fuel (allocated * 2) (d.take allocated).length (d.take allocated) := by
  have hpiece : data ++ (d.drop data.length).take (allocated - data.length) = d.take allocated := by
    conv_lhs => enter [1]; rw [hdata]
    rw [← List.take_add]
    congr 1
    omega
  have hlen : ((d.drop data.length).take (allocated - data.length)).length =
      allocated - data.length := by
    rw [List.length_take, List.length_drop]
    omega
  have htake : (d.take allocated).length = allocated := List.length_take_of_le hle
  simp only [inflateLoop, Nat.mod_eq_of_lt hroom, hpiece, hlen, htake, Nat.sub_self, Nat.sub_zero,
    if_true, true_and]
  have hpos : 0 < allocated - data.length := by omega
  simp only [hpos, true_and]
  split
  next => rfl
  next =>
    by_cases hend : allocated = d.length ∧ late allocated = false
    · obtain ⟨rfl, hearly⟩ := hend
      rw [if_pos ⟨rfl, by rw [hearly]; decide⟩, if_pos ⟨rfl, hearly⟩, List.take_length]
    · rw [if_neg hend, if_neg fun h => hend ⟨h.1, Bool.eq_false_of_not_eq_true h.2⟩]

/-- A call without room makes no progress. -/
theorem inflateLoop_dry {w fuel allocated len : Nat} {d data : Bytes}
    (hdry : (allocated - len) % 2 ^ 32 = 0) :
    inflateLoop w late d (fuel + 1) allocated len data =
      if data.length = d.length then .ok (data, allocated)
      else inflateLoop w late d fuel (allocated * 2) allocated data := by
  simp only [inflateLoop, hdry, List.take_zero, List.append_nil, List.length_nil, Nat.sub_zero,
    Nat.lt_irrefl, and_false, false_and, if_false, not_false_eq_true, and_true, if_true]

/-- Once the room is a multiple of 2³², it stays one. -/
theorem inflateLoop_stays_dry {w : Nat} {d data : Bytes} (hmore : data.length ≠ d.length)
    (fuel k : Nat) :
    inflateLoop w late d fuel (2 ^ (k + 33)) (2 ^ (k + 32)) data = .hang := by
  induction fuel generalizing k with
  | zero => rfl
  | succ fuel ih =>
      have hdry : (2 ^ (k + 33) - 2 ^ (k + 32)) % 2 ^ 32 = 0 := by
        have hdouble : 2 ^ (k + 33) - 2 ^ (k + 32) = 2 ^ k * 2 ^ 32 := by
          rw [pow_succ 2 (k + 32), pow_add]
          omega
        rw [hdouble, Nat.mul_mod_left]
      rw [inflateLoop_dry hdry, if_neg hmore, ← pow_succ]
      exact ih (k + 1)

/-- From a buffer of `2 ^ k` bytes on: the loop receives all data exactly if there is room. Only an
end that comes 2³² bytes after the start and late makes `curr->len` another number. -/
theorem inflateLoop_from {d : Bytes} (data : Bytes) (n k fuel : Nat) (hn : k + n = 32)
    (hk : k < L.sizeBits) (hdata : data = d.take data.length) (hle : data.length ≤ d.length) (hlt : data.length < 2 ^ k)
    (hroom : 2 ^ k - data.length < 2 ^ 32) (hfuel : d.length - data.length + 2 ≤ fuel) :
    (Roomy L d ∧ ∃ len, inflateLoop L.sizeBits late d fuel (2 ^ k) data.length data = .ok (d, len) ∧
      (len = d.length ∨ d.length = 2 ^ 32 ∧ len = 2 ^ 33)) ∨
    (¬ Roomy L d ∧ (inflateLoop L.sizeBits late d fuel (2 ^ k) data.length data = .fault ∨
      inflateLoop L.sizeBits late d fuel (2 ^ k) data.length data = .hang)) := by
  have hsize : 2 ^ k ≤ 2 ^ (L.sizeBits - 1) := Nat.pow_le_pow_right (by decide) (by omega)
  have hmost : 2 ^ k ≤ 2 ^ 32 := Nat.pow_le_pow_right (by decide) (by omega)
  obtain ⟨fuel, rfl⟩ : ∃ m, fuel = m + 1 := ⟨fuel - 1, by omega⟩
  by_cases hrest : d.length < 2 ^ k
  · refine .inl ⟨⟨by omega, by omega⟩, d.length, ?_, .inl rfl⟩
    exact inflateLoop_rest hdata hrest hle hroom
  have hfull : 2 ^ k ≤ d.length := Nat.not_lt.1 hrest
  have hlen : (d.take (2 ^ k)).length = 2 ^ k := List.length_take_of_le hfull
  rw [inflateLoop_filled hdata hfull hlt hroom, ← pow_succ]
  by_cases hlost : 2 ^ L.sizeBits ≤ 2 ^ (k + 1)
  · -- the last buffer that `size_t` can count
    have hlast : 2 ^ (L.sizeBits - 1) ≤ 2 ^ k := by
      have := (Nat.pow_le_pow_iff_right (a := 2) (by decide)).1 hlost
      exact Nat.pow_le_pow_right (by decide) (by omega)
    rw [if_pos hlost]
    refine .inr ⟨fun hroomy => ?_, .inl rfl⟩
    have := hroomy.2
    omega
  have hwide : k + 1 < L.sizeBits := by
    by_contra hnot
    exact hlost (Nat.pow_le_pow_right (by decide) (by omega))
  have hhalf : 2 ^ k < 2 ^ (L.sizeBits - 1) := Nat.pow_lt_pow_right (by decide) (by omega)
  rw [if_neg hlost]
  by_cases hend : 2 ^ k = d.length ∧ late (2 ^ k) = false
  · rw [if_pos hend]
    exact .inl ⟨⟨by omega, by omega⟩, d.length, rfl, .inl rfl⟩
  rw [if_neg hend]
  cases n with
  | zero =>
      -- a buffer of 2³³ bytes has room for 2³² more, which is none
      obtain rfl : k = 32 := by omega
      obtain ⟨fuel, rfl⟩ : ∃ m, fuel = m + 1 := ⟨fuel - 1, by omega⟩
      rw [hlen]
      by_cases hall : 2 ^ 32 = d.length
      · rw [inflateLoop_dry (by decide), if_pos (hlen.trans hall), List.take_of_length_le (by omega)]
        exact .inl ⟨⟨by omega, by omega⟩, 2 ^ 33, rfl, .inr ⟨hall.symm, rfl⟩⟩
      · refine .inr ⟨fun hroomy => ?_, .inr (inflateLoop_stays_dry (by rwa [hlen]) (fuel + 1) 0)⟩
        have := hroomy.1
        omega
  | succ n =>
      have htwice : 2 ^ (k + 1) = 2 ^ k * 2 := pow_succ 2 k
      have hbelow : 2 ^ (k + 1) ≤ 2 ^ 32 := Nat.pow_le_pow_right (by decide) (by omega)
      have hpos : 0 < 2 ^ k := Nat.two_pow_pos k
      refine inflateLoop_from _ n (k + 1) fuel (by omega) hwide ?_ ?_ ?_ ?_ ?_
      · rw [hlen]
      · rw [hlen]
        exact hfull
      · rw [hlen]
        omega
      · rw [hlen]
        omega
      · rw [hlen]
        omega

/-- The whole loop. -/
theorem inflateLoop_spec (L : Libs) (late : Nat → Bool) (d : Bytes) :
    (Roomy L d ∧ ∃ len, inflateLoop L.sizeBits late d (d.length + 2) 32768 0 [] = .ok (d, len) ∧
      (len = d.length ∨ d.length = 2 ^ 32 ∧ len = 2 ^ 33)) ∨
    (¬ Roomy L d ∧ (inflateLoop L.sizeBits late d (d.length + 2) 32768 0 [] = .fault ∨
      inflateLoop L.sizeBits late d (d.length + 2) 32768 0 [] = .hang)) :=
  inflateLoop_from [] 17 15 (d.length + 2) rfl (by have := L.wide; omega) rfl
    (Nat.zero_le _) (by decide) (by decide) (Nat.le_refl _)

theorem read4_range {p : Bytes} {pos v : Int} (h : read4 p pos = some v) :
    -2 ^ 31 ≤ v ∧ v < 2 ^ 31 := by
  obtain ⟨b, hb, rfl⟩ := Option.map_eq_some_iff.1 h
  have hlt : leNat b < 256 ^ b.length := leNat_lt
  rw [slice_length hb] at hlt
  rw [signed]
  split <;> omega

/-- A footer does not hold a number that only `curr->len` can be. -/
theorem footer_len_iff {p : Bytes} {pos v : Int} {n len : Nat} (hv : read4 p pos = some v)
    (hroom : n < 2 ^ (L.sizeBits - 1)) (hlen : len = n ∨ n = 2 ^ 32 ∧ len = 2 ^ 33) :
    v % 2 ^ L.sizeBits = (len : Int) ↔ v % 2 ^ L.sizeBits = (n : Int) := by
  rcases hlen with rfl | ⟨rfl, rfl⟩
  · exact Iff.rfl
  · obtain ⟨hlo, hhi⟩ := read4_range hv
    have hwidth : 32 < L.sizeBits - 1 := (Nat.pow_lt_pow_iff_right (by decide)).1 hroom
    have hsize : (2 : Int) ^ 34 ≤ 2 ^ L.sizeBits := by
      exact_mod_cast Nat.pow_le_pow_right (by decide) (show 34 ≤ L.sizeBits by omega)
    have hfar : v % 2 ^ L.sizeBits < 2 ^ 31 ∨ 2 ^ 34 - 2 ^ 31 ≤ v % 2 ^ L.sizeBits := by
      rcases lt_or_ge v 0 with hneg | hpos
      · right
        rw [← Int.add_emod_right, Int.emod_eq_of_lt (by omega) (by omega)]
        omega
      · left
        rw [Int.emod_eq_of_lt hpos (by omega)]
        exact hhi
    refine iff_of_false ?_ ?_
    · norm_num at hfar ⊢
      omega
    · norm_num at hfar ⊢
      omega

/-- The stream and its footer, without the loop. -/
theorem inflateMember_cases (late : Nat → Bool) (img : Bytes) (p : Nat) :
    (∃ (d : Bytes) (n len : Nat) (v : Int), p ≤ img.length ∧
      L.inflate ((img.drop p).take ((img.length - p) % 2 ^ 32)) = some (d, n) ∧ Roomy L d ∧
      read4 (padded img) (p + (img.length - ((img.length - p) % 2 ^ 32 - n) - p) +
        gzipFooterLen - 4 : Nat) = some v ∧
      (v % 2 ^ L.sizeBits = (len : Int) ↔ v % 2 ^ L.sizeBits = (d.length : Int)) ∧
      inflateMember L late img p =
        .ok (d, len, img.length - ((img.length - p) % 2 ^ 32 - n) - p, v)) ∨
    (¬ ∃ d n v, p ≤ img.length ∧
      L.inflate ((img.drop p).take ((img.length - p) % 2 ^ 32)) = some (d, n) ∧ Roomy L d ∧
      read4 (padded img) (p + (img.length - ((img.length - p) % 2 ^ 32 - n) - p) +
        gzipFooterLen - 4 : Nat) = some v) ∧
      (inflateMember L late img p = .fault ∨ inflateMember L late img p = .hang) := by
  unfold inflateMember
  by_cases hin : img.length < p
  · rw [if_pos hin]
    refine .inr ⟨?_, .inl rfl⟩
    rintro ⟨d, n, v, hle, -⟩
    omega
  rw [if_neg hin]
  cases hinflate : L.inflate ((img.drop p).take ((img.length - p) % 2 ^ 32)) with
  | none =>
      refine .inr ⟨?_, .inr (by simp only [hinflate])⟩
      rintro ⟨d, n, v, -, hsome, -⟩
      cases hsome
  | some dn =>
      obtain ⟨d, n⟩ := dn
      simp only [hinflate]
      rcases inflateLoop_spec L late d with ⟨hroomy, len, hloop, hlen⟩ | ⟨hcramped, hloop⟩
      · simp only [hloop, Decode.ok_bind]
        cases hread : read4 (padded img) (p + (img.length - ((img.length - p) % 2 ^ 32 - n) - p) +
            gzipFooterLen - 4 : Nat) with
        | none =>
            refine .inr ⟨?_, .inl rfl⟩
            rintro ⟨d', n', v, -, hsome, -, hfooter⟩
            cases hsome
            cases hread.symm.trans hfooter
        | some v =>
            exact .inl ⟨d, n, len, v, Nat.not_lt.1 hin, rfl, hroomy, hread,
              footer_len_iff hread hroomy.2 hlen, rfl⟩
      · refine .inr ⟨?_, ?_⟩
        · rintro ⟨d', n', v, -, hsome, hroomy, -⟩
          cases hsome
          exact hcramped hroomy
        · rcases hloop with hloop | hloop
          · exact .inl (by rw [hloop]; rfl)
          · exact .inr (by rw [hloop]; rfl)

theorem inflateMember_ok {pos k : Nat} {d : Bytes} {v : Int} :
    (∃ len, inflateMember L late img (pos + gzipHeaderLen) = .ok (d, len, k, v)) ↔
      IsMember L img pos d k v := by
  rcases inflateMember_cases (L := L) late img (pos + gzipHeaderLen) with
    ⟨d', n', len', v', hle, hinflate, hroomy, hread, -, heq⟩ | ⟨hnone, hlost⟩
  · constructor
    · rintro ⟨len, h⟩
      cases heq.symm.trans h
      exact ⟨hle, ⟨n', hinflate, rfl⟩, hroomy, hread⟩
    · rintro ⟨-, ⟨n, hinflate', rfl⟩, -, hread'⟩
      cases hinflate.symm.trans hinflate'
      cases hread.symm.trans hread'
      exact ⟨len', heq⟩
  · refine iff_of_false ?_ ?_
    · rintro ⟨len, h⟩
      rcases hlost with hlost | hlost <;> cases hlost.symm.trans h
    · rintro ⟨hle, ⟨n, hinflate, rfl⟩, hroomy, hread⟩
      exact hnone ⟨d, n, v, hle, hinflate, hroomy, hread⟩

/-- The test of the footer is one of the data that was received. -/
theorem inflateMember_len {p k len : Nat} {d : Bytes} {v : Int}
    (h : inflateMember L late img p = .ok (d, len, k, v)) :
    v % 2 ^ L.sizeBits = (len : Int) ↔ v % 2 ^ L.sizeBits = (d.length : Int) := by
  rcases inflateMember_cases (L := L) late img p with
    ⟨d', n', len', v', -, -, -, -, hlen, heq⟩ | ⟨-, hlost | hlost⟩
  · cases heq.symm.trans h
    exact hlen
  · cases hlost.symm.trans h
  · cases hlost.symm.trans h

/-- Without a member the pass neither succeeds nor fails. -/
theorem inflateMember_ne_failed (p : Nat) : inflateMember L late img p ≠ .failed := by
  intro h
  rcases inflateMember_cases (L := L) late img p with
    ⟨d, n, len, v, -, -, -, -, -, heq⟩ | ⟨-, hlost | hlost⟩
  · cases heq.symm.trans h
  · cases hlost.symm.trans h
  · cases hlost.symm.trans h

theorem scanLen_le (n pos : Nat) : scanLen img n pos ≤ n := by
  induction n generalizing pos with
  | zero => exact Nat.le_refl 0
  | succ n ih =>
      rw [scanLen]
      split
      · exact Nat.zero_le _
      · exact Nat.succ_le_succ (ih (pos + 1))

theorem scanLen_eq_zero {n pos : Nat} (hn : 0 < n) : scanLen img n pos = 0 ↔ magicAt img pos = true := by
  obtain ⟨n, rfl⟩ := Nat.exists_eq_succ_of_ne_zero (Nat.ne_of_gt hn)
  rw [scanLen]
  split
  next h => exact iff_of_true rfl h
  next h => exact iff_of_false (Nat.succ_ne_zero _) h

/-- Near the end only three bytes of the image can be completed to the magic number. -/
theorem tailAt_iff {pos : Nat} (hpos : pos < img.length) :
    TailAt img pos ↔ startsGzip img pos = false ∧ magicAt img pos = true := by
  have hdrop : (padded img).drop pos = img.drop pos ++ [0, 0, 0, 0] :=
    List.drop_append_of_le_length (Nat.le_of_lt hpos)
  have hlen : (img.drop pos).length = img.length - pos := List.length_drop
  simp only [TailAt, startsGzip, magicAt, hdrop, gzipMagic]
  generalize img.drop pos = rest at hlen
  constructor
  · rintro ⟨hthree, rfl⟩
    simp
    omega
  · rintro ⟨hfour, hmagic⟩
    have hshort : rest.length < 4 := by
      simp only [hmagic, Bool.and_true, decide_eq_false_iff_not] at hfour
      omega
    have hsome : 0 < rest.length := by omega
    match rest, hshort, hsome with
    | [a], _, _ => simp at hmagic
    | [a, b], _, _ => simp at hmagic
    | [a, b, c], _, _ =>
        simp at hmagic hlen
        refine ⟨by omega, ?_⟩
        rw [hmagic.1, hmagic.2.1, hmagic.2.2]

end Pass

/-! ## Ending -/

section Ending

variable {L : Libs} {late : Nat → Bool} {unset : Nat → ImageChunk} {img : Bytes}

/-- The result of a call that returns. -/
def Ended {α : Type} (r : Decode α) : Prop := r = .failed ∨ ∃ a, r = .ok a

theorem ended_bind {α β : Type} {x : Decode α} {f : α → Decode β} :
    Ended (x >>= f) ↔ x = .failed ∨ ∃ a, x = .ok a ∧ Ended (f a) := by
  cases x with
  | ok a =>
      constructor
      · intro h
        exact .inr ⟨a, rfl, h⟩
      · rintro (h | ⟨b, h, hf⟩)
        · cases h
        · cases h
          exact hf
  | failed => exact iff_of_true (.inl rfl) (.inl rfl)
  | fault => exact iff_of_false (by rintro (h | ⟨a, h⟩) <;> cases h) (by rintro (h | ⟨a, h, -⟩) <;> cases h)
  | hang => exact iff_of_false (by rintro (h | ⟨a, h⟩) <;> cases h) (by rintro (h | ⟨a, h, -⟩) <;> cases h)

/-- A pass fails only at a member with a wrong footer. -/
theorem readPass_failed {pos i : Nat} :
    readPass L late unset img pos i = .failed ↔
      startsGzip img pos = true ∧ ∃ d k v, IsMember L img pos d k v ∧
        v % 2 ^ L.sizeBits ≠ (d.length : Int) := by
  unfold readPass
  cases hmagic : startsGzip img pos with
  | false => simp
  | true =>
      simp only [if_true, true_and]
      cases hmember : inflateMember L late img (pos + gzipHeaderLen) with
      | failed => exact absurd hmember (inflateMember_ne_failed _)
      | fault =>
          refine iff_of_false nofun ?_
          rintro ⟨d, k, v, hm, -⟩
          obtain ⟨len, hok⟩ := inflateMember_ok.2 hm
          cases hmember.symm.trans hok
      | hang =>
          refine iff_of_false nofun ?_
          rintro ⟨d, k, v, hm, -⟩
          obtain ⟨len, hok⟩ := inflateMember_ok.2 hm
          cases hmember.symm.trans hok
      | ok x =>
          obtain ⟨d, len, k, v⟩ := x
          have hm := inflateMember_ok.1 ⟨len, hmember⟩
          simp only [Decode.ok_bind, ne_eq, inflateMember_len hmember]
          split
          next hne => exact iff_of_true rfl ⟨d, k, v, hm, hne⟩
          next heq =>
            refine iff_of_false nofun ?_
            rintro ⟨d', k', v', hm', hne⟩
            obtain ⟨len', hok⟩ := inflateMember_ok.2 hm'
            cases hmember.symm.trans hok
            exact heq hne

/-- The position after a pass that succeeds. -/
theorem readPass_next {pos pos' i : Nat} {cs : List ImageChunk} (hin : pos < img.length)
    (h : readPass L late unset img pos i = .ok (cs, pos')) : Next L img pos pos' := by
  unfold readPass at h
  split at h
  next hmagic =>
    simp only at h
    cases hmember : inflateMember L late img (pos + gzipHeaderLen) with
    | failed => rw [hmember] at h; cases h
    | fault => rw [hmember] at h; cases h
    | hang => rw [hmember] at h; cases h
    | ok x =>
        obtain ⟨d, len, k, v⟩ := x
        simp only [hmember, Decode.ok_bind] at h
        split at h
        next => cases h
        next heq =>
          cases h
          exact .member hin hmagic (inflateMember_ok.1 ⟨len, hmember⟩)
            ((inflateMember_len hmember).1 (not_not.1 heq))
  next hmagic =>
    cases h
    exact .scan hin (Bool.not_eq_true _ ▸ hmagic)

/-- The chunks of a gzip member. -/
def memberChunks (unset : Nat → ImageChunk) (pos i k : Nat) (d : Bytes) : List ImageChunk :=
  [normalChunk (unset i) pos gzipHeaderLen,
    deflateChunk (unset (i + 1)) (pos + gzipHeaderLen) k d.length d,
    normalChunk (unset (i + 2)) (pos + gzipHeaderLen + k) gzipFooterLen]

theorem readPass_member {pos k : Nat} {d : Bytes} {v : Int} (hmagic : startsGzip img pos = true)
    (hmember : IsMember L img pos d k v) (hsize : v % 2 ^ L.sizeBits = d.length) (i : Nat) :
    readPass L late unset img pos i =
      .ok (memberChunks unset pos i k d, pos + gzipHeaderLen + k + gzipFooterLen) := by
  obtain ⟨len, hok⟩ : ∃ len, inflateMember L late img (pos + gzipHeaderLen) = .ok (d, len, k, v) :=
    inflateMember_ok.2 hmember
  have hlen := (inflateMember_len hok).2 hsize
  obtain rfl : d.length = len := by exact_mod_cast hsize.symm.trans hlen
  simp only [readPass, if_pos hmagic, hok, Decode.ok_bind, hsize, ne_eq, not_true_eq_false, if_false]
  rfl

theorem readPass_scan {pos : Nat} (hmagic : startsGzip img pos = false) (i : Nat) :
    readPass L late unset img pos i =
      .ok ([normalChunk (unset i) pos (scanLen img (img.length - pos) pos)],
        pos + scanLen img (img.length - pos) pos) := by
  rw [readPass, if_neg (by rw [hmagic]; decide)]
  rfl

/-- Every such pass succeeds. -/
theorem Next.readPass (late : Nat → Bool) (unset : Nat → ImageChunk) {pos pos' : Nat}
    (h : Next L img pos pos') (i : Nat) : ∃ cs, readPass L late unset img pos i = .ok (cs, pos') := by
  cases h with
  | member _ hmagic hmember hsize => exact ⟨_, readPass_member hmagic hmember hsize i⟩
  | scan _ hmagic => exact ⟨_, readPass_scan hmagic i⟩

theorem Next.inside {pos pos' : Nat} (h : Next L img pos pos') : pos < img.length := by
  cases h with
  | member hin _ _ _ => exact hin
  | scan hin _ => exact hin

theorem readLoop_next {pos pos' i : Nat} {cs : List ImageChunk} (fuel : Nat)
    (hin : pos < img.length) (h : readPass L late unset img pos i = .ok (cs, pos')) :
    readLoop L late unset img (fuel + 1) pos i =
      readLoop L late unset img fuel pos' (i + cs.length) >>= fun rest => .ok (cs ++ rest) := by
  rw [readLoop, if_pos hin, h]
  rfl

/-- The loop does not end from here. -/
def Never (L : Libs) (late : Nat → Bool) (unset : Nat → ImageChunk) (img : Bytes) (pos : Nat) : Prop :=
  ∀ fuel i, ¬ Ended (readLoop L late unset img fuel pos i)

theorem Never.back {pos pos' : Nat} (h : Next L img pos pos') (hnever : Never L late unset img pos') :
    Never L late unset img pos := by
  intro fuel i hended
  cases fuel with
  | zero => rcases hended with h | ⟨a, h⟩ <;> cases h
  | succ fuel =>
      obtain ⟨cs, hpass⟩ := h.readPass late unset i
      rw [readLoop_next fuel h.inside hpass, ended_bind] at hended
      rcases hended with hfailed | ⟨rest, hrest, -⟩
      · exact hnever fuel _ (.inl hfailed)
      · exact hnever fuel _ (.inr ⟨rest, hrest⟩)

theorem Never.back_walk {pos pos' : Nat} (h : Walk L img pos pos')
    (hnever : Never L late unset img pos') : Never L late unset img pos := by
  induction h using Relation.ReflTransGen.head_induction_on with
  | refl => exact hnever
  | head hnext _ ih => exact ih.back hnext

theorem never_of_stuck {pos : Nat} (h : Stuck L img pos) : Never L late unset img pos := by
  rcases h with htail | ⟨hmagic, hnone⟩
  · -- the scan stops where it began, again and again
    have hin : pos < img.length := by
      have := htail.1
      omega
    obtain ⟨hgzip, hmagic⟩ := (tailAt_iff hin).1 htail
    have hzero : scanLen img (img.length - pos) pos = 0 := (scanLen_eq_zero (by omega)).2 hmagic
    have hnext : Next L img pos pos := by
      have h := Next.scan (L := L) hin hgzip
      rwa [hzero] at h
    intro fuel
    induction fuel with
    | zero => intro i h; rcases h with h | ⟨a, h⟩ <;> cases h
    | succ fuel ih =>
        intro i hended
        obtain ⟨cs, hpass⟩ := hnext.readPass late unset i
        rw [readLoop_next fuel hin hpass, ended_bind] at hended
        rcases hended with hfailed | ⟨rest, hrest, -⟩
        · exact ih _ (.inl hfailed)
        · exact ih _ (.inr ⟨rest, hrest⟩)
  · intro fuel i hended
    cases fuel with
    | zero => rcases hended with h | ⟨a, h⟩ <;> cases h
    | succ fuel =>
        have hin : pos < img.length := by
          simp only [startsGzip, Bool.and_eq_true, decide_eq_true_eq] at hmagic
          omega
        rw [readLoop, if_pos hin, ended_bind] at hended
        rcases hended with hfailed | ⟨⟨cs, pos'⟩, hpass, -⟩
        · obtain ⟨-, d, k, v, hm, -⟩ := readPass_failed.1 hfailed
          exact hnone ⟨d, k, v, hm⟩
        · cases readPass_next hin hpass with
          | member _ _ hm _ => exact hnone ⟨_, _, _, hm⟩
          | scan _ hscan => exact absurd hmagic (by rw [hscan]; decide)

/-- Unless the loop is stuck, a pass fails or goes forward. -/
theorem progress (late : Nat → Bool) (unset : Nat → ImageChunk) {pos : Nat} (hin : pos < img.length) (h : ¬ Stuck L img pos) :
    (∀ i, readPass L late unset img pos i = .failed) ∨ ∃ pos', Next L img pos pos' ∧ pos < pos' := by
  cases hmagic : startsGzip img pos with
  | true =>
      obtain ⟨d, k, v, hm⟩ : ∃ d k v, IsMember L img pos d k v := by
        by_contra hnone
        exact h (.inr ⟨hmagic, hnone⟩)
      by_cases hsize : v % 2 ^ L.sizeBits = (d.length : Int)
      · refine .inr ⟨_, .member hin hmagic hm hsize, ?_⟩
        rw [gzipHeaderLen]
        omega
      · exact .inl fun i => readPass_failed.2 ⟨hmagic, d, k, v, hm, hsize⟩
  | false =>
      have hpos : scanLen img (img.length - pos) pos ≠ 0 := by
        intro hzero
        have hfound := (scanLen_eq_zero (by omega)).1 hzero
        exact h (.inl ((tailAt_iff hin).2 ⟨hmagic, hfound⟩))
      exact .inr ⟨_, .scan hin hmagic, by omega⟩

theorem ends_from (late : Nat → Bool) (unset : Nat → ImageChunk) (n pos : Nat) (hn : img.length - pos ≤ n)
    (h : ∀ q, Walk L img pos q → ¬ Stuck L img q) :
    ∃ fuel, ∀ i, Ended (readLoop L late unset img fuel pos i) := by
  induction n generalizing pos with
  | zero =>
      refine ⟨1, fun i => .inr ⟨[], ?_⟩⟩
      rw [readLoop, if_neg (by omega)]
      rfl
  | succ n ih =>
      by_cases hin : pos < img.length
      · rcases progress late unset hin (h pos .refl) with hfailed | ⟨pos', hnext, hlt⟩
        · refine ⟨1, fun i => .inl ?_⟩
          rw [readLoop, if_pos hin, hfailed i]
          rfl
        · obtain ⟨fuel, hfuel⟩ := ih pos' (by omega) fun q hq => h q (.head hnext hq)
          refine ⟨fuel + 1, fun i => ?_⟩
          obtain ⟨cs, hpass⟩ := hnext.readPass late unset i
          rw [readLoop_next fuel hin hpass, ended_bind]
          rcases hfuel (i + cs.length) with hfailed | ⟨rest, hrest⟩
          · exact .inl hfailed
          · exact .inr ⟨rest, hrest, .inr ⟨_, rfl⟩⟩
      · refine ⟨1, fun i => .inr ⟨[], ?_⟩⟩
        rw [readLoop, if_neg hin]
        rfl

/-- In an image below 4 GiB whose members are complete and have room, the loop can only be stuck at
its end. -/
theorem stuck_iff_tail (hcomplete : CompleteMembers L img) (hroomy : RoomyMembers L img)
    (hsmall : img.length < 2 ^ 32) (pos : Nat) :
    Stuck L img pos ↔ TailAt img pos := by
  refine ⟨?_, .inl⟩
  rintro (htail | ⟨hmagic, hnone⟩)
  · exact htail
  · exfalso
    apply hnone
    obtain ⟨d, n, hinflate, hle⟩ := hcomplete pos hmagic
    simp only [gzipHeaderLen, gzipFooterLen] at hinflate hle
    have hcut : (img.length - (pos + 10)) % 2 ^ 32 = img.length - (pos + 10) :=
      Nat.mod_eq_of_lt (by omega)
    have hwhole : (img.drop (pos + 10)).take (img.length - (pos + 10)) = img.drop (pos + 10) := by
      rw [List.take_of_length_le]
      rw [List.length_drop]
    have hk : img.length - (img.length - (pos + 10) - n) - (pos + 10) = n := by omega
    obtain ⟨v, hv⟩ : ∃ v, read4 (padded img) (pos + 10 + n + 8 - 4 : Nat) = some v := by
      rw [read4, slice_natCast (by rw [padded, List.length_append]; simp; omega)]
      exact ⟨_, rfl⟩
    refine ⟨d, n, v, ?_, ⟨n, ?_, ?_⟩, hroomy pos d n hmagic hinflate, ?_⟩
    · rw [gzipHeaderLen]
      omega
    · rw [gzipHeaderLen, hcut, hwhole, hinflate]
    · rw [gzipHeaderLen, hcut, hk]
    · exact hv

end Ending

/-- `ReadImage` returns exactly when its way through the image does not come to a place where it is
stuck. In an image below 4 GiB with complete members that have room there is one such place: three
last bytes that the appended zeros complete to a gzip header. -/
theorem readImage_ends_iff (L : Libs) (late : Nat → Bool) (unset : Nat → ImageChunk) (img : Bytes) :
    (ReadImageEnds L late unset img ↔ ∀ pos, Walk L img 0 pos → ¬ Stuck L img pos) ∧
    (CompleteMembers L img → RoomyMembers L img → img.length < 2 ^ 32 →
      ∀ pos, Stuck L img pos ↔ TailAt img pos) := by
  refine ⟨⟨?_, ?_⟩, stuck_iff_tail⟩
  · rintro ⟨fuel, hended⟩ pos hwalk hstuck
    exact (never_of_stuck hstuck).back_walk hwalk fuel 0 hended
  · intro h
    obtain ⟨fuel, hfuel⟩ := ends_from late unset img.length 0 (Nat.le_refl _) h
    exact ⟨fuel, hfuel 0⟩

namespace Sample

/-- Libraries that know the empty deflate stream `0300` only. -/
def emptyStream : Libs where
  sha1 _ := []
  bzDecompress _ := ([], .dataError)
  inflate x := if [3, 0] <+: x then some ([], 2) else none
  inflateStarved x := if x <+: [3] then some [] else none
  deflate _ _ := none
  sizeBits := 64
  wide := by decide

/-- An image of three bytes. -/
def tailImage : Bytes := [0x1f, 0x8b, 0x08]

/-- Chunks in memory that was all zero. -/
def zeroChunk (_ : Nat) : ImageChunk :=
  ⟨.normal, 0, 0, .file 0, 0, 0, none, 0, 0, none, ⟨0, 0, 0, 0, 0⟩, 0⟩

end Sample

/-- No gzip header is in the image `1f8b08`, and `ReadImage` does not return. -/
theorem readImage_hangs :
    CompleteMembers Sample.emptyStream Sample.tailImage ∧
      ¬ ReadImageEnds Sample.emptyStream (fun _ => false) Sample.zeroChunk Sample.tailImage := by
  constructor
  · intro pos hmagic
    simp only [startsGzip, Bool.and_eq_true, decide_eq_true_eq] at hmagic
    have hlen : Sample.tailImage.length = 3 := rfl
    omega
  · rintro ⟨fuel, hended⟩
    have hstuck : Stuck Sample.emptyStream Sample.tailImage 0 := .inl ⟨rfl, rfl⟩
    exact never_of_stuck hstuck fuel 0 hended

/-! ## Tiling -/

/-- What the code relies on in zlib: a stream is in the input that it is inflated from, and input
behind its end makes no difference. -/
structure RawInflate (L : Libs) : Prop where
  consumed : ∀ x d n, L.inflate x = some (d, n) → n ≤ x.length
  ignores : ∀ x d n y, L.inflate x = some (d, n) → x.take n <+: y → L.inflate y = some (d, n)

/-- The chunk stands at `pos` of the file, and its data is what is there, inflated for a deflate
chunk. -/
inductive Stands (L : Libs) (img : Bytes) (pos : Nat) (c : ImageChunk) : Prop where
  | normal (type : c.type = .normal) (start : c.start = pos) (data : c.data = .file pos)
      (le : pos + c.len ≤ img.length)
  | deflate {d : Bytes} {n : Nat} (type : c.type = .deflate) (start : c.start = pos)
      (deflateData : c.deflateData = pos) (le : pos + c.deflateLen ≤ img.length)
      (data : c.data = .buffer d) (len : c.len = d.length)
      (inflated : L.inflate ((img.drop pos).take c.deflateLen) = some (d, n))

/-- The chunks cover the file from `pos` to `fin`. -/
inductive Covers (L : Libs) (img : Bytes) : Nat → List ImageChunk → Nat → Prop where
  | nil (pos : Nat) : Covers L img pos [] pos
  | cons {pos fin : Nat} {c : ImageChunk} {cs : List ImageChunk} (head : Stands L img pos c)
      (tail : Covers L img (pos + c.extent) cs fin) : Covers L img pos (c :: cs) fin

section Covering

variable {L : Libs} {late : Nat → Bool} {unset : Nat → ImageChunk} {img : Bytes}

theorem Covers.cons_iff {pos fin : Nat} {c : ImageChunk} {cs : List ImageChunk} :
    Covers L img pos (c :: cs) fin ↔ Stands L img pos c ∧ Covers L img (pos + c.extent) cs fin := by
  constructor
  · intro h
    cases h with
    | cons head tail => exact ⟨head, tail⟩
  · rintro ⟨head, tail⟩
    exact .cons head tail

/-- Below 2³¹ bytes of data this is the tiling that the patches are made from. -/
theorem Covers.tiles {pos fin : Nat} {cs : List ImageChunk} (h : Covers L img pos cs fin)
    (hsmall : ∀ c ∈ cs, c.type = .deflate → c.len < 2 ^ 31) : Tiles L img pos cs fin := by
  induction h with
  | nil pos => exact .nil pos
  | @cons pos fin c cs head _ ih =>
      refine .cons ?_ (ih fun d hd => hsmall d (List.mem_cons_of_mem c hd))
      cases head with
      | normal type start data le => exact .normal type start data le
      | deflate type start deflateData le data len inflated =>
          have hc := hsmall c (List.mem_cons_self ..) type
          exact .deflate type start deflateData le data len (len ▸ hc) inflated

/-- The footer of every gzip member that the loop comes to is in the image. -/
def FootersInside (L : Libs) (img : Bytes) (pos : Nat) : Prop :=
  ∀ q, Walk L img pos q → startsGzip img q = true → ∀ d k v, IsMember L img q d k v →
    v % 2 ^ L.sizeBits = (d.length : Int) → q + gzipHeaderLen + k + gzipFooterLen ≤ img.length

theorem IsMember.unique {pos k k' : Nat} {d d' : Bytes} {v v' : Int} (h : IsMember L img pos d k v)
    (h' : IsMember L img pos d' k' v') : d = d' ∧ k = k' := by
  obtain ⟨n, hinflate, rfl⟩ := h.stream
  obtain ⟨n', hinflate', rfl⟩ := h'.stream
  cases hinflate.symm.trans hinflate'
  exact ⟨rfl, rfl⟩

theorem Next.unique {pos q q' : Nat} (h : Next L img pos q) (h' : Next L img pos q') : q = q' := by
  cases h with
  | member _ hmagic hm _ =>
      cases h' with
      | member _ _ hm' _ => rw [(hm.unique hm').2]
      | scan _ hscan => exact absurd hmagic (by rw [hscan]; decide)
  | scan _ hscan =>
      cases h' with
      | member _ hmagic _ _ => exact absurd hmagic (by rw [hscan]; decide)
      | scan _ _ => rfl

/-- The condition, one step further. -/
theorem footersInside_next {pos q : Nat} (h : Next L img pos q)
    (hhere : startsGzip img pos = true → q ≤ img.length) :
    FootersInside L img pos ↔ FootersInside L img q := by
  constructor
  · exact fun hall r hwalk => hall r (.head h hwalk)
  · intro hall r hwalk
    rcases Relation.ReflTransGen.cases_head hwalk with rfl | ⟨q', hnext, hrest⟩
    · intro hmagic d k v hm hsize
      have hq : q = pos + gzipHeaderLen + k + gzipFooterLen :=
        h.unique (.member h.inside hmagic hm hsize)
      exact hq ▸ hhere hmagic
    · rw [h.unique hnext] at hall
      exact hall r hrest

/-- The deflate stream of a member is in its chunk. -/
theorem IsMember.inflated (hz : RawInflate L) {pos k : Nat} {d : Bytes} {v : Int}
    (h : IsMember L img pos d k v) :
    pos + gzipHeaderLen + k ≤ img.length ∧
      ∃ n, L.inflate ((img.drop (pos + gzipHeaderLen)).take k) = some (d, n) := by
  have hheader := h.header
  obtain ⟨n, hinflate, rfl⟩ := h.stream
  have hn := hz.consumed _ _ _ hinflate
  rw [List.length_take, List.length_drop] at hn
  have hcut := Nat.mod_le (img.length - (pos + gzipHeaderLen)) (2 ^ 32)
  refine ⟨by omega, n, hz.ignores _ _ _ _ hinflate ?_⟩
  rw [List.take_take]
  refine List.take_prefix_take_left ?_
  omega

theorem stands_normalChunk (c : ImageChunk) {pos len : Nat} :
    Stands L img pos (normalChunk c pos len) ↔ pos + len ≤ img.length := by
  constructor
  · intro h
    cases h with
    | normal _ _ _ le => exact le
    | deflate type _ _ _ _ _ _ => cases type
  · exact fun h => .normal rfl rfl rfl h

theorem covers_memberChunks (hz : RawInflate L) {pos i k fin : Nat} {d : Bytes} {v : Int}
    (h : IsMember L img pos d k v) (rest : List ImageChunk) :
    Covers L img pos (memberChunks unset pos i k d ++ rest) fin ↔
      pos + gzipHeaderLen + k + gzipFooterLen ≤ img.length ∧
        Covers L img (pos + gzipHeaderLen + k + gzipFooterLen) rest fin := by
  obtain ⟨hle, n, hinflate⟩ := h.inflated hz
  have hdeflate : Stands L img (pos + gzipHeaderLen)
      (deflateChunk (unset (i + 1)) (pos + gzipHeaderLen) k d.length d) :=
    .deflate rfl rfl rfl hle rfl rfl hinflate
  have hext : ∀ c pos len, (normalChunk c pos len).extent = len := fun _ _ _ => rfl
  have hextd : (deflateChunk (unset (i + 1)) (pos + gzipHeaderLen) k d.length d).extent = k := rfl
  simp only [memberChunks, List.cons_append, List.nil_append, Covers.cons_iff, stands_normalChunk,
    hext, hextd, hdeflate, true_and]
  exact ⟨fun hcovers => hcovers.2, fun hrest => ⟨h.header, hrest⟩⟩

theorem readLoop_ok {fuel pos i : Nat} {cs : List ImageChunk} (hin : pos < img.length)
    (h : readLoop L late unset img (fuel + 1) pos i = .ok cs) :
    ∃ cs' q rest, readPass L late unset img pos i = .ok (cs', q) ∧
      readLoop L late unset img fuel q (i + cs'.length) = .ok rest ∧ cs = cs' ++ rest := by
  rw [readLoop, if_pos hin] at h
  cases hpass : readPass L late unset img pos i with
  | failed => rw [hpass] at h; cases h
  | fault => rw [hpass] at h; cases h
  | hang => rw [hpass] at h; cases h
  | ok x =>
      obtain ⟨cs', q⟩ := x
      simp only [hpass, Decode.ok_bind] at h
      cases hloop : readLoop L late unset img fuel q (i + cs'.length) with
      | failed => rw [hloop] at h; cases h
      | fault => rw [hloop] at h; cases h
      | hang => rw [hloop] at h; cases h
      | ok rest =>
          rw [hloop] at h
          cases h
          exact ⟨cs', q, rest, rfl, hloop, rfl⟩

/-- From any position in the image: the chunks cover the rest exactly when the footers are in it. -/
theorem readLoop_covers_iff (hz : RawInflate L) (fuel pos i : Nat) (cs : List ImageChunk)
    (hpos : pos ≤ img.length) (h : readLoop L late unset img fuel pos i = .ok cs) :
    Covers L img pos cs img.length ↔ FootersInside L img pos := by
  induction fuel generalizing pos i cs with
  | zero => cases h
  | succ fuel ih =>
      by_cases hin : pos < img.length
      · obtain ⟨cs', q, rest, hpass, hloop, rfl⟩ := readLoop_ok hin h
        have hnext := readPass_next hin hpass
        cases hnext with
        | @member k d v _ hmagic hm hsize =>
            rw [readPass_member hmagic hm hsize] at hpass
            cases hpass
            rw [covers_memberChunks hz hm]
            by_cases hle : pos + gzipHeaderLen + k + gzipFooterLen ≤ img.length
            · rw [footersInside_next (.member hin hmagic hm hsize) fun _ => hle,
                ← ih _ _ rest hle hloop]
              exact and_iff_right hle
            · refine iff_of_false (fun hc => hle hc.1) ?_
              exact fun hall => hle (hall pos .refl hmagic d k v hm hsize)
        | scan _ hmagic =>
            rw [readPass_scan hmagic] at hpass
            cases hpass
            have hscan : scanLen img (img.length - pos) pos ≤ img.length - pos := scanLen_le _ _
            have hle : pos + scanLen img (img.length - pos) pos ≤ img.length := by omega
            rw [footersInside_next (.scan hin hmagic) fun _ => hle, ← ih _ _ rest hle hloop,
              List.singleton_append, Covers.cons_iff, stands_normalChunk]
            exact and_iff_right hle
      · obtain rfl : pos = img.length := by omega
        rw [readLoop, if_neg hin] at h
        cases h
        refine iff_of_true (.nil _) ?_
        intro q hwalk
        rcases Relation.ReflTransGen.cases_head hwalk with rfl | ⟨q', hnext, -⟩
        · intro hmagic
          simp only [startsGzip, Bool.and_eq_true, decide_eq_true_eq] at hmagic
          omega
        · exact absurd hnext.inside hin

end Covering

/-- The chunks of `ReadImage` tile the image exactly when the footer of every gzip member on its way
is in the image. -/
theorem readImage_covers_iff (L : Libs) (hz : RawInflate L) (late : Nat → Bool)
    (unset : Nat → ImageChunk) (img : Bytes) (fuel : Nat) (cs : List ImageChunk)
    (h : readImage L late unset img fuel = .ok cs) :
    Covers L img 0 cs img.length ↔ FootersInside L img 0 :=
  readLoop_covers_iff hz fuel 0 0 cs (Nat.zero_le _) h

namespace Sample

/-- A gzip header, the empty stream, and as much of a footer as `footer` has. -/
def emptyGzip (footer : Bytes) : Bytes := [0x1f, 0x8b, 0x08, 0, 0, 0, 0, 0, 0, 3, 3, 0] ++ footer

theorem emptyStream_raw : RawInflate emptyStream where
  consumed x d n h := by
    simp only [emptyStream] at h
    split at h
    next hpre =>
      cases h
      exact hpre.length_le
    next => cases h
  ignores x d n y h hy := by
    simp only [emptyStream] at h ⊢
    split at h
    next hpre =>
      cases h
      obtain ⟨rest, rfl⟩ := hpre
      exact if_pos hy
    next => cases h

/-- The chunks of that image. -/
def gzipChunks : List ImageChunk := memberChunks zeroChunk 0 0 2 []

end Sample

/-- With the whole footer the three chunks cover the image. -/
theorem readImage_whole_footer :
    readImage Sample.emptyStream (fun _ => false) Sample.zeroChunk (Sample.emptyGzip (write8 0)) 2 =
        .ok Sample.gzipChunks ∧
      (Covers Sample.emptyStream (Sample.emptyGzip (write8 0)) 0 Sample.gzipChunks 20 ↔
        FootersInside Sample.emptyStream (Sample.emptyGzip (write8 0)) 0) := by
  have hread : readImage Sample.emptyStream (fun _ => false) Sample.zeroChunk
      (Sample.emptyGzip (write8 0)) 2 = .ok Sample.gzipChunks := by decide +kernel
  exact ⟨hread, readImage_covers_iff Sample.emptyStream Sample.emptyStream_raw _ _ _ 2 _ hread⟩

/-- With half of the footer, `ReadImage` succeeds and the last chunk ends four bytes behind the
image. -/
theorem readImage_past_end :
    readImage Sample.emptyStream (fun _ => false) Sample.zeroChunk (Sample.emptyGzip (write4 0)) 2 =
        .ok Sample.gzipChunks ∧
      (Sample.emptyGzip (write4 0)).length = 16 ∧
      Sample.gzipChunks.map (fun c => (c.start, c.extent)) = [(0, 10), (10, 2), (12, 8)] ∧
      ¬ Covers Sample.emptyStream (Sample.emptyGzip (write4 0)) 0 Sample.gzipChunks 16 := by
  refine ⟨by decide +kernel, by decide, by decide, ?_⟩
  rw [Sample.gzipChunks, memberChunks, Covers.cons_iff, Covers.cons_iff, Covers.cons_iff,
    stands_normalChunk]
  rintro ⟨-, -, hfooter, -⟩
  have hle := (stands_normalChunk _).1 hfooter
  exact absurd hle (by decide)

end OpenRecovery.ImgDiff
