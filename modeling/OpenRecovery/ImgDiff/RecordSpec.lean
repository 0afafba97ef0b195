import OpenRecovery.ImgDiff.BsRoundTrip
import OpenRecovery.ImgDiff.ImageChunk

/-!
# What the decoder makes of the records

`Restores H srcImg c patch region` says of a chunk and its patch, in the form `MakePatch` leaves
them, that the record names enough to rebuild the bytes `region` from the source file. The record is
read back wherever it stands in the patch file, with its patch at the offset it names
(`chunkPieces_restores`); a list of such records rebuilds the concatenation of the regions
(`applyImagePatch_restores`). A deflate record that names an empty source range makes the decoder
give up (`applyImagePatch_breaksOff`).
-/

set_option autoImplicit false

namespace OpenRecovery.ImgDiff

open OpenRecovery.Crash OpenRecovery.ApplyPatch OpenRecovery.Edify OpenRecovery.Storage

/-! ## Fields of a record -/

/-- A number in a record: four or eight bytes of it. -/
inductive Field where
  | four (v : Int)
  | eight (v : Int)

/-- The bytes of a field. -/
def Field.bytes : Field → Bytes
  | .four v => write4 v
  | .eight v => write8 v

/-- A sequence of fields. -/
def fields (fs : List Field) : Bytes := fs.flatMap Field.bytes

theorem fields_append_cons (fs gs : List Field) (f : Field) (pre post : Bytes) :
    pre ++ (fields (fs ++ f :: gs) ++ post) =
      (pre ++ fields fs) ++ (f.bytes ++ (fields gs ++ post)) := by
  simp only [fields, List.flatMap_append, List.flatMap_cons, List.append_assoc]

theorem read4_field (pre post : Bytes) (fs gs : List Field) {pos v : Int}
    (hpos : pos = pre.length + (fields fs).length) (hlo : -2 ^ 31 ≤ v) (hhi : v < 2 ^ 31) :
    read4 (pre ++ (fields (fs ++ .four v :: gs) ++ post)) pos = some v := by
  rw [fields_append_cons]
  refine read4_write4 _ _ pos v ?_ hlo hhi
  rw [hpos, List.length_append]
  push_cast
  rfl

theorem read8_field (pre post : Bytes) (fs gs : List Field) {pos : Int} {v : Nat}
    (hpos : pos = pre.length + (fields fs).length) (hhi : v < 2 ^ 63) :
    read8 (pre ++ (fields (fs ++ .eight v :: gs) ++ post)) pos = some (v : Int) := by
  rw [fields_append_cons]
  refine read8_write8 _ _ pos v ?_ (by omega) (by omega)
  rw [hpos, List.length_append]
  push_cast
  rfl

theorem length_record (offset : Nat) (c : ImageChunk) (patch : Bytes) :
    (record offset c patch).length = recordSize c patch := by
  unfold record recordSize
  cases c.type <;> simp only [List.length_append, length_write4, length_write8]

/-! ## The output of `deflate` -/

theorem flatten_deflateBlocks (k fuel : Nat) (out : Bytes) :
    (deflateBlocks k fuel out).flatten = out := by
  induction fuel generalizing out with
  | zero => simp [deflateBlocks]
  | succ fuel ih =>
      simp only [deflateBlocks]
      split
      · simp
      · rw [List.flatten_cons, ih, List.take_append_drop]

/-! ## Records that restore a region -/

/-- The parameters fit into the fields of a record. -/
def InRange (p : DeflateParams) : Prop :=
  ∀ v ∈ [p.level, p.method, p.windowBits, p.memLevel, p.strategy], -2 ^ 31 ≤ v ∧ v < 2 ^ 31

/-- With the source file, the record of `c` and the patch give the bytes `region`. -/
inductive Restores (H : HostLibs) (srcImg : Bytes) (c : ImageChunk) : Bytes → Bytes → Prop where
  | raw {region : Bytes} (type : c.type = .raw) (small : region.length < 2 ^ 31) :
      Restores H srcImg c region region
  | normal {old new : Bytes} {st : DiffState} (opre opost : Bytes) (type : c.type = .normal)
      (source : srcImg = opre ++ (old ++ opost)) (start : c.sourceStart = opre.length)
      (len : c.sourceLen = old.length) (blocks : Complete old new st) :
      Restores H srcImg c (patchFile H new st) new
  | deflate {z old new out : Bytes} {n : Nat} {st : DiffState} (type : c.type = .deflate)
      (source : slice srcImg c.sourceStart c.sourceLen = some z)
      (expand : H.inflate z = some (old, n)) (expanded : c.sourceUncompressedLen = old.length)
      (blocks : Complete old new st) (target : H.deflate c.params new = some out)
      (params : InRange c.params) (small : c.len < 2 ^ 31) :
      Restores H srcImg c (patchFile H new st) out

/-- A record that names an empty range of the source file as a deflate stream. -/
structure Broken (c : ImageChunk) : Prop where
  type : c.type = .deflate
  start : c.sourceStart = 0
  len : c.sourceLen = 0
  expanded : c.sourceUncompressedLen < 2 ^ 31
  params : InRange c.params
  small : c.len < 2 ^ 31

/-- What the decoder reads at the position of a deflate record. -/
structure DeflateFields (data : Bytes) (pos : Int) (c : ImageChunk) (offset : Nat) : Prop where
  type : read4 data pos = some chunkDeflate
  sourceStart : read8 data (pos + 4) = some (c.sourceStart : Int)
  sourceLen : read8 data (pos + 4 + 8) = some (c.sourceLen : Int)
  offset : read8 data (pos + 4 + 16) = some (offset : Int)
  expanded : read8 data (pos + 4 + 24) = some (c.sourceUncompressedLen : Int)
  level : read4 data (pos + 4 + 40) = some c.params.level
  method : read4 data (pos + 4 + 44) = some c.params.method
  windowBits : read4 data (pos + 4 + 48) = some c.params.windowBits
  memLevel : read4 data (pos + 4 + 52) = some c.params.memLevel
  strategy : read4 data (pos + 4 + 56) = some c.params.strategy

theorem deflateFields_record {pre post : Bytes} {c : ImageChunk} {patch : Bytes} {offset : Nat}
    (htype : c.type = .deflate) (hstart : c.sourceStart < 2 ^ 63) (hlen : c.sourceLen < 2 ^ 63)
    (hoffset : offset < 2 ^ 63) (hexp : c.sourceUncompressedLen < 2 ^ 63)
    (hparams : InRange c.params) :
    DeflateFields (pre ++ (record offset c patch ++ post)) pre.length c offset := by
  have hrec : record offset c patch = fields [.four chunkDeflate, .eight c.sourceStart,
      .eight c.sourceLen, .eight offset, .eight c.sourceUncompressedLen, .eight c.len,
      .four c.params.level, .four c.params.method, .four c.params.windowBits,
      .four c.params.memLevel, .four c.params.strategy] := by
    rw [record, htype]
    simp only [fields, Field.bytes, List.flatMap_cons, List.flatMap_nil, List.append_nil]
    rfl
  simp only [InRange, List.forall_mem_cons] at hparams
  -- one bound for each of the five parameters
  obtain ⟨⟨l1, l2⟩, ⟨m1, m2⟩, ⟨w1, w2⟩, ⟨e1, e2⟩, ⟨s1, s2⟩, -⟩ := hparams
  rw [hrec]
  constructor
  case type => exact read4_field pre post [] _ (by rfl) (by decide) (by decide)
  case sourceStart => exact read8_field pre post [.four _] _ (by rfl) hstart
  case sourceLen => exact read8_field pre post [.four _, .eight _] _ (by rw [add_assoc]; rfl) hlen
  case offset =>
    exact read8_field pre post [.four _, .eight _, .eight _] _ (by rw [add_assoc]; rfl) hoffset
  case expanded =>
    exact read8_field pre post [.four _, .eight _, .eight _, .eight _] _ (by rw [add_assoc]; rfl)
      hexp
  case level =>
    exact read4_field pre post [.four _, .eight _, .eight _, .eight _, .eight _, .eight _] _
      (by rw [add_assoc]; rfl) l1 l2
  case method =>
    exact read4_field pre post [.four _, .eight _, .eight _, .eight _, .eight _, .eight _,
      .four _] _ (by rw [add_assoc]; rfl) m1 m2
  case windowBits =>
    exact read4_field pre post [.four _, .eight _, .eight _, .eight _, .eight _, .eight _,
      .four _, .four _] _ (by rw [add_assoc]; rfl) w1 w2
  case memLevel =>
    exact read4_field pre post [.four _, .eight _, .eight _, .eight _, .eight _, .eight _,
      .four _, .four _, .four _] _ (by rw [add_assoc]; rfl) e1 e2
  case strategy =>
    exact read4_field pre post [.four _, .eight _, .eight _, .eight _, .eight _, .eight _,
      .four _, .four _, .four _, .four _] _ (by rw [add_assoc]; rfl) s1 s2

/-! ## Reading a record back -/

section Reading

variable {L : Libs} {srcImg data pre post : Bytes} {c : ImageChunk} {patch : Bytes} {offset : Nat}

theorem record_fits (hdata : data = pre ++ (record offset c patch ++ post)) :
    pre.length + recordSize c patch ≤ data.length := by
  have h := length_record offset c patch
  rw [hdata, List.length_append, List.length_append]
  omega

theorem readChunk_raw (hdata : data = pre ++ (record offset c patch ++ post))
    (htype : c.type = .raw) (hsmall : patch.length < 2 ^ 31) :
    readChunk L srcImg (blobValue data) data pre.length =
      .ok (.raw patch, (pre.length + recordSize c patch : Nat)) := by
  have hfits := record_fits hdata
  have hsize : recordSize c patch = 8 + patch.length := by
    rw [recordSize, htype]
    simp only
    omega
  have hrec : record offset c patch = fields [.four chunkRaw, .four patch.length] ++ patch := by
    rw [record, htype]
    simp only [fields, Field.bytes, List.flatMap_cons, List.flatMap_nil, List.append_nil,
      List.append_assoc]
    rfl
  have hdata' : data = pre ++ (fields [.four chunkRaw, .four patch.length] ++ (patch ++ post)) := by
    rw [hdata, hrec, List.append_assoc]
  have htag : read4 data pre.length = some chunkRaw := by
    rw [hdata']
    exact read4_field pre _ [] _ (by rfl) (by decide) (by decide)
  have hlen : read4 data (pre.length + 4) = some (patch.length : Int) := by
    rw [hdata']
    exact read4_field pre _ [.four _] _ (by rfl) (by omega) (by omega)
  -- the patch follows its length inside the record
  have hbody : slice data (pre.length + 4 + 4) patch.length = some patch := by
    rw [hdata', ← List.append_assoc]
    refine slice_append _ patch post _ _ ?_ rfl
    rw [List.length_append, add_assoc]
    push_cast
    rfl
  have hbound : (data.length : Int) ≥ pre.length + 8 + patch.length := by omega
  have h1 : ¬ ((data.length : Int) < pre.length + 4) := by omega
  have h2 : ¬ ((data.length : Int) < pre.length + 4 + 4) := by omega
  have h3 : ¬ ((data.length : Int) < pre.length + 4 + 4 + patch.length) := by omega
  have h4 : ¬ ((patch.length : Int) < 0) := by omega
  have hne : chunkRaw ≠ chunkNormal := by decide
  simp only [readChunk, blobValue, h1, if_false, htag, Decode.ofAccess_some, Decode.ok_bind, hne,
    if_true, h2, hlen, h3, h4, Int.toNat_natCast, hbody, Decode.pure_eq_ok]
  rw [hsize]
  congr 2
  push_cast
  ring

theorem readChunk_normal (hdata : data = pre ++ (record offset c patch ++ post))
    (htype : c.type = .normal) (hstart : c.sourceStart < 2 ^ 31) (hlen : c.sourceLen < 2 ^ 31)
    (hoffset : offset < 2 ^ 31) :
    readChunk L srcImg (blobValue data) data pre.length =
      .ok (.normal c.sourceStart c.sourceLen offset, (pre.length + recordSize c patch : Nat)) := by
  have hfits := record_fits hdata
  have hsize : recordSize c patch = 28 := by
    rw [recordSize, htype]
    rfl
  have hrec : record offset c patch = fields [.four chunkNormal, .eight c.sourceStart,
      .eight c.sourceLen, .eight offset] := by
    rw [record, htype]
    simp only [fields, Field.bytes, List.flatMap_cons, List.flatMap_nil, List.append_nil]
    rfl
  rw [hrec] at hdata
  have htag : read4 data pre.length = some chunkNormal := by
    rw [hdata]
    exact read4_field pre post [] _ (by rfl) (by decide) (by decide)
  have hs : read8 data (pre.length + 4) = some (c.sourceStart : Int) := by
    rw [hdata]
    exact read8_field pre post [.four _] _ (by rfl) (by omega)
  have hl : read8 data (pre.length + 4 + 8) = some (c.sourceLen : Int) := by
    rw [hdata]
    exact read8_field pre post [.four _, .eight _] _ (by rw [add_assoc]; rfl) (by omega)
  have ho : read8 data (pre.length + 4 + 16) = some (offset : Int) := by
    rw [hdata]
    exact read8_field pre post [.four _, .eight _, .eight _] _ (by rw [add_assoc]; rfl) (by omega)
  have h1 : ¬ ((data.length : Int) < pre.length + 4) := by omega
  have h2 : ¬ ((data.length : Int) < pre.length + 4 + 24) := by omega
  simp only [readChunk, blobValue, h1, if_false, htag, Decode.ofAccess_some, Decode.ok_bind,
    if_true, h2, hs, hl, ho, Decode.pure_eq_ok, toSize_small hstart, toSsize_small hlen,
    toSsize_small hoffset]
  rw [hsize]
  congr 2

/-- A deflate record is decoded as far as inflating and patching its source gets. -/
theorem readChunk_deflate (hdata : data = pre ++ (record offset c patch ++ post))
    (htype : c.type = .deflate) (h : DeflateFields data pre.length c offset)
    (hstart : c.sourceStart < 2 ^ 31) (hlen : c.sourceLen < 2 ^ 31) (hoffset : offset < 2 ^ 31)
    (hexp : c.sourceUncompressedLen < 2 ^ 31) {r : Decode Bytes}
    (hr : patchInflated L srcImg (blobValue data) c.sourceStart c.sourceLen offset
      c.sourceUncompressedLen = r) :
    (r = .failed → readChunk L srcImg (blobValue data) data pre.length = .failed) ∧
    ∀ new out, r = .ok new → L.deflate c.params new = some out →
      readChunk L srcImg (blobValue data) data pre.length =
        .ok (.deflate (deflateBlocks (max c.sourceUncompressedLen 32768) out.length out),
          (pre.length + recordSize c patch : Nat)) := by
  have hfits := record_fits hdata
  have hsize : recordSize c patch = 64 := by
    rw [recordSize, htype]
    rfl
  have h1 : ¬ ((data.length : Int) < pre.length + 4) := by omega
  have h2 : ¬ ((data.length : Int) < pre.length + 4 + 60) := by omega
  have hne : chunkDeflate ≠ chunkNormal := by decide
  have hne' : chunkDeflate ≠ chunkRaw := by decide
  have hsz : (blobValue data).size = data.length := rfl
  constructor
  · rintro rfl
    simp only [readChunk, hsz, h1, if_false, h.type, Decode.ofAccess_some, Decode.ok_bind, hne,
      hne', if_true, h2, h.sourceStart, h.sourceLen, h.offset, h.expanded, h.level, h.method,
      h.windowBits, h.memLevel, h.strategy, toSize_small hstart, toSize_small hlen,
      toSsize_small hoffset, toSize_small hexp, hr]
    rfl
  · rintro new out rfl hout
    simp only [readChunk, hsz, h1, if_false, h.type, Decode.ofAccess_some, Decode.ok_bind, hne,
      hne', if_true, h2, h.sourceStart, h.sourceLen, h.offset, h.expanded, h.level, h.method,
      h.windowBits, h.memLevel, h.strategy, toSize_small hstart, toSize_small hlen,
      toSsize_small hoffset, toSize_small hexp, toSsize_small hexp, hr, hout, Decode.pure_eq_ok,
      Int.toNat_natCast]
    rw [hsize]
    congr 2

end Reading

/-- A source range that is all there inflates to its output. -/
theorem inflateRange_of_slice {L : Libs} {srcImg z old : Bytes} {n start len : Nat}
    (h : slice srcImg start len = some z) (hexpand : L.inflate z = some (old, n)) :
    inflateRange L srcImg start len old.length = .ok old := by
  unfold slice at h
  split at h
  · cases h
    simp only [Int.toNat_natCast] at hexpand
    simp only [inflateRange, hexpand, if_true]
  · cases h

/-- A record that restores a region is decoded to pieces that make up the region. Its patch stands
at the offset the record names. -/
theorem chunkPieces_restores {H : HostLibs} (hbz : Bzip2 H) {srcImg : Bytes}
    (hsrc : srcImg.length < 2 ^ 31) {c : ImageChunk} {patch region : Bytes}
    (h : Restores H srcImg c patch region) {data pre post before after : Bytes}
    (hdata : data = pre ++ (record before.length c patch ++ post))
    (hpatch : data = before ++ (trailer c patch ++ after)) (hsmall : data.length < 2 ^ 31) :
    ∃ chunk ps, readChunk H.toLibs srcImg (blobValue data) data pre.length =
        .ok (chunk, (pre.length + recordSize c patch : Nat)) ∧
      chunkPieces H.toLibs srcImg (blobValue data) chunk = (ps, .done) ∧
      (ps.map Piece.data).flatten = region := by
  have hbefore : before.length ≤ data.length := by
    rw [hpatch, List.length_append]
    omega
  cases h with
  | raw type small => exact ⟨_, _, readChunk_raw hdata type small, rfl, by simp [Piece.data]⟩
  | @normal old _ st opre opost type source start len blocks =>
      have htrailer : trailer c (patchFile H region st) = patchFile H region st := by
        rw [trailer, type]
      rw [htrailer] at hpatch
      have hlen : srcImg.length = opre.length + (old.length + opost.length) := by
        rw [source, List.length_append, List.length_append]
      have happly := @applyBSDiffPatchMem_patchFile H hbz old region st blocks opre opost before after
        (blobValue data) (congrArg some hpatch) (by rw [← hpatch]; rfl) (by rwa [← hpatch])
      rw [← source, ← start, ← len] at happly
      refine ⟨_, [.normal region], readChunk_normal hdata type (by omega) (by omega) (by omega), ?_,
        by simp [Piece.data]⟩
      simp only [chunkPieces, happly]
  | @deflate z old new _ n st type source expand expanded blocks target params small =>
      have htrailer : trailer c (patchFile H new st) = patchFile H new st := by
        rw [trailer, type]
      rw [htrailer] at hpatch
      have hold := blocks.old_lt
      have hz := slice_length source
      have hin : c.sourceStart + c.sourceLen ≤ srcImg.length := by
        unfold slice at source
        split at source
        · rename_i hb
          omega
        · cases source
      have happly := @applyBSDiffPatchMem_patchFile H hbz old new st blocks [] [] before after
        (blobValue data) (congrArg some hpatch) (by rw [← hpatch]; rfl) (by rwa [← hpatch])
      have hfields : DeflateFields data pre.length c before.length := by
        rw [hdata]
        exact deflateFields_record type (by omega) (by omega) (by omega) (by omega) params
      have hlen : c.sourceLen % 2 ^ 32 = c.sourceLen := Nat.mod_eq_of_lt (by omega)
      have hexp : old.length % 2 ^ 32 = old.length := Nat.mod_eq_of_lt (by omega)
      have hinfl : patchInflated H.toLibs srcImg (blobValue data) c.sourceStart c.sourceLen
          before.length c.sourceUncompressedLen = .ok new := by
        rw [patchInflated, expanded, hlen, hexp, inflateRange_of_slice source expand,
          Decode.ok_bind, if_neg (not_not.mpr rfl), toSsize_small hold]
        simpa using happly
      refine ⟨_, _, (readChunk_deflate hdata type hfields (by omega) (by omega) (by omega)
        (by omega) hinfl).2 new region rfl target, rfl, ?_⟩
      have hmap : ∀ bs : List Bytes, (bs.map Piece.block).map Piece.data = bs := by
        intro bs
        rw [List.map_map]
        exact List.map_id bs
      rw [hmap, flatten_deflateBlocks]

/-- A record that names an empty source range makes the decoder give up. -/
theorem readChunk_broken {H : HostLibs} (hempty : H.inflate [] = none) {srcImg : Bytes}
    {c : ImageChunk} (h : Broken c) {patch data pre post : Bytes} {offset : Nat}
    (hdata : data = pre ++ (record offset c patch ++ post)) (hoffset : offset < 2 ^ 31) :
    readChunk H.toLibs srcImg (blobValue data) data pre.length = .failed := by
  have hstart := h.start
  have hlen := h.len
  have hexp := h.expanded
  have hfields : DeflateFields data pre.length c offset := by
    rw [hdata]
    exact deflateFields_record h.type (by omega) (by omega) (by omega) (by omega) h.params
  have hinfl : patchInflated H.toLibs srcImg (blobValue data) c.sourceStart c.sourceLen offset
      c.sourceUncompressedLen = .failed := by
    simp only [patchInflated, inflateRange, hstart, hlen, Nat.zero_mod, List.take_zero, hempty,
      lt_irrefl, false_and, if_false]
    cases H.inflateStarved [] <;> rfl
  exact (readChunk_deflate hdata h.type hfields (by omega) (by omega) hoffset hexp hinfl).1 rfl

/-! ## All records -/

/-- The records of a patch, with the regions they restore. -/
inductive RestoresAll (H : HostLibs) (srcImg : Bytes) :
    List (ImageChunk × Bytes) → Bytes → Prop where
  | nil : RestoresAll H srcImg [] []
  | cons {c : ImageChunk} {patch region rest : Bytes} {es : List (ImageChunk × Bytes)}
      (head : Restores H srcImg c patch region) (tail : RestoresAll H srcImg es rest) :
      RestoresAll H srcImg ((c, patch) :: es) (region ++ rest)

/-- A broken record comes after records that restore their regions. -/
inductive BreaksOff (H : HostLibs) (srcImg : Bytes) : List (ImageChunk × Bytes) → Prop where
  | here {c : ImageChunk} {patch : Bytes} {es : List (ImageChunk × Bytes)} (head : Broken c) :
      BreaksOff H srcImg ((c, patch) :: es)
  | later {c : ImageChunk} {patch region : Bytes} {es : List (ImageChunk × Bytes)}
      (head : Restores H srcImg c patch region) (tail : BreaksOff H srcImg es) :
      BreaksOff H srcImg ((c, patch) :: es)

/-- The records `es` stand at `pos` of `data`, and their patches at `offset`. -/
structure LaidOut (data : Bytes) (pos offset : Nat) (es : List (ImageChunk × Bytes)) : Prop where
  header : ∃ pre post, data = pre ++ (records offset es ++ post) ∧ pos = pre.length
  body : ∃ before after, data = before ++ (trailers es ++ after) ∧ offset = before.length

theorem LaidOut.tail {data : Bytes} {pos offset : Nat} {c : ImageChunk} {patch : Bytes}
    {es : List (ImageChunk × Bytes)} (h : LaidOut data pos offset ((c, patch) :: es)) :
    LaidOut data (pos + recordSize c patch) (offset + (trailer c patch).length) es where
  header := by
    obtain ⟨pre, post, hdata, rfl⟩ := h.header
    refine ⟨pre ++ record offset c patch, post, ?_, ?_⟩
    · rw [hdata, records]
      simp only [List.append_assoc]
    · rw [List.length_append, length_record]
  body := by
    obtain ⟨before, after, hdata, rfl⟩ := h.body
    refine ⟨before ++ trailer c patch, after, ?_, ?_⟩
    · rw [hdata, trailers, List.flatMap_cons]
      simp only [trailers, List.append_assoc]
    · rw [List.length_append]

/-- The decoder goes through the records one by one. -/
theorem loopPieces_restores {H : HostLibs} (hbz : Bzip2 H) {srcImg : Bytes}
    (hsrc : srcImg.length < 2 ^ 31) {data : Bytes} (hsmall : data.length < 2 ^ 31)
    {es : List (ImageChunk × Bytes)} {tgt : Bytes} (h : RestoresAll H srcImg es tgt)
    {pos offset : Nat} (hout : LaidOut data pos offset es) :
    ∃ ps, loopPieces H.toLibs srcImg (blobValue data) data es.length pos = (ps, .done) ∧
      (ps.map Piece.data).flatten = tgt := by
  induction h generalizing pos offset with
  | nil => exact ⟨[], rfl, rfl⟩
  | @cons c patch region rest es head tail ih =>
      obtain ⟨pre, post, hdata, rfl⟩ := hout.header
      obtain ⟨before, after, hbody, rfl⟩ := hout.body
      rw [records, List.append_assoc] at hdata
      rw [trailers, List.flatMap_cons, List.append_assoc] at hbody
      obtain ⟨chunk, ps, hread, hps, hregion⟩ := chunkPieces_restores hbz hsrc head hdata hbody
        hsmall
      obtain ⟨qs, hqs, hrest⟩ := ih hout.tail
      refine ⟨ps ++ qs, ?_, ?_⟩
      · simp only [List.length_cons, loopPieces, hread, hps, hqs]
      · rw [List.map_append, List.flatten_append, hregion, hrest]

theorem loopPieces_breaksOff {H : HostLibs} (hbz : Bzip2 H) (hempty : H.inflate [] = none)
    {srcImg : Bytes} (hsrc : srcImg.length < 2 ^ 31) {data : Bytes} (hsmall : data.length < 2 ^ 31)
    {es : List (ImageChunk × Bytes)} (h : BreaksOff H srcImg es)
    {pos offset : Nat} (hout : LaidOut data pos offset es) :
    (loopPieces H.toLibs srcImg (blobValue data) data es.length pos).2 = .failed := by
  induction h generalizing pos offset with
  | @here c patch es head =>
      obtain ⟨pre, post, hdata, rfl⟩ := hout.header
      obtain ⟨before, after, hbody, rfl⟩ := hout.body
      rw [records, List.append_assoc] at hdata
      have hoffset : before.length ≤ data.length := by
        rw [hbody, List.length_append]
        omega
      simp only [List.length_cons, loopPieces, readChunk_broken hempty head hdata (by omega)]
  | @later c patch region es head tail ih =>
      obtain ⟨pre, post, hdata, rfl⟩ := hout.header
      obtain ⟨before, after, hbody, rfl⟩ := hout.body
      rw [records, List.append_assoc] at hdata
      rw [trailers, List.flatMap_cons, List.append_assoc] at hbody
      obtain ⟨chunk, ps, hread, hps, -⟩ := chunkPieces_restores hbz hsrc head hdata hbody hsmall
      have htail := ih hout.tail
      simp only [List.length_cons, loopPieces, hread, hps]
      exact htail

/-! ## The whole patch -/

theorem length_records (offset : Nat) (es : List (ImageChunk × Bytes)) :
    (records offset es).length = (es.map fun e => recordSize e.1 e.2).sum := by
  induction es generalizing offset with
  | nil => rfl
  | cons e es ih => simp only [records, List.length_append, length_record, ih, List.map_cons,
      List.sum_cons]

theorem laidOut_imagePatch (es : List (ImageChunk × Bytes)) :
    LaidOut (imagePatch es) 12 (totalHeaderSize es) es where
  header := by
    refine ⟨cstr "IMGDIFF2" ++ write4 es.length, trailers es, ?_, rfl⟩
    rw [imagePatch, List.append_assoc]
  body := by
    refine ⟨cstr "IMGDIFF2" ++ (write4 es.length ++ records (totalHeaderSize es) es), [], ?_, ?_⟩
    · rw [imagePatch]
      simp only [List.append_assoc, List.append_nil]
    · rw [List.length_append, List.length_append, length_records, totalHeaderSize, ← add_assoc]
      rfl

theorem length_le_imagePatch (es : List (ImageChunk × Bytes)) :
    12 + es.length ≤ (imagePatch es).length := by
  have hsum : es.length ≤ (es.map fun e => recordSize e.1 e.2).sum := by
    induction es with
    | nil => exact Nat.le_refl _
    | cons e es ih =>
        rw [List.map_cons, List.sum_cons, List.length_cons]
        have : 4 ≤ recordSize e.1 e.2 := Nat.le_add_right _ _
        omega
  have hmagic : (cstr "IMGDIFF2").length = 8 := rfl
  simp only [imagePatch, List.length_append, length_records, length_write4, hmagic]
  omega

/-- The decoder finds the header, and then goes through the records. -/
theorem imagePieces_imagePatch (L : Libs) (srcImg : Bytes) {es : List (ImageChunk × Bytes)}
    (hsmall : (imagePatch es).length < 2 ^ 31) :
    imagePieces L srcImg (blobValue (imagePatch es)) =
      loopPieces L srcImg (blobValue (imagePatch es)) (imagePatch es) es.length (12 : Nat) := by
  have hle := length_le_imagePatch es
  have hsize : ¬ (((imagePatch es).length : Int) < 12) := by omega
  have hmagic : slice (imagePatch es) 0 8 = some (cstr "IMGDIFF2") :=
    slice_append [] (cstr "IMGDIFF2") _ 0 8 rfl rfl
  have hcount : read4 (imagePatch es) 8 = some (es.length : Int) :=
    read4_write4 (cstr "IMGDIFF2") _ 8 es.length rfl (by omega) (by omega)
  simp only [imagePieces, blobValue, hsize, if_false, hmagic, hcount, ne_eq, not_true_eq_false,
    Int.toNat_natCast]
  rfl

/-- A sink that takes everything, and has what it was given. -/
def collect : Sink Bytes := fun taken data => return (data.length, taken ++ data)

theorem emit_collect (ps : List Piece) (taken ctx : Bytes) :
    emit collect ps .done taken ctx =
      return (0, taken ++ (ps.map Piece.data).flatten, ctx ++ (ps.map Piece.data).flatten) := by
  induction ps generalizing taken ctx with
  | nil => simp [emit]
  | cons p ps ih =>
      cases p with
      | normal d => simp [emit, collect, ih, Piece.data]
      | raw d => simp [emit, collect, ih, Piece.data]
      | block d => simp [emit, collect, ih, Piece.data]

theorem emit_collect_failed (ps : List Piece) (taken ctx : Bytes) :
    ∃ t c, emit collect ps .failed taken ctx = return (-1, t, c) := by
  induction ps generalizing taken ctx with
  | nil => exact ⟨taken, ctx, rfl⟩
  | cons p ps ih =>
      cases p with
      | normal d => simpa [emit, collect] using ih (taken ++ d) (ctx ++ d)
      | raw d => simpa [emit, collect] using ih (taken ++ d) (ctx ++ d)
      | block d => simpa [emit, collect] using ih (taken ++ d) (ctx ++ d)

/-- A patch whose records restore all of the target is applied with success, and the sink gets the
target. -/
theorem applyImagePatch_restores {H : HostLibs} (hbz : Bzip2 H) {srcImg tgtImg : Bytes}
    (hsrc : srcImg.length < 2 ^ 31) {es : List (ImageChunk × Bytes)}
    (h : RestoresAll H srcImg es tgtImg) (hsmall : (imagePatch es).length < 2 ^ 31) :
    applyImagePatch collect H.toLibs srcImg (blobValue (imagePatch es)) [] [] =
      return (0, tgtImg, tgtImg) := by
  obtain ⟨ps, hps, htgt⟩ := loopPieces_restores hbz hsrc hsmall h (laidOut_imagePatch es)
  rw [applyImagePatch_eq_emit, imagePieces_imagePatch _ _ hsmall, hps, emit_collect, htgt]
  rfl

/-- A patch with a broken record is not applied. -/
theorem applyImagePatch_breaksOff {H : HostLibs} (hbz : Bzip2 H) (hempty : H.inflate [] = none)
    {srcImg : Bytes} (hsrc : srcImg.length < 2 ^ 31) {es : List (ImageChunk × Bytes)}
    (h : BreaksOff H srcImg es) (hsmall : (imagePatch es).length < 2 ^ 31) :
    ∃ t c, applyImagePatch collect H.toLibs srcImg (blobValue (imagePatch es)) [] [] =
      return (-1, t, c) := by
  have hend := loopPieces_breaksOff hbz hempty hsrc hsmall h (laidOut_imagePatch es)
  rw [applyImagePatch_eq_emit, imagePieces_imagePatch _ _ hsmall, hend]
  exact emit_collect_failed _ _ _

end OpenRecovery.ImgDiff
