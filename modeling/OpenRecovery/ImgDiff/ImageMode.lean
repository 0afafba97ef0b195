import OpenRecovery.ImgDiff.Tiling

/-!
# Image mode round-trips

In image mode chunk number `i` of the source is patched into chunk number `i` of the target. The
loop of `main` demotes the two chunks of a pair together, and merging acts on the types alone, so
the two type sequences stay equal and every patch is made from a chunk of the same type. The records
then restore the target chunk by chunk (`patchPairs_spec`).
-/

set_option autoImplicit false

namespace OpenRecovery.ImgDiff

open OpenRecovery.Crash OpenRecovery.ApplyPatch OpenRecovery.Edify OpenRecovery.Storage

section ImageMode

variable {H : HostLibs} {qsufsort : (old : Bytes) → SuffixIndex old} {srcImg tgtImg : Bytes}

/-- What a pass of the loop guarantees for a pair. -/
structure PairKept (H : HostLibs) (srcImg tgtImg : Bytes) (p q : Nat)
    (src tgt src' tgt' : ImageChunk) : Prop where
  src_fits : Fits H.toLibs srcImg p src'
  tgt_fits : Fits H.toLibs tgtImg q tgt'
  src_extent : src'.extent = src.extent
  tgt_extent : tgt'.extent = tgt.extent
  src_index : src'.I = src.I
  types : src'.type = tgt'.type
  reconstructs : tgt'.type = .deflate → Reconstructs H.toLibs tgtImg tgt'

/-- Both chunks of a pair demoted. -/
theorem pairKept_demoted {p q : Nat} {src tgt : ImageChunk} (hs : Fits H.toLibs srcImg p src)
    (ht : Fits H.toLibs tgtImg q tgt) (htype : src.type = tgt.type) (params : DeflateParams) :
    PairKept H srcImg tgtImg p q src tgt (changeDeflateChunkToNormal src)
      (changeDeflateChunkToNormal { tgt with params := params }) where
  src_fits := hs.changeToNormal
  tgt_fits := (ht.withParams params).changeToNormal
  src_extent := extent_changeToNormal src
  tgt_extent := extent_changeToNormal { tgt with params := params }
  src_index := index_changeToNormal src
  types := by rw [type_changeToNormal, type_changeToNormal, htype]
  reconstructs h := by
    rw [type_changeToNormal] at h
    split at h
    · cases h
    · rename_i hne
      exact absurd h hne

theorem demotePair_spec {p q : Nat} {src tgt src' tgt' : ImageChunk}
    (hs : Fits H.toLibs srcImg p src) (ht : Fits H.toLibs tgtImg q tgt)
    (htype : src.type = tgt.type)
    (h : demotePair H srcImg tgtImg src tgt = some (src', tgt')) :
    PairKept H srcImg tgtImg p q src tgt src' tgt' := by
  unfold demotePair at h
  split at h
  · rename_i hd
    simp only [Option.bind_eq_bind, Option.bind_eq_some_iff] at h
    obtain ⟨⟨ok, tgt₁⟩, hrec, h⟩ := h
    -- whatever comes of it, only the parameters of the target have changed
    obtain ⟨params, rfl, hok⟩ := reconstructDeflateChunk_spec hd hrec
    cases ok with
    | false =>
        cases h
        exact pairKept_demoted hs ht htype params
    | true =>
        simp only [Bool.not_true, Bool.false_eq_true, if_false, Option.bind_eq_some_iff] at h
        obtain ⟨equal, -, h⟩ := h
        cases equal with
        | true =>
            cases h
            exact pairKept_demoted hs ht htype params
        | false =>
            cases h
            exact ⟨hs, ht.withParams params, rfl, rfl, rfl, htype, fun _ => hok rfl⟩
  · rename_i hd
    cases h
    exact ⟨hs, ht, rfl, rfl, rfl, htype, fun h => absurd h hd⟩

/-- The two lists after the loop: still tilings, with the same types, and every target chunk that
is still a deflate chunk can be reconstructed. -/
structure Kept (H : HostLibs) (srcImg tgtImg : Bytes) (p f q g : Nat)
    (srcs tgts : List ImageChunk) : Prop where
  src_tiles : Tiles H.toLibs srcImg p srcs f
  tgt_tiles : Tiles H.toLibs tgtImg q tgts g
  types : srcs.map ImageChunk.type = tgts.map ImageChunk.type
  fresh : ∀ c ∈ srcs, c.I = none
  reconstructs : ∀ c ∈ tgts, c.type = .deflate → Reconstructs H.toLibs tgtImg c

theorem demotePairs_spec {p f q g : Nat} {srcs tgts srcs' tgts' : List ImageChunk}
    (hs : Tiles H.toLibs srcImg p srcs f) (ht : Tiles H.toLibs tgtImg q tgts g)
    (htypes : srcs.map ImageChunk.type = tgts.map ImageChunk.type) (hI : ∀ c ∈ srcs, c.I = none)
    (h : demotePairs H srcImg tgtImg srcs tgts = some (srcs', tgts')) :
    Kept H srcImg tgtImg p f q g srcs' tgts' := by
  induction tgts generalizing srcs p q srcs' tgts' with
  | nil =>
      obtain rfl : srcs = [] := by simpa using htypes
      cases h
      exact ⟨hs, ht, rfl, hI, fun c hc => by cases hc⟩
  | cons tgt tgts ih =>
      cases srcs with
      | nil => simp at htypes
      | cons src srcs =>
          rw [List.map_cons, List.map_cons, List.cons.injEq] at htypes
          simp only [demotePairs, Option.bind_eq_bind, Option.bind_eq_some_iff] at h
          obtain ⟨⟨src₁, tgt₁⟩, hpair, ⟨srcs₁, tgts₁⟩, hrest, h⟩ := h
          cases h
          cases hs with
          | cons hsrc hsrcs =>
              cases ht with
              | cons htgt htgts =>
                  have hkept := demotePair_spec hsrc htgt htypes.1 hpair
                  have hlist := ih hsrcs htgts htypes.2 (fun c hc => hI c (.tail _ hc)) hrest
                  constructor
                  case src_tiles =>
                    refine .cons hkept.src_fits ?_
                    rw [hkept.src_extent]
                    exact hlist.src_tiles
                  case tgt_tiles =>
                    refine .cons hkept.tgt_fits ?_
                    rw [hkept.tgt_extent]
                    exact hlist.tgt_tiles
                  case types => rw [List.map_cons, List.map_cons, hkept.types, hlist.types]
                  case fresh =>
                    intro c hc
                    rcases List.mem_cons.mp hc with rfl | hc
                    · rw [hkept.src_index]
                      exact hI src (.head _)
                    · exact hlist.fresh c hc
                  case reconstructs =>
                    intro c hc
                    rcases List.mem_cons.mp hc with rfl | hc
                    · exact hkept.reconstructs
                    · exact hlist.reconstructs c hc

/-- Merging both lists keeps the pairs. -/
theorem Kept.merged {p f q g : Nat} {srcs tgts : List ImageChunk}
    (h : Kept H srcImg tgtImg p f q g srcs tgts) :
    Kept H srcImg tgtImg p f q g (mergeAdjacentNormalChunks srcs)
      (mergeAdjacentNormalChunks tgts) where
  src_tiles := tiles_mergeAdjacentNormalChunks h.src_tiles
  tgt_tiles := tiles_mergeAdjacentNormalChunks h.tgt_tiles
  types := by
    rw [types_mergeAdjacentNormalChunks h.src_tiles, types_mergeAdjacentNormalChunks h.tgt_tiles,
      h.types]
  fresh c hc := by
    obtain ⟨e, he, hI, -⟩ := mem_mergeAdjacentNormalChunks hc
    rw [hI]
    exact h.fresh e he
  reconstructs c hc hd := by
    obtain ⟨e, he, -, heq⟩ := mem_mergeAdjacentNormalChunks hc
    -- merging makes normal chunks only: a deflate chunk is one from before
    obtain rfl := heq hd
    exact h.reconstructs c he hd

/-- The patches of paired chunks restore the target. -/
theorem patchPairs_spec (hsrc : srcImg.length < 2 ^ 31) (htgt : tgtImg.length < 2 ^ 31)
    {p f q g : Nat} {srcs tgts : List ImageChunk} (h : Kept H srcImg tgtImg p f q g srcs tgts)
    {es : List (ImageChunk × Bytes)}
    (hes : patchPairs H qsufsort srcImg tgtImg srcs tgts = some es) :
    RestoresAll H srcImg es ((tgtImg.drop q).take (g - q)) := by
  induction tgts generalizing srcs p q es with
  | nil =>
      cases h.tgt_tiles
      rw [patchPairs] at hes
      cases hes
      rw [Nat.sub_self, List.take_zero]
      exact .nil
  | cons tgt tgts ih =>
      cases srcs with
      | nil => exact absurd h.types (by simp)
      | cons src srcs =>
          have htypes := h.types
          rw [List.map_cons, List.map_cons, List.cons.injEq] at htypes
          simp only [patchPairs, Option.bind_eq_bind, Option.bind_eq_some_iff] at hes
          obtain ⟨⟨patch, src', tgt'⟩, hmake, es', hrest, hes⟩ := hes
          cases hes
          cases h.src_tiles with
          | cons hs hss =>
              cases h.tgt_tiles with
              | cons ht hts =>
                  -- no source chunk has an array of an earlier call
                  obtain ⟨patch₁, I, tgt₁, hmake₁, -, hrestores, -⟩ := @makePatch_spec H qsufsort
                    srcImg tgtImg src tgt p q hsrc htgt hs ht
                    (indexFits_none (h.fresh src (.head _)))
                  rw [hmake] at hmake₁
                  cases hmake₁
                  have hhead := hrestores htypes.1 (h.reconstructs tgt (.head _))
                  have htail := ih ⟨hss, hts, htypes.2, fun c hc => h.fresh c (.tail _ hc),
                    fun c hc => h.reconstructs c (.tail _ hc)⟩ hrest
                  -- the target from `q` on is this chunk and then the rest
                  rw [take_drop_split tgtImg hts.le]
                  exact .cons hhead htail

end ImageMode

/-- If `imgdiff` writes a patch for two images, `ApplyImagePatch` turns the source image into the
target image with it. The chunk lists are any that tile the images. -/
theorem imgdiffImages_round_trip (H : HostLibs) (hbz : Bzip2 H)
    (qsufsort : (old : Bytes) → SuffixIndex old) {srcImg tgtImg : Bytes}
    {srcs tgts : List ImageChunk} (hs : Tiles H.toLibs srcImg 0 srcs srcImg.length)
    (ht : Tiles H.toLibs tgtImg 0 tgts tgtImg.length) (hfresh : ∀ c ∈ srcs, c.I = none)
    (hsrc : srcImg.length < 2 ^ 31) (htgt : tgtImg.length < 2 ^ 31) {P : Bytes}
    (h : imgdiffImages H qsufsort srcImg tgtImg srcs tgts = some (.wrote P))
    (hP : P.length < 2 ^ 31) :
    applyImagePatch collect H.toLibs srcImg (blobValue P) [] [] = return (0, tgtImg, tgtImg) := by
  unfold imgdiffImages at h
  simp only at h
  split at h
  · cases h
  · split at h
    · cases h
    · rename_i htypes
      rw [ne_eq, not_not] at htypes
      simp only [Option.bind_eq_bind, Option.bind_eq_some_iff] at h
      obtain ⟨⟨srcs₁, tgts₁⟩, hdemote, h⟩ := h
      have hfresh' : ∀ c ∈ mergeAdjacentNormalChunks srcs, c.I = none := by
        intro c hc
        obtain ⟨e, he, hI, -⟩ := mem_mergeAdjacentNormalChunks hc
        rw [hI]
        exact hfresh e he
      have hkept := (demotePairs_spec (tiles_mergeAdjacentNormalChunks hs)
        (tiles_mergeAdjacentNormalChunks ht) htypes hfresh' hdemote).merged
      split at h
      · cases h
      · simp only [Option.bind_eq_some_iff] at h
        obtain ⟨es, hes, h⟩ := h
        cases h
        have hall := patchPairs_spec hsrc htgt hkept hes
        rw [List.drop_zero, Nat.sub_zero, List.take_length] at hall
        exact applyImagePatch_restores hbz hsrc hall hP

/-! ## A sample image -/

namespace Sample

/-- Data and its raw deflate stream, the same at levels 6 and 9. -/
abbrev ZTable := List (Bytes × Bytes)

/-- Inflate a buffer that begins with a stream of the table. -/
def zInflate (z : ZTable) (y : Bytes) : Option (Bytes × Nat) :=
  (z.find? fun e => e.2.isPrefixOf y).map fun e => (e.1, e.2.length)

/-- Libraries with the streams of two tables. -/
def hostWith (t : BzTable) (z : ZTable) : HostLibs :=
  { host t with
    inflate := zInflate z
    deflate := fun _ d => some ((z.lookup d).getD []) }

theorem hostWith_bzip2 {t : BzTable} (ht : Sound t) (z : ZTable) : Bzip2 (hostWith t z) where
  inverse := (host_bzip2 ht).inverse
  length_le := (host_bzip2 ht).length_le

/-- A normal chunk. The fields the readers leave unset are 0. -/
def normalChunk (start len : Nat) : ImageChunk :=
  ⟨.normal, start, len, .file start, 0, 0, none, 0, 0, none, ⟨0, 0, 0, 0, 0⟩, 0⟩

/-- A deflate chunk. -/
def deflateChunk (filename : Option Name) (start deflateLen : Nat) (d : Bytes) : ImageChunk :=
  ⟨.deflate, start, d.length, .buffer d, 0, 0, none, deflateLen, start, filename, ⟨0, 0, 0, 0, 0⟩,
    0⟩

def srcData : Bytes := List.replicate 24 0x61

def tgtData : Bytes := List.replicate 24 0x61 ++ [0x62]

def zStreams : ZTable :=
  [(srcData, [0x4b, 0x4c, 0xc4, 0x0e, 0x00]), (tgtData, [0x4b, 0x4c, 0xc4, 0x0e, 0x92, 0x00])]

def bzStreams : BzTable :=
  [(controlBytes [⟨24, 1, -24⟩],
    [0x42, 0x5a, 0x68, 0x39, 0x31, 0x41, 0x59, 0x26, 0x53, 0x59, 0xfa, 0x7e, 0xc0, 0x51, 0x00,
      0x00, 0x08, 0xe0, 0x40, 0x78, 0x00, 0x00, 0x40, 0x40, 0x00, 0x20, 0x00, 0x21, 0x21, 0x32,
      0x0c, 0x02, 0x92, 0x20, 0xad, 0x3d, 0xbc, 0x5d, 0xc9, 0x14, 0xe1, 0x42, 0x43, 0xe9, 0xfb,
      0x01, 0x44]),
    (List.replicate 24 0,
    [0x42, 0x5a, 0x68, 0x39, 0x31, 0x41, 0x59, 0x26, 0x53, 0x59, 0x04, 0x53, 0x83, 0xc5, 0x00,
      0x00, 0x00, 0x60, 0x00, 0x40, 0x00, 0x04, 0x00, 0x20, 0x00, 0x21, 0x00, 0x82, 0x83, 0x17,
      0x72, 0x45, 0x38, 0x50, 0x90, 0x04, 0x53, 0x83, 0xc5]),
    ([0x62],
    [0x42, 0x5a, 0x68, 0x39, 0x31, 0x41, 0x59, 0x26, 0x53, 0x59, 0x14, 0xd0, 0xbd, 0xb2, 0x00,
      0x00, 0x00, 0x01, 0x00, 0x10, 0x00, 0x20, 0x00, 0x21, 0x18, 0x46, 0x82, 0xee, 0x48, 0xa7,
      0x0a, 0x12, 0x02, 0x9a, 0x17, 0xb6, 0x40])]

/-- A gzip member. -/
def srcImage : Bytes :=
  [0x1f, 0x8b, 0x08, 0x00, 0x00, 0x00, 0x00, 0x00, 0x00, 0x03, 0x4b, 0x4c, 0xc4, 0x0e, 0x00,
    0x84, 0x7a, 0x02, 0xe6, 0x18, 0x00, 0x00, 0x00]

def tgtImage : Bytes :=
  [0x1f, 0x8b, 0x08, 0x00, 0x00, 0x00, 0x00, 0x00, 0x00, 0x03, 0x4b, 0x4c, 0xc4, 0x0e, 0x92,
    0x00, 0xba, 0xaa, 0x8d, 0x9b, 0x19, 0x00, 0x00, 0x00]

def srcChunks : List ImageChunk :=
  [normalChunk 0 10, deflateChunk none 10 5 srcData, normalChunk 15 8]

def tgtChunks : List ImageChunk :=
  [normalChunk 0 10, deflateChunk none 10 6 tgtData, normalChunk 16 8]

/-- The patch between the two. -/
def gzipPatch : Bytes :=
  match imgdiffImages (hostWith bzStreams zStreams) suffixArray srcImage tgtImage srcChunks
    tgtChunks with
  | some (.wrote P) => P
  | _ => []

/-- Two images of one gzip member each. -/
theorem imgdiffImages_round_trip_gzip :
    imgdiffImages (hostWith bzStreams zStreams) suffixArray srcImage tgtImage srcChunks tgtChunks =
      some (.wrote gzipPatch) ∧
    applyImagePatch collect (hostWith bzStreams zStreams).toLibs srcImage (blobValue gzipPatch)
      [] [] = return (0, tgtImage, tgtImage) := by
  have hwrote : imgdiffImages (hostWith bzStreams zStreams) suffixArray srcImage tgtImage srcChunks
      tgtChunks = some (.wrote gzipPatch) := by decide +kernel
  have hs : Tiles (hostWith bzStreams zStreams).toLibs srcImage 0 srcChunks srcImage.length :=
    .cons (.normal rfl rfl rfl (by decide)) (.cons
      (.deflate (n := 5) rfl rfl rfl (by decide) rfl rfl (by decide) (by decide)) (.cons
        (.normal rfl rfl rfl (by decide)) (.nil 23)))
  have ht : Tiles (hostWith bzStreams zStreams).toLibs tgtImage 0 tgtChunks tgtImage.length :=
    .cons (.normal rfl rfl rfl (by decide)) (.cons
      (.deflate (n := 6) rfl rfl rfl (by decide) rfl rfl (by decide) (by decide)) (.cons
        (.normal rfl rfl rfl (by decide)) (.nil 24)))
  exact ⟨hwrote, imgdiffImages_round_trip (hostWith bzStreams zStreams)
    (hostWith_bzip2 (by decide +kernel) zStreams) suffixArray hs ht (by decide) (by decide)
    (by decide) hwrote (by decide +kernel)⟩

end Sample

end OpenRecovery.ImgDiff
