import OpenRecovery.ApplyPatch.SinkSpec
import OpenRecovery.ImgDiff.ReadImage
import OpenRecovery.ImgDiff.ReadZip
import OpenRecovery.ImgDiff.ZipMode
import Mathlib.Order.CompletePartialOrder

/-!
# From two files to a patch that applies

`imgdiff` is `main` of `applypatch/imgdiff.c` on the contents of two files: both are broken apart,
and the patch is made from the chunks. What the readers guarantee of their chunks is what the round
trip of the chunk lists asks for, so a patch that `imgdiff` writes turns the one file into the other
in `applypatch`.

For two sound images `imgdiff` always returns: with a patch, or with status 1 because the footer of
a gzip member is wrong or the two images have different structures (`imgdiff_images`). For two sound
archives, of which the target has no name twice, it returns with a patch (`imgdiff_archives`).
-/

set_option autoImplicit false

namespace OpenRecovery.ImgDiff

open OpenRecovery.Crash OpenRecovery.ApplyPatch OpenRecovery.ApplyPatch.Access OpenRecovery.Edify
  OpenRecovery.Storage

/-! ## The function -/

/-- What is not in the source, for one of the two files: when `inflate` sees that a stream has
ended, and what `ReadZip` needs. The memory that chunks are made in is part of that. A buffer has
the length that it was asked for. -/
structure Runtime where
  late : Nat → Bool
  zip : ZipRuntime
  length_fresh : ∀ n, (zip.fresh n).length = n

/-- How `main` returns: `failed` is status 1. A fault is also a `deflate` that never ends. -/
def Exit.result : Option Exit → Decode Bytes
  | none => .fault
  | some .failed => .failed
  | some (.wrote patch) => .ok patch

section Main

variable (H : HostLibs) (qsufsort : (old : Bytes) → SuffixIndex old) (src tgt : Runtime) (fuel : Nat)

/-- `main` with the contents of the source file and of the target file: the patch file. -/
def imgdiff (zipMode : Bool) (srcImg tgtImg : Bytes) : Decode Bytes :=
  if zipMode then do
    let (first, srcs) ← readZip H.toLibs src.zip srcImg true fuel
    let (_, tgts) ← readZip H.toLibs tgt.zip tgtImg false fuel
    Exit.result (imgdiffZips H qsufsort srcImg tgtImg (first ++ srcs) tgts)
  else do
    let srcs ← readImage H.toLibs src.late src.zip.unset srcImg fuel
    let tgts ← readImage H.toLibs tgt.late tgt.zip.unset tgtImg fuel
    Exit.result (imgdiffImages H qsufsort srcImg tgtImg srcs tgts)

end Main

/-! ## The patch file and `applypatch` -/

/-- A patch whose records restore the target is an image patch to `applypatch`, and turns the source
into the target. -/
theorem turns_imagePatch {H : HostLibs} (hbz : Bzip2 H) {srcImg tgtImg : Bytes}
    (hsrc : srcImg.length < 2 ^ 31) {es : List (ImageChunk × Bytes)}
    (h : RestoresAll H srcImg es tgtImg) (hsmall : (imagePatch es).length < 2 ^ 31) :
    Turns H.toLibs (blobValue (imagePatch es)) srcImg tgtImg := by
  have hle := length_le_imagePatch es
  have hsize : ¬ (((imagePatch es).length : Int) < 8) := by omega
  have hslice : slice (imagePatch es) 0 8 = some (cstr "IMGDIFF2") :=
    slice_append [] (cstr "IMGDIFF2") _ 0 8 rfl rfl
  have hmagic : ∀ magic, hasMagic (blobValue (imagePatch es)) magic =
      some (decide (cstr "IMGDIFF2" = magic)) := by
    intro magic
    simp only [hasMagic, blobValue, hsize, if_false, hslice, Option.map_some]
  have hbs : hasMagic (blobValue (imagePatch es)) (cstr "BSDIFF40") = some false :=
    hmagic _
  have himg : hasMagic (blobValue (imagePatch es)) (cstr "IMGDIFF2") = some true :=
    hmagic _
  have happly := applyImagePatch_restores hbz hsrc h hsmall
  simp only [Turns, applyBlob, hbs, himg]
  show (applyImagePatch collect H.toLibs srcImg (blobValue (imagePatch es)) [] []).bind _ = _
  rw [happly]
  rfl

/-! ## Image mode -/

section Images

variable {H : HostLibs} {qsufsort : (old : Bytes) → SuffixIndex old} {srcImg tgtImg : Bytes}

theorem demotePairs_isSome (hz : Zlib H.toLibs) {p f q g : Nat} {srcs tgts : List ImageChunk}
    (hs : Tiles H.toLibs srcImg p srcs f) (ht : Tiles H.toLibs tgtImg q tgts g)
    (htypes : srcs.map ImageChunk.type = tgts.map ImageChunk.type) :
    ∃ srcs' tgts', demotePairs H srcImg tgtImg srcs tgts = some (srcs', tgts') := by
  induction tgts generalizing srcs p q with
  | nil => exact ⟨srcs, [], by cases srcs <;> rfl⟩
  | cons tgt tgts ih =>
      cases srcs with
      | nil => simp at htypes
      | cons src srcs =>
          rw [List.map_cons, List.map_cons, List.cons.injEq] at htypes
          cases hs with
          | cons hsrc hsrcs =>
              cases ht with
              | cons htgt htgts =>
                  obtain ⟨srcs', tgts', hrest⟩ := ih hsrcs htgts htypes.2
                  have hpair : ∃ x, demotePair H srcImg tgtImg src tgt = some x := by
                    unfold demotePair
                    split
                    next hd =>
                      obtain ⟨ok, tgt', hrec⟩ := reconstructDeflateChunk_isSome hz htgt
                      obtain ⟨params, rfl, -⟩ := reconstructDeflateChunk_spec hd hrec
                      -- both chunks of the pair are deflate chunks, so they can be compared
                      have hequal := areChunksEqual_deflate (a := { tgt with params := params }) hd
                        (htypes.1.trans hd)
                        ((htgt.withParams params).deflateBytes_deflate hd)
                        (hsrc.deflateBytes_deflate (htypes.1.trans hd))
                      simp only [hrec, hequal, Option.bind_eq_bind, Option.bind_some]
                      split
                      next => exact ⟨_, rfl⟩
                      next =>
                        split
                        next => exact ⟨_, rfl⟩
                        next => exact ⟨_, rfl⟩
                    next => exact ⟨_, rfl⟩
                  obtain ⟨⟨src', tgt'⟩, hpair⟩ := hpair
                  refine ⟨src' :: srcs', tgt' :: tgts', ?_⟩
                  simp only [demotePairs, hpair, hrest, Option.bind_eq_bind, Option.bind_some]
                  rfl

theorem patchPairs_isSome (hsrc : srcImg.length < 2 ^ 31) (htgt : tgtImg.length < 2 ^ 31)
    {p f q g : Nat} {srcs tgts : List ImageChunk} (h : Kept H srcImg tgtImg p f q g srcs tgts) :
    ∃ es, patchPairs H qsufsort srcImg tgtImg srcs tgts = some es := by
  induction tgts generalizing srcs p q with
  | nil => exact ⟨[], by cases srcs <;> rfl⟩
  | cons tgt tgts ih =>
      cases srcs with
      | nil => exact absurd h.types (by simp)
      | cons src srcs =>
          have htypes := h.types
          rw [List.map_cons, List.map_cons, List.cons.injEq] at htypes
          cases h.src_tiles with
          | cons hs hss =>
              cases h.tgt_tiles with
              | cons ht hts =>
                  obtain ⟨patch, I, tgt', hmake, -⟩ := @makePatch_spec H qsufsort srcImg tgtImg src
                    tgt p q hsrc htgt hs ht (indexFits_none (h.fresh src (.head _)))
                  obtain ⟨es, hes⟩ := ih ⟨hss, hts, htypes.2, fun c hc => h.fresh c (.tail _ hc),
                    fun c hc => h.reconstructs c (.tail _ hc)⟩
                  refine ⟨(tgt', patch) :: es, ?_⟩
                  simp only [patchPairs, hmake, hes, Option.bind_eq_bind, Option.bind_some]
                  rfl

/-- The order of the types of a chunk list, once neighbouring normal chunks are one. -/
def structureOf (cs : List ImageChunk) : List ChunkType := squash (cs.map ImageChunk.type)

/-- Chunk lists of one structure give a patch that restores the target, and any others the status
1. -/
theorem imgdiffImages_spec (hz : Zlib H.toLibs) {srcs tgts : List ImageChunk}
    (hs : Tiles H.toLibs srcImg 0 srcs srcImg.length)
    (ht : Tiles H.toLibs tgtImg 0 tgts tgtImg.length) (hfresh : ∀ c ∈ srcs, c.I = none)
    (hsrc : srcImg.length < 2 ^ 31) (htgt : tgtImg.length < 2 ^ 31) :
    (structureOf srcs = structureOf tgts ∧
      ∃ es, imgdiffImages H qsufsort srcImg tgtImg srcs tgts = some (.wrote (imagePatch es)) ∧
        RestoresAll H srcImg es tgtImg) ∨
    structureOf srcs ≠ structureOf tgts ∧
      imgdiffImages H qsufsort srcImg tgtImg srcs tgts = some .failed := by
  have hms := types_mergeAdjacentNormalChunks hs
  have hmt := types_mergeAdjacentNormalChunks ht
  by_cases hsame : structureOf srcs = structureOf tgts
  · have htypes : (mergeAdjacentNormalChunks srcs).map ImageChunk.type =
        (mergeAdjacentNormalChunks tgts).map ImageChunk.type := by
      rw [hms, hmt]
      exact hsame
    have hlength : (mergeAdjacentNormalChunks srcs).length =
        (mergeAdjacentNormalChunks tgts).length := by
      simpa only [List.length_map] using congrArg List.length htypes
    have hs' := tiles_mergeAdjacentNormalChunks hs
    have ht' := tiles_mergeAdjacentNormalChunks ht
    have hfresh' : ∀ c ∈ mergeAdjacentNormalChunks srcs, c.I = none := by
      intro c hc
      obtain ⟨e, he, hI, -⟩ := mem_mergeAdjacentNormalChunks hc
      rw [hI]
      exact hfresh e he
    obtain ⟨srcs₁, tgts₁, hdemote⟩ := demotePairs_isSome hz hs' ht' htypes
    have hkept := (demotePairs_spec hs' ht' htypes hfresh' hdemote).merged
    have hlength₁ : (mergeAdjacentNormalChunks srcs₁).length =
        (mergeAdjacentNormalChunks tgts₁).length := by
      simpa only [List.length_map] using congrArg List.length hkept.types
    obtain ⟨es, hes⟩ := @patchPairs_isSome H qsufsort srcImg tgtImg hsrc htgt _ _ _ _ _ _ hkept
    have hall := patchPairs_spec hsrc htgt hkept hes
    rw [List.drop_zero, Nat.sub_zero, List.take_length] at hall
    refine .inl ⟨hsame, es, ?_, hall⟩
    simp only [imgdiffImages, hlength, htypes, hdemote, hlength₁, hes, ne_eq, not_true_eq_false,
      if_false, Option.bind_eq_bind, Option.bind_some]
    rfl
  · have htypes : (mergeAdjacentNormalChunks srcs).map ImageChunk.type ≠
        (mergeAdjacentNormalChunks tgts).map ImageChunk.type := by
      rw [hms, hmt]
      exact hsame
    refine .inr ⟨hsame, ?_⟩
    unfold imgdiffImages
    by_cases hlength : (mergeAdjacentNormalChunks srcs).length =
        (mergeAdjacentNormalChunks tgts).length
    · simp only [hlength, htypes, ne_eq, not_true_eq_false, not_false_eq_true, if_false, if_true]
    · simp only [hlength, ne_eq, not_false_eq_true, if_true]

end Images

/-! ## Sound images -/

/-- An image below 2 GiB whose gzip headers belong to whole members, with data below 2 GiB, and
which does not end in the beginning of a gzip header. -/
structure SoundImage (L : Libs) (img : Bytes) : Prop where
  small : img.length < 2 ^ 31
  complete : CompleteMembers L img
  data : ∀ pos d n, startsGzip img pos = true →
    L.inflate (img.drop (pos + gzipHeaderLen)) = some (d, n) → d.length < 2 ^ 31
  tail : ∀ pos, ¬ TailAt img pos

/-- The footer of a member on the way has the wrong number in it. -/
def WrongFooter (L : Libs) (img : Bytes) (pos : Nat) : Prop :=
  ∃ q, Walk L img pos q ∧ startsGzip img q = true ∧
    ∃ d k v, IsMember L img q d k v ∧ v % 2 ^ L.sizeBits ≠ (d.length : Int)

/-- The way through the image from the position has `n` gzip members on it. -/
inductive Members (L : Libs) (img : Bytes) : Nat → Nat → Prop
  | done {pos : Nat} (past : img.length ≤ pos) : Members L img pos 0
  | member {pos q n : Nat} (magic : startsGzip img pos = true) (next : Next L img pos q)
      (rest : Members L img q n) : Members L img pos (n + 1)
  | scan {pos q n : Nat} (magic : startsGzip img pos = false) (next : Next L img pos q)
      (rest : Members L img q n) : Members L img pos n

/-- The images have the same number of gzip members, and none or both of them are empty. -/
structure SameStructure (L : Libs) (srcImg tgtImg : Bytes) : Prop where
  empty : srcImg = [] ↔ tgtImg = []
  members : ∀ n, Members L srcImg 0 n ↔ Members L tgtImg 0 n

/-- The structure of an image with `n` members. -/
def alternating : Nat → List ChunkType
  | 0 => [.normal]
  | n + 1 => .normal :: .deflate :: alternating n

theorem alternating_injective {m n : Nat} (h : alternating m = alternating n) : m = n := by
  induction m generalizing n with
  | zero =>
      cases n with
      | zero => rfl
      | succ n => cases h
  | succ m ih =>
      cases n with
      | zero => cases h
      | succ n =>
          simp only [alternating, List.cons.injEq, true_and] at h
          rw [ih h]

section SoundImages

variable {L : Libs} {late : Nat → Bool} {unset : Nat → ImageChunk} {img : Bytes}

theorem Members.unique {pos m n : Nat} (h : Members L img pos m) (h' : Members L img pos n) :
    m = n := by
  induction h generalizing n with
  | done past =>
      cases h' with
      | done => rfl
      | member _ next _ => exact absurd next.inside (Nat.not_lt.2 past)
      | scan _ next _ => exact absurd next.inside (Nat.not_lt.2 past)
  | member magic next _ ih =>
      cases h' with
      | done past => exact absurd next.inside (Nat.not_lt.2 past)
      | member _ next' rest' =>
          obtain rfl := next.unique next'
          rw [ih rest']
      | scan magic' _ _ => exact absurd magic (by rw [magic']; decide)
  | scan magic next _ ih =>
      cases h' with
      | done past => exact absurd next.inside (Nat.not_lt.2 past)
      | member magic' _ _ => exact absurd magic' (by rw [magic]; decide)
      | scan _ next' rest' =>
          obtain rfl := next.unique next'
          exact ih rest'

/-- With the stream of the header in the image, the member is the one `CompleteMembers` speaks of.
-/
theorem SoundImage.stream (h : SoundImage L img) {pos k : Nat} {d : Bytes} {v : Int}
    (hm : IsMember L img pos d k v) :
    ∃ n, L.inflate (img.drop (pos + gzipHeaderLen)) = some (d, n) ∧
      k = img.length - (img.length - (pos + gzipHeaderLen) - n) - (pos + gzipHeaderLen) := by
  obtain ⟨n, hinflate, hk⟩ := hm.stream
  have hsmall := h.small
  have hcut : (img.length - (pos + gzipHeaderLen)) % 2 ^ 32 = img.length - (pos + gzipHeaderLen) :=
    Nat.mod_eq_of_lt (by omega)
  have hwhole : (img.drop (pos + gzipHeaderLen)).take (img.length - (pos + gzipHeaderLen)) =
      img.drop (pos + gzipHeaderLen) := by
    rw [← List.length_drop, List.take_length]
  rw [hcut, hwhole] at hinflate
  rw [hcut] at hk
  exact ⟨n, hinflate, hk⟩

theorem footersInside_of_sound (h : SoundImage L img) (pos : Nat) : FootersInside L img pos := by
  intro q _ hmagic d k v hm _
  obtain ⟨d', n, hinflate, hle⟩ := h.complete q hmagic
  obtain ⟨n', hinflate', hk⟩ := h.stream hm
  have hheader := hm.header
  cases hinflate.symm.trans hinflate'
  simp only [gzipHeaderLen, gzipFooterLen] at *
  omega

theorem SoundImage.roomy (h : SoundImage L img) : RoomyMembers L img := by
  intro pos d n hmagic hinflate
  have hsmall := h.data pos d n hmagic hinflate
  have hwidth : 2 ^ 31 ≤ 2 ^ (L.sizeBits - 1) :=
    Nat.pow_le_pow_right (by decide) (by have := L.wide; omega)
  exact ⟨by omega, by omega⟩

/-- What the readers promise of each chunk: no array of suffixes yet, and data below 2 GiB. -/
theorem readLoop_fresh (hdata : ∀ pos d k v, startsGzip img pos = true → IsMember L img pos d k v →
      d.length < 2 ^ 31)
    {fuel pos i : Nat} {cs : List ImageChunk} (h : readLoop L late unset img fuel pos i = .ok cs) :
    ∀ c ∈ cs, c.I = none ∧ (c.type = .deflate → c.len < 2 ^ 31) := by
  induction fuel generalizing pos i cs with
  | zero => cases h
  | succ fuel ih =>
      by_cases hin : pos < img.length
      · obtain ⟨cs', q, rest, hpass, hloop, rfl⟩ := readLoop_ok hin h
        have hnormal : ∀ c p n, (normalChunk c p n).I = none ∧
            ((normalChunk c p n).type = .deflate → (normalChunk c p n).len < 2 ^ 31) :=
          fun c p n => ⟨rfl, by rintro ⟨⟩⟩
        have hpassed : ∀ c ∈ cs', c.I = none ∧ (c.type = .deflate → c.len < 2 ^ 31) := by
          cases readPass_next hin hpass with
          | member _ hmagic hm hsize =>
              rw [readPass_member hmagic hm hsize] at hpass
              cases hpass
              simp only [memberChunks, List.forall_mem_cons]
              exact ⟨hnormal _ _ _, ⟨rfl, fun _ => hdata _ _ _ _ hmagic hm⟩, hnormal _ _ _,
                fun c hc => absurd hc List.not_mem_nil⟩
          | scan _ hmagic =>
              rw [readPass_scan hmagic] at hpass
              cases hpass
              simp only [List.forall_mem_cons]
              exact ⟨hnormal _ _ _, fun c hc => absurd hc List.not_mem_nil⟩
        intro c hc
        rcases List.mem_append.1 hc with hc | hc
        · exact hpassed c hc
        · exact ih hloop c hc
      · rw [readLoop, if_neg hin] at h
        cases h
        exact fun c hc => absurd hc List.not_mem_nil

/-- The structure of the chunks from a position on: the members on the way, each between two normal
chunks. -/
theorem readLoop_structure {fuel pos i : Nat} {cs : List ImageChunk}
    (h : readLoop L late unset img fuel pos i = .ok cs) :
    ∃ n, Members L img pos n ∧
      structureOf cs = if pos < img.length then alternating n else [] := by
  -- a normal chunk in front of what a position gives is taken in, or makes the list
  have hfront : ∀ {ts : List ChunkType} {q n : Nat}, Members L img q n →
      squash ts = (if q < img.length then alternating n else []) →
      squashFrom .normal ts = alternating n := by
    intro ts q n hmembers hts
    split at hts
    next hq =>
      cases ts with
      | nil => cases n <;> cases hts
      | cons t ts =>
          have hhead := head?_squashFrom t ts
          rw [show squashFrom t ts = alternating n from hts] at hhead
          obtain rfl : t = .normal := by cases n <;> cases hhead <;> rfl
          rw [squashFrom, if_pos ⟨rfl, rfl⟩]
          exact hts
    next hq =>
      cases ts with
      | nil =>
          cases hmembers with
          | done => rfl
          | member _ next _ => exact absurd next.inside hq
          | scan _ next _ => exact absurd next.inside hq
      | cons t ts =>
          have hhead := head?_squashFrom t ts
          rw [show squashFrom t ts = [] from hts] at hhead
          cases hhead
  induction fuel generalizing pos i cs with
  | zero => cases h
  | succ fuel ih =>
      by_cases hin : pos < img.length
      · obtain ⟨cs', q, rest, hpass, hloop, rfl⟩ := readLoop_ok hin h
        obtain ⟨n, hmembers, hrest⟩ := ih hloop
        have hnext := readPass_next hin hpass
        simp only [if_pos hin]
        cases hmagic : startsGzip img pos with
        | true =>
            refine ⟨n + 1, .member hmagic hnext hmembers, ?_⟩
            cases hnext with
            | member _ _ hm hsize =>
                rw [readPass_member hmagic hm hsize] at hpass
                cases hpass
                show ChunkType.normal :: ChunkType.deflate ::
                  squashFrom .normal (rest.map ImageChunk.type) = _
                rw [hfront hmembers hrest, alternating]
            | scan _ hscan => exact absurd hmagic (by rw [hscan]; decide)
        | false =>
            refine ⟨n, .scan hmagic hnext hmembers, ?_⟩
            rw [readPass_scan hmagic] at hpass
            cases hpass
            exact hfront hmembers hrest
      · rw [readLoop, if_neg hin] at h
        cases h
        exact ⟨0, .done (Nat.not_lt.1 hin), (if_neg hin).symm⟩

theorem readLoop_mono {fuel more pos i : Nat} (hle : fuel ≤ more)
    (h : Ended (readLoop L late unset img fuel pos i)) :
    readLoop L late unset img more pos i = readLoop L late unset img fuel pos i := by
  induction fuel generalizing more pos i with
  | zero => rcases h with h | ⟨cs, h⟩ <;> cases h
  | succ fuel ih =>
      obtain ⟨more, rfl⟩ := Nat.exists_eq_add_of_lt hle
      by_cases hin : pos < img.length
      · rw [readLoop, if_pos hin, ended_bind] at h
        simp only [readLoop, if_pos hin]
        rcases h with hfailed | ⟨⟨cs, q⟩, hpass, hrest⟩
        · rw [hfailed]
          rfl
        · rw [hpass]
          simp only [Decode.ok_bind]
          rw [ih (by omega) (by
            rcases ended_bind.1 hrest with hfailed | ⟨rest, hrest, -⟩
            · exact .inl hfailed
            · exact .inr ⟨rest, hrest⟩)]
      · simp only [readLoop, if_neg hin]

/-- The loop fails at a wrong footer, and not otherwise. -/
theorem readLoop_failed {fuel pos i : Nat}
    (h : readLoop L late unset img fuel pos i = .failed) : WrongFooter L img pos := by
  induction fuel generalizing pos i with
  | zero => cases h
  | succ fuel ih =>
      by_cases hin : pos < img.length
      · cases hpass : readPass L late unset img pos i with
        | failed =>
            obtain ⟨hmagic, hwrong⟩ := readPass_failed.1 hpass
            exact ⟨pos, .refl, hmagic, hwrong⟩
        | fault => rw [readLoop, if_pos hin, hpass] at h; cases h
        | hang => rw [readLoop, if_pos hin, hpass] at h; cases h
        | ok x =>
            obtain ⟨cs, q⟩ := x
            rw [readLoop_next fuel hin hpass] at h
            have hfailed : readLoop L late unset img fuel q (i + cs.length) = .failed := by
              cases hrest : readLoop L late unset img fuel q (i + cs.length) with
              | failed => rfl
              | ok rest => rw [hrest] at h; cases h
              | fault => rw [hrest] at h; cases h
              | hang => rw [hrest] at h; cases h
            obtain ⟨r, hwalk, hwrong⟩ := ih hfailed
            exact ⟨r, .head (readPass_next hin hpass) hwalk, hwrong⟩
      · rw [readLoop, if_neg hin] at h
        cases h

theorem not_wrongFooter_of_ok {fuel pos i : Nat} {cs : List ImageChunk}
    (h : readLoop L late unset img fuel pos i = .ok cs) : ¬ WrongFooter L img pos := by
  induction fuel generalizing pos i cs with
  | zero => cases h
  | succ fuel ih =>
      rintro ⟨r, hwalk, hmagic, d, k, v, hm, hne⟩
      have hstop : ∀ q, ¬ Next L img r q := by
        intro q hnext
        cases hnext with
        | member _ _ hm' hsize =>
            obtain ⟨n, hinflate, rfl⟩ := hm.stream
            obtain ⟨rfl, rfl⟩ := hm.unique hm'
            rw [Option.some.inj (hm.footer.symm.trans hm'.footer)] at hne
            exact hne hsize
        | scan _ hscan => exact absurd hmagic (by rw [hscan]; decide)
      by_cases hin : pos < img.length
      · obtain ⟨cs', q, rest, hpass, hloop, rfl⟩ := readLoop_ok hin h
        have hnext := readPass_next hin hpass
        rcases Relation.ReflTransGen.cases_head hwalk with rfl | ⟨q', hnext', hrest⟩
        · exact hstop q hnext
        · obtain rfl := hnext.unique hnext'
          exact ih hloop ⟨r, hrest, hmagic, d, k, v, hm, hne⟩
      · rcases Relation.ReflTransGen.cases_head hwalk with rfl | ⟨q', hnext', -⟩
        · simp only [startsGzip, Bool.and_eq_true, decide_eq_true_eq] at hmagic
          omega
        · exact hin hnext'.inside

/-- `ReadImage` on a sound image: a tiling, or the null result at a wrong footer. -/
theorem readImage_sound (hz : RawInflate L) (h : SoundImage L img) (late : Nat → Bool)
    (unset : Nat → ImageChunk) :
    ∃ fuel, ∀ more, fuel ≤ more →
      (WrongFooter L img 0 ∧ readImage L late unset img more = .failed) ∨
      ¬ WrongFooter L img 0 ∧ ∃ cs n, readImage L late unset img more = .ok cs ∧
        Tiles L img 0 cs img.length ∧ (∀ c ∈ cs, c.I = none) ∧ Members L img 0 n ∧
        structureOf cs = if img = [] then [] else alternating n := by
  obtain ⟨fuel, hfuel⟩ := ends_from late unset img.length 0 (Nat.le_refl _) fun q _ hstuck =>
    h.tail q ((stuck_iff_tail h.complete h.roomy (by have := h.small; omega) q).1 hstuck)
  refine ⟨fuel, fun more hle => ?_⟩
  unfold readImage
  rw [readLoop_mono hle (hfuel 0)]
  rcases hfuel 0 with hfailed | ⟨cs, hok⟩
  · exact .inl ⟨readLoop_failed hfailed, hfailed⟩
  · obtain ⟨n, hmembers, hstructure⟩ := readLoop_structure hok
    have hfresh := readLoop_fresh (fun pos d k v hmagic hm => by
      obtain ⟨n, hinflate, -⟩ := h.stream hm
      exact h.data pos d n hmagic hinflate) hok
    have hcovers := (readLoop_covers_iff hz fuel 0 0 cs (Nat.zero_le _) hok).2
      (footersInside_of_sound h 0)
    refine .inr ⟨not_wrongFooter_of_ok hok, cs, n, hok,
      hcovers.tiles fun c hc => (hfresh c hc).2, fun c hc => (hfresh c hc).1, hmembers, ?_⟩
    rw [hstructure]
    cases img with
    | nil => rfl
    | cons b bs => rfl

end SoundImages

/-- Images have the same structure if their chunks do. -/
theorem structure_iff {L : Libs} {srcImg tgtImg : Bytes} {m n : Nat}
    (hm : Members L srcImg 0 m) (hn : Members L tgtImg 0 n) :
    (if srcImg = [] then [] else alternating m) = (if tgtImg = [] then [] else alternating n) ↔
      SameStructure L srcImg tgtImg := by
  have hne : ∀ k, alternating k ≠ [] := by
    intro k
    cases k <;> rintro ⟨⟩
  have hcount : (∀ k, Members L srcImg 0 k ↔ Members L tgtImg 0 k) ↔ m = n := by
    constructor
    · exact fun h => ((h m).1 hm).unique hn
    · rintro rfl k
      exact ⟨fun h => hm.unique h ▸ hn, fun h => hn.unique h ▸ hm⟩
  constructor
  · intro h
    split at h
    next hs =>
      split at h
      next ht =>
        subst hs ht
        exact ⟨Iff.rfl, fun _ => Iff.rfl⟩
      next => exact absurd h.symm (hne n)
    next hs =>
      split at h
      next => exact absurd h (hne m)
      next ht => exact ⟨iff_of_false hs ht, hcount.2 (alternating_injective h)⟩
  · intro h
    obtain rfl := hcount.1 h.members
    simp only [h.empty]

/-- On two sound images `imgdiff` returns. It returns with status 1 exactly when the footer of a
gzip member has a wrong number in it, or the images have different structures; otherwise it writes a
patch, and `applypatch` turns the source image into the target image with that. -/
theorem imgdiff_images (H : HostLibs) (hbz : Bzip2 H) (hz : Zlib H.toLibs)
    (hraw : RawInflate H.toLibs) (qsufsort : (old : Bytes) → SuffixIndex old) (src tgt : Runtime)
    (srcImg tgtImg : Bytes) (hs : SoundImage H.toLibs srcImg) (ht : SoundImage H.toLibs tgtImg) :
    ∃ fuel, ∀ more, fuel ≤ more →
      (imgdiff H qsufsort src tgt more false srcImg tgtImg = .failed ↔
        WrongFooter H.toLibs srcImg 0 ∨ WrongFooter H.toLibs tgtImg 0 ∨
          ¬ SameStructure H.toLibs srcImg tgtImg) ∧
      (imgdiff H qsufsort src tgt more false srcImg tgtImg ≠ .failed →
        ∃ P, imgdiff H qsufsort src tgt more false srcImg tgtImg = .ok P ∧
          (P.length < 2 ^ 31 → Turns H.toLibs (blobValue P) srcImg tgtImg)) := by
  obtain ⟨fuel, hfuel⟩ := readImage_sound hraw hs src.late src.zip.unset
  obtain ⟨fuel', hfuel'⟩ := readImage_sound hraw ht tgt.late tgt.zip.unset
  refine ⟨max fuel fuel', fun more hmore => ?_⟩
  simp only [imgdiff, Bool.false_eq_true, if_false]
  rcases hfuel more (le_trans (le_max_left _ _) hmore) with ⟨hwrong, hread⟩ |
    ⟨hright, srcs, m, hread, hsrcs, hfresh, hm, hstructure⟩
  · rw [hread]
    exact ⟨iff_of_true rfl (.inl hwrong), fun h => absurd rfl h⟩
  · rcases hfuel' more (le_trans (le_max_right _ _) hmore) with ⟨hwrong', hread'⟩ |
      ⟨hright', tgts, n, hread', htgts, -, hn, hstructure'⟩
    · rw [hread, hread']
      exact ⟨iff_of_true rfl (.inr (.inl hwrong')), fun h => absurd rfl h⟩
    · have hsame : structureOf srcs = structureOf tgts ↔ SameStructure H.toLibs srcImg tgtImg := by
        rw [hstructure, hstructure', structure_iff hm hn]
      rw [hread, hread']
      simp only [Decode.ok_bind]
      rcases @imgdiffImages_spec H qsufsort srcImg tgtImg hz srcs tgts hsrcs htgts hfresh hs.small
          ht.small with
        ⟨heq, es, hwrote, hall⟩ | ⟨hne, hfailed⟩
      · rw [hwrote]
        refine ⟨iff_of_false (by rintro ⟨⟩) ?_, fun _ => ⟨_, rfl, ?_⟩⟩
        · rintro (h | h | h)
          · exact hright h
          · exact hright' h
          · exact h (hsame.1 heq)
        · exact turns_imagePatch hbz hs.small hall
      · rw [hfailed]
        exact ⟨iff_of_true rfl (.inr (.inr (mt hsame.2 hne))), fun h => absurd rfl h⟩

namespace Sample

/-- No stream of the table is the beginning of another, so what is behind a stream makes no
difference. -/
theorem hostWith_raw {t : BzTable} {z : ZTable} (h : ∀ e ∈ z, ∀ e' ∈ z, e.2 <+: e'.2 → e = e') :
    RawInflate (hostWith t z).toLibs where
  consumed x d n hx := by
    obtain ⟨e, he, hdn⟩ := Option.map_eq_some_iff.1 (show zInflate z x = some (d, n) from hx)
    cases hdn
    exact (List.isPrefixOf_iff_prefix.1 (by simpa using List.find?_some he)).length_le
  ignores x d n y hx hy := by
    obtain ⟨e, he, hdn⟩ := Option.map_eq_some_iff.1 (show zInflate z x = some (d, n) from hx)
    cases hdn
    have hpre : e.2 <+: x := List.isPrefixOf_iff_prefix.1 (by simpa using List.find?_some he)
    obtain ⟨rest, rfl⟩ := hpre
    rw [List.take_left] at hy
    show zInflate z y = some (e.1, e.2.length)
    -- whatever stream the input begins with, it is this one
    have hfound : (z.find? fun e => e.2.isPrefixOf y).isSome :=
      List.find?_isSome.2 ⟨e, List.mem_of_find?_eq_some he, List.isPrefixOf_iff_prefix.2 hy⟩
    obtain ⟨e', he'⟩ := Option.isSome_iff_exists.1 hfound
    have hpre' : e'.2 <+: y := List.isPrefixOf_iff_prefix.1 (by simpa using List.find?_some he')
    have hsame : e = e' := by
      rcases le_total e.2.length e'.2.length with hle | hle
      · exact h e (List.mem_of_find?_eq_some he) e' (List.mem_of_find?_eq_some he')
          (List.prefix_of_prefix_length_le hy hpre' hle)
      · exact (h e' (List.mem_of_find?_eq_some he') e (List.mem_of_find?_eq_some he)
          (List.prefix_of_prefix_length_le hpre' hy hle)).symm
    rw [zInflate, he', hsame]
    rfl

theorem zInflate_length {z : ZTable} {k : Nat} (h : ∀ e ∈ z, e.1.length < k) {x d : Bytes} {n : Nat}
    (hx : zInflate z x = some (d, n)) : d.length < k := by
  obtain ⟨e, he, hdn⟩ := Option.map_eq_some_iff.1 hx
  cases hdn
  exact h e (List.mem_of_find?_eq_some he)

/-- A gzip header is found at the beginning of the image only, and the stream behind it is in the
table. -/
theorem sound_of_member {t : BzTable} {img d : Bytes} {n : Nat} (hsmall : img.length < 2 ^ 31)
    (hstream : zInflate zStreams (img.drop 10) = some (d, n)) (hfooter : 10 + n + 8 ≤ img.length)
    (hmagic : ∀ pos, startsGzip img pos = true → pos = 0) (htail : ∀ pos, ¬ TailAt img pos) :
    SoundImage (hostWith t zStreams).toLibs img where
  small := hsmall
  complete pos h := by
    obtain rfl := hmagic pos h
    exact ⟨d, n, hstream, by rw [gzipHeaderLen, gzipFooterLen]; omega⟩
  data pos d m _ hinflate := by
    exact lt_of_lt_of_le (zInflate_length (z := zStreams) (k := 26) (by decide) hinflate)
      (by decide)
  tail := htail

theorem length_fresh_zipRuntime (n : Nat) : (zipRuntime.fresh n).length = n := List.length_replicate

/-- The sample images, with memory that is zero. -/
def runtime : Runtime := ⟨fun _ => false, zipRuntime, length_fresh_zipRuntime⟩

/-- Two gzip files. -/
theorem imgdiff_images_gzip :
    SoundImage (hostWith bzStreams zStreams).toLibs srcImage ∧
      SoundImage (hostWith bzStreams zStreams).toLibs tgtImage ∧
      ∃ fuel, ∀ more, fuel ≤ more →
        (imgdiff (hostWith bzStreams zStreams) suffixArray runtime runtime more false srcImage
            tgtImage = .failed ↔
          WrongFooter (hostWith bzStreams zStreams).toLibs srcImage 0 ∨
            WrongFooter (hostWith bzStreams zStreams).toLibs tgtImage 0 ∨
              ¬ SameStructure (hostWith bzStreams zStreams).toLibs srcImage tgtImage) ∧
        (imgdiff (hostWith bzStreams zStreams) suffixArray runtime runtime more false srcImage
            tgtImage ≠ .failed →
          ∃ P, imgdiff (hostWith bzStreams zStreams) suffixArray runtime runtime more false srcImage
              tgtImage = .ok P ∧
            (P.length < 2 ^ 31 →
              Turns (hostWith bzStreams zStreams).toLibs (blobValue P) srcImage tgtImage)) := by
  have hstart : ∀ (img : Bytes), (∀ pos < img.length, startsGzip img pos = true → pos = 0) →
      ∀ pos, startsGzip img pos = true → pos = 0 := by
    intro img h pos hmagic
    refine h pos ?_ hmagic
    simp only [startsGzip, Bool.and_eq_true, decide_eq_true_eq] at hmagic
    omega
  have hsrc : SoundImage (hostWith bzStreams zStreams).toLibs srcImage :=
    sound_of_member (d := srcData) (n := 5) (by decide) (by decide) (by decide)
      (hstart _ (by decide)) (by
        rintro pos ⟨hpos, hdrop⟩
        obtain rfl : pos = 20 := by
          have hlen : srcImage.length = 23 := rfl
          omega
        exact absurd hdrop (by decide))
  have htgt : SoundImage (hostWith bzStreams zStreams).toLibs tgtImage :=
    sound_of_member (d := tgtData) (n := 6) (by decide) (by decide) (by decide)
      (hstart _ (by decide)) (by
        rintro pos ⟨hpos, hdrop⟩
        obtain rfl : pos = 21 := by
          have hlen : tgtImage.length = 24 := rfl
          omega
        exact absurd hdrop (by decide))
  obtain ⟨fuel, hfuel⟩ := imgdiff_images (hostWith bzStreams zStreams)
    (hostWith_bzip2 (by decide +kernel) zStreams) (hostWith_zlib (by decide))
    (hostWith_raw (by decide)) suffixArray runtime runtime srcImage tgtImage hsrc htgt
  exact ⟨hsrc, htgt, fuel, hfuel⟩

end Sample

/-! ## Sound archives -/

/-- An archive below 2 GiB whose deflate entries lie apart from each other, each of them a whole
stream with as much data as the central directory says. -/
structure SoundArchive (L : Libs) (img : Bytes) (es : List ZipFileEntry) : Prop where
  entries : zipEntries img = .ok es
  ranges : ZipRanges img es
  streams : ∀ e ∈ es, ∃ d n, L.inflate ((img.drop e.dataOffset.toNat).take e.deflateLen.toNat) =
    some (d, n) ∧ e.uncompLen = d.length ∧ d.length < 2 ^ 31

section SoundArchives

variable {L : Libs} {rt : ZipRuntime} {img : Bytes} {cap : Nat}

/-- The one call of `inflate` gives all of the data. -/
theorem inflateEntry_whole {es : List ZipFileEntry} (h : SoundArchive L img es) {e : ZipFileEntry}
    (he : e ∈ es) :
    ∃ d n, inflateEntry L img e = .ok d ∧ e.uncompLen = d.length ∧ d.length < 2 ^ 31 ∧
      L.inflate ((img.drop e.dataOffset.toNat).take e.deflateLen.toNat) = some (d, n) := by
  obtain ⟨d, n, hinflate, hlen, hd⟩ := h.streams e he
  obtain ⟨hoff, hdeflate, hle⟩ := h.ranges.inside e he
  have hsmall := h.ranges.small
  have hin : toSize L e.deflateLen % 2 ^ 32 = e.deflateLen.toNat := by
    rw [toSize_of_lt L hdeflate (by omega), Nat.mod_eq_of_lt (by omega)]
  have hout : toSize L e.uncompLen % 2 ^ 32 = d.length := by
    rw [hlen, toSize_of_lt L (by omega) (by omega), Int.toNat_natCast, Nat.mod_eq_of_lt (by omega)]
  refine ⟨d, n, ?_, hlen, hd, hinflate⟩
  simp only [inflateEntry, hin, hinflate, hout, le_refl, if_true]

theorem sweep_failed {fuel : Nat} {pos : Int} {es : List ZipFileEntry} {i : Nat}
    (h : sweep L rt img cap fuel pos es i = .failed) : ∃ e ∈ es, inflateEntry L img e = .failed := by
  have hbind : ∀ {x : Decode (List ImageChunk)} {c : ImageChunk},
      (x >>= fun rest => pure (c :: rest)) = .failed → x = .failed := by
    intro x c hx
    cases x with
    | failed => rfl
    | ok rest => cases hx
    | fault => cases hx
    | hang => cases hx
  induction fuel generalizing pos es i with
  | zero => cases h
  | succ fuel ih =>
      unfold sweep at h
      split at h
      next hpos =>
        split at h
        next => cases h
        next hslot =>
          cases es with
          | nil =>
              obtain ⟨e, he, -⟩ := ih (hbind h)
              exact absurd he List.not_mem_nil
          | cons e es =>
              simp only at h
              split at h
              next hat =>
                cases hd : inflateEntry L img e with
                | failed => exact ⟨e, List.mem_cons_self, hd⟩
                | fault => rw [hd] at h; cases h
                | hang => rw [hd] at h; cases h
                | ok d =>
                    rw [hd] at h
                    obtain ⟨e', he', hfailed⟩ := ih (hbind h)
                    exact ⟨e', List.mem_cons_of_mem e he', hfailed⟩
              next hat => exact ih (hbind h)
      next => cases h

theorem fits_plainChunk {i pos len : Nat} (hle : pos + len ≤ img.length) :
    Fits L img pos (plainChunk rt i pos len) :=
  .normal rfl rfl rfl hle

/-- The chunks of a sweep over sound entries tile the archive. -/
theorem Swept.tiling (hfresh : ∀ n, (rt.fresh n).length = n) {all : List ZipFileEntry}
    (hsound : SoundArchive L img all) {pos : Int}
    {es : List ZipFileEntry} {i : Nat} {cs : List ImageChunk} (h : Swept L rt img pos es i cs)
    (hall : ∀ e ∈ es, e ∈ all) (h0 : 0 ≤ pos) (hle : pos ≤ img.length) (ahead : Ahead img pos es) :
    Tiles L img pos.toNat cs img.length ∧ ∀ c ∈ cs, c.I = none := by
  have hsmall := hsound.ranges.small
  induction h with
  | @done pos es i past =>
      obtain rfl : pos = img.length := by omega
      exact ⟨.nil _, fun c hc => absurd hc List.not_mem_nil⟩
  | @last pos i cs inside rest ih =>
      rw [int32_add_toSize L _ (Int.natCast_nonneg img.length) (by omega)] at rest
      rw [rest.eq_nil (lt_irrefl _), toSize_of_lt L (by omega) (by omega)]
      constructor
      · refine .cons (fits_plainChunk (by omega)) ?_
        have hfin : pos.toNat + (plainChunk rt i pos.toNat (img.length - pos).toNat).extent =
            img.length := by
          show pos.toNat + (img.length - pos).toNat = img.length
          omega
        rw [hfin]
        exact .nil _
      · intro c hc
        obtain rfl := List.mem_singleton.1 hc
        rfl
  | @entry e es i d cs inside data rest ih =>
      obtain ⟨hlen, hend⟩ := ahead.inside e List.mem_cons_self
      obtain ⟨d', n, hd', huncomp, hdsmall, hinflate⟩ :=
        inflateEntry_whole hsound (hall e List.mem_cons_self)
      cases data.symm.trans hd'
      have hsize : toSize L e.deflateLen = e.deflateLen.toNat := toSize_of_lt L (by omega) (by omega)
      have huncomp' : toSize L e.uncompLen = d.length := by
        rw [huncomp, toSize_of_lt L (by omega) (by omega), Int.toNat_natCast]
      have hnext : int32 (e.dataOffset + toSize L e.deflateLen) = e.dataOffset + e.deflateLen := by
        rw [hsize, Int.toNat_of_nonneg (by omega)]
        exact int32_of_lt (by omega) (by omega)
      rw [hnext] at ih
      obtain ⟨hcs, hnew⟩ := ih (fun e' he' => hall e' (List.mem_cons_of_mem e he')) (by omega)
        (by omega) ahead.tail
      -- the data fills its buffer
      have hrest : rt.fresh (toSize L e.uncompLen - d.length) = [] := by
        rw [← List.length_eq_zero_iff, hfresh, huncomp', Nat.sub_self]
      constructor
      · refine .cons (.deflate rfl rfl rfl ?_ ?_ huncomp' hdsmall (n := n) ?_) ?_
        · show e.dataOffset.toNat + toSize L e.deflateLen ≤ img.length
          omega
        · show ChunkData.buffer (d ++ rt.fresh (toSize L e.uncompLen - d.length)) = _
          rw [hrest, List.append_nil]
        · show L.inflate ((img.drop e.dataOffset.toNat).take (toSize L e.deflateLen)) = _
          rw [hsize, hinflate]
        · have hfin : e.dataOffset.toNat + (entryChunk L rt i e d).extent =
              (e.dataOffset + e.deflateLen).toNat := by
            show e.dataOffset.toNat + toSize L e.deflateLen = _
            omega
          rw [hfin]
          exact hcs
      · intro c hc
        rcases List.mem_cons.1 hc with rfl | hc
        · rfl
        · exact hnew c hc
  | @gap pos e es i cs inside off rest ih =>
      have hbehind := ahead.behind e List.mem_cons_self
      obtain ⟨hlen, hend⟩ := ahead.inside e List.mem_cons_self
      rw [int32_add_toSize L _ (by omega) (by omega)] at ih
      obtain ⟨hcs, hnew⟩ := ih hall (by omega) (by omega) ahead.head
      have hgap : toSize L (e.dataOffset - pos) = (e.dataOffset - pos).toNat :=
        toSize_of_lt L (by omega) (by omega)
      rw [hgap]
      constructor
      · refine .cons (fits_plainChunk (by omega)) ?_
        have hfin : pos.toNat + (plainChunk rt i pos.toNat (e.dataOffset - pos).toNat).extent =
            e.dataOffset.toNat := by
          show pos.toNat + (e.dataOffset - pos).toNat = _
          omega
        rw [hfin]
        exact hcs
      · intro c hc
        rcases List.mem_cons.1 hc with rfl | hc
        · rfl
        · exact hnew c hc

/-- `ReadZip` on a sound archive. -/
theorem readZip_sound (hfresh : ∀ n, (rt.fresh n).length = n) (hempty : L.inflate [] = none)
    {es : List ZipFileEntry} (h : SoundArchive L img es) (includePseudoChunk : Bool) :
    ∃ fuel, ∀ more, fuel ≤ more → ∃ cs, readZip L rt img includePseudoChunk more =
        .ok (pseudoChunks rt img includePseudoChunk, cs) ∧
      Tiles L img 0 cs img.length ∧ (∀ c ∈ cs, c.I = none) ∧
      ((deflateChunks cs).map ImageChunk.filename).Perm (es.map fun e => some e.filename) := by
  have hperm := rt.qsort.perm fileentryCompare es
  have hin : ∀ e ∈ rt.qsort.sort fileentryCompare es,
      0 ≤ e.dataOffset ∧ 0 ≤ e.deflateLen ∧ e.dataOffset + e.deflateLen ≤ img.length :=
    fun e he => h.ranges.inside e (hperm.mem_iff.1 he)
  have hdata : ∀ e ∈ es, e.deflateLen ≠ 0 := by
    intro e he hzero
    obtain ⟨d, n, hinflate, -⟩ := h.streams e he
    rw [hzero, Int.toNat_zero, List.take_zero, hempty] at hinflate
    cases hinflate
  have hbudget : (pseudoChunks rt img includePseudoChunk).length +
      budget 0 (rt.qsort.sort fileentryCompare es) ≤ es.length * 2 + 2 := by
    have hpseudo : (pseudoChunks rt img includePseudoChunk).length ≤ 1 := by
      unfold pseudoChunks
      split
      · exact Nat.le_refl 1
      · exact Nat.zero_le 1
    have hle := budget_le 0 (rt.qsort.sort fileentryCompare es)
    rw [hperm.length_eq] at hle
    omega
  refine ⟨es.length * 2 + 3, fun more hmore => ?_⟩
  rcases @sweep_ended L rt img _ h.ranges.small more 0 _ _ (le_refl 0) hin hbudget
    (by omega) with hfailed | ⟨cs, hok⟩
  · obtain ⟨e, he, hbad⟩ := sweep_failed hfailed
    obtain ⟨d, n, hgood, -⟩ := inflateEntry_whole h (hperm.mem_iff.1 he)
    cases hbad.symm.trans hgood
  · have hswept := swept_of_sweep more hok
    have ahead := ahead_sort rt h.ranges hdata
    obtain ⟨htiles, hnew⟩ := hswept.tiling hfresh h (fun e he => hperm.mem_iff.1 he) (le_refl 0)
      (Int.natCast_nonneg _) ahead
    obtain ⟨-, hentries⟩ := hswept.tiles h.ranges.small (le_refl 0) (Int.natCast_nonneg _) ahead
    refine ⟨cs, ?_, htiles, hnew, ?_⟩
    · simp only [readZip, h.entries, Decode.ok_bind, hok]
      rfl
    · have hnames := congrArg (List.map Prod.fst) hentries
      rw [List.map_map, List.map_map] at hnames
      rw [show (deflateChunks cs).map ImageChunk.filename =
        (rt.qsort.sort fileentryCompare es).map fun e => some e.filename from hnames]
      exact hperm.map _

/-- With no name twice, no name is used up before its entry is patched. -/
theorem sourcesLast_of_nodup {srcImg tgtImg : Bytes} {srcs tgts : List ImageChunk}
    (h : ((deflateChunks tgts).map ImageChunk.filename).Nodup) :
    SourcesLast L srcImg tgtImg srcs tgts := by
  intro name hpatched
  have hone : (targets L tgtImg name tgts).length ≤ 1 := by
    refine le_trans (List.length_filterMap_le _ _) ?_
    have hfilter : (tgts.filter fun c => Named name c) =
        (deflateChunks tgts).filter fun c => c.filename = some name := by
      rw [deflateChunks, List.filter_filter]
      apply List.filter_congr
      intro c _
      rw [Bool.eq_iff_iff, Bool.and_eq_true, decide_eq_true_eq, decide_eq_true_eq,
        decide_eq_true_eq, and_comm]
      exact Iff.rfl
    rw [hfilter, ← List.countP_eq_length_filter]
    have hcount := List.nodup_iff_count_le_one.1 h (some name)
    rw [List.count, List.countP_map] at hcount
    refine le_of_eq_of_le (List.countP_congr ?_) hcount
    intro c _
    simp
  cases htargets : targets L tgtImg name tgts with
  | nil => rw [htargets, patched_nil_right] at hpatched; cases hpatched
  | cons t ts =>
      rw [htargets, List.length_cons] at hone
      obtain rfl : ts = [] := List.length_eq_zero_iff.1 (by omega)
      rw [htargets] at hpatched
      exact remaining_of_patched_single hpatched

end SoundArchives

/-- On two sound archives, of which the target has no name twice as a C string, `imgdiff -z` writes
a patch, and `applypatch` turns the source archive into the target archive with that. -/
theorem imgdiff_archives (H : HostLibs) (hbz : Bzip2 H) (hz : Zlib H.toLibs)
    (qsufsort : (old : Bytes) → SuffixIndex old) (src tgt : Runtime) (srcImg tgtImg : Bytes)
    (srcEntries tgtEntries : List ZipFileEntry) (hs : SoundArchive H.toLibs srcImg srcEntries)
    (ht : SoundArchive H.toLibs tgtImg tgtEntries)
    (hnames : (tgtEntries.map ZipFileEntry.filename).Nodup) :
    ∃ fuel, ∀ more, fuel ≤ more →
      ∃ P, imgdiff H qsufsort src tgt more true srcImg tgtImg = .ok P ∧
        (P.length < 2 ^ 31 → Turns H.toLibs (blobValue P) srcImg tgtImg) := by
  obtain ⟨fuel, hfuel⟩ := readZip_sound src.length_fresh hz.empty hs true
  obtain ⟨fuel', hfuel'⟩ := readZip_sound tgt.length_fresh hz.empty ht false
  refine ⟨max fuel fuel', fun more hmore => ?_⟩
  obtain ⟨srcs, hread, hsrcs, hfresh, -⟩ := hfuel more (le_trans (le_max_left _ _) hmore)
  obtain ⟨tgts, hread', htgts, -, hperm⟩ := hfuel' more (le_trans (le_max_right _ _) hmore)
  have hdistinct : ((deflateChunks tgts).map ImageChunk.filename).Nodup := by
    have hsome := hnames.map (Option.some_injective Name)
    rw [List.map_map] at hsome
    exact hperm.nodup_iff.2 hsome
  have hnamed : ∀ c ∈ tgts, c.type = .deflate → c.filename.isSome := by
    intro c hc hd
    have hmem : c.filename ∈ tgtEntries.map fun e => some e.filename := by
      refine hperm.mem_iff.1 (List.mem_map_of_mem ?_)
      exact List.mem_filter.2 ⟨hc, decide_eq_true hd⟩
    obtain ⟨e, -, he⟩ := List.mem_map.1 hmem
    rw [← he]
    rfl
  obtain ⟨es, hes, hall, -⟩ := @imgdiffZips_spec H hz qsufsort srcImg tgtImg srcs tgts hsrcs htgts
    hfresh hnamed hs.ranges.small ht.ranges.small (src.zip.unset 0)
  refine ⟨imagePatch es, ?_, turns_imagePatch hbz hs.ranges.small
    (hall (sourcesLast_of_nodup hdistinct))⟩
  simp only [imgdiff, if_true, hread, hread', Decode.ok_bind]
  show Exit.result (imgdiffZips H qsufsort srcImg tgtImg
    (pseudoChunk srcImg (src.zip.unset 0) :: srcs) tgts) = _
  rw [hes]
  rfl

namespace Sample

/-- Two archives with one entry. -/
theorem imgdiff_archives_single :
    ∃ fuel, ∀ more, fuel ≤ more →
      ∃ P, imgdiff (hostWith bzStreams zStreams) suffixArray runtime runtime more true srcZip tgtZip =
          .ok P ∧
        (P.length < 2 ^ 31 →
          Turns (hostWith bzStreams zStreams).toLibs (blobValue P) srcZip tgtZip) := by
  have hsrc : SoundArchive (hostWith bzStreams zStreams).toLibs srcZip
      [⟨31, 5, 24, cstr "a"⟩] :=
    ⟨by decide +kernel, ⟨by decide, by decide, List.pairwise_singleton _ _⟩, by
      intro e he
      obtain rfl := List.mem_singleton.1 he
      exact ⟨srcData, 5, by decide, by decide, by decide⟩⟩
  have htgt : SoundArchive (hostWith bzStreams zStreams).toLibs tgtZip
      [⟨31, 6, 25, cstr "a"⟩] :=
    ⟨by decide +kernel, ⟨by decide, by decide, List.pairwise_singleton _ _⟩, by
      intro e he
      obtain rfl := List.mem_singleton.1 he
      exact ⟨tgtData, 6, by decide, by decide, by decide⟩⟩
  exact imgdiff_archives (hostWith bzStreams zStreams)
    (hostWith_bzip2 (by decide +kernel) zStreams) (hostWith_zlib (by decide)) suffixArray runtime
    runtime srcZip tgtZip _ _ hsrc htgt (by decide)

end Sample

end OpenRecovery.ImgDiff
