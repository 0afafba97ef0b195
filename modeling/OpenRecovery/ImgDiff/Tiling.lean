import OpenRecovery.ImgDiff.Consecutive
import OpenRecovery.ImgDiff.RecordSpec

/-!
# Chunk lists that tile a file

`Tiles L img pos cs fin`: the chunks `cs` cover the bytes of `img` from `pos` to `fin` in order, the
data of a normal chunk is its bytes and the data of a deflate chunk the inflation of its bytes.
Demotion and merging keep a tiling (`tiles_mergeAdjacentNormalChunks`), and how merging changes the
types depends on the types alone (`types_mergeAdjacentNormalChunks`).

`makePatch_spec` is what `MakePatch` does for a source and a target chunk that fit their files.
-/

set_option autoImplicit false

namespace OpenRecovery.ImgDiff

open OpenRecovery.ApplyPatch OpenRecovery.Edify OpenRecovery.Storage

/-- The chunk stands at `pos` of the file, and its data is what the readers put there. All sizes
are below 2³¹. -/
inductive Fits (L : Libs) (img : Bytes) (pos : Nat) (c : ImageChunk) : Prop where
  | normal (type : c.type = .normal) (start : c.start = pos) (data : c.data = .file pos)
      (le : pos + c.len ≤ img.length)
  | deflate {d : Bytes} {n : Nat} (type : c.type = .deflate) (start : c.start = pos)
      (deflateData : c.deflateData = pos) (le : pos + c.deflateLen ≤ img.length)
      (data : c.data = .buffer d) (len : c.len = d.length) (small : d.length < 2 ^ 31)
      (inflated : L.inflate ((img.drop pos).take c.deflateLen) = some (d, n))

/-- The chunks cover the file from `pos` to `fin`. -/
inductive Tiles (L : Libs) (img : Bytes) : Nat → List ImageChunk → Nat → Prop where
  | nil (pos : Nat) : Tiles L img pos [] pos
  | cons {pos fin : Nat} {c : ImageChunk} {cs : List ImageChunk} (head : Fits L img pos c)
      (tail : Tiles L img (pos + c.extent) cs fin) : Tiles L img pos (c :: cs) fin

theorem Tiles.le {L : Libs} {img : Bytes} {cs : List ImageChunk} {pos fin : Nat}
    (h : Tiles L img pos cs fin) : pos ≤ fin := by
  induction h with
  | nil => exact Nat.le_refl _
  | cons _ _ ih => omega

/-- A range of the file, cut at the end of its first chunk. -/
theorem take_drop_split (img : Bytes) {q e g : Nat} (h : q + e ≤ g) :
    (img.drop q).take (g - q) =
      (img.drop q).take e ++ (img.drop (q + e)).take (g - (q + e)) := by
  rw [← List.drop_drop, ← List.take_add]
  congr 1
  omega

namespace Fits

variable {L : Libs} {img : Bytes} {pos : Nat} {c : ImageChunk}

theorem start_eq (h : Fits L img pos c) : c.start = pos := by
  cases h with
  | normal _ start => exact start
  | deflate _ start => exact start

theorem extent_le (h : Fits L img pos c) : pos + c.extent ≤ img.length := by
  cases h with
  | normal type _ _ le => rwa [extent_normal type]
  | deflate type _ _ le => rwa [extent_deflate type]

theorem len_lt (h : Fits L img pos c) (himg : img.length < 2 ^ 31) : c.len < 2 ^ 31 := by
  cases h with
  | normal _ _ _ le => omega
  | deflate _ _ _ _ _ len small => omega

theorem not_raw (h : Fits L img pos c) : c.type ≠ .raw := by
  cases h with
  | normal type => simp [type]
  | deflate type => simp [type]

/-- The encoder parameters do not matter. -/
theorem withParams (h : Fits L img pos c) (p : DeflateParams) :
    Fits L img pos { c with params := p } := by
  cases h with
  | normal type start data le => exact .normal type start data le
  | deflate type start dd le data len small inflated =>
      exact .deflate type start dd le data len small inflated

/-- Nor does the array of the source chunk. -/
theorem withIndex (h : Fits L img pos c) (I : Option (List Nat)) :
    Fits L img pos { c with I := I } := by
  cases h with
  | normal type start data le => exact .normal type start data le
  | deflate type start dd le data len small inflated =>
      exact .deflate type start dd le data len small inflated

/-- The bytes at `data` exist. -/
theorem chunkBytes_isSome (h : Fits L img pos c) :
    ∃ d, chunkBytes img c = some d ∧ d.length = c.len := by
  cases h with
  | normal type start data le =>
      have hs := slice_natCast le
      refine ⟨_, by rw [chunkBytes, data]; exact hs, slice_length hs⟩
  | @deflate d n type start dd le data len small inflated =>
      have hs : slice d (0 : Nat) c.len = some ((d.drop 0).take c.len) := slice_natCast (by omega)
      exact ⟨_, by rw [chunkBytes, data]; exact hs, slice_length hs⟩

/-- The data of a normal chunk is its bytes. -/
theorem chunkBytes_normal (h : Fits L img pos c) (type : c.type = .normal) :
    chunkBytes img c = some ((img.drop pos).take c.extent) := by
  cases h with
  | normal _ start data le =>
      rw [chunkBytes, data, extent_normal type]
      exact slice_natCast le
  | deflate type' => simp [type] at type'

/-- The compressed data of a deflate chunk is its bytes. -/
theorem deflateBytes_deflate (h : Fits L img pos c) (type : c.type = .deflate) :
    deflateBytes img c = some ((img.drop pos).take c.extent) := by
  cases h with
  | normal type' => simp [type] at type'
  | deflate _ start dd le =>
      rw [deflateBytes, dd, extent_deflate type]
      exact slice_natCast le

/-- The data of a deflate chunk is the inflation of its bytes. -/
theorem inflate_deflate (h : Fits L img pos c) (type : c.type = .deflate) :
    ∃ d n, chunkBytes img c = some d ∧ d.length = c.len ∧ d.length < 2 ^ 31 ∧
      L.inflate ((img.drop pos).take c.extent) = some (d, n) := by
  cases h with
  | normal type' => simp [type] at type'
  | @deflate d n _ start dd le data len small inflated =>
      have hs : slice d (0 : Nat) c.len = some ((d.drop 0).take c.len) := slice_natCast (by omega)
      have hall : (d.drop 0).take c.len = d := by rw [List.drop_zero, len, List.take_length]
      refine ⟨d, n, ?_, len.symm, small, by rwa [extent_deflate type]⟩
      rw [chunkBytes, data]
      exact hs.trans (congrArg some hall)

/-- Demotion keeps a chunk in its place. -/
theorem changeToNormal (h : Fits L img pos c) :
    Fits L img pos (changeDeflateChunkToNormal c) := by
  cases h with
  | normal type start data le =>
      rw [changeDeflateChunkToNormal, if_pos (by simp [type])]
      exact .normal type start data le
  | deflate type start dd le =>
      rw [changeDeflateChunkToNormal, if_neg (by simp [type])]
      exact .normal rfl start (congrArg _ dd) le

end Fits

/-! ## Merging -/

section Merging

variable {L : Libs} {img : Bytes}

/-- The chunks of a tiling point to their places. -/
theorem Fits.placed {pos : Nat} {c : ImageChunk} (h : Fits L img pos c) : Placed pos c := by
  cases h with
  | normal type start data => exact ⟨start, fun _ => data, fun hd => by simp [type] at hd⟩
  | deflate type start deflateData =>
      exact ⟨start, fun hn => by simp [type] at hn, fun _ => deflateData⟩

theorem Tiles.consecutive {cs : List ImageChunk} {pos fin : Nat} (h : Tiles L img pos cs fin) :
    Consecutive pos cs fin := by
  induction h with
  | nil pos => exact .nil pos
  | cons hc _ ih => exact .cons hc.placed ih

/-- A normal chunk that has taken up the normal chunk behind it. -/
theorem Fits.merge {pos : Nat} {c n : ImageChunk} (hc : Fits L img pos c)
    (hn : Fits L img (pos + c.extent) n) (tc : c.type = .normal) (tn : n.type = .normal) :
    Fits L img pos { c with len := n.len + (n.start - c.start) } := by
  obtain ⟨hmerged, hext⟩ := hc.placed.merge hn.placed tc tn
  -- the end of the merged chunk is that of `n`, which is in the file
  have hlen := extent_normal (c := { c with len := n.len + (n.start - c.start) }) tc
  have hle := hn.extent_le
  rw [Nat.add_assoc, ← hext, hlen] at hle
  exact .normal tc hmerged.start (hmerged.data tc) hle

theorem tiles_mergeFrom {cs : List ImageChunk} {c : ImageChunk} {pos fin : Nat}
    (hc : Fits L img pos c) (h : Tiles L img (pos + c.extent) cs fin) :
    Tiles L img pos (mergeFrom c cs) fin := by
  induction cs generalizing c pos with
  | nil => exact .cons hc h
  | cons n cs ih =>
      cases h with
      | cons hn hcs =>
          have hadj := hc.placed.adjacent_iff hn.placed
          rw [mergeFrom]
          by_cases ht : c.type = .normal ∧ n.type = .normal
          · rw [if_pos (hadj.mpr ht)]
            refine ih (hc.merge hn ht.1 ht.2) ?_
            rwa [(hc.placed.merge hn.placed ht.1 ht.2).2, ← Nat.add_assoc]
          · rw [if_neg (mt hadj.mp ht)]
            exact .cons hc (ih hn hcs)

theorem tiles_mergeAdjacentNormalChunks {cs : List ImageChunk} {pos fin : Nat}
    (h : Tiles L img pos cs fin) : Tiles L img pos (mergeAdjacentNormalChunks cs) fin := by
  cases h with
  | nil => exact .nil pos
  | cons hc hcs => exact tiles_mergeFrom hc hcs

theorem types_mergeAdjacentNormalChunks {cs : List ImageChunk} {pos fin : Nat}
    (h : Tiles L img pos cs fin) :
    (mergeAdjacentNormalChunks cs).map ImageChunk.type = squash (cs.map ImageChunk.type) :=
  h.consecutive.types_merge

/-- A merged chunk differs from a chunk of the list in its length at most, and not at all if it is
a deflate chunk. -/
theorem mem_mergeFrom {cs : List ImageChunk} {c d : ImageChunk} (h : d ∈ mergeFrom c cs) :
    ∃ e ∈ c :: cs, d.I = e.I ∧ (d.type = .deflate → d = e) := by
  induction cs generalizing c with
  | nil =>
      rw [mergeFrom, List.mem_singleton] at h
      exact ⟨c, List.mem_singleton_self c, by rw [h], fun _ => h⟩
  | cons n cs ih =>
      simp only [mergeFrom] at h
      split at h
      · rename_i hadj
        obtain ⟨e, he, hI, hd⟩ := ih h
        rcases List.mem_cons.mp he with rfl | he
        · refine ⟨c, List.mem_cons_self, hI, fun ht => ?_⟩
          -- a chunk that has taken up another is normal
          have htype := congrArg ImageChunk.type (hd ht)
          rw [ht] at htype
          exact absurd (htype.trans hadj.1) (by decide)
        · exact ⟨e, List.mem_cons_of_mem _ (List.mem_cons_of_mem _ he), hI, hd⟩
      · rcases List.mem_cons.mp h with rfl | h
        · exact ⟨d, List.mem_cons_self, rfl, fun _ => rfl⟩
        · obtain ⟨e, he, hI, hd⟩ := ih h
          exact ⟨e, List.mem_cons_of_mem _ he, hI, hd⟩

theorem mem_mergeAdjacentNormalChunks {cs : List ImageChunk} {d : ImageChunk}
    (h : d ∈ mergeAdjacentNormalChunks cs) : ∃ e ∈ cs, d.I = e.I ∧ (d.type = .deflate → d = e) := by
  cases cs with
  | nil => cases h
  | cons c cs => exact mem_mergeFrom h

end Merging

/-! ## Reconstruction -/

/-- Deflating the data of the chunk with its parameters gives back its bytes. -/
def Reconstructs (L : Libs) (img : Bytes) (c : ImageChunk) : Prop :=
  InRange c.params ∧ ∃ d out, chunkBytes img c = some d ∧ L.deflate c.params d = some out ∧
    deflateBytes img c = some out

theorem inRange_encoder {level : Int} (h0 : 0 ≤ level) (h1 : level ≤ 12) :
    InRange (encoder level) := by
  simp only [InRange, encoder, List.forall_mem_cons, List.not_mem_nil, false_implies, implies_true,
    and_true]
  omega

theorem tryReconstruction_true {L : Libs} {img : Bytes} {c : ImageChunk}
    (h : tryReconstruction L img c = some true) (hp : InRange c.params) : Reconstructs L img c := by
  simp only [tryReconstruction, Option.bind_eq_bind, Option.bind_eq_some_iff] at h
  obtain ⟨d, hd, out, hout, heq⟩ := h
  have heq' : deflateBytes img c = some out := by simpa using heq
  exact ⟨hp, d, out, hd, hout, heq'⟩

/-- `ReconstructDeflateChunk` changes the parameters only; if it succeeds, they are right. -/
theorem reconstructDeflateChunk_spec {L : Libs} {img : Bytes} {c c' : ImageChunk} {ok : Bool}
    (htype : c.type = .deflate) (h : reconstructDeflateChunk L img c = some (ok, c')) :
    ∃ p, c' = { c with params := p } ∧ (ok = true → Reconstructs L img c') := by
  rw [reconstructDeflateChunk, if_neg (by simp [htype])] at h
  simp only [Option.bind_eq_bind, Option.bind_eq_some_iff] at h
  obtain ⟨six, hsix, h⟩ := h
  cases six with
  | true =>
      cases h
      exact ⟨_, rfl, fun _ => tryReconstruction_true hsix (inRange_encoder (by decide) (by decide))⟩
  | false =>
      simp only [Bool.false_eq_true, if_false, Option.bind_eq_some_iff] at h
      obtain ⟨nine, hnine, h⟩ := h
      cases nine with
      | true =>
          cases h
          exact ⟨_, rfl,
            fun _ => tryReconstruction_true hnine (inRange_encoder (by decide) (by decide))⟩
      | false =>
          cases h
          exact ⟨_, rfl, fun h => by cases h⟩

/-! ## Patches -/

/-- `bsdiff` of data in range gives a patch that encodes the new data. -/
theorem bsdiff_complete (H : HostLibs) (qsufsort : (old : Bytes) → SuffixIndex old)
    {old new : Bytes} (IP : Option (SuffixIndex old)) (hold : old.length < 2 ^ 31) (hnew : new.length < 2 ^ 31) :
    ∃ st I, bsdiff H qsufsort old IP new = some (patchFile H new st, I) ∧ Complete old new st := by
  obtain ⟨st, p, hst, henc, hcount⟩ := diffBlocks_spec (IP.getD (qsufsort old)) new
  refine ⟨st, IP.getD (qsufsort old), ?_, ⟨p, henc⟩, hcount, hold, hnew⟩
  simp only [bsdiff, hst, Option.bind_eq_bind, Option.bind_some]
  rfl

/-- The array of a source chunk, if it has one, is one for its data. -/
def IndexFits (img : Bytes) (c : ImageChunk) : Prop :=
  ∀ entries, c.I = some entries → ∀ old, chunkBytes img c = some old →
    (SuffixIndex.check old entries).isSome

theorem indexFits_none {img : Bytes} {c : ImageChunk} (h : c.I = none) : IndexFits img c := by
  intro entries he
  rw [h] at he
  cases he

theorem check_entries {old : Bytes} (I : SuffixIndex old) :
    (SuffixIndex.check old I.entries).isSome := by
  rw [SuffixIndex.check, dif_pos ⟨I.length_eq, I.le_length⟩]
  rfl

section MakePatch

variable {H : HostLibs} {qsufsort : (old : Bytes) → SuffixIndex old} {srcImg tgtImg : Bytes}

theorem bsdiffChunks_spec {src : ImageChunk} {old new : Bytes}
    (hold : chunkBytes srcImg src = some old) (hI : IndexFits srcImg src)
    (hsmall : old.length < 2 ^ 31) (hnew : new.length < 2 ^ 31) :
    ∃ st entries, bsdiffChunks H qsufsort srcImg src new =
        some (patchFile H new st, { src with I := some entries }) ∧
      Complete old new st ∧ IndexFits srcImg { src with I := some entries } := by
  -- the array left behind can be used, for it fits the data
  have hIP : ∃ IP, SuffixIndex.load old src.I = some IP := by
    cases hsrc : src.I with
    | none => exact ⟨none, rfl⟩
    | some entries =>
        obtain ⟨I, hcheck⟩ := Option.isSome_iff_exists.mp (hI entries hsrc old hold)
        exact ⟨some I, by rw [SuffixIndex.load, hcheck]; rfl⟩
  obtain ⟨IP, hIP⟩ := hIP
  obtain ⟨st, I, hdiff, hcomplete⟩ := bsdiff_complete H qsufsort IP hsmall hnew
  refine ⟨st, I.entries, ?_, hcomplete, ?_⟩
  · simp only [bsdiffChunks, hold, Option.bind_eq_bind, Option.bind_some, hIP, hdiff]
    rfl
  · intro entries he old' hold'
    cases he
    have hsame : chunkBytes srcImg { src with I := some I.entries } = chunkBytes srcImg src := rfl
    rw [hsame, hold] at hold'
    cases hold'
    exact check_entries I

/-- What `MakePatch` does for chunks that fit their files. The patch restores the bytes of the
target chunk if the two chunks have the same type. For a deflate chunk the record names the place of
the source chunk and whatever its `deflateLen` is. -/
theorem makePatch_spec {src tgt : ImageChunk} {p q : Nat} (hsrc : srcImg.length < 2 ^ 31)
    (htgt : tgtImg.length < 2 ^ 31) (hs : Fits H.toLibs srcImg p src)
    (ht : Fits H.toLibs tgtImg q tgt) (hI : IndexFits srcImg src) :
    ∃ patch I tgt', makePatch H qsufsort srcImg tgtImg src tgt =
        some (patch, { src with I := I }, tgt') ∧
      IndexFits srcImg { src with I := I } ∧
      (src.type = tgt.type → (tgt.type = .deflate → Reconstructs H.toLibs tgtImg tgt) →
        Restores H srcImg tgt' patch ((tgtImg.drop q).take tgt.extent)) ∧
      (tgt.type = .deflate → tgt' = { tgt with
        sourceStart := src.start
        sourceLen := src.deflateLen
        sourceUncompressedLen := src.len }) := by
  obtain ⟨new, hnew, hnewlen⟩ := ht.chunkBytes_isSome
  obtain ⟨old, hold, holdlen⟩ := hs.chunkBytes_isSome
  have hslen := hs.len_lt hsrc
  have htlen := ht.len_lt htgt
  obtain ⟨st, entries, hdiff, hcomplete, hI'⟩ := @bsdiffChunks_spec H qsufsort srcImg src old new
    hold hI (by omega) (by omega)
  cases htype : tgt.type with
  | raw => exact absurd htype ht.not_raw
  | normal =>
      have hregion := ht.chunkBytes_normal htype
      rw [hnew] at hregion
      cases hregion
      simp only [makePatch, hnew, htype, true_and, Option.bind_eq_bind, Option.bind_some]
      split
      · exact ⟨_, src.I, _, rfl, hI, fun _ _ => .raw rfl (by omega), fun h => by cases h⟩
      · rw [hdiff, Option.bind_some]
        simp only
        split
        · exact ⟨_, some entries, _, rfl, hI', fun _ _ => .raw rfl (by omega), fun h => by cases h⟩
        · refine ⟨_, some entries, _, rfl, hI', fun hsame _ => ?_, fun h => by cases h⟩
          -- the source is a normal chunk too, so its data are bytes of the file
          have hin := hs.chunkBytes_normal hsame
          rw [hold] at hin
          cases hin
          have hle := hs.extent_le
          rw [extent_normal hsame] at hle holdlen hcomplete
          refine .normal (srcImg.take p) (srcImg.drop (p + src.len)) rfl ?_ ?_ ?_ hcomplete
          · rw [← List.drop_drop, List.take_append_drop, List.take_append_drop]
          · rw [List.length_take]
            simp only [hs.start_eq]
            omega
          · simp only [holdlen]
  | deflate =>
      have hne : ¬ (ChunkType.deflate = .normal ∧ tgt.len ≤ 160) := by simp
      -- only a normal chunk becomes a raw one
      have hne' : ∀ n : Nat, ¬ (ChunkType.deflate = .normal ∧ tgt.len ≤ n) := by simp
      simp only [makePatch, hnew, htype, hne, if_false, hdiff, hne', Option.bind_eq_bind,
        Option.bind_some]
      refine ⟨_, some entries, _, rfl, hI', fun hsame hrec => ?_, fun _ => rfl⟩
      obtain ⟨hparams, d, out, hd, hout, hbytes⟩ := hrec trivial
      rw [hnew] at hd
      cases hd
      rw [ht.deflateBytes_deflate htype] at hbytes
      cases hbytes
      -- the decoder inflates what the record names to the data the patch was made from
      obtain ⟨d, n, hd, hdlen, -, hinfl⟩ := hs.inflate_deflate hsame
      rw [hold] at hd
      cases hd
      have hle := hs.extent_le
      have hslice : slice srcImg src.start src.deflateLen =
          some ((srcImg.drop p).take src.extent) := by
        rw [hs.start_eq, extent_deflate hsame]
        exact slice_natCast (by rwa [extent_deflate hsame] at hle)
      exact .deflate rfl hslice hinfl holdlen.symm hcomplete hout hparams htlen

end MakePatch

end OpenRecovery.ImgDiff
