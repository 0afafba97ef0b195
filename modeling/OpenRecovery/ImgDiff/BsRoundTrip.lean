import OpenRecovery.ImgDiff.BsDiffSpec

/-!
# `bspatch` undoes `bsdiff`

The decoder replays the blocks of a patch one by one (`patchLoop_encodes`). The patch may stand
anywhere inside a larger file and the old data anywhere inside a larger buffer, as they do in the
patches of `imgdiff`; `bsdiff_bspatch` is the case of a patch that is a file of its own.
-/

set_option autoImplicit false

namespace OpenRecovery.ImgDiff

open OpenRecovery.ApplyPatch OpenRecovery.Edify OpenRecovery.Storage

/-- What the code relies on in bzip2: decompression gives back the data, whatever follows the
stream, and the stream is at most one percent and 600 bytes longer than the data, as the manual of
the library says. Streams of 2⁶² bytes and more are not considered: no file has them. -/
structure Bzip2 (H : HostLibs) : Prop where
  inverse : ∀ x post : Bytes, x.length < 2 ^ 62 →
    H.bzDecompress (H.bzCompress x ++ post) = (x, .streamEnd)
  length_le : ∀ x : Bytes, (H.bzCompress x).length ≤ x.length + x.length / 100 + 600

/-! ## Numbers -/

theorem toNat_or_sign {b : UInt8} (h : b.toNat < 128) : (b ||| 0x80).toNat = b.toNat + 128 := by
  have hor := Nat.two_pow_add_eq_or_of_lt (i := 7) h 1
  rw [UInt8.toNat_or, Nat.or_comm]
  have h80 : (0x80 : UInt8).toNat = 2 ^ 7 * 1 := rfl
  rw [h80, ← hor]
  omega

@[simp] theorem length_offtout (x : Int) : (offtout x).length = 8 := rfl

theorem leNat_offtout_nonneg {x : Int} (h0 : 0 ≤ x) (h1 : x < 2 ^ 63) :
    (leNat (offtout x) : Int) = x := by
  have habs : ((x.natAbs : Nat) : Int) = x := by omega
  have hsign : ¬ x < 0 := by omega
  have hw : offtout x = write8 x := by
    simp only [offtout, hsign, if_false, habs, write8]
  rw [hw, leNat_write8, Int.emod_eq_of_lt h0 (by omega)]

theorem leNat_offtout_neg {x : Int} (h0 : x < 0) (h1 : -2 ^ 63 < x) :
    (leNat (offtout x) : Int) = -x + 2 ^ 63 := by
  have habs : ((x.natAbs : Nat) : Int) = -x := by omega
  have hw := leNat_write8 (-x)
  rw [Int.emod_eq_of_lt (by omega) (by omega)] at hw
  have htop : (byteOf (-x) 7).toNat < 128 := by
    have h := toNat_byteOf (-x) 7
    norm_num at h
    omega
  simp only [offtout, h0, if_true, habs, leNat, toNat_or_sign htop]
  simp only [write8, leNat] at hw
  push_cast at hw ⊢
  omega

/-- `offtin` inverts `offtout`. -/
theorem offtinBytes_offtout {x : Int} (h0 : -2 ^ 63 < x) (h1 : x < 2 ^ 63) :
    offtinBytes (offtout x) = x := by
  rcases lt_or_ge x 0 with hneg | hpos
  · have h := leNat_offtout_neg hneg h0
    have hge : 2 ^ 63 ≤ leNat (offtout x) := by omega
    rw [offtinBytes, if_pos hge]
    omega
  · have h := leNat_offtout_nonneg hpos h1
    have hlt : ¬ 2 ^ 63 ≤ leNat (offtout x) := by omega
    rw [offtinBytes, if_neg hlt]
    exact h

theorem offtin_offtout {N : Numbers} (pre post : Bytes) {pos x : Int} (hpos : pos = pre.length)
    (h0 : -2 ^ 63 < x) (h1 : x < 2 ^ 63) (hoff : N.off x = x) :
    offtin N (pre ++ (offtout x ++ post)) pos = some x := by
  rw [offtin, slice_append pre (offtout x) post pos 8 hpos rfl, Option.map_some,
    offtinBytes_offtout h0 h1, hoff]

/-! ## Streams -/

theorem fillBuffer_append {cap : Nat} {size : Int} {a rest : Bytes} {fin : StreamEnd}
    (hsize : size = a.length) (hcap : a.length ≤ cap) :
    fillBuffer cap size ⟨a ++ rest, fin⟩ = .ok (a, ⟨rest, fin⟩) := by
  subst hsize
  have hin : (0 : Int) ≤ a.length ∧ (a.length : Int) ≤ (a ++ rest).length := by
    rw [List.length_append]
    omega
  have hfit : ¬ cap < (a.length : Int).toNat := by omega
  simp only [fillBuffer, hin, and_self, if_true, hfit, if_false]
  simp

theorem bzOpen_append {H : HostLibs} (hbz : Bzip2 H) {x : Bytes} (hx : x.length < 2 ^ 62)
    (pre post : Bytes) {n : Nat} (hpos : n = pre.length) (k : Nat) {len : Int}
    (hlen : len = (H.bzCompress x).length + k) :
    bzOpen H.toLibs (pre ++ (H.bzCompress x ++ post)) n len = ⟨x, .streamEnd⟩ := by
  subst hpos hlen
  have hneg : ¬ ((H.bzCompress x).length + (k : Int) < 0) := by omega
  have hnat : ((H.bzCompress x).length + (k : Int)).toNat = (H.bzCompress x).length + k := by omega
  have htake : (H.bzCompress x ++ post).take ((H.bzCompress x).length + k) =
      H.bzCompress x ++ post.take k := List.take_length_add_append k
  simp only [bzOpen, hneg, if_false, List.drop_left, hnat, htake, hbz.inverse x _ hx]

/-! ## Replaying the blocks -/

/-- The decoder, at `s` of the new data and `p` of the old data, rebuilds the new data from the
remaining blocks. Blocks left over when the new data is complete are not looked at. -/
theorem patchLoop_encodes {N : Numbers} {bound : Int} (hN : N.Keeps bound) (hbound : 2 ^ 31 ≤ bound)
    {old new : Bytes} {s p s' p' : Nat} {ts : List Triple} {d e : Bytes}
    (h : Encodes old new s p ts d e s' p') (hs' : s' = new.length) (hold : old.length < 2 ^ 31)
    (hnew : new.length < 2 ^ 31) (pre post : Bytes) {fuel : Nat} (hfuel : ts.length < fuel)
    (cf df ef : StreamEnd) :
    patchLoop N (pre ++ (old ++ post)) pre.length old.length new.length fuel (new.take s) p
      ⟨controlBytes ts, cf⟩ ⟨d, df⟩ ⟨e, ef⟩ = .ok new := by
  induction h generalizing fuel with
  | nil s p =>
      obtain ⟨fuel, rfl⟩ : ∃ f, fuel = f + 1 := ⟨fuel - 1, by omega⟩
      subst hs'
      simp only [patchLoop, List.take_length, lt_irrefl, if_false]
  | @cons s p s₁ p₁ s₂ p₂ t ts d e ds es head tail ih =>
      obtain ⟨fuel, rfl⟩ : ∃ f, fuel = f + 1 := ⟨fuel - 1, by omega⟩
      have hadd := head.add_nonneg
      have hcopy := head.copy_nonneg
      have hnp := head.new_pos
      have hop := head.old_pos
      have hnl := head.new_le
      have hol := head.old_le
      have hsl := head.seek_le
      have hslen : (new.take s).length = s := by
        rw [List.length_take]
        omega
      by_cases hlt : s < new.length
      · obtain ⟨d', hd', hdlen, hold'⟩ := @diffBytes_spec old new t.add.toNat s p (by omega)
          (by omega)
        cases head.diff.symm.trans hd'
        have hstart : ((s : Int) + t.add) = ((s + t.add.toNat : Nat) : Int) := by omega
        have he := head.extra
        rw [hstart, copyBytes_eq (by omega)] at he
        cases he
        have helen : ((new.drop (s + t.add.toNat)).take t.copy.toNat).length = t.copy.toNat := by
          rw [List.length_take, List.length_drop]
          omega
        -- the three numbers of the triple
        have hctrl : controlBytes (t :: ts) =
            (offtout t.add ++ (offtout t.copy ++ offtout t.seek)) ++ controlBytes ts := by
          simp only [controlBytes, List.flatMap_cons]
        have h0 := offtin_offtout [] (offtout t.copy ++ offtout t.seek) (show (0 : Int) = _ by rfl)
          (show -2 ^ 63 < t.add by omega) (by omega) (hN.off t.add (by omega) (by omega))
        have h1 := offtin_offtout (offtout t.add) (offtout t.seek) (show (8 : Int) = _ by rfl)
          (show -2 ^ 63 < t.copy by omega) (by omega) (hN.off t.copy (by omega) (by omega))
        have h2 := offtin_offtout (offtout t.add ++ offtout t.copy) [] (show (16 : Int) = _ by rfl)
          (show -2 ^ 63 < t.seek by omega) (by omega) (hN.off t.seek (by omega) (by omega))
        rw [List.nil_append] at h0
        rw [List.append_nil, List.append_assoc] at h2
        -- the new data after the two parts of the block
        have hmid : new.take s ++ (new.drop s).take t.add.toNat = new.take (s + t.add.toNat) :=
          List.take_add.symm
        have hend : new.take (s + t.add.toNat) ++ (new.drop (s + t.add.toNat)).take t.copy.toNat =
            new.take s₁ := by
          rw [← List.take_add]
          congr 1
          omega
        have hmidlen : (new.take (s + t.add.toNat)).length = s + t.add.toNat := by
          rw [List.length_take]
          omega
        have hfit0 : ¬ ((new.length : Int) < N.off ((s : Int) + t.add)) := by
          rw [hN.off _ (by omega) (by omega)]
          omega
        have hfit1 : ¬ ((new.length : Int) < N.off (((s + t.add.toNat : Nat) : Int) + t.copy)) := by
          rw [hN.off _ (by omega) (by omega)]
          omega
        -- each part is as long as its number says
        have hcount0 := hN.counter t.add hadd (by omega)
        have hcount1 := hN.counter t.copy hcopy (by omega)
        have hall0 : ¬ ((d.length : Int) ≠ t.add ∨ 2 ^ 31 ≤ t.add) := by omega
        have hall1 : ¬ (((new.drop (s + t.add.toNat)).take t.copy.toNat).length : Int) ≠ t.copy := by
          omega
        have hnext : N.off ((p : Int) + t.add + t.seek) = p₁ := by
          rw [← hop]
          exact hN.off _ (by omega) (by omega)
        rw [hctrl]
        simp only [patchLoop, hslen, hlt, if_true,
          fillBuffer_append (show (24 : Int) =
            (offtout t.add ++ (offtout t.copy ++ offtout t.seek)).length by rfl) (Nat.le_refl 24),
          Decode.ok_bind, h0, h1, h2, Decode.ofAccess_some, hfit0, if_false, hcount0, hcount1]
        rw [fillBuffer_append (by omega) (by omega)]
        simp only [Decode.ok_bind, hall0, hold' pre post, Decode.ofAccess_some, hmid, hmidlen, hfit1,
          if_false]
        rw [fillBuffer_append (by omega) (by omega)]
        simp only [Decode.ok_bind, hall1, hend, hnext, if_false]
        exact ih hs' (by simpa using hfuel)
      · have hall : new.take s = new := List.take_of_length_le (by omega)
        simp only [patchLoop, hall, lt_irrefl, if_false]

/-! ## The patch file -/

theorem length_controlBytes (ts : List Triple) : (controlBytes ts).length = 24 * ts.length := by
  induction ts with
  | nil => rfl
  | cons t ts ih =>
      have hcons : controlBytes (t :: ts) =
          (offtout t.add ++ (offtout t.copy ++ offtout t.seek)) ++ controlBytes ts := by
        simp only [controlBytes, List.flatMap_cons]
      rw [hcons, List.length_append, ih, List.length_cons]
      simp only [List.length_append, length_offtout]
      ring

/-- The blocks of a scan, as the two programs need them: they encode the whole new data, and both
sides are in the range of `int`, which `FillBuffer` and `BZ2_bzWrite` take their sizes in. -/
structure Complete (old new : Bytes) (st : DiffState) : Prop where
  encodes : ∃ p, Encodes old new 0 0 st.ctrl st.db st.eb new.length p
  count : st.ctrl.length ≤ new.length + 2
  old_lt : old.length < 2 ^ 31
  new_lt : new.length < 2 ^ 31

/-- A patch is applied wherever it stands in the patch file and wherever the old data stands in the
source, with any numbers that hold the length of the patch file. -/
theorem applyBSDiffPatchNumbers_patchFile {N : Numbers} {bound : Int} (hN : N.Keeps bound)
    (hbound : 2 ^ 31 ≤ bound) {H : HostLibs} (hbz : Bzip2 H) {old new : Bytes} {st : DiffState}
    (h : Complete old new st) (opre opost pre post : Bytes) {patch : Value}
    (hdata : patch.data = some (pre ++ (patchFile H new st ++ post)))
    (hsize : patch.size = (pre ++ (patchFile H new st ++ post)).length)
    (hfits : ((pre ++ (patchFile H new st ++ post)).length : Int) < bound) :
    applyBSDiffPatchNumbers N H.toLibs (opre ++ (old ++ opost)) opre.length old.length patch
      pre.length = .ok new := by
  obtain ⟨p, henc⟩ := h.encodes
  have hnew := h.new_lt
  have hcount := h.count
  have hblocks := henc.length_eq
  have hclen := length_controlBytes st.ctrl
  have hcz := hbz.length_le (controlBytes st.ctrl)
  have hdz := hbz.length_le st.db
  generalize hC : H.bzCompress (controlBytes st.ctrl) = C at hcz
  generalize hD : H.bzCompress st.db = D at hdz
  generalize hX : H.bzCompress st.eb = X
  have hfile : patchFile H new st = cstr "BSDIFF40" ++ (offtout C.length ++ (offtout D.length ++
      (offtout new.length ++ (C ++ (D ++ X))))) := by
    rw [patchFile, hC, hD, hX]
  have hmagic : (cstr "BSDIFF40").length = 8 := rfl
  rw [hfile] at hdata hsize hfits
  simp only [List.append_assoc] at hdata
  simp only [List.length_append, length_offtout, hmagic] at hsize hfits
  -- the header
  have hm := slice_append pre (cstr "BSDIFF40") (offtout C.length ++ (offtout D.length ++
    (offtout new.length ++ (C ++ (D ++ (X ++ post)))))) pre.length 8 rfl rfl
  have h1 := @offtin_offtout N (pre ++ cstr "BSDIFF40") (offtout D.length ++ (offtout new.length ++
    (C ++ (D ++ (X ++ post))))) (pre.length + 8) C.length
    (by rw [List.length_append, hmagic]; push_cast; rfl) (by omega) (by omega)
    (hN.off _ (by omega) (by omega))
  have h2 := @offtin_offtout N (pre ++ (cstr "BSDIFF40" ++ offtout C.length)) (offtout new.length ++
    (C ++ (D ++ (X ++ post)))) (pre.length + 16) D.length
    (by simp only [List.length_append, hmagic, length_offtout]; push_cast; rfl) (by omega)
    (by omega) (hN.off _ (by omega) (by omega))
  have h3 := @offtin_offtout N (pre ++ (cstr "BSDIFF40" ++ (offtout C.length ++ offtout D.length)))
    (C ++ (D ++ (X ++ post))) (pre.length + 24) new.length
    (by simp only [List.length_append, hmagic, length_offtout]; push_cast; rfl) (by omega)
    (by omega) (hN.off _ (by omega) (by omega))
  simp only [List.append_assoc] at h1 h2 h3
  -- the three streams
  have hc := bzOpen_append hbz (show (controlBytes st.ctrl).length < 2 ^ 62 by omega)
    (pre ++ (cstr "BSDIFF40" ++ (offtout C.length ++ (offtout D.length ++ offtout new.length))))
    (D ++ (X ++ post)) (n := ((pre.length : Int) + 32).toNat)
    (by simp only [List.length_append, hmagic, length_offtout]; omega) 0
    (show N.counter C.length = _ by rw [hN.counter _ (by omega) (by omega), hC]; rfl)
  have hd := bzOpen_append hbz (show st.db.length < 2 ^ 62 by omega)
    (pre ++ (cstr "BSDIFF40" ++ (offtout C.length ++ (offtout D.length ++ (offtout new.length ++
      C)))))
    (X ++ post) (n := ((pre.length : Int) + 32).toNat + C.length)
    (by simp only [List.length_append, hmagic, length_offtout]; omega) 0
    (show N.counter D.length = _ by rw [hN.counter _ (by omega) (by omega), hD]; rfl)
  have he := bzOpen_append hbz (show st.eb.length < 2 ^ 62 by omega)
    (pre ++ (cstr "BSDIFF40" ++ (offtout C.length ++ (offtout D.length ++ (offtout new.length ++
      (C ++ D))))))
    post (n := ((pre.length : Int) + 32).toNat + C.length + D.length)
    (by simp only [List.length_append, hmagic, length_offtout]; omega) post.length
    (show N.counter (patch.size - ((pre.length : Int) + 32 + C.length + D.length)) = _ by
      rw [hX, hN.counter _ (by omega) (by omega), hsize]; push_cast; omega)
  rw [hC] at hc
  rw [hD] at hd
  rw [hX] at he
  simp only [List.append_assoc] at hc hd he
  have hnn : ¬ ((C.length : Int) < 0 ∨ (D.length : Int) < 0 ∨ (new.length : Int) < 0) := by omega
  have hloop := @patchLoop_encodes N bound hN hbound old new 0 0 new.length p st.ctrl st.db st.eb henc
    rfl h.old_lt hnew opre opost ((controlBytes st.ctrl).length + 1) (by omega) .streamEnd .streamEnd
    .streamEnd
  simp only [applyBSDiffPatchNumbers, hdata, Decode.ofAccess_some, Decode.ok_bind, hm, ne_eq,
    not_true_eq_false, if_false, h1, h2, h3, hnn, hc, hd, he, Int.toNat_natCast]
  exact hloop

/-- The decoder of the target applies it when the patch file is smaller than 2 GiB. -/
theorem applyBSDiffPatchMem_patchFile {H : HostLibs} (hbz : Bzip2 H) {old new : Bytes}
    {st : DiffState} (h : Complete old new st) (opre opost pre post : Bytes) {patch : Value}
    (hdata : patch.data = some (pre ++ (patchFile H new st ++ post)))
    (hsize : patch.size = (pre ++ (patchFile H new st ++ post)).length)
    (hsmall : (pre ++ (patchFile H new st ++ post)).length < 2 ^ 31) :
    applyBSDiffPatchMem H.toLibs (opre ++ (old ++ opost)) opre.length old.length patch
      pre.length = .ok new :=
  applyBSDiffPatchNumbers_patchFile (Numbers.keeps_target H.toLibs) le_rfl hbz h opre opost pre post
    hdata hsize (by exact_mod_cast hsmall)

/-- `bsdiff`, then `ApplyBSDiffPatchMem`, is the identity, whatever suffix array the scan uses. The
scan ends without an access outside a buffer, and the lengths in the control triples add up to
the length of the new data. The decoder needs numbers that hold the length of the patch: those of the
target do so below 2 GiB. -/
theorem bsdiff_bspatch (H : HostLibs) (hbz : Bzip2 H)
    (qsufsort : (old : Bytes) → SuffixIndex old) (old : Bytes) (IP : Option (SuffixIndex old))
    (new : Bytes) (hold : old.length < 2 ^ 31) (hnew : new.length < 2 ^ 31) :
    ∃ st patch I, diffBlocks (IP.getD (qsufsort old)) new = some st ∧
      bsdiff H qsufsort old IP new = some (patch, I) ∧
      (∀ t ∈ st.ctrl, 0 ≤ t.add ∧ 0 ≤ t.copy) ∧
      (st.ctrl.map fun t => t.add + t.copy).sum = new.length ∧
      st.db.length + st.eb.length = new.length ∧
      applyBSDiffPatchNumbers .unbounded H.toLibs old 0 old.length (blobValue patch) 0 = .ok new ∧
      (patch.length < 2 ^ 31 →
        applyBSDiffPatchMem H.toLibs old 0 old.length (blobValue patch) 0 = .ok new) := by
  obtain ⟨st, p, hst, henc, hcount⟩ := diffBlocks_spec (IP.getD (qsufsort old)) new
  have hcomplete : Complete old new st := ⟨⟨p, henc⟩, hcount, hold, hnew⟩
  have hwide := @applyBSDiffPatchNumbers_patchFile .unbounded
    ((patchFile H new st).length + 2 ^ 31) (Numbers.keeps_unbounded _) (by omega) H hbz old new st
    hcomplete [] [] [] [] (blobValue (patchFile H new st)) (by simp [blobValue]) (by simp [blobValue])
    (by simp)
  have hsum := henc.sum_eq
  have hlen := henc.length_eq
  refine ⟨st, patchFile H new st, IP.getD (qsufsort old), hst, ?_, ?_, by omega, by omega, ?_, ?_⟩
  · simp only [bsdiff, hst, Option.bind_eq_bind, Option.bind_some]
    rfl
  · intro t ht
    obtain ⟨hadd, hcopy, -⟩ := henc.bounds t ht
    exact ⟨hadd, hcopy⟩
  · simpa using hwide
  · intro hsmall
    have hnarrow := @applyBSDiffPatchMem_patchFile H hbz old new st hcomplete [] [] [] []
      (blobValue (patchFile H new st)) (by simp [blobValue]) (by simp [blobValue])
      (by simpa using hsmall)
    simpa using hnarrow

/-! ## A sample patch

`Sample.compress` agrees with bzip2 on the data in a table and stores anything else with its length
in front of it. -/

namespace Sample

/-- Data and the stream `BZ2_bzWrite` makes of it, at block size 9. -/
abbrev BzTable := List (Bytes × Bytes)

/-- The stream in the table, or else the data behind its length. -/
def compress (t : BzTable) (x : Bytes) : Bytes :=
  (t.lookup x).getD (0 :: (write8 x.length ++ x))

/-- What `decompress` makes of a buffer that begins with a stream. -/
def decompress (t : BzTable) : Bytes → Bytes × BzEnd
  | 0 :: y => ((y.drop 8).take (leNat (y.take 8)), .streamEnd)
  | y =>
      match t.find? fun e => e.2.isPrefixOf y with
      | some e => (e.1, .streamEnd)
      | none => ([], .dataError)

/-- The streams of a table are no longer than bzip2 allows, they do not begin with 0, and none is
the beginning of another. -/
def Sound (t : BzTable) : Prop :=
  (∀ e ∈ t, e.2.length ≤ e.1.length + e.1.length / 100 + 600) ∧ (∀ e ∈ t, e.2.headD 0 ≠ 0) ∧
    ∀ e ∈ t, ∀ e' ∈ t, (e.2 <+: e'.2 ∨ e'.2 <+: e.2) → e.1 = e'.1

instance (t : BzTable) : Decidable (Sound t) := by
  unfold Sound
  infer_instance

theorem decompress_compress {t : BzTable} (ht : Sound t) {x : Bytes} (hx : x.length < 2 ^ 62)
    (post : Bytes) : decompress t (compress t x ++ post) = (x, .streamEnd) := by
  cases hlook : t.lookup x with
  | none =>
      have hlen := leNat_write8 x.length
      rw [Int.emod_eq_of_lt (by omega) (by omega)] at hlen
      have hnat : leNat (write8 x.length) = x.length := by omega
      simp only [compress, hlook, Option.getD_none, List.cons_append, List.append_assoc, decompress]
      rw [List.drop_left' (length_write8 _), List.take_left' (length_write8 _), hnat, List.take_left]
  | some z =>
      have hmem : (x, z) ∈ t := by
        obtain ⟨l, r, hl, -⟩ := List.lookup_eq_some_iff.mp hlook
        rw [hl]
        simp
      have hhead := ht.2.1 _ hmem
      simp only [compress, hlook, Option.getD_some]
      cases z with
      | nil => exact absurd rfl hhead
      | cons b z =>
          have hb : b ≠ 0 := hhead
          have hfind : ∃ e, (t.find? fun e => e.2.isPrefixOf (b :: z ++ post)) = some e ∧
              e.1 = x := by
            have hsome : (t.find? fun e => e.2.isPrefixOf (b :: z ++ post)).isSome := by
              rw [List.find?_isSome]
              exact ⟨_, hmem, List.isPrefixOf_iff_prefix.mpr (List.prefix_append _ _)⟩
            obtain ⟨e, he⟩ := Option.isSome_iff_exists.mp hsome
            have htest := @List.find?_some _
              (fun e : Bytes × Bytes => e.2.isPrefixOf (b :: z ++ post)) _ _ he
            have hpre := List.isPrefixOf_iff_prefix.mp htest
            have hcomp := List.prefix_or_prefix_of_prefix hpre (List.prefix_append (b :: z) post)
            exact ⟨e, he, ht.2.2 e (List.mem_of_find?_eq_some he) _ hmem hcomp⟩
          obtain ⟨e, he, hex⟩ := hfind
          rw [decompress, he]
          · simp only [hex]
          · intro y hy
            exact hb (List.cons.inj hy).1

/-- Libraries with the streams of a table. -/
def host (t : BzTable) : HostLibs where
  sha1 _ := []
  bzDecompress := decompress t
  inflate _ := none
  inflateStarved _ := none
  deflate _ _ := none
  sizeBits := 32
  wide := Libs.wide_narrow
  bzCompress := compress t

theorem host_bzip2 {t : BzTable} (ht : Sound t) : Bzip2 (host t) where
  inverse x post hx := decompress_compress ht hx post
  length_le x := by
    cases hlook : t.lookup x with
    | none =>
        simp only [host, compress, hlook, Option.getD_none, List.length_cons, List.length_append,
          length_write8]
        omega
    | some z =>
        obtain ⟨l, r, hl, -⟩ := List.lookup_eq_some_iff.mp hlook
        simp only [host, compress, hlook, Option.getD_some]
        exact ht.1 (x, z) (by rw [hl]; simp)

/-- Lexicographic order of suffixes. -/
def suffixLe : Bytes → Bytes → Bool
  | [], _ => true
  | _ :: _, [] => false
  | a :: as, b :: bs => a < b || a = b && suffixLe as bs

/-- The suffix array. -/
def suffixArray (old : Bytes) : SuffixIndex old where
  entries := (List.range (old.length + 1)).insertionSort fun i j =>
    suffixLe (old.drop i) (old.drop j)
  length_eq := by simp
  le_length k hk := by
    rw [List.mem_insertionSort, List.mem_range] at hk
    omega

def old : Bytes := cstr "0123456789abcdefghij"

def new : Bytes := cstr "abcdefghij0123456789"

/-- The three streams of the patch from `old` to `new`. -/
def swapStreams : BzTable :=
  [(controlBytes [⟨0, 0, 10⟩, ⟨10, 0, -20⟩, ⟨10, 0, -10⟩],
    [0x42, 0x5a, 0x68, 0x39, 0x31, 0x41, 0x59, 0x26, 0x53, 0x59, 0x3f, 0x89, 0xe5, 0xc0, 0x00,
      0x00, 0x02, 0xe0, 0x40, 0x58, 0x1c, 0x04, 0x00, 0x40, 0x00, 0x20, 0x00, 0x31, 0x0c, 0x08,
      0x19, 0x19, 0x32, 0x29, 0x86, 0xa2, 0x08, 0x95, 0x56, 0x5d, 0x1e, 0x2e, 0xe4, 0x8a, 0x70,
      0xa1, 0x20, 0x7f, 0x13, 0xcb, 0x80]),
    (List.replicate 20 0,
    [0x42, 0x5a, 0x68, 0x39, 0x31, 0x41, 0x59, 0x26, 0x53, 0x59, 0xb1, 0xd9, 0xab, 0xf0, 0x00,
      0x00, 0x00, 0x60, 0x00, 0x40, 0x00, 0x40, 0x00, 0x20, 0x00, 0x21, 0x00, 0x82, 0x83, 0x17,
      0x72, 0x45, 0x38, 0x50, 0x90, 0xb1, 0xd9, 0xab, 0xf0]),
    ([], [0x42, 0x5a, 0x68, 0x39, 0x17, 0x72, 0x45, 0x38, 0x50, 0x90, 0x00, 0x00, 0x00, 0x00])]

/-- Two halves exchanged: a patch with seeks in both directions and an empty block. -/
theorem bsdiff_bspatch_swapped :
    ((diffBlocks (suffixArray old) new).map fun st => (st.ctrl, st.db, st.eb)) =
      some ([⟨0, 0, 10⟩, ⟨10, 0, -20⟩, ⟨10, 0, -10⟩], List.replicate 20 0, []) ∧
    ∃ st patch I, diffBlocks (suffixArray old) new = some st ∧
      bsdiff (host swapStreams) suffixArray old none new = some (patch, I) ∧
      (∀ t ∈ st.ctrl, 0 ≤ t.add ∧ 0 ≤ t.copy) ∧
      (st.ctrl.map fun t => t.add + t.copy).sum = new.length ∧
      st.db.length + st.eb.length = new.length ∧
      applyBSDiffPatchNumbers .unbounded (host swapStreams).toLibs old 0 old.length
        (blobValue patch) 0 = .ok new ∧
      (patch.length < 2 ^ 31 →
        applyBSDiffPatchMem (host swapStreams).toLibs old 0 old.length (blobValue patch) 0 =
          .ok new) :=
  ⟨by decide +kernel,
    bsdiff_bspatch (host swapStreams) (host_bzip2 (by decide +kernel)) suffixArray old none new
      (by decide) (by decide)⟩

end Sample

end OpenRecovery.ImgDiff
