import OpenRecovery.ImgDiff.MergeInPlace
import OpenRecovery.ImgDiff.ReadImage

/-!
# The pairs of image mode

In image mode `main` pairs the chunks of the two lists by their index, demotes the chunks of a pair
together and merges both lists in place. The chunks of both lists are consecutive, so what merging
joins depends on the types alone: the lists stay paired (`DemotesAll.counterparts`), whichever pairs
are demoted.
-/

set_option autoImplicit false

namespace OpenRecovery.ImgDiff

open OpenRecovery.ApplyPatch OpenRecovery.Edify OpenRecovery.Storage

/-! ## What merging keeps -/

/-- The list `cs'` is `cs` with every run of normal chunks made one. -/
structure Merged (pos fin : Nat) (cs cs' : List ImageChunk) : Prop where
  consecutive : Consecutive pos cs' fin
  covered : covered cs' = covered cs
  others : cs'.filter (·.type ≠ .normal) = cs.filter (·.type ≠ .normal)
  noPair : NoNormalPair cs'

/-- Elements that are the same chunk but for what only deflate chunks use. -/
theorem Alike.extent {c d : ImageChunk} (h : Alike c d) : c.extent = d.extent := by
  by_cases hd : d.type = .normal
  · rw [extent_normal (h.type.trans hd), extent_normal hd, h.len]
  · rw [h.eq_of_ne hd]

/-- Alike chunks are at the same positions. -/
theorem Alike.positions {c d : ImageChunk} (h : Alike c d) : c.positions = d.positions := by
  rw [ImageChunk.positions, ImageChunk.positions, h.start, h.extent]

/-- They lie in the same place. -/
theorem Alike.placed {pos : Nat} {c d : ImageChunk} (h : Alike c d) (hd : Placed pos d) :
    Placed pos c := by
  by_cases ht : d.type = .normal
  · have hc := h.type.trans ht
    exact ⟨h.start.trans hd.start, fun _ => h.data.trans (hd.data ht), fun hx => by simp [hc] at hx⟩
  · rwa [h.eq_of_ne ht]

/-- They are merged from the same chunks. -/
theorem Alike.mergedFrom {run : List ImageChunk} {c d : ImageChunk} (h : Alike c d)
    (hd : MergedFrom run d) : MergedFrom run c where
  ne_nil := hd.ne_nil
  types e he := (hd.types e he).trans h.type.symm
  positions := hd.positions.trans h.positions.symm
  alone hne := by
    rw [h.type] at hne
    rw [h.eq_of_ne hne]
    exact hd.alone hne

/-- Lists of alike chunks lie one after the other alike. -/
theorem Alike.consecutive {cs ds : List ImageChunk} (h : List.Forall₂ Alike cs ds) {pos fin : Nat}
    (hd : Consecutive pos ds fin) : Consecutive pos cs fin := by
  induction h generalizing pos with
  | nil => exact hd
  | cons hcd _ ih =>
      cases hd with
      | cons hhead htail =>
          -- the fields that differ say nothing about the place of a normal chunk
          refine .cons (hcd.placed hhead) ?_
          rw [hcd.extent]
          exact ih htail

/-- They have the same types. -/
theorem Alike.types {cs ds : List ImageChunk} (h : List.Forall₂ Alike cs ds) :
    cs.map ImageChunk.type = ds.map ImageChunk.type := by
  induction h with
  | nil => rfl
  | cons hcd _ ih => rw [List.map_cons, List.map_cons, hcd.type, ih]

/-- They are merged from the same runs. -/
theorem Alike.runs {α : Type} {f : α → ImageChunk} {runs : List (List α)} {cs ds : List ImageChunk}
    (h : List.Forall₂ Alike cs ds)
    (hd : List.Forall₂ (fun run d => MergedFrom (run.map f) d) runs ds) :
    List.Forall₂ (fun run c => MergedFrom (run.map f) c) runs cs := by
  induction h generalizing runs with
  | nil => exact hd
  | cons hcd _ ih =>
      cases hd with
      | cons hhead htail => exact .cons (hcd.mergedFrom hhead) (ih htail)

/-- The chunks that stand for runs cover what the runs cover. -/
theorem covered_runs {runs : List (List ImageChunk)} {cs : List ImageChunk}
    (h : List.Forall₂ MergedFrom runs cs) : covered cs = covered runs.flatten := by
  induction h with
  | nil => rfl
  | cons hrun _ ih =>
      rw [covered, List.flatMap_cons, ← covered, ih, ← hrun.positions, List.flatten_cons, covered,
        covered, covered, List.flatMap_append]

/-- And the chunks that are not normal are those of the runs. -/
theorem others_runs {runs : List (List ImageChunk)} {cs : List ImageChunk}
    (h : List.Forall₂ MergedFrom runs cs) :
    cs.filter (·.type ≠ .normal) = runs.flatten.filter (·.type ≠ .normal) := by
  induction h with
  | nil => rfl
  | @cons run c _ _ hrun _ ih =>
      rw [List.flatten_cons, List.filter_append, ← ih]
      by_cases hc : c.type = .normal
      · -- a run that is merged has normal chunks only
        have hnone : run.filter (·.type ≠ .normal) = [] :=
          List.filter_eq_nil_iff.mpr fun d hd => by simp [hrun.types d hd, hc]
        rw [hnone, List.nil_append, List.filter_cons_of_neg (by simp [hc])]
      · rw [hrun.alone hc, List.filter_cons_of_pos (by simp [hc])]
        simp [hc]

/-- Two normal chunks in a row are seen at the types. -/
theorem noNormalPair_iff {cs : List ImageChunk} :
    NoNormalPair cs ↔
      (cs.map ImageChunk.type).IsChain fun a b => ¬ (a = .normal ∧ b = .normal) := by
  rw [NoNormalPair, List.isChain_map]

section InPlace

variable {pos fin n : Nat} {chunks : List ImageChunk}

/-- What `MergeAdjacentNormalChunks` leaves of consecutive chunks, and from what. -/
theorem mergeInPlace_runs {α : Type} (t : α → ChunkType) (f : α → ImageChunk) {zs : List α}
    (ht : ∀ z ∈ zs, (f z).type = t z) (hzs : chunks.take n = zs.map f) (hn : n ≤ chunks.length)
    (h : Consecutive pos (chunks.take n) fin) :
    ∃ chunks' out, mergeInPlace chunks n = some (chunks', out) ∧ chunks'.length = chunks.length ∧
      out ≤ n ∧ Consecutive pos (chunks'.take out) fin ∧
      (chunks'.take out).map ImageChunk.type = squash (zs.map t) ∧
      List.Forall₂ (fun run c => MergedFrom (run.map f) c) (zs.splitBy (joins t))
        (chunks'.take out) := by
  obtain ⟨chunks', out, hmerge, hlen, hout, halike⟩ := mergeInPlace_spec hn
  refine ⟨chunks', out, hmerge, hlen, hout,
    Alike.consecutive halike (consecutive_mergeAdjacentNormalChunks h), ?_, ?_⟩
  · rw [Alike.types halike, h.types_merge, hzs, List.map_map]
    exact congrArg squash (List.map_congr_left ht)
  · rw [hzs] at h halike
    exact Alike.runs halike (mergedFrom_runs t f ht h)

/-- The merge in place merges, and a second one changes nothing. -/
theorem mergeInPlace_merged (hn : n ≤ chunks.length) (h : Consecutive pos (chunks.take n) fin) :
    ∃ chunks' out, mergeInPlace chunks n = some (chunks', out) ∧ out ≤ n ∧
      Merged pos fin (chunks.take n) (chunks'.take out) ∧
      mergeInPlace chunks' out = some (chunks', out) := by
  obtain ⟨chunks', out, hmerge, hlen, hout, hrow, htypes, hruns⟩ :=
    mergeInPlace_runs ImageChunk.type id (fun _ _ => rfl) (List.map_id _).symm hn h
  simp only [List.map_id_fun, id] at hruns
  have hpair : NoNormalPair (chunks'.take out) := by
    rw [noNormalPair_iff, htypes]
    exact isChain_squash _
  refine ⟨chunks', out, hmerge, hout, ⟨hrow, ?_, ?_, hpair⟩, ?_⟩
  · rw [covered_runs hruns, List.flatten_splitBy]
  · rw [others_runs hruns, List.flatten_splitBy]
  · exact mergeInPlace_fixed (by omega) hpair

end InPlace

/-! ## Demotion in pairs -/

/-- What the loop of `main` may do to a pair: set the parameters of the target chunk, and demote
both chunks or neither. -/
inductive Demotes (src tgt : ImageChunk) : ImageChunk → ImageChunk → Prop where
  | kept (params : DeflateParams) : Demotes src tgt src { tgt with params := params }
  | demoted (params : DeflateParams) : Demotes src tgt (changeDeflateChunkToNormal src)
      (changeDeflateChunkToNormal { tgt with params := params })

/-- What it may do to the two lists. -/
inductive DemotesAll : List ImageChunk → List ImageChunk → List ImageChunk → List ImageChunk → Prop
  where
  | nil : DemotesAll [] [] [] []
  | cons {src tgt src' tgt' : ImageChunk} {srcs tgts srcs' tgts' : List ImageChunk}
      (head : Demotes src tgt src' tgt') (tail : DemotesAll srcs tgts srcs' tgts') :
      DemotesAll (src :: srcs) (tgt :: tgts) (src' :: srcs') (tgt' :: tgts')

namespace Demotes

variable {src tgt src' tgt' : ImageChunk}

theorem types (h : Demotes src tgt src' tgt') (htype : src.type = tgt.type) :
    src'.type = tgt'.type := by
  cases h with
  | kept params => exact htype
  | demoted params => rw [type_changeToNormal, type_changeToNormal, htype]

theorem positions (h : Demotes src tgt src' tgt') :
    src'.positions = src.positions ∧ tgt'.positions = tgt.positions := by
  cases h with
  | kept params => exact ⟨rfl, rfl⟩
  | demoted params => exact ⟨positions_changeToNormal src, positions_changeToNormal _⟩

theorem extent (h : Demotes src tgt src' tgt') :
    src'.extent = src.extent ∧ tgt'.extent = tgt.extent := by
  cases h with
  | kept params => exact ⟨rfl, rfl⟩
  | demoted params => exact ⟨extent_changeToNormal src, extent_changeToNormal _⟩

theorem placed (h : Demotes src tgt src' tgt') {p q : Nat} (hs : Placed p src)
    (ht : Placed q tgt) : Placed p src' ∧ Placed q tgt' := by
  cases h with
  | kept params => exact ⟨hs, ht.withParams params⟩
  | demoted params => exact ⟨hs.changeToNormal, (ht.withParams params).changeToNormal⟩

end Demotes

/-- The chunks of `srcs'` and `tgts'` that stand at the same index are made of the same pairs of
`srcs` and `tgts`. -/
def Counterparts (srcs tgts srcs' tgts' : List ImageChunk) : Prop :=
  ∃ runs : List (List (ImageChunk × ImageChunk)), runs.flatten = srcs.zip tgts ∧
    List.Forall₂ (fun run c => MergedFrom (run.map Prod.fst) c) runs srcs' ∧
    List.Forall₂ (fun run c => MergedFrom (run.map Prod.snd) c) runs tgts'

namespace DemotesAll

variable {srcs tgts srcs' tgts' : List ImageChunk}

theorem types (h : DemotesAll srcs tgts srcs' tgts')
    (htypes : srcs.map ImageChunk.type = tgts.map ImageChunk.type) :
    srcs'.map ImageChunk.type = tgts'.map ImageChunk.type := by
  induction h with
  | nil => rfl
  | cons hpair _ ih =>
      rw [List.map_cons, List.map_cons, List.cons.injEq] at htypes ⊢
      exact ⟨hpair.types htypes.1, ih htypes.2⟩

/-- Every chunk stays in its place. -/
theorem positions (h : DemotesAll srcs tgts srcs' tgts') :
    srcs'.map ImageChunk.positions = srcs.map ImageChunk.positions ∧
      tgts'.map ImageChunk.positions = tgts.map ImageChunk.positions := by
  induction h with
  | nil => exact ⟨rfl, rfl⟩
  | cons hpair _ ih =>
      rw [List.map_cons, List.map_cons, List.map_cons, List.map_cons, hpair.positions.1,
        hpair.positions.2, ih.1, ih.2]
      exact ⟨rfl, rfl⟩

theorem consecutive (h : DemotesAll srcs tgts srcs' tgts') {p f q g : Nat}
    (hs : Consecutive p srcs f) (ht : Consecutive q tgts g) :
    Consecutive p srcs' f ∧ Consecutive q tgts' g := by
  induction h generalizing p q with
  | nil => exact ⟨hs, ht⟩
  | cons hpair _ ih =>
      cases hs with
      | cons hsrc hsrcs =>
          cases ht with
          | cons htgt htgts =>
              obtain ⟨hsrc', htgt'⟩ := hpair.placed hsrc htgt
              obtain ⟨hsrcs', htgts'⟩ := ih hsrcs htgts
              refine ⟨.cons hsrc' ?_, .cons htgt' ?_⟩
              · rwa [hpair.extent.1]
              · rwa [hpair.extent.2]

end DemotesAll

section MergeBoth

variable {srcs tgts : List ImageChunk} {p f q g : Nat}

/-- Both lists, merged in place, are still paired. -/
structure MergedPair (srcs tgts : List ImageChunk) (ss : List ImageChunk) (n : Nat)
    (ts : List ImageChunk) (m : Nat) : Prop where
  sources : mergeInPlace srcs srcs.length = some (ss, n)
  targets : mergeInPlace tgts tgts.length = some (ts, m)
  number : n = m
  types : (ss.take n).map ImageChunk.type = (ts.take m).map ImageChunk.type
  counterparts : Counterparts srcs tgts (ss.take n) (ts.take m)

/-- Both lists are merged alike. -/
theorem mergeBoth_spec (hs : Consecutive p srcs f) (ht : Consecutive q tgts g)
    (htypes : srcs.map ImageChunk.type = tgts.map ImageChunk.type) :
    ∃ ss n ts m, MergedPair srcs tgts ss n ts m := by
  have hlength : srcs.length = tgts.length := by
    simpa using congrArg List.length htypes
  -- the types of the pairs tell the runs of both lists
  let t : ImageChunk × ImageChunk → ChunkType := fun z => z.1.type
  have htgt : ∀ z ∈ srcs.zip tgts, z.2.type = t z := by
    have hall : List.Forall₂ Eq (srcs.map ImageChunk.type) (tgts.map ImageChunk.type) := by
      rw [List.forall₂_eq_eq_eq]
      exact htypes
    rw [List.forall₂_map_left_iff, List.forall₂_map_right_iff] at hall
    exact fun z hz => (List.forall₂_zip hall hz).symm
  have hfst : srcs.take srcs.length = (srcs.zip tgts).map Prod.fst := by
    rw [List.take_length, List.map_fst_zip hlength.le]
  have hsnd : tgts.take tgts.length = (srcs.zip tgts).map Prod.snd := by
    rw [List.take_length, List.map_snd_zip hlength.ge]
  obtain ⟨ss, n, hss, hslen, hn, -, hstypes, hsruns⟩ :=
    mergeInPlace_runs t Prod.fst (fun _ _ => rfl) hfst le_rfl (by rwa [List.take_length])
  obtain ⟨ts, m, hts, htlen, hm, -, httypes, htruns⟩ :=
    mergeInPlace_runs t Prod.snd htgt hsnd le_rfl (by rwa [List.take_length])
  -- the types of both merged lists are those of the pairs, squashed
  have hsame := hstypes.trans httypes.symm
  refine ⟨ss, n, ts, m, hss, hts, ?_, hsame, _, List.flatten_splitBy _ _, hsruns, htruns⟩
  have hcount := congrArg List.length hsame
  rw [List.length_map, List.length_map, List.length_take, List.length_take] at hcount
  omega

/-- Whichever pairs have been demoted, the merged lists are paired. -/
theorem DemotesAll.mergedPair {srcs' tgts' : List ImageChunk} (h : DemotesAll srcs tgts srcs' tgts')
    (hs : Consecutive p srcs f) (ht : Consecutive q tgts g)
    (htypes : srcs.map ImageChunk.type = tgts.map ImageChunk.type) :
    ∃ ss n ts m, MergedPair srcs' tgts' ss n ts m :=
  mergeBoth_spec (h.consecutive hs ht).1 (h.consecutive hs ht).2 (h.types htypes)

end MergeBoth

/-! ## The loop of `main` -/

section Main

variable {H : HostLibs} {srcImg tgtImg : Bytes}

/-- What the loop does with a pair of chunks. -/
theorem demotePair_demotes {src tgt src' tgt' : ImageChunk}
    (h : demotePair H srcImg tgtImg src tgt = some (src', tgt')) :
    Demotes src tgt src' tgt' := by
  unfold demotePair at h
  split at h
  · rename_i hd
    simp only [Option.bind_eq_bind, Option.bind_eq_some_iff] at h
    obtain ⟨⟨ok, tgt₁⟩, hrec, h⟩ := h
    obtain ⟨params, rfl, -⟩ := reconstructDeflateChunk_spec hd hrec
    cases ok with
    | false =>
        cases h
        exact .demoted params
    | true =>
        simp only [Bool.not_true, Bool.false_eq_true, if_false, Option.bind_eq_some_iff] at h
        obtain ⟨equal, -, h⟩ := h
        cases equal with
        | true =>
            cases h
            exact .demoted params
        | false =>
            cases h
            exact .kept params
  · cases h
    exact .kept tgt.params

/-- The loop over all pairs. -/
theorem demotePairs_demotes {srcs tgts srcs' tgts' : List ImageChunk}
    (hlength : srcs.length = tgts.length)
    (h : demotePairs H srcImg tgtImg srcs tgts = some (srcs', tgts')) :
    DemotesAll srcs tgts srcs' tgts' := by
  induction tgts generalizing srcs srcs' tgts' with
  | nil =>
      obtain rfl := List.length_eq_zero_iff.mp hlength
      cases h
      exact .nil
  | cons tgt tgts ih =>
      cases srcs with
      | nil => cases hlength
      | cons src srcs =>
          simp only [demotePairs, Option.bind_eq_bind, Option.bind_eq_some_iff] at h
          obtain ⟨⟨src₁, tgt₁⟩, hpair, ⟨srcs₁, tgts₁⟩, hrest, h⟩ := h
          cases h
          exact .cons (demotePair_demotes hpair) (ih (Nat.succ_injective hlength) hrest)

end Main

/-- How `main` gets to the patches of image mode, or to one of its error messages. -/
inductive PairExit where
  /-- "source and target don't have same number of chunks!" -/
  | differentNumber
  /-- "source and target don't have same chunk structure!" -/
  | differentStructure
  /-- "merging normal chunks went awry" -/
  | wentAwry
  | paired (srcs tgts : List ImageChunk)

/-- `main` in image mode from `ReadImage` to the patches. Nothing reads the arrays behind their new
ends. -/
def pairImages (H : HostLibs) (srcImg tgtImg : Bytes) (srcs tgts : List ImageChunk) :
    Option PairExit := do
  let (tgts, numTgt) ← mergeInPlace tgts tgts.length
  let (srcs, numSrc) ← mergeInPlace srcs srcs.length
  let tgts := tgts.take numTgt
  let srcs := srcs.take numSrc
  if numSrc ≠ numTgt then return .differentNumber
  else if srcs.map ImageChunk.type ≠ tgts.map ImageChunk.type then return .differentStructure
  else do
    let (srcs, tgts) ← demotePairs H srcImg tgtImg srcs tgts
    let (tgts, numTgt) ← mergeInPlace tgts tgts.length
    let (srcs, numSrc) ← mergeInPlace srcs srcs.length
    if numSrc ≠ numTgt then return .wentAwry
    else return .paired (srcs.take numSrc) (tgts.take numTgt)

/-- With chunks that lie one after the other, the lists stay of one length. -/
theorem pairImages_ne_wentAwry (H : HostLibs) (srcImg tgtImg : Bytes) {srcs tgts : List ImageChunk}
    {p f q g : Nat} (hs : Consecutive p srcs f) (ht : Consecutive q tgts g) :
    pairImages H srcImg tgtImg srcs tgts ≠ some .wentAwry := by
  intro h
  obtain ⟨tgts₁, m, htmerge, hm, htrow, -⟩ :=
    @mergeInPlace_merged q g _ tgts le_rfl (by rwa [List.take_length])
  obtain ⟨srcs₁, n, hsmerge, hn, hsrow, -⟩ :=
    @mergeInPlace_merged p f _ srcs le_rfl (by rwa [List.take_length])
  simp only [pairImages, htmerge, hsmerge, Option.bind_eq_bind, Option.bind_some] at h
  split at h
  · cases h
  · split at h
    · cases h
    · rename_i htypes
      rw [ne_eq, not_not] at htypes
      obtain ⟨⟨srcs₂, tgts₂⟩, hdemote, h⟩ := Option.bind_eq_some_iff.mp h
      have hlength : (srcs₁.take n).length = (tgts₁.take m).length := by
        simpa only [List.length_map] using congrArg List.length htypes
      -- both lists have the same number of chunks after the second merge too
      obtain ⟨ss, n', ts, m', hpair⟩ := (demotePairs_demotes hlength hdemote).mergedPair
        hsrow.consecutive htrow.consecutive htypes
      simp only [hpair.sources, hpair.targets, Option.bind_some, hpair.number, ne_eq,
        not_true_eq_false, if_false] at h
      cases h

/-! ## The lists of `ReadImage` -/

section Read

variable {L : Libs} {late : Nat → Bool} {unset : Nat → ImageChunk} {img : Bytes}

theorem placed_normalChunk (c : ImageChunk) (pos len : Nat) :
    Placed pos (normalChunk c pos len) :=
  ⟨rfl, fun _ => rfl, fun h => by cases h⟩

theorem placed_deflateChunk (c : ImageChunk) (pos deflateLen len : Nat) (d : Bytes) :
    Placed pos (deflateChunk c pos deflateLen len d) where
  start := rfl
  data h := by cases h
  deflateData _ := rfl

/-- A pass adds its chunks in front of the others. -/
theorem consecutive_readLoop {fuel pos i : Nat} {cs : List ImageChunk}
    (h : readLoop L late unset img fuel pos i = .ok cs) : ∃ fin, Consecutive pos cs fin := by
  induction fuel generalizing pos i cs with
  | zero => cases h
  | succ fuel ih =>
      by_cases hin : pos < img.length
      · obtain ⟨cs', q, rest, hpass, hloop, rfl⟩ := readLoop_ok hin h
        obtain ⟨fin, hrest⟩ := ih hloop
        refine ⟨fin, ?_⟩
        cases readPass_next hin hpass with
        | @member k d v _ hmagic hmember hsize =>
            rw [readPass_member hmagic hmember hsize] at hpass
            cases hpass
            exact .cons (placed_normalChunk _ _ _) (.cons (placed_deflateChunk _ _ _ _ _)
              (.cons (placed_normalChunk _ _ _) hrest))
        | scan _ hmagic =>
            rw [readPass_scan hmagic] at hpass
            cases hpass
            exact .cons (placed_normalChunk _ _ _) hrest
      · rw [readLoop, if_neg hin] at h
        cases h
        exact ⟨pos, .nil pos⟩

end Read

/-- Merging keeps the image, and the chunks of the two lists of image mode stay paired. The array
is merged in place: the list that is left covers the same positions in order, has the same chunks
that are not normal and no two normal neighbours, and merging it again changes nothing. Whatever the
loop of `main` demotes, the two lists are merged into lists with the same types whose chunks are
made of the same pairs, so the last error message is never printed. -/
theorem chunks_stay_paired :
    (∀ (chunks : List ImageChunk) (n pos fin : Nat), n ≤ chunks.length →
      Consecutive pos (chunks.take n) fin →
      ∃ chunks' out, mergeInPlace chunks n = some (chunks', out) ∧ out ≤ n ∧
        Merged pos fin (chunks.take n) (chunks'.take out) ∧
        mergeInPlace chunks' out = some (chunks', out)) ∧
    (∀ (srcs tgts : List ImageChunk) (p f q g : Nat), Consecutive p srcs f → Consecutive q tgts g →
      srcs.map ImageChunk.type = tgts.map ImageChunk.type →
      ∀ srcs' tgts', DemotesAll srcs tgts srcs' tgts' →
        srcs'.map ImageChunk.positions = srcs.map ImageChunk.positions ∧
        tgts'.map ImageChunk.positions = tgts.map ImageChunk.positions ∧
        ∃ ss n ts m, MergedPair srcs' tgts' ss n ts m) ∧
    (∀ (H : HostLibs) (srcImg tgtImg : Bytes) (srcs tgts : List ImageChunk),
      (∀ srcs' tgts', srcs.length = tgts.length →
        demotePairs H srcImg tgtImg srcs tgts = some (srcs', tgts') →
        DemotesAll srcs tgts srcs' tgts') ∧
      ∀ p f q g, Consecutive p srcs f → Consecutive q tgts g →
        pairImages H srcImg tgtImg srcs tgts ≠ some .wentAwry) ∧
    (∀ (L : Libs) (late : Nat → Bool) (unset : Nat → ImageChunk) (img : Bytes) (fuel : Nat)
      (cs : List ImageChunk), readImage L late unset img fuel = .ok cs →
      ∃ fin, Consecutive 0 cs fin) := by
  refine ⟨fun chunks n pos fin hn h => mergeInPlace_merged hn h, ?_, ?_, ?_⟩
  · intro srcs tgts p f q g hs ht htypes srcs' tgts' h
    exact ⟨h.positions.1, h.positions.2, h.mergedPair hs ht htypes⟩
  · intro H srcImg tgtImg srcs tgts
    exact ⟨fun srcs' tgts' hlength h => demotePairs_demotes hlength h,
      fun p f q g hs ht => pairImages_ne_wentAwry H srcImg tgtImg hs ht⟩
  · exact fun L late unset img fuel cs h => consecutive_readLoop h

/-- Two gzip files. Their deflate chunks are demoted, and each list becomes one chunk. -/
theorem gzips_stay_paired :
    (mergeInPlace ((memberChunks Sample.zeroChunk 0 0 5 [0x61]).map changeDeflateChunkToNormal) 3).map
        Prod.snd = some 1 ∧
      ∃ ss n ts m, MergedPair
        ((memberChunks Sample.zeroChunk 0 0 5 [0x61]).map changeDeflateChunkToNormal)
        ((memberChunks Sample.zeroChunk 0 0 6 [0x61]).map changeDeflateChunkToNormal) ss n ts m := by
  have hrow : ∀ k, Consecutive 0 (memberChunks Sample.zeroChunk 0 0 k [0x61]) (18 + k) := by
    intro k
    have hend : 0 + gzipHeaderLen + k + gzipFooterLen = 18 + k := by
      simp only [gzipHeaderLen, gzipFooterLen]
      omega
    rw [← hend]
    exact .cons (placed_normalChunk _ _ _) (.cons (placed_deflateChunk _ _ _ _ _)
      (.cons (placed_normalChunk _ _ _) (.nil _)))
  have hdemote : DemotesAll (memberChunks Sample.zeroChunk 0 0 5 [0x61])
      (memberChunks Sample.zeroChunk 0 0 6 [0x61])
      ((memberChunks Sample.zeroChunk 0 0 5 [0x61]).map changeDeflateChunkToNormal)
      ((memberChunks Sample.zeroChunk 0 0 6 [0x61]).map changeDeflateChunkToNormal) :=
    .cons (.demoted _) (.cons (.demoted _) (.cons (.demoted _) .nil))
  exact ⟨by decide, (chunks_stay_paired.2.1 _ _ 0 23 0 24 (hrow 5) (hrow 6) rfl _ _
    hdemote).2.2⟩

end OpenRecovery.ImgDiff
