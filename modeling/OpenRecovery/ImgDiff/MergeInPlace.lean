import OpenRecovery.ImgDiff.ImageChunk
import OpenRecovery.Storage.InPlace

/-!
# Merging in the array

`MergeAdjacentNormalChunks` as it runs on the array of chunks, with the position `out` it writes and
the position `in_start` it reads. It never fails, and what it leaves is the merged list, but for the
fields of a merged chunk that only deflate chunks use (`mergeInPlace_spec`).
-/

set_option autoImplicit false

namespace OpenRecovery.ImgDiff

open OpenRecovery.Storage

/-! ## The loops -/

/-- The condition of the inner loop: `c` begins where `prev` ends. -/
def Continues (prev c : ImageChunk) : Prop :=
  c.type = .normal ∧ c.start = prev.start + prev.len ∧ some c.data = prev.data.add prev.len

instance (prev c : ImageChunk) : Decidable (Continues prev c) := by
  unfold Continues
  infer_instance

/-- The inner loop from `in_end`, with `k` chunks left. -/
def runEnd (chunks : List ImageChunk) : Nat → Nat → Option Nat
  | 0, inEnd => some inEnd
  | k + 1, inEnd => do
      let prev ← chunks[inEnd - 1]?
      let c ← chunks[inEnd]?
      if Continues prev c then runEnd chunks k (inEnd + 1) else return inEnd

/-- One pass of the outer loop: the array afterwards, and the next `in_start`. -/
def mergePass (n : Nat) (chunks : List ImageChunk) (out inStart : Nat) :
    Option (List ImageChunk × Nat) := do
  let first ← chunks[inStart]?
  let inEnd ←
    if first.type ≠ .normal then some (inStart + 1)
    else runEnd chunks (n - (inStart + 1)) (inStart + 1)
  if inEnd = inStart + 1 then
    return (if out ≠ inStart then chunks.set out first else chunks, inEnd)
  else do
    let last ← chunks[inEnd - 1]?
    -- the other fields are those of the chunk that stands at `out`
    let stale ← chunks[out]?
    let merged := { stale with
      type := .normal
      start := first.start
      data := first.data
      len := last.len + (last.start - first.start) }
    return (chunks.set out merged, inEnd)

/-- The outer loop: the array afterwards, and `out`. -/
def mergeLoop (n : Nat) : Nat → List ImageChunk → Nat → Nat → Option (List ImageChunk × Nat)
  | 0, _, _, _ => none
  | fuel + 1, chunks, out, inStart =>
      if inStart < n then do
        let (chunks, inEnd) ← mergePass n chunks out inStart
        mergeLoop n fuel chunks (out + 1) inEnd
      else some (chunks, out)

/-- `MergeAdjacentNormalChunks` of the first `n` chunks of the array. -/
def mergeInPlace (chunks : List ImageChunk) (n : Nat) : Option (List ImageChunk × Nat) :=
  mergeLoop n (n + 1) chunks 0 0

/-! ## Runs -/

/-- The number of chunks that continue `prev`, each the one before it. -/
def runLength (prev : ImageChunk) : List ImageChunk → Nat
  | [] => 0
  | c :: cs => if Continues prev c then runLength c cs + 1 else 0

/-- The last of them, or `prev`. -/
def runLast (prev : ImageChunk) : List ImageChunk → ImageChunk
  | [] => prev
  | c :: cs => if Continues prev c then runLast c cs else prev

/-- A run is no longer than the list. -/
theorem runLength_le (prev : ImageChunk) (cs : List ImageChunk) :
    runLength prev cs ≤ cs.length := by
  induction cs generalizing prev with
  | nil => exact Nat.le_refl 0
  | cons c cs ih =>
      rw [runLength, List.length_cons]
      split
      · exact Nat.succ_le_succ (ih c)
      · exact Nat.zero_le _

/-- An empty run ends where it begins. -/
theorem runLast_of_length_zero {prev : ImageChunk} {cs : List ImageChunk}
    (h : runLength prev cs = 0) : runLast prev cs = prev := by
  cases cs with
  | nil => rfl
  | cons c cs =>
      rw [runLength] at h
      split at h
      · cases h
      · rename_i hc
        rw [runLast, if_neg hc]

/-- The inner loop finds the end of the run. -/
theorem runEnd_eq {chunks : List ImageChunk} {k i : Nat} {prev : ImageChunk}
    (hprev : chunks[i]? = some prev) (hk : i + 1 + k ≤ chunks.length) :
    runEnd chunks k (i + 1) = some (i + 1 + runLength prev ((chunks.drop (i + 1)).take k)) ∧
      chunks[i + runLength prev ((chunks.drop (i + 1)).take k)]? =
        some (runLast prev ((chunks.drop (i + 1)).take k)) := by
  induction k generalizing i prev with
  | zero => exact ⟨rfl, hprev⟩
  | succ k ih =>
      have hlt : i + 1 < chunks.length := by omega
      have hc : chunks[i + 1]? = some chunks[i + 1] := List.getElem?_eq_getElem hlt
      -- the chunk read as `prev` is the last of the run so far
      rw [List.drop_eq_getElem_cons hlt, List.take_succ_cons, runLength, runLast, runEnd,
        Nat.add_sub_cancel, hprev, hc]
      simp only [Option.bind_eq_bind, Option.bind_some]
      split
      · obtain ⟨hend, hlast⟩ := ih hc (by omega)
        refine ⟨hend.trans (congrArg some ?_), Eq.trans (congrArg (chunks[·]?) ?_) hlast⟩
        · omega
        · omega
      · exact ⟨rfl, hprev⟩

/-- A chunk that has taken up the run as far as `last`. -/
structure EndsWith (acc last : ImageChunk) : Prop where
  type : acc.type = .normal
  start : acc.start + acc.len = last.start + last.len
  le : acc.start ≤ last.start
  data : acc.data.add acc.len = last.data.add last.len

theorem EndsWith.refl {c : ImageChunk} (h : c.type = .normal) : EndsWith c c :=
  ⟨h, rfl, Nat.le_refl _, rfl⟩

/-- Two steps into the data. -/
theorem ChunkData.add_add {d e : ChunkData} {m : Nat} (h : some e = d.add m) (k : Nat) :
    e.add k = d.add (m + k) := by
  cases d with
  | buffer b => cases h
  | file pos =>
      cases h
      rw [ChunkData.add, ChunkData.add, Nat.add_assoc]

namespace EndsWith

variable {acc last c : ImageChunk}

/-- Whether a chunk goes on is seen at the last chunk of the run. -/
theorem adjacent_iff (h : EndsWith acc last) : Adjacent acc c ↔ Continues last c := by
  rw [Adjacent, Continues, h.start, h.data]
  exact and_iff_right h.type

/-- The length of the run up to its last chunk. -/
theorem len_eq (h : EndsWith acc last) : acc.len = last.len + (last.start - acc.start) := by
  have hstart := h.start
  have hle := h.le
  omega

/-- One more chunk of the run. -/
theorem extend (h : EndsWith acc last) (hc : Continues last c) :
    EndsWith { acc with len := c.len + (c.start - acc.start) } c := by
  obtain ⟨-, hstart, hdata⟩ := hc
  have hsum := h.start
  have hle := h.le
  have hlen : c.len + (c.start - acc.start) = acc.len + c.len := by omega
  rw [hlen]
  rw [← h.data] at hdata
  exact ⟨h.type, by simp only; omega, by simp only; omega, (ChunkData.add_add hdata c.len).symm⟩

end EndsWith

/-- The merged list begins with the run that `acc` has taken up in part. -/
theorem mergeFrom_run {acc last : ImageChunk} {cs : List ImageChunk} (h : EndsWith acc last) :
    mergeFrom acc cs =
      { acc with
        len := (runLast last cs).len + ((runLast last cs).start - acc.start) } ::
        mergeAdjacentNormalChunks (cs.drop (runLength last cs)) := by
  induction cs generalizing acc last with
  | nil =>
      rw [mergeFrom, runLast, ← h.len_eq]
      rfl
  | cons c cs ih =>
      rw [mergeFrom, runLast, runLength]
      by_cases hc : Continues last c
      · rw [if_pos (h.adjacent_iff.mpr hc), if_pos hc, if_pos hc, ih (h.extend hc)]
        rfl
      · rw [if_neg (mt h.adjacent_iff.mp hc), if_neg hc, if_neg hc, ← h.len_eq]
        rfl

/-- Chunks that are not normal stay as they are. -/
theorem mergeFrom_of_ne {c : ImageChunk} {cs : List ImageChunk} (h : c.type ≠ .normal) :
    mergeFrom c cs = c :: mergeAdjacentNormalChunks cs := by
  cases cs with
  | nil => rfl
  | cons n cs => rw [mergeFrom, if_neg fun hadj => h hadj.1, mergeAdjacentNormalChunks]

/-! ## The array afterwards -/

/-- Two chunks that differ at most in what only deflate chunks use. -/
structure Alike (c d : ImageChunk) : Prop where
  type : c.type = d.type
  start : c.start = d.start
  len : c.len = d.len
  data : c.data = d.data
  eq_of_ne : d.type ≠ .normal → c = d

theorem Alike.refl (c : ImageChunk) : Alike c c := ⟨rfl, rfl, rfl, rfl, fun _ => rfl⟩

section Loop

variable {xs ys : List ImageChunk} {n out i : Nat}

theorem set_same {c : ImageChunk} (h : ys[i]? = some c) : ys.set i c = ys := by
  obtain ⟨hlt, rfl⟩ := List.getElem?_eq_some_iff.mp h
  exact List.set_getElem_self hlt

/-- Moving a chunk to its own place changes nothing. -/
theorem moveChunk_eq {c : ImageChunk} (h : ys[i]? = some c) :
    (if out ≠ i then ys.set out c else ys) = ys.set out c := by
  split
  · rfl
  · rename_i hout
    obtain rfl : out = i := not_not.mp hout
    exact (set_same h).symm

/-- A pass writes the first chunk of the merged list, and goes on behind its run. -/
theorem mergePass_spec (h : Unread xs ys out i) (hi : i < n) (hn : n ≤ xs.length) :
    ∃ d e i', mergePass n ys out i = some (ys.set out d, i') ∧ i < i' ∧ i' ≤ n ∧ Alike d e ∧
      mergeAdjacentNormalChunks ((xs.drop i).take (n - i)) =
        e :: mergeAdjacentNormalChunks ((xs.drop i').take (n - i')) := by
  have hlt : i < xs.length := hi.trans_le hn
  have hfirst : ys[i]? = some xs[i] :=
    (h.getElem? (Nat.le_refl i)).trans (List.getElem?_eq_getElem hlt)
  obtain ⟨k, rfl⟩ : ∃ k, n = i + 1 + k := Nat.exists_eq_add_of_le hi
  have hk : i + 1 + k - (i + 1) = k := Nat.add_sub_cancel_left _ _
  have hrest : ys.drop (i + 1) = xs.drop (i + 1) := (h.skip (Nat.le_succ i)).rest
  have hcons : (xs.drop i).take (i + 1 + k - i) = xs[i] :: (xs.drop (i + 1)).take k := by
    rw [show i + 1 + k - i = k + 1 by omega, List.drop_eq_getElem_cons hlt, List.take_succ_cons]
  rw [hcons, mergeAdjacentNormalChunks, mergePass, hfirst, hk]
  simp only [Option.bind_eq_bind, Option.bind_some]
  by_cases htype : xs[i].type = .normal
  · obtain ⟨hend, hlast⟩ := runEnd_eq hfirst (k := k) (by rw [h.length]; omega)
    rw [hrest] at hend hlast
    have hle := runLength_le xs[i] ((xs.drop (i + 1)).take k)
    rw [List.length_take] at hle
    rw [mergeFrom_run (.refl htype), if_neg (not_not.mpr htype), hend, List.drop_take,
      List.drop_drop]
    generalize (xs.drop (i + 1)).take k = run at hend hlast hle ⊢
    simp only [Option.bind_some]
    -- a single chunk is moved as it is, a run is written over the chunk at `out`
    by_cases hzero : runLength xs[i] run = 0
    · rw [if_pos (by omega), moveChunk_eq hfirst, runLast_of_length_zero hzero, hzero]
      refine ⟨xs[i], _, _, rfl, by omega, by omega, ?_, by rw [hk]; rfl⟩
      rw [Nat.sub_self]
      exact .refl _
    · have hout : out < ys.length := h.length ▸ h.le.trans_lt hlt
      rw [if_neg (by omega), show i + 1 + runLength xs[i] run - 1 = i + runLength xs[i] run by omega,
        hlast, List.getElem?_eq_getElem hout]
      refine ⟨_, { xs[i] with
        len := (runLast xs[i] run).len + ((runLast xs[i] run).start - xs[i].start) }, _, rfl,
        by omega, by omega, ⟨htype.symm, rfl, rfl, rfl, fun hne => ?_⟩, ?_⟩
      · exact absurd htype hne
      · rw [show i + 1 + k - (i + 1 + runLength xs[i] run) = k - runLength xs[i] run by omega]
  · rw [mergeFrom_of_ne htype, if_pos htype]
    simp only [if_true]
    rw [moveChunk_eq hfirst]
    exact ⟨_, _, _, rfl, Nat.lt_succ_self i, Nat.le_add_right _ k, .refl _, by rw [hk]⟩

/-- The loop over the array does what the merge of lists does. Induction on the fuel; what is not
read yet has not been written. -/
theorem mergeLoop_spec {done : List ImageChunk} {fuel : Nat} (h : Unread xs ys out i) (hi : i ≤ n)
    (hn : n ≤ xs.length) (hfuel : n - i < fuel)
    (hdone : List.Forall₂ Alike (ys.take out) done) :
    ∃ ys' out', mergeLoop n fuel ys out i = some (ys', out') ∧ ys'.length = xs.length ∧ out' ≤ n ∧
      List.Forall₂ Alike (ys'.take out')
        (done ++ mergeAdjacentNormalChunks ((xs.drop i).take (n - i))) := by
  induction fuel generalizing ys out i done with
  | zero => cases hfuel
  | succ fuel ih =>
      rw [mergeLoop]
      by_cases hlt : i < n
      · obtain ⟨d, e, i', hpass, hii', hi'n, halike, hmerge⟩ := mergePass_spec h hlt hn
        rw [if_pos hlt, hpass, hmerge]
        -- what is written stays, for later passes write behind it
        have hwritten : List.Forall₂ Alike ((ys.set out d).take (out + 1)) (done ++ [e]) := by
          rw [h.take_write (hlt.trans_le hn) d]
          exact List.rel_append hdone (.cons halike .nil)
        -- and what is still to be read has not been touched: `out` is not beyond `in_start`
        have hunread := h.write hii'.le (h.le.trans_lt hii') d
        obtain ⟨ys', out', hloop, hlen, hle, hall⟩ :=
          ih hunread hi'n (by omega) hwritten
        rw [List.append_assoc] at hall
        exact ⟨ys', out', hloop, hlen, hle, hall⟩
      · obtain rfl : i = n := Nat.le_antisymm hi (Nat.not_lt.mp hlt)
        rw [if_neg hlt, Nat.sub_self, List.take_zero, mergeAdjacentNormalChunks, List.append_nil]
        exact ⟨ys, out, rfl, h.length, h.le, hdone⟩

end Loop

/-- `MergeAdjacentNormalChunks` leaves the merged list at the front of the array. -/
theorem mergeInPlace_spec {chunks : List ImageChunk} {n : Nat} (hn : n ≤ chunks.length) :
    ∃ chunks' out, mergeInPlace chunks n = some (chunks', out) ∧ chunks'.length = chunks.length ∧
      out ≤ n ∧
      List.Forall₂ Alike (chunks'.take out) (mergeAdjacentNormalChunks (chunks.take n)) := by
  have hnone : List.Forall₂ Alike (chunks.take 0) [] := .nil
  have h := mergeLoop_spec (.start chunks) (Nat.zero_le n) hn (Nat.lt_succ_self n) hnone
  rwa [List.drop_zero, Nat.sub_zero, List.nil_append] at h

section Fixed

variable {chunks : List ImageChunk} {n i : Nat}

/-- No two neighbours of the list are normal chunks. -/
def NoNormalPair (cs : List ImageChunk) : Prop :=
  cs.IsChain fun c d => ¬ (c.type = .normal ∧ d.type = .normal)

/-- Without two normal chunks in a row there is nothing to merge. -/
theorem runLength_of_noNormalPair {c : ImageChunk} {cs : List ImageChunk}
    (h : NoNormalPair (c :: cs)) (hc : c.type = .normal) : runLength c cs = 0 := by
  cases cs with
  | nil => rfl
  | cons d cs =>
      rw [NoNormalPair, List.isChain_cons_cons] at h
      rw [runLength, if_neg fun hd => h.1 ⟨hc, hd.1⟩]

/-- Such a chunk stays in its place. -/
theorem mergePass_fixed (hi : i < n) (hn : n ≤ chunks.length)
    (h : NoNormalPair ((chunks.drop i).take (n - i))) :
    mergePass n chunks i i = some (chunks, i + 1) := by
  have hlt : i < chunks.length := hi.trans_le hn
  have hfirst : chunks[i]? = some chunks[i] := List.getElem?_eq_getElem hlt
  obtain ⟨k, rfl⟩ : ∃ k, n = i + 1 + k := Nat.exists_eq_add_of_le hi
  rw [show i + 1 + k - i = k + 1 by omega, List.drop_eq_getElem_cons hlt, List.take_succ_cons] at h
  rw [mergePass, hfirst, Nat.add_sub_cancel_left]
  simp only [Option.bind_eq_bind, Option.bind_some]
  by_cases htype : chunks[i].type = .normal
  · have hend := (runEnd_eq hfirst hn).1
    rw [runLength_of_noNormalPair h htype, Nat.add_zero] at hend
    rw [if_neg (not_not.mpr htype), hend]
    simp
  · rw [if_pos htype]
    simp

/-- Such a list stays as it is. -/
theorem mergeLoop_fixed {fuel : Nat} (hi : i ≤ n) (hn : n ≤ chunks.length) (hfuel : n - i < fuel)
    (h : NoNormalPair ((chunks.drop i).take (n - i))) :
    mergeLoop n fuel chunks i i = some (chunks, n) := by
  induction fuel generalizing i with
  | zero => cases hfuel
  | succ fuel ih =>
      rw [mergeLoop]
      by_cases hlt : i < n
      · rw [if_pos hlt, mergePass_fixed hlt hn h]
        refine ih hlt (by omega) ?_
        rw [List.drop_eq_getElem_cons (hlt.trans_le hn), show n - i = n - (i + 1) + 1 by omega,
          List.take_succ_cons] at h
        exact List.IsChain.tail h
      · rw [if_neg hlt, Nat.le_antisymm hi (Nat.not_lt.mp hlt)]

/-- A list without two normal neighbours stays as it is. -/
theorem mergeInPlace_fixed (hn : n ≤ chunks.length) (h : NoNormalPair (chunks.take n)) :
    mergeInPlace chunks n = some (chunks, n) :=
  mergeLoop_fixed (Nat.zero_le n) hn (Nat.lt_succ_self n) h

end Fixed

end OpenRecovery.ImgDiff
