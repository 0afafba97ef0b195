import OpenRecovery.ImgDiff.BsDiff

/-!
# What `bsdiff` writes

`Encodes old new s p ts d e s' p'` says that the triples `ts`, with the bytes `d` of the difference
block and `e` of the extra block, take a decoder from position `s` of the new data and `p` of the
old data to `s'` and `p'`. It is the invariant of the scan: the blocks emitted so far encode the new
data up to `lastscan`, with the old data at `lastpos`, and `lastoffset` is the difference of the
two.

`diffBlocks_spec` proves that the scan ends without leaving a buffer and that its blocks encode the
whole new data, for every suffix index. `patchLoop_encodes` proves that the decoder replays them.
-/

set_option autoImplicit false

namespace OpenRecovery.ImgDiff

open OpenRecovery.ApplyPatch OpenRecovery.Edify OpenRecovery.Storage

/-! ## Searching -/

theorem matchlen_le (a b : Bytes) : matchlen a b ≤ b.length := by
  induction a, b using matchlen.induct with
  | case1 as b bs ih =>
      simp only [matchlen, if_true, List.length_cons]
      omega
  | case2 a as b bs hne =>
      simp only [matchlen, hne, if_false]
      exact Nat.zero_le _
  | case3 a b hnot =>
      unfold matchlen
      split
      · exact absurd rfl (hnot _ _ _ _ rfl)
      · exact Nat.zero_le _

/-- The search returns a position of the old data and the length of the match there. -/
theorem search_spec {old : Bytes} (I : SuffixIndex old) (new : Bytes) {fuel st en : Nat}
    (hst : st ≤ en) (hen : en ≤ old.length) (hfuel : en - st < fuel) :
    ∃ p l, search I.entries old new fuel st en = some (p, l) ∧ p ≤ old.length ∧
      l = matchlen (old.drop p) new := by
  have hget : ∀ k, k ≤ old.length → ∃ i, I.entries[k]? = some i ∧ i ≤ old.length := by
    intro k hk
    have hlt : k < I.entries.length := by
      rw [I.length_eq]
      omega
    exact ⟨I.entries[k], List.getElem?_eq_getElem hlt, I.le_length _ (List.getElem_mem hlt)⟩
  induction fuel generalizing st en with
  | zero => omega
  | succ fuel ih =>
      simp only [search]
      split
      · obtain ⟨i, hi, hile⟩ := hget st (by omega)
        obtain ⟨j, hj, hjle⟩ := hget en hen
        rw [hi, hj]
        simp only [Option.bind_eq_bind, Option.bind_some]
        split
        · exact ⟨i, _, rfl, hile, rfl⟩
        · exact ⟨j, _, rfl, hjle, rfl⟩
      · obtain ⟨k, hk, -⟩ := hget (st + (en - st) / 2) (by omega)
        rw [hk]
        simp only [Option.bind_eq_bind, Option.bind_some]
        split
        · exact ih (by omega) hen (by omega)
        · exact ih (by omega) (by omega) (by omega)

/-! ## Bytes in range -/

theorem byteAt_natCast {p : Bytes} {k : Nat} (h : k < p.length) : byteAt p k = some p[k] := by
  have hnn : ¬ ((k : Int) < 0) := by omega
  simp only [byteAt, hnn, if_false, Int.toNat_natCast]
  exact List.getElem?_eq_getElem h

theorem byteAt_isSome {p : Bytes} {i : Int} (h0 : 0 ≤ i) (h1 : i < p.length) :
    ∃ b, byteAt p i = some b := by
  obtain ⟨k, rfl⟩ := Int.eq_ofNat_of_zero_le h0
  have hk : k < p.length := by omega
  exact ⟨p[k], byteAt_natCast hk⟩

theorem sameAt_isSome (old new : Bytes) {offset k : Int} (h0 : 0 ≤ k + offset) (hk0 : 0 ≤ k)
    (hk : k < new.length) : ∃ b, sameAt old new offset k = some b := by
  unfold sameAt
  split
  · rename_i hlt
    obtain ⟨a, ha⟩ := byteAt_isSome h0 hlt
    obtain ⟨b, hb⟩ := byteAt_isSome hk0 hk
    rw [ha, hb]
    exact ⟨_, rfl⟩
  · exact ⟨false, rfl⟩

/-! ## The score

`hits k` counts the matches below `k` at the last offset; the score of the source is a difference of
two such counts, and never negative where it is compared. -/

/-- Number of matches below `k`. -/
def hits (old new : Bytes) (offset : Int) (k : Nat) : Nat :=
  (List.range k).countP fun j : Nat => sameAt old new offset (j : Int) = some true

theorem hits_succ (old new : Bytes) (offset : Int) (k : Nat) :
    hits old new offset (k + 1) =
      hits old new offset k + if sameAt old new offset k = some true then 1 else 0 := by
  rw [hits, List.range_succ, List.countP_append, ← hits]
  by_cases h : sameAt old new offset k = some true
  · simp [h]
  · simp [h]

theorem hits_mono (old new : Bytes) (offset : Int) {a b : Nat} (h : a ≤ b) :
    hits old new offset a ≤ hits old new offset b := by
  induction b, h using Nat.le_induction with
  | base => exact Nat.le_refl _
  | succ b _ ih =>
      rw [hits_succ]
      omega

theorem addScore_spec {old new : Bytes} {offset : Int} {n k : Nat} {score : Int}
    (hoff : 0 ≤ k + offset) (hle : k + n ≤ new.length) :
    addScore old new offset n k score =
      some (score + (hits old new offset (k + n) - hits old new offset k : Int)) := by
  induction n generalizing k score with
  | zero => simp [addScore]
  | succ n ih =>
      obtain ⟨b, hb⟩ := sameAt_isSome old new hoff (Int.natCast_nonneg k) (by omega)
      have hcast : ((k : Int) + 1) = ((k + 1 : Nat) : Int) := by push_cast; rfl
      simp only [addScore, hb, Option.bind_eq_bind, Option.bind_some]
      rw [hcast, ih (by push_cast; omega) (by omega), hits_succ old new offset k, hb]
      congr 1
      have harr : k + 1 + n = k + (n + 1) := by omega
      rw [harr]
      cases b with
      | true =>
          simp only [if_true]
          push_cast
          omega
      | false =>
          simp only [Bool.false_eq_true, if_false, Option.some.injEq]
          push_cast
          omega

/-! ## The inner loop -/

/-- What the inner loop establishes when it ends at `f`, having started from `start`. -/
structure ScanDone (old new : Bytes) (start : Int) (f : Found) : Prop where
  start_le : start ≤ f.scan
  le_length : f.scan ≤ new.length
  advance : f.scan < new.length → 0 < f.len ∧ f.scan + f.len ≤ new.length
  len_nonneg : 0 ≤ f.len
  pos : ∃ p : Nat, f.pos = some (p : Int) ∧ p ≤ old.length

/-- The inner loop ends; where it breaks off, the match is not empty, because the score is not
negative there. -/
theorem scanLoop_spec {old : Bytes} (I : SuffixIndex old) (new : Bytes) {lastoffset : Int}
    {fuel scan scsc : Nat} {len oldscore : Int} {pos : Option Int}
    (hoff : 0 ≤ scan + lastoffset) (hoff' : 0 ≤ scsc + lastoffset)
    (hscan : scan ≤ new.length) (hscsc : scsc ≤ new.length)
    (hlen : 0 ≤ len)
    (hscore : oldscore = hits old new lastoffset scsc - hits old new lastoffset scan)
    (hpos : scan < new.length ∨ ∃ p : Nat, pos = some (p : Int) ∧ p ≤ old.length)
    (hfuel : new.length - scan < fuel) :
    ∃ f, scanLoop I new lastoffset fuel scsc ⟨scan, len, pos, oldscore⟩ = some f ∧
      ScanDone old new scan f := by
  induction fuel generalizing scan scsc len oldscore pos with
  | zero => omega
  | succ fuel ih =>
      simp only [scanLoop]
      split
      · rename_i hlt
        have hlt' : scan < new.length := by omega
        obtain ⟨p, l, hsearch, hp, hl⟩ := search_spec I (new.drop scan) (Nat.zero_le old.length)
          (Nat.le_refl _) (show old.length - 0 < old.length + 1 by omega)
        have hlle : scan + l ≤ new.length := by
          have h := matchlen_le (old.drop p) (new.drop scan)
          rw [← hl, List.length_drop] at h
          omega
        have htoNat : ((scan : Int) + (l : Int) - scsc).toNat = scan + l - scsc := by omega
        -- the score after counting up to the end of the match
        have hadd : addScore old new lastoffset (scan + l - scsc) scsc oldscore =
            some ((hits old new lastoffset (max scsc (scan + l)) : Int) -
              hits old new lastoffset scan) := by
          rw [addScore_spec hoff' (by omega), hscore]
          have hmax : scsc + (scan + l - scsc) = max scsc (scan + l) := by omega
          rw [hmax]
          congr 1
          ring
        have hmono : hits old new lastoffset scan ≤
            hits old new lastoffset (max scsc (scan + l)) := hits_mono old new lastoffset (by omega)
        have hmaxCast : max (scsc : Int) ((scan : Int) + (l : Int)) =
            ((max scsc (scan + l) : Nat) : Int) := by push_cast; rfl
        simp only [Int.toNat_natCast, hsearch, Option.bind_eq_bind, Option.bind_some, htoNat, hadd,
          hmaxCast]
        split
        · rename_i hbreak
          have hle : (scan : Int) ≤ new.length := by omega
          refine ⟨_, rfl, Int.le_refl _, hle, ?_, Int.natCast_nonneg l, p, rfl, hp⟩
          intro _
          simp only
          omega
        · obtain ⟨b, hb⟩ := sameAt_isSome old new hoff (Int.natCast_nonneg scan) (by omega)
          have hcast : ((scan : Int) + 1) = ((scan + 1 : Nat) : Int) := by push_cast; rfl
          have hnext := hits_succ old new lastoffset scan
          rw [hb] at hnext
          simp only [hb, Option.bind_some, hcast]
          have hscore' : (if b = true then
                (hits old new lastoffset (max scsc (scan + l)) : Int) -
                  hits old new lastoffset scan - 1
              else (hits old new lastoffset (max scsc (scan + l)) : Int) -
                  hits old new lastoffset scan) =
              (hits old new lastoffset (max scsc (scan + l)) : Int) -
                hits old new lastoffset (scan + 1) := by
            cases b with
            | true =>
                simp only [if_true] at hnext ⊢
                omega
            | false =>
                simp only [Bool.false_eq_true, Option.some.injEq, if_false] at hnext ⊢
                omega
          obtain ⟨f, hf, hdone⟩ := @ih (scan + 1) (max scsc (scan + l)) l _ (some (p : Int))
            (by push_cast; omega) (by push_cast; omega) (by omega) (by omega)
            (Int.natCast_nonneg l) hscore'
            (.inr ⟨p, rfl, hp⟩) (by omega)
          have hstart := hdone.start_le
          push_cast at hstart
          exact ⟨f, hf, by omega, hdone.le_length, hdone.advance, hdone.len_nonneg, hdone.pos⟩
      · rename_i hge
        have hle : (scan : Int) ≤ new.length := by omega
        refine ⟨_, rfl, Int.le_refl _, hle, fun h => absurd h hge, hlen, ?_⟩
        rcases hpos with h | h
        · omega
        · exact h

/-! ## Extending and splitting -/

theorem forwardLoop_spec {old new : Bytes} {lastscan lastpos scan : Int} (hls : 0 ≤ lastscan)
    (hlp : 0 ≤ lastpos) (hscan : scan ≤ new.length) {fuel : Nat} {i s sf lenf : Int}
    (hlenf : 0 ≤ lenf) (hi : lenf ≤ i) (his : lastscan + i ≤ scan)
    (hpl : lastpos + lenf ≤ old.length) (hfuel : scan - lastscan - i < fuel) :
    ∃ r, forwardLoop old new lastscan lastpos scan fuel i s sf lenf = some r ∧ 0 ≤ r ∧
      lastscan + r ≤ scan ∧ lastpos + r ≤ old.length := by
  induction fuel generalizing i s sf lenf with
  | zero => omega
  | succ fuel ih =>
      simp only [forwardLoop]
      split
      · rename_i hlt
        obtain ⟨a, ha⟩ := byteAt_isSome (p := old) (show 0 ≤ lastpos + i by omega) (by omega)
        obtain ⟨b, hb⟩ := byteAt_isSome (p := new) (show 0 ≤ lastscan + i by omega) (by omega)
        rw [ha, hb]
        simp only [Option.bind_eq_bind, Option.bind_some]
        generalize (if a = b then s + 1 else s) = t
        split
        · exact @ih (i + 1) _ _ (i + 1) (by omega) (Int.le_refl _) (by omega) (by omega) (by omega)
        · exact @ih (i + 1) _ _ lenf hlenf (by omega) (by omega) hpl (by omega)
      · exact ⟨lenf, rfl, hlenf, by omega, hpl⟩

theorem backwardLoop_spec {old new : Bytes} {lastscan scan pos : Int} (hls : 0 ≤ lastscan)
    (hscan : scan ≤ new.length) (hpos : pos ≤ old.length) {fuel : Nat} {i s sb lenb : Int}
    (hlenb : 0 ≤ lenb) (hi : lenb < i) (hlb : lastscan + lenb ≤ scan) (hpb : lenb ≤ pos)
    (hfuel : scan - lastscan - i + 1 < fuel) (hfuel' : 0 < fuel) :
    ∃ r, backwardLoop old new lastscan scan pos fuel i s sb lenb = some r ∧ 0 ≤ r ∧
      lastscan + r ≤ scan ∧ r ≤ pos := by
  induction fuel generalizing i s sb lenb with
  | zero => omega
  | succ fuel ih =>
      simp only [backwardLoop]
      split
      · rename_i hlt
        obtain ⟨a, ha⟩ := byteAt_isSome (p := old) (show 0 ≤ pos - i by omega) (by omega)
        obtain ⟨b, hb⟩ := byteAt_isSome (p := new) (show 0 ≤ scan - i by omega) (by omega)
        rw [ha, hb]
        simp only [Option.bind_eq_bind, Option.bind_some]
        generalize (if a = b then s + 1 else s) = t
        split
        · exact @ih (i + 1) _ _ i (by omega) (by omega) (by omega) (by omega) (by omega) (by omega)
        · exact @ih (i + 1) _ _ lenb hlenb (by omega) hlb hpb (by omega) (by omega)
      · exact ⟨lenb, rfl, hlenb, hlb, hpb⟩

theorem overlapLoop_spec {old new : Bytes} {newF oldF newB oldB : Int} {n : Nat}
    {i s ss lens : Int} (hnF : 0 ≤ newF) (hoF : 0 ≤ oldF) (hnB : 0 ≤ newB) (hoB : 0 ≤ oldB)
    (hi : 0 ≤ i) (hnF' : newF + i + n ≤ new.length) (hoF' : oldF + i + n ≤ old.length)
    (hnB' : newB + i + n ≤ new.length) (hoB' : oldB + i + n ≤ old.length)
    (hlens : 0 ≤ lens) (hle : lens ≤ i) :
    ∃ r, overlapLoop old new newF oldF newB oldB n i s ss lens = some r ∧ 0 ≤ r ∧ r ≤ i + n := by
  induction n generalizing i s ss lens with
  | zero => exact ⟨lens, rfl, hlens, by omega⟩
  | succ n ih =>
      simp only [overlapLoop]
      push_cast at hnF' hoF' hnB' hoB'
      obtain ⟨a, ha⟩ := byteAt_isSome (p := new) (show 0 ≤ newF + i by omega) (by omega)
      obtain ⟨b, hb⟩ := byteAt_isSome (p := old) (show 0 ≤ oldF + i by omega) (by omega)
      obtain ⟨c, hc⟩ := byteAt_isSome (p := new) (show 0 ≤ newB + i by omega) (by omega)
      obtain ⟨d, hd⟩ := byteAt_isSome (p := old) (show 0 ≤ oldB + i by omega) (by omega)
      rw [ha, hb, hc, hd]
      simp only [Option.bind_eq_bind, Option.bind_some]
      generalize (if c = d then (if a = b then s + 1 else s) - 1
        else if a = b then s + 1 else s) = t
      have hstep : ∀ s ss lens : Int, 0 ≤ lens → lens ≤ i + 1 →
          ∃ r, overlapLoop old new newF oldF newB oldB n (i + 1) s ss lens = some r ∧ 0 ≤ r ∧
            r ≤ i + (n + 1 : Nat) := by
        intro s ss lens h0 h1
        obtain ⟨r, hr, hr0, hr1⟩ := @ih (i + 1) s ss lens (by omega) (by omega) (by omega)
          (by omega) (by omega) h0 h1
        exact ⟨r, hr, hr0, by push_cast; omega⟩
      split
      · exact hstep _ _ _ (by omega) (Int.le_refl _)
      · exact hstep _ _ _ hlens (by omega)

/-- What the extension of a match at `scan` and `pos` guarantees. -/
structure Extent (old new : Bytes) (lastscan lastpos scan pos lenf lenb : Int) : Prop where
  forward : 0 ≤ lenf
  backward : 0 ≤ lenb
  split : lastscan + lenf ≤ scan - lenb
  old_le : lastpos + lenf ≤ old.length
  pos_le : lenb ≤ pos
  final : scan = new.length → lenb = 0

theorem extend_spec {old new : Bytes} {lastscan lastpos scan pos : Int} (hls : 0 ≤ lastscan)
    (hsc : lastscan ≤ scan) (hscan : scan ≤ new.length) (hlp : 0 ≤ lastpos)
    (hlp' : lastpos ≤ old.length) (hpos : 0 ≤ pos) (hpos' : pos ≤ old.length) :
    ∃ lenf lenb, extend old new lastscan lastpos scan pos = some (lenf, lenb) ∧
      Extent old new lastscan lastpos scan pos lenf lenb := by
  obtain ⟨lenf, hf, hf0, hfs, hfo⟩ := @forwardLoop_spec old new lastscan lastpos scan hls hlp hscan
    (scan - lastscan).toNat.succ 0 0 0 0 (Int.le_refl _) (Int.le_refl _) (by omega) (by omega)
    (by omega)
  have hback : ∃ lenb, backward old new lastscan scan pos = some lenb ∧ 0 ≤ lenb ∧
      lastscan + lenb ≤ scan ∧ lenb ≤ pos ∧ (scan = new.length → lenb = 0) := by
    rw [backward]
    split
    · rename_i hlt
      obtain ⟨r, hr, h0, h1, h2⟩ := @backwardLoop_spec old new lastscan scan pos hls hscan hpos'
        (scan - lastscan).toNat.succ 1 0 0 0 (Int.le_refl _) (by omega) (by omega) hpos (by omega)
        (by omega)
      exact ⟨r, hr, h0, h1, h2, fun h => by omega⟩
    · exact ⟨0, rfl, Int.le_refl _, by omega, hpos, fun _ => rfl⟩
  obtain ⟨lenb, hb, hb0, hbs, hbp, hfin⟩ := hback
  simp only [extend, hf, hb, Option.bind_eq_bind, Option.bind_some]
  split
  · rename_i hover
    -- the overlap is at most as long as either extension
    obtain ⟨lens, hl, hl0, hl1⟩ := @overlapLoop_spec old new
      (lastscan + lenf - (lastscan + lenf - (scan - lenb)))
      (lastpos + lenf - (lastscan + lenf - (scan - lenb))) (scan - lenb) (pos - lenb)
      (lastscan + lenf - (scan - lenb)).toNat 0 0 0 0 (by omega) (by omega) (by omega) (by omega)
      (Int.le_refl _) (by omega) (by omega) (by omega) (by omega) (Int.le_refl _) (Int.le_refl _)
    rw [hl]
    exact ⟨_, _, rfl, by omega, by omega, by omega, by omega, by omega, fun h => by
      have := hfin h
      omega⟩
  · exact ⟨lenf, lenb, rfl, hf0, hb0, by omega, hfo, hbp, hfin⟩

/-! ## Blocks -/

theorem copyBytes_eq {new : Bytes} {n k : Nat} (h : k + n ≤ new.length) :
    copyBytes new n k = some ((new.drop k).take n) := by
  induction n generalizing k with
  | zero => simp [copyBytes]
  | succ n ih =>
      have hk : k < new.length := by omega
      have hcast : ((k : Int) + 1) = ((k + 1 : Nat) : Int) := by push_cast; rfl
      simp only [copyBytes, byteAt_natCast hk, hcast, ih (show k + 1 + n ≤ new.length by omega),
        Option.bind_eq_bind, Option.bind_some]
      rw [List.drop_eq_getElem_cons hk, List.take_succ_cons]
      rfl

/-- The differences exist, and the decoder turns them into the new data again, wherever the old data
stands in its buffer. -/
theorem diffBytes_spec {old new : Bytes} {n s p : Nat} (hs : s + n ≤ new.length)
    (hp : p + n ≤ old.length) :
    ∃ d, diffBytes old new n s p = some d ∧ d.length = n ∧ ∀ pre post : Bytes,
      addOld (pre ++ (old ++ post)) pre.length old.length p d = some ((new.drop s).take n) := by
  induction n generalizing s p with
  | zero => exact ⟨[], rfl, rfl, fun _ _ => by simp [addOld]⟩
  | succ n ih =>
      have hs' : s < new.length := by omega
      have hp' : p < old.length := by omega
      have hcs : ((s : Int) + 1) = ((s + 1 : Nat) : Int) := by push_cast; rfl
      have hcp : ((p : Int) + 1) = ((p + 1 : Nat) : Int) := by push_cast; rfl
      obtain ⟨d, hd, hlen, hadd⟩ := @ih (s + 1) (p + 1) (by omega) (by omega)
      refine ⟨(new[s] - old[p]) :: d, ?_, by simp [hlen], ?_⟩
      · simp only [diffBytes, byteAt_natCast hs', byteAt_natCast hp', hcs, hcp, hd,
          Option.bind_eq_bind, Option.bind_some]
        rfl
      · intro pre post
        have hin : (0 : Int) ≤ p ∧ (p : Int) < old.length := by omega
        have hcat : ((pre.length : Int) + p) = ((pre.length + p : Nat) : Int) := by push_cast; rfl
        have hbyte : byteAt (pre ++ (old ++ post)) (pre.length + p : Int) = some old[p] := by
          rw [hcat, byteAt_natCast (by simp only [List.length_append]; omega)]
          simp [List.getElem_append_right, List.getElem_append_left, hp']
        simp only [addOld, hin, and_self, if_true, hbyte, Option.map_some, hcp, hadd pre post,
          Option.bind_eq_bind, Option.bind_some]
        rw [List.drop_eq_getElem_cons hs', List.take_succ_cons, UInt8.sub_add_cancel]
        rfl

/-- The triple `t` with the bytes `d` and `e` goes from `s` and `p` to `s'` and `p'`. -/
structure Block (old new : Bytes) (s p : Nat) (t : Triple) (d e : Bytes) (s' p' : Nat) : Prop where
  add_nonneg : 0 ≤ t.add
  copy_nonneg : 0 ≤ t.copy
  new_pos : (s' : Int) = s + t.add + t.copy
  old_pos : (p' : Int) = p + t.add + t.seek
  new_le : s' ≤ new.length
  old_le : p + t.add ≤ old.length
  seek_le : p' ≤ old.length
  diff : diffBytes old new t.add.toNat s p = some d
  extra : copyBytes new t.copy.toNat (s + t.add) = some e

/-- A list of triples, one block after the other. -/
inductive Encodes (old new : Bytes) :
    Nat → Nat → List Triple → Bytes → Bytes → Nat → Nat → Prop where
  | nil (s p : Nat) : Encodes old new s p [] [] [] s p
  | cons {s p s₁ p₁ s₂ p₂ : Nat} {t : Triple} {ts : List Triple} {d e ds es : Bytes}
      (head : Block old new s p t d e s₁ p₁) (tail : Encodes old new s₁ p₁ ts ds es s₂ p₂) :
      Encodes old new s p (t :: ts) (d ++ ds) (e ++ es) s₂ p₂

namespace Encodes

variable {old new : Bytes} {s p s' p' : Nat} {ts : List Triple} {d e : Bytes}

/-- One block more. -/
theorem snoc (h : Encodes old new s p ts d e s' p') {t : Triple} {d₁ e₁ : Bytes} {s₁ p₁ : Nat}
    (b : Block old new s' p' t d₁ e₁ s₁ p₁) :
    Encodes old new s p (ts ++ [t]) (d ++ d₁) (e ++ e₁) s₁ p₁ := by
  induction h with
  | nil s p =>
      have := Encodes.cons b (.nil s₁ p₁)
      simpa using this
  | cons head _ ih =>
      rw [List.append_assoc, List.append_assoc]
      exact .cons head (ih b)

/-- The lengths in the triples add up to the distance travelled. -/
theorem sum_eq (h : Encodes old new s p ts d e s' p') :
    (s' : Int) = s + (ts.map fun t => t.add + t.copy).sum := by
  induction h with
  | nil => simp
  | cons head _ ih =>
      rw [ih, head.new_pos, List.map_cons, List.sum_cons]
      ring

/-- So do the lengths of the two blocks. -/
theorem length_eq (h : Encodes old new s p ts d e s' p') : s' = s + d.length + e.length := by
  induction h with
  | nil => simp
  | @cons s p s₁ p₁ s₂ p₂ t ts d e ds es head _ ih =>
      have hpos := head.new_pos
      have hadd := head.add_nonneg
      have hcopy := head.copy_nonneg
      have hle := head.new_le
      have hold := head.old_le
      obtain ⟨d', hd', hlen, -⟩ := @diffBytes_spec old new t.add.toNat s p (by omega) (by omega)
      have hextra := head.extra
      have hstart : ((s : Int) + t.add) = ((s + t.add.toNat : Nat) : Int) := by omega
      rw [hstart, copyBytes_eq (by omega)] at hextra
      cases (head.diff.symm.trans hd')
      cases hextra
      simp only [List.length_append, List.length_take, List.length_drop]
      omega

/-- Every triple is in range. -/
theorem bounds (h : Encodes old new s p ts d e s' p') :
    ∀ t ∈ ts, 0 ≤ t.add ∧ 0 ≤ t.copy ∧ t.add + t.copy ≤ new.length ∧
      -(old.length : Int) ≤ t.seek ∧ t.seek ≤ old.length := by
  induction h with
  | nil => simp
  | cons head _ ih =>
      have hpos := head.new_pos
      have hseek := head.old_pos
      have hle := head.new_le
      have hold := head.old_le
      have hold' := head.seek_le
      have hadd := head.add_nonneg
      have hcopy := head.copy_nonneg
      intro t ht
      rcases List.mem_cons.mp ht with rfl | ht
      · refine ⟨hadd, hcopy, ?_, ?_, ?_⟩ <;> omega
      · exact ih t ht

/-- The old position stays inside the old data. -/
theorem old_le (h : Encodes old new s p ts d e s' p') (hp : p ≤ old.length) : p' ≤ old.length := by
  induction h with
  | nil => exact hp
  | cons head _ ih => exact ih head.seek_le

end Encodes

/-! ## The outer loop -/

/-- Invariant of the scan. The blocks written so far encode the new data up to `lastscan`. -/
structure ScanInv (old new : Bytes) (st : DiffState) : Prop where
  last_le : st.lastscan ≤ st.scan
  len_nonneg : 0 ≤ st.len
  room : st.scan < new.length → st.scan + st.len ≤ new.length
  pos : st.scan < new.length → st.scan + st.len < new.length ∨
    ∃ p : Nat, st.pos = some (p : Int) ∧ p ≤ old.length
  offset : st.lastoffset = st.lastpos - st.lastscan
  final : new.length ≤ st.scan → st.lastscan = new.length
  blocks : ∃ s p : Nat, st.lastscan = s ∧ st.lastpos = p ∧
    Encodes old new 0 0 st.ctrl st.db st.eb s p

theorem scanInv_start (old new : Bytes) : ScanInv old new ⟨0, 0, none, 0, 0, 0, [], [], []⟩ where
  last_le := Int.le_refl _
  len_nonneg := Int.le_refl _
  room h := by simp only at h ⊢; omega
  pos h := .inl (by simp only at h ⊢; omega)
  offset := rfl
  final h := by simp only at h ⊢; omega
  blocks := ⟨0, 0, rfl, rfl, .nil 0 0⟩

/-- Emitting a block up to a match keeps the invariant. -/
theorem emitBlock_spec {old new : Bytes} {st : DiffState} (h : ScanInv old new st)
    {scan len : Int} {p : Nat} (hle : st.lastscan ≤ scan) (hscan : scan ≤ new.length)
    (hp : p ≤ old.length) (hlen : scan < new.length → 0 < len ∧ scan + len ≤ new.length)
    (hlen' : 0 ≤ len) :
    ∃ st', emitBlock old new st scan len p = some st' ∧ ScanInv old new st' ∧
      st'.scan = scan ∧ st'.len = len ∧ st'.ctrl.length = st.ctrl.length + 1 := by
  obtain ⟨s, q, hs, hq, henc⟩ := h.blocks
  have hqle := henc.old_le (Nat.zero_le _)
  have hdblen := henc.length_eq
  obtain ⟨lenf, lenb, hext, e⟩ := @extend_spec old new st.lastscan st.lastpos scan p (by omega)
    hle hscan (by omega) (by omega) (Int.natCast_nonneg p) (by omega)
  have hf := e.forward
  have hb := e.backward
  have hsplit := e.split
  have hold := e.old_le
  have hpos := e.pos_le
  obtain ⟨d, hd, hdlen, -⟩ := @diffBytes_spec old new lenf.toNat s q (by omega) (by omega)
  have hcopy := @copyBytes_eq new ((scan - lenb) - (st.lastscan + lenf)).toNat (s + lenf.toNat)
    (by omega)
  have hstart : ((s + lenf.toNat : Nat) : Int) = st.lastscan + lenf := by omega
  rw [hstart] at hcopy
  -- the checks on the two output buffers pass
  have hroom : ¬ (lenf < 0 ∨ (scan - lenb) - (st.lastscan + lenf) < 0 ∨
      st.db.length + lenf > new.length + 1 ∨
      st.eb.length + ((scan - lenb) - (st.lastscan + lenf)) > new.length + 1) := by omega
  rw [← hs, ← hq] at hd
  simp only [emitBlock, hext, hroom, if_false, hd, hcopy, Option.bind_eq_bind, Option.bind_some]
  obtain ⟨s', hs'⟩ := Int.eq_ofNat_of_zero_le (show 0 ≤ scan - lenb by omega)
  obtain ⟨p', hp'⟩ := Int.eq_ofNat_of_zero_le (show 0 ≤ (p : Int) - lenb by omega)
  refine ⟨_, rfl, ?_, rfl, rfl, by simp⟩
  constructor
  case last_le => simp only; omega
  case len_nonneg => exact hlen'
  case room => exact fun hlt => (hlen hlt).2
  case pos => exact fun _ => .inr ⟨p, rfl, hp⟩
  case offset => simp only; ring
  case final =>
    intro hge
    have := e.final (Int.le_antisymm hscan hge)
    simp only at hge ⊢
    omega
  case blocks =>
    refine ⟨s', p', hs', hp', henc.snoc ?_⟩
    constructor
    case add_nonneg => exact hf
    case copy_nonneg => simp only; omega
    case new_pos => simp only; omega
    case old_pos => simp only; omega
    case new_le => omega
    case old_le => simp only; omega
    case seek_le => omega
    case diff => simpa only [← hs, ← hq] using hd
    case extra => simpa only [← hs] using hcopy

/-- One pass of the outer loop keeps the invariant and gets closer to the end. -/
theorem diffStep_spec {old : Bytes} (I : SuffixIndex old) {new : Bytes} {st : DiffState}
    (h : ScanInv old new st) (hlt : st.scan < new.length) :
    ∃ st', diffStep I new st = some st' ∧ ScanInv old new st' ∧
      (st'.scan < new.length → st.scan + st.len < st'.scan + st'.len) ∧
      st'.ctrl.length ≤ st.ctrl.length + 1 := by
  have hroom := h.room hlt
  have hlast := h.last_le
  have hlen := h.len_nonneg
  have hoff := h.offset
  obtain ⟨s, q, hs, hq, henc⟩ := h.blocks
  obtain ⟨start, hstart⟩ := Int.eq_ofNat_of_zero_le (show 0 ≤ st.scan + st.len by omega)
  obtain ⟨f, hf, hdone⟩ := @scanLoop_spec old I new st.lastoffset (new.length + 1) start start
    st.len 0 st.pos (by omega) (by omega) (by omega) (by omega) hlen (by omega)
    ((h.pos hlt).imp_left fun hp => by omega) (by omega)
  have hge := hdone.start_le
  have hle := hdone.le_length
  have hadv := hdone.advance
  have hflen := hdone.len_nonneg
  obtain ⟨p, hp, hple⟩ := hdone.pos
  simp only [diffStep, hstart, hf, Option.bind_eq_bind, Option.bind_some]
  split
  · obtain ⟨st', hst', hinv, hscan', hlen', hctrl⟩ := emitBlock_spec h (show st.lastscan ≤ f.scan
      by omega) hle hple hadv hflen
    simp only [hp, Option.bind_some, hst']
    refine ⟨st', rfl, hinv, ?_, by omega⟩
    rw [hscan', hlen']
    intro h'
    have := hadv h'
    omega
  · rename_i hskip
    have hne : f.scan < new.length := by omega
    refine ⟨_, rfl, ?_, ?_, Nat.le_succ _⟩
    · constructor
      case last_le => simp only; omega
      case len_nonneg => exact hflen
      case room => exact fun _ => (hadv hne).2
      case pos => exact fun _ => .inr ⟨p, hp, hple⟩
      case offset => exact hoff
      case final => exact fun h' => absurd hne (by simp only at h'; omega)
      case blocks => exact ⟨s, q, hs, hq, henc⟩
    · intro _
      have := hadv hne
      simp only
      omega

/-- The outer loop ends, and the blocks then encode the whole new data. -/
theorem diffLoop_spec {old : Bytes} (I : SuffixIndex old) {new : Bytes} {fuel : Nat}
    {st : DiffState} (h : ScanInv old new st)
    (hfuel : st.scan < new.length → new.length - (st.scan + st.len) + 1 < fuel)
    (hfuel' : 0 < fuel) :
    ∃ st' p, diffLoop I new fuel st = some st' ∧
      Encodes old new 0 0 st'.ctrl st'.db st'.eb new.length p ∧
      st'.ctrl.length ≤ st.ctrl.length + fuel := by
  induction fuel generalizing st with
  | zero => omega
  | succ fuel ih =>
      simp only [diffLoop]
      split
      · rename_i hlt
        have hlt' := hfuel hlt
        have hroom := h.room hlt
        obtain ⟨st₁, hst₁, hinv, hadv, hctrl⟩ := diffStep_spec I h hlt
        have hfuel₁ : st₁.scan < new.length →
            new.length - (st₁.scan + st₁.len) + 1 < (fuel : Int) := by
          intro h₁
          have := hadv h₁
          omega
        obtain ⟨st', p, hst', henc, hlen⟩ := ih hinv hfuel₁ (by omega)
        rw [hst₁, Option.bind_eq_bind, Option.bind_some]
        exact ⟨st', p, hst', henc, by omega⟩
      · rename_i hge
        obtain ⟨s, p, hs, hp, henc⟩ := h.blocks
        have hfin := h.final (by omega)
        have hsn : s = new.length := by omega
        subst hsn
        exact ⟨st, p, rfl, henc, by omega⟩

/-- The scan ends without leaving a buffer, and its blocks encode the new data. -/
theorem diffBlocks_spec {old : Bytes} (I : SuffixIndex old) (new : Bytes) :
    ∃ st p, diffBlocks I new = some st ∧ Encodes old new 0 0 st.ctrl st.db st.eb new.length p ∧
      st.ctrl.length ≤ new.length + 2 := by
  obtain ⟨st, p, hst, henc, hlen⟩ := diffLoop_spec I (scanInv_start old new)
    (show _ → _ < ((new.length + 2 : Nat) : Int) from fun _ => by simp only; push_cast; omega)
    (Nat.succ_pos _)
  exact ⟨st, p, hst, henc, by simpa using hlen⟩

end OpenRecovery.ImgDiff
