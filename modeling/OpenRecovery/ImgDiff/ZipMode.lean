import OpenRecovery.ImgDiff.ImageMode

/-!
# Zip mode and repeated names

In zip mode a deflated target entry is patched from the source entry of the same name. The loop of
`main` looks the source entry up once to decide whether the pair is worth keeping, and `MakePatch`
looks it up again. In between, a later target entry of the same name may have demoted the source
entry; the second lookup then finds another entry of the name, or none. With none the patch is made
from the whole source file, but the record is still a deflate record, and the length it names is the
`deflate_len` of a chunk that never had one.

The condition under which that does not happen speaks of one name at a time. The source entries of
the name form a queue. A target entry that cannot be reconstructed, or that equals the first entry
of the queue, takes that entry away (`remaining`); any other one is kept as a deflate chunk
(`patched`). The round trip fails if an entry is kept and the queue is empty at the end.
-/

set_option autoImplicit false

namespace OpenRecovery.ImgDiff

open OpenRecovery.Crash OpenRecovery.ApplyPatch OpenRecovery.Edify OpenRecovery.Storage

/-! ## Entries of one name -/

/-- A deflate chunk of the name. -/
def Named (name : Name) (c : ImageChunk) : Prop := c.type = .deflate ∧ c.filename = some name

instance (name : Name) (c : ImageChunk) : Decidable (Named name c) := by
  unfold Named
  infer_instance

theorem Named.not_other {name other : Name} {c : ImageChunk} (h : Named name c)
    (hne : other ≠ name) : ¬ Named other c := by
  rintro ⟨-, hf⟩
  rw [h.2, Option.some.injEq] at hf
  exact hne hf.symm

/-- The compressed data of the entries of a name, in order. -/
def streams (img : Bytes) (name : Name) (cs : List ImageChunk) : List Bytes :=
  (cs.filter fun c => Named name c).filterMap (deflateBytes img)

/-- `ReconstructDeflateChunk` succeeds. -/
def Reconstructible (L : Libs) (img : Bytes) (c : ImageChunk) : Prop :=
  (reconstructDeflateChunk L img c).map Prod.fst = some true

instance (L : Libs) (img : Bytes) (c : ImageChunk) : Decidable (Reconstructible L img c) := by
  unfold Reconstructible
  infer_instance

/-- The target entries of a name, in order: their compressed data, and whether it can be
reconstructed. -/
def targets (L : Libs) (img : Bytes) (name : Name) (cs : List ImageChunk) : List (Bytes × Bool) :=
  (cs.filter fun c => Named name c).filterMap fun c =>
    (deflateBytes img c).map fun z => (z, decide (Reconstructible L img c))

/-- The source entries left when the target entries have taken theirs away. -/
def remaining : List Bytes → List (Bytes × Bool) → List Bytes
  | [], _ => []
  | s :: ss, [] => s :: ss
  | s :: ss, (t, ok) :: ts => if ok ∧ t ≠ s then remaining (s :: ss) ts else remaining ss ts

/-- Some target entry is kept. -/
def patched : List Bytes → List (Bytes × Bool) → Bool
  | [], _ => false
  | _ :: _, [] => false
  | s :: ss, (t, ok) :: ts => if ok ∧ t ≠ s then true else patched ss ts

/-- With a single target entry of the name, an entry that is kept finds its source again. -/
theorem remaining_of_patched_single {ss : List Bytes} {t : Bytes × Bool}
    (h : patched ss [t] = true) : remaining ss [t] ≠ [] := by
  cases ss with
  | nil => simp [patched] at h
  | cons s ss =>
      obtain ⟨t, ok⟩ := t
      simp only [patched, remaining] at h ⊢
      split at h
      · rename_i hk
        rw [if_pos hk]
        simp
      · cases ss <;> simp [patched] at h

/-! ## Looking up a name -/

theorem modify_append_cons {α : Type} (l r : List α) (a : α) (f : α → α) :
    (l ++ a :: r).modify l.length f = l ++ f a :: r := by
  induction l with
  | nil => rfl
  | cons b l ih => simpa using ih

/-- The chunk found is the first of the name. -/
theorem findChunkByName_cases (name : Name) (cs : List ImageChunk) :
    (findChunkByName name cs = none ∧ ∀ d ∈ cs, ¬ Named name d) ∨
    ∃ l c r, cs = l ++ c :: r ∧ findChunkByName name cs = some l.length ∧ Named name c ∧
      ∀ d ∈ l, ¬ Named name d := by
  induction cs with
  | nil => exact .inl ⟨rfl, fun d hd => by cases hd⟩
  | cons b cs ih =>
      by_cases hb : Named name b
      · refine .inr ⟨[], b, cs, rfl, ?_, hb, fun d hd => by cases hd⟩
        rw [findChunkByName, List.findIdx?_cons, if_pos (by simpa [Named] using hb)]
        rfl
      · have hstep : findChunkByName name (b :: cs) = (findChunkByName name cs).map (· + 1) := by
          rw [findChunkByName, List.findIdx?_cons, if_neg (by simpa [Named] using hb)]
          rfl
        rcases ih with ⟨hnone, hall⟩ | ⟨l, c, r, rfl, hsome, hc, hl⟩
        · refine .inl ⟨by rw [hstep, hnone]; rfl, ?_⟩
          intro d hd
          rcases List.mem_cons.mp hd with rfl | hd
          · exact hb
          · exact hall d hd
        · refine .inr ⟨b :: l, c, r, rfl, by rw [hstep, hsome]; rfl, hc, ?_⟩
          intro d hd
          rcases List.mem_cons.mp hd with rfl | hd
          · exact hb
          · exact hl d hd

theorem not_named_changeToNormal (name : Name) (c : ImageChunk) :
    ¬ Named name (changeDeflateChunkToNormal c) := by
  rintro ⟨ht, -⟩
  rw [type_changeToNormal] at ht
  split at ht
  · cases ht
  · rename_i hne
    exact hne ht

section Streams

variable {L : Libs} {img : Bytes}

theorem streams_of_not_named {name : Name} {cs : List ImageChunk} (h : ∀ d ∈ cs, ¬ Named name d) :
    streams img name cs = [] := by
  rw [streams, List.filter_eq_nil_iff.mpr]
  · rfl
  · intro d hd
    simpa using h d hd

theorem streams_append (name : Name) (l r : List ImageChunk) :
    streams img name (l ++ r) = streams img name l ++ streams img name r := by
  simp only [streams, List.filter_append, List.filterMap_append]

theorem streams_cons_not_named {name : Name} {c : ImageChunk} (h : ¬ Named name c)
    (r : List ImageChunk) : streams img name (c :: r) = streams img name r := by
  rw [streams, List.filter_cons_of_neg (by simpa using h)]
  rfl

theorem streams_cons_named {name : Name} {c : ImageChunk} (h : Named name c) {z : Bytes}
    (hz : deflateBytes img c = some z) (r : List ImageChunk) :
    streams img name (c :: r) = z :: streams img name r := by
  rw [streams, List.filter_cons_of_pos (by simpa using h), List.filterMap_cons, hz]
  rfl

/-- The first entry of the name is demoted: its stream leaves the queue of the name, and no other
queue changes. -/
theorem streams_demoted {name : Name} {l r : List ImageChunk} {c : ImageChunk} {z : Bytes}
    (hl : ∀ d ∈ l, ¬ Named name d) (hc : Named name c) (hz : deflateBytes img c = some z) :
    streams img name (l ++ c :: r) = z :: streams img name r ∧
      streams img name (l ++ changeDeflateChunkToNormal c :: r) = streams img name r ∧
      ∀ other, other ≠ name → streams img other (l ++ changeDeflateChunkToNormal c :: r) =
        streams img other (l ++ c :: r) := by
  refine ⟨?_, ?_, ?_⟩
  · rw [streams_append, streams_of_not_named hl, streams_cons_named hc hz, List.nil_append]
  · rw [streams_append, streams_of_not_named hl,
      streams_cons_not_named (not_named_changeToNormal name c), List.nil_append]
  · intro other hne
    rw [streams_append, streams_append,
      streams_cons_not_named (not_named_changeToNormal other c),
      streams_cons_not_named (hc.not_other hne)]

end Streams

/-! ## One target entry -/

/-- What the code relies on in zlib: an empty buffer holds no stream, and `deflateInit2` accepts the
parameters of `ReconstructDeflateChunk`. -/
structure Zlib (L : Libs) : Prop where
  empty : L.inflate [] = none
  accepts : ∀ level d, level = 6 ∨ level = 9 → (L.deflate (encoder level) d).isSome

theorem reconstructDeflateChunk_isSome {L : Libs} (hz : Zlib L) {img : Bytes} {pos : Nat}
    {c : ImageChunk} (h : Fits L img pos c) :
    ∃ ok c', reconstructDeflateChunk L img c = some (ok, c') := by
  obtain ⟨d, hd, -⟩ := h.chunkBytes_isSome
  have htry : ∀ level, level = 6 ∨ level = 9 →
      ∃ b, tryReconstruction L img { c with params := encoder level } = some b := by
    intro level hlevel
    obtain ⟨out, hout⟩ := Option.isSome_iff_exists.mp (hz.accepts level d hlevel)
    have hd' : chunkBytes img { c with params := encoder level } = some d := hd
    exact ⟨_, by simp only [tryReconstruction, hd', hout, Option.bind_eq_bind, Option.bind_some]; rfl⟩
  obtain ⟨six, hsix⟩ := htry 6 (.inl rfl)
  obtain ⟨nine, hnine⟩ := htry 9 (.inr rfl)
  unfold reconstructDeflateChunk
  split
  · exact ⟨_, _, rfl⟩
  · simp only [hsix, hnine, Option.bind_eq_bind, Option.bind_some]
    cases six with
    | true => exact ⟨_, _, rfl⟩
    | false =>
        cases nine with
        | true => exact ⟨_, _, rfl⟩
        | false => exact ⟨_, _, rfl⟩

/-- Deflate chunks are equal if their compressed data is. -/
theorem areChunksEqual_deflate {imgA imgB x y : Bytes} {a b : ImageChunk} (ha : a.type = .deflate)
    (hb : b.type = .deflate) (hx : deflateBytes imgA a = some x) (hy : deflateBytes imgB b = some y) :
    areChunksEqual imgA a imgB b = some (decide (x = y)) := by
  have hxlen : x.length = a.deflateLen := slice_length hx
  have hylen : y.length = b.deflateLen := slice_length hy
  have hne : ¬ (a.type ≠ b.type) := by simp [ha, hb]
  rw [areChunksEqual, if_neg hne, ha]
  simp only
  split
  · simp only [hx, hy, Option.bind_eq_bind, Option.bind_some]
    rfl
  · rename_i hlen
    have : x ≠ y := by
      rintro rfl
      exact hlen (hxlen.symm.trans hylen)
    simp [this]

theorem targets_cons (L : Libs) (img : Bytes) (name : Name) (c : ImageChunk)
    (cs : List ImageChunk) :
    targets L img name (c :: cs) = targets L img name [c] ++ targets L img name cs := by
  rw [targets, targets, targets, ← List.filterMap_append, ← List.filter_append,
    List.singleton_append]

theorem targets_not_named {L : Libs} {img : Bytes} {name : Name} {c : ImageChunk}
    (h : ¬ Named name c) : targets L img name [c] = [] := by
  rw [targets, List.filter_cons_of_neg (by simpa using h)]
  rfl

theorem targets_named {L : Libs} {img : Bytes} {name : Name} {c : ImageChunk} {z : Bytes}
    (h : Named name c) (hz : deflateBytes img c = some z) :
    targets L img name [c] = [(z, decide (Reconstructible L img c))] := by
  rw [targets, List.filter_cons_of_pos (by simpa using h)]
  simp only [List.filter_nil, List.filterMap_cons, List.filterMap_nil, hz, Option.map_some]

@[simp] theorem remaining_nil_left (ts : List (Bytes × Bool)) : remaining [] ts = [] := by
  cases ts <;> rfl

@[simp] theorem patched_nil_left (ts : List (Bytes × Bool)) : patched [] ts = false := by
  cases ts <;> rfl

theorem remaining_nil_right (ss : List Bytes) : remaining ss [] = ss := by
  cases ss <;> rfl

theorem patched_nil_right (ss : List Bytes) : patched ss [] = false := by
  cases ss <;> rfl

/-- One entry, then the others. -/
theorem remaining_cons (ss : List Bytes) (t : Bytes × Bool) (ts : List (Bytes × Bool)) :
    remaining ss (t :: ts) = remaining (remaining ss [t]) ts := by
  obtain ⟨t, ok⟩ := t
  cases ss with
  | nil => simp
  | cons s ss =>
      simp only [remaining]
      split
      · rfl
      · rw [remaining_nil_right]

theorem patched_cons (ss : List Bytes) (t : Bytes × Bool) (ts : List (Bytes × Bool)) :
    patched ss (t :: ts) = (patched ss [t] || patched (remaining ss [t]) ts) := by
  obtain ⟨t, ok⟩ := t
  cases ss with
  | nil => simp
  | cons s ss =>
      simp only [patched, remaining]
      split
      · rfl
      · rw [remaining_nil_right, patched_nil_right, Bool.false_or]

/-- The source chunks. The first is the whole file. -/
structure SourcesFit (L : Libs) (img : Bytes) (whole : ImageChunk) (srcs : List ImageChunk) :
    Prop where
  head : ∃ I, srcs[0]? = some { whole with I := I }
  whole_normal : whole.type = .normal
  fits : ∀ c ∈ srcs, ∃ p, Fits L img p c

/-- The source chunks while the first loop runs: `bsdiff` has not been called yet. -/
structure FreshSources (L : Libs) (img : Bytes) (whole : ImageChunk) (srcs : List ImageChunk) :
    Prop extends SourcesFit L img whole srcs where
  fresh : ∀ c ∈ srcs, c.I = none

section Sources

variable {L : Libs} {img : Bytes} {whole : ImageChunk} {srcs : List ImageChunk}

/-- A name is found if its queue is not empty, and then its first entry. -/
theorem findChunkByName_streams (h : SourcesFit L img whole srcs) (name : Name) :
    (findChunkByName name srcs = none ∧ streams img name srcs = []) ∨
    ∃ l c r z, srcs = l ++ c :: r ∧ findChunkByName name srcs = some l.length ∧ Named name c ∧
      deflateBytes img c = some z ∧ (∀ d ∈ l, ¬ Named name d) ∧ l ≠ [] := by
  rcases findChunkByName_cases name srcs with ⟨hnone, hall⟩ | ⟨l, c, r, rfl, hsome, hc, hl⟩
  · exact .inl ⟨hnone, streams_of_not_named hall⟩
  · obtain ⟨p, hfit⟩ := h.fits c (by simp)
    refine .inr ⟨l, c, r, _, rfl, hsome, hc, hfit.deflateBytes_deflate hc.1, hl, ?_⟩
    rintro rfl
    obtain ⟨I, hhead⟩ := h.head
    rw [List.nil_append, List.getElem?_cons_zero, Option.some.injEq] at hhead
    have htype := hc.1
    rw [hhead] at htype
    exact absurd (h.whole_normal.symm.trans htype) (by decide)

/-- Demoting the entry found takes it from the queue of its name. -/
theorem demoteFound_spec (h : FreshSources L img whole srcs) (name : Name) :
    FreshSources L img whole (demoteFound srcs (findChunkByName name srcs)) ∧
      streams img name (demoteFound srcs (findChunkByName name srcs)) =
        (streams img name srcs).tail ∧
      ∀ other, other ≠ name → streams img other (demoteFound srcs (findChunkByName name srcs)) =
        streams img other srcs := by
  rcases findChunkByName_streams h.toSourcesFit name with ⟨hnone, hempty⟩ |
    ⟨l, c, r, z, rfl, hsome, hc, hz, hl, hne⟩
  · rw [hnone, hempty]
    exact ⟨h, hempty, fun _ _ => rfl⟩
  · obtain ⟨hq, hq', hother⟩ := streams_demoted (r := r) hl hc hz
    rw [hsome, demoteFound, modify_append_cons, hq, hq']
    refine ⟨⟨⟨?_, h.whole_normal, ?_⟩, ?_⟩, rfl, hother⟩
    · obtain ⟨b, l, rfl⟩ := List.exists_cons_of_ne_nil hne
      exact h.head
    · intro d hd
      rcases List.mem_append.mp hd with hd | hd
      · exact h.fits d (List.mem_append_left _ hd)
      · rcases List.mem_cons.mp hd with rfl | hd
        · obtain ⟨p, hp⟩ := h.fits c (by simp)
          exact ⟨p, hp.changeToNormal⟩
        · exact h.fits d (by simp [hd])
    · intro d hd
      rcases List.mem_append.mp hd with hd | hd
      · exact h.fresh d (List.mem_append_left _ hd)
      · rcases List.mem_cons.mp hd with rfl | hd
        · rw [index_changeToNormal]
          exact h.fresh c (by simp)
        · exact h.fresh d (by simp [hd])

end Sources

/-- What a pass of the loop does to a target entry and to the queues. -/
structure EntryDone (H : HostLibs) (srcImg tgtImg : Bytes) (whole : ImageChunk) (q : Nat)
    (srcs : List ImageChunk) (tgt : ImageChunk) (srcs' : List ImageChunk) (tgt' : ImageChunk) :
    Prop where
  sources : FreshSources H.toLibs srcImg whole srcs'
  fits : Fits H.toLibs tgtImg q tgt'
  extent : tgt'.extent = tgt.extent
  reconstructs : tgt'.type = .deflate → Reconstructs H.toLibs tgtImg tgt'
  named : tgt'.type = .deflate → tgt'.filename.isSome
  left : ∀ name, streams srcImg name srcs' =
    remaining (streams srcImg name srcs) (targets H.toLibs tgtImg name [tgt])
  kept : ∀ name, Named name tgt' ↔
    patched (streams srcImg name srcs) (targets H.toLibs tgtImg name [tgt]) = true

section Entry

variable {H : HostLibs} {srcImg tgtImg : Bytes} {whole : ImageChunk} {q : Nat}
  {srcs : List ImageChunk} {tgt : ImageChunk}

/-- The entry is demoted, and so is the source entry of its name, if there is one. -/
theorem entryDone_demoted (hs : FreshSources H.toLibs srcImg whole srcs)
    (ht : Fits H.toLibs tgtImg q tgt) {name : Name} (hn : Named name tgt) (params : DeflateParams)
    (htake : ∀ s ss, streams srcImg name srcs = s :: ss →
      ¬ (Reconstructible H.toLibs tgtImg tgt ∧ deflateBytes tgtImg tgt ≠ some s)) :
    EntryDone H srcImg tgtImg whole q srcs tgt (demoteFound srcs (findChunkByName name srcs))
      (changeDeflateChunkToNormal { tgt with params := params }) := by
  obtain ⟨hs', hqueue, hother⟩ := demoteFound_spec hs name
  have hz := ht.deflateBytes_deflate hn.1
  have htype : (changeDeflateChunkToNormal { tgt with params := params }).type ≠ .deflate := by
    rw [type_changeToNormal]
    simp [hn.1]
  constructor
  case sources => exact hs'
  case fits => exact (ht.withParams params).changeToNormal
  case extent => exact extent_changeToNormal { tgt with params := params }
  case reconstructs => exact fun h => absurd h htype
  case named => exact fun h => absurd h htype
  case left =>
    intro other
    by_cases hne : other = name
    · subst hne
      rw [hqueue, targets_named hn hz]
      cases hq : streams srcImg other srcs with
      | nil => simp
      | cons s ss =>
          have hgo := htake s ss hq
          rw [hz, ne_eq, Option.some.injEq] at hgo
          rw [remaining, if_neg (by simpa using hgo), remaining_nil_right, List.tail_cons]
    · rw [hother other hne, targets_not_named (hn.not_other hne), remaining_nil_right]
  case kept =>
    intro other
    refine iff_of_false (fun h => htype h.1) ?_
    by_cases hne : other = name
    · subst hne
      rw [targets_named hn hz]
      cases hq : streams srcImg other srcs with
      | nil => simp
      | cons s ss =>
          have hgo := htake s ss hq
          rw [hz, ne_eq, Option.some.injEq] at hgo
          rw [patched, if_neg (by simpa using hgo), patched_nil_right]
          decide
    · rw [targets_not_named (hn.not_other hne), patched_nil_right]
      decide

/-- The entry stays a deflate chunk. -/
theorem entryDone_kept (hs : FreshSources H.toLibs srcImg whole srcs)
    (ht : Fits H.toLibs tgtImg q tgt) {name : Name} (hn : Named name tgt) {params : DeflateParams}
    (hrec : Reconstructs H.toLibs tgtImg { tgt with params := params })
    (hok : Reconstructible H.toLibs tgtImg tgt) {s : Bytes} {ss : List Bytes}
    (hqueue : streams srcImg name srcs = s :: ss) (hdiff : deflateBytes tgtImg tgt ≠ some s) :
    EntryDone H srcImg tgtImg whole q srcs tgt srcs { tgt with params := params } := by
  have hz := ht.deflateBytes_deflate hn.1
  have hgo : decide (Reconstructible H.toLibs tgtImg tgt) = true ∧
      (tgtImg.drop q).take tgt.extent ≠ s := by
    refine ⟨decide_eq_true hok, ?_⟩
    rintro rfl
    exact hdiff hz
  constructor
  case sources => exact hs
  case fits => exact ht.withParams params
  case extent => rfl
  case reconstructs => exact fun _ => hrec
  case named => exact fun _ => Option.isSome_iff_exists.mpr ⟨name, hn.2⟩
  case left =>
    intro other
    by_cases hne : other = name
    · subst hne
      rw [targets_named hn hz, hqueue, remaining, if_pos hgo, remaining_nil_right]
    · rw [targets_not_named (hn.not_other hne), remaining_nil_right]
  case kept =>
    intro other
    by_cases hne : other = name
    · subst hne
      rw [targets_named hn hz, hqueue, patched, if_pos hgo]
      exact iff_of_true hn rfl
    · rw [targets_not_named (hn.not_other hne), patched_nil_right]
      exact iff_of_false (hn.not_other hne) (by decide)

theorem demoteNamed_spec (hz : Zlib H.toLibs) (hs : FreshSources H.toLibs srcImg whole srcs)
    (ht : Fits H.toLibs tgtImg q tgt) (hname : tgt.type = .deflate → tgt.filename.isSome) :
    ∃ srcs' tgt', demoteNamed H srcImg tgtImg srcs tgt = some (srcs', tgt') ∧
      EntryDone H srcImg tgtImg whole q srcs tgt srcs' tgt' := by
  unfold demoteNamed
  split
  · rename_i hd
    obtain ⟨name, hf⟩ := Option.isSome_iff_exists.mp (hname hd)
    have hn : Named name tgt := ⟨hd, hf⟩
    obtain ⟨ok, tgt₁, hrec⟩ := reconstructDeflateChunk_isSome hz ht
    have hrecible : Reconstructible H.toLibs tgtImg tgt ↔ ok = true := by
      rw [Reconstructible, hrec, Option.map_some, Option.some.injEq]
    obtain ⟨params, htgt, hok⟩ := reconstructDeflateChunk_spec hd hrec
    have hf₁ : tgt₁.filename = some name := by rw [htgt, hf]
    simp only [hrec, hf₁, Option.bind_eq_bind, Option.bind_some]
    cases ok with
    | false =>
        -- not reconstructible: the source entry goes, whatever it is
        subst htgt
        refine ⟨_, _, rfl, entryDone_demoted hs ht hn params ?_⟩
        rintro s ss - ⟨h, -⟩
        exact absurd (hrecible.mp h) (by decide)
    | true =>
        simp only [Bool.not_true, Bool.false_eq_true, if_false]
        rcases findChunkByName_streams hs.toSourcesFit name with ⟨hnone, hempty⟩ |
          ⟨l, c, r, z, hsplit, hsome, hc, hcz, hl, -⟩
        · simp only [hnone]
          have hdone := entryDone_demoted hs ht hn params (fun s ss h => by simp [hempty] at h)
          rw [hnone] at hdone
          subst htgt
          exact ⟨_, _, rfl, hdone⟩
        · have hget : srcs[l.length]? = some c := by
            rw [hsplit]
            simp
          have hqueue : streams srcImg name srcs = z :: streams srcImg name r := by
            rw [hsplit]
            exact (streams_demoted hl hc hcz).1
          have hequal : areChunksEqual tgtImg tgt₁ srcImg c =
              some (decide ((tgtImg.drop q).take tgt.extent = z)) := by
            subst htgt
            exact areChunksEqual_deflate hd hc.1 (ht.deflateBytes_deflate hd) hcz
          simp only [hsome, hget, hequal, Option.bind_some]
          subst htgt
          by_cases heq : (tgtImg.drop q).take tgt.extent = z
          · simp only [heq, decide_true, if_true]
            have hdone := entryDone_demoted hs ht hn params (by
              rintro s ss hq ⟨-, hne⟩
              rw [hqueue, List.cons.injEq] at hq
              exact hne (by rw [ht.deflateBytes_deflate hd, heq, hq.1]))
            rw [hsome] at hdone
            exact ⟨_, _, rfl, hdone⟩
          · simp only [heq, decide_false, Bool.false_eq_true, if_false]
            refine ⟨_, _, rfl, entryDone_kept hs ht hn (hok rfl) (hrecible.mpr rfl) hqueue ?_⟩
            rw [ht.deflateBytes_deflate hd, ne_eq, Option.some.injEq]
            exact heq
  · rename_i hd
    refine ⟨_, _, rfl, hs, ht, rfl, fun h => absurd h hd, hname, ?_, ?_⟩
    · intro name
      rw [targets_not_named (fun h => hd h.1), remaining_nil_right]
    · intro name
      rw [targets_not_named (fun h => hd h.1), patched_nil_right]
      exact iff_of_false (fun h => hd h.1) (by decide)

/-! ## All target entries -/

/-- What the loop leaves. -/
structure AllDone (H : HostLibs) (srcImg tgtImg : Bytes) (whole : ImageChunk) (q g : Nat)
    (srcs tgts srcs' tgts' : List ImageChunk) : Prop where
  sources : FreshSources H.toLibs srcImg whole srcs'
  tiles : Tiles H.toLibs tgtImg q tgts' g
  reconstructs : ∀ c ∈ tgts', c.type = .deflate → Reconstructs H.toLibs tgtImg c
  named : ∀ c ∈ tgts', c.type = .deflate → c.filename.isSome
  left : ∀ name, streams srcImg name srcs' =
    remaining (streams srcImg name srcs) (targets H.toLibs tgtImg name tgts)
  kept : ∀ name, (∃ c ∈ tgts', Named name c) ↔
    patched (streams srcImg name srcs) (targets H.toLibs tgtImg name tgts) = true

theorem targets_single {L : Libs} {img : Bytes} (name : Name) {pos : Nat} {c : ImageChunk}
    (h : Fits L img pos c) :
    targets L img name [c] = [] ∨ ∃ t, targets L img name [c] = [t] := by
  by_cases hn : Named name c
  · exact .inr ⟨_, targets_named hn (h.deflateBytes_deflate hn.1)⟩
  · exact .inl (targets_not_named hn)

theorem demoteAll_spec (hz : Zlib H.toLibs) {g : Nat} {tgts : List ImageChunk}
    (hs : FreshSources H.toLibs srcImg whole srcs) (ht : Tiles H.toLibs tgtImg q tgts g)
    (hname : ∀ c ∈ tgts, c.type = .deflate → c.filename.isSome) :
    ∃ srcs' tgts', demoteAll H srcImg tgtImg srcs tgts = some (srcs', tgts') ∧
      AllDone H srcImg tgtImg whole q g srcs tgts srcs' tgts' := by
  induction tgts generalizing srcs q with
  | nil =>
      refine ⟨srcs, [], by cases srcs <;> rfl, hs, ht, by simp, by simp, ?_, ?_⟩
      · intro name
        exact (remaining_nil_right _).symm
      · intro name
        have : patched (streams srcImg name srcs) (targets H.toLibs tgtImg name []) = false :=
          patched_nil_right _
        rw [this]
        simp
  | cons tgt tgts ih =>
      cases ht with
      | cons hfit hrest =>
          obtain ⟨srcs₁, tgt', hstep, hdone⟩ := demoteNamed_spec hz hs hfit
            (hname tgt (.head _))
          have hrest' : Tiles H.toLibs tgtImg (q + tgt'.extent) tgts g := by
            rwa [hdone.extent]
          obtain ⟨srcs', tgts', hloop, hall⟩ := ih hdone.sources hrest'
            (fun c hc => hname c (.tail _ hc))
          refine ⟨srcs', tgt' :: tgts', ?_, hall.sources, .cons hdone.fits hall.tiles, ?_, ?_, ?_,
            ?_⟩
          · simp only [demoteAll, hstep, hloop, Option.bind_eq_bind, Option.bind_some]
            rfl
          · intro c hc
            rcases List.mem_cons.mp hc with rfl | hc
            · exact hdone.reconstructs
            · exact hall.reconstructs c hc
          · intro c hc
            rcases List.mem_cons.mp hc with rfl | hc
            · exact hdone.named
            · exact hall.named c hc
          · intro name
            rw [hall.left, hdone.left, targets_cons _ _ _ tgt tgts]
            rcases targets_single (L := H.toLibs) name hfit with h | ⟨t, h⟩
            · rw [h, remaining_nil_right, List.nil_append]
            · rw [h, List.singleton_append]
              exact (remaining_cons _ _ _).symm
          · intro name
            have hor : (∃ c ∈ tgt' :: tgts', Named name c) ↔
                (Named name tgt' ∨ ∃ c ∈ tgts', Named name c) := by simp
            rw [hor, hdone.kept, hall.kept, hdone.left, targets_cons _ _ _ tgt tgts]
            rcases targets_single (L := H.toLibs) name hfit with h | ⟨t, h⟩
            · rw [h, remaining_nil_right, patched_nil_right, List.nil_append]
              simp
            · rw [h, List.singleton_append, patched_cons _ t (targets _ _ _ tgts), Bool.or_eq_true]

end Entry

/-! ## The patches -/

section Patches

variable {H : HostLibs} {qsufsort : (old : Bytes) → SuffixIndex old} {srcImg tgtImg : Bytes}
  {whole : ImageChunk}

/-- Setting the array of a chunk changes nothing else. -/
theorem SourcesFit.setIndex {L : Libs} {img : Bytes} {srcs : List ImageChunk}
    (h : SourcesFit L img whole srcs) {k : Nat} {src : ImageChunk} (hk : srcs[k]? = some src)
    (I : Option (List Nat)) :
    SourcesFit L img whole (srcs.set k { src with I := I }) ∧
      ∀ name, streams img name (srcs.set k { src with I := I }) = streams img name srcs := by
  obtain ⟨hlt, hget⟩ := List.getElem?_eq_some_iff.mp hk
  have hsplit : srcs = srcs.take k ++ src :: srcs.drop (k + 1) := by
    rw [← hget, ← List.drop_eq_getElem_cons hlt, List.take_append_drop]
  have hset : srcs.set k { src with I := I } =
      srcs.take k ++ { src with I := I } :: srcs.drop (k + 1) := by
    rw [List.set_eq_take_append_cons_drop, if_pos hlt]
  refine ⟨⟨?_, h.whole_normal, ?_⟩, ?_⟩
  · obtain ⟨I₀, hhead⟩ := h.head
    cases k with
    | zero =>
        rw [hk, Option.some.injEq] at hhead
        refine ⟨I, ?_⟩
        rw [List.getElem?_set_self hlt, hhead]
    | succ k => exact ⟨I₀, by rw [List.getElem?_set_ne (by omega), hhead]⟩
  · intro c hc
    rcases List.mem_or_eq_of_mem_set hc with hc | rfl
    · exact h.fits c hc
    · obtain ⟨p, hp⟩ := h.fits src (List.mem_of_getElem? hk)
      exact ⟨p, hp.withIndex I⟩
  · intro name
    rw [hset]
    conv_rhs => rw [hsplit]
    rw [streams_append, streams_append]
    congr 1
    by_cases hn : Named name src
    · obtain ⟨p, hp⟩ := h.fits src (List.mem_of_getElem? hk)
      have hz := hp.deflateBytes_deflate hn.1
      rw [streams_cons_named hn hz]
      exact streams_cons_named (c := { src with I := I }) hn hz _
    · rw [streams_cons_not_named hn]
      exact streams_cons_not_named (c := { src with I := I }) hn _

/-- The source of a target entry: a deflate chunk of its name, or the whole file. -/
theorem sourceFor_spec {srcs : List ImageChunk} (hs : SourcesFit H.toLibs srcImg whole srcs)
    {tgt : ImageChunk} (hname : tgt.type = .deflate → tgt.filename.isSome) :
    ∃ k src, sourceFor srcs tgt = some k ∧ srcs[k]? = some src ∧
      ((src.type = .deflate ∧ ∃ name, Named name tgt ∧ streams srcImg name srcs ≠ []) ∨
        ((∃ I, src = { whole with I := I }) ∧
          ∀ name, Named name tgt → streams srcImg name srcs = [])) := by
  obtain ⟨I, hhead⟩ := hs.head
  unfold sourceFor
  split
  · rename_i hd
    obtain ⟨name, hf⟩ := Option.isSome_iff_exists.mp (hname hd)
    have hn : Named name tgt := ⟨hd, hf⟩
    simp only [hf, Option.bind_eq_bind, Option.bind_some]
    rcases findChunkByName_streams hs name with ⟨hnone, hempty⟩ |
      ⟨l, c, r, z, rfl, hsome, hc, hz, hl, -⟩
    · refine ⟨0, _, by rw [hnone]; rfl, hhead, .inr ⟨⟨I, rfl⟩, ?_⟩⟩
      intro other ho
      obtain rfl : other = name := by
        by_contra hne
        exact hn.not_other hne ho
      exact hempty
    · refine ⟨l.length, c, by rw [hsome]; rfl, by simp, .inl ⟨hc.1, name, hn, ?_⟩⟩
      rw [(streams_demoted hl hc hz).1]
      simp
  · rename_i hd
    exact ⟨0, _, rfl, hhead, .inr ⟨⟨I, rfl⟩, fun name hn => absurd hn.1 hd⟩⟩

/-- The patches of all target chunks. They restore the target if every deflate chunk finds a source
entry; the first that finds none has a record that says nothing about the source, if the whole file
has no compressed length. -/
theorem patchAllNamed_spec (hsrc : srcImg.length < 2 ^ 31) (htgt : tgtImg.length < 2 ^ 31)
    {q g : Nat} {srcs tgts : List ImageChunk} (hs : SourcesFit H.toLibs srcImg whole srcs)
    (hI : ∀ c ∈ srcs, IndexFits srcImg c) (ht : Tiles H.toLibs tgtImg q tgts g)
    (hrec : ∀ c ∈ tgts, c.type = .deflate → Reconstructs H.toLibs tgtImg c)
    (hname : ∀ c ∈ tgts, c.type = .deflate → c.filename.isSome) :
    ∃ es, patchAllNamed H qsufsort srcImg tgtImg srcs tgts = some es ∧
      ((∀ name, (∃ c ∈ tgts, Named name c) → streams srcImg name srcs ≠ []) →
        RestoresAll H srcImg es ((tgtImg.drop q).take (g - q))) ∧
      (whole.start = 0 → whole.deflateLen = 0 →
        (∃ name, (∃ c ∈ tgts, Named name c) ∧ streams srcImg name srcs = []) →
        BreaksOff H srcImg es) := by
  induction tgts generalizing q srcs with
  | nil =>
      cases ht
      refine ⟨[], by cases srcs <;> rfl, fun _ => ?_, fun _ _ h => ?_⟩
      · rw [Nat.sub_self, List.take_zero]
        exact .nil
      · obtain ⟨_, ⟨c, hc, -⟩, -⟩ := h
        cases hc
  | cons tgt tgts ih =>
      cases ht with
      | cons hfit hrest =>
          obtain ⟨k, src, hk, hget, hwhich⟩ := sourceFor_spec hs (hname tgt (.head _))
          have hmem := List.mem_of_getElem? hget
          obtain ⟨p, hsfit⟩ := hs.fits src hmem
          obtain ⟨patch, I, tgt', hmake, hI', hrestores, hbroken⟩ := @makePatch_spec H qsufsort
            srcImg tgtImg src tgt p q hsrc htgt hsfit hfit (hI src hmem)
          obtain ⟨hs', hstreams⟩ := hs.setIndex hget I
          have hI'' : ∀ c ∈ srcs.set k { src with I := I }, IndexFits srcImg c := by
            intro c hc
            rcases List.mem_or_eq_of_mem_set hc with hc | rfl
            · exact hI c hc
            · exact hI'
          obtain ⟨es, hes, hall, hbreak⟩ := ih hs' hI'' hrest (fun c hc => hrec c (.tail _ hc))
            (fun c hc => hname c (.tail _ hc))
          simp only [hstreams] at hall hbreak
          -- a target chunk that is not left without a source has one of its own type
          have hhead : (∀ name, Named name tgt → streams srcImg name srcs ≠ []) →
              Restores H srcImg tgt' patch ((tgtImg.drop q).take tgt.extent) := by
            intro hsome
            refine hrestores ?_ (hrec tgt (.head _))
            rcases hwhich with ⟨htype, name, hn, -⟩ | ⟨⟨I₀, rfl⟩, hnone⟩
            · rw [htype, hn.1]
            · cases htype : tgt.type with
              | normal => exact hs.whole_normal
              | raw => exact absurd htype hfit.not_raw
              | deflate =>
                  obtain ⟨name, hf⟩ := Option.isSome_iff_exists.mp (hname tgt (.head _) htype)
                  exact absurd (hnone name ⟨htype, hf⟩) (hsome name ⟨htype, hf⟩)
          refine ⟨(tgt', patch) :: es, ?_, fun h => ?_, fun hstart hlen h => ?_⟩
          · simp only [patchAllNamed, hk, hget, hmake, hes, Option.bind_eq_bind, Option.bind_some]
            rfl
          · rw [take_drop_split tgtImg hrest.le]
            refine .cons (hhead fun name hn => h name ⟨tgt, .head _, hn⟩) (hall fun name hc => ?_)
            obtain ⟨c, hc, hn⟩ := hc
            exact h name ⟨c, .tail _ hc, hn⟩
          · by_cases hlost : ∃ name, Named name tgt ∧ streams srcImg name srcs = []
            · obtain ⟨name, hn, hempty⟩ := hlost
              refine .here ?_
              rcases hwhich with ⟨-, other, ho, hne⟩ | ⟨⟨I₀, rfl⟩, -⟩
              · obtain rfl : other = name := by
                  by_contra hdiff
                  exact hn.not_other hdiff ho
                exact absurd hempty hne
              · obtain ⟨hparams, -⟩ := hrec tgt (.head _) hn.1
                have hwlen := hsfit.len_lt hsrc
                rw [hbroken hn.1]
                exact ⟨hn.1, hstart, hlen, hwlen, hparams, hfit.len_lt htgt⟩
            · refine .later (hhead fun name hn hempty => hlost ⟨name, hn, hempty⟩)
                (hbreak hstart hlen ?_)
              obtain ⟨name, ⟨c, hc, hn⟩, hempty⟩ := h
              rcases List.mem_cons.mp hc with rfl | hc
              · exact absurd ⟨name, hn, hempty⟩ hlost
              · exact ⟨name, ⟨c, hc, hn⟩, hempty⟩

end Patches

/-! ## The round trip -/

/-- The chunk `ReadZip` puts in front of the others: the whole file. It sets these fields and leaves
the others as they were in memory. -/
def pseudoChunk (img : Bytes) (unset : ImageChunk) : ImageChunk :=
  { unset with
    type := .normal
    start := 0
    len := img.length
    data := .file 0
    filename := none
    I := none }

/-- Memory that was all zero. -/
def zeroed : ImageChunk :=
  ⟨.normal, 0, 0, .file 0, 0, 0, none, 0, 0, none, ⟨0, 0, 0, 0, 0⟩, 0⟩

/-- If `imgdiff -z` writes a patch, below 2³¹ bytes as all files are, `ApplyImagePatch` turns the
source into the target with it. In particular every deflate record then names a source range that is
a deflate stream of the length it says. -/
def ZipRoundTrip (H : HostLibs) (qsufsort : (old : Bytes) → SuffixIndex old)
    (srcImg tgtImg : Bytes) (srcs tgts : List ImageChunk) : Prop :=
  ∀ P, imgdiffZips H qsufsort srcImg tgtImg srcs tgts = some (.wrote P) → P.length < 2 ^ 31 →
    applyImagePatch collect H.toLibs srcImg (blobValue P) [] [] = return (0, tgtImg, tgtImg)

/-- No name is used up after one of its target entries was kept. -/
def SourcesLast (L : Libs) (srcImg tgtImg : Bytes) (srcs tgts : List ImageChunk) : Prop :=
  ∀ name, patched (streams srcImg name srcs) (targets L tgtImg name tgts) = true →
    remaining (streams srcImg name srcs) (targets L tgtImg name tgts) ≠ []

/-- A deflate chunk of a list is in the merged list too. -/
theorem mem_merged_of_deflate {cs : List ImageChunk} {d : ImageChunk} (hd : d.type = .deflate)
    (h : d ∈ cs) : d ∈ mergeAdjacentNormalChunks cs := by
  have hfrom : ∀ (cs : List ImageChunk) (c : ImageChunk), d ∈ c :: cs → d ∈ mergeFrom c cs := by
    intro cs
    induction cs with
    | nil =>
        intro c hc
        exact hc
    | cons n cs ih =>
        intro c hc
        simp only [mergeFrom]
        split
        · rename_i hadj
          refine ih _ ?_
          rcases List.mem_cons.mp hc with rfl | hc
          · exact absurd (hadj.1.symm.trans hd) (by decide)
          · rcases List.mem_cons.mp hc with rfl | hc
            · exact absurd (hadj.2.1.symm.trans hd) (by decide)
            · exact .tail _ hc
        · rcases List.mem_cons.mp hc with rfl | hc
          · exact .head _
          · exact .tail _ (ih n hc)
  cases cs with
  | nil => cases h
  | cons c cs => exact hfrom cs c h

theorem named_merged {name : Name} {cs : List ImageChunk} :
    (∃ c ∈ mergeAdjacentNormalChunks cs, Named name c) ↔ ∃ c ∈ cs, Named name c := by
  constructor
  · rintro ⟨c, hc, hn⟩
    obtain ⟨e, he, -, heq⟩ := mem_mergeAdjacentNormalChunks hc
    obtain rfl := heq hn.1
    exact ⟨c, he, hn⟩
  · rintro ⟨c, hc, hn⟩
    exact ⟨c, mem_merged_of_deflate hn.1 hc, hn⟩

/-- `imgdiff -z` writes a patch; it restores the target if no name is used up, and breaks off if
one is and the unset length happens to be 0. -/
theorem imgdiffZips_spec {H : HostLibs} (hz : Zlib H.toLibs)
    {qsufsort : (old : Bytes) → SuffixIndex old} {srcImg tgtImg : Bytes}
    {srcs tgts : List ImageChunk} (hs : Tiles H.toLibs srcImg 0 srcs srcImg.length)
    (ht : Tiles H.toLibs tgtImg 0 tgts tgtImg.length) (hfresh : ∀ c ∈ srcs, c.I = none)
    (hname : ∀ c ∈ tgts, c.type = .deflate → c.filename.isSome)
    (hsrc : srcImg.length < 2 ^ 31) (htgt : tgtImg.length < 2 ^ 31) (unset : ImageChunk) :
    ∃ es, imgdiffZips H qsufsort srcImg tgtImg (pseudoChunk srcImg unset :: srcs) tgts =
        some (.wrote (imagePatch es)) ∧
      (SourcesLast H.toLibs srcImg tgtImg srcs tgts → RestoresAll H srcImg es tgtImg) ∧
      (unset.deflateLen = 0 → ¬ SourcesLast H.toLibs srcImg tgtImg srcs tgts →
        BreaksOff H srcImg es) := by
  have hwhole : Fits H.toLibs srcImg 0 (pseudoChunk srcImg unset) :=
    .normal rfl rfl rfl (by simp [pseudoChunk])
  have hfits : ∀ {pos : Nat} {cs : List ImageChunk} {fin : Nat},
      Tiles H.toLibs srcImg pos cs fin → ∀ c ∈ cs, ∃ p, Fits H.toLibs srcImg p c := by
    intro pos cs fin h
    induction h with
    | nil => simp
    | cons head _ ih =>
        intro c hc
        rcases List.mem_cons.mp hc with rfl | hc
        · exact ⟨_, head⟩
        · exact ih c hc
  have hsources : FreshSources H.toLibs srcImg (pseudoChunk srcImg unset)
      (pseudoChunk srcImg unset :: srcs) := by
    refine ⟨⟨⟨none, rfl⟩, rfl, ?_⟩, ?_⟩
    · intro c hc
      rcases List.mem_cons.mp hc with rfl | hc
      · exact ⟨0, hwhole⟩
      · exact hfits hs c hc
    · intro c hc
      rcases List.mem_cons.mp hc with rfl | hc
      · rfl
      · exact hfresh c hc
  have hqueue : ∀ name, streams srcImg name (pseudoChunk srcImg unset :: srcs) =
      streams srcImg name srcs := fun name => streams_cons_not_named (fun h => by cases h.1) srcs
  obtain ⟨srcs', tgts', hdemote, hdone⟩ := demoteAll_spec hz hsources ht hname
  obtain ⟨es, hes, hall, hbreak⟩ := @patchAllNamed_spec H qsufsort srcImg tgtImg
    (pseudoChunk srcImg unset) hsrc htgt 0 tgtImg.length srcs' (mergeAdjacentNormalChunks tgts')
    hdone.sources.toSourcesFit (fun c hc => indexFits_none (hdone.sources.fresh c hc))
    (tiles_mergeAdjacentNormalChunks hdone.tiles)
    (fun c hc hd => by
      obtain ⟨e, he, -, heq⟩ := mem_mergeAdjacentNormalChunks hc
      obtain rfl := heq hd
      exact hdone.reconstructs c he hd)
    (fun c hc hd => by
      obtain ⟨e, he, -, heq⟩ := mem_mergeAdjacentNormalChunks hc
      obtain rfl := heq hd
      exact hdone.named c he hd)
  simp only [named_merged, hdone.kept, hdone.left, hqueue] at hall hbreak
  rw [List.drop_zero, Nat.sub_zero, List.take_length] at hall
  refine ⟨es, ?_, hall, fun hlen hlost => hbreak rfl hlen ?_⟩
  · simp only [imgdiffZips, hdemote, hes, Option.bind_eq_bind, Option.bind_some]
    rfl
  · simpa [SourcesLast] using hlost

/-- `imgdiff -z` round-trips, whatever stands in the fields that `ReadZip` does not set, if and only
if no name is used up after one of its target entries was kept. -/
theorem imgdiffZips_round_trip_iff (H : HostLibs) (hbz : Bzip2 H) (hz : Zlib H.toLibs)
    (qsufsort : (old : Bytes) → SuffixIndex old) {srcImg tgtImg : Bytes}
    {srcs tgts : List ImageChunk} (hs : Tiles H.toLibs srcImg 0 srcs srcImg.length)
    (ht : Tiles H.toLibs tgtImg 0 tgts tgtImg.length) (hfresh : ∀ c ∈ srcs, c.I = none)
    (hname : ∀ c ∈ tgts, c.type = .deflate → c.filename.isSome)
    (hsrc : srcImg.length < 2 ^ 31) (htgt : tgtImg.length < 2 ^ 31)
    (hP : ∀ P, imgdiffZips H qsufsort srcImg tgtImg (pseudoChunk srcImg zeroed :: srcs) tgts =
      some (.wrote P) → P.length < 2 ^ 31) :
    (∀ unset, ZipRoundTrip H qsufsort srcImg tgtImg (pseudoChunk srcImg unset :: srcs) tgts) ↔
      SourcesLast H.toLibs srcImg tgtImg srcs tgts := by
  constructor
  · intro htrip
    by_contra hlost
    -- the memory of the pseudo chunk was zero, so its compressed length is 0
    obtain ⟨es, hes, -, hbreak⟩ := @imgdiffZips_spec H hz qsufsort srcImg tgtImg srcs tgts hs ht
      hfresh hname hsrc htgt zeroed
    obtain ⟨t, c, hfail⟩ := applyImagePatch_breaksOff hbz hz.empty hsrc (hbreak rfl hlost)
      (hP _ hes)
    rw [htrip zeroed _ hes (hP _ hes)] at hfail
    cases hfail
  · intro hlast unset P hwrote hsmall
    obtain ⟨es, hes, hall, -⟩ := @imgdiffZips_spec H hz qsufsort srcImg tgtImg srcs tgts hs ht
      hfresh hname hsrc htgt unset
    rw [hes] at hwrote
    cases hwrote
    exact applyImagePatch_restores hbz hsrc (hall hlast) hsmall

/-! ## Sample archives -/

namespace Sample

/-- An archive with one entry `a`. -/
def srcZip : Bytes :=
  [0x50, 0x4b, 0x03, 0x04, 0x14, 0x00, 0x00, 0x00, 0x08, 0x00, 0x00, 0x00, 0x00, 0x00, 0x84,
    0x7a, 0x02, 0xe6, 0x05, 0x00, 0x00, 0x00, 0x18, 0x00, 0x00, 0x00, 0x01, 0x00, 0x00, 0x00,
    0x61, 0x4b, 0x4c, 0xc4, 0x0e, 0x00, 0x50, 0x4b, 0x01, 0x02, 0x14, 0x00, 0x14, 0x00, 0x00,
    0x00, 0x08, 0x00, 0x00, 0x00, 0x00, 0x00, 0x84, 0x7a, 0x02, 0xe6, 0x05, 0x00, 0x00, 0x00,
    0x18, 0x00, 0x00, 0x00, 0x01, 0x00, 0x00, 0x00, 0x00, 0x00, 0x00, 0x00, 0x00, 0x00, 0x00,
    0x00, 0x00, 0x00, 0x00, 0x00, 0x00, 0x00, 0x61, 0x50, 0x4b, 0x05, 0x06, 0x00, 0x00, 0x00,
    0x00, 0x01, 0x00, 0x01, 0x00, 0x2f, 0x00, 0x00, 0x00, 0x24, 0x00, 0x00, 0x00, 0x00, 0x00]

def srcZipChunks : List ImageChunk :=
  [normalChunk 0 31, deflateChunk (some (cstr "a")) 31 5 srcData, normalChunk 36 69]

/-- An archive with one entry `a`, with other data. -/
def tgtZip : Bytes :=
  [0x50, 0x4b, 0x03, 0x04, 0x14, 0x00, 0x00, 0x00, 0x08, 0x00, 0x00, 0x00, 0x00, 0x00, 0xba,
    0xaa, 0x8d, 0x9b, 0x06, 0x00, 0x00, 0x00, 0x19, 0x00, 0x00, 0x00, 0x01, 0x00, 0x00, 0x00,
    0x61, 0x4b, 0x4c, 0xc4, 0x0e, 0x92, 0x00, 0x50, 0x4b, 0x01, 0x02, 0x14, 0x00, 0x14, 0x00,
    0x00, 0x00, 0x08, 0x00, 0x00, 0x00, 0x00, 0x00, 0xba, 0xaa, 0x8d, 0x9b, 0x06, 0x00, 0x00,
    0x00, 0x19, 0x00, 0x00, 0x00, 0x01, 0x00, 0x00, 0x00, 0x00, 0x00, 0x00, 0x00, 0x00, 0x00,
    0x00, 0x00, 0x00, 0x00, 0x00, 0x00, 0x00, 0x00, 0x61, 0x50, 0x4b, 0x05, 0x06, 0x00, 0x00,
    0x00, 0x00, 0x01, 0x00, 0x01, 0x00, 0x2f, 0x00, 0x00, 0x00, 0x25, 0x00, 0x00, 0x00, 0x00,
    0x00]

def tgtZipChunks : List ImageChunk :=
  [normalChunk 0 31, deflateChunk (some (cstr "a")) 31 6 tgtData, normalChunk 37 69]

/-- An archive with two entries `a`: first the new data, then that of the source. -/
def twiceZip : Bytes :=
  [0x50, 0x4b, 0x03, 0x04, 0x14, 0x00, 0x00, 0x00, 0x08, 0x00, 0x00, 0x00, 0x00, 0x00, 0xba,
    0xaa, 0x8d, 0x9b, 0x06, 0x00, 0x00, 0x00, 0x19, 0x00, 0x00, 0x00, 0x01, 0x00, 0x00, 0x00,
    0x61, 0x4b, 0x4c, 0xc4, 0x0e, 0x92, 0x00, 0x50, 0x4b, 0x03, 0x04, 0x14, 0x00, 0x00, 0x00,
    0x08, 0x00, 0x00, 0x00, 0x00, 0x00, 0x84, 0x7a, 0x02, 0xe6, 0x05, 0x00, 0x00, 0x00, 0x18,
    0x00, 0x00, 0x00, 0x01, 0x00, 0x00, 0x00, 0x61, 0x4b, 0x4c, 0xc4, 0x0e, 0x00, 0x50, 0x4b,
    0x01, 0x02, 0x14, 0x00, 0x14, 0x00, 0x00, 0x00, 0x08, 0x00, 0x00, 0x00, 0x00, 0x00, 0xba,
    0xaa, 0x8d, 0x9b, 0x06, 0x00, 0x00, 0x00, 0x19, 0x00, 0x00, 0x00, 0x01, 0x00, 0x00, 0x00,
    0x00, 0x00, 0x00, 0x00, 0x00, 0x00, 0x00, 0x00, 0x00, 0x00, 0x00, 0x00, 0x00, 0x00, 0x61,
    0x50, 0x4b, 0x01, 0x02, 0x14, 0x00, 0x14, 0x00, 0x00, 0x00, 0x08, 0x00, 0x00, 0x00, 0x00,
    0x00, 0x84, 0x7a, 0x02, 0xe6, 0x05, 0x00, 0x00, 0x00, 0x18, 0x00, 0x00, 0x00, 0x01, 0x00,
    0x00, 0x00, 0x00, 0x00, 0x00, 0x00, 0x00, 0x00, 0x00, 0x00, 0x00, 0x00, 0x25, 0x00, 0x00,
    0x00, 0x61, 0x50, 0x4b, 0x05, 0x06, 0x00, 0x00, 0x00, 0x00, 0x02, 0x00, 0x02, 0x00, 0x5e,
    0x00, 0x00, 0x00, 0x49, 0x00, 0x00, 0x00, 0x00, 0x00]

def twiceZipChunks : List ImageChunk :=
  [normalChunk 0 31, deflateChunk (some (cstr "a")) 31 6 tgtData, normalChunk 37 31,
    deflateChunk (some (cstr "a")) 68 5 srcData, normalChunk 73 116]

/-- The streams of the patch from the whole source archive to the new data. -/
def twiceStreams : BzTable :=
  [(controlBytes [⟨0, 25, 53⟩],
    [0x42, 0x5a, 0x68, 0x39, 0x31, 0x41, 0x59, 0x26, 0x53, 0x59, 0x63, 0x2e, 0x57, 0xe9, 0x00,
      0x00, 0x01, 0x68, 0x00, 0x4c, 0x00, 0x00, 0x20, 0x02, 0x00, 0x20, 0x00, 0x30, 0xcd, 0x00,
      0xc1, 0xa0, 0x6c, 0x93, 0x2f, 0x17, 0x72, 0x45, 0x38, 0x50, 0x90, 0x63, 0x2e, 0x57, 0xe9]),
    ([], [0x42, 0x5a, 0x68, 0x39, 0x17, 0x72, 0x45, 0x38, 0x50, 0x90, 0x00, 0x00, 0x00, 0x00]),
    (tgtData,
    [0x42, 0x5a, 0x68, 0x39, 0x31, 0x41, 0x59, 0x26, 0x53, 0x59, 0x91, 0x06, 0x44, 0x9c, 0x00,
      0x00, 0x02, 0x21, 0x00, 0x04, 0x00, 0x30, 0x00, 0x20, 0x00, 0x21, 0x26, 0x41, 0x98, 0x42,
      0xb8, 0xbb, 0x92, 0x29, 0xc2, 0x84, 0x84, 0x88, 0x32, 0x24, 0xe0])]

theorem hostWith_zlib {t : BzTable} {z : ZTable} (h : ∀ e ∈ z, e.2 ≠ []) :
    Zlib (hostWith t z).toLibs where
  empty := by
    have hnone : (z.find? fun e => e.2.isPrefixOf []) = none := by
      rw [List.find?_eq_none]
      intro e he
      obtain ⟨b, bs, hb⟩ := List.exists_cons_of_ne_nil (h e he)
      rw [hb]
      simp
    simp only [hostWith, zInflate, hnone, Option.map_none]
  accepts _ _ _ := rfl

theorem srcZip_tiles (t : BzTable) :
    Tiles (hostWith t zStreams).toLibs srcZip 0 srcZipChunks srcZip.length :=
  .cons (.normal rfl rfl rfl (by decide)) (.cons
    (.deflate (n := 5) rfl rfl rfl (by decide) rfl rfl (by decide)
      (show zInflate zStreams ((srcZip.drop 31).take 5) = some (srcData, 5) by decide))
    (.cons (.normal rfl rfl rfl (by decide)) (.nil 105)))

/-- One entry of the name on either side. -/
theorem imgdiffZips_round_trip_single :
    (patched (streams srcZip (cstr "a") srcZipChunks)
        (targets (hostWith bzStreams zStreams).toLibs tgtZip (cstr "a") tgtZipChunks) = true) ∧
    ∀ unset, ZipRoundTrip (hostWith bzStreams zStreams) suffixArray srcZip tgtZip
      (pseudoChunk srcZip unset :: srcZipChunks) tgtZipChunks := by
  have ht : Tiles (hostWith bzStreams zStreams).toLibs tgtZip 0 tgtZipChunks tgtZip.length :=
    .cons (.normal rfl rfl rfl (by decide)) (.cons
      (.deflate (n := 6) rfl rfl rfl (by decide) rfl rfl (by decide) (by decide)) (.cons
        (.normal rfl rfl rfl (by decide)) (.nil 106)))
  have hsmall : ((imgdiffZips (hostWith bzStreams zStreams) suffixArray srcZip tgtZip
      (pseudoChunk srcZip zeroed :: srcZipChunks) tgtZipChunks).all fun
        | .wrote P => decide (P.length < 2 ^ 31)
        | .failed => true) = true := by decide +kernel
  have hlast : SourcesLast (hostWith bzStreams zStreams).toLibs srcZip tgtZip srcZipChunks
      tgtZipChunks := by
    intro name hpatched
    by_cases hn : name = cstr "a"
    · subst hn
      decide +kernel
    · have hnone : streams srcZip name srcZipChunks = [] := by
        apply streams_of_not_named
        intro d hd hnamed
        have hfiles : ∀ d ∈ srcZipChunks, d.filename = none ∨ d.filename = some (cstr "a") := by
          decide
        rcases hfiles d hd with h | h
        · exact absurd (hnamed.2.symm.trans h) (by simp)
        · exact hn (Option.some.inj (hnamed.2.symm.trans h))
      rw [hnone, patched_nil_left] at hpatched
      cases hpatched
  refine ⟨by decide +kernel, ?_⟩
  exact (imgdiffZips_round_trip_iff (hostWith bzStreams zStreams)
    (hostWith_bzip2 (by decide +kernel) zStreams) (hostWith_zlib (by decide)) suffixArray
    (srcZip_tiles bzStreams) ht (by decide) (by decide) (by decide) (by decide)
    (fun P hP => by
      rw [hP] at hsmall
      simpa using hsmall)).mpr hlast

/-- The patch for the target with two entries. -/
def twicePatch : Bytes :=
  match imgdiffZips (hostWith twiceStreams zStreams) suffixArray srcZip twiceZip
    (pseudoChunk srcZip zeroed :: srcZipChunks) twiceZipChunks with
  | some (.wrote P) => P
  | _ => []

/-- Two entries of the name in the target: the patch is written and cannot be applied. -/
theorem imgdiffZips_repeated_name :
    imgdiffZips (hostWith twiceStreams zStreams) suffixArray srcZip twiceZip
        (pseudoChunk srcZip zeroed :: srcZipChunks) twiceZipChunks = some (.wrote twicePatch) ∧
      twicePatch.length < 2 ^ 31 ∧
      (∃ t c, applyImagePatch collect (hostWith twiceStreams zStreams).toLibs srcZip
        (blobValue twicePatch) [] [] = return (-1, t, c)) ∧
      ¬ ZipRoundTrip (hostWith twiceStreams zStreams) suffixArray srcZip twiceZip
        (pseudoChunk srcZip zeroed :: srcZipChunks) twiceZipChunks := by
  have hwrote : imgdiffZips (hostWith twiceStreams zStreams) suffixArray srcZip twiceZip
      (pseudoChunk srcZip zeroed :: srcZipChunks) twiceZipChunks = some (.wrote twicePatch) := by
    decide +kernel
  have hsmall : twicePatch.length < 2 ^ 31 := by decide +kernel
  have hend : (imagePieces (hostWith twiceStreams zStreams).toLibs srcZip
      (blobValue twicePatch)).2 = .failed := by decide +kernel
  have hfail : ∃ t c, applyImagePatch collect (hostWith twiceStreams zStreams).toLibs srcZip
      (blobValue twicePatch) [] [] = return (-1, t, c) := by
    rw [applyImagePatch_eq_emit, hend]
    exact emit_collect_failed _ _ _
  refine ⟨hwrote, hsmall, hfail, fun htrip => ?_⟩
  obtain ⟨t, c, h⟩ := hfail
  rw [htrip _ hwrote hsmall] at h
  cases h

end Sample

end OpenRecovery.ImgDiff
