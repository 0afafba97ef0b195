import Mathlib.Data.List.SplitBy
import OpenRecovery.ImgDiff.ImageChunk

/-!
# Consecutive chunk lists

`Consecutive pos cs fin`: the chunks `cs` stand one behind the other from `pos` to `fin`, and each
points to its place in the file. Demotion and merging keep such a list in its place
(`consecutive_mergeAdjacentNormalChunks`), and merging joins the runs of normal chunks and nothing
else (`mergedFrom_runs`).
-/

set_option autoImplicit false

namespace OpenRecovery.ImgDiff

open OpenRecovery.ApplyPatch OpenRecovery.Edify OpenRecovery.Storage

/-- The number of bytes of the file a chunk covers. -/
def ImageChunk.extent (c : ImageChunk) : Nat :=
  if c.type = .deflate then c.deflateLen else c.len

theorem extent_normal {c : ImageChunk} (h : c.type = .normal) : c.extent = c.len := by
  rw [ImageChunk.extent, h]
  rfl

theorem extent_deflate {c : ImageChunk} (h : c.type = .deflate) : c.extent = c.deflateLen := by
  rw [ImageChunk.extent, if_pos h]

/-- The chunk stands at `pos`, and its data, compressed or not, is found there. -/
structure Placed (pos : Nat) (c : ImageChunk) : Prop where
  start : c.start = pos
  data : c.type = .normal → c.data = .file pos
  deflateData : c.type = .deflate → c.deflateData = pos

/-- The chunks cover the file from `pos` to `fin`, in order. -/
inductive Consecutive : Nat → List ImageChunk → Nat → Prop where
  | nil (pos : Nat) : Consecutive pos [] pos
  | cons {pos fin : Nat} {c : ImageChunk} {cs : List ImageChunk} (head : Placed pos c)
      (tail : Consecutive (pos + c.extent) cs fin) : Consecutive pos (c :: cs) fin

/-- The positions of the file a chunk covers. -/
def ImageChunk.positions (c : ImageChunk) : List Nat := List.range' c.start c.extent

/-- The positions the chunks of a list cover, in order. -/
def covered (cs : List ImageChunk) : List Nat := cs.flatMap ImageChunk.positions

/-! ## Demotion -/

@[simp] theorem extent_changeToNormal (c : ImageChunk) :
    (changeDeflateChunkToNormal c).extent = c.extent := by
  unfold changeDeflateChunkToNormal
  split
  · rfl
  · rename_i h
    rw [ne_eq, not_not] at h
    rw [extent_deflate h, extent_normal rfl]

@[simp] theorem type_changeToNormal (c : ImageChunk) :
    (changeDeflateChunkToNormal c).type = if c.type = .deflate then .normal else c.type := by
  unfold changeDeflateChunkToNormal
  by_cases h : c.type = .deflate
  · simp [h]
  · simp [h]

@[simp] theorem start_changeToNormal (c : ImageChunk) :
    (changeDeflateChunkToNormal c).start = c.start := by
  unfold changeDeflateChunkToNormal
  split
  · rfl
  · rfl

@[simp] theorem index_changeToNormal (c : ImageChunk) :
    (changeDeflateChunkToNormal c).I = c.I := by
  unfold changeDeflateChunkToNormal
  split
  · rfl
  · rfl

@[simp] theorem positions_changeToNormal (c : ImageChunk) :
    (changeDeflateChunkToNormal c).positions = c.positions := by
  rw [ImageChunk.positions, start_changeToNormal, extent_changeToNormal, ImageChunk.positions]

namespace Placed

variable {pos : Nat} {c : ImageChunk}

/-- A demoted chunk stays in its place. -/
theorem changeToNormal (h : Placed pos c) : Placed pos (changeDeflateChunkToNormal c) := by
  by_cases hd : c.type = .deflate
  · rw [changeDeflateChunkToNormal, if_neg (not_not.mpr hd)]
    -- the data of the new normal chunk is the deflate data, which lies at its place
    exact ⟨h.start, fun _ => congrArg ChunkData.file (h.deflateData hd), fun hn => by cases hn⟩
  · rwa [changeDeflateChunkToNormal, if_pos hd]

/-- The parameters do not matter for the place. -/
theorem withParams (h : Placed pos c) (p : DeflateParams) : Placed pos { c with params := p } :=
  ⟨h.start, h.data, h.deflateData⟩

end Placed

/-! ## Merging -/

/-- How merging changes the types. -/
def squashFrom (t : ChunkType) : List ChunkType → List ChunkType
  | [] => [t]
  | n :: ts => if t = .normal ∧ n = .normal then squashFrom t ts else t :: squashFrom n ts

/-- Runs of normal chunks become one. -/
def squash : List ChunkType → List ChunkType
  | [] => []
  | t :: ts => squashFrom t ts

/-- A squashed list begins with its first type. -/
theorem head?_squashFrom (t : ChunkType) (ts : List ChunkType) :
    (squashFrom t ts).head? = some t := by
  induction ts with
  | nil => rfl
  | cons n ts ih =>
      rw [squashFrom]
      split
      · exact ih
      · rfl

/-- A squashed list has no two normal types in a row. -/
theorem isChain_squashFrom (t : ChunkType) (ts : List ChunkType) :
    (squashFrom t ts).IsChain fun a b => ¬ (a = .normal ∧ b = .normal) := by
  induction ts generalizing t with
  | nil => exact .singleton t
  | cons n ts ih =>
      rw [squashFrom]
      split
      · exact ih t
      · rename_i hne
        -- the chunk after `t` is the first that comes out of the rest
        refine List.isChain_cons.mpr ⟨fun m hm => ?_, ih n⟩
        rw [head?_squashFrom] at hm
        cases hm
        exact hne

/-- No two normal neighbours are left. -/
theorem isChain_squash (ts : List ChunkType) :
    (squash ts).IsChain fun a b => ¬ (a = .normal ∧ b = .normal) := by
  cases ts with
  | nil => exact .nil
  | cons t ts => exact isChain_squashFrom t ts

section Merging

variable {pos fin : Nat} {c n : ImageChunk} {cs : List ImageChunk}

/-- Neighbours in the file are adjacent if both are normal. -/
theorem Placed.adjacent_iff (hc : Placed pos c) (hn : Placed (pos + c.extent) n) :
    Adjacent c n ↔ c.type = .normal ∧ n.type = .normal := by
  constructor
  · exact fun h => ⟨h.1, h.2.1⟩
  · rintro ⟨tc, tn⟩
    have hstart := hn.start
    have hdata := hn.data tn
    rw [extent_normal tc] at hstart hdata
    -- the start and the data pointer are both where the first chunk ends
    exact ⟨tc, tn, by rw [hstart, hc.start], by rw [hdata, hc.data tc]; rfl⟩

/-- The chunk that has taken up `n` covers both. -/
theorem Placed.merge (hc : Placed pos c) (hn : Placed (pos + c.extent) n) (tc : c.type = .normal)
    (tn : n.type = .normal) :
    Placed pos { c with len := n.len + (n.start - c.start) } ∧
      ImageChunk.extent { c with len := n.len + (n.start - c.start) } = c.extent + n.extent := by
  refine ⟨⟨hc.start, hc.data, hc.deflateData⟩, ?_⟩
  have hext : ImageChunk.extent { c with len := n.len + (n.start - c.start) } =
      n.len + (n.start - c.start) := extent_normal tc
  have hstart := hc.start
  have hnext := hn.start
  rw [extent_normal tc] at hnext
  rw [hext, extent_normal tc, extent_normal tn]
  omega

/-- A merged list lies where the list did, and has the squashed types. -/
theorem consecutive_mergeFrom (hc : Placed pos c) (h : Consecutive (pos + c.extent) cs fin) :
    Consecutive pos (mergeFrom c cs) fin ∧
      (mergeFrom c cs).map ImageChunk.type = squashFrom c.type (cs.map ImageChunk.type) := by
  induction cs generalizing c pos with
  | nil => exact ⟨.cons hc h, rfl⟩
  | cons n cs ih =>
      cases h with
      | cons hn hcs =>
          have hadj := hc.adjacent_iff hn
          simp only [mergeFrom, List.map_cons, squashFrom]
          by_cases ht : c.type = .normal ∧ n.type = .normal
          · rw [if_pos (hadj.mpr ht), if_pos ht]
            -- the merged chunk stands in the place of the first, and goes on
            obtain ⟨hmerged, hext⟩ := hc.merge hn ht.1 ht.2
            refine ih hmerged ?_
            rwa [hext, ← Nat.add_assoc]
          · rw [if_neg (mt hadj.mp ht), if_neg ht, List.map_cons]
            obtain ⟨hrow, htypes⟩ := ih hn hcs
            exact ⟨.cons hc hrow, by rw [htypes]⟩

/-- Merging keeps the list in its place. -/
theorem consecutive_mergeAdjacentNormalChunks (h : Consecutive pos cs fin) :
    Consecutive pos (mergeAdjacentNormalChunks cs) fin := by
  cases h with
  | nil => exact .nil pos
  | cons hc hcs => exact (consecutive_mergeFrom hc hcs).1

/-- The same from the first chunk on. -/
theorem Consecutive.types_merge (h : Consecutive pos cs fin) :
    (mergeAdjacentNormalChunks cs).map ImageChunk.type = squash (cs.map ImageChunk.type) := by
  cases h with
  | nil => rfl
  | cons hc hcs => exact (consecutive_mergeFrom hc hcs).2

/-! ## What a merged chunk is made of -/

/-- The chunk `c` stands for the chunks `run`: it covers what they cover, and is the chunk itself
if that is not a normal one. -/
structure MergedFrom (run : List ImageChunk) (c : ImageChunk) : Prop where
  ne_nil : run ≠ []
  types : ∀ d ∈ run, d.type = c.type
  positions : covered run = c.positions
  alone : c.type ≠ .normal → run = [c]

/-- A chunk is merged from itself. -/
theorem MergedFrom.single (c : ImageChunk) : MergedFrom [c] c where
  ne_nil := List.cons_ne_nil c []
  types d hd := by rw [List.mem_singleton.mp hd]
  positions := List.append_nil _
  alone _ := rfl

/-- One more chunk of the run. -/
theorem MergedFrom.snoc {run : List ImageChunk} (h : MergedFrom run c) (hc : Placed pos c)
    (hn : Placed (pos + c.extent) n) (tc : c.type = .normal) (tn : n.type = .normal) :
    MergedFrom (run ++ [n]) { c with len := n.len + (n.start - c.start) } where
  ne_nil := by simp
  types d hd := by
    rcases List.mem_append.mp hd with hd | hd
    · exact h.types d hd
    · rw [List.mem_singleton.mp hd, tn, tc]
  positions := by
    have hsum := (hc.merge hn tc tn).2
    rw [covered, List.flatMap_append, List.flatMap_singleton, ← covered, h.positions,
      ImageChunk.positions, ImageChunk.positions, ImageChunk.positions, hsum, hn.start, hc.start,
      List.range'_append_1]
  alone hne := absurd tc hne

section Runs

variable {α : Type} (t : α → ChunkType)

/-- Both are normal. -/
def joins (a b : α) : Bool := t a = .normal ∧ t b = .normal

/-- The merged list has one chunk for each run of its types. The elements of `zs` stand for the
chunks `f`, and `t` gives their types. -/
theorem mergeFrom_runs (f : α → ImageChunk) {zs run : List α} {c : ImageChunk} {pos fin : Nat}
    (ht : ∀ z ∈ run ++ zs, (f z).type = t z) (hrun : run.IsChain fun a b => joins t a b)
    (hm : MergedFrom (run.map f) c) (hc : Placed pos c)
    (h : Consecutive (pos + c.extent) (zs.map f) fin) :
    List.Forall₂ (fun run d => MergedFrom (run.map f) d) ((run ++ zs).splitBy (joins t))
      (mergeFrom c (zs.map f)) := by
  have hne : run ≠ [] := fun hnil => hm.ne_nil (by rw [hnil]; rfl)
  -- a run goes on as long as its last element joins the next
  have hlast : t (run.getLast hne) = c.type := by
    have hmem := List.getLast_mem hne
    rw [← ht _ (List.mem_append_left _ hmem)]
    exact hm.types _ (List.mem_map_of_mem hmem)
  induction zs generalizing run c pos with
  | nil =>
      rw [List.append_nil, List.splitBy_of_isChain hne hrun]
      exact .cons hm .nil
  | cons z zs ih =>
      have htz : (f z).type = t z := ht z (by simp)
      rw [List.map_cons] at h ⊢
      cases h with
      | cons hz hzs =>
          have hadj := hc.adjacent_iff hz
          have happ : run ++ z :: zs = (run ++ [z]) ++ zs := by simp
          rw [mergeFrom]
          by_cases hboth : c.type = .normal ∧ (f z).type = .normal
          · rw [if_pos (hadj.mpr hboth), happ]
            -- `z` joins the run, and the merged chunk stands for both
            obtain ⟨hmerged, hext⟩ := hc.merge hz hboth.1 hboth.2
            have hchain : (run ++ [z]).IsChain fun a b => joins t a b := by
              refine List.isChain_append.mpr ⟨hrun, .singleton z, fun a ha b hb => ?_⟩
              rw [List.getLast?_eq_some_getLast hne, Option.mem_some_iff] at ha
              rw [List.head?_cons, Option.mem_some_iff] at hb
              rw [← ha, ← hb, joins, hlast, ← htz]
              exact decide_eq_true hboth
            have hmap : MergedFrom ((run ++ [z]).map f)
                { c with len := (f z).len + ((f z).start - c.start) } := by
              rw [List.map_append]
              exact hm.snoc hc hz hboth.1 hboth.2
            refine ih (happ ▸ ht) hchain hmap hmerged ?_ (by simp) ?_
            · rwa [hext, ← Nat.add_assoc]
            · rw [List.getLast_append_singleton, ← htz, hboth.2, hboth.1]
          · -- the run ends before `z`, which begins the next
            have hsplit : ∀ a ∈ run.getLast?, joins t a z = false := by
              intro a ha
              rw [List.getLast?_eq_some_getLast hne, Option.mem_some_iff] at ha
              rw [← ha, joins, hlast, ← htz]
              exact decide_eq_false hboth
            rw [if_neg (mt hadj.mp hboth), List.splitBy_append_cons zs hsplit,
              List.splitBy_of_isChain hne hrun]
            have htail := @ih [z] (f z) (pos + c.extent) (fun a ha => ht a (List.mem_append_right run ha))
              (.singleton z) (.single (f z)) hz hzs (List.cons_ne_nil z []) htz.symm
            exact .cons hm htail

/-- What merging makes of a list laid out in a file. -/
theorem mergedFrom_runs (f : α → ImageChunk) {zs : List α} {pos fin : Nat}
    (ht : ∀ z ∈ zs, (f z).type = t z) (h : Consecutive pos (zs.map f) fin) :
    List.Forall₂ (fun run d => MergedFrom (run.map f) d) (zs.splitBy (joins t))
      (mergeAdjacentNormalChunks (zs.map f)) := by
  cases zs with
  | nil => exact .nil
  | cons z zs =>
      rw [List.map_cons] at h ⊢
      cases h with
      | cons hz hzs =>
          exact @mergeFrom_runs _ t f zs [z] (f z) pos fin ht (.singleton z) (.single (f z)) hz hzs

end Runs

end Merging

end OpenRecovery.ImgDiff
