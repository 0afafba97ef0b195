import OpenRecovery.ApplyPatch.ApplyPatch
import OpenRecovery.Storage.InPlace
import OpenRecovery.Updater.DigestStrings

/-!
# The values of `apply_patch`

`ApplyPatchFn` from the array of its values on, with the memory they stand in: the check of the
types, the loop that takes the strings out of the array and moves the blobs to its front, and the
loops that release the values. An access to memory that has been released, or that is no `Value`, is
`none`.
-/

set_option autoImplicit false

namespace OpenRecovery.Updater

open OpenRecovery.ApplyPatch OpenRecovery.Edify OpenRecovery.Storage

/-! ## Memory -/

/-- What `malloc` has handed out: a `Value`, whose `data` is an address, or the bytes of one. -/
inductive Block where
  | value (type : ValType) (size : Int) (data : Nat)
  | bytes (contents : Bytes)

/-- The blocks in use, and the addresses released, in order. Address 0 is the null pointer. -/
structure Memory where
  cells : Nat → Option Block
  released : List Nat

namespace Memory

/-- The memory after some blocks have been released. -/
def release (m : Memory) (ps : List Nat) : Memory where
  cells p := if p ∈ ps then none else m.cells p
  released := m.released ++ ps

/-- `free`. -/
def free (m : Memory) (p : Nat) : Option Memory :=
  if p = 0 then some m
  else do
    let _ ← m.cells p
    return m.release [p]

/-- `*v`. -/
def value (m : Memory) (v : Nat) : Option (ValType × Int × Nat) :=
  match m.cells v with
  | some (.value type size data) => some (type, size, data)
  | _ => none

/-- `v->data = NULL`. -/
def clearData (m : Memory) (v : Nat) : Option Memory := do
  let (type, size, _) ← m.value v
  return { m with cells := Function.update m.cells v (some (.value type size 0)) }

/-- `FreeValue`. -/
def freeValue (m : Memory) (v : Nat) : Option Memory :=
  if v = 0 then some m
  else do
    let (_, _, data) ← m.value v
    -- the data first, for the value is gone afterwards
    let m ← m.free data
    m.free v

/-- The string at an address. -/
def string (m : Memory) (p : Nat) : Option (Option Bytes) :=
  if p = 0 then some none
  else
    match m.cells p with
    | some (.bytes contents) => some (some contents)
    | _ => none

/-- The value at an address, with its data. -/
def load (m : Memory) (v : Nat) : Option Value := do
  let (type, size, data) ← m.value v
  let contents ← m.string data
  return ⟨type, size, contents⟩

end Memory

/-! ## `ApplyPatchFn` -/

/-- The loop that checks the types, with `k` pairs left: the message, if there is one. -/
def checkTypes (name : Name) (m : Memory) (patches : List Nat) : Nat → Nat → Option (Option Bytes)
  | 0, _ => some none
  | k + 1, i => do
      let sha ← patches[i * 2]?
      let (type, _, _) ← m.value sha
      if type ≠ .string then
        return some (name ++ cstr "(): sha-1 #" ++ decimal i ++ cstr " is not string")
      else do
        let patch ← patches[i * 2 + 1]?
        let (type, _, _) ← m.value patch
        if type ≠ .blob then
          return some (name ++ cstr "(): patch #" ++ decimal i ++ cstr " is not blob")
        else checkTypes name m patches k (i + 1)

/-- The loop over `FreeValue(patches[i])`, with `k` values left. -/
def freeLoop (patches : List Nat) : Nat → Nat → Memory → Option Memory
  | 0, _, m => some m
  | k + 1, i, m => do
      let v ← patches[i]?
      let m ← m.freeValue v
      freeLoop patches k (i + 1) m

/-- One pass of the loop that separates the strings from the blobs: the string, and the memory and
the array afterwards. -/
def compactPass (i : Nat) (m : Memory) (patches : List Nat) :
    Option (Nat × Memory × List Nat) := do
  let sha ← patches[i * 2]?
  let (_, _, data) ← m.value sha
  let m ← m.clearData sha
  let m ← m.freeValue sha
  let patch ← patches[i * 2 + 1]?
  return (data, m, patches.set i patch)

/-- The loop, with `k` pairs left: `patch_sha_str`, and the memory and the array afterwards. -/
def compact : Nat → Nat → Memory → List Nat → Option (List Nat × Memory × List Nat)
  | 0, _, m, patches => some ([], m, patches)
  | k + 1, i, m, patches => do
      let (str, m, patches) ← compactPass i m patches
      let (strs, m, patches) ← compact k (i + 1) m patches
      return (str :: strs, m, patches)

/-- How the function goes on: with a message, or with a call of `applypatch` that finds these
strings and blobs behind its pointers. -/
inductive PatchCall where
  | refused (msg : Bytes)
  | called (strs : List (Option Bytes)) (blobs : List Value)

/-- `ApplyPatchFn` after `ReadValueVarArgs`. `applypatch` reads the values only. -/
def useValues (name : Name) (patchcount : Nat) (m : Memory) (patches : List Nat) :
    Option (PatchCall × Memory) := do
  match ← checkTypes name m patches patchcount 0 with
  | some msg =>
      let m ← freeLoop patches (patchcount * 2) 0 m
      return (.refused msg, m)
  | none =>
      let (patchShaStr, m, patches) ← compact patchcount 0 m patches
      let strs ← patchShaStr.mapM m.string
      let blobs ← (patches.take patchcount).mapM m.load
      let m ← freeLoop patches patchcount 0 m
      return (.called strs blobs, m)

/-! ## Values in memory -/

/-- A value with its address and that of its data. -/
structure Arg where
  addr : Nat
  data : Nat
  value : Value

namespace Arg

/-- The block of the data, if there is any. -/
def contents (a : Arg) : List Nat := if a.data = 0 then [] else [a.data]

/-- The blocks of a value, in the order in which `FreeValue` releases them. -/
def blocks (a : Arg) : List Nat := a.contents ++ [a.addr]

/-- The value stands in memory. -/
structure Live (m : Memory) (a : Arg) : Prop where
  addr_ne : a.addr ≠ 0
  cell : m.cells a.addr = some (.value a.value.type a.value.size a.data)
  string : m.string a.data = some a.value.data

end Arg

/-- The pairs one after the other. -/
def unpaired {α : Type} (pairs : List (α × α)) : List α := pairs.flatMap fun p => [p.1, p.2]

theorem unpaired_cons {α : Type} (p : α × α) (pairs : List (α × α)) :
    unpaired (p :: pairs) = p.1 :: p.2 :: unpaired pairs := rfl

namespace Memory

variable {m : Memory} {a : Arg}

theorem release_nil (m : Memory) : m.release [] = m := by
  simp only [release, List.append_nil, List.not_mem_nil, if_false]

theorem release_release (m : Memory) (ps qs : List Nat) :
    (m.release ps).release qs = m.release (ps ++ qs) := by
  simp only [release, List.append_assoc, Memory.mk.injEq, and_true]
  funext p
  by_cases hp : p ∈ ps
  · simp [hp]
  · simp [hp]

theorem cells_release {ps : List Nat} {p : Nat} (h : p ∉ ps) :
    (m.release ps).cells p = m.cells p := if_neg h

theorem string_release {ps : List Nat} {p : Nat} (h : p ∉ ps) :
    (m.release ps).string p = m.string p := by
  rw [string, string, cells_release h]

theorem value_of_live (h : a.Live m) :
    m.value a.addr = some (a.value.type, a.value.size, a.data) := by
  rw [value, h.cell]

theorem load_of_live (h : a.Live m) : m.load a.addr = some a.value := by
  rw [load, value_of_live h]
  simp only [Option.bind_eq_bind, Option.bind_some, h.string]
  rfl

/-- Releasing other blocks leaves a value alone. -/
theorem live_release {ps : List Nat} (h : a.Live m) (hps : ∀ p ∈ a.blocks, p ∉ ps) :
    a.Live (m.release ps) := by
  have haddr : a.addr ∉ ps := hps _ (by simp [Arg.blocks])
  refine ⟨h.addr_ne, (cells_release haddr).trans h.cell, ?_⟩
  by_cases hdata : a.data = 0
  · rw [← h.string, hdata]
    rfl
  · exact (string_release (hps _ (by simp [Arg.blocks, Arg.contents, hdata]))).trans h.string

theorem free_of_some {p : Nat} {b : Block} (hp : p ≠ 0) (h : m.cells p = some b) :
    m.free p = some (m.release [p]) := by
  rw [free, if_neg hp, h]
  rfl

/-- `FreeValue` of a value releases its blocks. -/
theorem freeValue_of_live (h : a.Live m) (hne : a.data ≠ a.addr) :
    m.freeValue a.addr = some (m.release a.blocks) := by
  rw [freeValue, if_neg h.addr_ne, value_of_live h]
  simp only [Option.bind_eq_bind, Option.bind_some]
  by_cases hdata : a.data = 0
  · rw [hdata, free, if_pos rfl, Option.bind_some, free_of_some h.addr_ne h.cell, Arg.blocks,
      Arg.contents, if_pos hdata]
    rfl
  · have hsome : ∃ b, m.cells a.data = some b := by
      have hstring := h.string
      rw [string, if_neg hdata] at hstring
      split at hstring
      · next contents hcell => exact ⟨_, hcell⟩
      · cases hstring
    obtain ⟨b, hb⟩ := hsome
    -- the value itself is still there when its data has been released
    have haddr : a.addr ∉ [a.data] := by simpa using hne.symm
    rw [free_of_some hdata hb, Option.bind_some,
      free_of_some h.addr_ne ((cells_release haddr).trans h.cell), release_release, Arg.blocks,
      Arg.contents, if_neg hdata]

/-- With its data taken out, `FreeValue` releases the value alone. -/
theorem freeValue_cleared (h : a.Live m) :
    (m.clearData a.addr).bind (·.freeValue a.addr) = some (m.release [a.addr]) := by
  have hclear : m.clearData a.addr = some { m with
      cells := Function.update m.cells a.addr (some (.value a.value.type a.value.size 0)) } := by
    rw [clearData, value_of_live h]
    rfl
  -- the cell that was cleared is the one that is released
  have hrelease : release { m with
      cells := Function.update m.cells a.addr (some (.value a.value.type a.value.size 0)) }
      [a.addr] = m.release [a.addr] := by
    simp only [release, Memory.mk.injEq, and_true, List.mem_singleton]
    funext p
    by_cases hp : p = a.addr
    · rw [if_pos hp, if_pos hp]
    · rw [if_neg hp, if_neg hp, Function.update_of_ne hp]
  have hfree := @freeValue_of_live { m with
      cells := Function.update m.cells a.addr (some (.value a.value.type a.value.size 0)) }
    ⟨a.addr, 0, ⟨a.value.type, a.value.size, none⟩⟩
    ⟨h.addr_ne, Function.update_self _ _ _, rfl⟩ h.addr_ne.symm
  rw [hclear, Option.bind_some, hfree]
  exact congrArg some hrelease

end Memory

/-! ## The loops -/

section Loops

variable {m : Memory} {name : Name} {ps patches : List Nat}

/-- The values of `as` stand in memory, and no two of their blocks are the same. -/
structure LiveAll (m : Memory) (as : List Arg) : Prop where
  live : ∀ a ∈ as, a.Live m
  nodup : (as.flatMap Arg.blocks).Nodup

namespace LiveAll

variable {a : Arg} {as : List Arg}

theorem tail (h : LiveAll m (a :: as)) : LiveAll m as where
  live b hb := h.live b (.tail _ hb)
  nodup := by
    have hnodup := h.nodup
    rw [List.flatMap_cons] at hnodup
    exact hnodup.of_append_right

theorem data_ne (h : LiveAll m (a :: as)) : a.data ≠ a.addr := by
  have hnodup := h.nodup
  rw [List.flatMap_cons] at hnodup
  have ha : a.blocks.Nodup := hnodup.of_append_left
  by_cases hdata : a.data = 0
  · rw [hdata]
    exact (h.live a (.head _)).addr_ne.symm
  · rw [Arg.blocks, Arg.contents, if_neg hdata] at ha
    simpa using ha

/-- The others are still there when blocks of the first have been released. -/
theorem release_head (h : LiveAll m (a :: as)) {ps : List Nat} (hps : ∀ p ∈ ps, p ∈ a.blocks) :
    LiveAll (m.release ps) as where
  live b hb := by
    refine Memory.live_release (h.live b (.tail _ hb)) fun p hp hmem => ?_
    have hnodup := h.nodup
    rw [List.flatMap_cons, List.nodup_append] at hnodup
    exact hnodup.2.2 p (hps p hmem) p (List.mem_flatMap.mpr ⟨b, hb, hp⟩) rfl
  nodup := h.tail.nodup

end LiveAll

/-- The loop over `FreeValue` releases the blocks of the values, one after the other. -/
theorem freeLoop_spec {as : List Arg} {rest : List Nat} {i : Nat} (h : LiveAll m as)
    (hps : patches.drop i = as.map Arg.addr ++ rest) :
    freeLoop patches as.length i m = some (m.release (as.flatMap Arg.blocks)) := by
  induction as generalizing m i with
  | nil =>
      rw [List.flatMap_nil, Memory.release_nil]
      rfl
  | cons a as ih =>
      obtain ⟨hfirst, hnext⟩ := of_drop_cons hps
      rw [List.length_cons, freeLoop, hfirst]
      simp only [Option.bind_eq_bind, Option.bind_some]
      rw [Memory.freeValue_of_live (h.live a (.head _)) h.data_ne, Option.bind_some,
        ih (h.release_head fun _ hp => hp) hnext, Memory.release_release, List.flatMap_cons]

/-- The check finds the message `patchPairs` gives, if there is one. -/
theorem checkTypes_spec {pairs : List (Arg × Arg)} {i : Nat} (h : LiveAll m (unpaired pairs))
    (hps : patches.drop (i * 2) = (unpaired pairs).map Arg.addr) :
    (∃ msg, patchPairs name i ((unpaired pairs).map Arg.value) = .error msg ∧
      checkTypes name m patches pairs.length i = some (some msg)) ∨
    (patchPairs name i ((unpaired pairs).map Arg.value) =
        .ok (pairs.map fun p => (p.1.value.data, p.2.value)) ∧
      checkTypes name m patches pairs.length i = some none) := by
  induction pairs generalizing i with
  | nil => exact .inr ⟨rfl, rfl⟩
  | cons p pairs ih =>
      rw [unpaired_cons] at h hps ⊢
      obtain ⟨hsha, hnext⟩ := of_drop_cons hps
      obtain ⟨hblob, hrest⟩ := of_drop_cons hnext
      have hlive := h.live p.1 (.head _)
      have hlive' := h.live p.2 (.tail _ (.head _))
      rw [List.length_cons, checkTypes, hsha, List.map_cons, List.map_cons, patchPairs]
      simp only [Option.bind_eq_bind, Option.bind_some, Memory.value_of_live hlive]
      by_cases hstring : p.1.value.type = .string
      · rw [if_neg (not_not.mpr hstring), if_neg (not_not.mpr hstring), hblob, Option.bind_some,
          Memory.value_of_live hlive', Option.bind_some]
        simp only
        by_cases hblobType : p.2.value.type = .blob
        · rw [if_neg (not_not.mpr hblobType), if_neg (not_not.mpr hblobType)]
          have htail := ih h.tail.tail (i := i + 1) (by rwa [show (i + 1) * 2 = i * 2 + 1 + 1 by omega])
          rcases htail with ⟨msg, hpairs, hcheck⟩ | ⟨hpairs, hcheck⟩
          · exact .inl ⟨msg, by rw [hpairs]; rfl, hcheck⟩
          · exact .inr ⟨by rw [hpairs]; rfl, hcheck⟩
        · rw [if_pos hblobType, if_pos hblobType]
          exact .inl ⟨_, rfl, rfl⟩
      · rw [if_pos hstring, if_pos hstring]
        exact .inl ⟨_, rfl, rfl⟩

/-- The loop takes out the strings and moves the blobs to the front; the strings' values are
released. -/
theorem compact_spec {pairs : List (Arg × Arg)} {i : Nat} (h : LiveAll m (unpaired pairs))
    (hread : Unread ps patches i (i * 2)) (hps : ps.drop (i * 2) = (unpaired pairs).map Arg.addr) :
    ∃ patches', compact pairs.length i m patches =
        some (pairs.map (·.1.data), m.release (pairs.map (·.1.addr)), patches') ∧
      patches'.take (i + pairs.length) = patches.take i ++ pairs.map (·.2.addr) := by
  induction pairs generalizing m patches i with
  | nil =>
      refine ⟨patches, ?_, by simp⟩
      rw [List.map_nil, List.map_nil, Memory.release_nil]
      rfl
  | cons p pairs ih =>
      rw [unpaired_cons] at h hps
      obtain ⟨hsha, hnext⟩ := of_drop_cons hps
      obtain ⟨hblob, hrest⟩ := of_drop_cons hnext
      have hsha' := (hread.getElem? (Nat.le_refl _)).trans hsha
      have hblob' := (hread.getElem? (Nat.le_succ _)).trans hblob
      have hlive := h.live p.1 (.head _)
      have hpass : compactPass i m patches =
          some (p.1.data, m.release [p.1.addr], patches.set i p.2.addr) := by
        obtain ⟨m₁, hclear, hfree⟩ := Option.bind_eq_some_iff.mp (Memory.freeValue_cleared hlive)
        rw [compactPass, hsha']
        simp only [Option.bind_eq_bind, Option.bind_some, Memory.value_of_live hlive, hclear, hfree,
          hblob']
        rfl
      -- only the value of the string has been released, and no other value shares it
      have hlater : LiveAll (m.release [p.1.addr]) (unpaired pairs) := by
        refine (h.release_head fun q hq => ?_).tail
        rw [List.mem_singleton.mp hq]
        exact List.mem_append_right _ (List.mem_singleton_self _)
      -- slots `2i` and `2i + 1` have been read, so that the write to slot `i` is behind the reader
      have hwrite := hread.write (show i * 2 ≤ (i + 1) * 2 by omega)
        (show i < (i + 1) * 2 by omega) p.2.addr
      have hin : i * 2 < ps.length := (List.getElem?_eq_some_iff.mp hsha).1
      obtain ⟨patches', hcompact, htake⟩ := ih hlater hwrite
        (by rwa [show (i + 1) * 2 = i * 2 + 1 + 1 by omega])
      refine ⟨patches', ?_, ?_⟩
      · rw [List.length_cons, compact, hpass]
        simp only [Option.bind_eq_bind, Option.bind_some, hcompact]
        rw [Memory.release_release]
        rfl
      · rw [List.length_cons, show i + (pairs.length + 1) = i + 1 + pairs.length by omega, htake,
          hread.take_write hin, List.append_assoc]
        rfl

end Loops

/-! ## The call -/

section Call

variable {m : Memory} {name : Name} {pairs : List (Arg × Arg)}

/-- The blocks of all values: the values of the strings, the blobs, and the strings themselves. -/
theorem blocks_perm (pairs : List (Arg × Arg)) :
    ((unpaired pairs).flatMap Arg.blocks).Perm
      (pairs.map (·.1.addr) ++ ((pairs.map (·.2)).flatMap Arg.blocks ++
        (pairs.map (·.1)).flatMap Arg.contents)) := by
  induction pairs with
  | nil => exact .nil
  | cons p pairs ih =>
      rw [List.perm_iff_count] at ih ⊢
      intro q
      have hq := ih q
      simp only [unpaired_cons, List.flatMap_cons, List.map_cons, Arg.blocks, List.count_append,
        List.count_cons, List.count_nil] at hq ⊢
      omega

/-- No block of a blob and no string is the value of a string. -/
theorem LiveAll.disjoint (h : LiveAll m (unpaired pairs)) {q : Nat}
    (hq : q ∈ (pairs.map (·.2)).flatMap Arg.blocks ++ (pairs.map (·.1)).flatMap Arg.contents) :
    q ∉ pairs.map (·.1.addr) := by
  have hnodup := (blocks_perm pairs).nodup_iff.mp h.nodup
  exact fun hmem => (List.nodup_append.mp hnodup).2.2 q hmem q hq rfl

theorem LiveAll.blobs (h : LiveAll m (unpaired pairs)) :
    LiveAll (m.release (pairs.map (·.1.addr))) (pairs.map (·.2)) where
  live a ha := by
    obtain ⟨p, hp, rfl⟩ := List.mem_map.mp ha
    have hmem : p.2 ∈ unpaired pairs := List.mem_flatMap.mpr ⟨p, hp, by simp⟩
    refine Memory.live_release (h.live p.2 hmem) fun q hq => h.disjoint ?_
    exact List.mem_append_left _ (List.mem_flatMap.mpr ⟨p.2, ha, hq⟩)
  nodup := by
    have hnodup := (blocks_perm pairs).nodup_iff.mp h.nodup
    exact (List.nodup_append.mp (List.nodup_append.mp hnodup).2.1).1

/-- The strings are still there when their values have been released. -/
theorem LiveAll.string (h : LiveAll m (unpaired pairs)) {p : Arg × Arg} (hp : p ∈ pairs) :
    (m.release (pairs.map (·.1.addr))).string p.1.data = some p.1.value.data := by
  have hmem : p.1 ∈ unpaired pairs := List.mem_flatMap.mpr ⟨p, hp, by simp⟩
  rw [← (h.live p.1 hmem).string]
  by_cases hdata : p.1.data = 0
  · rw [hdata]
    rfl
  · refine Memory.string_release (h.disjoint (List.mem_append_right _ ?_))
    exact List.mem_flatMap.mpr ⟨p.1, List.mem_map_of_mem hp, by simp [Arg.contents, hdata]⟩

/-- What `patch_sha_str` and `patches` hold after the loop. -/
structure Compacted (pairs : List (Arg × Arg)) (strs : List Nat) (m' : Memory)
    (patches : List Nat) : Prop where
  str : ∀ (i : Nat) (p : Arg × Arg), pairs[i]? = some p →
    strs[i]? = some p.1.data ∧ m'.string p.1.data = some p.1.value.data
  patch : ∀ (i : Nat) (p : Arg × Arg), pairs[i]? = some p →
    patches[i]? = some p.2.addr ∧ m'.load p.2.addr = some p.2.value

theorem compact_compacted (h : LiveAll m (unpaired pairs)) :
    ∃ strs m' patches, compact pairs.length 0 m ((unpaired pairs).map Arg.addr) =
      some (strs, m', patches) ∧ Compacted pairs strs m' patches := by
  obtain ⟨patches, hcompact, htake⟩ := compact_spec h (.start _) rfl
  refine ⟨_, _, patches, hcompact, ⟨fun i p hp => ?_, fun i p hp => ?_⟩⟩
  · exact ⟨by rw [List.getElem?_map, hp]; rfl, h.string (List.mem_of_getElem? hp)⟩
  · have hi : i < pairs.length := (List.getElem?_eq_some_iff.mp hp).1
    constructor
    · have hget : (patches.take (0 + pairs.length))[i]? = some p.2.addr := by
        rw [htake, List.take_zero, List.nil_append, List.getElem?_map, hp]
        rfl
      rwa [List.getElem?_take_of_lt (by omega)] at hget
    · exact Memory.load_of_live
        (h.blobs.live p.2 (List.mem_map_of_mem (List.mem_of_getElem? hp)))

/-- Every value has been released, and nothing twice. -/
def ReleasedOnce (m m' : Memory) (as : List Arg) : Prop :=
  ∃ ps, m' = m.release ps ∧ ps.Nodup ∧ ∀ a ∈ as, a.addr ∈ ps

theorem length_unpaired {α : Type} (pairs : List (α × α)) :
    (unpaired pairs).length = pairs.length * 2 := by
  induction pairs with
  | nil => rfl
  | cons p pairs ih =>
      rw [unpaired_cons, List.length_cons, List.length_cons, ih, List.length_cons]
      omega

theorem addr_mem_blocks (a : Arg) : a.addr ∈ a.blocks :=
  List.mem_append_right _ (List.mem_singleton_self _)

theorem mapM_of_forall {α β γ : Type} {f : β → Option γ} {g : α → β} {k : α → γ} {xs : List α}
    (h : ∀ x ∈ xs, f (g x) = some (k x)) : (xs.map g).mapM f = some (xs.map k) := by
  induction xs with
  | nil => rfl
  | cons x xs ih =>
      rw [List.map_cons, List.mapM_cons, h x (.head _), ih fun y hy => h y (.tail _ hy)]
      rfl

/-- A value of a wrong type: all values are released. -/
theorem useValues_refused (h : LiveAll m (unpaired pairs)) {msg : Bytes}
    (hcheck : checkTypes name m ((unpaired pairs).map Arg.addr) pairs.length 0 = some (some msg)) :
    ∃ m', useValues name pairs.length m ((unpaired pairs).map Arg.addr) =
        some (.refused msg, m') ∧ ReleasedOnce m m' (unpaired pairs) := by
  have hall : ((unpaired pairs).map Arg.addr).drop 0 = (unpaired pairs).map Arg.addr ++ [] := by
    rw [List.drop_zero, List.append_nil]
  have hfree := freeLoop_spec h hall
  rw [length_unpaired] at hfree
  refine ⟨_, ?_, _, rfl, h.nodup, fun a ha => ?_⟩
  · rw [useValues, hcheck]
    simp only [Option.bind_eq_bind, Option.bind_some, hfree]
    rfl
  · exact List.mem_flatMap.mpr ⟨a, ha, addr_mem_blocks a⟩

/-- Otherwise `applypatch` is called, and all values have been released when the function returns.
-/
theorem useValues_called (h : LiveAll m (unpaired pairs))
    (hcheck : checkTypes name m ((unpaired pairs).map Arg.addr) pairs.length 0 = some none) :
    ∃ m', useValues name pairs.length m ((unpaired pairs).map Arg.addr) =
        some (.called (pairs.map (·.1.value.data)) (pairs.map (·.2.value)), m') ∧
      ReleasedOnce m m' (unpaired pairs) := by
  obtain ⟨patches, hcompact, htake⟩ := compact_spec h (.start _) rfl
  rw [Nat.zero_add, List.take_zero, List.nil_append] at htake
  -- `applypatch` finds the strings and blobs of all the pairs
  have hstrs := mapM_of_forall (f := (m.release (pairs.map (·.1.addr))).string)
    (g := fun p : Arg × Arg => p.1.data) (k := fun p => p.1.value.data) fun p hp => h.string hp
  have hblobs := mapM_of_forall (f := (m.release (pairs.map (·.1.addr))).load)
    (g := fun p : Arg × Arg => p.2.addr) (k := fun p => p.2.value)
    fun p hp => Memory.load_of_live (h.blobs.live p.2 (List.mem_map_of_mem hp))
  have hsplit : patches.drop 0 =
      (pairs.map (·.2)).map Arg.addr ++ patches.drop pairs.length := by
    rw [List.map_map, List.drop_zero, ← List.take_append_drop pairs.length patches, htake]
    simp
  have hfree := freeLoop_spec (i := 0) h.blobs hsplit
  rw [List.length_map, Memory.release_release] at hfree
  have hcall : useValues name pairs.length m ((unpaired pairs).map Arg.addr) =
      some (.called (pairs.map (·.1.value.data)) (pairs.map (·.2.value)), m.release
        (pairs.map (·.1.addr) ++ (pairs.map (·.2)).flatMap Arg.blocks)) := by
    rw [useValues, hcheck]
    simp only [Option.bind_eq_bind, Option.bind_some, hcompact, hstrs, htake, hblobs, hfree]
    rfl
  refine ⟨_, hcall, _, rfl, ?_, ?_⟩
  · have hnodup := (blocks_perm pairs).nodup_iff.mp h.nodup
    rw [← List.append_assoc] at hnodup
    exact (List.nodup_append.mp hnodup).1
  · intro a ha
    obtain ⟨p, hp, ha⟩ := List.mem_flatMap.mp ha
    rcases List.mem_pair.mp ha with rfl | rfl
    · exact List.mem_append_left _ (List.mem_map_of_mem hp)
    · refine List.mem_append_right _ (List.mem_flatMap.mpr ⟨p.2, List.mem_map_of_mem hp, ?_⟩)
      exact addr_mem_blocks p.2

/-- How the function goes on is what `patchPairs` says of the values. -/
def Follows (name : Name) (values : List Value) : PatchCall → Prop
  | .refused msg => patchPairs name 0 values = .error msg
  | .called strs blobs => patchPairs name 0 values = .ok (strs.zip blobs)

/-- Whatever the types of the values, nothing that has been released is used, and every value is
released once. -/
theorem useValues_spec (h : LiveAll m (unpaired pairs)) :
    ∃ call m', useValues name pairs.length m ((unpaired pairs).map Arg.addr) = some (call, m') ∧
      ReleasedOnce m m' (unpaired pairs) ∧
      Follows name ((unpaired pairs).map Arg.value) call ∧
      ∀ strs blobs, call = .called strs blobs →
        strs = pairs.map (·.1.value.data) ∧ blobs = pairs.map (·.2.value) := by
  have hcheck := @checkTypes_spec m name _ pairs 0 h rfl
  rcases hcheck with ⟨msg, hpairs, hcheck⟩ | ⟨hpairs, hcheck⟩
  · obtain ⟨m', hcall, honce⟩ := useValues_refused h hcheck
    exact ⟨_, m', hcall, honce, hpairs, fun _ _ h => by cases h⟩
  · obtain ⟨m', hcall, honce⟩ := useValues_called h hcheck
    refine ⟨_, m', hcall, honce, ?_, fun _ _ h => by cases h; exact ⟨rfl, rfl⟩⟩
    rw [Follows, hpairs, List.zip_map']

/-- The patch is the one written next to the first string that denotes the digest. -/
theorem patchFor_iff {a : PatchArgs} {sha1s : List Bytes}
    (hsha1s : pairs.map (·.1.value.data) = sha1s.map some)
    (ha : a.patches = sha1s.zip (pairs.map fun p => some p.2.value)) (d : Bytes) (v : Value) :
    a.patchFor d = some v ↔
      ∃ (i : Nat) (p : Arg × Arg), IsLeast {k | ∃ str, sha1s[k]? = some str ∧ Denotes str d} i ∧
        pairs[i]? = some p ∧ p.2.value = v := by
  have hlength : sha1s.length = pairs.length := by
    simpa using (congrArg List.length hsha1s).symm
  -- what is searched are the strings
  have hfst : a.patches.map Prod.fst = sha1s := by
    rw [ha, List.map_fst_zip]
    rw [List.length_map, hlength]
  have hget : ∀ (i : Nat) (p : Arg × Arg), pairs[i]? = some p →
      (a.patches[i]?).bind Prod.snd = some p.2.value := by
    intro i p hp
    obtain ⟨hi, rfl⟩ := List.getElem?_eq_some_iff.mp hp
    have hsha : sha1s[i]? = some sha1s[i] := List.getElem?_eq_getElem (by omega)
    have hzip : a.patches[i]? = some (sha1s[i], some pairs[i].2.value) := by
      rw [ha, List.getElem?_zip_eq_some]
      exact ⟨hsha, by rw [List.getElem?_map, hp]; rfl⟩
    rw [hzip]
    rfl
  unfold PatchArgs.patchFor
  rw [hfst]
  cases hfind : findMatchingPatch d sha1s with
  | none =>
      refine iff_of_false (by simp) ?_
      rintro ⟨i, p, hleast, -, -⟩
      exact absurd (findMatchingPatch_iff.mpr hleast) (by rw [hfind]; simp)
  | some i =>
      have hleast := findMatchingPatch_iff.mp hfind
      obtain ⟨str, hstr, -⟩ := hleast.1
      have hi : i < pairs.length := hlength ▸ (List.getElem?_eq_some_iff.mp hstr).1
      have hp : pairs[i]? = some pairs[i] := List.getElem?_eq_getElem hi
      simp only [hget i _ hp, Option.some_inj]
      constructor
      · exact fun hv => ⟨i, pairs[i], hleast, hp, hv⟩
      · rintro ⟨k, p, hleast', hp', hv⟩
        -- there is only one first string
        rw [hleast'.unique hleast, hp, Option.some_inj] at hp'
        rwa [hp']

end Call

/-- `apply_patch` applies the patch written next to the digest of the source. `ParseSha1` accepts
the strings of 40 hexadecimal digits, and reads back what `PrintSha1` has written. However many
pairs of arguments there are, the loop leaves the strings and the blobs in order, every value is
released exactly once, and `FindMatchingPatch` finds the first string that denotes the digest, so
that the blob next to it is the one that is used. -/
theorem patch_next_to_digest :
    (∀ str digest : Bytes, digest.length = 20 →
      ((parseSha1Into str digest).1 = 0 ↔ str.length = 40 ∧ ∀ c ∈ str, IsHexDigit c) ∧
      ((parseSha1Into str digest).1 = 0 → Denotes str (parseSha1Into str digest).2)) ∧
    (∀ d digest : Bytes, d.length = 20 → digest.length = 20 →
      parseSha1Into (printSha1 d) digest = (0, d)) ∧
    (∀ (m : Memory) (pairs : List (Arg × Arg)), LiveAll m (unpaired pairs) →
      (∃ strs m' patches, compact pairs.length 0 m ((unpaired pairs).map Arg.addr) =
        some (strs, m', patches) ∧ Compacted pairs strs m' patches) ∧
      ∀ name, ∃ call m',
        useValues name pairs.length m ((unpaired pairs).map Arg.addr) = some (call, m') ∧
        ReleasedOnce m m' (unpaired pairs) ∧
        Follows name ((unpaired pairs).map Arg.value) call ∧
        ∀ strs blobs, call = .called strs blobs →
          strs = pairs.map (·.1.value.data) ∧ blobs = pairs.map (·.2.value)) ∧
    (∀ (d : Bytes) (strs : List Bytes) (patchSha1 : Bytes), patchSha1.length = 20 →
      (∀ i : Nat, findLoop d strs patchSha1 0 = i ↔
        IsLeast {k | ∃ str, strs[k]? = some str ∧ Denotes str d} i) ∧
      (findLoop d strs patchSha1 0 = -1 ↔ ∀ str ∈ strs, ¬ Denotes str d)) ∧
    (∀ (pairs : List (Arg × Arg)) (sha1s : List Bytes) (a : PatchArgs),
      pairs.map (·.1.value.data) = sha1s.map some →
      a.patches = sha1s.zip (pairs.map fun p => some p.2.value) → ∀ d v,
      a.patchFor d = some v ↔
        ∃ (i : Nat) (p : Arg × Arg), IsLeast {k | ∃ str, sha1s[k]? = some str ∧ Denotes str d} i ∧
          pairs[i]? = some p ∧ p.2.value = v) := by
  refine ⟨?_, ?_, ?_, ?_, ?_⟩
  · exact fun str digest hdigest => ⟨parseSha1Into_zero_iff hdigest, denotes_of_zero hdigest⟩
  · exact fun d digest hd hdigest => parseSha1Into_printSha1 hd hdigest
  · exact fun m pairs h => ⟨compact_compacted h, fun name => useValues_spec h⟩
  · exact fun d strs patchSha1 hpatch => findLoop_iff hpatch
  · exact fun pairs sha1s a hsha1s ha d v => patchFor_iff hsha1s ha d v

namespace Sample

/-- Two pairs at the addresses 1 to 8, each value in front of its data. -/
def twoPairs : List (Arg × Arg) :=
  [(⟨1, 2, stringValue (cstr "00")⟩, ⟨3, 4, blobValue [0x42]⟩),
    (⟨5, 6, stringValue (cstr "ff")⟩, ⟨7, 8, blobValue [0x49]⟩)]

def twoPairsMemory : Memory where
  cells p := (unpaired twoPairs).findSome? fun a =>
    if p = a.addr then some (.value a.value.type a.value.size a.data)
    else if p = a.data then a.value.data.map .bytes
    else none
  released := []

end Sample

/-- Two pairs: the values of the two strings are released first, then the two blobs. -/
theorem two_patches_released :
    (useValues (cstr "apply_patch") 2 Sample.twoPairsMemory [1, 3, 5, 7]).map (·.2.released) =
        some [1, 5, 4, 3, 8, 7] ∧
      ∃ call m', useValues (cstr "apply_patch") 2 Sample.twoPairsMemory [1, 3, 5, 7] =
          some (call, m') ∧
        ReleasedOnce Sample.twoPairsMemory m' (unpaired Sample.twoPairs) := by
  have hlive : LiveAll Sample.twoPairsMemory (unpaired Sample.twoPairs) := by
    refine ⟨?_, by decide⟩
    simp only [Sample.twoPairs, unpaired, List.flatMap_cons, List.flatMap_nil, List.append_nil,
      List.cons_append, List.nil_append, List.forall_mem_cons, List.not_mem_nil, false_implies,
      implies_true, and_true]
    exact ⟨⟨by decide, rfl, rfl⟩, ⟨by decide, rfl, rfl⟩, ⟨by decide, rfl, rfl⟩,
      ⟨by decide, rfl, rfl⟩⟩
  obtain ⟨call, m', hcall, honce, -⟩ :=
    (patch_next_to_digest.2.2.1 _ _ hlive).2 (cstr "apply_patch")
  exact ⟨by decide, call, m', hcall, honce⟩

end OpenRecovery.Updater
