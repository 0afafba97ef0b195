import OpenRecovery.ApplyPatch.FileCall

/-!
# Crash safety of patching a list of files

`patchAll` makes a list of `applypatch` calls in order and stops at the first that fails. A
`PatchPlan` is a list of calls whose names keep apart. The saved copy is shared by all calls, so
the invariant `Secured` says who may rely on it: every call is stable, or exactly one is not, its
contents are in the saved copy, and the calls before it are done, so that a rerun reaches it without
writing the copy.

`wp_patchAll` proves from one call (`wp_call`) that a run keeps the invariant wherever it is cut
off, and `patchAll_crash_safe` that no schedule of crashes and reruns loses the contents of any
call.
-/

set_option autoImplicit false

namespace OpenRecovery.ApplyPatch

open OpenRecovery.Crash OpenRecovery.Edify OpenRecovery.Storage

/-- Calls of `applypatch` in order, up to the first that returns nonzero. -/
def patchAll (L : Libs) : List PatchArgs → FsProg Int
  | [] => return 0
  | a :: rest => do
      let r ← applypatch L a
      if r ≠ 0 then return r else patchAll L rest

/-- The names a call is given. -/
def FileCall.names {L : Libs} (c : FileCall L) : List Name := [c.source, c.target]

/-- Calls whose names differ; no name is another one with `.patch` appended. -/
structure PatchPlan (L : Libs) where
  calls : List (FileCall L)
  apart : calls.Pairwise fun c d => ∀ n ∈ c.names, ∀ m ∈ d.names, n ≠ m
  no_suffix : ∀ c ∈ calls, ∀ n ∈ c.names, ∀ d ∈ calls, ∀ m ∈ d.names, n ≠ m ++ cstr ".patch"

namespace PatchPlan

variable {L : Libs} (P : PatchPlan L)

/-- The argument lists of the calls. -/
def args : List PatchArgs := P.calls.map FileCall.args

/-- The invariant: every call is stable, or one call relies on the saved copy, and then the calls
before it are done. -/
def Secured (s : Fs) : Prop :=
  (∀ c ∈ P.calls, c.Stable s) ∨
    ∃ before c after, P.calls = before ++ c :: after ∧ (∀ d ∈ before, d.Done s) ∧ c.Saved s ∧
      ¬ c.Done s ∧ ∀ d ∈ before ++ after, d.Stable s

/-- The contents of every call are somewhere. -/
theorem Secured.recoverable {P : PatchPlan L} {s : Fs} (h : P.Secured s) {c : FileCall L}
    (hc : c ∈ P.calls) :
    s.Holds c.target c.T ∨ s.Holds c.source c.S ∨ s.Holds cacheTempSource c.S := by
  have hstable : c.Stable s →
      s.Holds c.target c.T ∨ s.Holds c.source c.S ∨ s.Holds cacheTempSource c.S := by
    rintro (hS | hT)
    · exact .inr (.inl hS)
    · exact .inl hT
  rcases h with hall | ⟨before, d, after, hsplit, -, hsaved, -, hrest⟩
  · exact hstable (hall c hc)
  · rw [hsplit] at hc
    rcases List.mem_append.1 hc with hb | hb
    · exact hstable (hrest c (List.mem_append_left _ hb))
    · rcases List.mem_cons.1 hb with rfl | ha
      · exact .inr (.inr hsaved.2)
      · exact hstable (hrest c (List.mem_append_right _ ha))

/-- The calls before and after a call use none of the files it touches. -/
theorem untouched {before after : List (FileCall L)} {c : FileCall L}
    (hsplit : P.calls = before ++ c :: after) {d : FileCall L} (hd : d ∈ before ++ after) {n : Name}
    (hn : n ∈ d.names) : ¬ c.Touched n := by
  have hapart := P.apart
  have hcP : c ∈ P.calls := by
    rw [hsplit]
    exact List.mem_append_right _ List.mem_cons_self
  have hdP : d ∈ P.calls := by
    rw [hsplit]
    rcases List.mem_append.1 hd with h | h
    · exact List.mem_append_left _ h
    · exact List.mem_append_right _ (List.mem_cons_of_mem _ h)
  have hne : ∀ m ∈ c.names, n ≠ m := by
    intro m hm
    rw [hsplit, List.pairwise_append, List.pairwise_cons] at hapart
    obtain ⟨-, ⟨hcafter, -⟩, hcross⟩ := hapart
    rcases List.mem_append.1 hd with h | h
    · exact hcross d h c List.mem_cons_self n hn m hm
    · exact (hcafter d h m hm n hn).symm
  -- the saved copy and the files deleted for space are in `/cache`
  have hout : ¬ cstr "/cache/" <+: n := by
    simp only [FileCall.names, List.mem_cons, List.not_mem_nil, or_false] at hn
    rcases hn with rfl | rfl
    · exact d.source_outside
    · exact d.target_outside
  rintro (h | h | h | h | h)
  · exact hne _ List.mem_cons_self h
  · exact hne _ (List.mem_cons_of_mem _ List.mem_cons_self) h
  · exact P.no_suffix d hdP n hn c hcP c.target (List.mem_cons_of_mem _ List.mem_cons_self) h
  · exact hout (h ▸ FileCall.cache_isInside)
  · exact hout h.1

/-- The position of the call that relies on the saved copy is the first that is not done. -/
theorem split_unique {before before' after after' : List (FileCall L)} {c c' : FileCall L}
    (h : before ++ c :: after = before' ++ c' :: after') (hc : c ∉ before') (hc' : c' ∉ before) :
    before = before' ∧ c = c' ∧ after = after' := by
  rcases List.append_eq_append_iff.1 h with ⟨as, hb, ha⟩ | ⟨bs, hb, ha⟩
  · cases as with
    | nil =>
        rw [List.append_nil] at hb
        obtain ⟨rfl, rfl⟩ := List.cons.inj ha
        exact ⟨hb.symm, rfl, rfl⟩
    | cons x xs =>
        obtain ⟨rfl, -⟩ := List.cons.inj ha
        exact absurd (hb ▸ List.mem_append_right _ List.mem_cons_self) hc
  · cases bs with
    | nil =>
        rw [List.append_nil] at hb
        obtain ⟨rfl, rfl⟩ := List.cons.inj ha
        exact ⟨hb, rfl, rfl⟩
    | cons x xs =>
        obtain ⟨rfl, -⟩ := List.cons.inj ha
        exact absurd (hb ▸ List.mem_append_right _ List.mem_cons_self) hc'

/-- When the calls before it are done and a call is not, it is ready and the others are stable. -/
theorem Secured.ready {P : PatchPlan L} {s : Fs} (h : P.Secured s)
    {before after : List (FileCall L)} {c : FileCall L} (hsplit : P.calls = before ++ c :: after)
    (hdone : ∀ d ∈ before, d.Done s) (hc : ¬ c.Done s) :
    c.Ready s ∧ ∀ d ∈ before ++ after, d.Stable s := by
  -- the call that relies on the saved copy can only be this one
  rcases h with hall | ⟨before', c', after', hsplit', hdone', hsaved, hc', hrest⟩
  · rw [hsplit] at hall
    refine ⟨⟨hc, ?_⟩, ?_⟩
    · rcases hall c (List.mem_append_right _ List.mem_cons_self) with hS | hT
      · exact .inl hS
      · exact absurd (c.done_of_holds hT) hc
    · intro d hd
      refine hall d ?_
      rcases List.mem_append.1 hd with h | h
      · exact List.mem_append_left _ h
      · exact List.mem_append_right _ (List.mem_cons_of_mem _ h)
  · obtain ⟨rfl, rfl, rfl⟩ := split_unique (hsplit.symm.trans hsplit')
      (fun hm => hc (hdone' c hm)) (fun hm => hc' (hdone c' hm))
    exact ⟨⟨hc, .inr hsaved⟩, hrest⟩

/-- What a call leaves behind keeps the invariant. -/
theorem secured_of_kept {s t : Fs} {before after : List (FileCall L)} {c : FileCall L}
    (hsplit : P.calls = before ++ c :: after) (hdone : ∀ d ∈ before, d.Done s)
    (hrest : ∀ d ∈ before ++ after, d.Stable s) (hf : SameExcept c.Touched s t) (hk : c.Kept t) :
    P.Secured t ∧ ∀ d ∈ before, d.Done t := by
  -- the other calls see the same files as before
  have hsame : ∀ d ∈ before ++ after, ∀ n ∈ d.names, t.files n = s.files n :=
    fun d hd n hn => hf.1 n (P.untouched hsplit hd hn)
  have hdone' : ∀ d ∈ before, d.Done t := by
    intro d hd
    exact (hdone d hd).of_files_eq (hsame d (List.mem_append_left _ hd) _
      (List.mem_cons_of_mem _ List.mem_cons_self))
  have hrest' : ∀ d ∈ before ++ after, d.Stable t := by
    intro d hd
    exact (hrest d hd).of_files_eq (hsame d hd _ List.mem_cons_self)
      (hsame d hd _ (List.mem_cons_of_mem _ List.mem_cons_self))
  have hstable : c.Stable t → P.Secured t := by
    intro hst
    left
    intro d hd
    rw [hsplit] at hd
    rcases List.mem_append.1 hd with hd | hd
    · exact hrest' d (List.mem_append_left _ hd)
    · rcases List.mem_cons.1 hd with rfl | hd
      · exact hst
      · exact hrest' d (List.mem_append_right _ hd)
  refine ⟨?_, hdone'⟩
  rcases hk with ⟨hc, hS | hsaved⟩ | hT
  · exact hstable (.inl hS)
  · -- this call relies on the saved copy now
    exact .inr ⟨before, c, after, hsplit, hdone', hsaved, hc, hrest'⟩
  · exact hstable (.inr hT)

/-- A call whose predecessors are done keeps the invariant, and is done when it returns zero. -/
theorem wp_call {before after : List (FileCall L)} {c : FileCall L}
    (hsplit : P.calls = before ++ c :: after) {s : Fs} (hs : P.Secured s)
    (hdone : ∀ d ∈ before, d.Done s) :
    wp fsMachine (fun r t => P.Secured t ∧ (r = 0 → ∀ d ∈ before ++ [c], d.Done t)) P.Secured
      (applypatch L c.args) s := by
  by_cases hc : c.Done s
  · -- nothing changes
    refine wp_mono ?_ ?_ (c.wp_applypatch_done hc)
    · rintro r t ⟨-, rfl⟩
      exact ⟨hs, fun _ => List.forall_mem_append.2 ⟨hdone, List.forall_mem_singleton.2 hc⟩⟩
    · rintro t rfl
      exact hs
  · obtain ⟨hready, hrest⟩ := hs.ready hsplit hdone hc
    refine wp_mono ?_ ?_ (c.wp_applypatch_ready hready)
    · rintro r t ⟨⟨hf, hk⟩, hzero⟩
      obtain ⟨hst, hdt⟩ := P.secured_of_kept hsplit hdone hrest hf hk
      refine ⟨hst, fun hr => List.forall_mem_append.2 ⟨hdt, List.forall_mem_singleton.2 ?_⟩⟩
      exact c.done_of_holds (hzero hr)
    · rintro t ⟨hf, hk⟩
      exact (P.secured_of_kept hsplit hdone hrest hf hk).1

/-- A run from the call after `before` on keeps the invariant, wherever it ends. -/
theorem wp_patchAll {before rest : List (FileCall L)} (hsplit : P.calls = before ++ rest) {s : Fs}
    (hs : P.Secured s) (hdone : ∀ d ∈ before, d.Done s) :
    wp fsMachine (fun _ t => P.Secured t) P.Secured (patchAll L (rest.map FileCall.args)) s := by
  -- induction on the calls still to be made, with the ones before them done
  induction rest generalizing before s with
  | nil => exact hs
  | cons c rest ih =>
      have hsplit' : P.calls = (before ++ [c]) ++ rest := by
        rw [hsplit, List.append_assoc]
        rfl
      simp only [List.map_cons, patchAll]
      refine wp_seq (P.wp_call hsplit hs hdone) ?_
      rintro r t ⟨hst, hzero⟩
      split
      · exact hst
      · rename_i hr
        exact ih hsplit' hst (hzero (not_not.1 hr))

end PatchPlan

/-- However often a run of the calls is cut off and started again, the contents of every call are at
its target, at its source, or in the saved copy. -/
theorem patchAll_crash_safe {L : Libs} (P : PatchPlan L) (s₀ s : Fs)
    (h₀ : ∀ c ∈ P.calls, s₀.Holds c.source c.S)
    (h : Reachable fsMachine (patchAll L P.args) s₀ s) :
    ∀ c ∈ P.calls,
      s.Holds c.target c.T ∨ s.Holds c.source c.S ∨ s.Holds cacheTempSource c.S := by
  have hs : P.Secured s := by
    refine h.invariant P.Secured ?_ ?_
    · exact .inl fun c hc => .inl (h₀ c hc)
    · intro t ht _
      exact P.wp_patchAll (show P.calls = [] ++ P.calls from rfl) ht nofun
  intro c hc
  exact hs.recoverable hc

/-! ## A concrete plan

Two calls on files of one byte, with image patches of one raw chunk. The digests are SHA-1
digests. -/

namespace Sample

/-- Contents of the sample files and their SHA-1 digests. -/
def digests : List (Bytes × Bytes) :=
  [(cstr "a", cstr "86f7e437faa5a7fce15d1ddcb9eaeaea377667b8"),
    (cstr "b", cstr "e9d71f5ee7c92d6dc9e92ffdad17b8bd49418f98"),
    (cstr "c", cstr "84a516841ba77a5b4648de2cd0dfcb30ea46dbb4"),
    (cstr "d", cstr "3c363836cf4e16666669a25da280a1865c2d2874"),
    (cstr "xb", cstr "27cd3ad00d41d7f0601de9c8b22998e9e173f882")]

/-- A digest function that agrees with SHA-1 on the sample contents. -/
def sha1 (x : Bytes) : Bytes := ((digests.lookup x).bind parseSha1).getD []

/-- Libraries with that digest and no decompressors. -/
def libs : Libs where
  sha1 := sha1
  bzDecompress _ := ([], .dataError)
  inflate _ := none
  inflateStarved _ := none
  deflate _ _ := none
  sizeBits := 32
  wide := Libs.wide_narrow

/-- An image patch of one raw chunk. -/
def rawPatch (data : Bytes) : Value :=
  blobValue (cstr "IMGDIFF2" ++ write4 1 ++ write4 3 ++ write4 data.length ++ data)

/-- The hexadecimal digest of sample contents. -/
def hex (x : Bytes) : Bytes := (digests.lookup x).getD []

/-- Arguments that patch the file `n` in place. -/
def inPlace (n x y : Bytes) : PatchArgs where
  sourceFilename := n
  targetFilename := cstr "-"
  targetSha1Str := hex y
  targetSize := y.length
  patches := [(hex x, some (rawPatch y))]

/-- Among the sample contents the digest tells contents apart. -/
theorem sha1_inj {x y : Bytes} (hy : y ∈ digests.map Prod.fst) (h : sha1 x = sha1 y) : x = y := by
  have hlisted : ∀ x ∈ digests.map Prod.fst, ∀ y ∈ digests.map Prod.fst,
      sha1 x = sha1 y → x = y := by decide
  have hne : ∀ y ∈ digests.map Prod.fst, sha1 y ≠ [] := by decide
  by_cases hx : x ∈ digests.map Prod.fst
  · exact hlisted x hx y hy h
  · have hnone : digests.lookup x = none := by
      rw [List.lookup_eq_none_iff]
      intro p hp
      rw [bne_iff_ne]
      rintro rfl
      exact hx (List.mem_map_of_mem hp)
    have hnil : sha1 x = [] := by rw [sha1, hnone]; rfl
    exact absurd (h.symm.trans hnil) (hne y hy)

/-- `/system/x` from `a` to `b`. -/
def callX : FileCall libs where
  args := inPlace (cstr "/system/x") (cstr "a") (cstr "b")
  S := cstr "a"
  T := cstr "b"
  patch := rawPatch (cstr "b")
  source_isFile := by decide
  target_isFile := by decide
  source_outside := by decide
  target_outside := by decide
  source_ne_outname := by decide
  digest := by decide
  listed := by decide
  blob := rfl
  turns := rfl
  source_fixed := by decide
  target_fixed := by decide
  collisionFree _ _ _ _ h := sha1_inj (by decide) h

/-- `/system/y` from `c` to `d`. -/
def callY : FileCall libs where
  args := inPlace (cstr "/system/y") (cstr "c") (cstr "d")
  S := cstr "c"
  T := cstr "d"
  patch := rawPatch (cstr "d")
  source_isFile := by decide
  target_isFile := by decide
  source_outside := by decide
  target_outside := by decide
  source_ne_outname := by decide
  digest := by decide
  listed := by decide
  blob := rfl
  turns := rfl
  source_fixed := by decide
  target_fixed := by decide
  collisionFree _ _ _ _ h := sha1_inj (by decide) h

/-- Both calls. -/
def plan : PatchPlan libs where
  calls := [callX, callY]
  apart := by
    refine List.pairwise_pair.2 ?_
    decide
  no_suffix := by
    simp only [List.mem_cons, List.not_mem_nil, or_false]
    rintro c (rfl | rfl) n hn d (rfl | rfl) m hm
    all_goals
      revert n m
      decide

/-- Both sources are in place and nothing else exists. -/
def start : Fs where
  files n :=
    if n = cstr "/system/x" then some ⟨cstr "a", ⟨0o644, 0, 0⟩⟩
    else if n = cstr "/system/y" then some ⟨cstr "c", ⟨0o644, 0, 0⟩⟩
    else none
  parts _ := none
  opened _ := false

/-- Little space everywhere, and a crash right after the first source was unlinked. -/
def crashAfterUnlink (i : Nat) (s : Fs) (o : Op) : Event Fs o.Res :=
  if i = 10 then .crash s else .reply (smoothReply (1, 1000) s o)

theorem crashAfterUnlink_possible (i : Nat) (s : Fs) (o : Op) :
    (crashAfterUnlink i s o).Possible fsMachine s o := by
  unfold crashAfterUnlink
  split
  · exact .inl rfl
  · exact smoothReply_allowed (1, 1000) s o

/-- The state after that crash. -/
def crashed : Fs := (exec fsMachine crashAfterUnlink 0 start (patchAll libs plan.args)).1

/-- The crash has left neither the source nor the target of the first call, and the saved copy has
its contents. -/
theorem patchAll_crashed_safe :
    crashed.files (cstr "/system/x") = none ∧
      ∀ c ∈ plan.calls, crashed.Holds c.target c.T ∨ crashed.Holds c.source c.S ∨
        crashed.Holds cacheTempSource c.S := by
  refine ⟨by decide, patchAll_crash_safe plan start crashed ?_ ?_⟩
  · intro c hc
    simp only [plan, List.mem_cons, List.not_mem_nil, or_false] at hc
    rcases hc with rfl | rfl
    · exact ⟨⟨cstr "a", ⟨0o644, 0, 0⟩⟩, by decide, rfl⟩
    · exact ⟨⟨cstr "c", ⟨0o644, 0, 0⟩⟩, by decide, rfl⟩
  · exact .rerun .start trivial (exec_run crashAfterUnlink_possible (patchAll libs plan.args) 0 start)

end Sample

end OpenRecovery.ApplyPatch
