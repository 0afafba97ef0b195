import OpenRecovery.ApplyPatch.CrashSafety

/-!
# Crash safety of patching a partition

`PartCall` is a call of `applypatch` whose source and target are the same partition. `found` is what
`LoadPartitionContents` finds there: the shortest listed prefix with its listed digest.

While every run starts with `S` or `T` found on the partition, the contents are never lost and an
uninterrupted run installs `T` (`applypatch_partition_safe_when`). The condition cannot be dropped:
a run that finds neither, and has to use the saved copy, opens the saved copy for writing before
anything else, because the partition branch saves `source_file` whichever contents are used. A crash
there loses `S` (`applypatch_partition_unsafe`).
-/

set_option autoImplicit false

namespace OpenRecovery.ApplyPatch

open OpenRecovery.Crash OpenRecovery.Edify OpenRecovery.Storage

/-! ## What is found on a partition -/

/-- The shortest prefix of the device that has its listed digest; the pairs come in order of
increasing size. -/
def firstMatch (L : Libs) (dev : Bytes) : List (Nat × Option Bytes) → Option Bytes
  | [] => none
  | (size, sha) :: rest =>
      -- too few bytes on the device: reading ends here, for the longer sizes too
      if dev.length < size then none
      else
        match sha.bind parseSha1 with
        | none => none
        | some parsed =>
            if L.sha1 (dev.take size) = parsed then some (dev.take size)
            -- the hash goes on over the bytes up to the next size
            else firstMatch L dev rest

/-- Contents found on a partition, as `LoadPartitionContents` returns them. -/
def partitionContents (L : Libs) (x : Bytes) : FileContents :=
  ⟨L.sha1 x, some x, x.length, ⟨0o644, 0, 0⟩⟩

theorem matchPairs_of_firstMatch {L : Libs} {dev x : Bytes} {ps : List (Nat × Option Bytes)}
    (h : firstMatch L dev ps = some x) (file : FileContents) (got : Nat) :
    matchPairs L dev file ps got = .ret (0, partitionContents L x) := by
  induction ps generalizing got with
  | nil => cases h
  | cons p ps ih =>
      obtain ⟨size, sha⟩ := p
      simp only [firstMatch] at h
      split at h
      · cases h
      · rename_i hlen
        cases sha with
        | none => cases h
        | some str =>
            simp only [Option.bind_some] at h
            cases hparse : parseSha1 str with
            | none =>
                rw [hparse] at h
                cases h
            | some parsed =>
                simp only [hparse] at h
                simp only [matchPairs, hlen, if_false, hparse]
                split at h
                · rename_i hsha
                  cases h
                  have hsize : (dev.take size).length = size := by
                    rw [List.length_take]
                    omega
                  simp only [hsha, if_true, partitionContents, hsize]
                  rfl
                · rename_i hsha
                  simp only [hsha, if_false]
                  exact ih h size

theorem firstMatch_prefix {L : Libs} {dev x : Bytes} {ps : List (Nat × Option Bytes)}
    (h : firstMatch L dev ps = some x) : x <+: dev := by
  induction ps with
  | nil => cases h
  | cons p ps ih =>
      obtain ⟨size, sha⟩ := p
      simp only [firstMatch] at h
      split at h
      · cases h
      · split at h
        · cases h
        · split at h
          · cases h
            exact List.take_prefix size dev
          · exact ih h

/-- A call of `applypatch` that turns the contents `S` of a partition into `T`. -/
structure PartCall (L : Libs) where
  args : PatchArgs
  dev : Name
  tokens : List Bytes
  pairs : List (Nat × Option Bytes)
  S : Bytes
  T : Bytes
  patch : Value
  same_name : args.target = args.sourceFilename
  isPartition : isEmmc args.target = true
  split_name : strtok colon args.target = cstr "EMMC" :: dev :: tokens
  read_pairs : readPairs L ((args.target.count colon - 1) / 2) tokens = .ret (some pairs)
  some_pair : pairs ≠ []
  digest : parseSha1 args.targetSha1Str = some (L.sha1 T)
  listed : args.patchFor (L.sha1 S) = some patch
  blob : patch.type = .blob
  turns : Turns L patch S T
  room : T.length ≤ args.targetSize
  collisionFree : L.sha1 S = L.sha1 T → S = T

namespace PartCall

variable {L : Libs} (c : PartCall L)

/-- The listed pairs in order of increasing size. -/
def sortedPairs : List (Nat × Option Bytes) := c.pairs.insertionSort fun a b => a.1 ≤ b.1

/-- What `LoadPartitionContents` finds. -/
def found (s : Fs) : Option Bytes := (s.parts c.dev).bind fun x => firstMatch L x c.sortedPairs

/-- A run can tell that the partition holds `S` or `T`. -/
def Recognised (s : Fs) : Prop := c.found s = some c.S ∨ c.found s = some c.T

/-- The partition starts with `x`. -/
def Holds (s : Fs) (x : Bytes) : Prop := ∃ dev, s.parts c.dev = some dev ∧ x <+: dev

/-- The partition has room for `T`. -/
def Fits (s : Fs) : Prop := ∃ dev, s.parts c.dev = some dev ∧ c.T.length ≤ dev.length

/-- The contents are on the partition or in the saved copy. -/
def Recoverable (s : Fs) : Prop :=
  c.Holds s c.S ∨ c.Holds s c.T ∨ s.Holds cacheTempSource c.S

theorem holds_of_found {s : Fs} {x : Bytes} (h : c.found s = some x) : c.Holds s x := by
  obtain ⟨dev, hdev, hmatch⟩ := Option.bind_eq_some_iff.1 h
  exact ⟨dev, hdev, firstMatch_prefix hmatch⟩

/-- The answer of `LoadFileContents` once the partition has been read. -/
def loadAnswer (file : FileContents) : Option Bytes → FsProg (Int × FileContents)
  | none => return (-1, { file with data := none })
  | some x => matchPairs L x { file with data := none } c.sortedPairs 0

theorem loadFileContents_eq (file : FileContents) :
    loadFileContents L c.args.target file true = sysLoadPart c.dev >>= c.loadAnswer file := by
  simp only [loadFileContents, c.isPartition, if_true, loadPartitionContents, c.split_name, ne_eq,
    not_true_eq_false, if_false, List.tail_cons, c.read_pairs, List.head?_cons, Prog.ret_bind,
    c.some_pair]
  rfl

/-! ## A run that finds its contents -/

/-- What a call does once it has found `S`: save it, write the partition, remove the copy. -/
def saveAndWrite : FsProg Int := do
  let m ← makeFreeSpaceOnCache L (toSize L c.S.length)
  if m < 0 then return 1
  let r ← saveFileContents cacheTempSource (partitionContents L c.S)
  if r < 0 then return 1
  match ← sysWritePart c.dev c.T with
  | .done => do
      let _ ← sysUnlink cacheTempSource
      return 0
  | .failed _ => return 1
  | .noDevice => .halt

/-- The contents found and their patch. -/
def selection (copy : FileContents) : Selection :=
  ⟨partitionContents L c.S, copy, some c.patch, none⟩

theorem runPatch_eq : runPatch L c.args (partitionContents L c.S) c.patch =
    .ret (.ok (0, c.T, c.T)) := by
  have hmem := c.turns.applyBlob_memory
    (show (partitionContents L c.S).data = some c.S from rfl) rfl c.room
  simp only [runPatch, c.blob, ne_eq, not_true_eq_false, if_false, c.isPartition, if_true, hmem,
    Prog.ret_bind]
  rfl

theorem writeToPartition_eq :
    writeToPartition c.T c.args.target = sysWritePart c.dev c.T >>= writeStatus := by
  simp only [writeToPartition, c.split_name, ne_eq, not_true_eq_false, if_false, List.head?_cons]

/-- The already-patched test succeeds on contents with the target digest. -/
theorem chooseSource_done {x : Bytes} (hx : L.sha1 x = L.sha1 c.T) (copy : FileContents) :
    chooseSource L c.args (L.sha1 c.T) copy 0 (partitionContents L x) = .ret (.error 0) := by
  simp only [chooseSource, partitionContents, hx, and_self, if_true]
  rfl

theorem chooseSource_source (hne : L.sha1 c.S ≠ L.sha1 c.T) (copy : FileContents) :
    chooseSource L c.args (L.sha1 c.T) copy 0 (partitionContents L c.S) =
      .ret (.ok (c.selection copy)) := by
  have hload : loadSource L c.args (partitionContents L c.S) = .ret (partitionContents L c.S) := by
    simp only [loadSource, partitionContents, reduceCtorEq, c.same_name, ne_eq, not_true_eq_false,
      or_self, if_false]
    rfl
  have hpatch : c.args.patchForFile (partitionContents L c.S) = some c.patch := by
    simp only [PatchArgs.patchForFile, partitionContents, reduceCtorEq, if_false, c.listed]
  have hdone : ¬ ((0 : Int) = 0 ∧ (partitionContents L c.S).sha1 = L.sha1 c.T) := fun h => hne h.2
  rw [chooseSource, if_neg hdone, hload, Prog.ret_bind, hpatch]
  rfl

/-- The end of a call on the partition, with the whole target in the buffer. -/
theorem finishPatch_eq (src : FileContents) :
    finishPatch L c.args (L.sha1 c.T) src c.T c.T true = (do
      match ← sysWritePart c.dev c.T with
      | .done => do
          let _ ← sysUnlink cacheTempSource
          return 0
      | .failed _ => return 1
      | .noDevice => .halt) := by
  simp only [finishPatch, ne_eq, not_true_eq_false, if_false, c.isPartition, if_true,
    c.writeToPartition_eq, Prog.bind_bind]
  congr 1
  funext w
  cases w with
  | done => rfl
  | failed left => rfl
  | noDevice => rfl

theorem patchSelected_eq (copy : FileContents) :
    patchSelected L c.args (L.sha1 c.T) (.ok (c.selection copy)) = c.saveAndWrite := by
  simp only [patchSelected, attemptLoop, attempt, makeRoom, c.isPartition, if_true, saveAndWrite,
    Prog.bind_bind, selection]
  congr 1
  funext m
  by_cases hm : m < 0
  · simp only [hm, if_true, Prog.pure_eq_ret, Prog.ret_bind]
  · simp only [hm, if_false, Prog.bind_bind]
    congr 1
    funext r
    by_cases hr : r < 0
    · simp only [hr, if_true, Prog.pure_eq_ret, Prog.ret_bind]
    · simp only [hr, if_false, Prog.pure_eq_ret, Prog.ret_bind, Selection.toUse, c.runPatch_eq,
        if_true, c.finishPatch_eq]

/-- The rest of a call after the partition was read, when it holds contents that are found. -/
def afterFound (copy : FileContents) (x : Bytes) : FsProg Int := do
  let sel ← chooseSource L c.args (L.sha1 c.T) copy 0 (partitionContents L x)
  patchSelected L c.args (L.sha1 c.T) sel

/-- What a call does with contents it recognises. -/
theorem afterFound_eq {x : Bytes} (hx : x = c.S ∨ x = c.T) (copy : FileContents) :
    (c.afterFound copy x = .ret 0 ∧ x = c.T) ∨ (c.afterFound copy x = c.saveAndWrite ∧ x = c.S) := by
  -- only the digest is compared, so contents `S` with the digest of `T` pass for done
  by_cases hsha : L.sha1 x = L.sha1 c.T
  · left
    refine ⟨?_, ?_⟩
    · rw [afterFound, c.chooseSource_done hsha]
      rfl
    · rcases hx with rfl | rfl
      · exact c.collisionFree hsha
      · rfl
  · right
    rcases hx with rfl | rfl
    · refine ⟨?_, rfl⟩
      rw [afterFound, c.chooseSource_source hsha, Prog.ret_bind]
      exact c.patchSelected_eq copy
    · exact absurd rfl hsha

/-- The rest of a call after the partition was read. -/
def afterRead (copy file : FileContents) (dev : Option Bytes) : FsProg Int := do
  let x ← c.loadAnswer file dev
  let sel ← chooseSource L c.args (L.sha1 c.T) copy x.1 x.2
  patchSelected L c.args (L.sha1 c.T) sel

/-- A call as a program: read the partition, then go on with what was found. -/
theorem applypatch_eq :
    applypatch L c.args = (do
      let copy ← sysUninit
      let file ← sysUninit
      let dev ← sysLoadPart c.dev
      c.afterRead copy file dev) := by
  simp only [applypatch, c.digest, selectSource, c.loadFileContents_eq, Prog.bind_bind, afterRead]

theorem afterRead_eq {dev x : Bytes} (hx : firstMatch L dev c.sortedPairs = some x)
    (copy file : FileContents) : c.afterRead copy file (some dev) = c.afterFound copy x := by
  simp only [afterRead, loadAnswer, matchPairs_of_firstMatch hx, Prog.ret_bind, afterFound]

/-! ## Crashes -/

theorem Holds.of_parts_eq {c : PartCall L} {s t : Fs} {x : Bytes} (h : c.Holds s x)
    (he : t.parts = s.parts) : c.Holds t x := by
  obtain ⟨dev, hdev, hx⟩ := h
  exact ⟨dev, by rw [he]; exact hdev, hx⟩

theorem Fits.of_parts_eq {c : PartCall L} {s t : Fs} (h : c.Fits s) (he : t.parts = s.parts) :
    c.Fits t := by
  obtain ⟨dev, hdev, hx⟩ := h
  exact ⟨dev, by rw [he]; exact hdev, hx⟩

/-- What holds in every state: there is room for `T`, and the contents are not lost. -/
def Secured (s : Fs) : Prop := c.Fits s ∧ c.Recoverable s

/-- Saving and writing, cut off anywhere, does not lose the contents. -/
theorem wp_saveAndWrite {s : Fs} (hfits : c.Fits s) (hS : c.Holds s c.S) :
    wp fsMachine (fun _ t => c.Secured t) c.Secured c.saveAndWrite s := by
  -- until the partition is written, every file change leaves `S` on it
  have hkeep : ∀ {N : Name → Prop} {t : Fs}, SameExcept N s t → c.Secured t :=
    fun ht => ⟨hfits.of_parts_eq ht.2.1, .inl (hS.of_parts_eq ht.2.1)⟩
  unfold saveAndWrite
  rw [wp_bind]
  refine wp_makeFreeSpaceOnCache L (fun t ht => hkeep ht) ?_
  intro m t ht
  split
  · exact hkeep ht
  · have hkeep' : ∀ {N : Name → Prop} {u : Fs}, SameExcept N t u → c.Secured u := fun hu =>
      ⟨(hfits.of_parts_eq ht.2.1).of_parts_eq hu.2.1,
        .inl ((hS.of_parts_eq ht.2.1).of_parts_eq hu.2.1)⟩
    rw [wp_bind]
    refine wp_saveFileContents (fun u hu => hkeep' hu) (fun u hu => hkeep' hu) ?_ ?_
    · -- the copy is complete: the partition may now be damaged
      intro u d hu hd hlen hfile
      cases hd
      simp only [lt_irrefl, if_false]
      rw [wp_bind, wp_sysWritePart]
      refine ⟨hkeep' hu, hkeep' hu, ?_⟩
      intro old hold
      have hroom : c.T.length ≤ old.length := by
        obtain ⟨dev, hdev, hle⟩ := (hkeep' hu).1
        rw [hold] at hdev
        cases hdev
        exact hle
      refine ⟨?_, ?_⟩
      · -- cut off inside the write the device holds anything, and the saved copy stands for `S`
        intro new hnew
        have hsec : c.Secured (u.setPart c.dev (some new)) := by
          refine ⟨⟨new, setPart_parts_self .., ?_⟩, .inr (.inr ⟨_, hfile, rfl⟩)⟩
          rw [hnew]
          exact hroom
        exact ⟨hsec, hsec⟩
      · intro _
        -- after the whole write the partition starts with `T`, so the copy may be removed
        have hsec : ∀ v : Fs, v.parts = (u.setPart c.dev (some (c.T ++ old.drop c.T.length))).parts →
            c.Secured v := by
          intro v hv
          have hdev : v.parts c.dev = some (c.T ++ old.drop c.T.length) := by
            rw [hv]
            exact setPart_parts_self ..
          refine ⟨⟨_, hdev, ?_⟩, .inr (.inl ⟨_, hdev, List.prefix_append _ _⟩)⟩
          rw [List.length_append]
          omega
        simp only
        rw [wp_bind, wp_sysUnlink]
        exact ⟨hsec _ rfl, hsec _ rfl⟩
    · intro u _ hne
      exact absurd rfl (hne c.S rfl)

/-- A run that finds `S` or `T` does not lose the contents, wherever it ends. -/
theorem wp_applypatch {s : Fs} (hs : c.Secured s) (hr : c.Recognised s) :
    wp fsMachine (fun _ t => c.Secured t) c.Secured (applypatch L c.args) s := by
  obtain ⟨x, hfound, hx⟩ : ∃ x, c.found s = some x ∧ (x = c.S ∨ x = c.T) := by
    rcases hr with h | h
    · exact ⟨c.S, h, .inl rfl⟩
    · exact ⟨c.T, h, .inr rfl⟩
  obtain ⟨dev, hdev, hmatch⟩ := Option.bind_eq_some_iff.1 hfound
  rw [c.applypatch_eq, wp_bind, wp_sysUninit]
  refine ⟨hs, ?_⟩
  intro copy
  rw [wp_bind, wp_sysUninit]
  refine ⟨hs, ?_⟩
  intro file
  rw [wp_bind, wp_sysLoadPart, hdev, c.afterRead_eq hmatch copy file]
  refine ⟨hs, ?_⟩
  rcases c.afterFound_eq hx copy with ⟨he, -⟩ | ⟨he, rfl⟩
  · rw [he]
    exact hs
  · rw [he]
    exact c.wp_saveAndWrite hs.1 (c.holds_of_found hfound)

/-! ## Uninterrupted runs -/

/-- Free bytes that are enough for the saved copy. -/
def needed : Nat := toSize L c.S.length

theorem needed_lt : c.needed < 2 ^ L.sizeBits := by
  unfold needed toSize
  have hpos : (0 : Int) < 2 ^ L.sizeBits := by positivity
  have hlt := Int.emod_lt_of_pos (c.S.length : Int) hpos
  have hnn := Int.emod_nonneg (c.S.length : Int) hpos.ne'
  zify
  rw [Int.toNat_of_nonneg hnn]
  exact hlt

theorem returns_saveAndWrite {s : Fs} (hfits : c.Fits s) :
    Returns (roomyMachine L.sizeBits c.needed) (fun r t => r = 0 ∧ c.Holds t c.T)
      c.saveAndWrite s := by
  have hk := c.needed_lt
  unfold saveAndWrite
  refine returns_bind (returns_makeFreeSpaceOnCache hk (Nat.le_refl _) ?_)
  simp only [lt_irrefl, if_false]
  refine returns_bind (returns_saveFileContents hk (d := c.S) rfl rfl ?_)
  intro t ht _
  obtain ⟨dev, hdev, hle⟩ := hfits.of_parts_eq ht.2.1
  simp only [lt_irrefl, if_false]
  refine returns_bind (returns_sysWritePart hk hdev hle ?_)
  refine returns_bind (returns_sysUnlink hk ?_)
  exact ⟨rfl, c.T ++ dev.drop c.T.length, setPart_parts_self .., List.prefix_append _ _⟩

/-- A run that finds `S` or `T` and is not interrupted installs `T`. -/
theorem returns_applypatch {s : Fs} (hs : c.Secured s) (hr : c.Recognised s) :
    Returns (roomyMachine L.sizeBits c.needed) (fun r t => r = 0 ∧ c.Holds t c.T)
      (applypatch L c.args) s := by
  have hk := c.needed_lt
  obtain ⟨x, hfound, hx⟩ : ∃ x, c.found s = some x ∧ (x = c.S ∨ x = c.T) := by
    rcases hr with h | h
    · exact ⟨c.S, h, .inl rfl⟩
    · exact ⟨c.T, h, .inr rfl⟩
  obtain ⟨dev, hdev, hmatch⟩ := Option.bind_eq_some_iff.1 hfound
  rw [c.applypatch_eq]
  refine returns_bind (returns_sysUninit hk ?_)
  intro copy
  refine returns_bind (returns_sysUninit hk ?_)
  intro file
  refine returns_bind (returns_sysLoadPart hk ?_)
  rw [hdev, c.afterRead_eq hmatch copy file]
  rcases c.afterFound_eq hx copy with ⟨he, rfl⟩ | ⟨he, rfl⟩
  · rw [he]
    exact ⟨rfl, c.holds_of_found hfound⟩
  · rw [he]
    exact c.returns_saveAndWrite hs.1

end PartCall

/-- While each run starts with `S` or `T` found on the partition, every state has `S` or `T` on the
partition or `S` in the saved copy, and an uninterrupted run with enough room on `/cache` returns
zero with `T` on the partition. -/
theorem applypatch_partition_safe_when {L : Libs} (c : PartCall L) (s₀ s : Fs)
    (h₀ : c.found s₀ = some c.S) (hfits : c.Fits s₀)
    (h : ReachableWhen fsMachine c.Recognised (applypatch L c.args) s₀ s) :
    c.Recoverable s ∧ (c.Recognised s →
      Returns (roomyMachine L.sizeBits c.needed) (fun r t => r = 0 ∧ c.Holds t c.T)
        (applypatch L c.args) s) := by
  have hs : c.Secured s := by
    -- `Recoverable` alone is not kept: the writes of the next run need the room as well
    refine h.invariant c.Secured ⟨hfits, .inl (c.holds_of_found h₀)⟩ ?_
    intro t ht hr
    exact c.wp_applypatch ht hr
  exact ⟨hs.2, fun hr => c.returns_applypatch hs hr⟩

/-! ## A concrete partition -/

namespace Sample

/-- `EMMC:boot` with the pairs of `a` and `b`. -/
def bootName : Name := cstr "EMMC:boot:1:" ++ hex (cstr "a") ++ cstr ":1:" ++ hex (cstr "b")

/-- The partition `boot` from `a` to `b`. -/
def bootCall : PartCall libs where
  args := inPlace bootName (cstr "a") (cstr "b")
  dev := cstr "boot"
  tokens := [cstr "1", hex (cstr "a"), cstr "1", hex (cstr "b")]
  pairs := [(1, some (hex (cstr "a"))), (1, some (hex (cstr "b")))]
  S := cstr "a"
  T := cstr "b"
  patch := rawPatch (cstr "b")
  same_name := by decide
  isPartition := by decide
  split_name := by decide
  read_pairs := rfl
  some_pair := by decide
  digest := by decide
  listed := by decide
  blob := callX.blob
  turns := callX.turns
  room := by decide
  collisionFree := by decide

/-- The partition holds `a`; there are no files. -/
def bootStart : Fs where
  files _ := none
  parts n := if n = cstr "boot" then some (cstr "a") else none
  opened _ := false

/-- A crash inside the write to the partition, which leaves `z` there. -/
def crashInWrite (_ : Nat) (s : Fs) (o : Op) : Event Fs o.Res :=
  match o with
  | .writePart dev _ =>
      if s.parts dev = some (cstr "a") then .crash (s.setPart dev (some (cstr "z")))
      else .crash s
  | o => .reply (smoothReply (1, 1000) s o)

theorem crashInWrite_possible (i : Nat) (s : Fs) (o : Op) :
    (crashInWrite i s o).Possible fsMachine s o := by
  unfold crashInWrite
  split
  · split
    · rename_i dev _ hdev
      exact .inr ⟨cstr "a", cstr "z", hdev, rfl, rfl⟩
    · exact .inl rfl
  · exact smoothReply_allowed (1, 1000) s _

/-- The state after that crash. -/
def bootCrashed : Fs := (exec fsMachine crashInWrite 0 bootStart (applypatch libs bootCall.args)).1

/-- The next run is not interrupted. -/
def bootSecond : Fs × Option Int :=
  exec fsMachine (fun _ s o => .reply (smoothReply (1, 1000) s o)) 0 bootCrashed
    (applypatch libs bootCall.args)

theorem bootCall_found : bootCall.found bootStart = some bootCall.S := by decide

theorem bootCall_fits : bootCall.Fits bootStart := ⟨cstr "a", by decide, by decide⟩

theorem run_bootCrashed :
    Run fsMachine bootStart (applypatch libs bootCall.args) bootCrashed none :=
  exec_run crashInWrite_possible (applypatch libs bootCall.args) 0 bootStart

/-- From the initial state an uninterrupted run succeeds, and after a crash inside the write to the
partition the contents can be recovered. -/
theorem bootCall_safe :
    Returns (roomyMachine libs.sizeBits bootCall.needed) (fun r t => r = 0 ∧ bootCall.Holds t bootCall.T)
        (applypatch libs bootCall.args) bootStart ∧
      bootCrashed.parts (cstr "boot") = some (cstr "z") ∧ bootCall.Recoverable bootCrashed := by
  have hrec : bootCall.Recognised bootStart := .inl bootCall_found
  refine ⟨?_, by decide, ?_⟩
  · exact (applypatch_partition_safe_when bootCall bootStart bootStart bootCall_found bootCall_fits
      .start).2 hrec
  · exact (applypatch_partition_safe_when bootCall bootStart bootCrashed bootCall_found bootCall_fits
      (.rerun .start hrec run_bootCrashed)).1

end Sample

/-- Two runs lose the contents: the first is cut off while it writes the partition, and the second
opens the saved copy for writing, finds nothing to save, and returns one. -/
theorem applypatch_partition_unsafe :
    Sample.bootCall.found Sample.bootStart = some Sample.bootCall.S ∧
      Sample.bootCall.Fits Sample.bootStart ∧
      Sample.bootSecond.2 = some 1 ∧
      Reachable fsMachine (applypatch Sample.libs Sample.bootCall.args) Sample.bootStart
        Sample.bootSecond.1 ∧
      ¬ Sample.bootCall.Recoverable Sample.bootSecond.1 := by
  refine ⟨Sample.bootCall_found, Sample.bootCall_fits, by decide, ?_, ?_⟩
  · refine .rerun (.rerun .start trivial Sample.run_bootCrashed) trivial (exec_run ?_ _ 0 _)
    intro _ s o
    exact smoothReply_allowed (1, 1000) s o
  · have hparts : Sample.bootSecond.1.parts (cstr "boot") = some (cstr "z") := by decide
    have hcache : Sample.bootSecond.1.files cacheTempSource = some ⟨[], ⟨0o644, 0, 0⟩⟩ := by decide
    rintro (⟨dev, hdev, hx⟩ | ⟨dev, hdev, hx⟩ | ⟨f, hf, hx⟩)
    · cases hparts.symm.trans hdev
      revert hx
      decide
    · cases hparts.symm.trans hdev
      revert hx
      decide
    · cases hcache.symm.trans hf
      revert hx
      decide

end OpenRecovery.ApplyPatch
