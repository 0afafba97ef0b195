import OpenRecovery.ApplyPatch.SourceKept

/-!
# `applypatch_check`

The function that update scripts call before `applypatch`, and that both make the same choice
between a file and the saved copy. `Loading` says how loading a file ends, whatever was in the
object that receives the contents; `checkFrom_agrees` compares the two functions case by case.
-/

set_option autoImplicit false

namespace OpenRecovery.ApplyPatch

open OpenRecovery.Crash OpenRecovery.Edify OpenRecovery.Storage

/-- The second half of `applypatch_check`: the saved copy. -/
def checkCopy (L : Libs) (sha1s : List Bytes) (file : FileContents) : FsProg Int := do
  let (r, file) ← loadFileContents L cacheTempSource file true
  if r ≠ 0 then return 1
  else if findMatchingPatch file.sha1 sha1s = none then return 1
  else return 0

/-- `applypatch_check`, with the local object given. -/
def checkFrom (L : Libs) (filename : Name) (sha1s : List Bytes) (file : FileContents) :
    FsProg Int := do
  let (r, file) ← loadFileContents L filename { file with data := none } true
  -- without digests the check passes if the file can be loaded
  if r ≠ 0 ∨ (sha1s ≠ [] ∧ findMatchingPatch file.sha1 sha1s = none) then checkCopy L sha1s file
  else return 0

/-- `applypatch_check`. -/
def applypatchCheck (L : Libs) (filename : Name) (sha1s : List Bytes) : FsProg Int := do
  let file ← sysUninit
  checkFrom L filename sha1s file

/-! ## How loading ends -/

/-- The ends of a program that loads contents, whatever was in the object before: the process dies,
loading fails, or it gives these contents. -/
inductive Loading (L : Libs) (s : Fs) (p : FileContents → FsProg (Int × FileContents)) : Prop
  | dies (h : ∀ f, readResult s (p f) = none)
  | fails (h : ∀ f, ∃ g, readResult s (p f) = some (-1, g) ∧ g.data = none)
  | gives (g : FileContents) (d : Bytes) (hg : Loaded L g d) (h : ∀ f, readResult s (p f) = some (0, g))

section Load

variable (L : Libs) (s : Fs)

theorem loading_matchPairs (dev : Bytes) (ps : List (Nat × Option Bytes)) (got : Nat) :
    Loading L s fun f => matchPairs L dev f ps got := by
  induction ps generalizing got with
  | nil => exact .fails fun f => ⟨_, rfl, rfl⟩
  | cons p ps ih =>
      obtain ⟨size, sha⟩ := p
      simp only [matchPairs]
      by_cases hdev : dev.length < size
      · simp only [if_pos hdev]
        exact .fails fun f => ⟨_, rfl, rfl⟩
      · simp only [if_neg hdev]
        cases sha with
        | none => exact .dies fun _ => rfl
        | some str =>
            cases hparse : parseSha1 str with
            | none =>
                simp only [hparse]
                exact .fails fun f => ⟨_, rfl, rfl⟩
            | some parsed =>
                simp only [hparse]
                by_cases heq : L.sha1 (dev.take size) = parsed
                · simp only [if_pos heq]
                  refine .gives _ (dev.take size) ⟨rfl, ?_, rfl⟩ fun _ => rfl
                  rw [List.length_take, Nat.min_eq_left (Nat.not_lt.1 hdev)]
                · simp only [if_neg heq]
                  exact ih size

/-- A program that goes on with the object as it is. -/
theorem Loading.bind {α : Type} {q : FsProg α} (hq : ReadOnly q)
    {p : α → FileContents → FsProg (Int × FileContents)} (h : ∀ a, Loading L s (p a)) :
    Loading L s fun f => q >>= fun a => p a f := by
  cases hres : readResult s q with
  | none => exact .dies fun f => by rw [hq.readResult_bind, hres]; rfl
  | some a =>
      have hbind : ∀ f, readResult s (q >>= fun a => p a f) = readResult s (p a f) := by
        intro f
        rw [hq.readResult_bind, hres]
        rfl
      cases h a with
      | dies h => exact .dies fun f => (hbind f).trans (h f)
      | fails h =>
          refine .fails fun f => ?_
          rw [hbind]
          exact h f
      | gives g d hg h => exact .gives g d hg fun f => (hbind f).trans (h f)

/-- The object may be changed before the program starts. -/
theorem Loading.comap {p : FileContents → FsProg (Int × FileContents)} (h : Loading L s p)
    (e : FileContents → FileContents) : Loading L s fun f => p (e f) := by
  cases h with
  | dies h => exact .dies fun f => h (e f)
  | fails h => exact .fails fun f => h (e f)
  | gives g d hg h => exact .gives g d hg fun f => h (e f)

theorem loading_fail : Loading L s fun f => pure (-1, { f with data := none }) :=
  .fails fun _ => ⟨_, rfl, rfl⟩

theorem loading_halt : Loading L s fun _ => .halt := .dies fun _ => rfl

theorem loading_partition (n : Name) :
    Loading L s fun f => loadPartitionContents L n { f with data := none } := by
  simp only [loadPartitionContents]
  cases strtok colon n with
  | nil => exact loading_halt L s
  | cons magic tokens =>
      by_cases hmagic : magic = cstr "EMMC"
      · simp only [hmagic, ne_eq, not_true_eq_false, if_false]
        refine Loading.bind L s (readOnly_readPairs L _ _) fun res => ?_
        cases res with
        | none => exact loading_fail L s
        | some ps =>
            cases tokens.head? with
            | none => exact loading_halt L s
            | some dev =>
                refine Loading.bind L s (readOnly_sysLoadPart dev) fun content => ?_
                cases content with
                | none => exact loading_fail L s
                | some d =>
                    by_cases hnil : ps = []
                    · simp only [if_pos hnil]
                      exact loading_halt L s
                    · simp only [if_neg hnil]
                      exact (loading_matchPairs L s d _ 0).comap L s fun f => { f with data := none }
      · simp only [ne_eq, hmagic, not_false_eq_true, if_true]
        exact loading_fail L s

/-- Loading a file or a partition. -/
theorem loading_file (n : Name) : Loading L s fun f => loadFileContents L n f true := by
  cases hn : isEmmc n with
  | true =>
      have heq : ∀ f, loadFileContents L n f true =
          loadPartitionContents L n { f with data := none } := by
        intro f
        simp only [loadFileContents, hn, if_true]
      simp only [heq]
      exact loading_partition L s n
  | false =>
      simp only [loadFileContents_eq L hn]
      refine Loading.bind L s (readOnly_sysLoad n) fun node => ?_
      cases node with
      | none => exact .fails fun f => ⟨_, rfl, rfl⟩
      | some v =>
          have hlen := Retouch.length_retouchMaskData v.data (some 0)
          rcases hm : Retouch.retouchMaskData v.data (some 0) with ⟨res, x, off⟩
          rw [hm] at hlen
          simp only [loadNode, if_true, hm]
          cases res with
          | matched => exact .gives _ x ⟨rfl, congrArg Int.ofNat hlen.symm, rfl⟩ fun _ => rfl
          | error => exact .fails fun f => ⟨_, rfl, rfl⟩
          | mismatched => exact .fails fun f => ⟨_, rfl, rfl⟩
          | notApplicable => exact .fails fun f => ⟨_, rfl, rfl⟩

/-- Loading a regular file ends. -/
theorem not_dies_file {n : Name} (hn : isEmmc n = false) (f : FileContents) :
    readResult s (loadFileContents L n f true) ≠ none := by
  rw [readResult_loadFile L hn]
  exact Option.some_ne_none _

end Load

/-! ## The two choices -/

section Choice

variable {L : Libs} {s : Fs}

/-- `applypatch` of a file in place. -/
def inPlaceArgs (filename : Name) (targetSha1Str : Bytes) (targetSize : Nat)
    (patches : List (Bytes × Option Value)) : PatchArgs :=
  ⟨filename, cstr "-", targetSha1Str, targetSize, patches⟩

theorem findMatchingPatch_some {d : Bytes} {sha1s : List Bytes} {i : Nat}
    (h : findMatchingPatch d sha1s = some i) : ∃ str, sha1s[i]? = some str ∧ parseSha1 str = some d := by
  obtain ⟨hi, hp, -⟩ := List.findIdx?_eq_some_iff_getElem.1 h
  exact ⟨sha1s[i], List.getElem?_eq_getElem hi, of_decide_eq_true hp⟩

/-- With a value for every digest there is a patch exactly for the digests listed. -/
theorem patchFor_eq_none {a : PatchArgs} (hvalues : ∀ p ∈ a.patches, p.2 ≠ none) {d : Bytes} :
    a.patchFor d = none ↔ findMatchingPatch d (a.patches.map Prod.fst) = none := by
  unfold PatchArgs.patchFor
  cases h : findMatchingPatch d (a.patches.map Prod.fst) with
  | none => exact iff_of_true rfl rfl
  | some i =>
      obtain ⟨str, hstr, -⟩ := findMatchingPatch_some h
      rw [List.getElem?_map] at hstr
      obtain ⟨p, hp, -⟩ := Option.map_eq_some_iff.1 hstr
      simp only [hp, Option.bind_some, reduceCtorEq, iff_false]
      exact hvalues p (List.mem_of_getElem? hp)

/-- The outcomes of the check and of the selection: both die, both find contents with a listed
digest, or both refuse. -/
inductive Agrees (L : Libs) (sha1s : List Bytes) : Option Int → Option (Except Int Selection) → Prop
  | die : Agrees L sha1s none none
  | accept (sel : Selection) (d : Bytes) (hloaded : Loaded L sel.toUse.1 d)
      (hlisted : ∃ str ∈ sha1s, parseSha1 str = some (L.sha1 d)) :
      Agrees L sha1s (some 0) (some (.ok sel))
  | refuse : Agrees L sha1s (some 1) (some (.error 1))

theorem listed_of_match {d x : Bytes} {sha1s : List Bytes} (hx : d = L.sha1 x)
    (h : findMatchingPatch d sha1s ≠ none) : ∃ str ∈ sha1s, parseSha1 str = some (L.sha1 x) := by
  obtain ⟨i, hi⟩ := Option.ne_none_iff_exists'.1 h
  obtain ⟨str, hstr, hparse⟩ := findMatchingPatch_some hi
  exact ⟨str, List.mem_of_getElem? hstr, hx ▸ hparse⟩

/-- Both take the saved copy under the same condition. -/
theorem checkCopy_agrees {a : PatchArgs} (hvalues : ∀ p ∈ a.patches, p.2 ≠ none)
    (file source copy : FileContents) :
    Agrees L (a.patches.map Prod.fst)
      (readResult s (checkCopy L (a.patches.map Prod.fst) file))
      (readResult s (chooseCopy L a source copy)) := by
  have hfile : isEmmc cacheTempSource = false := by decide
  rw [checkCopy, chooseCopy, (readOnly_loadFileContents L _ _ _).readResult_bind,
    (readOnly_loadFileContents L _ _ _).readResult_bind]
  cases loading_file L s cacheTempSource with
  | dies h => exact absurd (h file) (not_dies_file L s hfile file)
  | fails h =>
      obtain ⟨g, hg, -⟩ := h file
      obtain ⟨g', hg', -⟩ := h copy
      rw [hg, hg']
      exact .refuse
  | gives g d hloaded h =>
      rw [h file, h copy]
      simp only [Option.bind_some, ne_eq, not_true_eq_false, if_false, lt_irrefl]
      cases hpatch : a.patchFor g.sha1 with
      | none =>
          rw [if_pos ((patchFor_eq_none hvalues).1 hpatch)]
          exact .refuse
      | some v =>
          have hmatch : findMatchingPatch g.sha1 (a.patches.map Prod.fst) ≠ none := by
            rw [ne_eq, ← patchFor_eq_none hvalues, hpatch]
            exact Option.some_ne_none v
          rw [if_neg hmatch]
          exact .accept _ d hloaded (listed_of_match hloaded.2.2 hmatch)

/-- Without a match in the file itself, both turn to the saved copy. -/
theorem chooseSource_copy {a : PatchArgs} {sha : Bytes} {copy g src : FileContents} {r : Int}
    (hnot : ¬ (r = 0 ∧ g.sha1 = sha)) (hsource : readResult s (loadSource L a g) = some src)
    (hpatch : a.patchForFile src = none) :
    readResult s (chooseSource L a sha copy r g) = readResult s (chooseCopy L a src copy) := by
  rw [chooseSource, if_neg hnot, (readOnly_loadSource L a g).readResult_bind, hsource]
  simp only [Option.bind_some, hpatch]

/-- Both functions, with their local objects given. -/
theorem checkFrom_agrees {a : PatchArgs} (hplace : a.target = a.sourceFilename)
    (hne : a.patches ≠ []) (hvalues : ∀ p ∈ a.patches, p.2 ≠ none) {sha : Bytes}
    (hnot : ∀ f g, readResult s (loadFileContents L a.sourceFilename f true) = some (0, g) →
      g.sha1 ≠ sha) (checked copy file : FileContents) :
    Agrees L (a.patches.map Prod.fst)
      (readResult s (checkFrom L a.sourceFilename (a.patches.map Prod.fst) checked))
      (readResult s (selectFrom L a sha copy file)) := by
  have hlist : a.patches.map Prod.fst ≠ [] := by simpa using hne
  rw [checkFrom, selectFrom, hplace, (readOnly_loadFileContents L _ _ _).readResult_bind,
    (readOnly_loadFileContents L _ _ _).readResult_bind]
  cases loading_file L s a.sourceFilename with
  | dies h =>
      rw [h, h]
      exact .die
  | fails h =>
      obtain ⟨g, hg, -⟩ := h { checked with data := none }
      obtain ⟨g', hg', hnone⟩ := h file
      obtain ⟨src, hsrc, hsrcNone⟩ := h g'
      have hsource : readResult s (loadSource L a g') = some src := by
        rw [loadSource, if_pos (.inl hnone), (readOnly_loadFileContents L _ _ _).readResult_bind, hsrc]
        rfl
      have hfailed : (-1 : Int) ≠ 0 := by decide
      simp only [hg, hg', Option.bind_some]
      rw [if_pos (.inl hfailed), chooseSource_copy (fun h => hfailed h.1) hsource (if_pos hsrcNone)]
      exact checkCopy_agrees hvalues g src copy
  | gives g d hloaded h =>
      have hdata : ¬ g.data = none := by
        rw [hloaded.1]
        exact Option.some_ne_none d
      have hsource : readResult s (loadSource L a g) = some g := by
        rw [loadSource, if_neg fun h => h.elim hdata fun h => h hplace]
        rfl
      have hother : ¬ ((0 : Int) = 0 ∧ g.sha1 = sha) := fun h' => hnot file g (h file) h'.2
      have hpatch : a.patchForFile g = a.patchFor g.sha1 := if_neg hdata
      simp only [h, Option.bind_some]
      cases hfor : a.patchFor g.sha1 with
      | none =>
          have hmatch := (patchFor_eq_none hvalues).1 hfor
          rw [if_pos (.inr ⟨hlist, hmatch⟩), chooseSource_copy hother hsource (hpatch.trans hfor)]
          exact checkCopy_agrees hvalues g g copy
      | some v =>
          have hmatch : findMatchingPatch g.sha1 (a.patches.map Prod.fst) ≠ none := by
            rw [ne_eq, ← patchFor_eq_none hvalues, hfor]
            exact Option.some_ne_none v
          have hselect : readResult s (chooseSource L a sha copy 0 g) =
              some (.ok ⟨g, copy, some v, none⟩) := by
            rw [chooseSource, if_neg hother, (readOnly_loadSource L a g).readResult_bind, hsource]
            simp only [Option.bind_some, hpatch, hfor]
            rfl
          rw [hselect, if_neg fun h => h.elim (absurd rfl) fun h => hmatch h.2]
          exact .accept _ d hloaded (listed_of_match hloaded.2.2 hmatch)

end Choice

/-! ## Whole runs -/

section Runs

variable {L : Libs} {s t : Fs}

theorem readOnly_checkFrom (L : Libs) (n : Name) (sha1s : List Bytes) (file : FileContents) :
    ReadOnly (checkFrom L n sha1s file) := by
  refine (readOnly_loadFileContents L _ _ _).bind fun x => ?_
  simp only
  split
  · refine (readOnly_loadFileContents L _ _ _).bind fun y => ?_
    simp only
    split
    · exact readOnly_pure _
    · split
      · exact readOnly_pure _
      · exact readOnly_pure _
  · exact readOnly_pure _

/-- A program that only reads runs to its result. -/
theorem run_of_readResult {α : Type} {p : FsProg α} (hp : ReadOnly p) {a : α}
    (h : readResult s p = some a) : Run fsMachine s p s (some a) := by
  induction hp with
  | ret b =>
      cases h
      exact .ret s a
  | halt => cases h
  | load _ ih => exact .step _ rfl (ih _ h)
  | loadPart _ ih => exact .step _ rfl (ih _ h)

theorem run_applypatchCheck {n : Name} {sha1s : List Bytes} {r : Int} :
    Run fsMachine s (applypatchCheck L n sha1s) t (some r) ↔
      t = s ∧ ∃ file, readResult s (checkFrom L n sha1s file) = some r := by
  constructor
  · intro h
    have hwp : wp fsMachine (fun r t => t = s ∧ ∃ file, readResult s (checkFrom L n sha1s file) =
        some r) Unless (applypatchCheck L n sha1s) s := by
      rw [applypatchCheck, wp_bind, wp_sysUninit]
      refine ⟨trivial, fun file => ?_⟩
      exact (readOnly_checkFrom L n sha1s file).wp trivial fun r hr => ⟨rfl, file, hr⟩
    exact (wp_iff_run _ _).1 hwp t (some r) h
  · rintro ⟨rfl, file, h⟩
    exact .step (o := Op.uninit) file trivial (run_of_readResult (readOnly_checkFrom L n sha1s file) h)

theorem run_selectSource_of {a : PatchArgs} {sha : Bytes} {copy file : FileContents}
    {res : Except Int Selection} (h : readResult s (selectFrom L a sha copy file) = some res) :
    Run fsMachine s (selectSource L a sha) s (some res) :=
  .step (o := Op.uninit) copy trivial (.step (o := Op.uninit) file trivial
    (run_of_readResult (readOnly_selectFrom L a sha copy file) h))

end Runs

/-- For a file that does not have the target digest, `applypatch_check` returns if the selection of
`applypatch` does, and returns zero exactly when that finds contents to patch; these have a listed
digest. -/
theorem applypatch_check_predicts (L : Libs) (filename : Name) (targetSha1Str : Bytes)
    (targetSize : Nat) (patches : List (Bytes × Option Value)) (hne : patches ≠ [])
    (hvalues : ∀ p ∈ patches, p.2 ≠ none) (sha : Bytes) (hsha : parseSha1 targetSha1Str = some sha)
    (s : Fs) (hnot : ∀ f g, readResult s (loadFileContents L filename f true) = some (0, g) →
      g.sha1 ≠ sha) :
    applypatch L (inPlaceArgs filename targetSha1Str targetSize patches) =
      selectSource L (inPlaceArgs filename targetSha1Str targetSize patches) sha >>=
        patchSelected L (inPlaceArgs filename targetSha1Str targetSize patches) sha ∧
    (∀ t r t' res, Run fsMachine s (applypatchCheck L filename (patches.map Prod.fst)) t (some r) →
      Run fsMachine s (selectSource L (inPlaceArgs filename targetSha1Str targetSize patches) sha) t'
        (some res) → (r = 0 ↔ ∃ sel, res = .ok sel)) ∧
    ((∃ t r, Run fsMachine s (applypatchCheck L filename (patches.map Prod.fst)) t (some r)) ↔
      ∃ t res, Run fsMachine s
        (selectSource L (inPlaceArgs filename targetSha1Str targetSize patches) sha) t (some res)) ∧
    ∀ t sel, Run fsMachine s
        (selectSource L (inPlaceArgs filename targetSha1Str targetSize patches) sha) t
        (some (.ok sel)) →
      ∃ d, sel.toUse.1.data = some d ∧ sel.toUse.1.sha1 = L.sha1 d ∧
        ∃ str ∈ patches.map Prod.fst, parseSha1 str = some (L.sha1 d) := by
  have hagrees : ∀ checked copy file, Agrees L (patches.map Prod.fst)
      (readResult s (checkFrom L filename (patches.map Prod.fst) checked))
      (readResult s (selectFrom L (inPlaceArgs filename targetSha1Str targetSize patches) sha copy
        file)) := checkFrom_agrees (a := inPlaceArgs filename targetSha1Str targetSize patches) rfl hne
    hvalues hnot
  refine ⟨?_, ?_, ⟨?_, ?_⟩, ?_⟩
  · rw [applypatch]
    simp only [inPlaceArgs, hsha]
  · intro t r t' res hcheck hselect
    obtain ⟨-, checked, hr⟩ := run_applypatchCheck.1 hcheck
    obtain ⟨-, copy, file, hres⟩ := run_selectSource hselect
    have h := hagrees checked copy file
    rw [hr, hres] at h
    cases h with
    | accept sel d _ _ => exact iff_of_true rfl ⟨sel, rfl⟩
    | refuse => exact iff_of_false (by decide) (by rintro ⟨sel, h⟩; cases h)
  · rintro ⟨t, r, hcheck⟩
    obtain ⟨-, checked, hr⟩ := run_applypatchCheck.1 hcheck
    have h := hagrees checked checked checked
    rw [hr] at h
    generalize hres : readResult s (selectFrom L _ sha checked checked) = out at h
    cases h with
    | accept sel d _ _ => exact ⟨s, _, run_selectSource_of hres⟩
    | refuse => exact ⟨s, _, run_selectSource_of hres⟩
  · rintro ⟨t, res, hselect⟩
    obtain ⟨-, copy, file, hres⟩ := run_selectSource hselect
    have h := hagrees file copy file
    rw [hres] at h
    generalize hr : readResult s (checkFrom L filename _ file) = out at h
    cases h with
    | accept sel d _ _ => exact ⟨s, 0, run_applypatchCheck.2 ⟨rfl, file, hr⟩⟩
    | refuse => exact ⟨s, 1, run_applypatchCheck.2 ⟨rfl, file, hr⟩⟩
  · intro t sel hselect
    obtain ⟨-, copy, file, hres⟩ := run_selectSource hselect
    have h := hagrees file copy file
    rw [hres] at h
    generalize readResult s (checkFrom L filename _ file) = out at h
    cases h with
    | accept sel d hloaded hlisted => exact ⟨d, hloaded.1, hloaded.2.2, hlisted⟩

namespace Sample

/-- Only the saved copy is there. -/
def onlyCopy : Fs where
  files n := if n = cacheTempSource then some ⟨cstr "a", ⟨0o644, 0, 0⟩⟩ else none
  parts _ := none
  opened _ := false

end Sample

/-- With the saved copy alone the check of `/system/x` returns zero, and `applypatch` selects
contents. -/
theorem applypatch_check_onlyCopy :
    Run fsMachine Sample.onlyCopy (applypatchCheck Sample.libs (cstr "/system/x")
        [Sample.hex (cstr "a")]) Sample.onlyCopy (some 0) ∧
      ∃ t sel, Run fsMachine Sample.onlyCopy (selectSource Sample.libs
        (inPlaceArgs (cstr "/system/x") (Sample.hex (cstr "b")) 1
          [(Sample.hex (cstr "a"), some (Sample.rawPatch (cstr "b")))])
        (Sample.sha1 (cstr "b"))) t (some (.ok sel)) := by
  have hzero : readResult Sample.onlyCopy (checkFrom Sample.libs (cstr "/system/x")
      [Sample.hex (cstr "a")] ⟨[], none, 0, newStat⟩) = some 0 := by decide +kernel
  have hcheck := run_applypatchCheck.2 ⟨rfl, _, hzero⟩
  have hspec := applypatch_check_predicts Sample.libs (cstr "/system/x") (Sample.hex (cstr "b")) 1
    [(Sample.hex (cstr "a"), some (Sample.rawPatch (cstr "b")))] (by simp) (by simp)
    (Sample.sha1 (cstr "b")) (by decide) Sample.onlyCopy (by
      intro f g h
      rw [readResult_loadFile Sample.libs (by decide)] at h
      cases h)
  obtain ⟨t, res, hselect⟩ := hspec.2.2.1.1 ⟨_, _, hcheck⟩
  obtain ⟨sel, rfl⟩ := (hspec.2.1 _ _ _ _ hcheck hselect).1 rfl
  exact ⟨hcheck, t, sel, hselect⟩

end OpenRecovery.ApplyPatch
