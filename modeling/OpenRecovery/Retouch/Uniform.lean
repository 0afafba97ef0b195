import OpenRecovery.Retouch.LibrarySpec
import OpenRecovery.Updater.Script

/-!
# One shift for all libraries

`RetouchBinariesFn` run against the file system: its calls of `retouch_one_library` are the programs
of `OneLibrary`, the clock and `/dev/random` give any numbers. `Shifted d x` says that a library
that is retouchable and has an entry probes as retouched to `d`.

A call of `retouch_one_library` that returns true leaves its library with the offset it reports
(`wp_retouchOneLibrary`) and every other file as it was, or removed. The loop keeps the invariant
`Negotiated`: as long as no offset is settled, all libraries seen are not retouchable, and once one
is settled, all libraries seen have it. `retouchBinaries_uniform` is the result for every start
state, so also for what an earlier call with another random offset left behind.
-/

set_option autoImplicit false

namespace OpenRecovery.Retouch

open OpenRecovery.ApplyPatch OpenRecovery.Crash OpenRecovery.Edify OpenRecovery.Storage
open OpenRecovery.Updater

/-! ## Files that are only lost -/

/-- The files outside `N` are as they were, or gone. -/
def OnlyLost (N : Name → Prop) (s t : Fs) : Prop :=
  ∀ n, ¬ N n → t.files n = s.files n ∨ t.files n = none

theorem OnlyLost.refl (N : Name → Prop) (s : Fs) : OnlyLost N s s := fun _ _ => .inl rfl

theorem OnlyLost.trans {N : Name → Prop} {s t u : Fs} (h : OnlyLost N s t) (h' : OnlyLost N t u) :
    OnlyLost N s u := by
  intro n hn
  rcases h' n hn with h₁ | h₁
  · rw [h₁]
    exact h n hn
  · exact .inr h₁

theorem onlyLost_of_sameExcept {N : Name → Prop} {s t : Fs} (h : SameExcept N s t) :
    OnlyLost N s t := fun n hn => .inl (h.1 n hn)

theorem onlyLost_of_pruned {N : Name → Prop} {s t : Fs} (h : Pruned s t) : OnlyLost N s t :=
  fun n _ => h.lost n

theorem onlyLost_unlink (N : Name → Prop) (s : Fs) (n : Name) : OnlyLost N s (s.set n none) := by
  intro k _
  by_cases hk : k = n
  · rw [hk]
    exact .inr (set_files_self s n none)
  · exact .inl (set_files_of_ne s n none hk)

/-! ## One library -/

/-- A blob with at least one entry. -/
def HasEntry (x : Bytes) : Prop := blobOffs x < retouchOffs x

/-- If the library is retouchable and has an entry, it probes as retouched to `d`. -/
def Shifted (d : BitVec 32) (x : Bytes) : Prop :=
  HasTrailer x → HasEntry x → retouchMaskData x none = (.matched, x, d)

/-- The contents with the digest are not retouchable, or as the external encoder prepares them. -/
def Prepared (L : Libs) (sha1Str : Bytes) : Prop :=
  ∀ x, parseSha1 sha1Str = some (L.sha1 x) → HasTrailer x → ∃ es, Tidy x es

/-- Contents with the right digest, after retouching to `d`. -/
theorem shifted_retouched {L : Libs} {sha1Str : Bytes} (hprep : Prepared L sha1Str) {x : Bytes}
    (hx : parseSha1 sha1Str = some (L.sha1 x)) (d : BitVec 32) : Shifted d (retouched d x) := by
  intro htrailer hentry
  by_cases hx' : HasTrailer x
  · obtain ⟨es, hes⟩ := hprep x hx hx'
    rw [hes.probe_retouched d]
    split
    · -- without entries the blob is empty
      rename_i hnil
      subst hnil
      have hdec := (hes.retouched d).decodes
      have hblob := (hes.retouched d).blob
      exfalso
      generalize hoffs : (blobOffs (retouched d x)).toNat = offs at hdec
      cases hdec
      rw [HasEntry] at hentry
      omega
    · rfl
  · rw [retouched, retouchMaskData_of_not_hasTrailer hx'] at htrailer
    exact absurd htrailer hx'

/-- What a library looks like for which `v` is reported. -/
def Accords (offset : BitVec 32) (override : Option (BitVec 32)) (v : BitVec 32) (x : Bytes) : Prop :=
  Skipped offset override x v ∨ v = offset ∧ Shifted offset x

/-- Without the override only the offset asked for is accepted. -/
theorem Accords.shifted_offset {offset v : BitVec 32} {x : Bytes} (h : Accords offset none v x) :
    Shifted offset x := by
  rcases h with (⟨hprobe, hcond⟩ | ⟨htrailer, -⟩) | ⟨-, hshift⟩
  · rcases hcond with rfl | ⟨-, hno⟩
    · exact fun _ _ => hprobe
    · exact absurd rfl hno
  · exact fun h => absurd h htrailer
  · exact hshift

/-- A reported offset other than zero is the library's. -/
theorem Accords.shifted_of_ne {offset v : BitVec 32} {override : Option (BitVec 32)} {x : Bytes}
    (h : Accords offset override v x) (hv : v ≠ 0) : Shifted v x := by
  rcases h with (⟨hprobe, -⟩ | ⟨-, hzero⟩) | ⟨rfl, hshift⟩
  · exact fun _ _ => hprobe
  · exact absurd hzero hv
  · exact hshift

/-- Zero is reported for libraries that are not retouchable. -/
theorem Accords.not_hasTrailer {offset : BitVec 32} {override : Option (BitVec 32)} {x : Bytes}
    (h : Accords offset override 0 x) (hoff : offset ≠ 0) : ¬ HasTrailer x := by
  rcases h with (⟨-, hcond⟩ | ⟨htrailer, -⟩) | ⟨hzero, -⟩
  · rcases hcond with hzero | ⟨⟨-, hno⟩, -⟩
    · exact absurd hzero hoff
    · exact absurd rfl hno
  · exact htrailer
  · exact absurd hzero.symm hoff

section OneLibrary

variable {L : Libs} {name : Name} {file : FileContents} {y : Bytes} {s : Fs}

/-- The names a call writes to; the saved copy only if it was made. -/
def Written (name : Name) (madeCopy : Bool) (n : Name) : Prop :=
  n = name ∨ n = atomicName name ∨ (madeCopy = true ∧ n = cacheTempSource)

/-- After the loop: the `.atomic` file has the new contents, if it is there. -/
def SavePost (name : Name) (y : Bytes) (s : Fs) (r : Option Bool) (t : Fs) : Prop :=
  ∀ madeCopy, r = some madeCopy → OnlyLost (Written name madeCopy) s t ∧
    ∀ f, t.files (atomicName name) = some f → f.data = y

theorem savePost_saved {t : Fs} (madeCopy : Bool) (h : OnlyLost (Written name madeCopy) s t)
    (hfile : t.files (atomicName name) = some ⟨y, file.st⟩) :
    SavePost name y s (some madeCopy) t := by
  rintro _ ⟨⟩
  refine ⟨h, ?_⟩
  intro f hf
  rw [hfile] at hf
  cases hf
  rfl

theorem wp_saveWithBackup (hd : file.data = some y) (hsize : file.size = y.length) :
    wp fsMachine (SavePost name y s) (fun _ => True) (saveWithBackup L name file) s := by
  unfold saveWithBackup
  rw [wp_bind]
  refine wp_backUp hd hsize (fun _ _ => ⟨trivial, nofun⟩) (fun _ _ _ _ => ⟨trivial, nofun⟩) ?_
  intro p t hp ht _
  refine ⟨trivial, ?_⟩
  have hlost : OnlyLost (Written name true) s (t.set name none) := by
    have hcopy : ∀ n, OnlyFile cacheTempSource n → Written name true n :=
      fun n hn => .inr (.inr ⟨rfl, hn⟩)
    exact ((onlyLost_of_pruned hp).trans (onlyLost_of_sameExcept (ht.mono hcopy))).trans
      (onlyLost_unlink _ t name)
  have hatomic : ∀ {u : Fs}, SameExcept (OnlyFile (atomicName name)) (t.set name none) u →
      OnlyLost (Written name true) s u := fun hu =>
    hlost.trans (onlyLost_of_sameExcept (hu.mono fun n hn => .inr (.inl hn)))
  simp only [if_true]
  rw [wp_bind]
  refine wp_saveAtomic hd hsize (fun _ _ => trivial) ?_ ?_
  · rintro u hu hnone _ ⟨⟩
    refine ⟨hatomic hu, ?_⟩
    intro f hf
    rw [hnone] at hf
    cases hf
  · intro u hu hfile
    exact savePost_saved true (hatomic hu) hfile

theorem wp_saveLibrary (hd : file.data = some y) (hsize : file.size = y.length) (enough : Bool) :
    wp fsMachine (SavePost name y s) (fun _ => True) (saveLibrary L name file enough) s := by
  cases enough with
  | false => exact wp_saveWithBackup hd hsize
  | true =>
      simp only [saveLibrary, if_true]
      rw [wp_bind]
      refine wp_saveAtomic hd hsize (fun _ _ => trivial) ?_ ?_
      · intro t ht _
        have hsame : OnlyLost (Written name true) s t :=
          onlyLost_of_sameExcept (ht.mono fun n hn => .inr (.inl hn))
        simp only [Bool.false_eq_true, if_false]
        refine wp_mono ?_ (fun _ h => h) (wp_saveWithBackup (s := t) hd hsize)
        intro r u hpost madeCopy hr
        obtain ⟨hlost, hfile⟩ := hpost madeCopy hr
        refine ⟨?_, hfile⟩
        refine OnlyLost.trans ?_ hlost
        exact onlyLost_of_sameExcept (ht.mono fun n hn => .inr (.inl hn))
      · intro t ht hfile
        simp only [if_true]
        exact savePost_saved false
          (onlyLost_of_sameExcept (ht.mono fun n hn => .inr (.inl hn))) hfile

/-- A library that was written has the new contents; the other files are as they were, or gone. -/
def WritePost (name : Name) (y : Bytes) (s : Fs) (ok : Bool) (t : Fs) : Prop :=
  ok = true → OnlyLost (fun n => n = name ∨ n = atomicName name) s t ∧
    ∀ f, t.files name = some f → f.data = y

theorem wp_writeLibrary (hd : file.data = some y) (hsize : file.size = y.length) :
    wp fsMachine (WritePost name y s) (fun _ => True) (writeLibrary L name file) s := by
  unfold writeLibrary testLibrarySpace
  rw [Prog.bind_bind, wp_bind]
  refine wp_freeSpaceForFile L _ trivial fun free => ?_
  rw [pure_bind]
  refine wp_seq (wp_saveLibrary hd hsize _) ?_
  intro r t hpost
  cases r with
  | none => exact fun h => absurd h Bool.false_ne_true
  | some madeCopy =>
      obtain ⟨hlost, hatomic⟩ := hpost madeCopy rfl
      refine wp_replaceLibrary (fun _ _ => ⟨trivial, fun h => absurd h Bool.false_ne_true⟩) ?_
      rintro u ⟨hsame, f, f', hf, hf', hdata⟩
      have hy : f'.data = y := hdata.trans (hatomic f hf)
      have hswap : ∀ n, ¬ (n = name ∨ n = atomicName name) → u.files n = t.files n :=
        fun n hn => hsame.1 n hn
      refine ⟨trivial, ?_, ?_⟩
      · rintro rfl _
        refine ⟨?_, ?_⟩
        · intro n hn
          rw [hswap n hn]
          apply hlost n
          rintro (h | h | ⟨h, -⟩)
          · exact hn (.inl h)
          · exact hn (.inr h)
          · exact Bool.false_ne_true h
        · intro f₁ hf₁
          rw [hf'] at hf₁
          cases hf₁
          exact hy
      · rintro rfl _
        refine ⟨?_, ?_⟩
        · intro n hn
          by_cases hcache : n = cacheTempSource
          · rw [hcache]
            exact .inr (set_files_self u _ none)
          · rw [set_files_of_ne u _ none hcache, hswap n hn]
            apply hlost n
            rintro (h | h | ⟨-, h⟩)
            · exact hn (.inl h)
            · exact hn (.inr h)
            · exact hcache h
        · intro f₁ hf₁
          by_cases hcache : name = cacheTempSource
          · rw [hcache, set_files_self] at hf₁
            cases hf₁
          · rw [set_files_of_ne u _ none hcache, hf'] at hf₁
            cases hf₁
            exact hy

/-- A call that returns true: the library has the offset that is reported, and the other files are
as they were, or gone. -/
def CallPost (name : Name) (offset : BitVec 32) (override : Option (BitVec 32)) (s : Fs)
    (r : Bool × BitVec 32) (t : Fs) : Prop :=
  r.1 = true → OnlyLost (· = name) s t ∧
    (isEmmc name = false → ∀ f, t.files name = some f → Accords offset override r.2 f.data)

/-- The removal of the `.atomic` file at the end. -/
theorem onlyLost_unlink_atomic {t : Fs} (h : OnlyLost (fun n => n = name ∨ n = atomicName name) s t) :
    OnlyLost (· = name) s (t.set (atomicName name) none) := by
  intro n hn
  by_cases hatomic : n = atomicName name
  · rw [hatomic]
    exact .inr (set_files_self t _ none)
  · rw [set_files_of_ne t _ none hatomic]
    apply h n
    rintro (h | h)
    · exact hn h
    · exact hatomic h

theorem wp_retouchOneLibrary {sha1Str : Bytes} {offset : BitVec 32}
    {override : Option (BitVec 32)} (hprep : Prepared L sha1Str) :
    wp fsMachine (CallPost name offset override s) (fun _ => True)
      (retouchOneLibrary L name sha1Str offset override) s := by
  have hname : ∀ t : Fs, (t.set (atomicName name) none).files name = t.files name :=
    fun t => set_files_of_ne t _ none (Ne.symm (atomicName_ne name))
  have hfails : ∀ (t : Fs) (stored : Option (BitVec 32)), wp fsMachine
      (CallPost name offset override s) (fun _ => True) (do
        let _ ← sysUnlink (atomicName name)
        return ((false, stored.getD (override.getD 0)) : Bool × BitVec 32)) t := by
    intro t stored
    rw [wp_bind, wp_sysUnlink]
    exact ⟨trivial, fun h => absurd h Bool.false_ne_true⟩
  unfold retouchOneLibrary
  rw [wp_bind]
  refine wp_loadLibrary trivial ?_
  intro file src hsrc
  cases src with
  | skip v =>
      rw [wp_bind, retouchSource, Prog.pure_eq_ret, wp_ret]
      simp only
      rw [wp_bind, wp_sysUnlink]
      refine ⟨trivial, fun _ => ⟨onlyLost_unlink_atomic (.refl _ _), ?_⟩⟩
      intro hn f hf
      rw [hname] at hf
      obtain ⟨f', hf', hskip⟩ := loadFrom_skip hn hsrc
      rw [hf] at hf'
      cases hf'
      exact .inl hskip
  | missing => exact hfails s none
  | contents f =>
      obtain ⟨x, hloaded, hx⟩ := loadFrom_contents hsrc
      have hlen := length_retouchMaskData x (some offset)
      have hdef : retouched offset x = (retouchMaskData x (some offset)).2.1 := rfl
      rw [wp_bind, retouchSource, hloaded.1, Option.getD_some]
      rcases hm : retouchMaskData x (some offset) with ⟨res, y, off⟩
      rw [hm] at hlen hdef
      simp only at hlen hdef
      cases res with
      | matched =>
          simp only [retouchContents]
          refine wp_seq (wp_writeLibrary rfl (by rw [hlen]; exact hloaded.2.1)) ?_
          intro ok t hpost
          cases ok with
          | false => exact hfails t (some offset)
          | true =>
              obtain ⟨hlost, hfile⟩ := hpost rfl
              rw [Prog.pure_eq_ret, wp_ret]
              simp only
              rw [wp_bind, wp_sysUnlink]
              refine ⟨trivial, fun _ => ⟨onlyLost_unlink_atomic hlost, ?_⟩⟩
              intro _ f₁ hf₁
              rw [hname] at hf₁
              rw [hfile f₁ hf₁, ← hdef]
              exact .inr ⟨rfl, shifted_retouched hprep hx offset⟩
      | error => exact hfails s none
      | mismatched => exact hfails s none
      | notApplicable => exact hfails s none

end OneLibrary

/-! ## The function on the file system -/

/-- What the calls of `RetouchBinariesFn` do: `retouch_one_library` works on the file system, the
clock shows `time` and `/dev/random` gives `bits`. The other functions' calls do not occur. -/
def retouchHost (L : Libs) (time : Int) (bits : Nat) : (o : Sys) → FsProg o.Res
  | .own (.retouchOneLibrary name sha1 offset override) =>
      retouchOneLibrary L name sha1 offset override
  | .own .time => .ret time
  | .own .devRandom => .ret bits
  | .own (.cmdPipe _) => .ret ()
  | .null _ _ _ => .ret ()
  | .args _ _ => .ret ()
  | .outside _ _ _ => .ret ()
  | .own _ => .halt

/-- `retouch_binaries` on the file system. -/
def retouchBinaries (L : Libs) (time : Int) (bits : Nat) (entries : List Bytes) :
    FsProg (Option Value × Option Bytes) :=
  Prog.handle (retouchHost L time bits) (retouchBinariesFn
    (literalCall .retouchBinaries (cstr "retouch_binaries") entries) none)

/-- The libraries with their digests; an entry without a partner is left out. -/
def pairs : List Bytes → List (Name × Bytes)
  | name :: sha1 :: rest => (name, sha1) :: pairs rest
  | _ => []

/-- The loop of `RetouchBinariesFn` on the file system. -/
def retouchLoop (L : Libs) (time : Int) (bits : Nat) (entries : List Bytes) (success : Bool)
    (v : RetouchVars) (m : Option Bytes) : FsProg (Bool × Option Bytes) :=
  Prog.handle (retouchHost L time bits) (pairLoop "retouch" retouchStep entries success v m)

theorem retouchBinaries_eq (L : Libs) (time : Int) (bits : Nat) (entries : List Bytes) :
    retouchBinaries L time bits entries = (do
      let base := randomBase (randomPages time bits)
      let r ← retouchLoop L time bits entries true ⟨base, base, false⟩ none
      return (some (pairResult entries r.1), r.2)) := by
  have hread := readArgs_literalCall .retouchBinaries (cstr "retouch_binaries") entries none
  have hbase : Prog.handle (retouchHost L time bits) (Eval.own chooseBase none) =
      .ret (randomBase (randomPages time bits), none) := rfl
  simp only [retouchBinaries, retouchBinariesFn, Eval.bind, hread, handle_bind]
  simp only [Prog.handle, retouchHost, Prog.bind, retouchArgs, Eval.bind, handle_bind, hbase]
  rfl

/-- One pass of the loop: the override pointer is passed as long as nothing is settled. -/
theorem retouchLoop_cons (L : Libs) (time : Int) (bits : Nat) (name sha1 : Bytes) (rest : List Bytes)
    (v : RetouchVars) (m : Option Bytes) :
    ∃ next : Bool → Option Bytes, retouchLoop L time bits (name :: sha1 :: rest) true v m =
      (do
        let r ← retouchOneLibrary L name sha1 v.randomBase
          (if v.overrideSet then none else some v.overrideBase)
        retouchLoop L time bits rest r.1
          (v.next r.1 (if v.overrideSet then v.overrideBase else r.2)) (next r.1)) := by
  refine ⟨fun ok => if ok then m else some ((cstr "Failed to " ++ cstr "retouch" ++ cstr " '" ++
    name ++ cstr "'.").take 4095), ?_⟩
  have hreport : ∀ (ok : Bool) (vars : RetouchVars) (msg : Bytes),
      Prog.handle (retouchHost L time bits)
        (((report ok msg).bind fun _ => pairLoop "retouch" retouchStep rest ok vars) m) =
      retouchLoop L time bits rest ok vars (if ok then m else some (msg.take 4095)) := by
    intro ok vars msg
    cases ok with
    | true => rfl
    | false => rfl
  have hstep : ∀ (o : Option (BitVec 32)) (f : Bool × BitVec 32 → RetouchVars),
      Prog.handle (retouchHost L time bits)
        (((Eval.own (ask (.retouchOneLibrary name sha1 v.randomBase o) >>= fun r =>
            Prog.ret (r.1, f r))).bind fun r =>
          (report r.1 (cstr "Failed to " ++ cstr "retouch" ++ cstr " '" ++ name ++ cstr "'.")).bind
            fun _ => pairLoop "retouch" retouchStep rest r.1 r.2) m) =
      (retouchOneLibrary L name sha1 v.randomBase o >>= fun r =>
        retouchLoop L time bits rest r.1 (f r) (if r.1 then m else some ((cstr "Failed to " ++
          cstr "retouch" ++ cstr " '" ++ name ++ cstr "'.").take 4095))) := by
    intro o f
    show (retouchOneLibrary L name sha1 v.randomBase o).bind _ = (retouchOneLibrary L name sha1
      v.randomBase o).bind _
    congr 1
    funext r
    exact hreport r.1 (f r) _
  cases hset : v.overrideSet with
  | true =>
      refine Eq.trans ?_ (hstep none fun r => v.next r.1 v.overrideBase)
      simp only [retouchLoop, pairLoop, andThen, retouchStep, hset, if_true]
      rfl
  | false =>
      refine Eq.trans ?_ (hstep (some v.overrideBase) fun r => v.next r.1 r.2)
      simp only [retouchLoop, pairLoop, andThen, retouchStep, hset, if_true, Bool.false_eq_true, if_false]
      rfl

/-- After a failure no library is touched. -/
theorem retouchLoop_false (L : Libs) (time : Int) (bits : Nat) (entries : List Bytes)
    (v : RetouchVars) (m : Option Bytes) :
    ∃ m', retouchLoop L time bits entries false v m = .ret (false, m') := by
  induction entries using List.twoStepInduction generalizing m with
  | nil => exact ⟨m, rfl⟩
  | singleton name => exact ⟨m, rfl⟩
  | cons_cons name sha1 rest ih _ => exact ih _

/-! ## The negotiation -/

/-- The library, if it is a file that is there, has property `P`. -/
def At (P : Bytes → Prop) (s : Fs) (name : Name) : Prop :=
  isEmmc name = false → ∀ f, s.files name = some f → P f.data

/-- A file that is lost has every property. -/
theorem At.onlyLost {P : Bytes → Prop} {s t : Fs} {name k : Name} (h : At P s k)
    (hlost : OnlyLost (· = name) s t) (hk : k ≠ name) : At P t k := by
  intro hemmc f hf
  rcases hlost k hk with hsame | hgone
  · rw [hsame] at hf
    exact h hemmc f hf
  · rw [hgone] at hf
    cases hf

/-- The invariant of the loop, for the libraries seen so far. -/
structure Negotiated (seen : List Name) (v : RetouchVars) (s : Fs) : Prop where
  base : v.randomBase ≠ 0
  settled : v.overrideSet = true → v.overrideBase = v.randomBase ∧
    ∀ n ∈ seen, At (Shifted v.randomBase) s n
  pending : v.overrideSet = false → ∀ n ∈ seen, At (fun x => ¬ HasTrailer x) s n

/-- A call that returns true keeps the invariant. -/
theorem Negotiated.step {seen : List Name} {v : RetouchVars} {s t : Fs} {name : Name}
    {reported : BitVec 32} (h : Negotiated seen v s)
    (hcall : CallPost name v.randomBase (if v.overrideSet then none else some v.overrideBase) s
      (true, reported) t) :
    Negotiated (name :: seen) (v.next true (if v.overrideSet then v.overrideBase else reported)) t := by
  obtain ⟨hlost, haccords⟩ := hcall rfl
  -- the library of this call, and the ones before it
  have hall : ∀ {P : Bytes → Prop}, At P t name → (∀ n ∈ seen, At P s n) →
      ∀ n ∈ name :: seen, At P t n := by
    intro P hname hseen n hn
    by_cases hsame : n = name
    · rw [hsame]
      exact hname
    · rcases List.mem_cons.1 hn with hn | hn
      · exact absurd hn hsame
      · exact (hseen n hn).onlyLost hlost hsame
  cases hset : v.overrideSet with
  | true =>
      obtain ⟨hbase, hseen⟩ := h.settled hset
      simp only [hset, if_true] at haccords ⊢
      have hnext : v.next true v.overrideBase = ⟨v.overrideBase, v.overrideBase, true⟩ := by
        rw [RetouchVars.next, if_pos ⟨rfl, by rw [hbase]; exact h.base⟩]
      rw [hnext, hbase]
      refine ⟨h.base, fun _ => ⟨rfl, ?_⟩, nofun⟩
      exact hall (fun hemmc f hf => (haccords hemmc f hf).shifted_offset) hseen
  | false =>
      have hseen := h.pending hset
      simp only [hset, Bool.false_eq_true, if_false] at haccords ⊢
      by_cases hzero : reported = 0
      · -- a library that is not retouchable settles nothing
        have hnext : v.next true reported = { v with overrideBase := reported } := by
          rw [RetouchVars.next, if_neg fun hne => hne.2 hzero]
        rw [hnext]
        refine ⟨h.base, fun hs => absurd (hset.symm.trans hs) Bool.false_ne_true, fun _ => ?_⟩
        subst hzero
        exact hall (fun hemmc f hf => (haccords hemmc f hf).not_hasTrailer h.base) hseen
      · have hnext : v.next true reported = ⟨reported, reported, true⟩ := by
          rw [RetouchVars.next, if_pos ⟨rfl, hzero⟩]
        rw [hnext]
        refine ⟨hzero, fun _ => ⟨rfl, ?_⟩, nofun⟩
        apply hall
        · exact fun hemmc f hf => (haccords hemmc f hf).shifted_of_ne hzero
        · intro n hn hemmc f hf htrailer
          exact absurd htrailer (hseen n hn hemmc f hf)

/-- In the end there is one offset. -/
theorem Negotiated.uniform {seen : List Name} {v : RetouchVars} {s : Fs} (h : Negotiated seen v s) :
    ∀ n ∈ seen, At (Shifted v.randomBase) s n := by
  intro n hn
  cases hset : v.overrideSet with
  | true => exact (h.settled hset).2 n hn
  | false => exact fun hemmc f hf htrailer => absurd htrailer (h.pending hset n hn hemmc f hf)

/-- The libraries share an offset. -/
def OneShift (names : List Name) (s : Fs) : Prop :=
  ∃ d : BitVec 32, d ≠ 0 ∧ ∀ n ∈ names, At (Shifted d) s n

theorem wp_retouchLoop {L : Libs} {time : Int} {bits : Nat} {entries : List Bytes}
    (hprep : ∀ p ∈ pairs entries, Prepared L p.2) {seen : List Name} {v : RetouchVars}
    {m : Option Bytes} {s : Fs} (h : Negotiated seen v s) :
    wp fsMachine (fun r t => r.1 = true → OneShift (seen ++ (pairs entries).map Prod.fst) t)
      (fun _ => True) (retouchLoop L time bits entries true v m) s := by
  induction entries using List.twoStepInduction generalizing seen v m s with
  | nil =>
      intro _
      simp only [pairs, List.map_nil, List.append_nil]
      exact ⟨_, h.base, h.uniform⟩
  | singleton name =>
      intro _
      simp only [pairs, List.map_nil, List.append_nil]
      exact ⟨_, h.base, h.uniform⟩
  | cons_cons name sha1 rest ih _ =>
      obtain ⟨next, hnext⟩ := retouchLoop_cons L time bits name sha1 rest v m
      rw [hnext]
      refine wp_seq (wp_retouchOneLibrary (hprep (name, sha1) List.mem_cons_self)) ?_
      rintro ⟨ok, reported⟩ t hcall
      cases ok with
      | false =>
          obtain ⟨m', hfalse⟩ := retouchLoop_false L time bits rest
            (v.next false (if v.overrideSet then v.overrideBase else reported)) (next false)
          simp only [hfalse]
          exact fun hok => absurd hok Bool.false_ne_true
      | true =>
          have hrest := ih (fun p hp => hprep p (List.mem_cons_of_mem _ hp)) (m := next true)
            (h.step hcall)
          refine wp_mono ?_ (fun _ h => h) hrest
          intro r u hone hok
          obtain ⟨d, hd, hall⟩ := hone hok
          refine ⟨d, hd, ?_⟩
          intro n hn
          apply hall
          simp only [pairs, List.map_cons, List.mem_append, List.mem_cons] at hn ⊢
          tauto

theorem randomBase_ne_zero (time : Int) (bits : Nat) : randomBase (randomPages time bits) ≠ 0 := by
  have hpages : -1024 < randomPages time bits ∧ randomPages time bits < 1024 := by
    unfold randomPages
    generalize time.tmod 1024 + (bits % 1024 : Nat) = x
    exact ⟨Int.lt_tmod_of_pos x (by decide), Int.tmod_lt_of_pos x (by decide)⟩
  intro hzero
  have hint := congrArg BitVec.toInt hzero
  rw [randomBase, BitVec.toInt_ofInt, show BitVec.toInt (0 : BitVec 32) = 0 from rfl,
    Int.bmod_def] at hint
  split at hint
  · omega
  · omega

/-- If `retouch_binaries` returns `"t"`, then all retouchable libraries of the list that have an
entry probe as retouched to one offset, which is not zero. -/
theorem retouchBinaries_uniform (L : Libs) (time : Int) (bits : Nat) (entries : List Bytes)
    (hprep : ∀ p ∈ pairs entries, Prepared L p.2) (s t : Fs) (m : Option Bytes)
    (h : Run fsMachine s (retouchBinaries L time bits entries) t
      (some (some (stringValue (cstr "t")), m))) :
    ∃ d : BitVec 32, d ≠ 0 ∧ ∀ p ∈ pairs entries, isEmmc p.1 = false → ∀ f, t.files p.1 = some f →
      HasTrailer f.data → HasEntry f.data → retouchMaskData f.data none = (.matched, f.data, d) := by
  have hstart : Negotiated [] ⟨randomBase (randomPages time bits), randomBase (randomPages time bits),
      false⟩ s := ⟨randomBase_ne_zero time bits, nofun, nofun⟩
  have hwp : wp fsMachine (fun r u => r.1 = some (stringValue (cstr "t")) →
      OneShift ((pairs entries).map Prod.fst) u) (fun _ => True)
      (retouchBinaries L time bits entries) s := by
    rw [retouchBinaries_eq]
    refine wp_seq (wp_retouchLoop hprep hstart) ?_
    rintro ⟨ok, m'⟩ u hone hres
    cases ok with
    | true => exact hone rfl
    | false =>
        simp only [pairResult] at hres
        cases hres
  obtain ⟨d, hd, hall⟩ := (wp_iff_run _ _).1 hwp t _ h rfl
  refine ⟨d, hd, ?_⟩
  intro p hp hemmc f hf
  exact hall p.1 (List.mem_map_of_mem hp) hemmc f hf

namespace Sample

/-- The library as it was prepared, and a file that is not retouchable. -/
def twoLibraries : Fs where
  files n :=
    if n = cstr "/system/lib/a.so" then some ⟨library, ⟨0o644, 0, 0⟩⟩
    else if n = cstr "/system/lib/b.so" then some ⟨cstr "b", ⟨0o644, 0, 0⟩⟩
    else none
  parts _ := none
  opened _ := false

def twoEntries : List Bytes :=
  [cstr "/system/lib/b.so", librarySha1, cstr "/system/lib/a.so", librarySha1]

/-- Every call succeeds, and there is much space. -/
def spacious (_ : Nat) (s : Fs) (o : Op) : Event Fs o.Res := .reply (smoothReply (1, 1000) s o)

def twoRun : Fs × Option (Option Value × Option Bytes) :=
  exec fsMachine spacious 0 twoLibraries (retouchBinaries retouchLibs 1 0 twoEntries)

theorem spacious_possible (i : Nat) (s : Fs) (o : Op) : (spacious i s o).Possible fsMachine s o :=
  smoothReply_allowed (1, 1000) s o

theorem retouchLibs_prepared : Prepared retouchLibs librarySha1 := by
  intro x hx _
  rw [eq_library hx]
  exact ⟨_, library_tidy⟩

end Sample

/-- The library is retouched to the random offset; the other file settles nothing. -/
theorem retouchBinaries_uniform_two :
    Sample.twoRun.2 = some (some (stringValue (cstr "t")), none) ∧
      ∃ d : BitVec 32, d ≠ 0 ∧ ∀ f, Sample.twoRun.1.files (cstr "/system/lib/a.so") = some f →
        HasTrailer f.data → HasEntry f.data → retouchMaskData f.data none = (.matched, f.data, d) := by
  have hres : Sample.twoRun.2 = some (some (stringValue (cstr "t")), none) := by decide +kernel
  have hrun : Run fsMachine Sample.twoLibraries
      (retouchBinaries Sample.retouchLibs 1 0 Sample.twoEntries) Sample.twoRun.1 Sample.twoRun.2 :=
    exec_run Sample.spacious_possible _ 0 _
  rw [hres] at hrun
  obtain ⟨d, hd, hall⟩ := retouchBinaries_uniform Sample.retouchLibs 1 0 Sample.twoEntries (by
    intro p hp
    simp only [Sample.twoEntries, pairs, List.mem_cons, List.not_mem_nil, or_false] at hp
    rcases hp with rfl | rfl
    · exact Sample.retouchLibs_prepared
    · exact Sample.retouchLibs_prepared) _ _ _ hrun
  exact ⟨hres, d, hd, hall (cstr "/system/lib/a.so", Sample.librarySha1)
    (by simp [Sample.twoEntries, pairs]) (by decide)⟩

end OpenRecovery.Retouch
