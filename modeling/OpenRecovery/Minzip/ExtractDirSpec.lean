import OpenRecovery.Minzip.TargetPath
import OpenRecovery.Minzip.Untrusted

/-!
# The entries under a directory

The loop visits the entries that a filter over all of them finds (`extractLoop_run`). When all
operations succeed it visits them up to the first link without a target
(`mzExtractRecursive_visits`). Whatever the operations answer, the result is true only if all was
done or the contents or the time of a file could not be set (`mzExtractRecursive_reports_iff`): then
the `ok` that gets the answer is not the one that is returned.
-/

set_option autoImplicit false

namespace OpenRecovery.Minzip

open OpenRecovery.Storage
open OpenRecovery.Crash
open OpenRecovery.ApplyPatch (Decode)

/-! ## Runs of one entry -/

/-- A sequence of operations with their answers. -/
abbrev ExtractTrace := Trace ExtractOp ExtractOp.Res

/-- The operation was answered with success. -/
def Succeeded : (o : ExtractOp) → o.Res → Prop
  | .dirCreateHierarchy .., (r : Bool) => r = true
  | .readEntry .., (r : Option Bytes) => r.isSome
  | .symlink .., (r : Bool) => r = true
  | .creat .., (r : Bool) => r = true
  | .extractToFile .., (r : Bool) => r = true
  | .utime .., (r : Bool) => r = true
  | .callback .., (_ : Unit) => True

/-- The contents or the time of a file could not be set. -/
def FileFailed : (o : ExtractOp) → o.Res → Prop
  | .extractToFile .., (r : Bool) => r = false
  | .utime .., (r : Bool) => r = false
  | _, _ => False

/-- An operation with its answer. -/
def answered (o : ExtractOp) (r : o.Res) : (o : ExtractOp) × o.Res := ⟨o, r⟩

section Entry

variable (args : ExtractArgs)

/-- What `malloc`, `readEntry` and the NUL make of the target of a link. -/
def linkBuffer (e : ZipEntry) (data : Bytes) : Buffer :=
  data.map some ++ List.replicate (e.uncompLen.toNat - data.length) none ++ [some 0]

/-- The entry is treated as a symbolic link. -/
def ExtractArgs.isLink (x : ZipEntry × Nat) : Bool :=
  !args.isDirectory x.2 x.1 && args.flags &&& mzExtractFilesOnly = 0 && mzIsZipEntrySymlink x.1

/-- The entry is a symbolic link whose target is empty, or too long for the memory. -/
def ExtractArgs.stopsAt (x : ZipEntry × Nat) : Bool :=
  args.flags &&& mzExtractDryRun = 0 && args.isLink x &&
    (x.1.uncompLen = 0 || 2 ^ 31 ≤ size (x.1.uncompLen + 1))

/-- The call of the callback. -/
def notifyTrace (path : Bytes) : ExtractTrace :=
  if args.callback then [answered (.callback path) ()] else []

/-- All that is to be done for an entry; `data` is the target of a link. -/
def entryTrace (x : ZipEntry × Nat) (path data : Bytes) : ExtractTrace :=
  (if args.flags &&& mzExtractDryRun ≠ 0 then []
  else if args.isDirectory x.2 x.1 then
    if args.flags &&& mzExtractFilesOnly = 0 then
      [answered (.dirCreateHierarchy path unzipDirmode args.timestamp false) true]
    else []
  else
    answered (.dirCreateHierarchy path unzipDirmode args.timestamp true) true ::
      if args.isLink x then
        [answered (.readEntry x.1 x.1.uncompLen) (some data),
          answered (.symlink (linkBuffer x.1 data) path) true]
      else
        answered (.creat path unzipFilemode) true :: answered (.extractToFile x.1) true ::
          match args.timestamp with
          | none => []
          | some timestamp => [answered (.utime path timestamp) true]) ++
  notifyTrace args path

variable {args}

theorem yields_notify {path : Bytes} {t : ExtractTrace} {out : Option Unit}
    (h : Yields (notify args path) t out) : t = notifyTrace args path ∧ out = some () := by
  rw [notify] at h
  rw [notifyTrace]
  split at h
  · rw [if_pos ‹_›]
    obtain ⟨r, rfl, rfl⟩ := yields_call h
    exact ⟨rfl, rfl⟩
  · rw [if_neg ‹_›]
    exact yields_ret h

/-- The runs of a part: it is done, there is no target for the link, an operation has failed, the
contents or the time of a file could not be set, or the length of a link is -1. -/
inductive PartRun (done noTarget : ExtractTrace → Prop) (negative : Prop) :
    ExtractTrace → EntryEnd → Prop where
  | done {t : ExtractTrace} (h : done t) : PartRun done noTarget negative t (.next true)
  | noTarget {t : ExtractTrace} (h : noTarget t) : PartRun done noTarget negative t (.stop false)
  | failed {t : ExtractTrace} (hfail : ∃ a ∈ t, ¬ Succeeded a.1 a.2)
      (hfile : ∀ a ∈ t, ¬ FileFailed a.1 a.2) : PartRun done noTarget negative t (.stop false)
  | fileFailed {t : ExtractTrace} (h : ∃ a ∈ t, FileFailed a.1 a.2) :
      PartRun done noTarget negative t (.stop true)
  | negative {t : ExtractTrace} (h : negative) (hfile : ∀ a ∈ t, ¬ FileFailed a.1 a.2) :
      PartRun done noTarget negative t .undefined

namespace PartRun

variable {done noTarget done' noTarget' : ExtractTrace → Prop} {negative negative' : Prop}
  {t : ExtractTrace} {r : EntryEnd}

theorem mono (h : PartRun done noTarget negative t r) (hdone : ∀ t, done t → done' t)
    (htarget : ∀ t, noTarget t → noTarget' t) (hneg : negative → negative') :
    PartRun done' noTarget' negative' t r := by
  cases h with
  | done h => exact .done (hdone _ h)
  | noTarget h => exact .noTarget (htarget _ h)
  | failed hfail hfile => exact .failed hfail hfile
  | fileFailed h => exact .fileFailed h
  | negative h hfile => exact .negative (hneg h) hfile

/-- An operation in front. -/
theorem cons {a : (o : ExtractOp) × o.Res} (ha : ¬ FileFailed a.1 a.2)
    (h : PartRun done noTarget negative t r) :
    PartRun (fun t => ∃ t', t = a :: t' ∧ done t') (fun t => ∃ t', t = a :: t' ∧ noTarget t') negative
      (a :: t) r := by
  have hcons : (∀ b ∈ t, ¬ FileFailed b.1 b.2) → ∀ b ∈ a :: t, ¬ FileFailed b.1 b.2 := by
    intro hfile b hb
    rcases List.mem_cons.mp hb with rfl | hb
    · exact ha
    · exact hfile b hb
  cases h with
  | done h => exact .done ⟨t, rfl, h⟩
  | noTarget h => exact .noTarget ⟨t, rfl, h⟩
  | failed hfail hfile =>
      obtain ⟨b, hb, hfail⟩ := hfail
      exact .failed ⟨b, List.mem_cons_of_mem a hb, hfail⟩ (hcons hfile)
  | fileFailed h =>
      obtain ⟨b, hb, h⟩ := h
      exact .fileFailed ⟨b, List.mem_cons_of_mem a hb, h⟩
  | negative h hfile => exact .negative h (hcons hfile)

/-- An operation that fails ends the part, unless it is one on the contents or the time. -/
theorem last {o : ExtractOp} {r : o.Res} (hfail : ¬ Succeeded o r) (hfile : ¬ FileFailed o r) :
    PartRun done noTarget negative [⟨o, r⟩] (.stop false) := by
  refine .failed ⟨_, List.mem_singleton_self _, hfail⟩ ?_
  intro b hb
  rwa [List.mem_singleton.mp hb]

end PartRun

theorem extractDirectory_run {path : Bytes} {t : ExtractTrace} {out : Option EntryEnd}
    (h : Yields (extractDirectory args path true) t out) :
    ∃ r, out = some r ∧ PartRun (fun t => t =
      if args.flags &&& mzExtractFilesOnly = 0 then
        [answered (.dirCreateHierarchy path unzipDirmode args.timestamp false) true]
      else []) (fun _ => False) False t r := by
  rw [extractDirectory] at h
  split at h
  · rename_i hflags
    obtain ⟨created, t', rfl, hrest⟩ := yields_call_bind h
    obtain ⟨rfl, rfl⟩ := yields_ret hrest
    change Bool at created
    cases created with
    | true => exact ⟨_, rfl, .done (if_pos hflags).symm⟩
    | false => exact ⟨_, rfl, .last nofun id⟩
  · rename_i hflags
    obtain ⟨rfl, rfl⟩ := yields_ret h
    exact ⟨_, rfl, .done (if_neg hflags).symm⟩

theorem extractSymlink_run {e : ZipEntry} {path : Bytes} {t : ExtractTrace} {out : Option EntryEnd}
    (h : Yields (extractSymlink e path) t out) :
    ∃ r, out = some r ∧ PartRun
      (fun t => ¬ (e.uncompLen = 0 ∨ 2 ^ 31 ≤ size (e.uncompLen + 1)) ∧ ∃ data, t =
        [answered (.readEntry e e.uncompLen) (some data),
          answered (.symlink (linkBuffer e data) path) true])
      (fun t => (e.uncompLen = 0 ∨ 2 ^ 31 ≤ size (e.uncompLen + 1)) ∧ t = [])
      (-2 ^ 31 ≤ e.uncompLen → e.uncompLen = -1) t r := by
  rw [extractSymlink] at h
  split at h
  · obtain ⟨rfl, rfl⟩ := yields_ret h
    exact ⟨_, rfl, .noTarget ⟨.inl ‹_›, rfl⟩⟩
  · split at h
    · obtain ⟨rfl, rfl⟩ := yields_ret h
      exact ⟨_, rfl, .noTarget ⟨.inr ‹_›, rfl⟩⟩
    · rename_i hzero hlarge
      obtain ⟨read, t', rfl, hread⟩ := yields_call_bind h
      change Option Bytes at read
      cases read with
      | none =>
          obtain ⟨rfl, rfl⟩ := yields_ret hread
          exact ⟨_, rfl, .last (by rintro ⟨⟩) id⟩
      | some data =>
          simp only at hread
          split at hread
          · obtain ⟨rfl, rfl⟩ := yields_ret hread
            refine ⟨_, rfl, .negative ?_ ?_⟩
            · intro hlow
              rw [size] at hlarge
              omega
            · intro b hb
              rw [List.mem_singleton.mp hb]
              exact id
          · obtain ⟨linked, t₂, rfl, hlinked⟩ := yields_call_bind hread
            obtain ⟨rfl, rfl⟩ := yields_ret hlinked
            change Bool at linked
            cases linked with
            | true => exact ⟨_, rfl, .done ⟨not_or.mpr ⟨hzero, hlarge⟩, data, rfl⟩⟩
            | false =>
                refine ⟨_, rfl,
                  .failed ⟨_, List.mem_cons_of_mem _ (List.mem_singleton_self _), by rintro ⟨⟩⟩ ?_⟩
                intro b hb
                rcases List.mem_cons.mp hb with rfl | hb
                · exact id
                · rw [List.mem_singleton.mp hb]
                  exact id

theorem extractFile_run {e : ZipEntry} {path : Bytes} {t : ExtractTrace} {out : Option EntryEnd}
    (h : Yields (extractFile args e path true) t out) :
    ∃ r, out = some r ∧ PartRun (fun t => t =
      answered (.creat path unzipFilemode) true :: answered (.extractToFile e) true ::
        match args.timestamp with
        | none => []
        | some timestamp => [answered (.utime path timestamp) true]) (fun _ => False) False t r := by
  rw [extractFile] at h
  obtain ⟨opened, t', rfl, hopened⟩ := yields_call_bind h
  change Bool at opened
  cases opened with
  | false =>
      obtain ⟨rfl, rfl⟩ := yields_ret hopened
      exact ⟨_, rfl, .last nofun id⟩
  | true =>
      obtain ⟨extracted, t₂, rfl, hextracted⟩ := yields_call_bind hopened
      change Bool at extracted
      cases extracted with
      | false =>
          -- the inner `ok` is false, the outer one is not
          obtain ⟨rfl, rfl⟩ := yields_ret hextracted
          exact ⟨_, rfl, .fileFailed ⟨_, List.mem_cons_of_mem _ (List.mem_singleton_self _), rfl⟩⟩
      | true =>
          simp only [if_true] at hextracted
          cases htime : args.timestamp with
          | none =>
              rw [htime] at hextracted
              obtain ⟨rfl, rfl⟩ := yields_ret hextracted
              exact ⟨_, rfl, .done rfl⟩
          | some timestamp =>
              rw [htime] at hextracted
              obtain ⟨touched, t₃, rfl, htouched⟩ := yields_call_bind hextracted
              obtain ⟨rfl, rfl⟩ := yields_ret htouched
              change Bool at touched
              cases touched with
              | true => exact ⟨_, rfl, .done rfl⟩
              | false => exact ⟨_, rfl, .fileFailed ⟨_, List.mem_of_mem_getLast? rfl, rfl⟩⟩

/-- The runs of an entry. -/
def EntryRun (args : ExtractArgs) (x : ZipEntry × Nat) (path : Bytes) :
    ExtractTrace → EntryEnd → Prop :=
  PartRun (fun t => args.stopsAt x = false ∧ ∃ data, t = entryTrace args x path data)
    (fun t => args.stopsAt x = true ∧
      t = [answered (.dirCreateHierarchy path unzipDirmode args.timestamp true) true])
    (args.isLink x = true ∧ (-2 ^ 31 ≤ x.1.uncompLen → x.1.uncompLen = -1))

/-- The part without the callback. -/
def BodyRun (args : ExtractArgs) (x : ZipEntry × Nat) (path : Bytes) :
    ExtractTrace → EntryEnd → Prop :=
  PartRun (fun t => args.stopsAt x = false ∧
      ∃ data, t ++ notifyTrace args path = entryTrace args x path data)
    (fun t => args.stopsAt x = true ∧
      t = [answered (.dirCreateHierarchy path unzipDirmode args.timestamp true) true])
    (args.isLink x = true ∧ (-2 ^ 31 ≤ x.1.uncompLen → x.1.uncompLen = -1))

theorem extractOther_run {x : ZipEntry × Nat} {path : Bytes} {t : ExtractTrace}
    {out : Option EntryEnd} (hdry : args.flags &&& mzExtractDryRun = 0)
    (hdir : args.isDirectory x.2 x.1 = false) (h : Yields (extractOther args x.1 path true) t out) :
    ∃ r, out = some r ∧ BodyRun args x path t r := by
  rw [extractOther] at h
  obtain ⟨created, t', rfl, hcreated⟩ := yields_call_bind h
  change Bool at created
  cases created with
  | false =>
      obtain ⟨rfl, rfl⟩ := yields_ret hcreated
      exact ⟨_, rfl, .last nofun id⟩
  | true =>
      have hfirst : ¬ FileFailed (.dirCreateHierarchy path unzipDirmode args.timestamp true) true := id
      simp only [if_true] at hcreated
      split at hcreated
      · rename_i hlink
        have hisLink : args.isLink x = true := by
          simp [ExtractArgs.isLink, hdir, hlink.1, hlink.2]
        obtain ⟨r, rfl, hrun⟩ := extractSymlink_run hcreated
        refine ⟨r, rfl, (hrun.cons (a := ⟨_, _⟩) hfirst).mono ?_ ?_ ?_⟩
        · rintro t ⟨t', rfl, hgo, data, rfl⟩
          refine ⟨?_, data, ?_⟩
          · simpa [ExtractArgs.stopsAt, hdry, hisLink, not_or] using hgo
          · simp [entryTrace, hdry, hdir, hisLink, answered]
        · rintro t ⟨t', rfl, hstop, rfl⟩
          refine ⟨?_, rfl⟩
          simpa [ExtractArgs.stopsAt, hdry, hisLink] using hstop
        · exact fun hneg => ⟨hisLink, hneg⟩
      · rename_i hlink
        have hisLink : args.isLink x = false := by
          rw [ExtractArgs.isLink, hdir]
          simpa using hlink
        obtain ⟨r, rfl, hrun⟩ := extractFile_run hcreated
        refine ⟨r, rfl, (hrun.cons (a := ⟨_, _⟩) hfirst).mono ?_ ?_ ?_⟩
        · rintro t ⟨t', rfl, rfl⟩
          refine ⟨?_, [], ?_⟩
          · simp [ExtractArgs.stopsAt, hisLink]
          · simp [entryTrace, hdry, hdir, hisLink, answered]
        · rintro t ⟨t', -, hfalse⟩
          exact hfalse.elim
        · exact False.elim

theorem extractBody_run {x : ZipEntry × Nat} {path : Bytes} {t : ExtractTrace} {out : Option EntryEnd}
    (hdry : args.flags &&& mzExtractDryRun = 0)
    (h : Yields (extractBody args x.2 x.1 path true) t out) :
    ∃ r, out = some r ∧ BodyRun args x path t r := by
  rw [extractBody] at h
  split at h
  · rename_i hdir
    obtain ⟨r, rfl, hrun⟩ := extractDirectory_run h
    refine ⟨r, rfl, hrun.mono ?_ (fun _ => False.elim) False.elim⟩
    rintro t rfl
    refine ⟨?_, [], ?_⟩
    · simp [ExtractArgs.stopsAt, ExtractArgs.isLink, hdir]
    · simp [entryTrace, hdry, hdir]
  · rename_i hdir
    exact extractOther_run hdry (by simpa using hdir) h

theorem extractEntry_run {x : ZipEntry × Nat} {path : Bytes} {t : ExtractTrace}
    {out : Option EntryEnd} (hdry : args.flags &&& mzExtractDryRun = 0)
    (h : Yields (extractEntry args x.2 x.1 path true) t out) :
    ∃ r, out = some r ∧ EntryRun args x path t r := by
  rw [extractEntry] at h
  rcases yields_bind h with ⟨hbody, -⟩ | ⟨t₁, t₂, r, rfl, hbody, hrest⟩
  · obtain ⟨r, hr, -⟩ := extractBody_run hdry hbody
    cases hr
  · obtain ⟨r', hr, hrun⟩ := extractBody_run hdry hbody
    cases hr
    cases hrun with
    | done hdone =>
        obtain ⟨hgo, data, htrace⟩ := hdone
        rcases yields_bind hrest with ⟨hnotify, -⟩ | ⟨t₃, t₄, u, rfl, hnotify, hret⟩
        · exact absurd (yields_notify hnotify).2 nofun
        · obtain ⟨rfl, -⟩ := yields_notify hnotify
          obtain ⟨rfl, rfl⟩ := yields_ret hret
          refine ⟨_, rfl, .done ⟨hgo, data, ?_⟩⟩
          rw [List.append_nil, htrace]
    | noTarget hstop =>
        obtain ⟨rfl, rfl⟩ := yields_ret hrest
        rw [List.append_nil]
        exact ⟨_, rfl, .noTarget hstop⟩
    | failed hfail hfile =>
        obtain ⟨rfl, rfl⟩ := yields_ret hrest
        rw [List.append_nil]
        exact ⟨_, rfl, .failed hfail hfile⟩
    | fileFailed hbad =>
        obtain ⟨rfl, rfl⟩ := yields_ret hrest
        rw [List.append_nil]
        exact ⟨_, rfl, .fileFailed hbad⟩
    | negative hneg hfile =>
        obtain ⟨rfl, rfl⟩ := yields_ret hrest
        rw [List.append_nil]
        exact ⟨_, rfl, .negative hneg hfile⟩

end Entry

/-! ## The loop -/

section Loop

variable {args : ExtractArgs} {targetDir zpath : Bytes}

/-- The path of an entry. -/
def targetOf (targetDir zpath : Bytes) (x : ZipEntry × Nat) : Bytes :=
  withSlash targetDir ++ x.1.fileName.drop zpath.length

/-- The entries under a directory, with their numbers. -/
def under (zpath : Bytes) (xs : List (ZipEntry × Nat)) : List (ZipEntry × Nat) :=
  xs.filter fun x => zpath.isPrefixOf x.1.fileName

/-- The runs over a list of entries, with the result and the target paths. -/
inductive EntryRuns (args : ExtractArgs) (targetDir zpath : Bytes) :
    List (ZipEntry × Nat) → ExtractTrace → Option (Bool × List Bytes) → Prop where
  | nil : EntryRuns args targetDir zpath [] [] (some (true, []))
  | next {x : ZipEntry × Nat} {xs : List (ZipEntry × Nat)} {t ts : ExtractTrace}
      {out : Option (Bool × List Bytes)}
      (h : EntryRun args x (targetOf targetDir zpath x) t (.next true))
      (rest : EntryRuns args targetDir zpath xs ts out) :
      EntryRuns args targetDir zpath (x :: xs) (t ++ ts)
        (out.map fun r => (r.1, targetOf targetDir zpath x :: r.2))
  | stop {x : ZipEntry × Nat} (xs : List (ZipEntry × Nat)) {t : ExtractTrace} {ok : Bool}
      (h : EntryRun args x (targetOf targetDir zpath x) t (.stop ok)) :
      EntryRuns args targetDir zpath (x :: xs) t (some (ok, [targetOf targetDir zpath x]))
  | undefined {x : ZipEntry × Nat} (xs : List (ZipEntry × Nat)) {t : ExtractTrace}
      (h : EntryRun args x (targetOf targetDir zpath x) t .undefined) :
      EntryRuns args targetDir zpath (x :: xs) t none

/-- The paths that were there before. -/
def behind (paths : List Bytes) (r : Option (Bool × List Bytes)) : Option (Bool × List Bytes) :=
  r.map fun r => (r.1, paths ++ r.2)

/-- An entry that does not match, after one that did: there is no other. -/
theorem under_eq_nil {e first : ZipEntry} {es : List ZipEntry} {i : Nat}
    (hs : Sorted (e :: es)) (hfirst : zpath <+: first.fileName) (hle : first.fileName ≤ e.fileName)
    (he : ¬ zpath <+: e.fileName) : under zpath ((e :: es).zipIdx i) = [] := by
  rw [under, List.filter_eq_nil_iff]
  intro x hx
  have hmem : x.1 ∈ e :: es := List.fst_mem_of_mem_zipIdx hx
  rw [List.isPrefixOf_iff_prefix]
  rcases List.mem_cons.mp hmem with heq | hmem
  · rwa [heq]
  · intro hbegins
    exact he (prefix_between hfirst hbegins hle ((List.pairwise_cons.mp hs).1 x.1 hmem))

/-- The loop runs through the entries of the filter. -/
theorem extractLoop_run {es : List ZipEntry} (hs : Sorted es)
    (hnames : ∀ e ∈ es, (0 : UInt8) ∉ e.fileName) (hdir : (0 : UInt8) ∉ targetDir) {i : Nat}
    {seenMatch : Bool} (hseen : seenMatch = true →
      ∃ first : ZipEntry, zpath <+: first.fileName ∧ ∀ e ∈ es, first.fileName ≤ e.fileName)
    {helper : MzPathHelper} (hready : Ready targetDir zpath helper) {paths : List Bytes}
    {t : ExtractTrace} {out : Option (Option (Bool × List Bytes))}
    (h : Yields (extractLoop args zpath (es.map some) i seenMatch true helper paths) t out) :
    ∃ r, out = some (behind paths r) ∧
      EntryRuns args targetDir zpath (under zpath (es.zipIdx i)) t r := by
  induction es generalizing i seenMatch helper paths t with
  | nil =>
      obtain ⟨rfl, rfl⟩ := yields_ret h
      exact ⟨_, by rw [behind, Option.map_some, List.append_nil], .nil⟩
  | cons e es ih =>
      rw [List.map_cons, extractLoop] at h
      have hsorted := List.pairwise_cons.mp hs
      -- both tests that do not match go on in the same way
      have hmiss : ¬ zpath <+: e.fileName →
          Yields (if seenMatch then Prog.ret (some (true, paths))
            else extractLoop args zpath (es.map some) (i + 1) seenMatch true helper paths) t out →
          ∃ r, out = some (behind paths r) ∧
            EntryRuns args targetDir zpath (under zpath ((e :: es).zipIdx i)) t r := by
        intro hne h
        split at h
        · obtain ⟨first, hfirst, hle⟩ := hseen ‹_›
          obtain ⟨rfl, rfl⟩ := yields_ret h
          rw [under_eq_nil hs hfirst (hle e List.mem_cons_self) hne]
          exact ⟨_, by rw [behind, Option.map_some, List.append_nil], .nil⟩
        · have hunder : under zpath ((e :: es).zipIdx i) = under zpath (es.zipIdx (i + 1)) := by
            rw [under, List.zipIdx_cons, List.filter_cons_of_neg (by simpa using hne)]
            rfl
          rw [hunder]
          refine ih hsorted.2 (fun e he => hnames e (List.mem_cons_of_mem _ he)) ?_ hready h
          intro hseen'
          exact absurd hseen' ‹_›
      split at h
      · rename_i hshort
        exact hmiss (fun hbegins => absurd hbegins.length_le (by omega)) h
      · rename_i hlong
        rw [Nat.not_lt] at hlong
        have hiff := strncmp_eq_zero_iff hlong
        split at h
        · rename_i hne
          exact hmiss (fun hbegins => hne (hiff.mpr hbegins)) h
        · rename_i heq
          have hbegins := hiff.mp (not_not.mp heq)
          have hunder : under zpath ((e :: es).zipIdx i) =
              (e, i) :: under zpath (es.zipIdx (i + 1)) := by
            rw [under, List.zipIdx_cons, List.filter_cons_of_pos (by simpa using hbegins)]
            rfl
          obtain ⟨helper', hpath, hready', hstring⟩ :=
            targetEntryPath_spec hready hdir (hnames e List.mem_cons_self)
          rw [hpath] at h
          simp only [hstring] at h
          have hrest : ∀ {t : ExtractTrace},
              Yields (extractLoop args zpath (es.map some) (i + 1) true true helper'
                (paths ++ [targetOf targetDir zpath (e, i)])) t out →
              ∃ r, out = some (behind (paths ++ [targetOf targetDir zpath (e, i)]) r) ∧
                EntryRuns args targetDir zpath (under zpath (es.zipIdx (i + 1))) t r :=
            fun h => ih hsorted.2 (fun e he => hnames e (List.mem_cons_of_mem _ he))
              (fun _ => ⟨e, hbegins, hsorted.1⟩) hready' h
          have hbehind : ∀ r, behind (paths ++ [targetOf targetDir zpath (e, i)]) r =
              behind paths (r.map fun r => (r.1, targetOf targetDir zpath (e, i) :: r.2)) := by
            intro r
            cases r <;> simp [behind]
          rw [hunder]
          split at h
          · -- a dry run: only the callback
            rename_i hdry
            rcases yields_bind h with ⟨hnotify, -⟩ | ⟨t₁, t₂, u, rfl, hnotify, hloop⟩
            · exact absurd (yields_notify hnotify).2 nofun
            · obtain ⟨rfl, -⟩ := yields_notify hnotify
              obtain ⟨r, rfl, hruns⟩ := hrest hloop
              refine ⟨_, by rw [hbehind], .next (.done ⟨?_, [], ?_⟩) hruns⟩
              · rw [ExtractArgs.stopsAt, decide_eq_false hdry]
                rfl
              · rw [entryTrace, if_pos hdry, List.nil_append]
                rfl
          · rename_i hdry
            rcases yields_bind h with ⟨hentry, -⟩ | ⟨t₁, t₂, r, rfl, hentry, hloop⟩
            · obtain ⟨r, hr, -⟩ := extractEntry_run (x := (e, i)) (not_not.mp hdry) hentry
              cases hr
            · obtain ⟨r', hr, hrun⟩ := extractEntry_run (x := (e, i)) (not_not.mp hdry) hentry
              cases hr
              cases r with
              | next ok =>
                  obtain rfl : ok = true := by cases hrun; rfl
                  obtain ⟨r, rfl, hruns⟩ := hrest hloop
                  exact ⟨_, by rw [hbehind], .next hrun hruns⟩
              | stop ok =>
                  obtain ⟨rfl, rfl⟩ := yields_ret hloop
                  rw [List.append_nil]
                  exact ⟨_, rfl, .stop _ hrun⟩
              | undefined =>
                  obtain ⟨rfl, rfl⟩ := yields_ret hloop
                  rw [List.append_nil]
                  exact ⟨none, rfl, .undefined _ hrun⟩

end Loop

/-! ## Accepted archives -/

theorem not_mem_of_validFilename {fileName : Bytes} (h : validFilename fileName = true) :
    (0 : UInt8) ∉ fileName := by
  intro hmem
  rw [validFilename, Bool.and_eq_true, List.all_eq_true] at h
  exact absurd (h.2 0 hmem) (by decide)

theorem long_lower (n : Nat) : -2 ^ 31 ≤ long n := by
  rw [long, signed]
  split <;> omega

/-- The entries of an accepted archive are sorted, their names are strings and their lengths are
`long`. -/
theorem entries_of_parseArchive {iop : SafeIop} {calloc : Nat → Nat → Bool}
    (hcalloc : ∀ n size, calloc n size = true → n * size < 2 ^ 32) {map : MemMapping}
    {archive : ZipArchive} (h : parseArchive iop calloc map = .returned (some archive)) :
    ∃ entries, archive.pEntries = entries.map some ∧ Sorted entries ∧
      (∀ e ∈ entries, (0 : UInt8) ∉ e.fileName) ∧ ∀ e ∈ entries, -2 ^ 31 ≤ e.uncompLen := by
  obtain ⟨n, off, records, stop, entries, S, -, -, hrecords, -, hentries, hperm, hsorted, -⟩ :=
    records_of_parseArchive hcalloc h
  refine ⟨entries, hentries, hsorted, ?_, ?_⟩
  · intro e he
    obtain ⟨es, p, next, -, -, hentry⟩ := hrecords.mem_iff.mp (hperm.mem_iff.mp he)
    rw [parseEntry_eq] at hentry
    obtain ⟨head, hhead, hentry⟩ := Decode.ok_of_bind hentry
    obtain ⟨e', htail, hentry⟩ := Decode.ok_of_bind hentry
    cases hentry
    rw [fileName_of_parseTail htail]
    exact not_mem_of_validFilename (parseHead_ok hhead).2
  · intro e he
    obtain ⟨es, p, next, -, -, hentry⟩ := hrecords.mem_iff.mp (hperm.mem_iff.mp he)
    obtain ⟨n, huncomp⟩ := uncompLen_of_parseEntry hentry
    rw [huncomp]
    exact long_lower n

/-- The entries of the array. -/
def ZipArchive.entries (archive : ZipArchive) : List ZipEntry := archive.pEntries.filterMap id

theorem entries_eq {archive : ZipArchive} {entries : List ZipEntry}
    (h : archive.pEntries = entries.map some) : archive.entries = entries := by
  rw [ZipArchive.entries, h, List.filterMap_map]
  exact List.filterMap_some

/-- The runs of an extraction from an accepted archive. -/
theorem mzExtractRecursive_run {archive : ZipArchive} {entries : List ZipEntry}
    (hentries : archive.pEntries = entries.map some) (hs : Sorted entries)
    (hnames : ∀ e ∈ entries, (0 : UInt8) ∉ e.fileName) {zipDir targetDir : Bytes}
    (hrel : zipDir.head? ≠ some slash) (habs : targetDir.head? = some slash)
    (hdir : (0 : UInt8) ∉ targetDir) {args : ExtractArgs} {t : ExtractTrace}
    {out : Option (Option (Bool × List Bytes))}
    (h : Yields (mzExtractRecursive archive zipDir targetDir args) t out) :
    ∃ r, out = some r ∧ EntryRuns args targetDir (zipPath zipDir)
      (under (zipPath zipDir) archive.entries.zipIdx) t r := by
  rw [mzExtractRecursive, if_neg hrel, if_neg (not_not_intro habs), hentries] at h
  have hready : Ready targetDir (zipPath zipDir)
      { targetDir := targetDir, zipDir := zipPath zipDir, buf := none,
        targetDirLen := targetDir.length, zipDirLen := (zipPath zipDir).length, bufLen := 0 } :=
    ⟨rfl, .inl ⟨rfl, rfl, rfl, rfl⟩⟩
  have hrun : ∃ r, out = some (behind [] r) ∧ EntryRuns args targetDir (zipPath zipDir)
      (under (zipPath zipDir) (entries.zipIdx 0)) t r :=
    extractLoop_run hs hnames hdir (fun hseen => absurd hseen Bool.false_ne_true) hready h
  obtain ⟨r, rfl, hruns⟩ := hrun
  rw [entries_eq hentries]
  refine ⟨_, rfl, ?_⟩
  cases r with
  | none => exact hruns
  | some r => exact hruns

/-! ## What is visited -/

/-- The elements up to the first that stops. -/
def through {α : Type} (stops : α → Bool) : List α → List α
  | [] => []
  | x :: xs => if stops x then [x] else x :: through stops xs

/-- The operations `b` are what an entry needs, or all that is done before its link has no
target. -/
def Processed (args : ExtractArgs) (targetDir zpath : Bytes) (x : ZipEntry × Nat)
    (b : ExtractTrace) : Prop :=
  if args.stopsAt x then
    b = [answered (.dirCreateHierarchy (targetOf targetDir zpath x) unzipDirmode args.timestamp true)
      true]
  else ∃ data, b = entryTrace args x (targetOf targetDir zpath x) data

/-- The operations of a run, entry by entry. -/
def InBlocks (P : ZipEntry × Nat → ExtractTrace → Prop) (xs : List (ZipEntry × Nat))
    (t : ExtractTrace) : Prop :=
  ∃ blocks, List.Forall₂ P xs blocks ∧ t = blocks.flatten

section Visits

variable {args : ExtractArgs} {targetDir zpath : Bytes}

/-- When all operations succeed, the entries are visited one after another. -/
theorem EntryRuns.visits {xs : List (ZipEntry × Nat)} {t : ExtractTrace}
    {out : Option (Bool × List Bytes)} (h : EntryRuns args targetDir zpath xs t out)
    (hsucc : ∀ a ∈ t, Succeeded a.1 a.2)
    (hlink : ∀ x ∈ xs, args.isLink x = true → -2 ^ 31 ≤ x.1.uncompLen ∧ x.1.uncompLen ≠ -1) :
    out = some (!xs.any args.stopsAt, (through args.stopsAt xs).map (targetOf targetDir zpath)) ∧
      InBlocks (Processed args targetDir zpath) (through args.stopsAt xs) t := by
  induction h with
  | nil => exact ⟨rfl, [], .nil, rfl⟩
  | @next x xs t ts out h rest ih =>
      cases h with
      | done h =>
          obtain ⟨hgo, data, rfl⟩ := h
          obtain ⟨rfl, blocks, hblocks, rfl⟩ :=
            ih (fun a ha => hsucc a (List.mem_append_right _ ha))
              (fun y hy => hlink y (List.mem_cons_of_mem _ hy))
          rw [through, hgo, if_neg Bool.false_ne_true]
          refine ⟨by simp [hgo], _ :: blocks, .cons ?_ hblocks, rfl⟩
          rw [Processed, hgo, if_neg Bool.false_ne_true]
          exact ⟨data, rfl⟩
  | @stop x xs t ok h =>
      cases h with
      | noTarget h =>
          obtain ⟨hstop, rfl⟩ := h
          rw [through, hstop, if_pos rfl]
          refine ⟨by simp [hstop], [_], .cons ?_ .nil, (List.append_nil _).symm⟩
          rw [Processed, hstop, if_pos rfl]
      | failed hfail hfile =>
          obtain ⟨a, ha, hfail⟩ := hfail
          exact absurd (hsucc a ha) hfail
      | fileFailed h =>
          obtain ⟨⟨o, r⟩, ha, hfile⟩ := h
          have hok := hsucc _ ha
          cases o with
          | extractToFile e => exact absurd (hok.symm.trans hfile) (by decide)
          | utime path timestamp => exact absurd (hok.symm.trans hfile) (by decide)
          | dirCreateHierarchy => exact hfile.elim
          | readEntry => exact hfile.elim
          | symlink => exact hfile.elim
          | creat => exact hfile.elim
          | callback => exact hfile.elim
  | @undefined x xs t h =>
      cases h with
      | negative h hfile =>
          obtain ⟨hlower, hne⟩ := hlink x List.mem_cons_self h.1
          exact absurd (h.2 hlower) hne

/-- All that an entry needs was done, with success. -/
def Complete (args : ExtractArgs) (targetDir zpath : Bytes) (x : ZipEntry × Nat)
    (b : ExtractTrace) : Prop :=
  ∃ data, b = entryTrace args x (targetOf targetDir zpath x) data

theorem not_fileFailed_entryTrace (args : ExtractArgs) (x : ZipEntry × Nat) (path data : Bytes) :
    ∀ a ∈ entryTrace args x path data, ¬ FileFailed a.1 a.2 := by
  have hnotify : ∀ a ∈ notifyTrace args path, ¬ FileFailed a.1 a.2 := by
    intro a ha
    rw [notifyTrace] at ha
    split at ha
    · rw [List.mem_singleton.mp ha]
      exact id
    · cases ha
  intro a ha
  rw [entryTrace, List.mem_append] at ha
  rcases ha with ha | ha
  · split at ha
    · cases ha
    · split at ha
      · split at ha
        · rw [List.mem_singleton.mp ha]
          exact id
        · cases ha
      · rcases List.mem_cons.mp ha with rfl | ha
        · exact id
        · split at ha
          · simp only [List.mem_cons, List.not_mem_nil, or_false] at ha
            rcases ha with rfl | rfl
            · exact id
            · exact id
          · rcases List.mem_cons.mp ha with rfl | ha
            · exact id
            · rcases List.mem_cons.mp ha with rfl | ha
              · exact Bool.noConfusion
              · split at ha
                · cases ha
                · rw [List.mem_singleton.mp ha]
                  exact Bool.noConfusion
  · exact hnotify a ha

theorem InBlocks.not_fileFailed {xs : List (ZipEntry × Nat)} {t : ExtractTrace}
    (h : InBlocks (Complete args targetDir zpath) xs t) : ∀ a ∈ t, ¬ FileFailed a.1 a.2 := by
  obtain ⟨blocks, hblocks, rfl⟩ := h
  induction hblocks with
  | nil => simp
  | @cons x b xs blocks hb _ ih =>
      obtain ⟨data, rfl⟩ := hb
      intro a ha
      rw [List.flatten_cons, List.mem_append] at ha
      rcases ha with ha | ha
      · exact not_fileFailed_entryTrace _ _ _ _ a ha
      · exact ih a ha

/-- The result is true if all is done, and if the contents or the time of a file could not be
set. -/
theorem EntryRuns.reports {xs : List (ZipEntry × Nat)} {t : ExtractTrace}
    {out : Option (Bool × List Bytes)} (h : EntryRuns args targetDir zpath xs t out) :
    ((∃ a ∈ t, FileFailed a.1 a.2) → ∃ paths, out = some (true, paths)) ∧
      ((∀ a ∈ t, ¬ FileFailed a.1 a.2) → ∀ paths, out = some (true, paths) →
        InBlocks (Complete args targetDir zpath) xs t) := by
  induction h with
  | nil => exact ⟨by simp, fun _ _ _ => ⟨[], .nil, rfl⟩⟩
  | @next x xs t ts out h rest ih =>
      cases h with
      | done h =>
          obtain ⟨-, data, rfl⟩ := h
          constructor
          · rintro ⟨a, ha, hfile⟩
            rcases List.mem_append.mp ha with ha | ha
            · exact absurd hfile (not_fileFailed_entryTrace _ _ _ _ a ha)
            · obtain ⟨paths, rfl⟩ := ih.1 ⟨a, ha, hfile⟩
              exact ⟨_, rfl⟩
          · intro hfile paths hout
            obtain ⟨⟨ok, paths'⟩, rfl, hr⟩ := Option.map_eq_some_iff.mp hout
            obtain rfl : ok = true := congrArg Prod.fst hr
            obtain ⟨blocks, hblocks, rfl⟩ :=
              ih.2 (fun a ha => hfile a (List.mem_append_right _ ha)) paths' rfl
            exact ⟨_ :: blocks, .cons ⟨data, rfl⟩ hblocks, rfl⟩
  | @stop x xs t ok h =>
      cases h with
      | noTarget h =>
          obtain ⟨-, rfl⟩ := h
          refine ⟨?_, fun _ _ hout => nomatch hout⟩
          rintro ⟨a, ha, hfile⟩
          rw [List.mem_singleton.mp ha] at hfile
          exact hfile.elim
      | failed hfail hfile =>
          refine ⟨?_, fun _ _ hout => nomatch hout⟩
          rintro ⟨a, ha, hbad⟩
          exact absurd hbad (hfile a ha)
      | fileFailed h =>
          obtain ⟨a, ha, hbad⟩ := h
          exact ⟨fun _ => ⟨_, rfl⟩, fun hfile => absurd hbad (hfile a ha)⟩
  | @undefined x xs t h =>
      cases h with
      | negative h hfile =>
          refine ⟨?_, fun _ _ hout => nomatch hout⟩
          rintro ⟨a, ha, hbad⟩
          exact absurd hbad (hfile a ha)

end Visits

/-! ## The extraction -/

/-- The entries that belong to a directory of the archive. -/
def ZipArchive.under (archive : ZipArchive) (zipDir : Bytes) : List (ZipEntry × Nat) :=
  Minzip.under (zipPath zipDir) archive.entries.zipIdx

/-- The operation with success as its answer. -/
def success : (o : ExtractOp) → o.Res
  | .dirCreateHierarchy .. => true
  | .readEntry .. => some []
  | .symlink .. => true
  | .creat .. => true
  | .extractToFile .. => true
  | .utime .. => true
  | .callback .. => ()

theorem succeeded_success (o : ExtractOp) : Succeeded o (success o) := by
  cases o <;> first | exact rfl | exact trivial

/-- When all operations succeed, the entries under the directory are visited in their order up to
the first link that has no target. -/
theorem mzExtractRecursive_visits (iop : SafeIop) {calloc : Nat → Nat → Bool}
    (hcalloc : ∀ n size, calloc n size = true → n * size < 2 ^ 32) {map : MemMapping}
    {archive : ZipArchive} (h : parseArchive iop calloc map = .returned (some archive))
    {zipDir targetDir : Bytes} (hrel : zipDir.head? ≠ some slash)
    (habs : targetDir.head? = some slash) (hdir : (0 : UInt8) ∉ targetDir) (args : ExtractArgs)
    (hlink : ∀ e ∈ archive.entries, zipPath zipDir <+: e.fileName → mzIsZipEntrySymlink e = true →
      e.uncompLen ≠ -1) :
    (∃ t out, Yields (mzExtractRecursive archive zipDir targetDir args) t out ∧
      ∀ a ∈ t, Succeeded a.1 a.2) ∧
    ∀ t out, Yields (mzExtractRecursive archive zipDir targetDir args) t out →
      (∀ a ∈ t, Succeeded a.1 a.2) →
        out = some (some (!(archive.under zipDir).any args.stopsAt,
          (through args.stopsAt (archive.under zipDir)).map (targetOf targetDir (zipPath zipDir)))) ∧
        InBlocks (Processed args targetDir (zipPath zipDir))
          (through args.stopsAt (archive.under zipDir)) t := by
  constructor
  · obtain ⟨t, out, hyields, hsucc⟩ :=
      exists_yields success (mzExtractRecursive archive zipDir targetDir args)
    refine ⟨t, out, hyields, ?_⟩
    intro a ha
    rw [hsucc a ha]
    exact succeeded_success a.1
  · intro t out hyields hsucc
    obtain ⟨entries, hentries, hs, hnames, hlower⟩ := entries_of_parseArchive hcalloc h
    obtain ⟨r, rfl, hruns⟩ := mzExtractRecursive_run hentries hs hnames hrel habs hdir hyields
    have hlinks : ∀ x ∈ archive.under zipDir, args.isLink x = true →
        -2 ^ 31 ≤ x.1.uncompLen ∧ x.1.uncompLen ≠ -1 := by
      intro x hx hisLink
      obtain ⟨hmem, hbegins⟩ := List.mem_filter.mp hx
      have hentry : x.1 ∈ archive.entries := List.fst_mem_of_mem_zipIdx hmem
      rw [ExtractArgs.isLink, Bool.and_eq_true] at hisLink
      exact ⟨hlower x.1 (entries_eq hentries ▸ hentry),
        hlink x.1 hentry (List.isPrefixOf_iff_prefix.mp hbegins) hisLink.2⟩
    obtain ⟨rfl, hblocks⟩ := hruns.visits hsucc hlinks
    exact ⟨rfl, hblocks⟩

/-- The result is true only for a complete extraction, unless the contents or the time of a file
could not be set. -/
theorem mzExtractRecursive_reports_iff (iop : SafeIop) {calloc : Nat → Nat → Bool}
    (hcalloc : ∀ n size, calloc n size = true → n * size < 2 ^ 32) {map : MemMapping}
    {archive : ZipArchive} (h : parseArchive iop calloc map = .returned (some archive))
    (zipDir : Bytes) {targetDir : Bytes} (hdir : (0 : UInt8) ∉ targetDir) :
    (∀ (args : ExtractArgs) (t : ExtractTrace) (out : Option (Option (Bool × List Bytes))),
      Yields (mzExtractRecursive archive zipDir targetDir args) t out →
        (((∃ paths, out = some (some (true, paths))) →
          InBlocks (Complete args targetDir (zipPath zipDir)) (archive.under zipDir) t) ↔
            ∀ a ∈ t, ¬ FileFailed a.1 a.2)) ∧
    ∀ (byteBefore : Nat → UInt8) (t : ExtractTrace) (out : Option (Option Bytes)),
      Yields (packageExtractDir byteBefore archive zipDir targetDir) t out →
        ((out = some (some (cstr "t")) →
          InBlocks (Complete ⟨mzExtractFilesOnly, some ⟨1217592000, 1217592000⟩, false, byteBefore⟩
            targetDir (zipPath zipDir)) (archive.under zipDir) t) ↔
            ∀ a ∈ t, ¬ FileFailed a.1 a.2) := by
  have hfirst : ∀ (args : ExtractArgs) (t : ExtractTrace)
      (out : Option (Option (Bool × List Bytes))),
      Yields (mzExtractRecursive archive zipDir targetDir args) t out →
        (((∃ paths, out = some (some (true, paths))) →
          InBlocks (Complete args targetDir (zipPath zipDir)) (archive.under zipDir) t) ↔
            ∀ a ∈ t, ¬ FileFailed a.1 a.2) := by
    intro args t out hyields
    by_cases hrel : zipDir.head? = some slash
    · rw [mzExtractRecursive, if_pos hrel] at hyields
      obtain ⟨rfl, rfl⟩ := yields_ret hyields
      exact iff_of_true (fun ⟨_, hout⟩ => nomatch hout) (by simp)
    · by_cases habs : targetDir.head? = some slash
      · obtain ⟨entries, hentries, hs, hnames, -⟩ := entries_of_parseArchive hcalloc h
        obtain ⟨r, rfl, hruns⟩ := mzExtractRecursive_run hentries hs hnames hrel habs hdir hyields
        obtain ⟨hbad, hgood⟩ := hruns.reports
        constructor
        · intro hclaim a ha hfile
          obtain ⟨paths, rfl⟩ := hbad ⟨a, ha, hfile⟩
          exact (hclaim ⟨paths, rfl⟩).not_fileFailed a ha hfile
        · rintro hfile ⟨paths, hout⟩
          exact hgood hfile paths (Option.some.inj hout)
      · rw [mzExtractRecursive, if_neg hrel, if_pos habs] at hyields
        obtain ⟨rfl, rfl⟩ := yields_ret hyields
        exact iff_of_true (fun ⟨_, hout⟩ => nomatch hout) (by simp)
  refine ⟨hfirst, ?_⟩
  intro byteBefore t out hyields
  rw [packageExtractDir] at hyields
  rcases yields_bind hyields with ⟨hrun, rfl⟩ | ⟨t₁, t₂, r, rfl, hrun, hret⟩
  · have hiff := hfirst _ _ _ hrun
    rw [← hiff]
    exact iff_of_true nofun (fun ⟨_, hout⟩ => nomatch hout)
  · have hiff := hfirst _ _ _ hrun
    cases r with
    | none =>
        obtain ⟨rfl, rfl⟩ := yields_ret hret
        rw [List.append_nil, ← hiff]
        exact iff_of_true nofun (fun ⟨_, hout⟩ => nomatch hout)
    | some r =>
        obtain ⟨ok, paths⟩ := r
        obtain ⟨rfl, rfl⟩ := yields_ret hret
        rw [List.append_nil, ← hiff]
        cases ok with
        | true => exact ⟨fun hclaim _ => hclaim rfl, fun hclaim _ => hclaim ⟨paths, rfl⟩⟩
        | false => exact iff_of_true nofun (fun ⟨_, hout⟩ => nomatch hout)

namespace Sample

/-- An archive with a symbolic link `a` without a target and a file `b`. -/
def links : MemMapping :=
  let localHdr := write4 locsig ++ List.replicate 26 0
  let record (madeBy : UInt8) (mode : Int) (name : Bytes) :=
    write4 censig ++ [0, madeBy] ++ List.replicate 22 0 ++ [1, 0] ++ List.replicate 8 0 ++
      write4 (mode * 65536) ++ write4 0 ++ name
  let records := record 3 0o120777 (cstr "a") ++ record 0 0 (cstr "b")
  ⟨0x40000000, localHdr ++ records ++ write4 endsig ++ List.replicate 4 0 ++ [2, 0, 2, 0] ++
    write4 records.length ++ write4 localHdr.length ++ [0, 0]⟩

/-- The entries of that archive. -/
def linkEntries : List ZipEntry :=
  [⟨cstr "a", 30, 0, 0, 0, 0, 0, 0x300, -0x5e010000⟩, named (cstr "b")]

/-- Neither flags nor a time nor a callback. -/
def plain : ExtractArgs := { flags := 0, timestamp := none, callback := false, byteBefore := fun _ => 0 }

theorem parseArchive_links : ∃ archive, parseArchive iop calloc links = .returned (some archive) ∧
    archive.pEntries = linkEntries.map some :=
  exists_archive (by decide +kernel)

/-- The link makes the loop stop, although nothing fails. -/
theorem links_stop : ∃ archive, parseArchive iop calloc links = .returned (some archive) ∧
    ¬ ∀ t out, Yields (mzExtractRecursive archive [] (cstr "/tmp") plain) t out →
      (∀ a ∈ t, Succeeded a.1 a.2) →
        ∃ ok, out = some (some (ok, (archive.under []).map (targetOf (cstr "/tmp") []))) := by
  obtain ⟨archive, harchive, hentries⟩ := parseArchive_links
  refine ⟨archive, harchive, ?_⟩
  intro h
  have hrun : Yields (mzExtractRecursive archive [] (cstr "/tmp") plain)
      [answered (.dirCreateHierarchy (cstr "/tmp/a") unzipDirmode none true) true]
      (some (some (false, [cstr "/tmp/a"]))) := by
    rw [mzExtractRecursive, hentries]
    exact .op (.ret _)
  obtain ⟨ok, hout⟩ := h _ _ hrun (by simp [answered, Succeeded])
  have hpaths : [cstr "/tmp/a"] = (archive.under []).map (targetOf (cstr "/tmp") []) :=
    congrArg Prod.snd (Option.some.inj (Option.some.inj hout))
  rw [ZipArchive.under, entries_eq hentries] at hpaths
  exact absurd hpaths (by decide)

theorem mzExtractRecursive_visits_names : ∃ archive,
    parseArchive iop calloc names = .returned (some archive) ∧
      (∃ t out, Yields (mzExtractRecursive archive [] (cstr "/tmp") plain) t out ∧
        ∀ a ∈ t, Succeeded a.1 a.2) ∧
      ∀ t out, Yields (mzExtractRecursive archive [] (cstr "/tmp") plain) t out →
        (∀ a ∈ t, Succeeded a.1 a.2) →
          out = some (some (!(archive.under []).any plain.stopsAt,
            (through plain.stopsAt (archive.under [])).map (targetOf (cstr "/tmp") []))) ∧
          InBlocks (Processed plain (cstr "/tmp") []) (through plain.stopsAt (archive.under [])) t := by
  obtain ⟨archive, harchive, hentries⟩ := parseArchive_names
  refine ⟨archive, harchive, mzExtractRecursive_visits iop calloc_fits harchive (by decide)
    (by decide) (by decide) plain ?_⟩
  have heq : archive.entries = [cstr "ab", cstr "b", cstr "b"].map named := by
    rw [ZipArchive.entries, hentries]
    rfl
  rw [heq]
  decide +kernel

/-- The first file cannot be extracted, and the result is true. -/
theorem names_unreported : ∃ archive, parseArchive iop calloc names = .returned (some archive) ∧
    ¬ ∀ t out, Yields (mzExtractRecursive archive [] (cstr "/tmp") plain) t out →
      (∃ paths, out = some (some (true, paths))) →
        InBlocks (Complete plain (cstr "/tmp") []) (archive.under []) t := by
  obtain ⟨archive, harchive, hentries⟩ := parseArchive_names
  refine ⟨archive, harchive, ?_⟩
  intro h
  have hrun : Yields (mzExtractRecursive archive [] (cstr "/tmp") plain)
      [answered (.dirCreateHierarchy (cstr "/tmp/ab") unzipDirmode none true) true,
        answered (.creat (cstr "/tmp/ab") unzipFilemode) true,
        answered (.extractToFile (named (cstr "ab"))) false]
      (some (some (true, [cstr "/tmp/ab"]))) := by
    rw [mzExtractRecursive, hentries]
    exact .op (.op (.op (.ret _)))
  have hbad := (h _ _ hrun ⟨_, rfl⟩).not_fileFailed _ (List.mem_of_mem_getLast? rfl)
  exact hbad rfl

theorem mzExtractRecursive_reports_names : ∃ archive,
    parseArchive iop calloc names = .returned (some archive) ∧
      ∀ t out, Yields (mzExtractRecursive archive [] (cstr "/tmp") plain) t out →
        (((∃ paths, out = some (some (true, paths))) →
          InBlocks (Complete plain (cstr "/tmp") []) (archive.under []) t) ↔
            ∀ a ∈ t, ¬ FileFailed a.1 a.2) := by
  obtain ⟨archive, harchive, -⟩ := parseArchive_names
  exact ⟨archive, harchive,
    (mzExtractRecursive_reports_iff iop calloc_fits harchive [] (by decide)).1 plain⟩

end Sample

end OpenRecovery.Minzip
