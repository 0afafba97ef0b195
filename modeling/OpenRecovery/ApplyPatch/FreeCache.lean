import OpenRecovery.ApplyPatch.ContentsSpec

/-!
# Making room on `/cache`

`freecache.c` with its arrays: the names are collected in an array that grows, the descriptors of
every process are scanned and leave null pointers in it, and the files are deleted until the free
space that `FreeSpaceForFile` reports is enough. That report is a `size_t`, which the number of free
bytes may not fit. `freeCache_sound_iff` says when the function does what it is for, and
`run_makeFreeSpaceOnCache` that it is one of the runs of the program in `Contents`.
-/

set_option autoImplicit false

namespace OpenRecovery.ApplyPatch.FreeCache

open OpenRecovery.Crash OpenRecovery.Storage

/-! ## What the code finds -/

/-- An entry of `/proc`: its name, and the links in its directory `fd` if that can be opened, with
`none` for a link that cannot be read. -/
structure ProcEntry where
  name : Name
  fds : Option (List (Option Name))

/-- The name is a number. -/
def ProcEntry.isProcess (p : ProcEntry) : Bool := p.name.all isdigit

/-- The file `n` is open in the process. -/
def ProcEntry.holds (p : ProcEntry) (n : Name) : Bool :=
  p.isProcess && p.fds.any fun links => some n ∈ links

/-- The contents of `/cache` and what the system calls of `freecache.c` say about them: the answer
of `statfs`, which depends on what is left, directories in the order of `readdir`, and `/proc` if it
can be opened. A directory with a regular file in it can be opened, and every open file is a link of
a process. -/
structure Cache where
  fs : Fs
  bsize : Nat
  bfree : Fs → Nat
  readdir : Name → Option (List Name)
  proc : Option (List ProcEntry)
  plain : ∀ d es, readdir d = some es → ∀ e ∈ es, slash ∉ e
  once : ∀ d es, readdir d = some es → es.Nodup
  listed : ∀ d e, slash ∉ e → (fs.files (joinPath d e)).isSome = true →
    ∃ es, readdir d = some es ∧ e ∈ es
  held : ∀ ps, proc = some ps → ∀ n, fs.opened n = ps.any fun p => p.holds n

/-- The free bytes. -/
def Cache.free (c : Cache) (s : Fs) : Nat := c.bsize * c.bfree s

/-! ## The functions -/

/-- `FreeSpaceForFile("/cache")`. -/
def freeSpaceForFile (L : Libs) (c : Cache) (s : Fs) : Nat := c.free s % 2 ^ L.sizeBits

/-- The array `names` with its allocated length; `*entries` is the number of items. -/
structure NameArray where
  size : Nat
  items : List (Option Name)

/-- One more name, after the array has grown if it is full; `none` is a write outside it. -/
def NameArray.push (a : NameArray) (path : Name) : Option NameArray :=
  -- `realloc` to twice the size, asked for only when the array is full
  let size := if a.items.length ≥ a.size then a.size * 2 else a.size
  if a.items.length < size then some ⟨size, a.items ++ [some path]⟩ else none

/-- The loop over a directory. -/
def scanDir (c : Cache) (d : Name) : List Name → NameArray → Option NameArray
  | [], a => some a
  | e :: es, a =>
      -- a restarted installation may depend on the saved copy
      if joinPath d e = cacheTempSource then scanDir c d es a
      -- subdirectories are not entered, since only regular files are counted
      else if (c.fs.files (joinPath d e)).isSome then do
        let a ← a.push (joinPath d e)
        scanDir c d es a
      else scanDir c d es a

/-- The loop over the directories. -/
def scanDirs (c : Cache) : List Name → NameArray → Option NameArray
  | [], a => some a
  | d :: ds, a =>
      match c.readdir d with
      -- a directory that cannot be opened is passed over
      | none => scanDirs c ds a
      | some es => do
          let a ← scanDir c d es a
          scanDirs c ds a

/-- The names that are equal to the link become null pointers. -/
def punch (link : Name) (files : List (Option Name)) : List (Option Name) :=
  files.map fun f => if f = some link then none else f

/-- The loop over the links of a process. -/
def scanLinks : List (Option Name) → List (Option Name) → List (Option Name)
  | [], files => files
  | none :: links, files => scanLinks links files
  | some link :: links, files =>
      scanLinks links (if (cstr "/cache/").isPrefixOf link then punch link files else files)

/-- The loop of `EliminateOpenFiles` over `/proc`. -/
def scanProc : List ProcEntry → List (Option Name) → List (Option Name)
  | [], files => files
  | p :: ps, files =>
      if !p.isProcess then scanProc ps files
      else
        match p.fds with
        -- the process may have ended since its name was read
        | none => scanProc ps files
        | some links => scanProc ps (scanLinks links files)

/-- `EliminateOpenFiles`; `none` is the error return. -/
def eliminateOpenFiles (c : Cache) (files : List (Option Name)) : Option (List (Option Name)) :=
  c.proc.map fun ps => scanProc ps files

/-- `FindExpendableFiles`: the answer is `none` for a bad access, and the names are `none` for the
error return. -/
def findExpendableFiles (c : Cache) : Option (Option (List (Option Name))) := do
  let a ← scanDirs c expendableDirs ⟨32, []⟩
  return eliminateOpenFiles c a.items

/-- The loop that deletes: the free space read last, what is left, and the deletions, each with the
state before it. -/
def deleteLoop (L : Libs) (c : Cache) (needed : Nat) :
    List (Option Name) → Nat → Fs → Nat × Fs × List (Fs × Name)
  | [], freeNow, s => (freeNow, s, [])
  | n :: ns, freeNow, s =>
      if freeNow < needed then
        match n with
        | none => deleteLoop L c needed ns freeNow s
        | some name =>
            let t := s.set name none
            let (freeNow, left, deletions) := deleteLoop L c needed ns (freeSpaceForFile L c t) t
            (freeNow, left, (s, name) :: deletions)
      else (freeNow, s, [])

/-- The result, whether the files were listed, what is left, and the deletions. -/
structure Freed where
  status : Int
  listed : Bool
  left : Fs
  deletions : List (Fs × Name)

/-- `MakeFreeSpaceOnCache`. -/
def makeFreeSpaceOnCache (L : Libs) (c : Cache) (needed : Nat) : Option Freed := do
  let freeNow := freeSpaceForFile L c c.fs
  if freeNow ≥ needed then return ⟨0, false, c.fs, []⟩
  else
    match ← findExpendableFiles c with
    | none => return ⟨-1, false, c.fs, []⟩
    | some names =>
        -- the test is of `entries`, which counts the null pointers of the open files too
        if names = [] then return ⟨-1, true, c.fs, []⟩
        else
          let (freeNow, left, deletions) := deleteLoop L c needed names freeNow c.fs
          return ⟨if freeNow ≥ needed then 0 else -1, true, left, deletions⟩

/-! ## What the function is for -/

/-- The files that may be deleted: unopened regular files in the two directories, except the saved
copy. -/
def Cache.Expendable (c : Cache) (n : Name) : Prop :=
  (∃ d ∈ expendableDirs, ∃ e, slash ∉ e ∧ n = joinPath d e) ∧ (c.fs.files n).isSome = true ∧
    n ≠ cacheTempSource ∧ c.fs.opened n = false

/-- Only expendable files are deleted, and only while there is too little space; the status says
whether there is enough in the end; and if there is not, no expendable file is left. -/
structure Sound (c : Cache) (needed : Nat) (r : Freed) : Prop where
  only : ∀ d ∈ r.deletions, c.Expendable d.2
  changed : ∀ n, r.left.files n = if n ∈ r.deletions.map Prod.snd then none else c.fs.files n
  asNeeded : ∀ d ∈ r.deletions, c.free d.1 < needed
  status : r.status = 0 ↔ needed ≤ c.free r.left
  exhausted : r.status = -1 → r.listed = true → ∀ n, c.Expendable n → r.left.files n = none

/-! ## The list of names -/

section Listing

variable {c : Cache}

/-- The regular files among the entries of a directory, without the saved copy. -/
def Cache.regularIn (c : Cache) (d : Name) (es : List Name) : List Name :=
  (es.map (joinPath d)).filter fun n => n ≠ cacheTempSource ∧ (c.fs.files n).isSome = true

/-- The regular files of the directories. -/
def Cache.regular (c : Cache) (ds : List Name) : List Name :=
  ds.flatMap fun d => c.regularIn d ((c.readdir d).getD [])

/-- The items are in the array. -/
structure NameArray.Valid (a : NameArray) : Prop where
  nonempty : 0 < a.size
  fits : a.items.length ≤ a.size

/-- A name is appended, after the array has grown if it had to. -/
theorem NameArray.Valid.push {a : NameArray} (h : a.Valid) (path : Name) :
    ∃ b, a.push path = some b ∧ b.Valid ∧ b.items = a.items ++ [some path] := by
  have hpos := h.nonempty
  have hfits := h.fits
  have hroom : a.items.length < if a.items.length ≥ a.size then a.size * 2 else a.size := by
    split
    · omega
    · omega
  refine ⟨_, if_pos hroom, ⟨Nat.zero_lt_of_lt hroom, ?_⟩, rfl⟩
  rw [List.length_append]
  exact hroom

/-- The first entry of a directory, and the others. -/
theorem Cache.regularIn_cons (c : Cache) (d e : Name) (es : List Name) :
    c.regularIn d (e :: es) =
      if joinPath d e ≠ cacheTempSource ∧ (c.fs.files (joinPath d e)).isSome = true then
        joinPath d e :: c.regularIn d es
      else c.regularIn d es := by
  simp only [Cache.regularIn, List.map_cons, List.filter_cons, decide_eq_true_eq]

/-- The loop over the entries appends the regular ones. Induction on the entries. -/
theorem scanDir_spec (d : Name) (es : List Name) {a : NameArray} (h : a.Valid) :
    ∃ b, scanDir c d es a = some b ∧ b.Valid ∧ b.items = a.items ++ (c.regularIn d es).map some := by
  induction es generalizing a with
  | nil => exact ⟨a, rfl, h, (List.append_nil _).symm⟩
  | cons e es ih =>
      rw [scanDir, c.regularIn_cons]
      by_cases htemp : joinPath d e = cacheTempSource
      · rw [if_pos htemp, if_neg fun h => h.1 htemp]
        exact ih h
      · rw [if_neg htemp]
        by_cases hreg : (c.fs.files (joinPath d e)).isSome = true
        · obtain ⟨b, hb, hvalid, hitems⟩ := h.push (joinPath d e)
          obtain ⟨b', hb', hvalid', hitems'⟩ := ih hvalid
          refine ⟨b', ?_, hvalid', ?_⟩
          · rw [if_pos hreg, hb]
            exact hb'
          · rw [if_pos ⟨htemp, hreg⟩, hitems', hitems, List.append_assoc]
            rfl
        · rw [if_neg hreg, if_neg fun h => hreg h.2]
          exact ih h

/-- The loop over the directories. -/
theorem scanDirs_spec (ds : List Name) {a : NameArray} (h : a.Valid) :
    ∃ b, scanDirs c ds a = some b ∧ b.items = a.items ++ (c.regular ds).map some := by
  induction ds generalizing a with
  | nil => exact ⟨a, rfl, (List.append_nil _).symm⟩
  | cons d ds ih =>
      have hcons : c.regular (d :: ds) = c.regularIn d ((c.readdir d).getD []) ++ c.regular ds :=
        List.flatMap_cons
      rw [scanDirs, hcons]
      cases c.readdir d with
      | none => exact ih h
      | some es =>
          obtain ⟨b, hb, hvalid, hitems⟩ := scanDir_spec (c := c) d es h
          obtain ⟨b', hb', hitems'⟩ := ih hvalid
          refine ⟨b', ?_, ?_⟩
          · simp only [hb, Option.bind_eq_bind, Option.bind_some, hb']
          · rw [hitems', hitems, List.map_append, List.append_assoc]
            rfl

/-- The array with null pointers for the names that are open. -/
def withHoles (names : List Name) (isOpen : Name → Bool) : List (Option Name) :=
  names.map fun n => if isOpen n then none else some n

/-- A name that is open is taken out of the list wherever it stands. -/
theorem punch_withHoles (link : Name) (names : List Name) (isOpen : Name → Bool) :
    punch link (withHoles names isOpen) = withHoles names fun n => isOpen n || n = link := by
  rw [punch, withHoles, List.map_map, withHoles]
  refine List.map_congr_left fun n _ => ?_
  cases hn : isOpen n with
  | true => simp [hn]
  | false => simp [hn]

/-- The links of a process take out those below `/cache/`. -/
theorem scanLinks_withHoles (links : List (Option Name)) (names : List Name)
    (isOpen : Name → Bool) :
    scanLinks links (withHoles names isOpen) = withHoles names fun n =>
      isOpen n || ((cstr "/cache/").isPrefixOf n && decide (some n ∈ links)) := by
  -- induction on the links; the names found open so far are carried in `isOpen`
  induction links generalizing isOpen with
  | nil => simp [scanLinks]
  | cons link links ih =>
      cases link with
      | none => simpa [scanLinks] using ih isOpen
      | some link =>
          rw [scanLinks]
          by_cases hpre : (cstr "/cache/").isPrefixOf link = true
          · rw [if_pos hpre, punch_withHoles, ih]
            congr 1
            funext n
            by_cases hn : n = link
            · simp [hn, hpre]
            · simp [hn]
          · rw [if_neg hpre, ih]
            congr 1
            funext n
            by_cases hn : n = link
            · simp [hn, hpre]
            · simp [hn]

/-- The links of all processes. -/
theorem scanProc_withHoles (ps : List ProcEntry) (names : List Name) (isOpen : Name → Bool) :
    scanProc ps (withHoles names isOpen) = withHoles names fun n =>
      isOpen n || ((cstr "/cache/").isPrefixOf n && ps.any fun p => p.holds n) := by
  induction ps generalizing isOpen with
  | nil => simp [scanProc]
  | cons p ps ih =>
      rw [scanProc]
      cases hproc : p.isProcess with
      | false => simpa [ProcEntry.holds, hproc] using ih isOpen
      | true =>
          simp only [Bool.not_true, Bool.false_eq_true, if_false]
          cases hfds : p.fds with
          | none => simpa [ProcEntry.holds, hproc, hfds] using ih isOpen
          | some links =>
              simp only
              rw [scanLinks_withHoles, ih]
              congr 1
              funext n
              simp [ProcEntry.holds, hproc, hfds, Bool.and_or_distrib_left, Bool.or_assoc]

/-- The regular files are below `/cache/`. -/
theorem cache_prefix_of_regular {n : Name} (h : n ∈ c.regular expendableDirs) :
    (cstr "/cache/").isPrefixOf n = true := by
  obtain ⟨d, hd, hn⟩ := List.mem_flatMap.1 h
  obtain ⟨hmap, hcond⟩ := List.mem_filter.1 hn
  obtain ⟨e, -, rfl⟩ := List.mem_map.1 hmap
  have hne : joinPath d e ≠ cacheTempSource := (of_decide_eq_true hcond).1
  exact List.isPrefixOf_iff_prefix.2 (expendable_joinPath hd hne).1

/-- The listing: the regular files of the two directories, with holes for the open ones. -/
theorem findExpendableFiles_eq (c : Cache) :
    findExpendableFiles c = some (c.proc.map fun _ =>
      withHoles (c.regular expendableDirs) c.fs.opened) := by
  obtain ⟨b, hb, hitems⟩ := scanDirs_spec (c := c) expendableDirs
    (a := ⟨32, []⟩) ⟨by decide, Nat.zero_le _⟩
  have hstart : b.items = withHoles (c.regular expendableDirs) fun _ => false := by
    rw [hitems]
    rfl
  -- before the scan of `/proc` there are no holes
  simp only [findExpendableFiles, hb, Option.bind_eq_bind, Option.bind_some, eliminateOpenFiles]
  cases hproc : c.proc with
  | none => rfl
  | some ps =>
      simp only [Option.map_some, hstart, scanProc_withHoles, Bool.false_or]
      refine congrArg (fun l => some (some l)) (List.map_congr_left fun n hn => ?_)
      simp only [cache_prefix_of_regular hn, Bool.true_and, c.held ps hproc]

/-- The expendable files in the order of the listing, if there is one. -/
def Cache.candidates (c : Cache) : List Name :=
  if c.proc.isSome then (c.regular expendableDirs).filter fun n => !c.fs.opened n else []

/-- The names that are left are those that are not open. -/
theorem filterMap_withHoles (names : List Name) (isOpen : Name → Bool) :
    (withHoles names isOpen).filterMap id = names.filter fun n => !isOpen n := by
  induction names with
  | nil => rfl
  | cons n names ih =>
      rw [withHoles, List.map_cons, ← withHoles]
      cases hn : isOpen n with
      | true => simpa [hn] using ih
      | false => simpa [hn] using ih

/-- The regular files of the expendable directories, but for the copy of the source. -/
theorem mem_regular {n : Name} : n ∈ c.regular expendableDirs ↔
    (∃ d ∈ expendableDirs, ∃ e, slash ∉ e ∧ n = joinPath d e) ∧ (c.fs.files n).isSome = true ∧
      n ≠ cacheTempSource := by
  simp only [Cache.regular, Cache.regularIn, List.mem_flatMap, List.mem_filter, List.mem_map,
    decide_eq_true_eq]
  constructor
  · rintro ⟨d, hd, ⟨e, he, rfl⟩, hne, hsome⟩
    cases hdir : c.readdir d with
    | none => simp [hdir] at he
    | some es =>
        rw [hdir, Option.getD_some] at he
        exact ⟨⟨d, hd, e, c.plain d es hdir e he, rfl⟩, hsome, hne⟩
  · rintro ⟨⟨d, hd, e, he, rfl⟩, hsome, hne⟩
    obtain ⟨es, hdir, hmem⟩ := c.listed d e he hsome
    refine ⟨d, hd, ⟨e, ?_, rfl⟩, hne, hsome⟩
    rwa [hdir]

/-- A file is expendable when it is one of them and not open. -/
theorem expendable_iff {n : Name} :
    c.Expendable n ↔ n ∈ (c.regular expendableDirs).filter fun n => !c.fs.opened n := by
  rw [List.mem_filter, mem_regular, Cache.Expendable, Bool.not_eq_true', and_assoc, and_assoc]

/-- The candidates are expendable. -/
theorem expendable_of_mem_candidates {n : Name} (h : n ∈ c.candidates) : c.Expendable n := by
  unfold Cache.candidates at h
  split at h
  · exact expendable_iff.2 h
  · cases h

end Listing

/-! ## The deletions -/

section Deleting

variable {L : Libs} {c : Cache} {needed : Nat}

/-- The state without these files. -/
def remove (s : Fs) (names : List Name) : Fs := names.foldl (fun s n => s.set n none) s

/-- The deletions of these files one after the other, each with the state before it. -/
def deletionsOf (s : Fs) : List Name → List (Fs × Name)
  | [] => []
  | n :: ns => (s, n) :: deletionsOf (s.set n none) ns

/-- The files that are left. -/
theorem remove_files (s : Fs) (names : List Name) (n : Name) :
    (remove s names).files n = if n ∈ names then none else s.files n := by
  induction names generalizing s with
  | nil => rfl
  | cons m names ih =>
      rw [remove, List.foldl_cons, ← remove, ih]
      by_cases hn : n = m
      · subst hn
        simp
      · simp [hn]

/-- The names of the deletions. -/
theorem map_deletionsOf (s : Fs) (names : List Name) :
    (deletionsOf s names).map Prod.snd = names := by
  induction names generalizing s with
  | nil => rfl
  | cons n names ih => rw [deletionsOf, List.map_cons, ih]

/-- The states before the deletions. -/
theorem mem_deletionsOf {s : Fs} {names : List Name} {d : Fs × Name} (h : d ∈ deletionsOf s names) :
    d.2 ∈ names ∧ ∃ j < names.length, d.1 = remove s (names.take j) := by
  induction names generalizing s with
  | nil => cases h
  | cons n names ih =>
      rcases List.mem_cons.1 h with rfl | h
      · exact ⟨List.mem_cons_self .., 0, Nat.succ_pos _, rfl⟩
      · obtain ⟨hmem, j, hj, hd⟩ := ih h
        exact ⟨List.mem_cons_of_mem n hmem, j + 1, Nat.succ_lt_succ hj, hd⟩

/-- Each deletion finds the files removed that come before it. -/
theorem deletion_at (s : Fs) {names : List Name} {j : Nat} (hj : j < names.length) :
    ∃ d ∈ deletionsOf s names, d.1 = remove s (names.take j) := by
  induction names generalizing s j with
  | nil => exact absurd hj (Nat.not_lt_zero j)
  | cons n names ih =>
      cases j with
      | zero => exact ⟨(s, n), List.mem_cons_self .., rfl⟩
      | succ j =>
          obtain ⟨d, hd, heq⟩ := ih (s.set n none) (Nat.lt_of_succ_lt_succ hj)
          exact ⟨d, List.mem_cons_of_mem _ hd, heq⟩

/-- One round of the loop, as long as the space is too small. -/
theorem deleteLoop_cons {freeNow : Nat} (h : freeNow < needed) (n : Option Name)
    (names : List (Option Name)) (s : Fs) :
    deleteLoop L c needed (n :: names) freeNow s = match n with
      | none => deleteLoop L c needed names freeNow s
      | some name =>
          let r := deleteLoop L c needed names (freeSpaceForFile L c (s.set name none))
            (s.set name none)
          (r.1, r.2.1, (s, name) :: r.2.2) := by
  cases n with
  | none => simp only [deleteLoop, if_pos h]
  | some name => simp only [deleteLoop, if_pos h]

/-- The loop stops when there is enough. -/
theorem deleteLoop_enough {freeNow : Nat} (h : needed ≤ freeNow) (names : List (Option Name))
    (s : Fs) : deleteLoop L c needed names freeNow s = (freeNow, s, []) := by
  cases names with
  | nil => rfl
  | cons n names => cases n <;> simp only [deleteLoop, if_neg (Nat.not_lt.2 h)]

/-- The holes make no difference. -/
theorem deleteLoop_holes (names : List (Option Name)) (freeNow : Nat) (s : Fs) :
    deleteLoop L c needed names freeNow s =
      deleteLoop L c needed ((names.filterMap id).map some) freeNow s := by
  induction names generalizing freeNow s with
  | nil => rfl
  | cons n names ih =>
      by_cases hfree : freeNow < needed
      · rw [deleteLoop_cons hfree]
        cases n with
        | none => exact ih freeNow s
        | some name =>
            have hcons : (some name :: names).filterMap id = name :: names.filterMap id := rfl
            rw [hcons, List.map_cons, deleteLoop_cons hfree]
            simp only [ih]
      · have hle := Nat.not_lt.1 hfree
        rw [deleteLoop_enough hle, deleteLoop_enough hle]

/-- The loop deletes the names in order until enough space is reported or none is left. -/
theorem deleteLoop_stops (L : Libs) (c : Cache) (needed : Nat) (names : List Name) (s : Fs) :
    ∃ k ≤ names.length,
      (∀ j < k, freeSpaceForFile L c (remove s (names.take j)) < needed) ∧
      (k < names.length → needed ≤ freeSpaceForFile L c (remove s (names.take k))) ∧
      deleteLoop L c needed (names.map some) (freeSpaceForFile L c s) s =
        (freeSpaceForFile L c (remove s (names.take k)), remove s (names.take k),
          deletionsOf s (names.take k)) := by
  induction names generalizing s with
  | nil => exact ⟨0, Nat.le_refl 0, fun _ h => absurd h (Nat.not_lt_zero _), nofun, rfl⟩
  | cons n names ih =>
      by_cases hfree : freeSpaceForFile L c s < needed
      · obtain ⟨k, hk, hbefore, hstop, heq⟩ := ih (s.set n none)
        refine ⟨k + 1, Nat.succ_le_succ hk, ?_, ?_, ?_⟩
        · intro j hj
          cases j with
          | zero => exact hfree
          | succ j => exact hbefore j (Nat.lt_of_succ_lt_succ hj)
        · exact fun hlt => hstop (Nat.lt_of_succ_lt_succ hlt)
        · rw [List.map_cons, deleteLoop_cons hfree]
          simp only [heq]
          rfl
      · refine ⟨0, Nat.zero_le _, fun _ h => absurd h (Nat.not_lt_zero _), ?_, ?_⟩
        · exact fun _ => Nat.not_lt.1 hfree
        · exact deleteLoop_enough (Nat.not_lt.1 hfree) _ s

/-- The result of the call when the first `k` candidates are deleted. -/
def Freed.after (L : Libs) (c : Cache) (needed : Nat) (listed : Bool) (k : Nat) : Freed where
  status := if needed ≤ freeSpaceForFile L c (remove c.fs (c.candidates.take k)) then 0 else -1
  listed := listed
  left := remove c.fs (c.candidates.take k)
  deletions := deletionsOf c.fs (c.candidates.take k)

/-- The call stops after `k` candidates. -/
structure StopsAfter (L : Libs) (c : Cache) (needed : Nat) (listed : Bool) (k : Nat) : Prop where
  le : k ≤ c.candidates.length
  before : ∀ j < k, freeSpaceForFile L c (remove c.fs (c.candidates.take j)) < needed
  stop : k < c.candidates.length → needed ≤ freeSpaceForFile L c (remove c.fs (c.candidates.take k))
  all : listed = true → c.proc.isSome = true

/-- The function deletes some of the candidates, in their order. -/
theorem makeFreeSpaceOnCache_stops (L : Libs) (c : Cache) (needed : Nat) :
    ∃ listed k, StopsAfter L c needed listed k ∧
      makeFreeSpaceOnCache L c needed = some (.after L c needed listed k) := by
  by_cases hfree : needed ≤ freeSpaceForFile L c c.fs
  · refine ⟨false, 0, ⟨Nat.zero_le _, fun _ h => absurd h (Nat.not_lt_zero _), fun _ => hfree, nofun⟩, ?_⟩
    simp only [makeFreeSpaceOnCache, ge_iff_le, hfree, if_true, Freed.after, List.take_zero, remove,
      List.foldl_nil]
    rfl
  · -- both early returns with -1 leave everything in place
    have hnone : ∀ listed, c.candidates = [] → (listed = true → c.proc.isSome = true) →
        StopsAfter L c needed listed 0 ∧
          Freed.after L c needed listed 0 = ⟨-1, listed, c.fs, []⟩ := by
      intro listed hnil hall
      refine ⟨⟨Nat.zero_le _, fun _ h => absurd h (Nat.not_lt_zero _), ?_, hall⟩, ?_⟩
      · rw [hnil]
        exact nofun
      · exact congrArg (fun status => Freed.mk status listed c.fs []) (if_neg hfree)
    simp only [makeFreeSpaceOnCache, ge_iff_le, if_neg hfree, findExpendableFiles_eq,
      Option.bind_eq_bind, Option.bind_some]
    cases hproc : c.proc with
    | none =>
        obtain ⟨hstops, hafter⟩ := hnone false (by simp [Cache.candidates, hproc]) nofun
        exact ⟨false, 0, hstops, congrArg some hafter.symm⟩
    | some ps =>
        have hsome : c.proc.isSome = true := by rw [hproc]; rfl
        have hcand : (withHoles (c.regular expendableDirs) c.fs.opened).filterMap id =
            c.candidates := by
          rw [filterMap_withHoles, Cache.candidates, if_pos hsome]
        simp only [Option.map_some]
        by_cases hempty : withHoles (c.regular expendableDirs) c.fs.opened = []
        · obtain ⟨hstops, hafter⟩ := hnone true (by rw [← hcand, hempty]; rfl) fun _ => hsome
          refine ⟨true, 0, hstops, ?_⟩
          rw [if_pos hempty]
          exact congrArg some hafter.symm
        · obtain ⟨k, hk, hbefore, hstop, hloop⟩ := deleteLoop_stops L c needed c.candidates c.fs
          refine ⟨true, k, ⟨hk, hbefore, hstop, fun _ => hsome⟩, ?_⟩
          rw [if_neg hempty, deleteLoop_holes, hcand, hloop]
          rfl

/-- The free space counts as enough when the deletions have first made it enough: it must not be
lost in the width of `size_t`. -/
def ReportsEnough (L : Libs) (c : Cache) (needed : Nat) : Prop :=
  ∀ k ≤ c.candidates.length,
    (∀ j < k, c.free (remove c.fs (c.candidates.take j)) < needed) →
    needed ≤ c.free (remove c.fs (c.candidates.take k)) →
    needed ≤ c.free (remove c.fs (c.candidates.take k)) % 2 ^ L.sizeBits

/-- It reports success exactly if enough is reported free. -/
theorem Freed.status_after (L : Libs) (c : Cache) (needed : Nat) (listed : Bool) (k : Nat) :
    (Freed.after L c needed listed k).status = 0 ↔
      needed ≤ freeSpaceForFile L c (remove c.fs (c.candidates.take k)) := by
  simp only [Freed.after]
  split
  next hle => exact iff_of_true rfl hle
  next hnot => exact iff_of_false (by decide) hnot

/-- What is reported is at most what is free. -/
theorem freeSpaceForFile_le (L : Libs) (c : Cache) (s : Fs) : freeSpaceForFile L c s ≤ c.free s :=
  Nat.mod_le _ _

/-- Reported as too little, and in fact too little. -/
theorem StopsAfter.short {listed : Bool} {k : Nat} (h : StopsAfter L c needed listed k)
    (hreports : ReportsEnough L c needed) {j : Nat} (hj : j < k) :
    c.free (remove c.fs (c.candidates.take j)) < needed := by
  -- the first state with enough space would be reported as such, so there is none before `k`
  induction j using Nat.strong_induction_on with
  | _ j ih =>
      by_contra hnot
      have hle : j ≤ c.candidates.length := (Nat.le_of_lt hj).trans h.le
      have henough := hreports j hle (fun i hi => ih i hi (hi.trans hj)) (Nat.not_lt.1 hnot)
      exact absurd (h.before j hj) (Nat.not_lt.2 henough)

/-- The outcome is right exactly if what is reported is enough when it matters. -/
theorem StopsAfter.sound_iff {listed : Bool} {k : Nat} (h : StopsAfter L c needed listed k) :
    Sound c needed (.after L c needed listed k) ↔ ReportsEnough L c needed := by
  have hlen : (c.candidates.take k).length = k := by
    rw [List.length_take, Nat.min_eq_left h.le]
  have htake : ∀ j < k, (c.candidates.take k).take j = c.candidates.take j := by
    intro j hj
    rw [List.take_take, Nat.min_eq_left (Nat.le_of_lt hj)]
  constructor
  · intro hsound m hm hbefore henough
    by_contra hnot
    rcases Nat.lt_trichotomy m k with hlt | rfl | hgt
    · -- the next file is deleted although there is enough space
      obtain ⟨d, hd, hstate⟩ := deletion_at c.fs (hlen.symm ▸ hlt : m < (c.candidates.take k).length)
      rw [htake m hlt] at hstate
      have := hsound.asNeeded d hd
      rw [hstate] at this
      exact absurd this (Nat.not_lt.2 henough)
    · -- the call fails although there is enough space
      have hstatus : (Freed.after L c needed listed m).status = 0 := hsound.status.2 henough
      exact hnot ((Freed.status_after L c needed listed m).1 hstatus)
    · -- the call stops earlier, with enough space
      have hreported := h.stop (Nat.lt_of_lt_of_le hgt hm)
      have hfree := hreported.trans (freeSpaceForFile_le L c _)
      exact absurd (hbefore k hgt) (Nat.not_lt.2 hfree)
  · intro hreports
    have hstatus := Freed.status_after L c needed listed k
    exact {
      only := by
        intro d hd
        exact expendable_of_mem_candidates (List.mem_of_mem_take (mem_deletionsOf hd).1)
      changed := by
        intro n
        rw [Freed.after, map_deletionsOf]
        exact remove_files c.fs _ n
      asNeeded := by
        intro d hd
        obtain ⟨-, j, hj, hstate⟩ := mem_deletionsOf hd
        rw [hlen] at hj
        rw [hstate, htake j hj]
        exact h.short hreports hj
      status := by
        refine hstatus.trans ⟨fun hle => hle.trans (freeSpaceForFile_le L c _), ?_⟩
        exact fun hle => hreports k h.le (fun j hj => h.short hreports hj) hle
      exhausted := by
        intro hfailed hlisted n hn
        have hnot : ¬ needed ≤ freeSpaceForFile L c (remove c.fs (c.candidates.take k)) := by
          rw [← hstatus, hfailed]
          decide
        have hk : k = c.candidates.length :=
          Nat.le_antisymm h.le (Nat.not_lt.1 fun hlt => hnot (h.stop hlt))
        have hmem : n ∈ c.candidates.take k := by
          rw [hk, List.take_length, Cache.candidates, if_pos (h.all hlisted)]
          exact expendable_iff.1 hn
        exact (remove_files c.fs _ n).trans (if_pos hmem) }

end Deleting

/-- The call returns, and does what it is for exactly when the free space is not lost in the width
of `size_t` at the moment it becomes enough. -/
theorem freeCache_sound_iff (L : Libs) (c : Cache) (needed : Nat) :
    ∃ r, makeFreeSpaceOnCache L c needed = some r ∧
      (Sound c needed r ↔ ReportsEnough L c needed) := by
  obtain ⟨listed, k, hstops, hcall⟩ := makeFreeSpaceOnCache_stops L c needed
  exact ⟨_, hcall, hstops.sound_iff⟩

/-! ## The program over the file system -/

section Refinement

variable {c : Cache}

/-- A run of an operation and what comes after it. -/
theorem run_op {α : Type} {o : Op} {k : o.Res → FsProg α} {s t : Fs} {out : Option α} (r : o.Res)
    (h : s.Allowed o r) (hrest : Run fsMachine (s.apply o r) (k r) t out) :
    Run fsMachine s (Prog.call o >>= k) t out := .step r h hrest

/-- The run of `FreeSpaceForFile`. -/
theorem run_freeSpaceForFile (L : Libs) (c : Cache) (s : Fs) :
    Run fsMachine s (ApplyPatch.freeSpaceForFile L (cstr "/cache")) s
      (some (freeSpaceForFile L c s)) :=
  run_op (o := .statfs (cstr "/cache")) (some (c.bsize, c.bfree s)) trivial (.ret s _)

/-- The run over the entries of a directory. -/
theorem run_regularEntries (d : Name) (es : List Name) :
    Run fsMachine c.fs (regularEntries d es) c.fs (some (c.regularIn d es)) := by
  induction es with
  | nil => exact .ret _ _
  | cons e es ih =>
      by_cases htemp : joinPath d e = cacheTempSource
      · have hskip : regularEntries d (e :: es) = regularEntries d es := if_pos htemp
        rw [hskip, c.regularIn_cons, if_neg fun h => h.1 htemp]
        exact ih
      · have hstat : regularEntries d (e :: es) = (do
            let reg ← sysStatReg (joinPath d e)
            let rest ← regularEntries d es
            return if reg then joinPath d e :: rest else rest) := if_neg htemp
        have hlist : c.regularIn d (e :: es) =
            if (c.fs.files (joinPath d e)).isSome then joinPath d e :: c.regularIn d es
            else c.regularIn d es := by
          simp only [c.regularIn_cons, ne_eq, htemp, not_false_eq_true, true_and]
        rw [hstat, hlist]
        exact run_op (o := .statReg (joinPath d e)) _ rfl (ih.bind (.ret _ _))

/-- The run over the directories. -/
theorem run_regularFiles (ds : List Name) :
    Run fsMachine c.fs (regularFiles ds) c.fs (some (c.regular ds)) := by
  induction ds with
  | nil => exact .ret _ _
  | cons d ds ih =>
      have hcons : c.regular (d :: ds) = c.regularIn d ((c.readdir d).getD []) ++ c.regular ds :=
        List.flatMap_cons
      rw [hcons, regularFiles]
      refine run_op (o := .opendir d) (c.readdir d) ?_ ?_
      · intro es hes
        refine ⟨c.once d es hes, c.plain d es hes, ?_⟩
        intro e he hsome
        obtain ⟨es', hes', hmem⟩ := c.listed d e he hsome
        cases hes.symm.trans hes'
        exact hmem
      · cases c.readdir d with
        | none => exact ih
        | some es => exact (run_regularEntries d es).bind (ih.bind (.ret _ _))

/-- The links of all processes. -/
def ProcEntry.links (p : ProcEntry) : List Name :=
  if p.isProcess then (p.fds.getD []).filterMap id else []

/-- The links of a process are the files it holds. -/
theorem ProcEntry.mem_links {p : ProcEntry} {n : Name} : n ∈ p.links ↔ p.holds n = true := by
  unfold ProcEntry.links ProcEntry.holds
  cases p.isProcess with
  | false => simp
  | true =>
      cases p.fds with
      | none => simp
      | some links => simp

/-- The run of `FindExpendableFiles`. -/
theorem run_findExpendableFiles (c : Cache) :
    Run fsMachine c.fs ApplyPatch.findExpendableFiles c.fs (some (c.proc.map fun _ =>
      withHoles (c.regular expendableDirs) c.fs.opened)) := by
  refine (run_regularFiles expendableDirs).bind ?_
  refine run_op (o := .openFiles) (c.proc.map fun ps => ps.flatMap ProcEntry.links) ?_ ?_
  · -- the answer about the open files is allowed because every open file is some link of `/proc`
    intro links hlinks n
    obtain ⟨ps, hps, rfl⟩ := Option.map_eq_some_iff.1 hlinks
    rw [c.held ps hps, List.any_eq_true, List.mem_flatMap]
    exact exists_congr fun p => and_congr_right fun _ => ProcEntry.mem_links
  · cases hproc : c.proc with
    | none => exact .ret _ _
    | some ps =>
        have hnames : ((c.regular expendableDirs).map fun n =>
            if (cstr "/cache/").isPrefixOf n ∧ n ∈ ps.flatMap ProcEntry.links then none else some n) =
              withHoles (c.regular expendableDirs) c.fs.opened := by
          refine List.map_congr_left fun n hn => ?_
          have hmem : n ∈ ps.flatMap ProcEntry.links ↔ c.fs.opened n = true := by
            rw [c.held ps hproc, List.any_eq_true, List.mem_flatMap]
            exact exists_congr fun p => and_congr_right fun _ => ProcEntry.mem_links
          simp only [cache_prefix_of_regular hn, hmem, true_and]
        simp only [Option.map_some, hnames]
        exact .ret _ _

/-- The run of the loop that deletes. -/
theorem run_deleteUntil (L : Libs) (c : Cache) (needed : Nat) (names : List (Option Name))
    (freeNow : Nat) (s : Fs) :
    Run fsMachine s (deleteUntil L needed names freeNow)
      (deleteLoop L c needed names freeNow s).2.1
      (some (deleteLoop L c needed names freeNow s).1) := by
  induction names generalizing freeNow s with
  | nil => exact .ret _ _
  | cons n names ih =>
      by_cases hfree : freeNow < needed
      · rw [deleteLoop_cons hfree]
        cases n with
        | none =>
            simp only [deleteUntil, if_pos hfree]
            exact ih freeNow s
        | some name =>
            simp only [deleteUntil, if_pos hfree]
            refine run_op (o := .unlink name) _ rfl ?_
            exact (run_freeSpaceForFile L c _).bind (ih _ _)
      · rw [deleteLoop_enough (Nat.not_lt.1 hfree)]
        cases n <;> simp only [deleteUntil, if_neg hfree]
        · exact .ret _ _
        · exact .ret _ _

/-- The call is a run of the program. -/
theorem run_makeFreeSpaceOnCache {L : Libs} {needed : Nat} {r : Freed}
    (h : makeFreeSpaceOnCache L c needed = some r) :
    Run fsMachine c.fs (ApplyPatch.makeFreeSpaceOnCache L needed) r.left (some r.status) := by
  refine (run_freeSpaceForFile L c c.fs).bind ?_
  simp only [makeFreeSpaceOnCache, ge_iff_le, findExpendableFiles_eq, Option.bind_eq_bind,
    Option.bind_some] at h
  by_cases hfree : needed ≤ freeSpaceForFile L c c.fs
  · rw [if_pos hfree] at h
    simp only [ge_iff_le, if_pos hfree]
    cases h
    exact .ret _ _
  · rw [if_neg hfree] at h
    simp only [ge_iff_le, if_neg hfree]
    refine (run_findExpendableFiles c).bind ?_
    cases hproc : c.proc with
    | none =>
        simp only [hproc, Option.map_none] at h
        cases h
        exact .ret _ _
    | some ps =>
        simp only [hproc, Option.map_some] at h ⊢
        by_cases hempty : withHoles (c.regular expendableDirs) c.fs.opened = []
        · rw [if_pos hempty] at h
          simp only [hempty, if_true]
          cases h
          exact .ret _ _
        · rw [if_neg hempty] at h
          simp only [if_neg hempty]
          cases h
          exact (run_deleteUntil L c needed _ _ _).bind (.ret _ _)

end Refinement

namespace Sample

/-- The directory is what comes before the first slash. -/
theorem append_slash_inj {a a' b b' : Name} (ha : slash ∉ a) (ha' : slash ∉ a')
    (h : a ++ slash :: b = a' ++ slash :: b') : a = a' ∧ b = b' := by
  induction a generalizing a' with
  | nil =>
      cases a' with
      | nil => exact ⟨rfl, (List.cons.inj h).2⟩
      | cons x a' => exact absurd ((List.cons.inj h).1 ▸ List.mem_cons_self ..) ha'
  | cons x a ih =>
      cases a' with
      | nil => exact absurd ((List.cons.inj h).1 ▸ List.mem_cons_self ..) ha
      | cons y a' =>
          obtain ⟨rfl, htail⟩ := List.cons.inj h
          obtain ⟨rfl, rfl⟩ := ih (fun hm => ha (List.mem_cons_of_mem x hm))
            (fun hm => ha' (List.mem_cons_of_mem x hm)) htail
          exact ⟨rfl, rfl⟩

/-- The last component of a path. -/
theorem joinPath_inj {d d' e e' : Name} (he : slash ∉ e) (he' : slash ∉ e')
    (h : joinPath d e = joinPath d' e') : d = d' ∧ e = e' := by
  have hsplit : ∀ d e : Name, (joinPath d e).reverse = e.reverse ++ slash :: d.reverse := by
    intro d e
    rw [joinPath, List.reverse_append, List.reverse_append]
    rfl
  have hrev := congrArg List.reverse h
  rw [hsplit, hsplit] at hrev
  obtain ⟨hlast, hdir⟩ := append_slash_inj (List.mem_reverse.not.2 he) (List.mem_reverse.not.2 he') hrev
  exact ⟨List.reverse_injective hdir, List.reverse_injective hlast⟩

/-- One file on `/cache`, and 4 GiB free. -/
def fourGiB : Cache where
  fs := ⟨fun n => if n = cstr "/cache/a.file" then some ⟨cstr "a", newStat⟩ else none,
    fun _ => none, fun _ => false⟩
  bsize := 4096
  bfree _ := 2 ^ 20
  readdir d := if d = cstr "/cache" then some [cstr "a.file"] else none
  proc := some []
  plain d es h e he := by
    split at h
    · cases h
      rw [List.mem_singleton.1 he]
      decide
    · cases h
  once d es h := by
    split at h
    · cases h
      exact List.nodup_singleton _
    · cases h
  listed d e he h := by
    have hfile : joinPath d e = cstr "/cache/a.file" := by
      by_contra hne
      simp only [if_neg hne] at h
      cases h
    have hpath : joinPath d e = joinPath (cstr "/cache") (cstr "a.file") := hfile
    obtain ⟨rfl, rfl⟩ := joinPath_inj he (by decide) hpath
    exact ⟨_, rfl, List.mem_singleton_self _⟩
  held ps h n := by
    cases h
    rfl

/-- Libraries of a 32-bit target. -/
def libs : Libs where
  sha1 _ := []
  bzDecompress _ := ([], .dataError)
  inflate _ := none
  inflateStarved _ := none
  deflate _ _ := none
  sizeBits := 32
  wide := Libs.wide_narrow

/-- The call for one byte. -/
def oneByte : Option Freed := makeFreeSpaceOnCache libs fourGiB 1

end Sample

/-- With 4 GiB free, a call for one byte deletes a file and fails. -/
theorem freeCache_wraps :
    Sample.oneByte.map Freed.status = some (-1) ∧
      Sample.oneByte.map (fun r => r.deletions.map Prod.snd) = some [cstr "/cache/a.file"] ∧
      1 ≤ Sample.fourGiB.free Sample.fourGiB.fs ∧
      ∀ r, Sample.oneByte = some r → ¬ Sound Sample.fourGiB 1 r := by
  refine ⟨by decide +kernel, by decide +kernel, by decide, ?_⟩
  intro r hr hsound
  have hstatus : r.status = -1 := by
    have h : Sample.oneByte.map Freed.status = some (-1) := by decide +kernel
    rw [hr] at h
    exact Option.some.inj h
  have hzero : r.status = 0 := hsound.status.2 (by show 1 ≤ 4096 * 2 ^ 20; decide)
  exact absurd (hstatus.symm.trans hzero) (by decide)

end OpenRecovery.ApplyPatch.FreeCache
