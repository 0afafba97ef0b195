import OpenRecovery.Recovery.Browser

/-!
# What the browsers show and do

The list that is meant is the way back, the files in their order and the sub-directories in theirs
(`IsListing`), and a choice means what its line says (`BrowserLine.after`). The way back is sorted
together with the files, so a file whose name is smaller than `../` takes its place; the test of
`script_directory` misses the name `.sh`; and a path that is too long is cut.
-/

set_option autoImplicit false

namespace OpenRecovery.Recovery

open OpenRecovery.Storage OpenRecovery.Updater

/-! ## The list that is meant -/

inductive BrowserLine where
  | parent
  | file (name : Bytes)
  | directory (name : Bytes)

/-- A sub-directory is shown with a slash. -/
def directoryLine (name : Bytes) : Bytes := name ++ [slash]

def BrowserLine.text : BrowserLine → Bytes
  | parent => parentLine
  | file name => name
  | directory name => directoryLine name

/-- A regular file whose name ends in the suffix, in upper or lower case. -/
def Browser.isFile (b : Browser) (e : DirEntry) : Bool :=
  e.type = .reg && b.suffix.isSuffixOf (e.name.map tolower)

/-- A sub-directory that does not begin with a dot. -/
def isDirectory (e : DirEntry) : Bool := e.type = .dir && e.name.head? ≠ some 46

def Browser.fileNames (b : Browser) (entries : List DirEntry) : List Bytes :=
  (entries.filter b.isFile).map DirEntry.name

def directoryNames (entries : List DirEntry) : List Bytes :=
  (entries.filter isDirectory).map DirEntry.name

/-- Each file and each sub-directory once, and both in order. -/
structure IsListing (b : Browser) (entries : List DirEntry) (files dirs : List Bytes) : Prop where
  filesPerm : files.Perm (b.fileNames entries)
  dirsPerm : dirs.Perm (directoryNames entries)
  filesSorted : files.Pairwise (· ≤ ·)
  dirsSorted : (dirs.map directoryLine).Pairwise (· ≤ ·)

def listing (files dirs : List Bytes) : List BrowserLine :=
  .parent :: (files.map .file ++ dirs.map .directory)

/-- The path of a name. -/
def pathOf (path name : Bytes) : Bytes := path ++ [slash] ++ name

/-- What the choice of a line is to do. -/
def BrowserLine.after (q : Qsort Bytes) (b : Browser) (content : Option (List DirEntry))
    (call : BrowserCall) (calls : List BrowserCall) :
    BrowserLine → Option (List BrowserCall × Option Bytes)
  | parent => some (calls, none)
  | file name => some (call :: calls, some (pathOf call.path name))
  | directory name =>
      (openDirectory q b (pathOf call.path name) content (call :: calls)).map fun calls => (calls, none)

/-- The browser shows what is meant, with a `NULL` inside of the array, and does what it shows. -/
def Browses (q : Qsort Bytes) (b : Browser) (path : Bytes) (entries : List DirEntry) : Prop :=
  ∃ l files dirs, browserLines q b entries = some l ∧ l.lines.length < l.alloc ∧
    IsListing b entries files dirs ∧ l.lines = (listing files dirs).map BrowserLine.text ∧
    ∀ content calls i line, (listing files dirs)[i]? = some line →
      browse q b content i (⟨path, l.lines⟩ :: calls) = line.after q b content ⟨path, l.lines⟩ calls

/-! ## Order and names -/

theorem compareString_le_zero {a b : Bytes} : compareString a b ≤ 0 ↔ a ≤ b := by
  rw [← List.not_lt]
  unfold compareString
  split
  · next hlt =>
      refine iff_of_true (by decide) ?_
      exact List.not_lt.mpr (List.le_of_lt hlt)
  · split
    · next hgt => exact iff_of_false (by decide) (not_not.mpr hgt)
    · next hgt => exact iff_of_true le_rfl hgt

theorem isCompare_compareString : IsCompare compareString where
  total a b := by
    rw [compareString_le_zero, compareString_le_zero]
    exact List.le_total a b
  trans a b c := by
    rw [compareString_le_zero, compareString_le_zero, compareString_le_zero]
    exact List.le_trans

theorem sort_sorted (q : Qsort Bytes) (l : List Bytes) :
    (q.sort compareString l).Pairwise (· ≤ ·) :=
  (q.sorted compareString l isCompare_compareString).imp compareString_le_zero.mp

/-- The file names are those with the suffix that are long enough. -/
theorem offers_iff (b : Browser) (name : Bytes) :
    b.offers name = true ↔ b.suffix.isSuffixOf (name.map tolower) = true ∧ b.minLength ≤ name.length := by
  have hmin : b.suffix.length ≤ b.minLength := by cases b <;> decide
  rw [Browser.offers, Bool.and_eq_true, decide_eq_true_eq, decide_eq_true_eq,
    List.isSuffixOf_iff_suffix, and_comm]
  refine and_congr_left fun hlen => ?_
  rw [List.suffix_iff_eq_drop, List.length_map, List.map_drop]
  exact eq_comm

/-- The last byte of a file name is not a slash. -/
theorem getLast?_ne_slash {b : Browser} {name : Bytes}
    (h : b.suffix.isSuffixOf (name.map tolower) = true) : name.getLast? ≠ some slash := by
  intro hslash
  -- a slash has no upper case, and neither suffix ends in one
  obtain ⟨stem, hstem⟩ := List.isSuffixOf_iff_suffix.mp h
  have hlast := congrArg List.getLast? hstem
  rw [List.getLast?_map, hslash, Option.map_some] at hlast
  cases b with
  | updateDirectory =>
      rw [List.getLast?_append_of_ne_nil _ (by decide)] at hlast
      exact absurd hlast (by decide)
  | scriptDirectory =>
      rw [List.getLast?_append_of_ne_nil _ (by decide)] at hlast
      exact absurd hlast (by decide)

/-! ## Paths -/

theorem newPath_eq (path item : Bytes) : newPath path item = (pathOf path item).take (pathMax - 1) := by
  rw [newPath, strlcpy, strlcat_take, strlcat_take, pathOf]

theorem length_pathOf (path name : Bytes) : (pathOf path name).length = path.length + name.length + 1 := by
  rw [pathOf, List.length_append, List.length_append, List.length_singleton]
  omega

/-- The path of a file is complete if it fits. -/
theorem newPath_file {path name : Bytes} :
    newPath path name = pathOf path name ↔ path.length + name.length + 1 < pathMax := by
  rw [newPath_eq, List.take_eq_self_iff, length_pathOf, pathMax]
  omega

/-- The path of a sub-directory needs room for the slash that is taken off again. -/
theorem newPath_directory {path name : Bytes} :
    (newPath path (directoryLine name)).dropLast = pathOf path name ↔
      path.length + name.length + 2 < pathMax := by
  have hline : pathOf path (directoryLine name) = pathOf path name ++ [slash] := by
    rw [pathOf, pathOf, directoryLine, List.append_assoc, List.append_assoc, List.append_assoc]
  rw [newPath_eq, hline]
  have hlen := length_pathOf path name
  constructor
  · intro h
    have hshort := congrArg List.length h
    rw [List.length_dropLast, List.length_take, List.length_append, List.length_singleton, hlen,
      pathMax] at hshort
    rw [pathMax]
    omega
  · intro h
    rw [List.take_of_length_le, List.dropLast_concat]
    rw [List.length_append, List.length_singleton, hlen, pathMax]
    rw [pathMax] at h
    omega

/-! ## The arrays -/

/-- An array is not longer than its allocation. -/
structure Lines.Ok (l : Lines) : Prop where
  pos : 0 < l.alloc
  le : l.lines.length ≤ l.alloc

theorem push_spec {l : Lines} (h : l.Ok) (line : Bytes) :
    ∃ l', l.push line = some l' ∧ l'.lines = l.lines ++ [line] ∧ l'.Ok := by
  obtain ⟨hpos, hle⟩ := h
  rw [Lines.push]
  -- a full array is doubled, and the allocation is never 0
  by_cases hfull : l.alloc ≤ l.lines.length
  · simp only [hfull, if_true]
    rw [if_pos (by omega)]
    refine ⟨_, rfl, rfl, Nat.mul_pos hpos (by decide), ?_⟩
    rw [List.length_append, List.length_singleton]
    show l.lines.length + 1 ≤ l.alloc * 2
    omega
  · simp only [hfull, if_false]
    rw [if_pos (by omega)]
    refine ⟨_, rfl, rfl, hpos, ?_⟩
    rw [List.length_append, List.length_singleton]
    show l.lines.length + 1 ≤ l.alloc
    omega

/-- The names that the loop takes. -/
def Browser.takenNames (b : Browser) (entries : List DirEntry) : List Bytes :=
  (entries.filter fun e => e.type = .reg && b.offers e.name).map DirEntry.name

theorem foldlM_readEntry (b : Browser) (entries : List DirEntry) {dirs files : Lines} (hdirs : dirs.Ok)
    (hfiles : files.Ok) :
    ∃ dirs' files', entries.foldlM (readEntry b) (dirs, files) = some (dirs', files') ∧
      dirs'.lines = dirs.lines ++ (directoryNames entries).map directoryLine ∧
      files'.lines = files.lines ++ b.takenNames entries ∧ files'.Ok := by
  induction entries generalizing dirs files with
  | nil =>
      refine ⟨dirs, files, rfl, ?_, ?_, hfiles⟩
      · exact (List.append_nil _).symm
      · exact (List.append_nil _).symm
  | cons e entries ih =>
      obtain ⟨name, type⟩ := e
      cases type with
      | dir =>
          have htaken : b.takenNames (⟨name, .dir⟩ :: entries) = b.takenNames entries := rfl
          -- a hidden directory is passed over, another one gets a slash
          by_cases hdot : name.head? = some 46
          · obtain ⟨dirs', files', hfold, hdirs', hfiles', hok⟩ := ih hdirs hfiles
            refine ⟨dirs', files', ?_, ?_, by rw [htaken, hfiles'], hok⟩
            · rw [List.foldlM_cons, readEntry]
              simp only [hdot, if_true]
              exact hfold
            · rw [hdirs', directoryNames, directoryNames,
                List.filter_cons_of_neg (by simp [isDirectory, hdot])]
          · obtain ⟨l, hpush, hlines, hok⟩ := push_spec hdirs (name ++ [slash])
            obtain ⟨dirs', files', hfold, hdirs', hfiles', hok'⟩ := ih hok hfiles
            refine ⟨dirs', files', ?_, ?_, by rw [htaken, hfiles'], hok'⟩
            · rw [List.foldlM_cons, readEntry]
              simp only [hdot, if_false, hpush, Option.map_some]
              exact hfold
            · rw [hdirs', hlines, directoryNames, directoryNames,
                List.filter_cons_of_pos (by simp [isDirectory, hdot]), List.map_cons, List.map_cons,
                List.append_assoc]
              rfl
      | reg =>
          have hnames : directoryNames (⟨name, .reg⟩ :: entries) = directoryNames entries := rfl
          -- a file is taken by its name
          by_cases hoffers : b.offers name = true
          · obtain ⟨l, hpush, hlines, hok⟩ := push_spec hfiles name
            obtain ⟨dirs', files', hfold, hdirs', hfiles', hok'⟩ := ih hdirs hok
            refine ⟨dirs', files', ?_, by rw [hnames, hdirs'], ?_, hok'⟩
            · rw [List.foldlM_cons, readEntry]
              simp only [hoffers, if_true, hpush, Option.map_some]
              exact hfold
            · rw [hfiles', hlines, Browser.takenNames, Browser.takenNames,
                List.filter_cons_of_pos (by simp [hoffers]), List.map_cons, List.append_assoc]
              rfl
          · obtain ⟨dirs', files', hfold, hdirs', hfiles', hok'⟩ := ih hdirs hfiles
            refine ⟨dirs', files', ?_, by rw [hnames, hdirs'], ?_, hok'⟩
            · rw [List.foldlM_cons, readEntry]
              simp only [hoffers]
              exact hfold
            · rw [hfiles', Browser.takenNames, Browser.takenNames,
                List.filter_cons_of_neg (by simp [hoffers])]
      | other =>
          obtain ⟨dirs', files', hfold, hdirs', hfiles', hok'⟩ := ih hdirs hfiles
          exact ⟨dirs', files', hfold, hdirs', hfiles', hok'⟩

/-- The list always fits, with the `NULL`. -/
theorem browserLines_spec (q : Qsort Bytes) (b : Browser) (entries : List DirEntry) :
    ∃ l, browserLines q b entries = some l ∧ l.lines.length < l.alloc ∧
      l.lines = q.sort compareString (parentLine :: b.takenNames entries) ++
        q.sort compareString ((directoryNames entries).map directoryLine) := by
  have hdirsOk : Lines.Ok ⟨[], 10⟩ := ⟨by decide, by decide⟩
  have hfilesOk : Lines.Ok ⟨[parentLine], 10⟩ := ⟨by decide, by decide⟩
  obtain ⟨dirs, files, hfold, hdirs, hfiles, -⟩ := foldlM_readEntry b entries hdirsOk hfilesOk
  rw [List.nil_append] at hdirs
  rw [browserLines, hfold, ← hdirs, ← List.singleton_append, ← hfiles]
  -- the array is enlarged if there is no room for all lines and the NULL
  show ∃ l, Lines.append _ _ = some l ∧ _ ∧ _
  rw [Lines.append]
  by_cases halloc : files.alloc < (q.sort compareString dirs.lines).length +
      (q.sort compareString files.lines).length + 1
  · simp only [halloc, if_true, le_refl]
    refine ⟨_, rfl, ?_, rfl⟩
    rw [List.length_append]
    show _ < (q.sort compareString dirs.lines).length + (q.sort compareString files.lines).length + 1
    omega
  · simp only [halloc, if_false]
    rw [if_pos (by omega)]
    refine ⟨_, rfl, ?_, rfl⟩
    rw [List.length_append]
    show _ < files.alloc
    omega

/-! ## The condition -/

section Condition

variable {q : Qsort Bytes} {b : Browser} {path : Bytes} {entries : List DirEntry}

/-- No file takes the place of the way back, no file name is too short for the test, and all paths
fit. -/
structure BrowserFits (b : Browser) (path : Bytes) (entries : List DirEntry) : Prop where
  first : ∀ name ∈ b.fileNames entries, parentLine ≤ name
  long : ∀ name ∈ b.fileNames entries, b.minLength ≤ name.length
  files : ∀ name ∈ b.fileNames entries, path.length + name.length + 1 < pathMax
  directories : ∀ name ∈ directoryNames entries, path.length + name.length + 2 < pathMax

theorem takenNames_eq (b : Browser) (entries : List DirEntry) :
    b.takenNames entries = (b.fileNames entries).filter fun name => b.minLength ≤ name.length := by
  rw [Browser.takenNames, Browser.fileNames, List.filter_map, List.filter_filter]
  congr 1
  refine List.filter_congr fun e _ => ?_
  rw [Bool.eq_iff_iff]
  simp only [Browser.isFile, Bool.and_eq_true, decide_eq_true_eq, offers_iff, Function.comp_apply]
  tauto

/-- A sorted list begins with its least element. -/
theorem head_of_sorted {a : Bytes} {as l : List Bytes} (hperm : l.Perm (a :: as))
    (hsorted : l.Pairwise (· ≤ ·)) (hle : ∀ x ∈ as, a ≤ x) :
    ∃ rest, l = a :: rest ∧ rest.Perm as := by
  cases l with
  | nil => exact absurd hperm.symm (List.not_perm_cons_nil)
  | cons x rest =>
      -- the first element and the least one are not above each other
      have hx : x = a := by
        apply List.le_antisymm
        · rcases List.mem_cons.mp (hperm.mem_iff.mpr (List.mem_cons_self ..)) with hmem | hmem
          · exact hmem ▸ List.le_refl _
          · exact (List.pairwise_cons.mp hsorted).1 a hmem
        · rcases List.mem_cons.mp (hperm.mem_iff.mp (List.mem_cons_self ..)) with hmem | hmem
          · exact hmem ▸ List.le_refl _
          · exact hle x hmem
      subst hx
      exact ⟨rest, rfl, (List.perm_cons x).mp hperm⟩

/-- The sorted lines of the sub-directories are the lines of their names. -/
theorem sorted_directories (q : Qsort Bytes) (names : List Bytes) :
    ∃ dirs : List Bytes, dirs.Perm names ∧
      dirs.map directoryLine = q.sort compareString (names.map directoryLine) := by
  have hperm := q.perm compareString (names.map directoryLine)
  refine ⟨(q.sort compareString (names.map directoryLine)).map List.dropLast, ?_, ?_⟩
  · have hnames := hperm.map List.dropLast
    rw [List.map_map] at hnames
    have hid : List.dropLast ∘ directoryLine = id := by
      funext name
      exact List.dropLast_concat ..
    rwa [hid, List.map_id] at hnames
  · -- every line ends in a slash, so taking it off and putting it on changes nothing
    rw [List.map_map]
    refine (List.map_congr_left fun line hline => ?_).trans (List.map_id _)
    obtain ⟨name, -, rfl⟩ := List.mem_map.mp (hperm.mem_iff.mp hline)
    show directoryLine (List.dropLast (name ++ [slash])) = _
    rw [List.dropLast_concat]
    rfl

/-- A choice, with the path that the code makes for it. -/
def BrowserLine.action (path : Bytes) : BrowserLine → BrowserAction
  | parent => .back
  | file name => .offer (newPath path name)
  | directory name => .directory (newPath path (directoryLine name)).dropLast

theorem browserAction_listing {files dirs : List Bytes}
    (hfiles : ∀ name ∈ files, name.getLast? ≠ some slash) {i : ℕ} {line : BrowserLine}
    (hline : (listing files dirs)[i]? = some line) :
    browserAction path ((listing files dirs).map BrowserLine.text) i = some (line.action path) := by
  rw [browserAction, List.getElem?_map, hline, Option.map_some, Option.map_some]
  cases i with
  | zero =>
      cases hline
      rfl
  | succ i =>
      rw [listing, List.getElem?_cons_succ] at hline
      rw [if_neg (Nat.succ_ne_zero i)]
      -- the last byte tells the files from the sub-directories
      rcases List.mem_append.mp (List.mem_of_getElem? hline) with hmem | hmem
      · obtain ⟨name, hname, rfl⟩ := List.mem_map.mp hmem
        exact congrArg some (if_neg (hfiles name hname))
      · obtain ⟨name, -, rfl⟩ := List.mem_map.mp hmem
        refine congrArg some (if_pos ?_)
        exact List.getLast?_concat ..

/-- A line of the list has an index. -/
theorem exists_getElem?_listing {files dirs : List Bytes} {line : BrowserLine}
    (h : line ∈ listing files dirs) : ∃ i : ℕ, (listing files dirs)[i]? = some line :=
  List.mem_iff_getElem?.mp h

theorem getLast?_fileNames {name : Bytes} (h : name ∈ b.fileNames entries) :
    name.getLast? ≠ some slash := by
  obtain ⟨e, he, rfl⟩ := List.mem_map.mp h
  have hfile := (List.mem_filter.mp he).2
  rw [Browser.isFile, Bool.and_eq_true] at hfile
  exact getLast?_ne_slash hfile.2

theorem map_text_listing (files dirs : List Bytes) :
    (listing files dirs).map BrowserLine.text = parentLine :: (files ++ dirs.map directoryLine) := by
  rw [listing, List.map_cons, List.map_append, List.map_map, List.map_map]
  congr 2
  exact List.map_id _

/-- What is shown, if no file name is too short or too small. -/
theorem shows_listing (q : Qsort Bytes)
    (hfirst : ∀ name ∈ b.fileNames entries, parentLine ≤ name)
    (hlong : ∀ name ∈ b.fileNames entries, b.minLength ≤ name.length) :
    ∃ l files dirs, browserLines q b entries = some l ∧ l.lines.length < l.alloc ∧
      IsListing b entries files dirs ∧ l.lines = (listing files dirs).map BrowserLine.text := by
  obtain ⟨l, hl, halloc, hlines⟩ := browserLines_spec q b entries
  have htaken : b.takenNames entries = b.fileNames entries := by
    rw [takenNames_eq]
    exact List.filter_eq_self.mpr fun name hname => decide_eq_true (hlong name hname)
  rw [htaken] at hlines
  have hsorted := sort_sorted q (parentLine :: b.fileNames entries)
  -- no name comes before the way back, so it stays the first line
  obtain ⟨files, hfiles, hperm⟩ := head_of_sorted (q.perm compareString _) hsorted hfirst
  obtain ⟨dirs, hdirs, hdirLines⟩ := sorted_directories q (directoryNames entries)
  refine ⟨l, files, dirs, hl, halloc, ⟨hperm, hdirs, ?_, ?_⟩, ?_⟩
  · rw [hfiles] at hsorted
    exact (List.pairwise_cons.mp hsorted).2
  · rw [hdirLines]
    exact sort_sorted q _
  · rw [hlines, hfiles, ← hdirLines, map_text_listing, List.cons_append]

/-- The browser does what it shows exactly when it meets no such name and no such path. -/
theorem browses_iff (q : Qsort Bytes) (b : Browser) (path : Bytes) (entries : List DirEntry) :
    Browses q b path entries ↔ BrowserFits b path entries := by
  constructor
  · rintro ⟨l, files, dirs, hl, -, hlisting, hlines, hbrowse⟩
    have hslash : ∀ name ∈ files, name.getLast? ≠ some slash := fun name hname =>
      getLast?_fileNames (hlisting.filesPerm.mem_iff.mp hname)
    have haction : ∀ (i : ℕ) (line : BrowserLine), (listing files dirs)[i]? = some line →
        browserAction path l.lines i = some (line.action path) := by
      intro i line hline
      rw [hlines]
      exact browserAction_listing hslash hline
    obtain ⟨l', hl', -, hsorts⟩ := browserLines_spec q b entries
    rw [hl, Option.some.injEq] at hl'
    subst hl'
    rw [map_text_listing] at hlines
    -- as many files are shown as there are, so the test misses none
    have hlong : ∀ name ∈ b.fileNames entries, b.minLength ≤ name.length := by
      have hlen := congrArg List.length (hsorts.symm.trans hlines)
      rw [List.length_append, (q.perm compareString _).length_eq, (q.perm compareString _).length_eq,
        List.length_cons, List.length_map, List.length_cons, List.length_append, List.length_map,
        hlisting.filesPerm.length_eq, hlisting.dirsPerm.length_eq, takenNames_eq] at hlen
      have hall := List.length_filter_eq_length_iff.mp
        (show ((b.fileNames entries).filter fun name => decide (b.minLength ≤ name.length)).length =
          (b.fileNames entries).length by omega)
      exact fun name hname => of_decide_eq_true (hall name hname)
    have htaken : b.takenNames entries = b.fileNames entries := by
      rw [takenNames_eq]
      exact List.filter_eq_self.mpr fun name hname => decide_eq_true (hlong name hname)
    refine ⟨fun name hname => ?_, hlong, fun name hname => ?_, fun name hname => ?_⟩
    · -- the first line is the least one
      have hsorted := sort_sorted q (parentLine :: b.takenNames entries)
      have hperm := q.perm compareString (parentLine :: b.takenNames entries)
      cases hsort : q.sort compareString (parentLine :: b.takenNames entries) with
      | nil =>
          rw [hsort] at hperm
          exact absurd hperm.length_eq (by simp)
      | cons x rest =>
          rw [hsorts, hsort, List.cons_append, List.cons.injEq] at hlines
          obtain ⟨rfl, -⟩ := hlines
          rw [hsort] at hsorted hperm
          have hmem := hperm.mem_iff.mpr (List.mem_cons_of_mem _ (htaken ▸ hname))
          rcases List.mem_cons.mp hmem with rfl | hmem
          · exact List.le_refl _
          · exact (List.pairwise_cons.mp hsorted).1 name hmem
    · -- choosing the file shows what path the code makes for it
      have hmem : BrowserLine.file name ∈ listing files dirs := by
        refine List.mem_cons_of_mem _ (List.mem_append_left _ (List.mem_map_of_mem ?_))
        exact hlisting.filesPerm.mem_iff.mpr hname
      obtain ⟨i, hi⟩ := exists_getElem?_listing hmem
      have hafter := hbrowse none [] i _ hi
      rw [browse] at hafter
      simp only [haction i _ hi, BrowserLine.action, BrowserLine.after, Option.some.injEq,
        Prod.mk.injEq, true_and] at hafter
      exact newPath_file.mp hafter
    · have hmem : BrowserLine.directory name ∈ listing files dirs := by
        refine List.mem_cons_of_mem _ (List.mem_append_right _ (List.mem_map_of_mem ?_))
        exact hlisting.dirsPerm.mem_iff.mpr hname
      obtain ⟨i, hi⟩ := exists_getElem?_listing hmem
      -- the path of the call for an empty directory
      obtain ⟨l', hl', -, -⟩ := browserLines_spec q b []
      have hafter := hbrowse (some []) [] i _ hi
      rw [browse] at hafter
      simp only [haction i _ hi, BrowserLine.action, BrowserLine.after, openDirectory, hl',
        Option.map_some, Option.some.injEq, Prod.mk.injEq, List.cons.injEq, BrowserCall.mk.injEq,
        and_true] at hafter
      exact newPath_directory.mp hafter
  · rintro ⟨hfirst, hlong, hfiles, hdirs⟩
    obtain ⟨l, files, dirs, hl, halloc, hlisting, hlines⟩ := shows_listing q hfirst hlong
    refine ⟨l, files, dirs, hl, halloc, hlisting, hlines, fun content calls i line hline => ?_⟩
    have haction : browserAction path l.lines i = some (line.action path) := by
      rw [hlines]
      refine browserAction_listing (fun name hname => ?_) hline
      exact getLast?_fileNames (hlisting.filesPerm.mem_iff.mp hname)
    rw [browse]
    simp only [haction]
    cases line with
    | parent => rfl
    | file name =>
        have hname : name ∈ files := by
          simpa [listing] using List.mem_of_getElem? hline
        have hpath := newPath_file.mpr (hfiles name (hlisting.filesPerm.mem_iff.mp hname))
        simp only [BrowserLine.action, BrowserLine.after, hpath]
    | directory name =>
        have hname : name ∈ dirs := by
          simpa [listing] using List.mem_of_getElem? hline
        have hpath := newPath_directory.mpr (hdirs name (hlisting.dirsPerm.mem_iff.mp hname))
        simp only [BrowserLine.action, BrowserLine.after, hpath]

end Condition

namespace Sample

/-- A package whose name begins with a dash. -/
theorem small_name_not_browsed :
    ¬ Browses (.insertion Bytes) .updateDirectory (cstr "/sdcard") [⟨cstr "-a.zip", .reg⟩] := by
  rintro ⟨l, files, dirs, hl, -, -, hlines, -⟩
  have hshown : (browserLines (.insertion Bytes) .updateDirectory [⟨cstr "-a.zip", .reg⟩]).map
      Lines.lines = some [cstr "-a.zip", parentLine] := by
    decide +kernel
  rw [hl, Option.map_some, Option.some.injEq, hlines, map_text_listing, List.cons.injEq] at hshown
  exact absurd hshown.1 (by decide)

end Sample

end OpenRecovery.Recovery
