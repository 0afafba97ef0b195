import OpenRecovery.Recovery.FileLines
import OpenRecovery.Recovery.Mounts
import OpenRecovery.Storage.Words

/-!
# Which mounts a scan sees

A scan looks at the lines of the first 2047 bytes (`scannedLines`), takes at most 63 bytes of a
field, and has room for 32 volumes. So it sees all mounts exactly if nothing of the file is beyond
these limits that does not occur within them (`MountsFit`). Earlier scans and unmounts leave the
array in a state that does not matter (`MountsState.Inv`).
-/

set_option autoImplicit false

namespace OpenRecovery.Recovery

open OpenRecovery.Storage OpenRecovery.Updater

/-! ## Fields -/

section Fields

variable {s x field : Bytes} {fields : List Bytes} {width : ℕ}

theorem isspace_newline : isspace newline = true := by decide

theorem scanWord_none (h : words isspace s = []) : scanWord width s = none := by
  refine if_pos ?_
  rw [← words_dropWhile] at h
  -- a byte that is left would begin a field
  cases hdrop : s.dropWhile isspace with
  | nil => rfl
  | cons c rest =>
      have hc : isspace c = false := by
        have hhead := List.head?_dropWhile_not isspace s
        rw [hdrop] at hhead
        simpa using hhead
      rw [hdrop, words_cons hc] at h
      cases h

/-- The first field, as far as it has room, and what is left: the other fields, and before them the
rest of a field that is too long. -/
theorem scanWord_words (width : ℕ) (h : words isspace s = field :: fields) :
    ∃ rest, scanWord width s = some (field.take width, rest) ∧
      words isspace rest =
        if field.length ≤ width then fields else field.drop width :: fields := by
  have hs : s.dropWhile isspace ≠ [] := by
    intro hnil
    rw [words_eq_nil hnil] at h
    cases h
  obtain ⟨c, t, ht⟩ := List.exists_cons_of_ne_nil hs
  have hc : isspace c = false := by
    have hhead := List.head?_dropWhile_not isspace s
    rw [ht] at hhead
    simpa using hhead
  rw [← words_dropWhile, ht, words_cons hc, List.cons.injEq] at h
  obtain ⟨hfield, hfields⟩ := h
  have hsplit := List.takeWhile_append_dropWhile (p := fun c => !isspace c) (l := c :: t)
  have hword : ∀ d ∈ field, isspace d = false := fun d hd => by
    rw [← hfield] at hd
    simpa using List.mem_takeWhile_imp (p := fun c => !isspace c) hd
  refine ⟨(c :: t).drop (field.take width).length, ?_, ?_⟩
  · rw [scanWord, ht, if_neg (List.cons_ne_nil c t), hfield]
  · rw [← hsplit, hfield]
    split
    · next hle => rw [List.take_of_length_le hle, List.drop_left, hfields]
    · -- the rest of a field that is too long is a field for the next `%s`
      next hlong =>
        rw [List.length_take, Nat.min_eq_left (by omega), List.drop_append_of_le_length (by omega),
          words_word_append, hfields]
        · rw [Ne, List.drop_eq_nil_iff]
          omega
        · exact fun d hd => hword d (List.mem_of_mem_drop hd)
        · intro d hd
          have hhead := List.head?_dropWhile_not (fun c => !isspace c) (c :: t)
          rw [Option.mem_def.mp hd] at hhead
          simpa using hhead

/-- What comes after the line is not read while there are fields. -/
theorem scanWord_append (h : words isspace x ≠ []) (more : Bytes) :
    scanWord width (x ++ newline :: more) =
      (scanWord width x).map fun r => (r.1, r.2 ++ newline :: more) := by
  have hx : x.dropWhile isspace ≠ [] := fun hnil => h (words_eq_nil hnil)
  have hdrop : (x ++ newline :: more).dropWhile isspace =
      x.dropWhile isspace ++ newline :: more := by
    rw [List.dropWhile_append, if_neg (by simpa using hx)]
  have htake : ((x.dropWhile isspace ++ newline :: more).takeWhile fun c => !isspace c) =
      (x.dropWhile isspace).takeWhile fun c => !isspace c := by
    rw [List.takeWhile_append]
    split
    · rw [List.takeWhile_cons_of_neg (by decide), List.append_nil]
      exact (List.takeWhile_prefix _).eq_of_length (by assumption) |>.symm
    · rfl
  have hne : x.dropWhile isspace ++ newline :: more ≠ [] := by simp
  have hlen := (List.takeWhile_prefix (p := fun c => !isspace c) (l := x.dropWhile isspace)).length_le
  -- the token ends before the line does
  have hcut : (x.dropWhile isspace ++ newline :: more).drop
        (((x.dropWhile isspace).takeWhile fun c => !isspace c).take width).length =
      (x.dropWhile isspace).drop
        (((x.dropWhile isspace).takeWhile fun c => !isspace c).take width).length ++
          newline :: more := by
    apply List.drop_append_of_le_length
    rw [List.length_take]
    omega
  rw [scanWord, scanWord, hdrop, if_neg hne, if_neg hx, Option.map_some, htake]
  simp only [hcut]

/-- There is one field less at most. -/
theorem scanWord_rest (width : ℕ) {n : ℕ} (h : n + 1 ≤ (words isspace s).length) :
    ∃ token rest, scanWord width s = some (token, rest) ∧ n ≤ (words isspace rest).length := by
  obtain ⟨field, fields, hwords⟩ := List.exists_cons_of_length_pos (Nat.lt_of_lt_of_le (Nat.succ_pos n) h)
  obtain ⟨rest, hscan, hrest⟩ := scanWord_words width hwords
  refine ⟨_, rest, hscan, ?_⟩
  rw [hwords, List.length_cons] at h
  rw [hrest]
  split
  · omega
  · rw [List.length_cons]
    omega

/-! ## One line -/

/-- A line with four fields is a volume, whatever comes after it. -/
theorem sscanfMounts_append (hfields : 4 ≤ (words isspace x).length) (hnul : 0 ∉ x) :
    (sscanfMounts x).isSome = true ∧
      ∀ more : Bytes, 0 ∉ more → sscanfMounts (x ++ newline :: more) = sscanfMounts x := by
  have hne : ∀ {n : ℕ} {s : Bytes}, n + 1 ≤ (words isspace s).length → words isspace s ≠ [] := by
    intro n s hlen hnil
    rw [hnil] at hlen
    exact absurd hlen (Nat.not_succ_le_zero n)
  -- each `%s` takes one field of the line at most
  obtain ⟨device, s₁, hdevice, h₁⟩ := scanWord_rest 63 hfields
  obtain ⟨mountPoint, s₂, hmountPoint, h₂⟩ := scanWord_rest 63 h₁
  obtain ⟨filesystem, s₃, hfilesystem, h₃⟩ := scanWord_rest 63 h₂
  obtain ⟨flags, s₄, hflags, -⟩ := scanWord_rest 127 h₃
  have hline : sscanfMounts x =
      some ⟨some device, some mountPoint, some filesystem, some flags⟩ := by
    rw [sscanfMounts, cText_eq_self hnul, hdevice]
    simp only [Option.bind_eq_bind, Option.bind_some, hmountPoint, hfilesystem, hflags]
    rfl
  refine ⟨by rw [hline]; rfl, fun more hmore => ?_⟩
  have hwhole : 0 ∉ x ++ newline :: more := by
    rw [List.mem_append, List.mem_cons, not_or, not_or]
    exact ⟨hnul, by decide, hmore⟩
  -- so none of the four reads behind the newline
  rw [hline, sscanfMounts, cText_eq_self hwhole, scanWord_append (hne hfields), hdevice]
  simp only [Option.bind_eq_bind, Option.map_some, Option.bind_some]
  rw [scanWord_append (hne h₁), hmountPoint]
  simp only [Option.map_some, Option.bind_some]
  rw [scanWord_append (hne h₂), hfilesystem]
  simp only [Option.map_some, Option.bind_some]
  rw [scanWord_append (hne h₃), hflags]
  rfl

/-- What a volume tells of the fields of its line. -/
structure ScansLine (s : Bytes) (v : MountedVolume) : Prop where
  device : ∃ field, (words isspace s)[0]? = some field ∧ v.device = some (field.take 63) ∧
    (field.length ≤ 63 → ∃ field', (words isspace s)[1]? = some field' ∧
      v.mountPoint = some (field'.take 63) ∧
      (field'.length ≤ 63 → 2 < (words isspace s).length))
  mountPoint : ∀ m, v.mountPoint = some m → m.length ≤ 63

theorem scansLine {v : MountedVolume} (hnul : 0 ∉ s) (h : sscanfMounts s = some v) :
    ScansLine s v := by
  rw [sscanfMounts, cText_eq_self hnul] at h
  obtain ⟨⟨device, s₁⟩, hdevice, h⟩ := Option.bind_eq_some_iff.mp h
  obtain ⟨⟨mountPoint, s₂⟩, hmountPoint, h⟩ := Option.bind_eq_some_iff.mp h
  obtain ⟨⟨filesystem, s₃⟩, hfilesystem, h⟩ := Option.bind_eq_some_iff.mp h
  obtain ⟨⟨flags, s₄⟩, -, h⟩ := Option.bind_eq_some_iff.mp h
  cases h
  -- the three strings that are read from the line, one after the other
  have hsome : ∀ {width : ℕ} {s rest token : Bytes}, scanWord width s = some (token, rest) →
      ∃ field fields, words isspace s = field :: fields ∧ token = field.take width ∧
        (field.length ≤ width → words isspace rest = fields) := by
    intro width s rest token hscan
    cases hwords : words isspace s with
    | nil =>
        rw [scanWord_none hwords] at hscan
        cases hscan
    | cons field fields =>
        obtain ⟨rest', hscan', hrest⟩ := scanWord_words width hwords
        rw [hscan, Option.some.injEq, Prod.mk.injEq] at hscan'
        obtain ⟨rfl, rfl⟩ := hscan'
        exact ⟨field, fields, rfl, rfl, fun hle => by rw [hrest, if_pos hle]⟩
  obtain ⟨field, fields, hwords, rfl, hrest⟩ := hsome hdevice
  obtain ⟨field', fields', hwords', rfl, hrest'⟩ := hsome hmountPoint
  obtain ⟨field'', fields'', hwords'', -, -⟩ := hsome hfilesystem
  constructor
  · refine ⟨field, by rw [hwords]; rfl, rfl, fun hle => ?_⟩
    rw [hrest hle] at hwords'
    refine ⟨field', by rw [hwords, hwords']; rfl, rfl, fun hle' => ?_⟩
    rw [hrest' hle'] at hwords''
    rw [hwords, hwords', hwords'', List.length_cons, List.length_cons, List.length_cons]
    omega
  · intro m hm
    cases hm
    exact List.length_take_le ..

end Fields

/-! ## The array -/

section Array

variable {s t : MountsState} {v : MountedVolume} {vs : List MountedVolume}

/-- The array is allocated as a whole, and the volumes are in it. -/
structure MountsState.Inv (s : MountsState) : Prop where
  length : ∀ volumes, s.volumes = some volumes → volumes.length = volumesAllocd
  count : s.volumeCount ≤ volumesAllocd

theorem clear_spec (h : s.Inv) :
    ∃ volumes, s.clear = ⟨some volumes, 0⟩ ∧ volumes.length = volumesAllocd := by
  obtain ⟨hlength, hcount⟩ := h
  rw [MountsState.clear]
  cases hvolumes : s.volumes with
  | none => exact ⟨_, rfl, List.length_replicate⟩
  | some volumes =>
      refine ⟨_, rfl, ?_⟩
      rw [List.length_append, List.length_replicate, List.length_drop, hlength volumes hvolumes]
      omega

theorem clear_inv (h : s.Inv) : s.clear.Inv := by
  obtain ⟨volumes, hclear, hlen⟩ := clear_spec h
  rw [hclear]
  refine ⟨fun volumes' h' => ?_, Nat.zero_le _⟩
  cases h'
  exact hlen

theorem clear_shown (h : s.Inv) : s.clear.shown = [] := by
  obtain ⟨volumes, hclear, -⟩ := clear_spec h
  rw [hclear]
  rfl

/-- A volume is added behind the others, if there is a cell for it. -/
theorem add_spec (v : MountedVolume) (h : s.Inv) {volumes : List MountedVolume} (hvolumes : s.volumes = some volumes) :
    if s.volumeCount < volumesAllocd then
      ∃ t volumes', s.add v = some t ∧ t.Inv ∧ t.volumes = some volumes' ∧
        t.volumeCount = s.volumeCount + 1 ∧ t.shown = s.shown ++ [v]
    else s.add v = none := by
  have hlen := h.length volumes hvolumes
  rw [MountsState.add, hvolumes, Option.bind_some, hlen]
  split
  · next hlt =>
      refine ⟨_, _, rfl, ⟨fun volumes' h' => ?_, hlt⟩, rfl, rfl, ?_⟩
      · cases h'
        rw [List.length_set, hlen]
      · rw [MountsState.shown, MountsState.shown, hvolumes]
        show (volumes.set s.volumeCount v).take (s.volumeCount + 1) = _
        rw [List.take_add_one, List.take_set_of_le (le_refl _),
          List.getElem?_set_self (by rw [hlen]; exact hlt)]
        rfl
  · rfl

/-- All volumes of a list are added, if there are cells for them. -/
theorem addAll_spec (h : s.Inv) {volumes : List MountedVolume} (hvolumes : s.volumes = some volumes)
    (vs : List MountedVolume) :
    if s.volumeCount + vs.length ≤ volumesAllocd then
      ∃ t, vs.foldlM (fun s v => s.add v) s = some t ∧ t.Inv ∧ t.shown = s.shown ++ vs
    else vs.foldlM (fun s v => s.add v) s = none := by
  induction vs generalizing s volumes with
  | nil =>
      rw [List.length_nil, if_pos (show s.volumeCount + 0 ≤ volumesAllocd from h.count)]
      exact ⟨s, rfl, h, (List.append_nil _).symm⟩
  | cons v vs ih =>
      have hadd := add_spec v h hvolumes
      rw [List.foldlM_cons, List.length_cons]
      -- the first volume has a cell, or nothing is added at all
      by_cases hlt : s.volumeCount < volumesAllocd
      · rw [if_pos hlt] at hadd
        obtain ⟨t, volumes', hadd, hinv, hvolumes', hcount, hshown⟩ := hadd
        have hrest := ih hinv hvolumes'
        rw [hcount, hshown] at hrest
        rw [hadd, Option.bind_eq_bind, Option.bind_some,
          show s.volumeCount + (vs.length + 1) = s.volumeCount + 1 + vs.length by omega]
        rwa [List.append_assoc, List.singleton_append] at hrest
      · rw [if_neg hlt] at hadd
        rw [hadd, if_neg (by omega)]
        rfl

theorem add_inv (h : s.Inv) (hadd : s.add v = some t) : t.Inv := by
  obtain ⟨volumes, hvolumes, -⟩ := Option.bind_eq_some_iff.mp hadd
  have hspec := add_spec v h hvolumes
  split at hspec
  · obtain ⟨t', volumes', hadd', hinv, -⟩ := hspec
    rw [hadd, Option.some.injEq] at hadd'
    exact hadd' ▸ hinv
  · rw [hadd] at hspec
    cases hspec

theorem parseMounts_inv {n : ℕ} {rest : Bytes} (h : s.Inv) (hparse : parseMounts n rest s = some t) :
    t.Inv := by
  induction n generalizing rest s with
  | zero =>
      cases hparse
      exact h
  | succ n ih =>
      rw [parseMounts] at hparse
      split at hparse
      · cases hparse
        exact h
      · obtain ⟨t', hround, hparse⟩ := Option.bind_eq_some_iff.mp hparse
        split at hround
        · cases hround
          exact ih h hparse
        · exact ih (add_inv h hround) hparse

/-- Whatever has been scanned and unmounted before. -/
theorem inv_of_reached (h : MountsReached s) : s.Inv := by
  induction h with
  | init => exact ⟨nofun, Nat.zero_le _⟩
  | scan file _ hscan ih =>
      cases file with
      | none =>
          cases hscan
          exact clear_inv ih
      | some content =>
          obtain ⟨t', hparse, ht⟩ := Option.map_eq_some_iff.mp hscan
          cases ht
          exact parseMounts_inv (clear_inv ih) hparse
  -- a volume that is unmounted stays in its cell without strings
  | unmount ret i _ hunmount ih =>
      obtain ⟨volumes, hvolumes, hunmount⟩ := Option.bind_eq_some_iff.mp hunmount
      split at hunmount
      · cases hunmount
        split
        · refine ⟨fun volumes' h' => ?_, ih.count⟩
          cases h'
          rw [List.length_set, ih.length volumes hvolumes]
        · exact ih
      · cases hunmount

end Array

/-! ## The lines of the buffer -/

section Loop

variable {s t : MountsState} {rest : Bytes}

theorem eatLine_fileLines {line : Bytes} {lines : List Bytes} (h : fileLines rest = line :: lines) :
    rest = line ++ eatLine rest ∧ fileLines (eatLine rest) = lines ∧
      (eatLine rest ≠ [] → ∃ x, line = x ++ [newline]) := by
  induction rest generalizing line with
  | nil => cases h
  | cons c rest ih =>
      rw [fileLines] at h
      by_cases hc : c = newline
      · rw [if_pos hc, List.cons.injEq] at h
        obtain ⟨rfl, rfl⟩ := h
        have heat : eatLine (c :: rest) = rest := by
          rw [eatLine, List.dropWhile_cons_of_neg (by simp [hc]), List.tail_cons]
        rw [heat, hc]
        exact ⟨rfl, rfl, fun _ => ⟨[], rfl⟩⟩
      · have heat : eatLine (c :: rest) = eatLine rest := by
          rw [eatLine, List.dropWhile_cons_of_pos (by simp [hc])]
          rfl
        rw [if_neg hc] at h
        rw [heat]
        cases hrest : fileLines rest with
        | nil =>
            rw [hrest] at h
            cases h
            -- the last line of the buffer has no newline
            have hnil : rest = [] := by
              by_contra hne
              exact fileLines_ne_nil hne hrest
            rw [hnil]
            exact ⟨rfl, rfl, fun hne => absurd rfl hne⟩
        | cons line' lines' =>
            rw [hrest] at h
            cases h
            obtain ⟨happend, hlines, hend⟩ := ih hrest
            refine ⟨by rw [List.cons_append, ← happend], hlines, fun hne => ?_⟩
            obtain ⟨x, hx⟩ := hend hne
            exact ⟨c :: x, by rw [hx, List.cons_append]⟩

/-- A line that ends in a newline has its four fields. -/
def WholeLines (rest : Bytes) : Prop :=
  ∀ x, x ++ [newline] ∈ fileLines rest → 4 ≤ (words isspace x).length

/-- The loop adds the volumes of the lines. -/
theorem parseMounts_eq {n : ℕ} (hn : rest.length ≤ n) (hnul : 0 ∉ rest) (hwhole : WholeLines rest)
    (s : MountsState) :
    parseMounts n rest s =
      ((fileLines rest).filterMap sscanfMounts).foldlM (fun s v => s.add v) s := by
  induction n generalizing rest s with
  | zero =>
      rw [List.length_eq_zero_iff.mp (Nat.le_zero.mp hn)]
      rfl
  | succ n ih =>
      rw [parseMounts]
      by_cases hnil : rest = []
      · rw [if_pos hnil, hnil]
        rfl
      · obtain ⟨line, lines, hlines⟩ := List.exists_cons_of_ne_nil (fileLines_ne_nil hnil)
        -- the round eats the first line
        obtain ⟨happend, hrest, hend⟩ := eatLine_fileLines hlines
        have hline : line ∈ fileLines rest := hlines ▸ List.mem_cons_self ..
        have hlen := congrArg List.length happend
        have hpos := List.length_pos_iff.mpr (ne_nil_of_mem_fileLines hline)
        rw [List.length_append] at hlen
        have hnul' : 0 ∉ eatLine rest := fun hmem =>
          hnul (happend ▸ List.mem_append_right line hmem)
        -- sscanf sees the whole rest of the buffer, but it stops in the line
        have hscan : sscanfMounts rest = sscanfMounts line := by
          by_cases hlast : eatLine rest = []
          · rw [hlast, List.append_nil] at happend
            rw [← happend]
          · obtain ⟨x, hx⟩ := hend hlast
            have hfields := hwhole x (hx ▸ hline)
            have hnulx : 0 ∉ x := fun hmem => by
              rw [happend, hx] at hnul
              exact hnul (List.mem_append_left _ (List.mem_append_left _ hmem))
            obtain ⟨-, hmore⟩ := sscanfMounts_append hfields hnulx
            calc sscanfMounts rest
                = sscanfMounts (x ++ newline :: eatLine rest) := by
                  rw [List.append_cons, ← hx, ← happend]
              _ = sscanfMounts x := hmore _ hnul'
              _ = sscanfMounts line := by rw [hx, hmore [] List.not_mem_nil]
        have hwhole' : WholeLines (eatLine rest) := fun x hx =>
          hwhole x (hlines ▸ List.mem_cons_of_mem line (hrest ▸ hx))
        rw [if_neg hnil, hscan, hlines, ← hrest]
        cases hv : sscanfMounts line with
        | none =>
            -- a line without four fields adds nothing
            rw [List.filterMap_cons_none hv, Option.bind_some]
            exact ih (by omega) hnul' hwhole' s
        | some v =>
            rw [List.filterMap_cons_some hv, List.foldlM_cons]
            -- the volume has a cell, or the loop ends outside of the array
            cases hadd : s.add v with
            | none =>
                simp only [hadd]
                rfl
            | some t =>
                simp only [hadd, Option.bind_some]
                exact ih (by omega) hnul' hwhole' t

end Loop

/-! ## What a scan sees -/

/-- The file is text, and every line has four fields at least. -/
structure IsMounts (content : Bytes) : Prop where
  nul : 0 ∉ content
  fields : ∀ line ∈ fileLines content, 4 ≤ (words isspace line).length

/-- The lines of the first 2047 bytes, the last of which may be cut, as far as they make a volume.
-/
def scannedLines (content : Bytes) : List Bytes :=
  (fileLines (content.take mountsRoom)).filter fun part => (sscanfMounts part).isSome

/-- After the scan a volume is found for the first field of every line, and for the second one, and
for nothing else. -/
def SeesMounts (content : Bytes) (s : MountsState) : Prop :=
  ∃ t, scanMountedVolumes (some content) s = some (0, t) ∧
    (∀ m, findMountedVolumeByMountPoint m t ≠ none ↔
      ∃ line ∈ fileLines content, (words isspace line)[1]? = some m) ∧
    ∀ d, findMountedVolumeByDevice d t ≠ none ↔
      ∃ line ∈ fileLines content, (words isspace line)[0]? = some d

/-- The file stays within the limits of the scan: there are cells for the volumes, the devices and
the mount points have room in their buffers, and what a line says that is not scanned is said by a
line that is. -/
structure MountsFit (content : Bytes) : Prop where
  count : (scannedLines content).length ≤ volumesAllocd
  short : ∀ line ∈ fileLines content, ∀ field ∈ (words isspace line).take 2, field.length ≤ 63
  mountPoints : ∀ line ∈ fileLines content, ∃ part ∈ scannedLines content,
    (words isspace part)[1]? = (words isspace line)[1]?
  devices : ∀ line ∈ fileLines content, ∃ part ∈ scannedLines content,
    (words isspace part)[0]? = (words isspace line)[0]?

section Scan

variable {content part : Bytes} {s : MountsState}

/-- A line of the buffer begins a line of the file. -/
theorem part_prefix (h : part ∈ fileLines (content.take mountsRoom)) :
    ∃ line ∈ fileLines content, part <+: line := by
  obtain ⟨i, hi⟩ := List.mem_iff_getElem?.mp h
  obtain ⟨line, hline, hbegins⟩ := fileLines_take mountsRoom i hi
  exact ⟨line, List.mem_of_getElem? hline, hbegins⟩

theorem nul_part (hcontent : IsMounts content) (h : part ∈ fileLines (content.take mountsRoom)) :
    0 ∉ part := by
  intro hmem
  have hflat : part.Sublist (content.take mountsRoom) := by
    rw [← flatten_fileLines (content.take mountsRoom)]
    exact List.sublist_flatten_of_mem h
  exact hcontent.nul (List.mem_of_mem_take (hflat.subset hmem))

theorem wholeLines_take (hcontent : IsMounts content) : WholeLines (content.take mountsRoom) := by
  intro x hx
  obtain ⟨line, hline, hbegins⟩ := part_prefix hx
  have hlast := newline_notMem_dropLast hline
  -- a newline ends the line
  have heq : x ++ [newline] = line := by
    obtain ⟨rest, hrest⟩ := hbegins
    rcases List.eq_nil_or_concat rest with rfl | ⟨front, last, rfl⟩
    · rwa [List.append_nil] at hrest
    · rw [← hrest, List.concat_eq_append, ← List.append_assoc, List.dropLast_concat] at hlast
      simp at hlast
  have hfields := hcontent.fields line hline
  rwa [← heq, words_append_break isspace_newline, words_nil, List.append_nil] at hfields

/-- The result of a scan. -/
theorem scan_spec (hs : s.Inv) (hcontent : IsMounts content) :
    if (scannedLines content).length ≤ volumesAllocd then
      ∃ t, scanMountedVolumes (some content) s = some (0, t) ∧
        t.shown = (fileLines (content.take mountsRoom)).filterMap sscanfMounts
    else scanMountedVolumes (some content) s = none := by
  have hnul : 0 ∉ content.take mountsRoom := fun hmem => hcontent.nul (List.mem_of_mem_take hmem)
  have hlen : (scannedLines content).length =
      ((fileLines (content.take mountsRoom)).filterMap sscanfMounts).length := by
    rw [scannedLines, List.length_filterMap_eq_countP, List.countP_eq_length_filter]
  obtain ⟨volumes, hclear, -⟩ := clear_spec hs
  have hall := addAll_spec (clear_inv hs) (by rw [hclear])
    ((fileLines (content.take mountsRoom)).filterMap sscanfMounts)
  have hcount : s.clear.volumeCount = 0 := by rw [hclear]
  rw [hcount, Nat.zero_add, ← hlen, clear_shown hs, List.nil_append] at hall
  rw [scanMountedVolumes]
  simp only [parseMounts_eq (le_refl _) hnul (wholeLines_take hcontent)]
  split
  · next hle =>
      rw [if_pos hle] at hall
      obtain ⟨t, hfold, -, hshown⟩ := hall
      exact ⟨t, by rw [hfold]; rfl, hshown⟩
  · next hgt =>
      rw [if_neg hgt] at hall
      rw [hall]
      rfl

theorem findByDevice_iff {d : Bytes} :
    findMountedVolumeByDevice d s ≠ none ↔ ∃ v ∈ s.shown, v.device = some d := by
  rw [findMountedVolumeByDevice, Ne, List.findIdx?_eq_none_iff]
  simp

theorem findByMountPoint_iff {m : Bytes} :
    findMountedVolumeByMountPoint m s ≠ none ↔ ∃ v ∈ s.shown, v.mountPoint = some m := by
  rw [findMountedVolumeByMountPoint, Ne, List.findIdx?_eq_none_iff]
  simp

/-- The volume of a line that is scanned has the fields of a line of the file, if these have room: a
line that is cut is only a volume if its third field has begun. -/
theorem scanned_fields (hcontent : IsMounts content)
    (hshort : ∀ line ∈ fileLines content, ∀ field ∈ (words isspace line).take 2, field.length ≤ 63)
    (hpart : part ∈ fileLines (content.take mountsRoom)) {v : MountedVolume}
    (hv : sscanfMounts part = some v) :
    ∃ line ∈ fileLines content, ∃ d m, (words isspace line)[0]? = some d ∧
      (words isspace line)[1]? = some m ∧ (words isspace part)[0]? = some d ∧
      (words isspace part)[1]? = some m ∧ v.device = some d ∧ v.mountPoint = some m := by
  obtain ⟨⟨d, hd, hdevice, hnext⟩, -⟩ := scansLine (nul_part hcontent hpart) hv
  obtain ⟨line, hline, y, rfl⟩ := part_prefix hpart
  -- the first two fields of the line have room, so those of the part have
  have hroom : ∀ {i : ℕ} {w : Bytes}, i < 2 → (words isspace (part ++ y))[i]? = some w →
      w.length ≤ 63 := fun {i w} hi hw =>
    hshort _ hline w (List.mem_of_getElem? (List.getElem?_take_of_lt hi ▸ hw))
  -- a field that another one follows in the part is the field of the line
  obtain ⟨d', hd', hbegins, hwhole⟩ := words_append part y hd
  have hdlen : d.length ≤ 63 := le_trans hbegins.length_le (hroom (by decide) hd')
  obtain ⟨m, hm, hmountPoint, hthird⟩ := hnext hdlen
  obtain ⟨m', hm', hbegins', hwhole'⟩ := words_append part y hm
  have hmlen : m.length ≤ 63 := le_trans hbegins'.length_le (hroom (by decide) hm')
  have hlen := hthird hmlen
  rw [hwhole (by omega)] at hd'
  rw [hwhole' hlen] at hm'
  rw [List.take_of_length_le hdlen] at hdevice
  rw [List.take_of_length_le hmlen] at hmountPoint
  exact ⟨_, hline, d, m, hd', hm', hd, hm, hdevice, hmountPoint⟩

/-- The string of a volume for the first or the second field. -/
def MountedVolume.field (v : MountedVolume) (i : ℕ) : Option Bytes :=
  if i = 0 then v.device else v.mountPoint

/-- The volumes have the fields of the lines, and no others. -/
def FindsField (content : Bytes) (t : MountsState) (i : ℕ) : Prop :=
  ∀ f, (∃ v ∈ t.shown, v.field i = some f) ↔
    ∃ line ∈ fileLines content, (words isspace line)[i]? = some f

variable {t : MountsState} {i : ℕ}

theorem scanned_field (hi : i < 2) (hcontent : IsMounts content)
    (hshort : ∀ line ∈ fileLines content, ∀ field ∈ (words isspace line).take 2, field.length ≤ 63)
    (hpart : part ∈ fileLines (content.take mountsRoom)) {v : MountedVolume}
    (hv : sscanfMounts part = some v) :
    ∃ line ∈ fileLines content, ∃ f, (words isspace line)[i]? = some f ∧
      (words isspace part)[i]? = some f ∧ v.field i = some f := by
  obtain ⟨line, hline, d, m, hd, hm, hd', hm', hdevice, hmount⟩ :=
    scanned_fields hcontent hshort hpart hv
  obtain rfl | rfl : i = 0 ∨ i = 1 := by omega
  · exact ⟨line, hline, d, hd, hd', hdevice⟩
  · exact ⟨line, hline, m, hm, hm', hmount⟩

/-- What is found is short. -/
theorem short_of_finds (hi : i < 2) (hcontent : IsMounts content)
    (hshown : t.shown = (fileLines (content.take mountsRoom)).filterMap sscanfMounts)
    (hfinds : FindsField content t i) {line f : Bytes} (hline : line ∈ fileLines content)
    (hf : (words isspace line)[i]? = some f) : f.length ≤ 63 := by
  obtain ⟨v, hv, hvf⟩ := (hfinds f).mpr ⟨line, hline, hf⟩
  obtain ⟨part, hpart, hscanned⟩ := List.mem_filterMap.mp (hshown ▸ hv)
  obtain ⟨⟨d, -, hd, -⟩, hmount⟩ := scansLine (nul_part hcontent hpart) hscanned
  obtain rfl | rfl : i = 0 ∨ i = 1 := by omega
  · -- what is stored has been cut to 63 bytes
    have hdevice : v.device = some f := hvf
    rw [hdevice, Option.some.injEq] at hd
    rw [hd]
    exact List.length_take_le ..
  · exact hmount f hvf

/-- With short fields, a field of the lines is found if it stands in a line that is scanned. -/
theorem finds_iff (hi : i < 2) (hcontent : IsMounts content)
    (hshort : ∀ line ∈ fileLines content, ∀ field ∈ (words isspace line).take 2, field.length ≤ 63)
    (hshown : t.shown = (fileLines (content.take mountsRoom)).filterMap sscanfMounts) :
    FindsField content t i ↔ ∀ line ∈ fileLines content, ∃ part ∈ scannedLines content,
      (words isspace part)[i]? = (words isspace line)[i]? := by
  constructor
  · intro hfinds line hline
    have hlen := hcontent.fields line hline
    have hf := List.getElem?_eq_getElem (show i < (words isspace line).length by omega)
    obtain ⟨v, hv, hvf⟩ := (hfinds _).mpr ⟨line, hline, hf⟩
    obtain ⟨part, hpart, hscanned⟩ := List.mem_filterMap.mp (hshown ▸ hv)
    obtain ⟨-, -, f, -, hpartf, hvf'⟩ := scanned_field hi hcontent hshort hpart hscanned
    rw [hvf, Option.some.injEq] at hvf'
    exact ⟨part, List.mem_filter.mpr ⟨hpart, by rw [hscanned]; rfl⟩, by rw [hpartf, hf, hvf']⟩
  · intro hparts f
    constructor
    · rintro ⟨v, hv, hvf⟩
      obtain ⟨part, hpart, hscanned⟩ := List.mem_filterMap.mp (hshown ▸ hv)
      obtain ⟨line, hline, f', hf', -, hvf'⟩ := scanned_field hi hcontent hshort hpart hscanned
      rw [hvf, Option.some.injEq] at hvf'
      exact ⟨line, hline, by rw [hf', hvf']⟩
    · rintro ⟨line, hline, hf⟩
      obtain ⟨part, hscannedLine, hpartf⟩ := hparts line hline
      obtain ⟨hpart, hsome⟩ := List.mem_filter.mp hscannedLine
      obtain ⟨v, hscanned⟩ := Option.isSome_iff_exists.mp hsome
      obtain ⟨-, -, f', -, hf', hvf⟩ := scanned_field hi hcontent hshort hpart hscanned
      rw [hpartf, hf, Option.some.injEq] at hf'
      exact ⟨v, hshown ▸ List.mem_filterMap.mpr ⟨part, hpart, hscanned⟩, by rw [hvf, hf']⟩

/-- A scan sees the mounts exactly if the file stays within its limits. -/
theorem seesMounts_iff (hs : MountsReached s) (hcontent : IsMounts content) :
    SeesMounts content s ↔ MountsFit content := by
  have hscan := scan_spec (inv_of_reached hs) hcontent
  have hfound : ∀ t : MountsState,
      ((∀ m, findMountedVolumeByMountPoint m t ≠ none ↔
          ∃ line ∈ fileLines content, (words isspace line)[1]? = some m) ↔
        FindsField content t 1) ∧
      ((∀ d, findMountedVolumeByDevice d t ≠ none ↔
          ∃ line ∈ fileLines content, (words isspace line)[0]? = some d) ↔
        FindsField content t 0) := fun t =>
    ⟨forall_congr' fun m => by rw [findByMountPoint_iff]; rfl,
      forall_congr' fun d => by rw [findByDevice_iff]; rfl⟩
  constructor
  · rintro ⟨t, ht, hmounts, hdevices⟩
    rw [(hfound t).1] at hmounts
    rw [(hfound t).2] at hdevices
    split at hscan
    · next hcount =>
        obtain ⟨t', ht', hshown⟩ := hscan
        rw [ht, Option.some.injEq, Prod.mk.injEq] at ht'
        obtain ⟨-, rfl⟩ := ht'
        have hshort : ∀ line ∈ fileLines content, ∀ field ∈ (words isspace line).take 2,
            field.length ≤ 63 := by
          intro line hline field hfield
          obtain ⟨i, hi⟩ := List.mem_iff_getElem?.mp hfield
          have hlt : i < 2 := by
            have hlen := (List.getElem?_eq_some_iff.mp hi).1
            rw [List.length_take] at hlen
            omega
          rw [List.getElem?_take_of_lt hlt] at hi
          obtain rfl | rfl : i = 0 ∨ i = 1 := by omega
          · exact short_of_finds hlt hcontent hshown hdevices hline hi
          · exact short_of_finds hlt hcontent hshown hmounts hline hi
        exact ⟨hcount, hshort,
          (finds_iff (by decide) hcontent hshort hshown).mp hmounts,
          (finds_iff (by decide) hcontent hshort hshown).mp hdevices⟩
    · rw [hscan] at ht
      cases ht
  · rintro ⟨hcount, hshort, hmounts, hdevices⟩
    rw [if_pos hcount] at hscan
    obtain ⟨t, ht, hshown⟩ := hscan
    refine ⟨t, ht, (hfound t).1.mpr ?_, (hfound t).2.mpr ?_⟩
    · exact (finds_iff (by decide) hcontent hshort hshown).mpr hmounts
    · exact (finds_iff (by decide) hcontent hshort hshown).mpr hdevices

/-- A file that is read as a whole only has to have few lines and short fields. -/
theorem mountsFit_of_small (hcontent : IsMounts content) (hroom : content.length ≤ mountsRoom)
    (hcount : (fileLines content).length ≤ volumesAllocd)
    (hshort : ∀ line ∈ fileLines content, ∀ field ∈ (words isspace line).take 2, field.length ≤ 63) :
    MountsFit content := by
  have hall : scannedLines content = fileLines content := by
    rw [scannedLines, List.take_of_length_le hroom]
    refine List.filter_eq_self.mpr fun line hline => ?_
    have hpart : line ∈ fileLines (content.take mountsRoom) := by
      rwa [List.take_of_length_le hroom]
    exact (sscanfMounts_append (hcontent.fields line hline) (nul_part hcontent hpart)).1
  refine ⟨hall ▸ hcount, hshort, fun line hline => ?_, fun line hline => ?_⟩
  · exact ⟨line, hall ▸ hline, rfl⟩
  · exact ⟨line, hall ▸ hline, rfl⟩

end Scan

namespace Sample

def threeMounts : Bytes :=
  cstr "rootfs / rootfs rw 0 0\ntmpfs /dev tmpfs rw 0 0\nproc /proc proc rw 0 0\n"

/-- A fourth file system is found, and unmounted. -/
def unmounted : Option MountsState :=
  (scanMountedVolumes (some (threeMounts ++ cstr "/dev/block/mmc /cache ext3 rw 0 0\n")) .init).bind
    fun scanned => unmountMountedVolume 0 3 scanned.2

theorem reached_of_unmounted {s : MountsState} (h : unmounted = some s) : MountsReached s := by
  obtain ⟨⟨r, t⟩, hscan, hunmount⟩ := Option.bind_eq_some_iff.mp h
  exact .unmount 0 3 (.scan _ .init hscan) hunmount

/-- The next scan finds the three that are left. -/
theorem mounts_seen_again :
    ∃ s, unmounted = some s ∧ s.volumeCount = 4 ∧ SeesMounts threeMounts s := by
  have hcount : (unmounted.map (·.volumeCount)) = some 4 := by decide +kernel
  obtain ⟨s, hs, hfour⟩ := Option.map_eq_some_iff.mp hcount
  have hcontent : IsMounts threeMounts := ⟨by decide +kernel, by decide +kernel⟩
  refine ⟨s, hs, hfour, (seesMounts_iff (reached_of_unmounted hs) hcontent).mpr ?_⟩
  exact mountsFit_of_small hcontent (by decide +kernel) (by decide +kernel) (by decide +kernel)

/-- One mount more than there are cells. -/
def manyMounts : Bytes := (List.replicate 33 (cstr "none /m tmpfs rw 0 0\n")).flatten

theorem many_mounts_overrun :
    MountsReached .init ∧ IsMounts manyMounts ∧ ¬ SeesMounts manyMounts .init := by
  refine ⟨.init, ⟨by decide +kernel, by decide +kernel⟩, ?_⟩
  rintro ⟨t, ht, -⟩
  have hscan : (scanMountedVolumes (some manyMounts) .init).isNone = true := by decide +kernel
  rw [ht] at hscan
  cases hscan

end Sample

end OpenRecovery.Recovery
