import OpenRecovery.Recovery.FileLines
import OpenRecovery.Recovery.Resume

/-!
# The arguments in the boot message

`get_args` takes the lines of the command file for arguments, and writes them into the recovery
field of the boot message, from which a later `get_args` has them. `argsSurvive_iff` says for which
command files this works: a blank line among the first 99 has no token, a line that is longer than
the buffer falls apart, and what does not fit into the field is cut off. Arguments that come from a
field always fit into it again (`encoding_length_le`).
-/

set_option autoImplicit false

namespace OpenRecovery.Recovery

open OpenRecovery.Crash OpenRecovery.Storage OpenRecovery.Updater

/-! ## Lines -/

/-- A line without its end. -/
def lineText (line : Bytes) : Bytes := line.rdropWhile isLineEnd

/-- The lines that are not blank, as many as there is room for. -/
def givenArgs (content : Bytes) : List Bytes :=
  (((fileLines content).map lineText).filter (· ≠ [])).take (maxArgs - 1)

/-- A line that is one token, which a buffer of `n` bytes holds. -/
structure IsPlain (n : ℕ) (line : Bytes) : Prop where
  ne_nil : lineText line ≠ []
  carriageReturn : 13 ∉ lineText line
  nul : 0 ∉ lineText line
  length_le : (lineText line).length ≤ n

section Line

variable {n : ℕ} {line : Bytes}

theorem lineText_append (line : Bytes) :
    ∃ ends, line = lineText line ++ ends ∧ ∀ c ∈ ends, isLineEnd c = true :=
  ⟨line.rtakeWhile isLineEnd, (List.rdropWhile_append_rtakeWhile (p := isLineEnd)).symm,
    fun _ hc => List.mem_rtakeWhile_imp hc⟩

/-- Only ends. -/
theorem nextToken_of_blank {s : Bytes} (h : ∀ c ∈ s, isLineEnd c = true) :
    nextToken isLineEnd (cText s) = none := by
  have hdrop : (cText s).dropWhile isLineEnd = [] :=
    List.dropWhile_eq_nil_iff.mpr fun c hc => h c ((List.takeWhile_sublist _).subset hc)
  rw [nextToken, strtokNext, if_pos hdrop]
  rfl

theorem isLineEnd_of_blank (h : lineText line = []) : ∀ c ∈ line, isLineEnd c = true := by
  obtain ⟨ends, hline, hends⟩ := lineText_append line
  rw [h, List.nil_append] at hline
  rwa [hline]

/-- One token before the ends. -/
theorem nextToken_append {text ends : Bytes} (hne : text ≠ []) (hnul : 0 ∉ text)
    (htext : ∀ c ∈ text, isLineEnd c = false) (hends : ∀ c ∈ ends, isLineEnd c = true) :
    nextToken isLineEnd (cText (text ++ ends)) = some text := by
  have hnuls : 0 ∉ text ++ ends := by
    rw [List.mem_append, not_or]
    exact ⟨hnul, fun h => absurd (hends 0 h) (by decide)⟩
  have hdrop : (text ++ ends).dropWhile isLineEnd = text ++ ends := by
    -- the text does not begin with a line end
    obtain ⟨c, text, rfl⟩ := List.exists_cons_of_ne_nil hne
    rw [List.cons_append, List.dropWhile_cons_of_neg]
    rw [htext c (List.mem_cons_self ..)]
    exact Bool.false_ne_true
  have htake : (text ++ ends).takeWhile (fun c => !isLineEnd c) = text := by
    rw [List.takeWhile_append_of_pos fun c hc => by rw [htext c hc]; rfl]
    cases ends with
    | nil => rw [List.takeWhile_nil, List.append_nil]
    | cons c ends =>
      rw [List.takeWhile_cons_of_neg, List.append_nil]
      rw [hends c (List.mem_cons_self ..)]
      exact Bool.false_ne_true
  rw [nextToken, strtokNext, cText_eq_self hnuls, hdrop, if_neg (List.append_ne_nil_of_left_ne_nil hne _),
    Option.map_some, htake]

theorem newline_notMem_lineText (h : newline ∉ line.dropLast) : newline ∉ lineText line := by
  intro hmem
  obtain ⟨ends, hline, -⟩ := lineText_append line
  have hne : lineText line ≠ [] := List.ne_nil_of_mem hmem
  have hlast : isLineEnd ((lineText line).getLast hne) ≠ true :=
    List.rdropWhile_last_not isLineEnd line hne
  rw [← List.dropLast_append_getLast hne, List.mem_append, List.mem_singleton] at hmem
  -- inside of the text it would be inside of the line, and at its end it would have been cut off
  rcases hmem with hmem | hmem
  · refine h ?_
    rw [hline]
    cases ends with
    | nil => rwa [List.append_nil]
    | cons c ends =>
      rw [List.dropLast_append_of_ne_nil (List.cons_ne_nil c ends)]
      exact List.mem_append_left _ (List.mem_of_mem_dropLast hmem)
  · exact hlast (by rw [← hmem]; rfl)

/-- The token of a line is its text exactly if the line is plain. -/
theorem nextToken_eq_lineText_iff (h : newline ∉ line.dropLast) :
    nextToken isLineEnd (cText (line.take n)) = some (lineText line) ↔ IsPlain n line := by
  constructor
  · intro htoken
    obtain ⟨hne, hbytes⟩ := nextToken_spec htoken
    refine ⟨hne, fun hmem => ?_, fun hmem => ?_, ?_⟩
    · exact absurd (hbytes 13 hmem).2 (by decide)
    · exact zero_notMem_cText _ (hbytes 0 hmem).1
    · -- a token is no longer than the buffer
      obtain ⟨⟨tok, rest⟩, hnext, htok⟩ := Option.map_eq_some_iff.mp htoken
      have hlen := strtokNext_length hnext
      have htext : (cText (line.take n)).length ≤ (line.take n).length :=
        (List.takeWhile_sublist _).length_le
      rw [List.length_take] at htext
      rw [← htok]
      show tok.length ≤ n
      omega
  · intro hplain
    obtain ⟨ends, hline, hends⟩ := lineText_append line
    -- what the buffer holds is the text and some of the ends
    have htake : line.take n = lineText line ++ ends.take (n - (lineText line).length) := by
      conv_lhs => rw [hline]
      rw [List.take_append, List.take_of_length_le hplain.length_le]
    rw [htake]
    refine nextToken_append hplain.ne_nil hplain.nul (fun c hc => ?_) fun c hc =>
      hends c (List.mem_of_mem_take hc)
    have hnewline := newline_notMem_lineText h
    rw [isLineEnd, Bool.or_eq_false_iff, decide_eq_false_iff_not, decide_eq_false_iff_not]
    exact ⟨fun h => hplain.carriageReturn (h ▸ hc), fun h => hnewline (h ▸ hc)⟩

end Line

/-! ## The command file -/

/-- The file has plain lines, as many as there is room for, and none of them goes on in a second
buffer. -/
structure HasPlainLines (n : ℕ) (lines : List Bytes) : Prop where
  plain : ∀ line ∈ lines.take n, IsPlain (maxArgLength - 1) line
  short : ∀ line ∈ lines.take (n - 1), line.length ≤ maxArgLength - 1

section File

variable {n : ℕ} {stream line : Bytes} {lines : List Bytes}

theorem fgets_first (h : fileLines stream = line :: lines) (m : ℕ) :
    (fgets m stream).1 = line.take m := by
  by_cases hn : line.length ≤ m
  · rw [(fgets_fileLines h hn).1, List.take_of_length_le hn]
  · exact (fgets_fileLines_cut h (by omega)).1

theorem bind_cons_eq_some_iff {tok : Option Bytes} {rest : Option (List Bytes)} {arg : Bytes}
    {args : List Bytes} :
    (tok.bind fun tok => rest.map (tok :: ·)) = some (arg :: args) ↔
      tok = some arg ∧ rest = some args := by
  cases tok with
  | none => exact iff_of_false nofun nofun
  | some tok =>
    cases rest with
    | none => exact iff_of_false nofun nofun
    | some rest => simp

theorem ne_nil_of_fileLines (h : fileLines stream = line :: lines) : stream ≠ [] := by
  rintro rfl
  cases h

/-- One round of the loop. -/
theorem readLines_succ (h : fileLines stream = line :: lines) (n : ℕ) :
    readLines (n + 1) stream =
      (nextToken isLineEnd (cText (line.take (maxArgLength - 1)))).bind fun arg =>
        (readLines n (fgets (maxArgLength - 1) stream).2).map (arg :: ·) := by
  rw [readLines, if_neg (ne_nil_of_fileLines h), fgets_first h]
  cases nextToken isLineEnd (cText (line.take (maxArgLength - 1))) with
  | none => rfl
  | some arg => rfl

theorem readLines_blank (h : fileLines stream = line :: lines) (hblank : lineText line = [])
    (n : ℕ) : readLines (n + 1) stream = none := by
  have htoken : nextToken isLineEnd (cText (line.take (maxArgLength - 1))) = none :=
    nextToken_of_blank fun c hc => isLineEnd_of_blank hblank c (List.mem_of_mem_take hc)
  rw [readLines_succ h, htoken, Option.bind_none]

/-- What follows a plain line that is cut has no token. -/
theorem readLines_cut (h : fileLines stream = line :: lines)
    (hplain : IsPlain (maxArgLength - 1) line) (hlong : maxArgLength - 1 < line.length) (n : ℕ) :
    readLines (n + 1) (fgets (maxArgLength - 1) stream).2 = none := by
  refine readLines_blank (fgets_fileLines_cut h hlong).2 ?_ n
  obtain ⟨ends, hline, hends⟩ := lineText_append line
  have hdrop : line.drop (maxArgLength - 1) = ends.drop (maxArgLength - 1 - (lineText line).length) := by
    conv_lhs => rw [hline]
    rw [List.drop_append, List.drop_of_length_le hplain.length_le, List.nil_append]
  rw [lineText, hdrop, List.rdropWhile_eq_nil_iff]
  exact fun c hc => hends c (List.mem_of_mem_drop hc)

theorem hasPlainLines_zero (lines : List Bytes) : HasPlainLines 0 lines :=
  ⟨fun _ h => absurd h List.not_mem_nil, fun _ h => absurd h List.not_mem_nil⟩

theorem hasPlainLines_nil (n : ℕ) : HasPlainLines n [] :=
  ⟨fun _ h => absurd (List.mem_of_mem_take h) List.not_mem_nil,
    fun _ h => absurd (List.mem_of_mem_take h) List.not_mem_nil⟩

theorem hasPlainLines_cons : HasPlainLines (n + 1) (line :: lines) ↔
    IsPlain (maxArgLength - 1) line ∧ (0 < n → line.length ≤ maxArgLength - 1) ∧
      HasPlainLines n lines := by
  constructor
  · rintro ⟨hplain, hshort⟩
    rw [List.take_succ_cons, List.forall_mem_cons] at hplain
    refine ⟨hplain.1, fun hn => hshort line ?_, hplain.2, fun l hl => ?_⟩
    · obtain ⟨m, rfl⟩ := Nat.exists_eq_succ_of_ne_zero (Nat.ne_of_gt hn)
      exact List.mem_cons_self ..
    · cases n with
      | zero => cases hl
      | succ m => exact hshort l (List.mem_cons_of_mem _ hl)
  · rintro ⟨hplain, hshort, hplains, hshorts⟩
    refine ⟨?_, fun l hl => ?_⟩
    · rw [List.take_succ_cons, List.forall_mem_cons]
      exact ⟨hplain, hplains⟩
    · cases n with
      | zero => cases hl
      | succ m =>
        rcases List.mem_cons.mp hl with rfl | hl
        · exact hshort (Nat.succ_pos m)
        · exact hshorts l hl

/-- The arguments that the loop reads are the lines exactly if the lines are plain. -/
theorem readLines_eq_iff (n : ℕ) (stream : Bytes) :
    readLines n stream = some ((((fileLines stream).map lineText).filter (· ≠ [])).take n) ↔
      HasPlainLines n (fileLines stream) := by
  induction n generalizing stream with
  | zero => exact iff_of_true (by rw [readLines, List.take_zero]) (hasPlainLines_zero _)
  | succ n ih =>
    cases hlines : fileLines stream with
    | nil =>
      have hnil : stream = [] := by
        by_contra hne
        exact fileLines_ne_nil hne hlines
      refine iff_of_true ?_ (hasPlainLines_nil _)
      rw [hnil, readLines, if_pos rfl]
      rfl
    | cons line lines =>
      have hmem : line ∈ fileLines stream := hlines ▸ List.mem_cons_self ..
      have htoken := nextToken_eq_lineText_iff (n := maxArgLength - 1) (newline_notMem_dropLast hmem)
      rw [hasPlainLines_cons, List.map_cons]
      by_cases hblank : lineText line = []
      · -- `strdup` gets NULL
        rw [readLines_blank hlines hblank]
        exact iff_of_false (by rintro ⟨⟩) fun h => h.1.ne_nil hblank
      rw [List.filter_cons_of_pos (by simpa using hblank), List.take_succ_cons,
        readLines_succ hlines, bind_cons_eq_some_iff, htoken]
      -- the first argument is right, and the others are what the next rounds read
      refine and_congr_right fun hplain => ?_
      cases n with
      | zero =>
        rw [readLines, List.take_zero]
        exact iff_of_true rfl ⟨fun h => absurd h (Nat.lt_irrefl 0), hasPlainLines_zero _⟩
      | succ n =>
        by_cases hshort : line.length ≤ maxArgLength - 1
        · have hrest := (fgets_fileLines hlines hshort).2
          have hread := ih (fgets (maxArgLength - 1) stream).2
          rw [hrest] at hread
          rw [hread]
          exact ⟨fun h => ⟨fun _ => hshort, h⟩, fun h => h.2⟩
        · -- the rest of the line is all that the next round reads
          rw [readLines_cut hlines hplain (by omega)]
          exact iff_of_false (by rintro ⟨⟩) fun h => hshort (h.1 (Nat.succ_pos n))

end File

/-! ## The recovery field -/

section Field

variable {args : List Bytes}

theorem encoding_eq_flatMap (args : List Bytes) :
    encoding args = (cstr "recovery" :: args).flatMap fun arg => arg ++ [newline] := by
  rw [encoding, List.flatMap_cons]
  congr 1

/-- The arguments of a field fit into a field. -/
theorem encoding_length_le {recovery : Bytes} (h : bootArgs recovery = some args) :
    (encoding args).length ≤ 1024 := by
  rw [bootArgs] at h
  split at h
  · next first rest htokens =>
      split at h
      · next hfirst =>
          cases h
          have hlen := strtok_length_le newline (cText (recovery.take 1023))
          have hfield : (cText (recovery.take 1023)).length ≤ 1023 :=
            (List.takeWhile_sublist _).length_le.trans (List.length_take_le _ _)
          rw [htokens, hfirst] at hlen
          have hsub := List.Sublist.flatMap
            ((List.take_sublist (maxArgs - 1) rest).cons_cons (cstr "recovery"))
            fun arg => arg ++ [newline]
          rw [encoding_eq_flatMap]
          have := hsub.length_le
          omega
      · cases h
  · cases h

/-- What is written for some arguments has at least a part of the first one. -/
theorem bootArgs_encodeArgs_ne_nil (hargs : IsArgs args) (hne : args ≠ []) :
    ∃ arg rest, bootArgs (encodeArgs args) = some (arg :: rest) := by
  obtain ⟨arg, args, rfl⟩ := List.exists_cons_of_ne_nil hne
  obtain ⟨c, arg, rfl⟩ := List.exists_cons_of_ne_nil (hargs.ne_nil _ (List.mem_cons_self ..))
  have hc : c ≠ newline := fun h =>
    hargs.newline _ (List.mem_cons_self ..) (h ▸ List.mem_cons_self ..)
  obtain ⟨tail, htail⟩ : ∃ tail, (encoding ((c :: arg) :: args)).take 1023 =
      cstr "recovery" ++ newline :: c :: tail := by
    have hfirst : cstr "recovery\n" = cstr "recovery" ++ [newline] := by decide
    have hlen : (cstr "recovery\n").length = 9 := by decide
    refine ⟨(arg ++ [newline] ++ args.flatMap fun arg => arg ++ [newline]).take 1013, ?_⟩
    rw [encoding, List.take_append, List.take_of_length_le (by omega), hlen, List.flatMap_cons,
      List.cons_append, List.cons_append, List.take_succ_cons, hfirst, List.append_assoc,
      List.singleton_append]
  have hnul : 0 ∉ cstr "recovery" ++ newline :: c :: tail := fun h => by
    rw [← htail] at h
    exact nul_notMem_encoding hargs.nul (List.mem_of_mem_take h)
  -- the first byte of the first argument is there
  have hrest : strtok newline (c :: tail) ≠ [] := fun h => by
    have hflat := strtok_flatten newline (c :: tail)
    rw [h, List.filter_cons_of_pos (by simpa using hc)] at hflat
    cases hflat
  obtain ⟨first, rest, hcons⟩ := List.exists_cons_of_ne_nil hrest
  refine ⟨first, rest.take (maxArgs - 2), ?_⟩
  rw [bootArgs, encodeArgs_eq, List.take_take, min_self, htail, cText_eq_self hnul,
    strtok_token_append (by decide) (by decide), hcons]
  rfl

theorem foundArgs_wrote (boot : BootMessage) (command : Option Bytes) (args : List Bytes) :
    foundArgs ((⟨some boot, command⟩ : Stored).wrote args) =
      if (bootArgs (encodeArgs args)).getD [] = [] then commandArgs command
      else some ((bootArgs (encodeArgs args)).getD []) := rfl

/-- Behind the arguments of the command file the field is read if it holds them all. -/
theorem foundArgs_wrote_iff (boot : BootMessage) {content : Bytes} (hargs : IsArgs args)
    (hcommand : commandArgs (some content) = some args) :
    foundArgs ((⟨some boot, some content⟩ : Stored).wrote args) = some args ↔
      (encoding args).length ≤ 1024 := by
  rw [foundArgs_wrote]
  constructor
  · intro h
    by_cases hnil : args = []
    · rw [hnil]
      decide
    · -- so the command file is not read again
      obtain ⟨arg, rest, hboot⟩ := bootArgs_encodeArgs_ne_nil hargs hnil
      rw [hboot, Option.getD_some, if_neg (List.cons_ne_nil arg rest)] at h
      rw [h] at hboot
      exact encoding_length_le hboot
  · intro hfits
    rw [bootArgs_encodeArgs hargs hfits, Option.getD_some]
    split
    · exact hcommand
    · rfl

end Field

/-! ## The arguments survive -/

/-- `get_args` takes the lines of the command file for arguments, and the next one has them again;
and for every boot message with a recovery field it writes a field from which what it has found is
found again, which is what the old field holds if it holds any arguments. -/
structure ArgsSurvive (dev : Device) (content : Bytes) : Prop where
  file : ∀ boot : BootMessage, boot.recovery = [] → ∃ t u,
    Obtains dev ⟨some boot, some content⟩ (givenArgs content) t ∧ Obtains dev t (givenArgs content) u
  field : ∀ (boot : BootMessage) args, bootArgs boot.recovery = some args → ∃ found t boot',
    Obtains dev ⟨some boot, some content⟩ found t ∧ (args ≠ [] → found = args) ∧
      t.misc = some boot' ∧ bootArgs boot'.recovery = some found

/-- The first 99 lines are not blank and have no carriage return or NUL inside; all of them but the
last one fit into the buffer with their ends; and they fit into the field. -/
structure ArgsFit (content : Bytes) : Prop where
  plain : ∀ line ∈ (fileLines content).take 99,
    lineText line ≠ [] ∧ 13 ∉ lineText line ∧ 0 ∉ lineText line
  short : ∀ line ∈ (fileLines content).take 98, line.length ≤ 4095
  fits : 9 + (((fileLines content).take 99).map fun line => (lineText line).length + 1).sum ≤ 1024

section Survive

variable {content : Bytes}

/-- If none of the first lines is blank, they are the arguments. -/
theorem givenArgs_eq (h : ∀ line ∈ (fileLines content).take 99, lineText line ≠ []) :
    givenArgs content = ((fileLines content).take 99).map lineText := by
  have hkept : (((fileLines content).take 99).map lineText).filter (· ≠ []) =
      ((fileLines content).take 99).map lineText := by
    refine List.filter_eq_self.mpr fun text htext => ?_
    obtain ⟨line, hline, rfl⟩ := List.mem_map.mp htext
    exact decide_eq_true (h line hline)
  have hlen : (((fileLines content).take 99).map lineText).length = min 99 (fileLines content).length := by
    rw [List.length_map, List.length_take]
  rw [givenArgs, ← List.take_append_drop 99 (fileLines content), List.map_append, List.filter_append,
    List.take_append_drop, hkept]
  by_cases hmore : 99 ≤ (fileLines content).length
  · rw [List.take_append_of_le_length (by rw [hlen]; exact le_min (le_refl _) hmore),
      List.take_of_length_le (by rw [hlen]; exact min_le_left _ _)]
  · rw [List.drop_of_length_le (by omega), List.map_nil, List.filter_nil, List.append_nil,
      List.take_of_length_le (by rw [hlen]; exact min_le_left _ _)]

theorem length_encoding (lines : List Bytes) :
    (encoding (lines.map lineText)).length =
      9 + (lines.map fun line => (lineText line).length + 1).sum := by
  rw [encoding, List.length_append, List.length_flatMap, List.map_map]
  congr 2
  refine List.map_congr_left fun line _ => ?_
  exact List.length_append

theorem argsFit_iff : ArgsFit content ↔
    HasPlainLines (maxArgs - 1) (fileLines content) ∧ (encoding (givenArgs content)).length ≤ 1024 := by
  constructor
  · intro h
    have hgiven := givenArgs_eq fun line hline => (h.plain line hline).1
    refine ⟨⟨fun line hline => ?_, h.short⟩, ?_⟩
    · obtain ⟨hne, hcarriageReturn, hnul⟩ := h.plain line hline
      have hle := List.single_le_sum (by simp) _
        (List.mem_map_of_mem (f := fun line => (lineText line).length + 1) hline)
      refine ⟨hne, hcarriageReturn, hnul, ?_⟩
      have hfits := h.fits
      show _ ≤ 4095
      have hle' : (lineText line).length + 1 ≤
          (((fileLines content).take 99).map fun line => (lineText line).length + 1).sum := hle
      omega
    · rw [hgiven, length_encoding]
      exact h.fits
  · rintro ⟨hplain, hfits⟩
    have hgiven := givenArgs_eq fun line hline => (hplain.plain line hline).ne_nil
    refine ⟨fun line hline => ?_, hplain.short, ?_⟩
    · have hline' := hplain.plain line hline
      exact ⟨hline'.ne_nil, hline'.carriageReturn, hline'.nul⟩
    · rwa [hgiven, length_encoding] at hfits

/-- For which command files the arguments survive the boot message. -/
theorem argsSurvive_iff (dev : Device) (content : Bytes) :
    ArgsSurvive dev content ↔ ArgsFit content := by
  rw [argsFit_iff, ← readLines_eq_iff]
  constructor
  · intro h
    obtain ⟨t, u, hfirst, hsecond⟩ := h.file .zero rfl
    obtain ⟨hfound, rfl⟩ := obtains_iff.mp hfirst
    have hcommand : commandArgs (some content) = some (givenArgs content) := hfound
    refine ⟨hcommand, ?_⟩
    exact (foundArgs_wrote_iff .zero (foundArgs_isArgs hfound) hcommand).mp (obtains_iff.mp hsecond).1
  · rintro ⟨hcommand, hfits⟩
    replace hcommand : commandArgs (some content) = some (givenArgs content) := hcommand
    refine ⟨fun boot hboot => ?_, fun boot args hboot => ?_⟩
    · have hfound : foundArgs ⟨some boot, some content⟩ = some (givenArgs content) := by
        rw [foundArgs, Option.getD_some, hboot]
        exact hcommand
      have hagain := (foundArgs_wrote_iff boot (foundArgs_isArgs hfound) hcommand).mpr hfits
      exact ⟨_, _, obtains_iff.mpr ⟨hfound, rfl⟩, obtains_iff.mpr ⟨hagain, rfl⟩⟩
    · by_cases hnil : args = []
      · -- the field has no arguments, and the command file is read
        have hfound : foundArgs ⟨some boot, some content⟩ = some (givenArgs content) := by
          rw [foundArgs, Option.getD_some, hboot, hnil]
          exact hcommand
        exact ⟨_, _, _, obtains_iff.mpr ⟨hfound, rfl⟩, fun h => absurd hnil h, rfl,
          bootArgs_encodeArgs (foundArgs_isArgs hfound) hfits⟩
      · have hfound : foundArgs ⟨some boot, some content⟩ = some args := by
          rw [foundArgs, Option.getD_some, hboot, Option.getD_some, if_neg hnil]
        exact ⟨_, _, _, obtains_iff.mpr ⟨hfound, rfl⟩, fun _ => rfl, rfl,
          bootArgs_encodeArgs (bootArgs_isArgs hboot) (encoding_length_le hboot)⟩

/-- `strdup` gets NULL for the blank line. -/
theorem blank_line_lost : ¬ ArgsSurvive Sample.device (cstr "\n--wipe_data\n") := by
  intro h
  obtain ⟨t, u, hfirst, -⟩ := h.file .zero rfl
  have hfound : foundArgs ⟨some .zero, some (cstr "\n--wipe_data\n")⟩ = none := by decide
  have hsome := (obtains_iff.mp hfirst).1
  rw [hfound] at hsome
  cases hsome

end Survive

end OpenRecovery.Recovery
