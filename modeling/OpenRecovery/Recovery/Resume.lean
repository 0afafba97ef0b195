import OpenRecovery.Recovery.BootArgs

/-!
# Interrupted commands

`get_args` writes the arguments it has found into the boot message, and a later `get_args` finds
them there again (`foundArgs_encoded`). For a package `main` then overwrites the message with one
that has no arguments, so that the next boot has to read them from the command file. They are found
again after every interruption exactly if no package is given, or if the command file holds them and
is not lost with `/cache` (`resumes_iff`).
-/

set_option autoImplicit false

namespace OpenRecovery.Recovery

open OpenRecovery.Crash OpenRecovery.Storage OpenRecovery.Updater

/-! ## What get_args finds -/

/-- The arguments that `get_args` finds if there are none on the command line. -/
def foundArgs (s : Stored) : Option (List Bytes) :=
  let args := (bootArgs (s.misc.getD .zero).recovery).getD []
  if args = [] then commandArgs s.command else some args

/-- The storage after `get_args`. -/
def Stored.wrote (s : Stored) (args : List Bytes) : Stored :=
  s.setMessage { s.misc.getD .zero with
    command := strlcpy 32 (cstr "boot-recovery"), recovery := encodeArgs args }

/-- `get_args` yields these arguments, and leaves the storage as `t`. -/
def Obtains (dev : Device) (s : Stored) (args : List Bytes) (t : Stored) : Prop :=
  Returns (bootMachine dev) (fun args' t' => args' = args ∧ t' = t) (getArgs []) s

section Found

variable {dev : Device} {s t : Stored} {args : List Bytes}

variable {α : Type} {Q : α → Stored → Prop}

/-- Reading the BCB. -/
theorem returns_getMessage {f : Option BootMessage → BootProg α} :
    Returns (bootMachine dev) Q (Prog.call BootOp.getMessage >>= f) s ↔
      Returns (bootMachine dev) Q (f s.misc) s :=
  ⟨fun h => h.2 _ rfl, fun h => ⟨⟨_, rfl⟩, fun _ hr => hr ▸ h⟩⟩

/-- Reading the command file. -/
theorem returns_readCommand {f : Option Bytes → BootProg α} :
    Returns (bootMachine dev) Q (Prog.call BootOp.readCommand >>= f) s ↔
      Returns (bootMachine dev) Q (f s.command) s :=
  ⟨fun h => h.2 _ rfl, fun h => ⟨⟨_, rfl⟩, fun _ hr => hr ▸ h⟩⟩

/-- The message is written, whatever comes of it. -/
theorem returns_setMessage {boot : BootMessage} {a : α} :
    Returns (bootMachine dev) Q (Prog.call (BootOp.setMessage boot) >>= fun _ => Prog.ret a) s ↔
      Q a (s.setMessage boot) :=
  ⟨fun h => h.2 true trivial, fun h => ⟨⟨true, trivial⟩, fun _ _ => h⟩⟩

/-- `get_args` finds the arguments, and writes them back. -/
theorem returns_getArgs {Q : List Bytes → Stored → Prop} :
    Returns (bootMachine dev) Q (getArgs []) s ↔
      ∃ args, foundArgs s = some args ∧ Q args (s.wrote args) := by
  rw [getArgs, returns_getMessage]
  simp only [foundArgs, if_true]
  by_cases hboot : (bootArgs (s.misc.getD .zero).recovery).getD [] = []
  · rw [if_pos hboot, if_pos hboot, returns_readCommand]
    cases hcommand : commandArgs s.command with
    | none =>
      refine iff_of_false id ?_
      rintro ⟨_, h, -⟩
      cases h
    | some args =>
      refine returns_setMessage.trans ⟨fun h => ⟨args, rfl, h⟩, ?_⟩
      rintro ⟨_, ⟨⟩, h⟩
      exact h
  · rw [if_neg hboot, if_neg hboot]
    refine returns_setMessage.trans ⟨fun h => ⟨_, rfl, h⟩, ?_⟩
    rintro ⟨_, ⟨⟩, h⟩
    exact h

theorem obtains_iff : Obtains dev s args t ↔ foundArgs s = some args ∧ t = s.wrote args := by
  rw [Obtains, returns_getArgs]
  constructor
  · rintro ⟨args', hfound, rfl, rfl⟩
    exact ⟨hfound, rfl⟩
  · rintro ⟨hfound, rfl⟩
    exact ⟨args, hfound, rfl, rfl⟩

end Found

/-! ## Arguments in the boot message -/

/-- The arguments that `get_args` can find: as many as fit into `argv`, each of them a token. -/
structure IsArgs (args : List Bytes) : Prop where
  length_le : args.length ≤ maxArgs - 1
  ne_nil : ∀ arg ∈ args, arg ≠ []
  newline : ∀ arg ∈ args, newline ∉ arg
  nul : ∀ arg ∈ args, 0 ∉ arg

theorem isArgs_nil : IsArgs [] :=
  ⟨Nat.zero_le _, fun _ h => absurd h List.not_mem_nil, fun _ h => absurd h List.not_mem_nil,
    fun _ h => absurd h List.not_mem_nil⟩

/-- The characters of a token come from the text. -/
theorem mem_of_mem_strtok {delim c : UInt8} {s tok : Bytes} (h : tok ∈ strtok delim s) (hc : c ∈ tok) :
    c ∈ s := by
  have hflat : c ∈ (strtok delim s).flatten := List.mem_flatten.mpr ⟨tok, h, hc⟩
  rw [strtok_flatten] at hflat
  exact List.mem_of_mem_filter hflat

/-- The arguments in the BCB are strings without newlines. -/
theorem bootArgs_isArgs {recovery : Bytes} {args : List Bytes} (h : bootArgs recovery = some args) :
    IsArgs args := by
  rw [bootArgs] at h
  split at h
  · rename_i first rest htokens
    split at h
    · cases h
      have hmem : ∀ arg ∈ rest.take (maxArgs - 1),
          arg ∈ strtok Updater.newline (cText (recovery.take 1023)) := by
        intro arg harg
        rw [htokens]
        exact List.mem_cons_of_mem _ (List.mem_of_mem_take harg)
      exact
        { length_le := (List.length_take_le _ _)
          ne_nil := fun arg harg => ne_nil_of_mem_strtok (hmem arg harg)
          newline := fun arg harg => not_mem_of_mem_strtok (hmem arg harg)
          nul := fun arg harg h0 => zero_notMem_cText _ (mem_of_mem_strtok (hmem arg harg) h0) }
    · cases h
  · cases h

/-- A token has bytes of the string only, and no delimiter. -/
theorem nextToken_spec {delims : UInt8 → Bool} {s tok : Bytes} (h : nextToken delims s = some tok) :
    tok ≠ [] ∧ ∀ c ∈ tok, c ∈ s ∧ delims c = false := by
  rw [nextToken, strtokNext] at h
  by_cases hrest : s.dropWhile delims = []
  · rw [if_pos hrest] at h
    cases h
  · rw [if_neg hrest] at h
    cases h
    obtain ⟨c, rest, hcons⟩ := List.exists_cons_of_ne_nil hrest
    have hfirst : delims c = false := by
      have hhead := List.head?_dropWhile_not delims s
      rw [hcons] at hhead
      simpa using hhead
    constructor
    · rw [hcons, List.takeWhile_cons_of_pos (by rw [hfirst]; rfl)]
      exact List.cons_ne_nil _ _
    · intro x hx
      have hdelim := List.all_eq_true.mp List.all_takeWhile x hx
      exact ⟨(List.dropWhile_sublist _).subset ((List.takeWhile_sublist _).subset hx),
        by simpa using hdelim⟩

/-- So are those in the command file, and there are not too many. Induction on their number. -/
theorem readLines_isArgs {n : ℕ} {stream : Bytes} {args : List Bytes}
    (h : readLines n stream = some args) :
    args.length ≤ n ∧ ∀ arg ∈ args, arg ≠ [] ∧ Updater.newline ∉ arg ∧ 0 ∉ arg := by
  induction n generalizing stream args with
  | zero =>
    cases h
    exact ⟨le_refl 0, fun _ h => absurd h List.not_mem_nil⟩
  | succ n ih =>
    rw [readLines] at h
    split at h
    · cases h
      exact ⟨Nat.zero_le _, fun _ h => absurd h List.not_mem_nil⟩
    · split at h
      · cases h
      · rename_i arg htoken
        obtain ⟨rest, hrest, rfl⟩ := Option.map_eq_some_iff.mp h
        obtain ⟨hlen, hall⟩ := ih hrest
        obtain ⟨hne, hbytes⟩ := nextToken_spec htoken
        refine ⟨Nat.succ_le_succ hlen, List.forall_mem_cons.mpr ⟨⟨hne, ?_, ?_⟩, hall⟩⟩
        · intro hmem
          have hend := (hbytes _ hmem).2
          simp [isLineEnd] at hend
        · intro hmem
          exact zero_notMem_cText _ (hbytes _ hmem).1

/-- So are those that are found in either. -/
theorem foundArgs_isArgs {s : Stored} {args : List Bytes} (h : foundArgs s = some args) :
    IsArgs args := by
  rw [foundArgs] at h
  split at h
  · cases hcommand : s.command with
    | none =>
      rw [hcommand] at h
      cases h
      exact isArgs_nil
    | some content =>
      rw [hcommand] at h
      obtain ⟨hlen, hall⟩ := readLines_isArgs h
      exact ⟨hlen, fun arg harg => (hall arg harg).1, fun arg harg => (hall arg harg).2.1,
        fun arg harg => (hall arg harg).2.2⟩
  · cases h
    cases hboot : bootArgs (s.misc.getD .zero).recovery with
    | none => exact isArgs_nil
    | some args => exact bootArgs_isArgs hboot

/-- The whole recovery field for the arguments. -/
def encoding (args : List Bytes) : Bytes :=
  cstr "recovery\n" ++ args.flatMap fun arg => arg ++ [newline]

/-- Appending arguments stops at the end of the field. Induction on the arguments. -/
theorem foldl_strlcat (args : List Bytes) (field : Bytes) :
    args.foldl (fun field arg => strlcat 1024 (strlcat 1024 field arg) [newline])
        (field.take 1023) =
      (field ++ args.flatMap fun arg => arg ++ [newline]).take 1023 := by
  induction args generalizing field with
  | nil => rw [List.flatMap_nil, List.append_nil, List.foldl_nil]
  | cons arg args ih =>
    have hstep : strlcat 1024 (strlcat 1024 (field.take 1023) arg) [newline] =
        (field ++ arg ++ [newline]).take 1023 :=
      (congrArg (strlcat 1024 · [newline]) (strlcat_take 1024 field arg)).trans
        (strlcat_take 1024 (field ++ arg) [newline])
    rw [List.foldl_cons, hstep, ih, List.flatMap_cons]
    simp only [List.append_assoc]

/-- The field has as much of the arguments as there is room for. -/
theorem encodeArgs_eq (args : List Bytes) : encodeArgs args = (encoding args).take 1023 :=
  foldl_strlcat args (cstr "recovery\n")

/-- Lines are read back as they were written. -/
theorem strtok_lines {args : List Bytes} (hne : ∀ arg ∈ args, arg ≠ [])
    (hnewline : ∀ arg ∈ args, newline ∉ arg) :
    strtok newline (args.flatMap fun arg => arg ++ [newline]) = args := by
  induction args with
  | nil => rfl
  | cons arg args ih =>
    obtain ⟨hne, hnes⟩ := List.forall_mem_cons.mp hne
    obtain ⟨hnewline, hnewlines⟩ := List.forall_mem_cons.mp hnewline
    rw [List.flatMap_cons, List.append_assoc, List.singleton_append,
      strtok_token_append hne hnewline, ih hnes hnewlines]

/-- The written arguments hold no NUL. -/
theorem nul_notMem_encoding {args : List Bytes} (hnul : ∀ arg ∈ args, 0 ∉ arg) :
    0 ∉ encoding args := by
  rw [encoding, List.mem_append, List.mem_flatMap]
  rintro (hmem | ⟨arg, harg, hmem⟩)
  · revert hmem
    decide
  · rcases List.mem_append.mp hmem with hmem | hmem
    · exact hnul arg harg hmem
    · revert hmem
      decide

/-- The written arguments are read back after the word `recovery`. -/
theorem strtok_encoding {args : List Bytes} (hargs : IsArgs args) :
    strtok newline (encoding args) = cstr "recovery" :: args := by
  have hfirst : cstr "recovery\n" = cstr "recovery" ++ [newline] := by decide
  rw [encoding, hfirst, List.append_assoc, List.singleton_append,
    strtok_token_append (by decide) (by decide), strtok_lines hargs.ne_nil hargs.newline]

/-- There is a newline at the end, with or without arguments. -/
theorem encoding_concat (args : List Bytes) : ∃ front, encoding args = front ++ [newline] := by
  rw [encoding]
  rcases List.eq_nil_or_concat args with rfl | ⟨init, last, rfl⟩
  · exact ⟨cstr "recovery", by decide⟩
  · refine ⟨cstr "recovery\n" ++ (init.flatMap (fun arg => arg ++ [newline]) ++ last), ?_⟩
    rw [List.concat_eq_append, List.flatMap_append, List.flatMap_singleton]
    simp only [List.append_assoc]

/-- The arguments come out of the message as they went in. The last newline may be missing. -/
theorem bootArgs_encodeArgs {args : List Bytes} (hargs : IsArgs args)
    (hfits : (encoding args).length ≤ 1024) : bootArgs (encodeArgs args) = some args := by
  have hnul : 0 ∉ (encoding args).take 1023 := fun h =>
    nul_notMem_encoding hargs.nul (List.mem_of_mem_take h)
  have htokens : strtok newline ((encoding args).take 1023) = cstr "recovery" :: args := by
    rw [← strtok_encoding hargs]
    obtain ⟨front, hfront⟩ := encoding_concat args
    rw [hfront, List.length_append, List.length_singleton] at hfits
    rw [hfront]
    by_cases hlen : front.length < 1023
    · rw [List.take_of_length_le]
      rw [List.length_append, List.length_singleton]
      omega
    · rw [List.take_append_of_le_length (by omega), List.take_of_length_le (by omega),
        strtok_concat_delim]
  rw [bootArgs, encodeArgs_eq, List.take_take, min_self, cText_eq_self hnul, htokens]
  simp only [if_true]
  rw [List.take_of_length_le hargs.length_le]

/-! ## The states of a run of main -/

section Main

variable {dev : Device} {G : Stored → Prop} {α : Type} {s : Stored}

/-- Writing the BCB, with a crash before or after it. -/
theorem wp_setMessage {boot : BootMessage} {p : BootProg α} {Q : α → Stored → Prop} :
    wp (bootMachine dev) Q G (Prog.call (BootOp.setMessage boot) >>= fun _ => p) s ↔
      G s ∧ wp (bootMachine dev) Q G p (s.setMessage boot) :=
  and_congr_right fun _ =>
    ⟨fun h => h.2 true trivial, fun h => ⟨fun _ ht => ht.elim, fun _ _ => h⟩⟩

/-- Installing a package, with a crash before or after it. -/
theorem wp_install {package : Bytes} {wipeCache : Bool}
    {f : BootOp.Res (.install package wipeCache) → BootProg α} {Q : α → Stored → Prop} :
    wp (bootMachine dev) Q G (Prog.call (BootOp.install package wipeCache) >>= f) s ↔
      G s ∧ wp (bootMachine dev) Q G (f (dev.install package wipeCache)) s :=
  and_congr_right fun _ => ⟨fun h => h.2 _ rfl, fun h => ⟨fun _ ht => ht.elim, fun _ hr => hr ▸ h⟩⟩

theorem wp_writeFile {path : Bytes} {p : BootProg α} {Q : α → Stored → Prop} :
    wp (bootMachine dev) Q G (Prog.call (BootOp.writeFile path) >>= fun _ => p) s ↔
      G s ∧ wp (bootMachine dev) Q G p s :=
  and_congr_right fun _ =>
    ⟨fun h => h.2 true trivial, fun h => ⟨fun _ ht => ht.elim, fun _ _ => h⟩⟩

/-- Erasing a volume, with a crash before or after it. -/
theorem wp_eraseVolume {volume : Bytes} {f : BootOp.Res (.erase volume) → BootProg α} {Q : α → Stored → Prop} :
    wp (bootMachine dev) Q G (eraseVolume volume >>= f) s ↔
      G s ∧ G (s.erase dev volume) ∧ ∀ r, wp (bootMachine dev) Q G (f r) (s.erase dev volume) := by
  refine and_congr_right fun _ => ⟨fun h => ⟨h.1 _ rfl, fun r => h.2 r trivial⟩, fun h => ⟨?_, ?_⟩⟩
  · rintro t rfl
    exact h.1
  · exact fun r _ => h.2 r

/-- The logs change nothing. -/
theorem wp_writeLogs (sendIntent : Option Bytes) :
    wp (bootMachine dev) (fun _ t => G t) G (writeLogs sendIntent) s ↔ G s := by
  have hrest : wp (bootMachine dev) (fun _ t => G t) G (do
      let _ ← Prog.call (BootOp.writeFile (cstr "/cache/recovery/log"))
      let _ ← Prog.call (BootOp.writeFile (cstr "/cache/recovery/last_log"))
      let _ ← Prog.call (BootOp.writeFile (cstr "/cache/recovery/last_install"))
      pure ()) s ↔ G s := by
    rw [wp_writeFile, wp_writeFile, wp_writeFile, Prog.pure_eq_ret, wp_ret, and_self, and_self,
      and_self]
  rw [writeLogs]
  split
  · rw [wp_writeFile]
    exact (and_congr_right fun _ => hrest).trans (and_self_iff)
  · exact hrest

theorem wp_bind_writeLogs {p : BootProg Bool} (sendIntent : Option Bytes) :
    wp (bootMachine dev) (fun _ t => G t) G
        (p >>= fun success => writeLogs (if success then sendIntent else none)) s ↔
      wp (bootMachine dev) (fun _ t => G t) G p s := by
  rw [wp_bind]
  simp only [wp_writeLogs]

/-- The package is installed with the message without arguments; `/cache` may be formatted after
it. -/
theorem wp_updateFrom (package : Bytes) (wipeCache : Bool) :
    wp (bootMachine dev) (fun _ t => G t) G (updateFrom package wipeCache) s ↔
      G s ∧ G (s.setMessage sdcardMessage) ∧
        ((dev.install package wipeCache).1 = true ∧ (dev.install package wipeCache).2 = true →
          G ((s.setMessage sdcardMessage).erase dev (cstr "/cache"))) := by
  rw [updateFrom, wp_setMessage, wp_install]
  refine and_congr_right fun _ => and_congr_right fun hmessage => ?_
  by_cases hwipe : (dev.install package wipeCache).1 = true ∧ (dev.install package wipeCache).2 = true
  · rw [if_pos hwipe, wp_eraseVolume]
    simp only [forall_const, Prog.pure_eq_ret, wp_ret, and_self]
    exact ⟨fun h _ => h.2, fun h => ⟨hmessage, h hwipe⟩⟩
  · rw [if_neg hwipe]
    exact iff_of_true hmessage fun h => absurd h hwipe

theorem erase_data : s.erase dev (cstr "/data") = s :=
  if_neg fun h => absurd h.1 (by decide)

/-- Wiping the data erases `/cache` too if it is asked to. -/
theorem wp_wipeData (wipeCache : Bool) :
    wp (bootMachine dev) (fun _ t => G t) G (wipeData wipeCache) s ↔
      G s ∧ (wipeCache = true → G (s.erase dev (cstr "/cache"))) := by
  rw [wipeData, wp_eraseVolume, erase_data]
  cases wipeCache with
  | true =>
    simp only [if_true, wp_eraseVolume, forall_const, Prog.pure_eq_ret, wp_ret, and_self]
    exact ⟨fun h => ⟨h.1, h.2.2.2⟩, fun h => ⟨h.1, h.1, h.1, h.2⟩⟩
  | false =>
    simp only [Bool.false_eq_true, if_false, forall_const, Prog.pure_eq_ret, wp_ret]
    exact ⟨fun h => ⟨h.1, fun h => h.elim⟩, fun h => ⟨h.1, h.1, h.1⟩⟩

/-- `main` formats `/cache` for these arguments. -/
def FormatsCache (dev : Device) (args : List Bytes) : Prop :=
  match (settings args).updatePackage with
  | some package =>
    (dev.install package (settings args).wipeCache).1 = true ∧
      (dev.install package (settings args).wipeCache).2 = true
  | none => (settings args).wipeCache = true

/-- The command that `main` carries out, by its settings. -/
theorem wp_mainCommand {args : List Bytes} :
    wp (bootMachine dev) (fun _ t => G t) G (mainCommand args) s ↔
      match (settings args).updatePackage with
      | some _ => G s ∧ G (s.setMessage sdcardMessage) ∧
          (FormatsCache dev args → G ((s.setMessage sdcardMessage).erase dev (cstr "/cache")))
      | none => G s ∧ (FormatsCache dev args → G (s.erase dev (cstr "/cache"))) := by
  rw [mainCommand, FormatsCache]
  cases hpackage : (settings args).updatePackage with
  | some package => exact (wp_bind_writeLogs _).trans (wp_updateFrom package _)
  | none =>
    simp only
    by_cases hdata : (settings args).wipeData = true
    · rw [if_pos hdata]
      exact (wp_bind_writeLogs _).trans (wp_wipeData _)
    rw [if_neg hdata]
    by_cases hcache : (settings args).wipeCache = true
    · rw [if_pos hcache, wp_bind_writeLogs]
      refine ⟨fun h => ⟨h.1, fun _ => h.2.1 _ rfl⟩, fun h => ⟨h.1, ?_, fun _ _ => h.2 hcache⟩⟩
      rintro t rfl
      exact h.2 hcache
    · rw [if_neg hcache, wp_bind_writeLogs]
      exact ⟨fun h => ⟨h, fun h' => absurd h' hcache⟩, fun h => h.1⟩

end Main

/-! ## The next boot -/

/-- Wherever `main` is interrupted before the boot message is cleared, the next `get_args` yields
the same arguments. -/
def Resumes (dev : Device) (s : Stored) (args : List Bytes) : Prop :=
  ∀ t out, Run (bootMachine dev) s (mainCommand args) t out → ∃ u, Obtains dev t args u

section Resumes

variable {args : List Bytes}

/-- A boot resumes exactly if the arguments are found after every crash. -/
theorem resumes_iff_wp {dev : Device} {s : Stored} :
    Resumes dev s args ↔
      wp (bootMachine dev) (fun _ t => foundArgs t = some args) (fun t => foundArgs t = some args)
        (mainCommand args) s := by
  rw [wp_iff_run]
  refine forall_congr' fun t => forall_congr' fun out => imp_congr_right fun _ => ?_
  have hobtains : (∃ u, Obtains dev t args u) ↔ foundArgs t = some args := by
    simp only [obtains_iff, exists_and_left, exists_eq, and_true]
  cases out with
  | none => exact hobtains
  | some _ => exact hobtains

/-- The arguments of a message that holds them. -/
theorem foundArgs_encoded {boot : BootMessage} {command : Option Bytes} (hne : args ≠ [])
    (hargs : IsArgs args) (hfits : (encoding args).length < 1024)
    (hboot : boot.recovery = encodeArgs args) : foundArgs ⟨some boot, command⟩ = some args := by
  rw [foundArgs, Option.getD_some, hboot, bootArgs_encodeArgs hargs hfits.le, Option.getD_some,
    if_neg hne]

/-- Without arguments in the message it is the command file. -/
theorem foundArgs_command {misc : Option BootMessage} {command : Option Bytes}
    (hboot : (bootArgs (misc.getD .zero).recovery).getD [] = []) :
    foundArgs ⟨misc, command⟩ = commandArgs command := if_pos hboot

/-- Arguments from the command file are found as long as it is there. -/
theorem found_command_iff (dev : Device) (command : Option Bytes) {misc : Option BootMessage}
    (hne : args ≠ []) (hboot : (bootArgs (misc.getD .zero).recovery).getD [] = []) (P : Prop) :
    (foundArgs ⟨misc, command⟩ = some args ∧
        (P → foundArgs ((⟨misc, command⟩ : Stored).erase dev (cstr "/cache")) = some args)) ↔
      commandArgs command = some args ∧ ¬ (P ∧ dev.formats = true) := by
  rw [foundArgs_command hboot]
  refine and_congr_right fun hcommand => ?_
  by_cases hformats : dev.formats = true
  · rw [Stored.erase, if_pos ⟨rfl, hformats⟩, foundArgs_command hboot]
    have hlost : commandArgs none ≠ some args := fun h => hne (Option.some.inj h).symm
    exact ⟨fun h hP => hlost (h hP.1), fun h hP => absurd ⟨hP, hformats⟩ h⟩
  · rw [Stored.erase, if_neg fun h => hformats h.2, foundArgs_command hboot]
    exact iff_of_true (fun _ => hcommand) fun h => hformats h.2

end Resumes

/-- The command is found again after every interruption exactly if the boot message can be written
and no package is given, or if the command file holds the command and `main` does not lose it with
`/cache`. -/
theorem resumes_iff (dev : Device) {s t : Stored} {args : List Bytes} (hget : Obtains dev s args t)
    (hne : args ≠ []) (hfits : (encoding args).length < 1024) :
    Resumes dev t args ↔
      (s.misc.isSome = true ∧ (settings args).updatePackage = none) ∨
        commandArgs s.command = some args ∧ ¬ (FormatsCache dev args ∧ dev.formats = true) := by
  obtain ⟨hfound, rfl⟩ := obtains_iff.mp hget
  have hargs := foundArgs_isArgs hfound
  rw [resumes_iff_wp, wp_mainCommand]
  obtain ⟨misc, command⟩ := s
  cases misc with
  | none =>
    -- nothing is ever written to `/misc`
    have hboot : (bootArgs ((none : Option BootMessage).getD .zero).recovery).getD [] = [] := by decide
    have hiff := found_command_iff dev command hne hboot (FormatsCache dev args)
    cases (settings args).updatePackage with
    | none => exact hiff.trans ⟨.inr, fun h => h.resolve_left fun h => Bool.false_ne_true h.1⟩
    | some package =>
      refine ⟨fun h => .inr (hiff.mp h.2), fun h => ?_⟩
      have hkept := hiff.mpr (h.resolve_left fun h => Bool.false_ne_true h.1)
      exact ⟨hkept.1, hkept⟩
  | some boot =>
    cases (settings args).updatePackage with
    | none =>
      have hkept : ∀ command', foundArgs ⟨some { boot with
          command := strlcpy 32 (cstr "boot-recovery"), recovery := encodeArgs args }, command'⟩ =
            some args := fun command' => foundArgs_encoded hne hargs hfits rfl
      refine iff_of_true ⟨hkept command, fun _ => ?_⟩ (.inl ⟨rfl, rfl⟩)
      show foundArgs (Stored.erase _ _ _) = _
      rw [Stored.erase]
      split
      · exact hkept none
      · exact hkept command
    | some package =>
      have hboot : (bootArgs ((some sdcardMessage).getD .zero).recovery).getD [] = [] := by decide
      have hiff := found_command_iff dev command hne hboot (FormatsCache dev args)
      have hkept : foundArgs ((⟨some boot, command⟩ : Stored).wrote args) = some args :=
        foundArgs_encoded hne hargs hfits rfl
      refine ⟨fun h => .inr (hiff.mp h.2), fun h => ⟨hkept, hiff.mpr ?_⟩⟩
      exact h.resolve_left fun h => absurd h.2 (Option.some_ne_none _)

namespace Sample

/-- Packages are installed and `/cache` can be formatted. -/
def device : Device := ⟨fun _ wipeCache => (true, wipeCache), true⟩

/-- A factory reset from the command file. -/
def reset : Stored := ⟨some .zero, some (cstr "--wipe_data\n")⟩

theorem reset_resumes : Resumes device (reset.wrote [cstr "--wipe_data"]) [cstr "--wipe_data"] := by
  have hget : Obtains device reset [cstr "--wipe_data"] (reset.wrote [cstr "--wipe_data"]) :=
    obtains_iff.mpr ⟨by decide +kernel, rfl⟩
  exact (resumes_iff device hget (by decide) (by decide)).mpr (.inl ⟨rfl, by decide +kernel⟩)

/-- A package in the boot message. -/
def update : Stored :=
  ⟨some ⟨cstr "boot-recovery", [], cstr "recovery\n--update_package=/cache/a.zip\n"⟩, none⟩

/-- The second message that `main` writes has no arguments. -/
theorem update_not_resumed :
    (encoding [cstr "--update_package=/cache/a.zip"]).length < 1024 ∧
      ∃ t, Obtains device update [cstr "--update_package=/cache/a.zip"] t ∧
        ¬ Resumes device t [cstr "--update_package=/cache/a.zip"] := by
  refine ⟨by decide, _, obtains_iff.mpr ⟨by decide +kernel, rfl⟩, fun h => ?_⟩
  have hpackage : (settings [cstr "--update_package=/cache/a.zip"]).updatePackage =
      some (cstr "/cache/a.zip") := by decide +kernel
  have hrun : Run (bootMachine device) (update.wrote [cstr "--update_package=/cache/a.zip"])
      (mainCommand [cstr "--update_package=/cache/a.zip"])
      ((update.wrote [cstr "--update_package=/cache/a.zip"]).setMessage sdcardMessage) none := by
    rw [mainCommand]
    simp only [hpackage]
    exact .step true trivial (.stop _ _ _)
  obtain ⟨u, hu⟩ := h _ _ hrun
  have hlost : foundArgs ((update.wrote [cstr "--update_package=/cache/a.zip"]).setMessage
      sdcardMessage) = some [] := by decide +kernel
  have hfound := (obtains_iff.mp hu).1
  rw [hlost] at hfound
  exact absurd hfound (by decide)

end Sample

end OpenRecovery.Recovery
