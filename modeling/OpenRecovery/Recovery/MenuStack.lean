import OpenRecovery.Recovery.PromptAndWait

/-!
# The menus are a stack

What the levels of the menu stand for is a stack of menus (`MenuStack`). A sub-menu that can be
loaded is pushed, `..` pops it, and a menu that cannot be loaded changes nothing. `prompt_and_wait`
follows this stack as long as `..` is not chosen where it goes wrong (`CarefulChoice`): at the last
level the guard of the depth swallows it, and if the menu below cannot be loaded its level is freed
as well.
-/

set_option autoImplicit false

namespace OpenRecovery.Recovery

open OpenRecovery.Storage OpenRecovery.Updater

/-! ## The stack -/

/-- A menu below the current one, and the item of it that was chosen. -/
structure Frame where
  file : Bytes
  script : Option Bytes
  item : ℤ

/-- The current menu, and those below it, the last one first. -/
structure MenuStack where
  file : Bytes
  script : Option Bytes
  below : List Frame

/-- What the user asks for. -/
inductive MenuEvent where
  | enter (item : ℕ) (file : Bytes) (script : Option Bytes)
  | up
  | reload (item : ℕ)
  | nothing

namespace MenuStack

variable (st : MenuStack)

/-- There is room for another level. -/
def HasRoom : Prop := st.below.length + 1 < maxMenuLevel

instance : Decidable st.HasRoom := Nat.decLt _ _

def push (item : ℕ) (file : Bytes) (script : Option Bytes) : MenuStack :=
  ⟨file, script, ⟨st.file, st.script, item⟩ :: st.below⟩

def pop : MenuStack :=
  match st.below with
  | [] => st
  | fr :: below => ⟨fr.file, fr.script, below⟩

/-- The stack after an event, if the menu can be loaded. -/
def after : MenuEvent → MenuStack
  | .enter item file script => if st.HasRoom then st.push item file script else st
  | .up => st.pop
  | .reload _ => st
  | .nothing => st

/-- The menu that is to be loaded. -/
def loads : MenuEvent → Option (Bytes × Option Bytes)
  | .enter _ file script => if st.HasRoom then some (file, script) else none
  | .up => some (st.pop.file, st.pop.script)
  | .reload _ => some (st.file, st.script)
  | .nothing => none

/-- The item that is to be selected then. -/
def selects : MenuEvent → Option ℤ
  | .up => st.below.head?.map Frame.item
  | .reload item => some item
  | _ => none

/-- A menu that cannot be loaded leaves the stack. -/
def next (file : Option Bytes) (e : MenuEvent) : MenuStack := if file = none then st else st.after e

/-- A sub-menu and `..`. -/
theorem pop_push (item : ℕ) (file : Bytes) (script : Option Bytes) :
    (st.push item file script).pop = st := rfl

end MenuStack

/-- The event of a choice. -/
def menuEvent (nav : Navigation) (item : ℕ) (target : Bytes) : MenuEvent :=
  match nav with
  | .newMenu => if target = cstr ".." then .up else .enter item target none
  | .newMenuScripted =>
      match strtokNext isColon target with
      | none => .nothing
      | some (fname, rest) => .enter item fname (PromptState.menuScript rest)
  | .reload => .reload item

/-! ## The levels represent the stack -/

/-- The levels below the current one. -/
def Below (menuFiles menuScripts : ℕ → Option Bytes) (menuSel : ℕ → ℤ) : List Frame → Prop
  | [] => True
  | fr :: below =>
      menuFiles below.length = some fr.file ∧ menuScripts below.length = fr.script ∧
        menuSel below.length = fr.item ∧ Below menuFiles menuScripts menuSel below

structure Represents (s : PromptState) (st : MenuStack) : Prop where
  level : s.menuLevel = st.below.length
  bound : st.below.length < maxMenuLevel
  file : s.menuFiles s.menuLevel = some st.file
  script : s.menuScripts s.menuLevel = st.script
  deeper : ∀ k, s.menuLevel < k → s.menuFiles k = none ∧ s.menuScripts k = none
  below : Below s.menuFiles s.menuScripts s.menuSel st.below

section Levels

variable {env : MenuEnv} {s : PromptState} {st : MenuStack} {file : Option Bytes}

/-- Only the levels below count. -/
theorem Below.congr {files files' scripts scripts' : ℕ → Option Bytes} {sel sel' : ℕ → ℤ}
    {below : List Frame} (h : Below files scripts sel below)
    (heq : ∀ k < below.length, files' k = files k ∧ scripts' k = scripts k ∧ sel' k = sel k) :
    Below files' scripts' sel' below := by
  induction below with
  | nil => trivial
  | cons fr below ih =>
      obtain ⟨hfile, hscript, hsel, hbelow⟩ := h
      obtain ⟨hfiles, hscripts, hsels⟩ := heq below.length (Nat.lt_succ_self _)
      exact ⟨hfiles.trans hfile, hscripts.trans hscript, hsels.trans hsel,
        ih hbelow fun k hk => heq k (Nat.lt_succ_of_lt hk)⟩

theorem Represents.enter (h : Represents s st) (hroom : st.HasRoom) (item : ℕ) (fname : Bytes)
    (script : Option Bytes) :
    Represents ((s.enter item fname).setScript script) (st.push item fname script) := by
  have hnone := h.deeper (s.menuLevel + 1) (Nat.lt_succ_self _)
  have hlevel := h.level
  -- what is written: the selection of this level, and the file and the script of the next one
  have hbelow : Below (s.enter item fname).menuFiles s.menuScripts (s.enter item fname).menuSel
      (st.push item fname script).below := by
    refine ⟨?_, ?_, ?_, h.below.congr fun k hk => ⟨?_, rfl, ?_⟩⟩
    · rw [← hlevel]
      exact (Function.update_of_ne (by omega) _ _).trans h.file
    · rw [← hlevel]
      exact h.script
    · rw [← hlevel]
      exact Function.update_self ..
    · exact Function.update_of_ne (by omega) _ _
    · exact Function.update_of_ne (by omega) _ _
  -- without a script the one of the next level is still `NULL`
  cases script with
  | none =>
      refine ⟨congrArg (· + 1) hlevel, hroom, Function.update_self .., hnone.2, fun k hk => ?_, hbelow⟩
      have hk' : s.menuLevel + 1 < k := hk
      exact ⟨(Function.update_of_ne (by omega) _ _).trans (h.deeper k (by omega)).1,
        (h.deeper k (by omega)).2⟩
  | some script =>
      refine ⟨congrArg (· + 1) hlevel, hroom, Function.update_self .., Function.update_self ..,
        fun k hk => ?_, hbelow.congr fun k hk => ⟨rfl, ?_, rfl⟩⟩
      · have hk' : s.menuLevel + 1 < k := hk
        exact ⟨(Function.update_of_ne (by omega) _ _).trans (h.deeper k (by omega)).1,
          (Function.update_of_ne (Nat.ne_of_gt hk') _ _).trans (h.deeper k (by omega)).2⟩
      · have hk' : k < st.below.length + 1 := hk
        exact Function.update_of_ne (show k ≠ s.menuLevel + 1 by omega) _ _

theorem Represents.leave {fr : Frame} {below : List Frame} (h : Represents s st)
    (hbelow : st.below = fr :: below) : Represents s.leave ⟨fr.file, fr.script, below⟩ := by
  obtain ⟨hlevel, hbound, -, -, hdeeper, hframes⟩ := h
  rw [hbelow] at hlevel hbound hframes
  rw [List.length_cons] at hlevel hbound
  obtain ⟨hfile, hscript, -, hframes⟩ := hframes
  have hprev : s.menuLevel - 1 = below.length := by omega
  have hfiles : ∀ k, k ≠ s.menuLevel →
      s.leave.menuFiles k = s.menuFiles k ∧ s.leave.menuScripts k = s.menuScripts k :=
    fun k hk => ⟨Function.update_of_ne hk _ _, Function.update_of_ne hk _ _⟩
  constructor
  · exact hprev
  · show below.length < maxMenuLevel
    omega
  · show s.leave.menuFiles (s.menuLevel - 1) = _
    rw [(hfiles _ (by omega)).1, hprev, hfile]
  · show s.leave.menuScripts (s.menuLevel - 1) = _
    rw [(hfiles _ (by omega)).2, hprev, hscript]
  · intro k hk
    have hk' : s.menuLevel - 1 < k := hk
    -- the level that is left is freed, and the ones above it are
    by_cases heq : k = s.menuLevel
    · rw [heq]
      exact ⟨Function.update_self .., Function.update_self ..⟩
    · rw [(hfiles k heq).1, (hfiles k heq).2]
      exact hdeeper k (by omega)
  · exact hframes.congr fun k hk =>
      ⟨(hfiles k (by omega)).1, (hfiles k (by omega)).2, rfl⟩

/-- The choice of `..` above the first level. -/
theorem Represents.up {fr : Frame} {below : List Frame} (h : Represents s st)
    (hbelow : st.below = fr :: below) :
    Represents s.up ⟨fr.file, fr.script, below⟩ ∧ s.up.overrideInitialSelection = fr.item := by
  have hlevel := h.level
  have hframes := h.below
  rw [hbelow] at hlevel hframes
  rw [List.length_cons] at hlevel
  have hleave := h.leave hbelow
  rw [PromptState.up, if_pos (by omega)]
  refine ⟨⟨hleave.level, hleave.bound, hleave.file, hleave.script, hleave.deeper,
    hleave.below.congr fun k hk => ⟨rfl, rfl, ?_⟩⟩, ?_⟩
  · have hk' : k < below.length := hk
    exact Function.update_of_ne (by omega) _ _
  · -- the selection of the level below was kept when it was left
    show s.menuSel (s.menuLevel - 1) = fr.item
    rw [show s.menuLevel - 1 = below.length by omega]
    exact hframes.2.2.1

theorem Represents.up_first (h : Represents s st) (hbelow : st.below = []) : s.up = s := by
  have hlevel := h.level
  rw [hbelow] at hlevel
  exact if_neg (by simp [hlevel])

/-! ## One load -/

/-- The last call of `create_menu` that has loaded a menu. -/
def lastLoaded (log : List MenuLoad) : Option MenuLoad := (log.filter (·.result = 0)).getLast?

theorem lastLoaded_append (log : List MenuLoad) (l : MenuLoad) :
    lastLoaded (log ++ [l]) = if l.result = 0 then some l else lastLoaded log := by
  unfold lastLoaded
  rw [List.filter_append]
  by_cases h : l.result = 0
  · rw [if_pos h, List.filter_cons_of_pos (by simpa using h), List.filter_nil,
      List.getLast?_concat]
  · rw [if_neg h, List.filter_cons_of_neg (by simpa using h), List.filter_nil, List.append_nil]

/-- The menu that is shown is the one last loaded, and its file is that of the current level. -/
def Shown (log : List MenuLoad) (s : PromptState) (st : MenuStack) : Prop :=
  match lastLoaded log with
  | none => s.menu = noMenu
  | some l => l.fname = st.file ∧ l.menu = s.menu

/-- How a call of `create_menu` for the current menu ends. -/
structure Loads (file : Option Bytes) (s : PromptState) (st : MenuStack) (l : MenuLoad) : Prop where
  fname : l.fname = st.file
  ended : file = none ∧ l.result = -1 ∧ l.menu = s.menu ∨ file ≠ none ∧ l.result = 0

theorem load_spec (h : Represents s st) (hfits : LoadFits env st.file st.script file) :
    ∃ l, s.load env file = some (l, { s with menu := l.menu }) ∧ Loads file s st l := by
  -- the levels give `create_menu` the file and the script of the stack
  obtain ⟨⟨r, m⟩, hcreate⟩ := Option.isSome_iff_exists.mp
    ((createMenu_isSome_iff (m := s.menu)).mpr hfits)
  refine ⟨⟨st.file, r, m⟩, ?_, rfl, createMenu_result hcreate⟩
  rw [PromptState.load, h.file, Option.bind_some, h.script, hcreate]
  rfl

theorem load_none (h : Represents s st) (hfits : ¬ LoadFits env st.file st.script file) :
    s.load env file = none := by
  rw [PromptState.load, h.file, Option.bind_some, h.script, Option.map_eq_none_iff,
    ← Option.not_isSome_iff_eq_none, createMenu_isSome_iff]
  exact hfits

/-- The arrays and the initial selection are not levels. -/
theorem Represents.of_levels (h : Represents s st) (m : MenuArrays) (initial : ℤ) :
    Represents { s with menu := m, overrideInitialSelection := initial } st :=
  ⟨h.level, h.bound, h.file, h.script, h.deeper, h.below⟩

/-- A menu that has been loaded is shown. -/
theorem shown_loaded {log : List MenuLoad} {l : MenuLoad} (hloads : Loads file s st l)
    (hfile : file ≠ none) {t : PromptState} (ht : t.menu = l.menu) : Shown (log ++ [l]) t st := by
  rcases hloads.ended with ⟨hnone, -⟩ | ⟨-, hresult⟩
  · exact absurd hnone hfile
  · rw [Shown, lastLoaded_append, if_pos hresult]
    exact ⟨hloads.fname, ht.symm⟩

/-- A menu that could not be loaded leaves the one that is shown. -/
theorem shown_failed {log : List MenuLoad} {l : MenuLoad} {st' : MenuStack} {s' : PromptState}
    (h : Shown log s st) (hloads : Loads file s' st' l) (hfile : file = none) {t : PromptState}
    (ht : t.menu = s.menu) : Shown (log ++ [l]) t st := by
  rcases hloads.ended with ⟨-, hresult, -⟩ | ⟨hsome, -⟩
  · rw [Shown, lastLoaded_append, if_neg (by rw [hresult]; decide)]
    rwa [Shown, ← ht] at h
  · exact absurd hfile hsome

/-! ## One choice -/

/-- The state and the stack agree after the calls of `create_menu` in `log`. -/
structure Navigates (log : List MenuLoad) (s : PromptState) (st : MenuStack) : Prop where
  represents : Represents s st
  shown : Shown log s st

/-- A choice does to the levels what its event does to the stack. -/
structure Answers (log : List MenuLoad) (st : MenuStack) (e : MenuEvent) (file : Option Bytes)
    (loads : List MenuLoad) (s' : PromptState) : Prop where
  navigates : Navigates (log ++ loads) s' (st.next file e)
  available : e = .up → st.below ≠ [] → loads ≠ []
  selects : file ≠ none → ∀ i, st.selects e = some i → s'.overrideInitialSelection = i

/-- The choices that are handled well. -/
structure CarefulChoice (env : MenuEnv) (st : MenuStack) (nav : Navigation) (item : ℕ)
    (target : Bytes) (file : Option Bytes) : Prop where
  up : menuEvent nav item target = .up → st.below ≠ [] → st.HasRoom ∧ file ≠ none
  buffer : nav = .newMenuScripted → st.HasRoom → target.length < maxLineLength
  loads : ∀ fname script, st.loads (menuEvent nav item target) = some (fname, script) →
    LoadFits env fname script file

def Answered (log : List MenuLoad) (st : MenuStack) (e : MenuEvent) (file : Option Bytes)
    (round : Option (List MenuLoad × PromptState)) : Prop :=
  ∃ loads s', round = some (loads, s') ∧ Answers log st e file loads s'

section Choices

variable {log : List MenuLoad}

/-- Nothing is loaded, and nothing was asked for. -/
theorem answered_nothing {e : MenuEvent} (h : Navigates log s st) (hafter : st.after e = st)
    (hup : e ≠ .up) (hselects : st.selects e = none) : Answered log st e file (some ([], s)) := by
  refine ⟨[], s, rfl, ?_, fun he => absurd he hup, fun _ i hi => ?_⟩
  · rw [List.append_nil, MenuStack.next, hafter, ite_self]
    exact h
  · rw [hselects] at hi
    cases hi

/-- A sub-menu is entered, or it cannot be loaded and is left again. -/
theorem enter_answers (h : Navigates log s st) (hroom : st.HasRoom) (item : ℕ) (fname : Bytes)
    (script : Option Bytes) (hfits : LoadFits env fname script file) :
    Answered log st (.enter item fname script) file
      (((s.enter item fname).setScript script).loadLevel env file) := by
  have henter := h.represents.enter hroom item fname script
  obtain ⟨l, hload, hloads⟩ := load_spec henter hfits
  have hmenu : ((s.enter item fname).setScript script).menu = s.menu := by
    cases script with
    | none => rfl
    | some script => rfl
  have hlevel : ((s.enter item fname).setScript script).menuLevel ≠ 0 := by
    rw [henter.level]
    exact Nat.succ_ne_zero _
  rw [PromptState.loadLevel, hload, Option.map_some]
  refine ⟨_, _, rfl, ?_, nofun, nofun⟩
  rcases hloads.ended with ⟨hfile, hresult, hmenu'⟩ | ⟨hfile, hresult⟩
  · -- the new level is freed again
    rw [if_pos ⟨by rw [hresult]; decide, hlevel⟩, MenuStack.next, if_pos hfile]
    refine ⟨(henter.of_levels l.menu _).leave rfl, shown_failed h.shown hloads hfile ?_⟩
    exact hmenu'.trans hmenu
  · -- the new level becomes the current one
    rw [if_neg (fun hnot => hnot.1 hresult), MenuStack.next, if_neg hfile, MenuStack.after,
      if_pos hroom]
    exact ⟨henter.of_levels l.menu _, shown_loaded hloads hfile rfl⟩

theorem hasRoom_iff (h : Represents s st) : st.HasRoom ↔ ¬ maxMenuLevel ≤ s.menuLevel + 1 := by
  rw [h.level]
  exact Nat.not_le.symm

variable (env file) in
theorem enter_iff (h : Navigates log s st) (item : ℕ) (fname : Bytes) (script : Option Bytes) :
    Answered log st (.enter item fname script) file
      (if maxMenuLevel ≤ s.menuLevel + 1 then some ([], s)
        else ((s.enter item fname).setScript script).loadLevel env file) ↔
      (st.HasRoom → LoadFits env fname script file) := by
  by_cases hroom : st.HasRoom
  · rw [if_neg ((hasRoom_iff h.represents).mp hroom)]
    constructor
    · rintro ⟨loads, s', hround, -⟩ -
      by_contra hfits
      rw [PromptState.loadLevel,
        load_none (h.represents.enter hroom item fname script) hfits] at hround
      cases hround
    · exact fun hfits => enter_answers h hroom item fname script (hfits hroom)
  · rw [if_pos (not_not.mp (mt (hasRoom_iff h.represents).mpr hroom))]
    exact iff_of_true (answered_nothing h (if_neg hroom) nofun rfl) fun h' => absurd h' hroom

/-- `..` in the first menu loads it again. -/
theorem up_first_iff (h : Navigates log s st) (hbelow : st.below = []) :
    Answered log st .up file (s.up.loadLevel env file) ↔ LoadFits env st.file st.script file := by
  have hlevel : s.menuLevel = 0 := by rw [h.represents.level, hbelow]; rfl
  have hafter : st.next file .up = st := by
    rw [MenuStack.next, MenuStack.after, MenuStack.pop, hbelow, ite_self]
  rw [h.represents.up_first hbelow]
  constructor
  · rintro ⟨loads, s', hround, -⟩
    by_contra hfits
    rw [PromptState.loadLevel, load_none h.represents hfits] at hround
    cases hround
  · intro hfits
    obtain ⟨l, hload, hloads⟩ := load_spec h.represents hfits
    rw [PromptState.loadLevel, hload, Option.map_some, if_neg fun hnot => hnot.2 hlevel]
    refine ⟨_, _, rfl, ?_, fun _ hne => absurd hbelow hne, fun _ i hi => ?_⟩
    · rw [hafter]
      refine ⟨h.represents.of_levels l.menu _, ?_⟩
      rcases hloads.ended with ⟨hfile, -, hmenu⟩ | ⟨hfile, -⟩
      · exact shown_failed h.shown hloads hfile hmenu
      · exact shown_loaded hloads hfile rfl
    · rw [MenuStack.selects, hbelow] at hi
      cases hi

/-- `..` above the first menu: if the menu below cannot be loaded, its level is lost. -/
theorem up_iff (h : Navigates log s st) (hbelow : st.below ≠ []) :
    Answered log st .up file (s.up.loadLevel env file) ↔
      file ≠ none ∧ LoadFits env st.pop.file st.pop.script file := by
  obtain ⟨fr, below, hframes⟩ := List.exists_cons_of_ne_nil hbelow
  obtain ⟨hup, hinitial⟩ := h.represents.up hframes
  have hpop : st.pop = ⟨fr.file, fr.script, below⟩ := by rw [MenuStack.pop, hframes]
  rw [← hpop] at hup
  by_cases hfits : LoadFits env st.pop.file st.pop.script file
  · obtain ⟨l, hload, hloads⟩ := load_spec hup hfits
    rw [PromptState.loadLevel, hload, Option.map_some]
    rcases hloads.ended with ⟨hfile, hresult, -⟩ | ⟨hfile, hresult⟩
    · refine iff_of_false ?_ fun hnot => hnot.1 hfile
      rintro ⟨loads, s', hround, hnavigates, -, -⟩
      cases hround
      -- the level has become smaller, but the stack is as it was
      rw [MenuStack.next, if_pos hfile] at hnavigates
      have hlevel := hnavigates.represents.level
      have hless : s.up.menuLevel < st.below.length := by
        rw [hup.level, hpop, hframes]
        exact Nat.lt_succ_self _
      split at hlevel
      · have hleave : s.up.menuLevel - 1 = st.below.length := hlevel
        omega
      · have hup' : s.up.menuLevel = st.below.length := hlevel
        omega
    · rw [if_neg fun hnot => hnot.1 hresult]
      refine iff_of_true ⟨_, _, rfl, ?_, fun _ _ => List.cons_ne_nil _ _, fun _ i hi => ?_⟩
        ⟨hfile, hfits⟩
      · rw [MenuStack.next, if_neg hfile]
        exact ⟨hup.of_levels l.menu _, shown_loaded hloads hfile rfl⟩
      · rw [MenuStack.selects, hframes] at hi
        cases hi
        exact hinitial
  · refine iff_of_false ?_ fun hnot => hfits hnot.2
    rintro ⟨loads, s', hround, -⟩
    rw [PromptState.loadLevel, load_none hup hfits] at hround
    cases hround

theorem reload_iff (h : Navigates log s st) (item : ℕ) :
    Answered log st (.reload item) file (s.reload env file item) ↔
      LoadFits env st.file st.script file := by
  constructor
  · rintro ⟨loads, s', hround, -⟩
    by_contra hfits
    rw [PromptState.reload, load_none h.represents hfits] at hround
    cases hround
  · intro hfits
    obtain ⟨l, hload, hloads⟩ := load_spec h.represents hfits
    rw [PromptState.reload, hload, Option.map_some]
    refine ⟨_, _, rfl, ?_, nofun, fun _ i hi => ?_⟩
    · rw [MenuStack.next, MenuStack.after, ite_self]
      refine ⟨h.represents.of_levels l.menu item, ?_⟩
      rcases hloads.ended with ⟨hfile, -, hmenu⟩ | ⟨hfile, -⟩
      · exact shown_failed h.shown hloads hfile hmenu
      · exact shown_loaded hloads hfile rfl
    · cases hi
      rfl

/-- The choice of a sub-menu or of `..`. -/
theorem newMenu_iff (h : Navigates log s st) (item : ℕ) (target : Bytes) :
    Answered log st (menuEvent .newMenu item target) file (s.newMenu env file item target) ↔
      CarefulChoice env st .newMenu item target file := by
  rw [PromptState.newMenu]
  by_cases hup : target = cstr ".."
  · have hevent : menuEvent .newMenu item target = .up := if_pos hup
    rw [hevent, if_pos hup]
    have hloads : st.loads .up = some (st.pop.file, st.pop.script) := rfl
    by_cases hroom : st.HasRoom
    · rw [if_neg ((hasRoom_iff h.represents).mp hroom)]
      by_cases hbelow : st.below = []
      · have hpop : st.pop = st := by rw [MenuStack.pop, hbelow]
        rw [up_first_iff h hbelow]
        constructor
        · refine fun hfits => ⟨fun _ hne => absurd hbelow hne, nofun, fun fname script hload => ?_⟩
          rw [hevent, hloads, hpop] at hload
          cases hload
          exact hfits
        · intro hcareful
          have hfits := hcareful.loads _ _ (by rw [hevent, hloads])
          rwa [hpop] at hfits
      · rw [up_iff h hbelow]
        constructor
        · rintro ⟨hfile, hfits⟩
          refine ⟨fun _ _ => ⟨hroom, hfile⟩, nofun, fun fname script hload => ?_⟩
          rw [hevent, hloads] at hload
          cases hload
          exact hfits
        · intro hcareful
          exact ⟨(hcareful.up hevent hbelow).2, hcareful.loads _ _ (by rw [hevent, hloads])⟩
    · -- the last level
      have hbelow : st.below ≠ [] := by
        intro hnil
        rw [MenuStack.HasRoom, hnil] at hroom
        exact hroom (by decide)
      rw [if_pos (not_not.mp (mt (hasRoom_iff h.represents).mpr hroom))]
      refine iff_of_false ?_ fun hcareful => hroom (hcareful.up hevent hbelow).1
      rintro ⟨loads, s', hround, hanswers⟩
      cases hround
      exact hanswers.available rfl hbelow rfl
  · have hevent : menuEvent .newMenu item target = .enter item target none := if_neg hup
    rw [hevent, if_neg hup]
    refine (enter_iff env file h item target none).trans ⟨fun hfits => ⟨?_, nofun, ?_⟩, fun hcareful => ?_⟩
    · rw [hevent]
      exact nofun
    · intro fname script hload
      rw [hevent, MenuStack.loads] at hload
      split at hload
      · next hroom =>
          cases hload
          exact hfits hroom
      · cases hload
    · intro hroom
      apply hcareful.loads
      rw [hevent, MenuStack.loads, if_pos hroom]

/-- The choice of a scripted menu. -/
theorem newMenuScripted_iff (h : Navigates log s st) (item : ℕ) (target : Bytes) :
    Answered log st (menuEvent .newMenuScripted item target) file
        (s.newMenuScripted env file item target) ↔
      CarefulChoice env st .newMenuScripted item target file := by
  rw [PromptState.newMenuScripted]
  cases htoken : strtokNext isColon target with
  | none =>
      -- a target of colons only
      have hevent : menuEvent .newMenuScripted item target = .nothing := by
        simp only [menuEvent, htoken]
      rw [hevent]
      have hnothing : Answered log st .nothing file (some ([], s)) :=
        answered_nothing h rfl nofun rfl
      have hcareful : CarefulChoice env st .newMenuScripted item target file ↔
          (st.HasRoom → target.length < maxLineLength) := by
        refine ⟨fun hcareful => hcareful.buffer rfl, fun hbuffer => ⟨?_, fun _ => hbuffer, ?_⟩⟩
        · rw [hevent]
          exact nofun
        · rw [hevent]
          exact nofun
      rw [hcareful]
      by_cases hroom : st.HasRoom
      · rw [if_neg ((hasRoom_iff h.represents).mp hroom)]
        by_cases hbuffer : target.length < maxLineLength
        · rw [if_neg (by omega)]
          exact iff_of_true hnothing fun _ => hbuffer
        · rw [if_pos (by omega)]
          refine iff_of_false ?_ fun hfits => hbuffer (hfits hroom)
          rintro ⟨loads, s', hround, -⟩
          cases hround
      · rw [if_pos (not_not.mp (mt (hasRoom_iff h.represents).mpr hroom))]
        exact iff_of_true hnothing fun h' => absurd h' hroom
  | some token =>
      obtain ⟨fname, rest⟩ := token
      have hevent : menuEvent .newMenuScripted item target =
          .enter item fname (PromptState.menuScript rest) := by
        simp only [menuEvent, htoken]
      rw [hevent]
      have hcareful : CarefulChoice env st .newMenuScripted item target file ↔
          (st.HasRoom → target.length < maxLineLength) ∧
            (st.HasRoom → LoadFits env fname (PromptState.menuScript rest) file) := by
        constructor
        · intro hcareful
          refine ⟨hcareful.buffer rfl, fun hroom => hcareful.loads _ _ ?_⟩
          rw [hevent, MenuStack.loads, if_pos hroom]
        · rintro ⟨hbuffer, hfits⟩
          refine ⟨?_, fun _ => hbuffer, fun fname' script' hload => ?_⟩
          · rw [hevent]
            exact nofun
          · rw [hevent, MenuStack.loads] at hload
            split at hload
            · next hroom =>
                cases hload
                exact hfits hroom
            · cases hload
      rw [hcareful]
      have henter := enter_iff env file h item fname (PromptState.menuScript rest)
      by_cases hroom : st.HasRoom
      · rw [if_neg ((hasRoom_iff h.represents).mp hroom)] at henter ⊢
        by_cases hbuffer : target.length < maxLineLength
        · rw [if_neg (by omega)]
          exact henter.trans ⟨fun hfits => ⟨fun _ => hbuffer, hfits⟩, fun hfits => hfits.2⟩
        · rw [if_pos (by omega)]
          refine iff_of_false ?_ fun hfits => hbuffer (hfits.1 hroom)
          rintro ⟨loads, s', hround, -⟩
          cases hround
      · rw [if_pos (not_not.mp (mt (hasRoom_iff h.represents).mpr hroom))] at henter ⊢
        exact henter.trans
          ⟨fun hfits => ⟨fun h' => absurd h' hroom, hfits⟩, fun hfits => hfits.2⟩

/-- A choice is answered exactly if it is careful. -/
theorem answered_iff (h : Navigates log s st) (nav : Navigation) (item : ℕ) (target : Bytes) :
    Answered log st (menuEvent nav item target) file (s.round env file nav item target) ↔
      CarefulChoice env st nav item target file := by
  have h0 : Navigates log { s with overrideInitialSelection := -1 } st :=
    ⟨h.represents.of_levels s.menu (-1), h.shown⟩
  cases nav with
  | newMenu => exact newMenu_iff h0 item target
  | newMenuScripted => exact newMenuScripted_iff h0 item target
  | reload =>
      refine (reload_iff h0 item).trans ⟨fun hfits => ⟨nofun, nofun, ?_⟩, fun hcareful => ?_⟩
      · intro fname script hload
        cases hload
        exact hfits
      · exact hcareful.loads _ _ rfl

end Choices

end Levels

/-! ## Runs -/

/-- The state follows the stack through a run of choices. -/
def Follows (env : MenuEnv) : List MenuLoad → PromptState → MenuStack → List MenuChoice → Prop
  | log, s, st, [] => Navigates log s st
  | log, s, st, c :: cs =>
      Navigates log s st ∧ ∀ nav target, s.chosen c = some (nav, target) →
        ∃ loads s', s.round env c.file nav c.item target = some (loads, s') ∧
          Answers log st (menuEvent nav c.item target) c.file loads s' ∧
          Follows env (log ++ loads) s' (st.next c.file (menuEvent nav c.item target)) cs

/-- All choices of a run are careful. -/
def CarefulRun (env : MenuEnv) : PromptState → MenuStack → List MenuChoice → Prop
  | _, _, [] => True
  | s, st, c :: cs =>
      ∀ nav target, s.chosen c = some (nav, target) →
        CarefulChoice env st nav c.item target c.file ∧
          ∀ loads s', s.round env c.file nav c.item target = some (loads, s') →
            CarefulRun env s' (st.next c.file (menuEvent nav c.item target)) cs

theorem follows_iff_careful {env : MenuEnv} {log : List MenuLoad} {s : PromptState} {st : MenuStack}
    (h : Navigates log s st) (cs : List MenuChoice) :
    Follows env log s st cs ↔ CarefulRun env s st cs := by
  induction cs generalizing log s st with
  | nil => exact iff_of_true h trivial
  | cons c cs ih =>
      constructor
      · rintro ⟨-, hfollows⟩ nav target hchosen
        obtain ⟨loads, s', hround, hanswers, hrest⟩ := hfollows nav target hchosen
        refine ⟨(answered_iff h nav c.item target).mp ⟨loads, s', hround, hanswers⟩, ?_⟩
        intro loads' t hround'
        rw [hround, Option.some.injEq, Prod.mk.injEq] at hround'
        obtain ⟨rfl, rfl⟩ := hround'
        exact (ih hanswers.navigates).mp hrest
      · intro hcareful
        refine ⟨h, fun nav target hchosen => ?_⟩
        obtain ⟨hchoice, hrest⟩ := hcareful nav target hchosen
        obtain ⟨loads, s', hround, hanswers⟩ := (answered_iff h nav c.item target).mpr hchoice
        exact ⟨loads, s', hround, hanswers, (ih hanswers.navigates).mpr (hrest loads s' hround)⟩

/-- A sub-menu that could be loaded and `..` come back to the level, with the item selected. -/
theorem submenu_returns {env : MenuEnv} {log : List MenuLoad} {s s' s'' : PromptState}
    {st : MenuStack} {c c' : MenuChoice} {nav : Navigation} {target fname : Bytes}
    {script : Option Bytes} {loads loads' : List MenuLoad} (hfollows : Follows env log s st [c, c'])
    (hroom : st.HasRoom) (hchosen : s.chosen c = some (nav, target))
    (henter : menuEvent nav c.item target = .enter c.item fname script) (hfile : c.file ≠ none)
    (hround : s.round env c.file nav c.item target = some (loads, s'))
    (hup : s'.chosen c' = some (.newMenu, cstr "..")) (hfile' : c'.file ≠ none)
    (hround' : s'.round env c'.file .newMenu c'.item (cstr "..") = some (loads', s'')) :
    s''.menuLevel = s.menuLevel ∧ s''.overrideInitialSelection = c.item := by
  obtain ⟨hstart, hnext⟩ := hfollows
  obtain ⟨l, t, hround₁, -, -, hnext'⟩ := hnext nav target hchosen
  rw [hround, Option.some.injEq, Prod.mk.injEq] at hround₁
  obtain ⟨rfl, rfl⟩ := hround₁
  obtain ⟨l', t', hround₂, hanswers, hend⟩ := hnext' .newMenu (cstr "..") hup
  rw [hround', Option.some.injEq, Prod.mk.injEq] at hround₂
  obtain ⟨rfl, rfl⟩ := hround₂
  have hpush : st.next c.file (menuEvent nav c.item target) = st.push c.item fname script := by
    rw [MenuStack.next, if_neg hfile, henter, MenuStack.after, if_pos hroom]
  have hevent : menuEvent .newMenu c'.item (cstr "..") = .up := rfl
  rw [hpush, hevent] at hanswers
  refine ⟨?_, hanswers.selects hfile' _ rfl⟩
  have hpop : (st.push c.item fname script).next c'.file .up = st :=
    (if_neg hfile').trans (st.pop_push c.item fname script)
  have hrepresents := hanswers.navigates.represents
  rw [hpop] at hrepresents
  rw [hrepresents.level, hstart.represents.level]

/-- The stack of the main menu. -/
def mainMenu : MenuStack := ⟨mainMenuFile, none, []⟩

theorem represents_promptStart : Represents promptStart mainMenu where
  level := rfl
  bound := by decide
  file := rfl
  script := rfl
  deeper := by
    intro k hk
    refine ⟨?_, rfl⟩
    have hk' : 0 < k := hk
    show Function.update (fun _ => none) 0 (some mainMenuFile) k = none
    rw [Function.update_of_ne (by omega)]
  below := trivial

/-- After the main menu has been loaded, or could not be. -/
theorem navigates_main {env : MenuEnv} {file : Option Bytes} {l : MenuLoad} {s : PromptState}
    (h : promptStart.load env file = some (l, s)) : Navigates [l] s mainMenu := by
  by_cases hfits : LoadFits env mainMenuFile none file
  · obtain ⟨l', hload, hloads⟩ := load_spec represents_promptStart hfits
    rw [h, Option.some.injEq, Prod.mk.injEq] at hload
    obtain ⟨rfl, rfl⟩ := hload
    refine ⟨represents_promptStart.of_levels l.menu _, ?_⟩
    rcases hloads.ended with ⟨hfile, -, hmenu⟩ | ⟨hfile, -⟩
    · have hstart : Shown [] promptStart mainMenu := rfl
      exact shown_failed hstart hloads hfile hmenu
    · have hshown : Shown ([] ++ [l]) { promptStart with menu := l.menu } mainMenu :=
        shown_loaded hloads hfile rfl
      exact hshown
  · rw [load_none represents_promptStart hfits] at h
    cases h

/-- `prompt_and_wait` follows the stack of the menus exactly in the runs whose choices are careful.
-/
theorem navigation_follows_stack (env : MenuEnv) (file : Option Bytes) (cs : List MenuChoice) :
    (∃ l s, promptStart.load env file = some (l, s) ∧ Follows env [l] s mainMenu cs) ↔
      LoadFits env mainMenuFile none file ∧
        ∀ l s, promptStart.load env file = some (l, s) → CarefulRun env s mainMenu cs := by
  constructor
  · rintro ⟨l, s, hload, hfollows⟩
    refine ⟨?_, fun l' s' hload' => ?_⟩
    · by_contra hfits
      rw [load_none represents_promptStart hfits] at hload
      cases hload
    · rw [hload, Option.some.injEq, Prod.mk.injEq] at hload'
      obtain ⟨rfl, rfl⟩ := hload'
      exact (follows_iff_careful (navigates_main hload) cs).mp hfollows
  · rintro ⟨hfits, hcareful⟩
    obtain ⟨l, hload, -⟩ := load_spec represents_promptStart hfits
    exact ⟨l, _, hload, (follows_iff_careful (navigates_main hload) cs).mpr (hcareful l _ hload)⟩

namespace Sample

def env : MenuEnv := ⟨48, fun _ => false⟩

def mainText : Bytes := cstr "Main\nTools:menu:tools.menu\n"

def toolsText : Bytes := cstr "Tools\nBack:menu:..\n"

/-- `..` in the first sub-menu, while the main menu cannot be loaded. -/
theorem failed_up_not_followed :
    ¬ ∃ l s, promptStart.load env (some mainText) = some (l, s) ∧
      Follows env [l] s mainMenu [⟨0, some toolsText⟩, ⟨0, none⟩] := by
  rintro ⟨l, s, hload, hfollows⟩
  have hchosen : (promptStart.load env (some mainText)).bind
      (fun r => r.2.chosen ⟨0, some toolsText⟩) = some (.newMenu, cstr "tools.menu") := by
    decide +kernel
  have hup : (promptStart.load env (some mainText)).bind (fun r =>
      (r.2.round env (some toolsText) .newMenu 0 (cstr "tools.menu")).bind fun r' =>
        r'.2.chosen ⟨0, none⟩) = some (.newMenu, cstr "..") := by
    decide +kernel
  rw [hload, Option.bind_some] at hchosen hup
  have hcareful := (follows_iff_careful (navigates_main hload) _).mp hfollows
  obtain ⟨-, hrest⟩ := hcareful _ _ hchosen
  obtain ⟨⟨loads, s'⟩, hround, hup⟩ := Option.bind_eq_some_iff.mp hup
  obtain ⟨hchoice, -⟩ := hrest loads s' hround _ _ hup
  exact (hchoice.up rfl (by decide)).2 rfl

end Sample

end OpenRecovery.Recovery
