import OpenRecovery.Minzip.DirUtil

/-!
# What `dirCreateHierarchy` creates

The loop cuts the path behind each component and repairs it, so in every round the buffer is the
path again, and the system calls see the path up to the component (`makeLevels_spec`). A path whose
only slash is the first byte has no directory part for `stripFileName`: the search for the last
slash gives up at the first byte without looking at it (`dirCreateHierarchy_creates_iff`).
-/

set_option autoImplicit false

namespace OpenRecovery.Minzip.DirUtil

open OpenRecovery.Storage
open OpenRecovery.Crash

/-! ## The buffer -/

section Buffer

variable (u w : Bytes) {ds comp : Bytes} (hds : ∀ c ∈ ds, c = slash)

include hds

/-- Only slashes are left. -/
theorem nextLevel_end : nextLevel (u ++ (ds ++ 0 :: w)) u.length = some none := by
  have hstart := advance_append u w 0 (f := fun c => c ≠ 0 ∧ c = slash) (s := ds)
    (by
      intro c hc
      rw [hds c hc]
      decide)
    (by decide) (n := (u ++ (ds ++ 0 :: w)).length) (by simp; omega)
  have hload : load (u ++ (ds ++ 0 :: w)) ((u ++ ds).length : Int) = some 0 := by
    rw [← List.append_assoc, load_append]
  rw [nextLevel, hstart]
  simp only [Option.bind_eq_bind, Option.bind_some, hload]
  rfl

/-- The pointer stops at the slash behind the next component. -/
theorem nextLevel_component (hcomp : comp ≠ []) (hsep : slash ∉ comp) (hnul : (0 : UInt8) ∉ comp) :
    nextLevel (u ++ (ds ++ (comp ++ slash :: w))) u.length =
      some (some ((u ++ ds ++ comp).length : Int)) := by
  obtain ⟨x, comp', rfl⟩ := List.exists_cons_of_ne_nil hcomp
  have hx : x ≠ slash ∧ x ≠ 0 := by
    rw [List.mem_cons, not_or] at hsep hnul
    exact ⟨Ne.symm hsep.1, Ne.symm hnul.1⟩
  have hstart := advance_append u (comp' ++ slash :: w) x (f := fun c => c ≠ 0 ∧ c = slash)
    (s := ds)
    (by
      intro c hc
      rw [hds c hc]
      decide)
    (by simp [hx.1]) (n := (u ++ (ds ++ (x :: comp' ++ slash :: w))).length) (by simp; omega)
  have hload : load (u ++ (ds ++ (x :: comp' ++ slash :: w))) ((u ++ ds).length : Int) = some x := by
    rw [← List.append_assoc, List.cons_append, load_append]
  have hstop : advance (· ≠ slash) (u ++ (ds ++ (x :: comp' ++ slash :: w)))
      (u ++ (ds ++ (x :: comp' ++ slash :: w))).length ((u ++ ds).length : Int) =
        some ((u ++ ds ++ x :: comp').length : Int) := by
    rw [← List.append_assoc]
    apply advance_append (u ++ ds) w slash
    · intro y hy
      exact decide_eq_true fun h => hsep (h ▸ hy)
    · simp
    · simp
      omega
  rw [nextLevel]
  simp only [List.cons_append] at hstart hload hstop ⊢
  simp only [hstart, hload, hstop, Option.bind_eq_bind, Option.bind_some, hx.2, if_false]
  rfl

end Buffer

/-! ## One level -/

/-- The changes that make directories. -/
def changes (mode : Nat) (timestamp : Option Utimbuf) (made : List Location) : List Change :=
  made.flatMap fun loc => .mkdir loc mode :: (timestamp.map (Change.utime loc)).toList

/-- The missing directories of a walk were made, and nothing else was done. -/
def Makes (mode : Nat) (timestamp : Option Utimbuf) (loc : Location) (names : List Bytes)
    (s s' : DirState) : Prop :=
  ∃ made, DirTree.Created s.tree s'.tree loc names made ∧
    s'.log = s.log ++ changes mode timestamp made ∧ s'.streams = s.streams

section Makes

variable {mode : Nat} {timestamp : Option Utimbuf} {loc : Location} {name : Bytes}
  {names : List Bytes} {s s' s'' : DirState}

theorem makes_nothing (h : ∀ l ∈ s.tree.locations loc names, s.tree.node l = some .dir) :
    Makes mode timestamp loc names s s :=
  ⟨[], DirTree.created_nil h, (List.append_nil _).symm, rfl⟩

theorem Makes.grows (h : Makes mode timestamp loc names s s') : s.tree.Grows s'.tree := by
  obtain ⟨made, hcreated, -, -⟩ := h
  exact hcreated.grows

/-- Afterwards the walk arrives. -/
theorem Makes.walk (h : Makes mode timestamp loc names s s') (honly : s.tree.OnlyDirs loc names) :
    ∃ found, names.foldlM s'.tree.chdir loc = .ok found := by
  obtain ⟨made, hcreated, -, -⟩ := h
  apply DirTree.walk_of_dirs
  rw [hcreated.grows.locations]
  exact hcreated.dirs honly

theorem Makes.cons (h : Makes mode timestamp loc [name] s s')
    (h' : Makes mode timestamp (s.tree.enter loc name) names s' s'') :
    Makes mode timestamp loc (name :: names) s s'' := by
  obtain ⟨made, hcreated, hlog, hstreams⟩ := h
  obtain ⟨made', hcreated', hlog', hstreams'⟩ := h'
  refine ⟨made ++ made', hcreated.cons hcreated', ?_, hstreams'.trans hstreams⟩
  rw [hlog', hlog, List.append_assoc, changes, changes, changes, List.flatMap_append]

end Makes

section Level

variable {cwd : Location} {s : DirState} {path : Bytes}

/-- The file system, with `mkdir` and `utime` succeeding. -/
abbrev goodMachine (cwd : Location) : Machine DirState DirOp DirOp.Res :=
  (dirMachine cwd).restrict Succeeds

theorem returns_sysStat {α : Type} {Q : α → DirState → Prop} {f : Except Errno Bool → DirProg α}
    (h : Returns (goodMachine cwd) Q (f (s.tree.stat cwd path)) s) :
    Returns (goodMachine cwd) Q (sysStat path >>= f) s := by
  refine ⟨⟨_, rfl, trivial⟩, ?_⟩
  rintro r ⟨rfl, -⟩
  exact h

theorem returns_getPathDirStatus {α : Type} {Q : α → DirState → Prop} {f : DirStatus → DirProg α}
    {st : DirStatus}
    (hst : s.tree.stat cwd path = .ok true ∧ st = .dir ∨
      s.tree.stat cwd path = .error enoent ∧ st = .missing)
    (h : Returns (goodMachine cwd) Q (f st) s) :
    Returns (goodMachine cwd) Q (getPathDirStatus path >>= f) s := by
  rw [getPathDirStatus, bind_assoc]
  apply returns_sysStat
  rcases hst with ⟨hstat, rfl⟩ | ⟨hstat, rfl⟩
  · rw [hstat]
    exact h
  · rw [hstat]
    exact h

variable {names : List Bytes} {comp : Bytes} {loc : Location} (mode : Nat)
  (timestamp : Option Utimbuf)

/-- A missing directory is made in one that exists. -/
theorem returns_makeLevel (hpath : path ≠ []) (hstart : DirTree.start cwd path = [])
    (hcomp : DirTree.components path = names ++ [comp])
    (hwalk : names.foldlM s.tree.chdir [] = .ok loc) (hproper : ProperName comp)
    (hnone : s.tree.node (DirTree.next loc comp) = none) :
    Returns (goodMachine cwd) (fun r s' => r = .ok () ∧ Makes mode timestamp loc [comp] s s')
      (makeLevel path mode timestamp) s := by
  have hloc := DirTree.node_of_foldlM s.tree.root hwalk
  obtain ⟨-, -, hnext⟩ := DirTree.next_of_missing hloc hnone
  have henter := (DirTree.enter_of_missing hnone).trans hnext
  rw [hnext] at hnone
  have hparent : s.tree.resolveParent cwd path = .ok (loc, some comp) :=
    DirTree.resolveParent_concat hpath (hstart ▸ s.tree.root) hcomp (hstart ▸ hwalk)
  have hcan : s.CanMake loc comp := ⟨hloc, hproper, hnone⟩
  have hcreated := DirTree.created_make hloc hproper hnone henter
  refine ⟨⟨.ok (), ⟨loc, comp, hparent, hcan⟩, trivial⟩, ?_⟩
  -- `mkdir` can only succeed here
  rintro (e | -) ⟨-, hok⟩
  · exact absurd hok id
  have hmade : s.apply cwd (.mkdir path mode) (.ok ()) =
      { s with tree := s.tree.make hloc hproper, log := s.log ++ [.mkdir (comp :: loc) mode] } := by
    simp only [DirState.apply, hparent]
    rw [dif_pos hcan]
  change Returns _ _ _ (s.apply cwd (.mkdir path mode) (.ok ()))
  rw [hmade]
  cases timestamp with
  | none => exact ⟨rfl, [comp :: loc], hcreated, rfl, rfl⟩
  | some ts =>
      -- the new directory can be found, so that its time can be set
      have hstep : (s.tree.make hloc hproper).chdir loc comp = .ok (comp :: loc) :=
        DirTree.chdir_eq_ok.mpr ⟨by simp, by rw [hcreated.grows.enter, henter]⟩
      have hwalk' : (DirTree.components path).foldlM (s.tree.make hloc hproper).chdir
          (DirTree.start cwd path) = .ok (comp :: loc) := by
        rw [hcomp, hstart, DirTree.foldlM_concat, hcreated.grows.foldlM hwalk]
        exact hstep
      have hfound : (s.tree.make hloc hproper).resolve true cwd path = .ok (comp :: loc) :=
        DirTree.resolve_of_walk hpath (hstart ▸ DirTree.root _) hwalk'
      refine ⟨⟨.ok (), ⟨_, hfound⟩, trivial⟩, ?_⟩
      rintro (e | -) ⟨-, hok⟩
      · exact absurd hok id
      refine ⟨rfl, [comp :: loc], ?_, ?_, ?_⟩ <;>
        simp only [dirMachine, Machine.restrict, DirState.apply, hfound]
      · exact hcreated
      · exact List.append_assoc _ _ _

/-- After a level its directory exists, and only this directory was made, if it was missing. -/
theorem returns_checkLevel (hpath : path ≠ []) (hstart : DirTree.start cwd path = [])
    (hcomp : DirTree.components path = names ++ [comp]) (hproper : comp ≠ dot → comp ≠ dotdot →
      ProperName comp)
    (hwalk : names.foldlM s.tree.chdir [] = .ok loc) (honly : s.tree.OnlyDirs loc [comp]) :
    Returns (goodMachine cwd) (fun r s' => r = .ok () ∧ Makes mode timestamp loc [comp] s s')
      (checkLevel path mode timestamp) s := by
  have hloc := DirTree.node_of_foldlM s.tree.root hwalk
  have hroot : s.tree.node (DirTree.start cwd path) = some .dir := hstart ▸ s.tree.root
  have hall : (DirTree.components path).foldlM s.tree.chdir (DirTree.start cwd path) =
      s.tree.chdir loc comp := by
    rw [hcomp, hstart, DirTree.foldlM_concat, hwalk]
    rfl
  rcases honly.1 with hnone | hdir
  · -- missing: `stat` says so, and `mkdir` follows
    have hmissing : s.tree.chdir loc comp = .error enoent :=
      DirTree.chdir_eq_enoent.mpr (DirTree.enter_of_missing hnone ▸ hnone)
    apply returns_getPathDirStatus (.inr ⟨DirTree.stat_of_missing hpath hroot
      (hall.trans hmissing), rfl⟩)
    obtain ⟨hdot, hdotdot, -⟩ := DirTree.next_of_missing hloc hnone
    exact returns_makeLevel mode timestamp hpath hstart hcomp hwalk (hproper hdot hdotdot) hnone
  · -- there already, or behind a link
    have hstep : s.tree.chdir loc comp = .ok (s.tree.enter loc comp) :=
      DirTree.chdir_eq_ok.mpr ⟨hdir, rfl⟩
    apply returns_getPathDirStatus (.inl ⟨DirTree.stat_of_walk hpath hroot (hall.trans hstep), rfl⟩)
    refine ⟨rfl, makes_nothing ?_⟩
    simpa [DirTree.locations] using hdir

end Level

/-! ## All levels -/

/-- A text between two slashes is made of slashes, or has a first component. -/
theorem slashes_or_component {v : Bytes} (hfirst : v.head? = some slash)
    (hend : v.getLast? = some slash) :
    (∀ c ∈ v, c = slash) ∨ ∃ ds comp v', (∀ c ∈ slash :: ds, c = slash) ∧ comp ≠ [] ∧
      slash ∉ comp ∧ v = (slash :: ds) ++ (comp ++ slash :: v') := by
  rcases exists_token slash v with hds | ⟨ds, comp, rest, hds, hcomp, hsep, rfl, hrest | ⟨v', hrest⟩⟩
  · exact .inl hds
  · -- the last byte would be one of the component
    rw [hrest, List.append_nil, List.getLast?_append_of_ne_nil _ hcomp] at hend
    exact absurd (List.mem_of_getLast? hend) hsep
  · right
    cases ds with
    | nil =>
        -- the first byte would be one of the component
        obtain ⟨x, comp', rfl⟩ := List.exists_cons_of_ne_nil hcomp
        cases hfirst
        exact absurd (List.mem_cons_self ..) hsep
    | cons c ds =>
        obtain rfl := hds c (List.mem_cons_self ..)
        exact ⟨ds, comp, v', hds, hcomp, hsep, by rw [hrest]⟩

theorem components_slash_cons (v : Bytes) :
    DirTree.components (slash :: v) = DirTree.components v := strtok_cons_delim slash v

section Components

variable {ds comp : Bytes} (hcomp : comp ≠ []) (hsep : slash ∉ comp)

include hcomp hsep

/-- The components of the path that is cut behind a component. -/
theorem components_cut (u : Bytes) (hds : ∀ c ∈ slash :: ds, c = slash) :
    DirTree.components (u ++ (slash :: ds) ++ comp) = DirTree.components u ++ [comp] := by
  rw [List.append_assoc, List.cons_append, DirTree.components, strtok_append_delim,
    strtok_append_delims (fun c hc => hds c (List.mem_cons_of_mem _ hc)), strtok_token hcomp hsep]
  rfl

/-- A component and those of the rest. -/
theorem components_component (v : Bytes) (hds : ∀ c ∈ ds, c = slash) :
    DirTree.components (ds ++ (comp ++ slash :: v)) =
      comp :: DirTree.components (slash :: v) := by
  rw [DirTree.components, strtok_append_delims hds, strtok_token_append hcomp hsep,
    components_slash_cons]
  rfl

end Components

section Levels

variable {cwd : Location} (mode : Nat) (timestamp : Option Utimbuf)

/-- The loop makes whatever is missing on the rest `v` of the path. The part `u` before the pointer
leads to the directory `loc`. -/
theorem makeLevels_spec {n : Nat} {u v w : Bytes} {s : DirState} {loc : Location}
    (hn : v.length < n) (hfirst : v.head? = some slash) (hend : v.getLast? = some slash)
    (habs : (u ++ v).head? = some slash) (hnul : (0 : UInt8) ∉ u ++ v)
    (hwalk : (DirTree.components u).foldlM s.tree.chdir [] = .ok loc)
    (honly : s.tree.OnlyDirs loc (DirTree.components v)) :
    Returns (goodMachine cwd)
      (fun r s' => r = some (.ok ()) ∧
        Makes mode timestamp loc (DirTree.components v) s s')
      (makeLevels mode timestamp n (u ++ (v ++ 0 :: w)) u.length) s := by
  induction n generalizing u v s loc with
  | zero => exact absurd hn (Nat.not_lt_zero _)
  | succ n ih =>
      have hload : load (u ++ (v ++ 0 :: w)) u.length = some slash := by
        obtain ⟨v', rfl⟩ : ∃ v', v = slash :: v' := List.head?_eq_some_iff.mp hfirst
        exact load_append u _ slash
      simp only [makeLevels, hload]
      rw [if_neg (by decide)]
      rcases slashes_or_component hfirst hend with hds | ⟨ds, comp, v', hds, hcomp, hsep, rfl⟩
      · -- nothing but slashes is left
        rw [nextLevel_end u w hds]
        have hnone : DirTree.components v = [] := by
          have h : strtok slash (v ++ []) = [] := strtok_append_delims hds []
          rwa [List.append_nil] at h
        rw [hnone]
        exact ⟨rfl, makes_nothing (by simp [DirTree.locations])⟩
      · rw [components_component hcomp hsep v' hds] at honly ⊢
        obtain ⟨honlyComp, honlyRest⟩ := honly
        -- `cut` is the path up to the next component
        obtain ⟨cut, hcut⟩ : ∃ cut, cut = u ++ (slash :: ds) ++ comp := ⟨_, rfl⟩
        have hcomponents : DirTree.components cut = DirTree.components u ++ [comp] :=
          hcut ▸ components_cut hcomp hsep u hds
        have hnulComp : (0 : UInt8) ∉ comp := fun h => hnul (by simp [h])
        have hnulCut : (0 : UInt8) ∉ cut := by
          intro h
          apply hnul
          rw [← List.append_assoc, ← List.append_assoc]
          exact List.mem_append_left _ (hcut ▸ h)
        have habsCut : cut.head? = some slash := by
          rw [← habs, hcut]
          cases u <;> rfl
        have hstart : DirTree.start cwd cut = [] := if_pos habsCut
        have hne : cut ≠ [] := by simp [hcut]
        -- the system calls see `cut`, and then the buffer is repaired
        have hbuffer : u ++ ((slash :: ds) ++ (comp ++ slash :: v') ++ 0 :: w) =
            cut ++ slash :: (v' ++ 0 :: w) := by simp [hcut]
        have hlevel : nextLevel (u ++ ((slash :: ds) ++ (comp ++ slash :: v') ++ 0 :: w)) u.length =
            some (some (cut.length : Int)) := by
          rw [hcut, List.append_assoc, List.append_assoc comp]
          exact nextLevel_component u (v' ++ 0 :: w) hds hcomp hsep hnulComp
        have hstring : stringAt (cut ++ 0 :: (v' ++ 0 :: w)) 0 = some cut :=
          stringAt_append [] (v' ++ 0 :: w) hnulCut
        rw [hlevel]
        simp only [hbuffer, store_append, hstring]
        apply returns_bind
        have hcheck := returns_checkLevel mode timestamp hne hstart hcomponents
          (fun hdot hdotdot => ⟨hcomp, hsep, hnulComp, hdot, hdotdot⟩) hwalk
          ⟨honlyComp, trivial⟩
        refine returns_mono ?_ hcheck
        rintro r s' ⟨rfl, hmakes⟩
        simp only
        -- now `cut` leads to a directory, and the loop goes on from there
        have henter := hmakes.grows.enter loc comp
        obtain ⟨found, hfound⟩ := hmakes.walk ⟨honlyComp, trivial⟩
        obtain ⟨hdir, -⟩ := DirTree.foldlM_cons_eq_ok.mp hfound
        rw [henter] at hdir
        have hwalk' : (DirTree.components cut).foldlM s'.tree.chdir [] =
            .ok (s.tree.enter loc comp) := by
          rw [hcomponents, DirTree.foldlM_concat, hmakes.grows.foldlM hwalk]
          exact DirTree.chdir_eq_ok.mpr ⟨hdir, henter⟩
        have hlength : (slash :: v').length < n := by
          have hpos := List.length_pos_iff.mpr hcomp
          simp only [List.length_append, List.length_cons] at hn ⊢
          omega
        have hend' : (slash :: v').getLast? = some slash := by
          rw [← List.append_assoc, List.getLast?_append_of_ne_nil _ (List.cons_ne_nil _ _)] at hend
          exact hend
        have hloop := ih (u := cut) (v := slash :: v') hlength rfl hend'
          (by rw [← habs, hcut]; simp) (by simpa [hcut] using hnul) hwalk'
          (hmakes.grows.onlyDirs honlyRest)
        refine returns_mono ?_ hloop
        rintro r s'' ⟨rfl, hmakes'⟩
        exact ⟨rfl, hmakes.cons hmakes'⟩

end Levels

/-! ## The copy of the path -/

/-- The directory part of a path: up to its last slash, or all of it. -/
def directoryPart (path : Bytes) (stripFileName : Bool) : Bytes :=
  if stripFileName then path.rdropWhile (· ≠ slash) else path

/-- The path as it is checked: the directory part with a slash at its end. -/
def slashed (path : Bytes) (stripFileName : Bool) : Bytes :=
  if stripFileName then directoryPart path true else path ++ [slash]

theorem components_slashed (path : Bytes) (stripFileName : Bool) :
    DirTree.components (slashed path stripFileName) =
      DirTree.components (directoryPart path stripFileName) := by
  cases stripFileName with
  | true => rfl
  | false =>
      change strtok slash (path ++ slash :: []) = strtok slash path
      rw [strtok_append_delim, strtok_nil, List.append_nil]

theorem rdropWhile_lastSlash {u s : Bytes} (hs : slash ∉ s) :
    (u ++ slash :: s).rdropWhile (· ≠ slash) = u ++ [slash] := by
  induction s using List.reverseRecOn with
  | nil => rw [List.rdropWhile_concat_neg _ _ _ (by simp)]
  | append_singleton s x ih =>
      rw [List.mem_append, not_or, List.mem_singleton] at hs
      have hx : x ≠ slash := Ne.symm hs.2
      rw [← List.cons_append, ← List.append_assoc, List.rdropWhile_concat_pos _ _ _ (by simpa using hx)]
      exact ih hs.1

/-- The last slash of a path, when it is not the first byte. -/
theorem exists_lastSlash {path : Bytes} (habs : path.head? = some slash)
    (hslash : slash ∈ path.tail) :
    ∃ u s, u ≠ [] ∧ slash ∉ s ∧ path = u ++ slash :: s := by
  obtain ⟨tail, rfl⟩ := List.head?_eq_some_iff.mp habs
  have hsplit : tail.rdropWhile (· ≠ slash) ++ tail.rtakeWhile (· ≠ slash) = tail :=
    List.rdropWhile_append_rtakeWhile
  have hafter : slash ∉ tail.rtakeWhile (· ≠ slash) := fun h => by
    simpa using List.mem_rtakeWhile_imp h
  rcases List.eq_nil_or_concat (tail.rdropWhile (· ≠ slash)) with hnil | ⟨u, x, hx⟩
  · -- the tail would have no slash
    rw [hnil, List.nil_append] at hsplit
    rw [hsplit] at hafter
    exact absurd hslash hafter
  · rw [List.concat_eq_append] at hx
    have hlast : x = slash := by
      have hne : tail.rdropWhile (· ≠ slash) ≠ [] := by
        rw [hx]
        exact List.concat_ne_nil x u
      have h := List.rdropWhile_last_not (· ≠ slash) tail hne
      simp only [hx, List.getLast_concat] at h
      simpa using h
    rw [hx, hlast, List.append_assoc] at hsplit
    exact ⟨slash :: u, tail.rtakeWhile (· ≠ slash), List.cons_ne_nil _ _, hafter,
      congrArg (slash :: ·) hsplit.symm⟩

/-- Without a slash behind the first byte, the search gives up. -/
theorem copyPath_noSlash {path junk : Bytes} (habs : path.head? = some slash)
    (hnone : slash ∉ path.tail) : copyPath path junk true = some (.error enoent) := by
  obtain ⟨tail, rfl⟩ := List.head?_eq_some_iff.mp habs
  have hback : retreat (· ≠ slash) (slash :: tail ++ junk) 0 (slash :: tail ++ junk).length
      (tail.length : Int) = some 0 := by
    apply retreat_append [] junk slash
    · intro x hx
      exact decide_eq_true fun h => hnone (h ▸ hx)
    · simp
    · simp
    · simp
  have hlast : ((slash :: tail).length - 1 : Int) = tail.length := by simp
  rw [copyPath, if_pos rfl, hlast, hback]
  rfl

/-- Otherwise the copy is the path with a slash at its end, and nothing outside it was touched. -/
theorem copyPath_spec {path junk : Bytes} {stripFileName : Bool} (habs : path.head? = some slash)
    (hjunk : junk.length = 2) (hslash : stripFileName = true → slash ∈ path.tail) :
    ∃ w, copyPath path junk stripFileName = some (.ok (slashed path stripFileName ++ 0 :: w)) := by
  cases stripFileName with
  | true =>
      obtain ⟨u, s, hu, hs, hpath⟩ := exists_lastSlash habs (hslash rfl)
      have hdir : slashed path true = u ++ [slash] := by
        change path.rdropWhile _ = _
        rw [hpath]
        exact rdropWhile_lastSlash hs
      have hback : retreat (· ≠ slash) (path ++ junk) 0 (path ++ junk).length (path.length - 1) =
          some (u.length : Int) := by
        have h := retreat_append u junk slash (f := (· ≠ slash)) (s := s) (n := (path ++ junk).length)
          (fun x hx => decide_eq_true fun h => hs (h ▸ hx)) (by simp) (show (0 : Int) ≤ u.length by omega)
          (by simp [hpath]; omega)
        have hlast : ((u ++ s).length : Int) = path.length - 1 := by
          rw [hpath]
          simp
          omega
        have hbuffer : path ++ junk = u ++ slash :: (s ++ junk) := by
          rw [hpath, List.append_assoc, List.cons_append]
        rw [hlast, ← hbuffer] at h
        exact h
      -- the byte behind the slash is one of the path or the first one behind it
      obtain ⟨y, w, hyw⟩ : ∃ y w, s ++ junk = y :: w :=
        List.exists_cons_of_ne_nil fun h => by
          rw [(List.append_eq_nil_iff.mp h).2] at hjunk
          cases hjunk
      have hstore : store (path ++ junk) (u.length + 1) 0 = some (u ++ [slash] ++ 0 :: w) := by
        have hbuffer : path ++ junk = (u ++ [slash]) ++ y :: w := by
          rw [hpath, ← hyw]
          simp
        have hpos : ((u.length : Int) + 1) = (u ++ [slash]).length := by simp
        rw [hbuffer, hpos, store_append]
      have hne : (u.length : Int) ≠ 0 := by
        have h := List.length_pos_iff.mpr hu
        omega
      refine ⟨w, ?_⟩
      rw [copyPath, if_pos rfl, hback, hdir]
      simp only [Option.bind_eq_bind, Option.bind_some]
      rw [if_neg hne, hstore]
      rfl
  | false =>
      -- the two bytes that were allocated behind the path are written
      obtain ⟨j, j', rfl⟩ := List.length_eq_two.mp hjunk
      have hfirst : store (path ++ [j, j']) path.length slash = some (path ++ [slash, j']) :=
        store_append path [j'] j slash
      have hsecond : store (path ++ [slash, j']) (path.length + 1) 0 =
          some (path ++ [slash] ++ 0 :: []) := by
        have hbuffer : path ++ [slash, j'] = (path ++ [slash]) ++ j' :: [] := by simp
        have hpos : ((path.length : Int) + 1) = (path ++ [slash]).length := by simp
        rw [hbuffer, hpos, store_append]
      refine ⟨[], ?_⟩
      rw [copyPath, if_neg Bool.false_ne_true, hfirst]
      simp only [Option.bind_eq_bind, Option.bind_some]
      rw [hsecond]
      rfl

theorem ne_nil_of_head {s : Bytes} {c : UInt8} (h : s.head? = some c) : s ≠ [] := by
  rintro rfl
  cases h

theorem slashed_ends {path : Bytes} {stripFileName : Bool} (habs : path.head? = some slash)
    (hslash : stripFileName = true → slash ∈ path.tail) :
    (slashed path stripFileName).head? = some slash ∧
      (slashed path stripFileName).getLast? = some slash := by
  cases stripFileName with
  | true =>
      obtain ⟨u, s, hu, hs, rfl⟩ := exists_lastSlash habs (hslash rfl)
      have hdir : slashed (u ++ slash :: s) true = u ++ [slash] := rdropWhile_lastSlash hs
      rw [hdir, List.getLast?_concat]
      rw [List.head?_append_of_ne_nil _ hu] at habs ⊢
      exact ⟨habs, rfl⟩
  | false =>
      have hne : path ≠ [] := ne_nil_of_head habs
      refine ⟨?_, List.getLast?_concat ..⟩
      exact (List.head?_append_of_ne_nil _ hne).trans habs

theorem nul_slashed {path : Bytes} (stripFileName : Bool) (hnul : (0 : UInt8) ∉ path) :
    (0 : UInt8) ∉ slashed path stripFileName := by
  cases stripFileName with
  | true => exact fun h => hnul ((List.rdropWhile_prefix _ path).subset h)
  | false =>
      intro h
      rcases List.mem_append.mp h with h | h
      · exact hnul h
      · exact absurd (List.mem_singleton.mp h) (by decide)

theorem directoryPart_head {path : Bytes} {stripFileName : Bool} (habs : path.head? = some slash)
    (hslash : stripFileName = true → slash ∈ path.tail) :
    (directoryPart path stripFileName).head? = some slash := by
  cases stripFileName with
  | true => exact (slashed_ends habs hslash).1
  | false => exact habs

/-! ## The whole function -/

section Whole

variable {cwd : Location} {path : Bytes} (mode : Nat) (timestamp : Option Utimbuf)
  {stripFileName : Bool} {junk : Bytes} {s : DirState}

/-- When the copy of the path has been made, the directory is looked up, and made if it is missing.
-/
theorem dirCreateHierarchy_eq (habs : path.head? = some slash) (hnul : (0 : UInt8) ∉ path)
    (hjunk : junk.length = 2) (hslash : stripFileName = true → slash ∈ path.tail) :
    ∃ w, dirCreateHierarchy path mode timestamp stripFileName junk =
      getPathDirStatus (slashed path stripFileName) >>= fun ds =>
        match ds with
        | .dir => .ret (some (.ok ()))
        | .illegal e => .ret (some (.error e))
        | .missing => makeLevels mode timestamp (slashed path stripFileName ++ 0 :: w).length
            (slashed path stripFileName ++ 0 :: w) 0 := by
  obtain ⟨w, hcopy⟩ := copyPath_spec habs hjunk hslash
  have hne : path ≠ [] := ne_nil_of_head habs
  have hstring : stringAt (slashed path stripFileName ++ 0 :: w) 0 =
      some (slashed path stripFileName) := stringAt_append [] w (nul_slashed stripFileName hnul)
  refine ⟨w, ?_⟩
  rw [dirCreateHierarchy, if_neg hne, hcopy]
  dsimp only
  generalize stringAt (slashed path stripFileName ++ 0 :: w) 0 = name at hstring ⊢
  subst hstring
  rfl

/-- Nothing happens if the directory exists. -/
theorem returns_existing (habs : path.head? = some slash) (hnul : (0 : UInt8) ∉ path)
    (hjunk : junk.length = 2) (hslash : stripFileName = true → slash ∈ path.tail) {loc : Location}
    (hwalk : (DirTree.components (slashed path stripFileName)).foldlM s.tree.chdir [] = .ok loc) :
    Returns (goodMachine cwd) (fun r s' => r = some (.ok ()) ∧ s' = s)
      (dirCreateHierarchy path mode timestamp stripFileName junk) s := by
  obtain ⟨w, heq⟩ := dirCreateHierarchy_eq mode timestamp habs hnul hjunk hslash
  obtain ⟨hhead, -⟩ := slashed_ends habs hslash
  have hstart : DirTree.start cwd (slashed path stripFileName) = [] := if_pos hhead
  have hne : slashed path stripFileName ≠ [] := ne_nil_of_head hhead
  rw [heq]
  apply returns_getPathDirStatus (.inl ⟨DirTree.stat_of_walk hne (hstart ▸ s.tree.root)
    (hstart ▸ hwalk), rfl⟩)
  exact ⟨rfl, rfl⟩

/-- Whatever is missing on the way to the directory is made. -/
theorem returns_dirCreateHierarchy (habs : path.head? = some slash) (hnul : (0 : UInt8) ∉ path)
    (hjunk : junk.length = 2) (hslash : stripFileName = true → slash ∈ path.tail)
    (honly : s.tree.OnlyDirs [] (DirTree.components (slashed path stripFileName))) :
    Returns (goodMachine cwd)
      (fun r s' => r = some (.ok ()) ∧
        Makes mode timestamp [] (DirTree.components (slashed path stripFileName)) s s')
      (dirCreateHierarchy path mode timestamp stripFileName junk) s := by
  rcases honly.walk with ⟨found, hwalk, hdirs⟩ | hmissing
  · refine returns_mono ?_ (returns_existing mode timestamp habs hnul hjunk hslash hwalk)
    rintro r s' ⟨rfl, rfl⟩
    exact ⟨rfl, makes_nothing hdirs⟩
  · obtain ⟨w, heq⟩ := dirCreateHierarchy_eq mode timestamp habs hnul hjunk hslash
    obtain ⟨hhead, hend⟩ := slashed_ends habs hslash
    have hstart : DirTree.start cwd (slashed path stripFileName) = [] := if_pos hhead
    have hne : slashed path stripFileName ≠ [] := ne_nil_of_head hhead
    rw [heq]
    apply returns_getPathDirStatus (.inr ⟨DirTree.stat_of_missing hne (hstart ▸ s.tree.root)
      (hstart ▸ hmissing), rfl⟩)
    exact makeLevels_spec mode timestamp (u := []) (by simp) hhead hend hhead
      (nul_slashed stripFileName hnul) rfl honly

/-- The first call returns 0, and the directory part of the path is a directory then; nothing was
done but to make what was missing, each directory once and after those above it. A second call
returns 0 and does nothing. -/
def Creates (cwd : Location) (path : Bytes) (stripFileName : Bool) (junk junk' : Bytes)
    (s : DirState) : Prop :=
  Returns (goodMachine cwd)
    (fun r s' => r = some (.ok ()) ∧
      s'.tree.stat cwd (directoryPart path stripFileName) = .ok true ∧
      Makes mode timestamp [] (DirTree.components (directoryPart path stripFileName)) s s' ∧
      Returns (goodMachine cwd) (fun r s'' => r = some (.ok ()) ∧ s'' = s')
        (dirCreateHierarchy path mode timestamp stripFileName junk') s')
    (dirCreateHierarchy path mode timestamp stripFileName junk) s

/-- For an absolute path on which only directories exist, `dirCreateHierarchy` does this except for
a file directly under the root with `stripFileName`. -/
theorem dirCreateHierarchy_creates_iff (cwd : Location) (path : Bytes) (stripFileName : Bool)
    (s : DirState) (habs : path.head? = some slash) (hnul : (0 : UInt8) ∉ path)
    (honly : s.tree.OnlyDirs [] (DirTree.components (directoryPart path stripFileName))) :
    (∀ junk junk' : Bytes, junk.length = 2 → junk'.length = 2 →
      Creates mode timestamp cwd path stripFileName junk junk' s) ↔
        ¬ (stripFileName = true ∧ slash ∉ path.tail) := by
  constructor
  · -- the search for the last slash has failed
    rintro h ⟨rfl, hnone⟩
    have hcreates := h [0, 0] [0, 0] rfl rfl
    have hne : path ≠ [] := ne_nil_of_head habs
    rw [Creates, dirCreateHierarchy, if_neg hne, copyPath_noSlash habs hnone] at hcreates
    cases hcreates.1
  · intro h junk junk' hjunk hjunk'
    have hslash : stripFileName = true → slash ∈ path.tail := fun hstrip =>
      not_not.mp fun hnone => h ⟨hstrip, hnone⟩
    rw [← components_slashed] at honly
    refine returns_mono ?_ (returns_dirCreateHierarchy mode timestamp habs hnul hjunk hslash honly)
    rintro r s' ⟨rfl, hmakes⟩
    -- the second call finds what the first one has made
    obtain ⟨found, hwalk⟩ := hmakes.walk honly
    refine ⟨rfl, ?_, components_slashed path stripFileName ▸ hmakes,
      returns_existing mode timestamp habs hnul hjunk' hslash hwalk⟩
    have hhead := directoryPart_head habs hslash
    have hstart : DirTree.start cwd (directoryPart path stripFileName) = [] := if_pos hhead
    apply @DirTree.stat_of_walk _ _ _ found (ne_nil_of_head hhead)
    · rw [hstart]
      exact s'.tree.root
    · rw [hstart, ← components_slashed]
      exact hwalk

end Whole

namespace Sample

/-- A tree with nothing but its root. -/
def bare : DirTree where
  node loc := if loc = [] then some .dir else none
  root := rfl
  parent h := absurd rfl h
  proper h := absurd rfl h

/-- The root exists, and the call for a file in it fails. -/
theorem rootFile_fails :
    bare.OnlyDirs [] (DirTree.components (directoryPart (cstr "/foo") true)) ∧
      ¬ Creates 0o755 none [] (cstr "/foo") true [0, 0] [0, 0] ⟨bare, [], []⟩ := by
  refine ⟨trivial, fun h => ?_⟩
  cases h.1

/-- A path with two slashes, on which everything is missing. -/
theorem twoLevels_created :
    bare.OnlyDirs [] (DirTree.components (directoryPart (cstr "/a//b/c") true)) ∧
      ∀ junk junk' : Bytes, junk.length = 2 → junk'.length = 2 →
        Creates 0o755 (some ⟨1, 2⟩) [] (cstr "/a//b/c") true junk junk' ⟨bare, [], []⟩ :=
  have honly : bare.OnlyDirs [] (DirTree.components (directoryPart (cstr "/a//b/c") true)) :=
    ⟨.inl rfl, .inl rfl, trivial⟩
  ⟨honly, (dirCreateHierarchy_creates_iff 0o755 (some ⟨1, 2⟩) [] (cstr "/a//b/c") true
    ⟨bare, [], []⟩ rfl (by decide) honly).mpr (by decide)⟩

end Sample

end OpenRecovery.Minzip.DirUtil
