import OpenRecovery.Storage.FileSystem
import OpenRecovery.Storage.Pointer

/-!
# Directory trees and path names

A `DirTree` says what there is at every location. A location is the list of the names on the way to
it from the root, the last name first, so the parent of `name :: loc` is `loc`. Whatever exists has
a directory as its parent, and its name is one that a path can give to it. A symbolic link is given
by the location it leads to, with all links on the way followed.

`DirTree.chdir` is one step along a path, `DirTree.resolve` looks up a whole path. `DirTree.make`
adds a directory and `DirTree.remove` takes away something with nothing below it.
-/

set_option autoImplicit false

namespace OpenRecovery.Storage

/-! ## Names and errors -/

/-- `"."`. -/
abbrev dot : Bytes := [46]

/-- `".."`. -/
abbrev dotdot : Bytes := [46, 46]

/-- Values of `errno`. -/
abbrev Errno := Int

def enoent : Errno := 2
def eexist : Errno := 17
def enotdir : Errno := 20
def eloop : Errno := 40

/-- A name that a directory entry can have. -/
structure ProperName (name : Bytes) : Prop where
  ne_nil : name ≠ []
  no_slash : slash ∉ name
  no_nul : (0 : UInt8) ∉ name
  ne_dot : name ≠ dot
  ne_dotdot : name ≠ dotdot

instance (name : Bytes) : Decidable (ProperName name) :=
  decidable_of_iff (name ≠ [] ∧ slash ∉ name ∧ (0 : UInt8) ∉ name ∧ name ≠ dot ∧ name ≠ dotdot)
    ⟨fun ⟨h₁, h₂, h₃, h₄, h₅⟩ => ⟨h₁, h₂, h₃, h₄, h₅⟩,
      fun h => ⟨h.ne_nil, h.no_slash, h.no_nul, h.ne_dot, h.ne_dotdot⟩⟩

/-- The names on the way to something, the last one first. -/
abbrev Location := List Bytes

/-- What there can be at a location. -/
inductive TreeNode where
  | dir
  | file
  | link (target : Location)
  deriving DecidableEq

/-- A directory tree. -/
structure DirTree where
  node : Location → Option TreeNode
  root : node [] = some .dir
  parent : ∀ {name : Bytes} {loc : Location}, node (name :: loc) ≠ none → node loc = some .dir
  proper : ∀ {name : Bytes} {loc : Location}, node (name :: loc) ≠ none → ProperName name

namespace DirTree

variable (t : DirTree)

/-! ## Looking up a path -/

/-- The location that a name stands for in a directory. -/
def next (loc : Location) (name : Bytes) : Location :=
  if name = dot then loc else if name = dotdot then loc.tail else name :: loc

/-- The same with a link followed. -/
def enter (loc : Location) (name : Bytes) : Location :=
  match t.node (next loc name) with
  | some (.link target) => target
  | _ => next loc name

/-- What there is, as the last component of a path. A link that is left here leads to a link. -/
def existing (follow : Bool) (loc : Location) : Except Errno Location :=
  match t.node loc with
  | none => .error enoent
  | some (.link _) => if follow then .error eloop else .ok loc
  | some _ => .ok loc

/-- One component that is not the last one. -/
def chdir (loc : Location) (name : Bytes) : Except Errno Location :=
  match t.node (t.enter loc name) with
  | none => .error enoent
  | some .dir => .ok (t.enter loc name)
  | some .file => .error enotdir
  | some (.link _) => .error eloop

/-- The components of a path. -/
def components (path : Bytes) : List Bytes := strtok slash path

/-- Where a path begins. -/
def start (cwd : Location) (path : Bytes) : Location := if path.head? = some slash then [] else cwd

/-- The directory of the last component of a path, and this component; no component for a path of
slashes. -/
def resolveParent (cwd : Location) (path : Bytes) : Except Errno (Location × Option Bytes) :=
  if path = [] ∨ t.node (start cwd path) ≠ some .dir then .error enoent
  else do
    let loc ← (components path).dropLast.foldlM t.chdir (start cwd path)
    return (loc, (components path).getLast?)

/-- The last component of a path. -/
def lookup (follow : Bool) (loc : Location) (name : Bytes) : Except Errno Location :=
  if follow then t.existing true (t.enter loc name) else t.existing false (next loc name)

/-- A slash is behind the path. -/
def slashEnd (path : Bytes) : Bool := path.getLast? = some slash

/-- The location of a path. A link at its end is followed if `follow` is set or a slash is behind
it. -/
def resolve (follow : Bool) (cwd : Location) (path : Bytes) : Except Errno Location :=
  match t.resolveParent cwd path with
  | .error e => .error e
  | .ok (loc, none) => .ok loc
  | .ok (loc, some name) =>
      match t.lookup (follow || slashEnd path) loc name with
      | .error e => .error e
      | .ok found =>
          if slashEnd path = true ∧ t.node found ≠ some .dir then .error enotdir else .ok found

/-- `stat` and `S_ISDIR`. -/
def stat (cwd : Location) (path : Bytes) : Except Errno Bool := do
  let loc ← t.resolve true cwd path
  return t.node loc = some .dir

/-- `lstat` and `S_ISDIR`. -/
def lstat (cwd : Location) (path : Bytes) : Except Errno Bool := do
  let loc ← t.resolve false cwd path
  return t.node loc = some .dir

/-- The names in a directory, with those of the directory itself and its parent. -/
def entries (loc : Location) : Set Bytes :=
  {name | name = dot ∨ name = dotdot ∨ t.node (name :: loc) ≠ none}

/-! ## Changes -/

section Changes

variable {t} {name : Bytes} {loc : Location}

/-- A new directory. -/
def make (hdir : t.node loc = some .dir) (hname : ProperName name) : DirTree where
  node := Function.update t.node (name :: loc) (some .dir)
  root := by rw [Function.update_of_ne (List.cons_ne_nil _ _).symm, t.root]
  parent := by
    intro name' loc' h
    by_cases hloc : loc' = name :: loc
    · -- nothing is below the new directory yet, but it could be
      rw [hloc, Function.update_self]
    · rw [Function.update_of_ne hloc]
      by_cases hself : name' :: loc' = name :: loc
      · rw [(List.cons.inj hself).2, hdir]
      · rw [Function.update_of_ne hself] at h
        exact t.parent h
  proper := by
    intro name' loc' h
    by_cases hself : name' :: loc' = name :: loc
    · exact (List.cons.inj hself).1 ▸ hname
    · rw [Function.update_of_ne hself] at h
      exact t.proper h

/-- Without something that is not the root, and without what is below it. -/
def remove (t : DirTree) (hloc : loc ≠ []) : DirTree where
  node l := if loc <:+ l then none else t.node l
  root := by rw [if_neg fun h => hloc (List.suffix_nil.mp h), t.root]
  parent := by
    intro name' loc' h
    by_cases hbelow : loc <:+ name' :: loc'
    · rw [if_pos hbelow] at h
      exact absurd rfl h
    · rw [if_neg hbelow] at h
      rw [if_neg fun hup => hbelow (hup.trans (List.suffix_cons _ _)), t.parent h]
  proper := by
    intro name' loc' h
    by_cases hbelow : loc <:+ name' :: loc'
    · rw [if_pos hbelow] at h
      exact absurd rfl h
    · rw [if_neg hbelow] at h
      exact t.proper h

@[simp] theorem make_node (hdir : t.node loc = some .dir) (hname : ProperName name) :
    (make hdir hname).node = Function.update t.node (name :: loc) (some .dir) := rfl

@[simp] theorem remove_node (hloc : loc ≠ []) (l : Location) :
    (t.remove hloc).node l = if loc <:+ l then none else t.node l := rfl

end Changes

/-! ## Facts about a tree -/

section Facts

variable {t} {loc : Location} {name : Bytes}

/-- What is above something that exists, exists. -/
theorem exists_of_suffix {above : Location} (h : t.node loc ≠ none) (hup : above <:+ loc) :
    t.node above ≠ none := by
  induction loc with
  | nil => rwa [List.suffix_nil.mp hup]
  | cons name loc ih =>
      rcases List.suffix_cons_iff.mp hup with rfl | hup
      · exact h
      · apply ih _ hup
        rw [t.parent h]
        exact Option.some_ne_none _

theorem node_tail (h : t.node loc = some .dir) : t.node loc.tail = some .dir := by
  cases loc with
  | nil => exact h
  | cons name loc => exact t.parent (h ▸ Option.some_ne_none _)

/-- Only a proper name can be missing in a directory. -/
theorem next_of_missing (h : t.node loc = some .dir) (hnone : t.node (next loc name) = none) :
    name ≠ dot ∧ name ≠ dotdot ∧ next loc name = name :: loc := by
  have hdot : name ≠ dot := by
    rintro rfl
    rw [next, if_pos rfl, h] at hnone
    cases hnone
  have hdotdot : name ≠ dotdot := by
    rintro rfl
    rw [next, if_neg hdot, if_pos rfl, node_tail h] at hnone
    cases hnone
  exact ⟨hdot, hdotdot, by rw [next, if_neg hdot, if_neg hdotdot]⟩

theorem enter_of_missing (hnone : t.node (next loc name) = none) :
    t.enter loc name = next loc name := by rw [enter, hnone]

theorem chdir_eq_ok {found : Location} :
    t.chdir loc name = .ok found ↔ t.node found = some .dir ∧ t.enter loc name = found := by
  rw [chdir]
  constructor
  · intro h
    split at h
    · cases h
    · next hnode =>
        cases h
        exact ⟨hnode, rfl⟩
    · cases h
    · cases h
  · rintro ⟨hnode, rfl⟩
    rw [hnode]

theorem chdir_eq_enoent : t.chdir loc name = .error enoent ↔ t.node (t.enter loc name) = none := by
  rw [chdir]
  split <;> simp_all [enoent, enotdir, eloop]

/-- A walk is its first step, into a directory, and the rest of it from there. -/
theorem foldlM_cons_eq_ok {names : List Bytes} {found : Location} :
    (name :: names).foldlM t.chdir loc = .ok found ↔
      t.node (t.enter loc name) = some .dir ∧ names.foldlM t.chdir (t.enter loc name) = .ok found := by
  rw [List.foldlM_cons]
  constructor
  · intro h
    cases hstep : t.chdir loc name with
    | error e =>
        rw [hstep] at h
        cases h
    | ok l =>
        obtain ⟨hdir, rfl⟩ := chdir_eq_ok.mp hstep
        rw [hstep] at h
        exact ⟨hdir, h⟩
  · rintro ⟨hdir, hrest⟩
    rw [chdir_eq_ok.mpr ⟨hdir, rfl⟩]
    exact hrest

/-- A walk ends in a directory. -/
theorem node_of_foldlM {names : List Bytes} {found : Location} (hdir : t.node loc = some .dir)
    (h : names.foldlM t.chdir loc = .ok found) : t.node found = some .dir := by
  induction names generalizing loc with
  | nil =>
      cases h
      exact hdir
  | cons name names ih =>
      obtain ⟨hfirst, hrest⟩ := foldlM_cons_eq_ok.mp h
      exact ih hfirst hrest

/-- The last component of a walk. -/
theorem foldlM_concat (names : List Bytes) (last : Bytes) :
    (names ++ [last]).foldlM t.chdir loc =
      (do let l ← names.foldlM t.chdir loc; t.chdir l last) := by
  rw [List.foldlM_append]
  congr 1
  funext l
  rw [List.foldlM_cons]
  cases t.chdir l last <;> rfl

end Facts

/-! ## What `stat` says about a walk -/

section Stat

variable {t} {cwd : Location} {path : Bytes}

theorem resolveParent_concat {names : List Bytes} {last : Bytes} (hpath : path ≠ [])
    (hstart : t.node (start cwd path) = some .dir) (hnames : components path = names ++ [last])
    {loc : Location} (hwalk : names.foldlM t.chdir (start cwd path) = .ok loc) :
    t.resolveParent cwd path = .ok (loc, some last) := by
  rw [resolveParent, if_neg (not_or.mpr ⟨hpath, not_not.mpr hstart⟩), hnames, List.dropLast_concat,
    hwalk, List.getLast?_concat]
  rfl

/-- A path that a walk goes along leads to a directory. -/
theorem resolve_of_walk {loc : Location} (hpath : path ≠ [])
    (hstart : t.node (start cwd path) = some .dir)
    (hwalk : (components path).foldlM t.chdir (start cwd path) = .ok loc) :
    t.resolve true cwd path = .ok loc := by
  have hloc := node_of_foldlM hstart hwalk
  rcases List.eq_nil_or_concat (components path) with hnil | ⟨names, last, hnames⟩
  · -- only slashes: the path is where it starts
    rw [hnil] at hwalk
    cases hwalk
    rw [resolve, resolveParent, if_neg (not_or.mpr ⟨hpath, not_not.mpr hstart⟩), hnil]
    rfl
  · rw [List.concat_eq_append] at hnames
    rw [hnames, foldlM_concat] at hwalk
    cases hfirst : names.foldlM t.chdir (start cwd path) with
    | error e =>
        rw [hfirst] at hwalk
        cases hwalk
    | ok parent =>
        rw [hfirst] at hwalk
        obtain ⟨-, hlast⟩ := chdir_eq_ok.mp hwalk
        -- a link in the last component is followed like any other
        have hlookup : t.lookup true parent last = .ok loc := by
          rw [lookup, if_pos rfl, hlast, existing, hloc]
        rw [resolve, resolveParent_concat hpath hstart hnames hfirst]
        simp only [Bool.true_or, hlookup]
        rw [if_neg fun h => h.2 hloc]

theorem stat_of_walk {loc : Location} (hpath : path ≠ [])
    (hstart : t.node (start cwd path) = some .dir)
    (hwalk : (components path).foldlM t.chdir (start cwd path) = .ok loc) :
    t.stat cwd path = .ok true := by
  rw [stat, resolve_of_walk hpath hstart hwalk]
  change Except.ok (decide (t.node loc = some .dir)) = _
  rw [decide_eq_true (node_of_foldlM hstart hwalk)]

/-- A path on which something is missing does not exist. -/
theorem stat_of_missing (hpath : path ≠ []) (hstart : t.node (start cwd path) = some .dir)
    (hwalk : (components path).foldlM t.chdir (start cwd path) = .error enoent) :
    t.stat cwd path = .error enoent := by
  rcases List.eq_nil_or_concat (components path) with hnil | ⟨names, last, hnames⟩
  · rw [hnil] at hwalk
    cases hwalk
  · rw [List.concat_eq_append] at hnames
    rw [hnames, foldlM_concat] at hwalk
    cases hfirst : names.foldlM t.chdir (start cwd path) with
    | error e =>
        -- missing on the way to the last component
        rw [hfirst] at hwalk
        cases hwalk
        rw [stat, resolve, resolveParent, if_neg (not_or.mpr ⟨hpath, not_not.mpr hstart⟩), hnames,
          List.dropLast_concat, hfirst]
        rfl
    | ok parent =>
        -- the last component is missing itself, or the target of the link it is
        rw [hfirst] at hwalk
        have hlast := chdir_eq_enoent.mp hwalk
        have hlookup : t.lookup true parent last = .error enoent := by
          rw [lookup, if_pos rfl, existing, hlast]
        rw [stat, resolve, resolveParent_concat hpath hstart hnames hfirst]
        simp only [Bool.true_or, hlookup]
        rfl

end Stat

/-! ## What a path that exists leads to -/

section Found

variable {t} {cwd : Location} {path : Bytes} {follow : Bool} {loc : Location}

/-- The steps of looking up a path that exists. -/
theorem resolve_cases (h : t.resolve follow cwd path = .ok loc) :
    path ≠ [] ∧ t.node (start cwd path) = some .dir ∧
      ∃ parent, (components path).dropLast.foldlM t.chdir (start cwd path) = .ok parent ∧
        ((components path = [] ∧ loc = parent) ∨
          ∃ last, (components path).getLast? = some last ∧
            t.lookup (follow || slashEnd path) parent last = .ok loc) := by
  by_cases hpath : path = [] ∨ t.node (start cwd path) ≠ some .dir
  · rw [resolve, resolveParent, if_pos hpath] at h
    cases h
  obtain ⟨hne, hstart⟩ := not_or.mp hpath
  refine ⟨hne, not_not.mp hstart, ?_⟩
  -- first the way to the last component
  cases hwalk : (components path).dropLast.foldlM t.chdir (start cwd path) with
  | error e =>
      rw [resolve, resolveParent, if_neg hpath, hwalk] at h
      cases h
  | ok parent =>
      have hparent : t.resolveParent cwd path = .ok (parent, (components path).getLast?) := by
        rw [resolveParent, if_neg hpath, hwalk]
        rfl
      refine ⟨parent, rfl, ?_⟩
      -- then the component, if the path has any
      cases hlast : (components path).getLast? with
      | none =>
          rw [resolve, hparent, hlast] at h
          cases h
          exact .inl ⟨List.getLast?_eq_none_iff.mp hlast, rfl⟩
      | some last =>
          right
          refine ⟨last, rfl, ?_⟩
          rw [resolve, hparent, hlast] at h
          simp only at h
          cases hlookup : t.lookup (follow || slashEnd path) parent last with
          | error e =>
              rw [hlookup] at h
              cases h
          | ok found =>
              simp only [hlookup] at h
              split at h
              · cases h
              · exact h

theorem existing_eq_ok {follow : Bool} {l : Location} (h : t.existing follow l = .ok loc) :
    l = loc ∧ t.node loc ≠ none := by
  rw [existing] at h
  split at h
  · cases h
  · next hnode =>
      cases follow
      · cases h
        exact ⟨rfl, hnode ▸ Option.some_ne_none _⟩
      · cases h
  · next hnode =>
      cases h
      exact ⟨rfl, hnode ▸ Option.some_ne_none _⟩

theorem lookup_eq_ok {last : Bytes} {parent : Location}
    (h : t.lookup follow parent last = .ok loc) :
    t.node loc ≠ none ∧ loc = if follow then t.enter parent last else next parent last := by
  cases follow <;> obtain ⟨rfl, hnode⟩ := existing_eq_ok h <;> exact ⟨hnode, rfl⟩

theorem lstat_eq_ok {isDir : Bool} (h : t.lstat cwd path = .ok isDir) :
    ∃ loc, t.resolve false cwd path = .ok loc ∧ isDir = decide (t.node loc = some .dir) := by
  rw [lstat] at h
  cases hloc : t.resolve false cwd path with
  | error e =>
      rw [hloc] at h
      cases h
  | ok loc =>
      rw [hloc] at h
      cases h
      exact ⟨loc, rfl, rfl⟩

/-- The walk along a path that leads to a directory. -/
theorem walk_of_resolve (h : t.resolve follow cwd path = .ok loc) (hdir : t.node loc = some .dir) :
    (components path).foldlM t.chdir (start cwd path) = .ok loc := by
  obtain ⟨-, -, parent, hwalk, ⟨hnil, rfl⟩ | ⟨last, hlast, hlookup⟩⟩ := resolve_cases h
  · rw [hnil] at hwalk ⊢
    exact hwalk
  · have hnames : (components path).dropLast ++ [last] = components path :=
      List.dropLast_append_getLast? last hlast
    rw [← hnames, foldlM_concat, hwalk]
    change t.chdir parent last = .ok loc
    obtain ⟨-, hloc⟩ := lookup_eq_ok hlookup
    refine chdir_eq_ok.mpr ⟨hdir, ?_⟩
    split at hloc
    · exact hloc.symm
    · -- a directory is not a link, so nothing had to be followed
      rw [enter, ← hloc, hdir]

/-- The path of something in a directory. -/
theorem resolve_child {name : Bytes} (hname : ProperName name) (hpath : path ≠ [])
    (h : t.resolve false cwd (path ++ slash :: name) = .ok loc) :
    ∃ parent, (components path).foldlM t.chdir (start cwd path) = .ok parent ∧
      loc = name :: parent := by
  have hcomponents : components (path ++ slash :: name) = components path ++ [name] := by
    rw [components, strtok_append_delim, strtok_token hname.ne_nil hname.no_slash]
    rfl
  have hstart : start cwd (path ++ slash :: name) = start cwd path := by
    rw [start, start, List.head?_append_of_ne_nil _ hpath]
  have hend : slashEnd (path ++ slash :: name) = false := by
    rw [slashEnd, decide_eq_false]
    rw [List.getLast?_append_of_ne_nil _ (List.cons_ne_nil _ _), List.getLast?_cons_of_ne_nil
      hname.ne_nil]
    intro hlast
    exact hname.no_slash (List.mem_of_getLast? hlast)
  obtain ⟨-, -, parent, hwalk, ⟨hnil, -⟩ | ⟨last, hlast, hlookup⟩⟩ := resolve_cases h
  · rw [hcomponents] at hnil
    exact absurd hnil (List.concat_ne_nil _ _)
  · rw [hcomponents, List.dropLast_concat, hstart] at hwalk
    rw [hcomponents, List.getLast?_concat] at hlast
    cases hlast
    rw [hend] at hlookup
    obtain ⟨-, hloc⟩ := lookup_eq_ok hlookup
    refine ⟨parent, hwalk, hloc.trans ?_⟩
    change next parent name = name :: parent
    rw [next, if_neg hname.ne_dot, if_neg hname.ne_dotdot]

end Found

/-! ## Fewer files and directories -/

/-- The second tree is the first one without some of its nodes. -/
def Shrinks (t t' : DirTree) : Prop := ∀ l, t'.node l = t.node l ∨ t'.node l = none

section Shrinks

variable {t} {t' : DirTree}

theorem Shrinks.node (h : Shrinks t t') {l : Location} (hnode : t'.node l ≠ none) :
    t.node l = t'.node l := by
  rcases h l with hsame | hnone
  · exact hsame.symm
  · exact absurd hnone hnode

/-- What can be reached has been where it is. -/
theorem Shrinks.chdir (h : Shrinks t t') {loc found : Location} {name : Bytes}
    (hstep : t'.chdir loc name = .ok found) : t.chdir loc name = .ok found := by
  obtain ⟨hdir, henter⟩ := chdir_eq_ok.mp hstep
  have hdir' : t.node found = some .dir := by rw [h.node (hdir ▸ Option.some_ne_none _), hdir]
  refine chdir_eq_ok.mpr ⟨hdir', ?_⟩
  rw [← henter, enter, enter]
  rcases h (next loc name) with hsame | hnone
  · rw [hsame]
  · -- a name that does not exist leads nowhere
    rw [enter, hnone] at henter
    rw [← henter, hnone] at hdir
    cases hdir

theorem Shrinks.foldlM (h : Shrinks t t') {loc found : Location} {names : List Bytes}
    (hwalk : names.foldlM t'.chdir loc = .ok found) : names.foldlM t.chdir loc = .ok found := by
  induction names generalizing loc with
  | nil => exact hwalk
  | cons name names ih =>
      obtain ⟨hdir, hrest⟩ := foldlM_cons_eq_ok.mp hwalk
      -- the first step has led to the same directory before
      obtain ⟨hdir', henter⟩ := chdir_eq_ok.mp (h.chdir (chdir_eq_ok.mpr ⟨hdir, rfl⟩))
      rw [← henter] at hdir' hrest
      exact foldlM_cons_eq_ok.mpr ⟨hdir', ih hrest⟩

end Shrinks

/-! ## New directories -/

/-- The locations that a walk comes to. -/
def locations : Location → List Bytes → List Location
  | _, [] => []
  | loc, name :: names => t.enter loc name :: locations (t.enter loc name) names

/-- Whatever exists on a walk is a directory, or a link to one. -/
def OnlyDirs : Location → List Bytes → Prop
  | _, [] => True
  | loc, name :: names =>
      (t.node (next loc name) = none ∨ t.node (t.enter loc name) = some .dir) ∧
        OnlyDirs (t.enter loc name) names

/-- The second tree is the first one with more directories. -/
def Grows (t t' : DirTree) : Prop :=
  ∀ l, t'.node l = t.node l ∨ (t.node l = none ∧ t'.node l = some .dir)

section Grows

variable {t} {t' : DirTree}

theorem Grows.enter (h : Grows t t') (loc : Location) (name : Bytes) :
    t'.enter loc name = t.enter loc name := by
  rw [DirTree.enter, DirTree.enter]
  rcases h (next loc name) with hsame | ⟨hnone, hdir⟩
  · rw [hsame]
  · -- no link is new, so there is none to follow
    rw [hnone, hdir]

theorem Grows.locations (h : Grows t t') (loc : Location) (names : List Bytes) :
    t'.locations loc names = t.locations loc names := by
  induction names generalizing loc with
  | nil => rfl
  | cons name names ih => rw [DirTree.locations, DirTree.locations, h.enter, ih]

theorem Grows.dir (h : Grows t t') {l : Location} (hdir : t.node l = some .dir) :
    t'.node l = some .dir := by
  rcases h l with hsame | ⟨-, hdir'⟩
  · rw [hsame, hdir]
  · exact hdir'

theorem Grows.onlyDirs (h : Grows t t') {loc : Location} {names : List Bytes}
    (honly : t.OnlyDirs loc names) : t'.OnlyDirs loc names := by
  induction names generalizing loc with
  | nil => trivial
  | cons name names ih =>
      obtain ⟨hfirst, hrest⟩ := honly
      refine ⟨?_, h.enter loc name ▸ ih hrest⟩
      rw [h.enter]
      rcases hfirst with hnone | hdir
      · rcases h (next loc name) with hsame | ⟨-, hdir⟩
        · exact .inl (hsame.trans hnone)
        · exact .inr (enter_of_missing hnone ▸ hdir)
      · exact .inr (h.dir hdir)

theorem Grows.foldlM (h : Grows t t') {loc found : Location} {names : List Bytes}
    (hwalk : names.foldlM t.chdir loc = .ok found) : names.foldlM t'.chdir loc = .ok found := by
  induction names generalizing loc with
  | nil => exact hwalk
  | cons name names ih =>
      obtain ⟨hdir, hrest⟩ := foldlM_cons_eq_ok.mp hwalk
      apply foldlM_cons_eq_ok.mpr
      rw [h.enter]
      exact ⟨h.dir hdir, ih hrest⟩

end Grows

/-- A walk on which only directories exist leads to one, or something is missing on it. -/
theorem OnlyDirs.walk {t : DirTree} {loc : Location} {names : List Bytes}
    (h : t.OnlyDirs loc names) :
    (∃ found, names.foldlM t.chdir loc = .ok found ∧
        ∀ l ∈ t.locations loc names, t.node l = some .dir) ∨
      names.foldlM t.chdir loc = .error enoent := by
  induction names generalizing loc with
  | nil => exact .inl ⟨loc, rfl, by simp [locations]⟩
  | cons name names ih =>
      obtain ⟨hfirst, hrest⟩ := h
      rw [List.foldlM_cons]
      rcases hfirst with hnone | hdir
      · -- the walk stops at what is missing
        right
        rw [chdir_eq_enoent.mpr (by rw [enter_of_missing hnone, hnone])]
        rfl
      · rw [chdir_eq_ok.mpr ⟨hdir, rfl⟩]
        rcases ih hrest with ⟨found, hwalk, hall⟩ | hmissing
        · exact .inl ⟨found, hwalk, List.forall_mem_cons.mpr ⟨hdir, hall⟩⟩
        · exact .inr hmissing

theorem OnlyDirs.location {t : DirTree} {loc : Location} {names : List Bytes}
    (h : t.OnlyDirs loc names) :
    ∀ l ∈ t.locations loc names, t.node l = none ∨ t.node l = some .dir := by
  induction names generalizing loc with
  | nil => simp [locations]
  | cons name names ih =>
      obtain ⟨hfirst, hrest⟩ := h
      refine List.forall_mem_cons.mpr ⟨?_, ih hrest⟩
      rcases hfirst with hnone | hdir
      · exact .inl (enter_of_missing hnone ▸ hnone)
      · exact .inr hdir

/-- A walk along directories arrives. -/
theorem walk_of_dirs {t : DirTree} {loc : Location} {names : List Bytes}
    (h : ∀ l ∈ t.locations loc names, t.node l = some .dir) :
    ∃ found, names.foldlM t.chdir loc = .ok found := by
  induction names generalizing loc with
  | nil => exact ⟨loc, rfl⟩
  | cons name names ih =>
      obtain ⟨hfirst, hrest⟩ := List.forall_mem_cons.mp h
      obtain ⟨found, hwalk⟩ := ih hrest
      exact ⟨found, foldlM_cons_eq_ok.mpr ⟨hfirst, hwalk⟩⟩

/-- The second tree is the first one with the directories `made`, which are the locations of the
walk that were missing. They can be made in this order: each one comes before those below it. -/
structure Created (t t' : DirTree) (loc : Location) (names : List Bytes) (made : List Location) :
    Prop where
  nodup : made.Nodup
  mem : ∀ l, l ∈ made ↔ l ∈ t.locations loc names ∧ t.node l = none
  topDown : made.Pairwise fun a b => ¬ b <:+ a
  node : ∀ l, t'.node l = if l ∈ made then some .dir else t.node l

section Created

variable {t} {t' t'' : DirTree} {loc : Location} {name : Bytes} {names : List Bytes}
  {made made' : List Location}

theorem Created.grows (h : Created t t' loc names made) : Grows t t' := by
  intro l
  by_cases hl : l ∈ made
  · exact .inr ⟨((h.mem l).mp hl).2, by rw [h.node, if_pos hl]⟩
  · exact .inl (by rw [h.node, if_neg hl])

/-- Afterwards the walk leads along directories. -/
theorem Created.dirs (h : Created t t' loc names made) (honly : t.OnlyDirs loc names) :
    ∀ l ∈ t.locations loc names, t'.node l = some .dir := by
  intro l hl
  rw [h.node]
  rcases honly.location l hl with hnone | hdir
  · rw [if_pos ((h.mem l).mpr ⟨hl, hnone⟩)]
  · rw [hdir, ite_self]

/-- Nothing is missing. -/
theorem created_nil (h : ∀ l ∈ t.locations loc names, t.node l = some .dir) :
    Created t t loc names [] where
  nodup := List.nodup_nil
  mem l := by
    refine ⟨nofun, fun ⟨hl, hnone⟩ => ?_⟩
    rw [h l hl] at hnone
    cases hnone
  topDown := .nil
  node _ := by simp

/-- One missing directory. -/
theorem created_make (hdir : t.node loc = some .dir) (hname : ProperName name)
    (hnone : t.node (name :: loc) = none) (henter : t.enter loc name = name :: loc) :
    Created t (make hdir hname) loc [name] [name :: loc] where
  nodup := List.nodup_singleton _
  mem l := by
    simp only [locations, henter, List.mem_singleton]
    exact ⟨fun h => ⟨h, h ▸ hnone⟩, fun h => h.1⟩
  topDown := List.pairwise_singleton _ _
  node l := by
    rw [make_node, Function.update_apply]
    simp only [List.mem_singleton]

/-- The first component and then the others. -/
theorem Created.cons (h : Created t t' loc [name] made)
    (h' : Created t' t'' (t.enter loc name) names made') :
    Created t t'' loc (name :: names) (made ++ made') := by
  have hnode : ∀ l, t'.node l = none ↔ l ∉ made ∧ t.node l = none := by
    intro l
    rw [h.node]
    split <;> simp_all
  have hmem : ∀ l, l ∈ made ↔ l = t.enter loc name ∧ t.node l = none := by
    intro l
    rw [h.mem, locations, locations, List.mem_singleton]
  have hmem' : ∀ l, l ∈ made' ↔ l ∈ t.locations (t.enter loc name) names ∧ l ∉ made ∧
      t.node l = none := by
    intro l
    rw [h'.mem, h.grows.locations, hnode]
  constructor
  · -- what the first step has made is no longer missing for the others
    refine List.nodup_append'.mpr ⟨h.nodup, h'.nodup, ?_⟩
    intro l hl hl'
    exact ((hmem' l).mp hl').2.1 hl
  · intro l
    rw [List.mem_append, hmem', hmem, locations, List.mem_cons]
    tauto
  · refine List.pairwise_append.mpr ⟨h.topDown, h'.topDown, ?_⟩
    intro a ha b hb hup
    -- `a` exists by now, and with it all that is above it
    have hexists : t'.node a ≠ none := by
      rw [h.node, if_pos ha]
      exact Option.some_ne_none _
    exact exists_of_suffix hexists hup ((h'.mem b).mp hb).2
  · intro l
    rw [h'.node, h.node]
    by_cases hl : l ∈ made <;> by_cases hl' : l ∈ made' <;> simp [hl, hl']

end Created

end DirTree

end OpenRecovery.Storage
