import Mathlib.Data.Set.Card
import OpenRecovery.Minzip.DirUtil

/-!
# What `dirUnlinkHierarchy` deletes

A call changes nothing outside the subtree of its path, whatever the system calls answer
(`Within`). The path of an entry is the path of the directory with one more component, so as long as
it is not truncated it leads to the entry or to nothing, also after other entries have been deleted.
`rmdir` deletes an empty directory only; so if it succeeds, nothing is left.
-/

set_option autoImplicit false

namespace OpenRecovery.Minzip.DirUtil

open OpenRecovery.Storage
open OpenRecovery.Crash

/-- Where a change is made. -/
def Change.location : Change → Location
  | .mkdir loc _ => loc
  | .utime loc _ => loc
  | .unlink loc => loc
  | .rmdir loc => loc

/-- Whatever is at and below the location that a path leads to, without following a link there. -/
def DirState.subtree (s : DirState) (cwd : Location) (path : Bytes) : Set Location :=
  {l | ∃ loc, s.tree.resolve false cwd path = .ok loc ∧ loc <:+ l}

/-- From `s` to `s'` only nodes in `S` were deleted and only directories in `S` were opened. -/
structure Within (S : Set Location) (s s' : DirState) : Prop where
  node : ∀ l, s'.tree.node l = s.tree.node l ∨ (l ∈ S ∧ s'.tree.node l = none)
  log : ∃ changes, s'.log = s.log ++ changes ∧ ∀ c ∈ changes, c.location ∈ S
  streams : ∃ opened, s'.streams = s.streams ++ opened ∧ ∀ o ∈ opened, o.1 ∈ S

section Within

variable {S S' : Set Location} {s s' s'' : DirState}

theorem Within.refl (S : Set Location) (s : DirState) : Within S s s where
  node _ := .inl rfl
  log := ⟨[], (List.append_nil _).symm, nofun⟩
  streams := ⟨[], (List.append_nil _).symm, nofun⟩

theorem Within.trans (h : Within S s s') (h' : Within S s' s'') : Within S s s'' where
  node l := by
    rcases h'.node l with hsame | hgone
    · rw [hsame]
      exact h.node l
    · exact .inr hgone
  log := by
    obtain ⟨cs, hcs, hin⟩ := h.log
    obtain ⟨cs', hcs', hin'⟩ := h'.log
    refine ⟨cs ++ cs', by rw [hcs', hcs, List.append_assoc], ?_⟩
    intro c hc
    rcases List.mem_append.mp hc with hc | hc
    · exact hin c hc
    · exact hin' c hc
  streams := by
    obtain ⟨os, hos, hin⟩ := h.streams
    obtain ⟨os', hos', hin'⟩ := h'.streams
    refine ⟨os ++ os', by rw [hos', hos, List.append_assoc], ?_⟩
    intro o ho
    rcases List.mem_append.mp ho with ho | ho
    · exact hin o ho
    · exact hin' o ho

theorem Within.mono (hS : S ⊆ S') (h : Within S s s') : Within S' s s' where
  node l := (h.node l).imp_right fun hgone => ⟨hS hgone.1, hgone.2⟩
  log := h.log.imp fun _ hcs => ⟨hcs.1, fun c hc => hS (hcs.2 c hc)⟩
  streams := h.streams.imp fun _ hos => ⟨hos.1, fun o ho => hS (hos.2 o ho)⟩

theorem Within.shrinks (h : Within S s s') : s.tree.Shrinks s'.tree :=
  fun l => (h.node l).imp_right And.right

/-- The streams that were open before are as they were. -/
theorem Within.stream (h : Within S s s') {i : Nat} {x : Location × Set Bytes}
    (hx : s.streams[i]? = some x) : s'.streams[i]? = some x := by
  obtain ⟨opened, hopened, -⟩ := h.streams
  obtain ⟨hi, -⟩ := List.getElem?_eq_some_iff.mp hx
  rw [hopened, List.getElem?_append_left hi, hx]

theorem modify_append_length {α : Type} (a : List α) (x : α) (b : List α) (f : α → α) :
    (a ++ x :: b).modify a.length f = a ++ f x :: b := by
  induction a with
  | nil => rfl
  | cons y a ih => exact congrArg (y :: ·) ih

/-- Reading from the stream that was opened first. -/
theorem Within.readEntry (h : Within S s s') {loc : Location} {left : Set Bytes}
    (hstream : s'.streams[s.streams.length]? = some (loc, left)) (name : Bytes) :
    Within S s (s'.readEntry s.streams.length name) ∧
      (s'.readEntry s.streams.length name).streams[s.streams.length]? =
        some (loc, left \ {name}) := by
  obtain ⟨opened, hopened, hin⟩ := h.streams
  rw [hopened, List.getElem?_append_right (Nat.le_refl _), Nat.sub_self] at hstream
  obtain ⟨rest, rfl⟩ : ∃ rest, opened = (loc, left) :: rest := by
    cases opened with
    | nil => cases hstream
    | cons o rest =>
        cases hstream
        exact ⟨rest, rfl⟩
  have hread : (s'.readEntry s.streams.length name).streams =
      s.streams ++ (loc, left \ {name}) :: rest := by
    rw [DirState.readEntry, hopened, modify_append_length]
  refine ⟨⟨h.node, h.log, _, hread, ?_⟩, ?_⟩
  · rw [List.forall_mem_cons] at hin ⊢
    exact hin
  · rw [hread, List.getElem?_append_right (Nat.le_refl _), Nat.sub_self]
    rfl

/-- `unlink` and `rmdir` take away one location. -/
theorem within_takeAway {cwd : Location} {path : Bytes} {loc : Location} {name : Bytes}
    (h : s.CanRemove cwd path loc name) {change : Location → Change}
    (hchange : ∀ l, (change l).location = l) (hS : ∀ l, name :: loc <:+ l → l ∈ S) :
    Within S s (s.takeAway cwd path change) ∧
      ∀ l, name :: loc <:+ l → (s.takeAway cwd path change).tree.node l = none := by
  have htaken : s.takeAway cwd path change =
      { s with tree := s.tree.remove (List.cons_ne_nil name loc),
               log := s.log ++ [change (name :: loc)] } := by
    simp only [DirState.takeAway, h.parent]
  rw [htaken]
  refine ⟨⟨?_, ⟨_, rfl, ?_⟩, [], (List.append_nil _).symm, nofun⟩, ?_⟩
  · intro l
    simp only [DirTree.remove_node]
    by_cases hl : name :: loc <:+ l
    · exact .inr ⟨hS l hl, if_pos hl⟩
    · exact .inl (if_neg hl)
  · intro c hc
    rw [List.mem_singleton.mp hc, hchange]
    exact hS _ List.suffix_rfl
  · intro l hl
    exact if_pos hl

end Within

/-! ## Bounds -/

/-- The length of the path of something below a directory. -/
def pathLength (path : Bytes) (rel : Location) : Nat :=
  path.length + (rel.map fun name => name.length + 1).sum

/-- The subtree at `loc` is less than `depth` deep, its directories have less than `width` entries,
and the paths in it are shorter than `PATH_MAX`. -/
structure Bounded (t : DirTree) (width depth : Nat) (path : Bytes) (loc : Location) : Prop where
  depth : ∀ rel, t.node (rel ++ loc) ≠ none → rel.length < depth
  width : ∀ rel, (t.entries (rel ++ loc)).Finite ∧ (t.entries (rel ++ loc)).ncard < width
  length : ∀ rel, t.node (rel ++ loc) ≠ none → pathLength path rel < pathMax

section Bounded

variable {t t' : DirTree} {width depth : Nat} {path name : Bytes} {loc : Location}

theorem append_cons_location (rel : Location) : rel ++ name :: loc = rel ++ [name] ++ loc := by simp

theorem Bounded.child (h : Bounded t width (depth + 1) path loc) :
    Bounded t width depth (path ++ slash :: name) (name :: loc) where
  depth rel hrel := by
    rw [append_cons_location] at hrel
    have hdepth := h.depth _ hrel
    rw [List.length_append, List.length_singleton] at hdepth
    omega
  width rel := by
    rw [append_cons_location]
    exact h.width _
  length rel hrel := by
    rw [append_cons_location] at hrel
    have hlength := h.length _ hrel
    simp only [pathLength, List.map_append, List.sum_append, List.map_cons, List.map_nil,
      List.sum_cons, List.sum_nil, List.length_append, List.length_cons] at hlength ⊢
    omega

theorem Bounded.shrink (h : Bounded t width depth path loc) (hsub : t.Shrinks t') :
    Bounded t' width depth path loc where
  depth rel hrel := h.depth rel (hsub.node hrel ▸ hrel)
  width rel := by
    have hentries : t'.entries (rel ++ loc) ⊆ t.entries (rel ++ loc) := by
      rintro name (hdot | hdotdot | hname)
      · exact .inl hdot
      · exact .inr (.inl hdotdot)
      · exact .inr (.inr (hsub.node hname ▸ hname))
    obtain ⟨hfin, hcard⟩ := h.width rel
    exact ⟨hfin.subset hentries, (Set.ncard_le_ncard hentries hfin).trans_lt hcard⟩
  length rel hrel := h.length rel (hsub.node hrel ▸ hrel)

/-- The path of an entry is not truncated. -/
theorem Bounded.entryPath (h : Bounded t width depth path loc)
    (hname : t.node (name :: loc) ≠ none) : entryPath path name = path ++ slash :: name := by
  have hlength := h.length [name] hname
  simp only [pathLength, List.map_cons, List.map_nil, List.sum_cons, List.sum_nil] at hlength
  rw [DirUtil.entryPath, List.take_of_length_le]
  rw [List.length_append, List.length_cons]
  omega

end Bounded

/-! ## The loop over the entries -/

section Entries

variable {cwd : Location} {s₀ : DirState} {path : Bytes} {loc : Location} {S : Set Location}

/-- The stream of the loop gives the entries of the directory; what happens is what happens to the
entries. -/
theorem unlinkEntries_spec {unlinkHierarchy : Bytes → DirProg (Except Errno Unit)}
    (hrec : ∀ name s, ProperName name → s₀.tree.node (name :: loc) ≠ none → Within S s₀ s →
      Returns (dirMachine cwd) (fun _ s' => Within S s s')
        (unlinkHierarchy (entryPath path name)) s)
    {n : Nat} {s : DirState} {left : Set Bytes} (hwithin : Within S s₀ s)
    (hstream : s.streams[s₀.streams.length]? = some (loc, left))
    (hleft : left ⊆ s₀.tree.entries loc) (hfin : left.Finite) (hn : left.ncard < n) :
    Returns (dirMachine cwd) (fun _ s' => Within S s₀ s')
      (unlinkEntries unlinkHierarchy path s₀.streams.length n) s := by
  induction n generalizing s left with
  | zero => exact absurd hn (Nat.not_lt_zero _)
  | succ n ih =>
      -- `readdir` may fail, it may be at the end, or it reads a name that was not read before
      refine ⟨⟨.error 1, one_pos⟩, ?_⟩
      rintro (e | _ | name) hr
      · exact hwithin
      · exact hwithin
      · obtain ⟨loc', left', hstream', hname⟩ := hr
        cases hstream.symm.trans hstream'
        obtain ⟨hwithin', hread⟩ := hwithin.readEntry hstream name
        have hleft' : left \ {name} ⊆ s₀.tree.entries loc := Set.sdiff_subset.trans hleft
        have hfin' : (left \ {name}).Finite := hfin.subset Set.sdiff_subset
        have hn' : (left \ {name}).ncard < n :=
          (Set.ncard_sdiff_singleton_lt_of_mem hname hfin).trans_le (Nat.le_of_lt_succ hn)
        change Returns _ _ (if name = dotdot ∨ name = dot then _ else _) _
        by_cases hdots : name = dotdot ∨ name = dot
        · rw [if_pos hdots]
          exact ih hwithin' hread hleft' hfin' hn'
        · rw [if_neg hdots]
          obtain ⟨hdotdot, hdot⟩ := not_or.mp hdots
          have hexists : s₀.tree.node (name :: loc) ≠ none := by
            rcases hleft hname with h | h | h
            · exact absurd h hdot
            · exact absurd h hdotdot
            · exact h
          apply returns_bind
          refine returns_mono ?_ (hrec name _ (s₀.tree.proper hexists) hexists hwithin')
          rintro (e | -) s' hentry
          · exact hwithin'.trans hentry
          · exact ih (hwithin'.trans hentry) (hentry.stream hread) hleft' hfin' hn'

end Entries

/-! ## The whole function -/

section Whole

variable {cwd : Location} {width : Nat}

/-- What a call may have done: nothing outside the subtree of its path; and nothing is left of the
subtree if it has returned 0. -/
def Unlinks (cwd : Location) (path : Bytes) (s : DirState) (r : Except Errno Unit)
    (s' : DirState) : Prop :=
  Within (s.subtree cwd path) s s' ∧ (r = .ok () → ∀ l ∈ s.subtree cwd path, s'.tree.node l = none)

theorem unlinks_error {path : Bytes} {s s' : DirState} {e : Errno}
    (h : Within (s.subtree cwd path) s s') : Unlinks cwd path s (.error e) s' := ⟨h, nofun⟩

/-- The last step, at the location of the path itself. -/
theorem unlinks_takeAway {path : Bytes} {s₀ s : DirState} {loc parent : Location} {name : Bytes}
    (hloc : s₀.tree.resolve false cwd path = .ok loc) (hwithin : Within (s₀.subtree cwd path) s₀ s)
    (hremove : s.CanRemove cwd path parent name) (hsame : name :: parent = loc)
    {change : Location → Change} (hchange : ∀ l, (change l).location = l) :
    Unlinks cwd path s₀ (.ok ()) (s.takeAway cwd path change) := by
  obtain ⟨htake, hgone⟩ := within_takeAway (S := s₀.subtree cwd path) hremove hchange
    fun l hl => ⟨loc, hloc, hsame ▸ hl⟩
  refine ⟨hwithin.trans htake, fun _ l hl => ?_⟩
  obtain ⟨loc', hloc', hbelow⟩ := hl
  cases hloc.symm.trans hloc'
  exact hgone l (hsame ▸ hbelow)

/-- A directory, whose entries are deleted by `unlinkHierarchy`. -/
theorem unlinkDirectory_spec {unlinkHierarchy : Bytes → DirProg (Except Errno Unit)}
    {depth : Nat} {path : Bytes} {s : DirState} {loc : Location}
    (hloc : s.tree.resolve false cwd path = .ok loc) (hdir : s.tree.node loc = some .dir)
    (hbounded : Bounded s.tree width depth path loc)
    (hrec : ∀ name s', ProperName name → s.tree.node (name :: loc) ≠ none →
      Within (s.subtree cwd path) s s' →
        Returns (dirMachine cwd) (fun _ s'' => Within (s.subtree cwd path) s' s'')
          (unlinkHierarchy (entryPath path name)) s') :
    Returns (dirMachine cwd) (Unlinks cwd path s) (unlinkDirectory unlinkHierarchy width path) s := by
  have hwalk := DirTree.walk_of_resolve hloc hdir
  obtain ⟨hpath, hstart, -⟩ := DirTree.resolve_cases hloc
  have hstat : s.tree.resolve true cwd path = .ok loc := DirTree.resolve_of_walk hpath hstart hwalk
  refine ⟨⟨.error 1, one_pos⟩, ?_⟩
  rintro (e | dir) hopen
  · exact unlinks_error (.refl _ s)
  obtain ⟨-, rfl⟩ := hopen
  let s₁ : DirState := { s with streams := s.streams ++ [(loc, s.tree.entries loc)] }
  have happly : (dirMachine cwd).apply s (.opendir path) (.ok s.streams.length) = s₁ := by
    simp only [dirMachine, DirState.apply, hstat]
    rfl
  have hopened : Within (s.subtree cwd path) s s₁ := by
    refine ⟨fun _ => .inl rfl, ⟨[], (List.append_nil _).symm, nofun⟩, _, rfl, ?_⟩
    intro o ho
    rw [List.mem_singleton.mp ho]
    exact ⟨loc, hloc, List.suffix_rfl⟩
  have hstream : s₁.streams[s.streams.length]? = some (loc, s.tree.entries loc) := by
    rw [List.getElem?_append_right (Nat.le_refl _), Nat.sub_self]
    rfl
  obtain ⟨hfin, hcard⟩ := hbounded.width []
  have hentries := unlinkEntries_spec hrec hopened hstream subset_rfl hfin hcard
  rw [happly]
  refine returns_bind (p := unlinkEntries unlinkHierarchy path s.streams.length width)
    (returns_mono ?_ hentries)
  rintro ⟨fail, errno⟩ s₂ hs₂
  change Returns _ _ (if fail = true ∨ errno < 0 then _ else _) _
  by_cases hfail : fail = true ∨ errno < 0
  · rw [if_pos hfail]
    refine ⟨⟨.error 1, one_pos⟩, ?_⟩
    rintro (e | _) -
    · exact unlinks_error hs₂
    · exact unlinks_error hs₂
  · rw [if_neg hfail]
    refine ⟨⟨.error 1, one_pos⟩, ?_⟩
    rintro (e | _) -
    · exact unlinks_error hs₂
    refine ⟨⟨.error 1, one_pos⟩, ?_⟩
    rintro (e | _) hr
    · exact unlinks_error hs₂
    -- the path still leads to the directory, if anywhere
    obtain ⟨parent, name, hremove, hnode⟩ := hr
    have hwalk' := hs₂.shrinks.foldlM (DirTree.walk_of_resolve hremove.found hnode)
    exact unlinks_takeAway hloc hs₂ hremove
      (Except.ok.inj (hwalk'.symm.trans hwalk)) fun _ => rfl

/-- Whatever the system calls answer, a call ends and has only deleted what is at and below its
path, all of it if it returns 0. -/
theorem unlinkHierarchy_spec {depth : Nat} {path : Bytes} {s : DirState} (hdepth : 0 < depth)
    (hbound : ∀ loc, s.tree.resolve false cwd path = .ok loc →
      Bounded s.tree width depth path loc) :
    Returns (dirMachine cwd) (Unlinks cwd path s) (dirUnlinkHierarchy width depth path) s := by
  induction depth generalizing path s with
  | zero => exact absurd hdepth (Nat.lt_irrefl 0)
  | succ depth ih =>
      refine ⟨⟨.error 1, one_pos⟩, ?_⟩
      rintro (e | isDir) hlstat
      · exact unlinks_error (.refl _ s)
      obtain ⟨loc, hloc, hisDir⟩ := DirTree.lstat_eq_ok hlstat
      cases isDir with
      | false =>
          -- a file or a link
          refine ⟨⟨.error 1, one_pos⟩, ?_⟩
          rintro (e | _) hr
          · exact unlinks_error (.refl _ s)
          obtain ⟨parent, name, hremove, -⟩ := hr
          exact unlinks_takeAway hloc (.refl _ s) hremove
            (Except.ok.inj (hremove.found.symm.trans hloc)) fun _ => rfl
      | true =>
          have hdir : s.tree.node loc = some .dir := of_decide_eq_true hisDir.symm
          have hwalk := DirTree.walk_of_resolve hloc hdir
          obtain ⟨hpath, -⟩ := DirTree.resolve_cases hloc
          have hbounded := hbound loc hloc
          refine unlinkDirectory_spec hloc hdir hbounded fun name s' hname hexists hs' => ?_
          rw [hbounded.entryPath hexists]
          -- the path of the entry leads to the entry, if anywhere
          have hchild : ∀ l, s'.tree.resolve false cwd (path ++ slash :: name) = .ok l →
              l = name :: loc := by
            intro l hl
            obtain ⟨parent, hparent, rfl⟩ := DirTree.resolve_child hname hpath hl
            rw [Except.ok.inj ((hs'.shrinks.foldlM hparent).symm.trans hwalk)]
          have hpos : 0 < depth := by
            have h := hbounded.depth [name] hexists
            rw [List.length_singleton] at h
            omega
          refine returns_mono ?_ (ih hpos fun l hl => ?_)
          · rintro r s'' ⟨hwithin, -⟩
            refine hwithin.mono ?_
            rintro l ⟨l', hl', hbelow⟩
            rw [hchild l' hl'] at hbelow
            exact ⟨loc, hloc, (List.suffix_cons name loc).trans hbelow⟩
          · rw [hchild l hl]
            exact hbounded.child.shrink hs'.shrinks

end Whole

/-! ## Runs without an error -/

section Success

variable {cwd : Location} {width : Nat}

theorem unlinkEntries_succeeds {unlinkHierarchy : Bytes → DirProg (Except Errno Unit)}
    (hrec : ∀ path s, wp ((dirMachine cwd).restrict Succeeds) (fun r _ => r = .ok ())
      (fun _ => True) (unlinkHierarchy path) s) (path : Bytes) (dir : Dir) (n : Nat)
    (s : DirState) :
    wp ((dirMachine cwd).restrict Succeeds) (fun r _ => r = (false, 0)) (fun _ => True)
      (unlinkEntries unlinkHierarchy path dir n) s := by
  induction n generalizing s with
  | zero => trivial
  | succ n ih =>
      refine ⟨trivial, fun _ h => absurd h id, ?_⟩
      rintro (e | _ | name) ⟨-, hok⟩
      · exact absurd hok id
      · exact rfl
      · change wp _ _ _ (if name = dotdot ∨ name = dot then _ else _) _
        by_cases hdots : name = dotdot ∨ name = dot
        · rw [if_pos hdots]
          exact ih _
        · rw [if_neg hdots]
          refine wp_seq (hrec (entryPath path name) _) ?_
          rintro _ s' rfl
          exact ih s'

/-- If no system call fails, the result is 0. -/
theorem unlinkHierarchy_succeeds (depth : Nat) (path : Bytes) (s : DirState) :
    wp ((dirMachine cwd).restrict Succeeds) (fun r _ => r = .ok ()) (fun _ => True)
      (dirUnlinkHierarchy width depth path) s := by
  induction depth generalizing path s with
  | zero => trivial
  | succ depth ih =>
      refine ⟨trivial, fun _ h => absurd h id, ?_⟩
      rintro (e | isDir) ⟨-, hok⟩
      · exact absurd hok id
      cases isDir with
      | false =>
          refine ⟨trivial, fun _ h => absurd h id, ?_⟩
          rintro (e | _) ⟨-, hok⟩
          · exact absurd hok id
          · exact rfl
      | true =>
          refine ⟨trivial, fun _ h => absurd h id, ?_⟩
          rintro (e | dir) ⟨-, hok⟩
          · exact absurd hok id
          refine wp_seq (p := unlinkEntries (dirUnlinkHierarchy width depth) path dir width)
            (unlinkEntries_succeeds ih path dir width _) ?_
          rintro _ s' rfl
          refine ⟨trivial, fun _ h => absurd h id, ?_⟩
          rintro (e | _) ⟨-, hok⟩
          · exact absurd hok id
          refine ⟨trivial, fun _ h => absurd h id, ?_⟩
          rintro (e | _) ⟨-, hok⟩
          · exact absurd hok id
          · exact rfl

end Success

/-! ## Finite trees -/

/-- A finite subtree has a depth, and its directories have a width. -/
theorem exists_bounded {t : DirTree} {path : Bytes} {loc : Location}
    (hfin : {l | loc <:+ l ∧ t.node l ≠ none}.Finite)
    (hlength : ∀ rel, t.node (rel ++ loc) ≠ none → pathLength path rel < pathMax) :
    ∃ bound, ∀ width depth, bound ≤ width → bound ≤ depth → Bounded t width depth path loc := by
  obtain ⟨longest, hlongest⟩ := (hfin.image List.length).bddAbove
  -- all names in the subtree
  let names : Set Bytes := {dot, dotdot} ∪ (fun l : Location => l.head?.getD []) ''
    {l | loc <:+ l ∧ t.node l ≠ none}
  have hnames : names.Finite := ((Set.finite_singleton dotdot).insert dot).union (hfin.image _)
  refine ⟨max (longest + 1) (names.ncard + 1), fun width depth hwidth hdepth => ⟨?_, ?_, hlength⟩⟩
  · intro rel hrel
    have hlen : (rel ++ loc).length ≤ longest :=
      hlongest ⟨rel ++ loc, ⟨List.suffix_append rel loc, hrel⟩, rfl⟩
    rw [List.length_append] at hlen
    omega
  · intro rel
    have hsub : t.entries (rel ++ loc) ⊆ names := by
      rintro name (rfl | rfl | hname)
      · exact .inl (.inl rfl)
      · exact .inl (.inr rfl)
      · exact .inr ⟨name :: (rel ++ loc),
          ⟨(List.suffix_append rel loc).trans (List.suffix_cons _ _), hname⟩, rfl⟩
    have hcard := Set.ncard_le_ncard hsub hnames
    exact ⟨hnames.subset hsub, by omega⟩

namespace Sample

/-- The directory `/d` with a link to the root in it. -/
def withLink : DirTree where
  node loc :=
    if loc = [] ∨ loc = [cstr "d"] then some .dir
    else if loc = [cstr "l", cstr "d"] then some (.link [])
    else none
  root := if_pos (.inl rfl)
  parent := by
    intro name loc h
    have hloc : loc = [] ∨ loc = [cstr "d"] := by
      by_contra hne
      obtain ⟨hroot, hd⟩ := not_or.mp hne
      simp [hroot, hd] at h
    rw [if_pos hloc]
  proper := by
    intro name loc h
    have hname : name = cstr "d" ∨ name = cstr "l" := by
      by_contra hne
      obtain ⟨hd, hl⟩ := not_or.mp hne
      simp [hd, hl] at h
    rcases hname with rfl | rfl <;> decide

end Sample

end OpenRecovery.Minzip.DirUtil
