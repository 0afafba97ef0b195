import OpenRecovery.Crash.Trace
import OpenRecovery.Minzip.ExtractDir
import OpenRecovery.Storage.DirTree

/-!
# Making and deleting directories

`dirCreateHierarchy` makes the missing directories of a path, `dirUnlinkHierarchy` deletes whatever
is at and below a path. Both run against a directory tree, in which every system call may fail.

The path that `dirCreateHierarchy` takes apart is a buffer that is read and written through
pointers; `none` is an access outside the buffer. `dirUnlinkHierarchy` is cut off with `halt` when
it goes deeper than `depth` or a directory has more than `width` entries; this only makes it a
finite program.
-/

set_option autoImplicit false

namespace OpenRecovery.Minzip.DirUtil

open OpenRecovery.Storage
open OpenRecovery.Crash

/-! ## System calls -/

/-- A `DIR *`. -/
abbrev Dir := Nat

inductive DirOp where
  | stat (path : Bytes)
  | lstat (path : Bytes)
  | mkdir (path : Bytes) (mode : Nat)
  | utime (path : Bytes) (timestamp : Utimbuf)
  | unlink (path : Bytes)
  | rmdir (path : Bytes)
  | opendir (path : Bytes)
  | readdir (dir : Dir)
  | closedir (dir : Dir)
  deriving DecidableEq

/-- The answers; an error is the value of `errno`. For `stat` and `lstat` the answer is `S_ISDIR`.
-/
def DirOp.Res : DirOp → Type
  | .stat .. => Except Errno Bool
  | .lstat .. => Except Errno Bool
  | .mkdir .. => Except Errno Unit
  | .utime .. => Except Errno Unit
  | .unlink .. => Except Errno Unit
  | .rmdir .. => Except Errno Unit
  | .opendir .. => Except Errno Dir
  | .readdir .. => Except Errno (Option Bytes)
  | .closedir .. => Except Errno Unit

abbrev DirProg (α : Type) := Prog DirOp DirOp.Res α

def sysStat (path : Bytes) : DirProg (Except Errno Bool) := Prog.call (DirOp.stat path)
def sysLstat (path : Bytes) : DirProg (Except Errno Bool) := Prog.call (DirOp.lstat path)
def sysMkdir (path : Bytes) (mode : Nat) : DirProg (Except Errno Unit) :=
  Prog.call (DirOp.mkdir path mode)
def sysUtime (path : Bytes) (timestamp : Utimbuf) : DirProg (Except Errno Unit) :=
  Prog.call (DirOp.utime path timestamp)
def sysUnlink (path : Bytes) : DirProg (Except Errno Unit) := Prog.call (DirOp.unlink path)
def sysRmdir (path : Bytes) : DirProg (Except Errno Unit) := Prog.call (DirOp.rmdir path)
def sysOpendir (path : Bytes) : DirProg (Except Errno Dir) := Prog.call (DirOp.opendir path)
def sysReaddir (dir : Dir) : DirProg (Except Errno (Option Bytes)) := Prog.call (DirOp.readdir dir)
def sysClosedir (dir : Dir) : DirProg (Except Errno Unit) := Prog.call (DirOp.closedir dir)

/-! ## `dirCreateHierarchy` -/

/-- `DirStatus`, with the value of `errno` where it is set. -/
inductive DirStatus where
  | missing
  | dir
  | illegal (errno : Errno)
  deriving DecidableEq

def getPathDirStatus (path : Bytes) : DirProg DirStatus := do
  match ← sysStat path with
  | .ok isDir => .ret (if isDir then .dir else .illegal enotdir)
  | .error e => .ret (if e ≠ enoent then .illegal e else .missing)

/-- How `dirCreateHierarchy` ends: with 0, with -1 and a value of `errno`, or with an access outside
the buffer. -/
abbrev Outcome := Option (Except Errno Unit)

/-- The copy of the path with a slash at its end: without what is behind its last slash, or with a
slash added. The two bytes that `malloc` gives behind the path are `junk`. -/
def copyPath (path junk : Bytes) (stripFileName : Bool) : Option (Except Errno Bytes) :=
  let cpath := path ++ junk
  if stripFileName then do
    let c ← retreat (· ≠ slash) cpath 0 cpath.length (path.length - 1)
    -- the search has come to the first byte, which is not looked at
    if c = 0 then return .error enoent
    else return .ok (← store cpath (c + 1) 0)
  else do
    let cpath ← store cpath path.length slash
    return .ok (← store cpath (path.length + 1) 0)

/-- The end of the next component from `p` on, if there is one. -/
def nextLevel (cpath : Bytes) (p : Int) : Option (Option Int) := do
  let p ← advance (fun c => c ≠ 0 ∧ c = slash) cpath cpath.length p
  if (← load cpath p) = 0 then return none
  else return some (← advance (· ≠ slash) cpath cpath.length p)

/-- `mkdir` and `utime`. -/
def makeLevel (path : Bytes) (mode : Nat) (timestamp : Option Utimbuf) :
    DirProg (Except Errno Unit) := do
  match ← sysMkdir path mode with
  | .error e => .ret (.error e)
  | .ok _ =>
      match timestamp with
      | none => .ret (.ok ())
      | some ts => sysUtime path ts

/-- One level: the path up to here is checked, and made if it is missing. -/
def checkLevel (path : Bytes) (mode : Nat) (timestamp : Option Utimbuf) :
    DirProg (Except Errno Unit) := do
  match ← getPathDirStatus path with
  | .illegal e => .ret (.error e)
  | .missing => makeLevel path mode timestamp
  | .dir => .ret (.ok ())

/-- The loop over the levels, for at most `n` rounds. -/
def makeLevels (mode : Nat) (timestamp : Option Utimbuf) : Nat → Bytes → Int → DirProg Outcome
  | 0, _, _ => .ret none
  | n + 1, cpath, p =>
      match load cpath p with
      | none => .ret none
      | some c =>
          if c = 0 then .ret (some (.ok ()))
          else
            match nextLevel cpath p with
            | none => .ret none
            | some none => .ret (some (.ok ()))
            | some (some p) =>
                match store cpath p 0 with
                | none => .ret none
                | some cut =>
                    match stringAt cut 0 with
                    | none => .ret none
                    | some path => do
                        match ← checkLevel path mode timestamp with
                        | .error e => .ret (some (.error e))
                        | .ok _ =>
                            match store cut p slash with
                            | none => .ret none
                            | some cpath => makeLevels mode timestamp n cpath p

def dirCreateHierarchy (path : Bytes) (mode : Nat) (timestamp : Option Utimbuf)
    (stripFileName : Bool) (junk : Bytes) : DirProg Outcome :=
  if path = [] then .ret (some (.error enoent))
  else
    match copyPath path junk stripFileName with
    | none => .ret none
    | some (.error e) => .ret (some (.error e))
    | some (.ok cpath) =>
        match stringAt cpath 0 with
        | none => .ret none
        | some path => do
            match ← getPathDirStatus path with
            | .dir => .ret (some (.ok ()))
            | .illegal e => .ret (some (.error e))
            | .missing => makeLevels mode timestamp cpath.length cpath 0

/-! ## `dirUnlinkHierarchy` -/

def pathMax : Nat := 4096

/-- `snprintf(dn, sizeof(dn), "%s/%s", path, d_name)` into `PATH_MAX` bytes. -/
def entryPath (path name : Bytes) : Bytes := (path ++ slash :: name).take (pathMax - 1)

/-- The loop over the entries, for at most `n` of them: whether it was left with `fail`, and the
value of `errno` behind it. -/
def unlinkEntries (unlinkHierarchy : Bytes → DirProg (Except Errno Unit)) (path : Bytes)
    (dir : Dir) : Nat → DirProg (Bool × Errno)
  | 0 => .halt
  | n + 1 => do
      match ← sysReaddir dir with
      | .error e => .ret (false, e)
      | .ok none => .ret (false, 0)
      | .ok (some name) =>
          if name = dotdot ∨ name = dot then unlinkEntries unlinkHierarchy path dir n
          else do
            match ← unlinkHierarchy (entryPath path name) with
            | .error e => .ret (true, e)
            | .ok _ => unlinkEntries unlinkHierarchy path dir n

/-- A directory: its entries are deleted, and then the directory itself. -/
def unlinkDirectory (unlinkHierarchy : Bytes → DirProg (Except Errno Unit)) (width : Nat)
    (path : Bytes) : DirProg (Except Errno Unit) := do
  match ← sysOpendir path with
  | .error e => .ret (.error e)
  | .ok dir => do
      let (fail, errno) ← unlinkEntries unlinkHierarchy path dir width
      if fail = true ∨ errno < 0 then do
        let _ ← sysClosedir dir
        .ret (.error errno)
      else do
        match ← sysClosedir dir with
        | .error e => .ret (.error e)
        | .ok _ => sysRmdir path

def dirUnlinkHierarchy (width : Nat) : Nat → Bytes → DirProg (Except Errno Unit)
  | 0, _ => .halt
  | depth + 1, path => do
      match ← sysLstat path with
      | .error e => .ret (.error e)
      | .ok isDir =>
          if isDir = false then sysUnlink path
          else unlinkDirectory (dirUnlinkHierarchy width depth) width path

/-! ## The machine -/

/-- A change of the tree. -/
inductive Change where
  | mkdir (loc : Location) (mode : Nat)
  | utime (loc : Location) (timestamp : Utimbuf)
  | unlink (loc : Location)
  | rmdir (loc : Location)
  deriving DecidableEq

/-- The tree, what was changed in it, and for every directory stream its directory and the names
that were not read yet. -/
structure DirState where
  tree : DirTree
  log : List Change
  streams : List (Location × Set Bytes)

namespace DirState

variable (s : DirState) (cwd : Location)

/-- `mkdir` can make a directory with this name. -/
def CanMake (loc : Location) (name : Bytes) : Prop :=
  s.tree.node loc = some .dir ∧ ProperName name ∧ s.tree.node (name :: loc) = none

instance (loc : Location) (name : Bytes) : Decidable (s.CanMake loc name) :=
  inferInstanceAs (Decidable (_ ∧ _ ∧ _))

/-- `unlink` or `rmdir` can take away the location of the path. -/
structure CanRemove (path : Bytes) (loc : Location) (name : Bytes) : Prop where
  parent : s.tree.resolveParent cwd path = .ok (loc, some name)
  proper : ProperName name
  found : s.tree.resolve false cwd path = .ok (name :: loc)
  empty : ∀ child, s.tree.node (child :: name :: loc) = none

/-- A call that may fail, and can succeed if `P` holds. -/
def MayFail {α : Type} (P : α → Prop) : Except Errno α → Prop
  | .ok a => P a
  | .error e => 0 < e

/-- The answers that are possible. -/
def Allowed : (o : DirOp) → o.Res → Prop
  | .stat path, r => r = s.tree.stat cwd path
  | .lstat path, r => MayFail (fun isDir => s.tree.lstat cwd path = .ok isDir) r
  | .mkdir path _, r =>
      MayFail (fun _ => ∃ loc name, s.tree.resolveParent cwd path = .ok (loc, some name) ∧
        s.CanMake loc name) r
  | .utime path _, r => MayFail (fun _ => ∃ loc, s.tree.resolve true cwd path = .ok loc) r
  | .unlink path, r =>
      MayFail (fun _ => ∃ loc name, s.CanRemove cwd path loc name ∧
        s.tree.node (name :: loc) ≠ some .dir) r
  | .rmdir path, r =>
      MayFail (fun _ => ∃ loc name, s.CanRemove cwd path loc name ∧
        s.tree.node (name :: loc) = some .dir) r
  | .opendir path, r =>
      MayFail (fun dir => s.tree.stat cwd path = .ok true ∧ dir = s.streams.length) r
  | .readdir dir, r =>
      MayFail (fun entry => ∃ loc left, s.streams[dir]? = some (loc, left) ∧
        match entry with
        | none => left = ∅
        | some name => name ∈ left) r
  | .closedir _, r => MayFail (fun _ => True) r

/-- Without the name that `readdir` has read. -/
def readEntry (dir : Dir) (name : Bytes) : DirState :=
  { s with streams := s.streams.modify dir fun (loc, left) => (loc, left \ {name}) }

/-- The location that `unlink` or `rmdir` takes away. -/
def takeAway (path : Bytes) (change : Location → Change) : DirState :=
  match s.tree.resolveParent cwd path with
  | .ok (loc, some name) =>
      { s with tree := s.tree.remove (List.cons_ne_nil name loc),
               log := s.log ++ [change (name :: loc)] }
  | _ => s

/-- What a call does that has succeeded. -/
def apply : (o : DirOp) → o.Res → DirState
  | .mkdir path mode, .ok _ =>
      match s.tree.resolveParent cwd path with
      | .ok (loc, some name) =>
          if h : s.CanMake loc name then
            { s with tree := s.tree.make h.1 h.2.1, log := s.log ++ [.mkdir (name :: loc) mode] }
          else s
      | _ => s
  | .utime path timestamp, .ok _ =>
      match s.tree.resolve true cwd path with
      | .ok loc => { s with log := s.log ++ [.utime loc timestamp] }
      | .error _ => s
  | .unlink path, .ok _ => s.takeAway cwd path .unlink
  | .rmdir path, .ok _ => s.takeAway cwd path .rmdir
  | .opendir path, .ok _ =>
      match s.tree.resolve true cwd path with
      | .ok loc => { s with streams := s.streams ++ [(loc, s.tree.entries loc)] }
      | .error _ => s
  | .readdir dir, .ok (some name) => s.readEntry dir name
  | _, _ => s

end DirState

/-- The file system for a process with the working directory `cwd`. -/
def dirMachine (cwd : Location) : Machine DirState DirOp DirOp.Res where
  allowed s := s.Allowed cwd
  apply s := s.apply cwd
  damaged _ _ _ := False

/-- The answer is not an error. -/
def Succeeds (_ : DirState) : (o : DirOp) → o.Res → Prop
  | .stat _, _ => True
  | .lstat _, .ok _ => True
  | .mkdir .., .ok _ => True
  | .utime .., .ok _ => True
  | .unlink _, .ok _ => True
  | .rmdir _, .ok _ => True
  | .opendir _, .ok _ => True
  | .readdir _, .ok _ => True
  | .closedir _, .ok _ => True
  | _, _ => False

end OpenRecovery.Minzip.DirUtil
