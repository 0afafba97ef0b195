import OpenRecovery.Crash.Program
import OpenRecovery.Storage.Bytes

/-!
# The file system as a crash machine

The state holds the regular files by name, the raw partitions by device name, and the set of files
some process holds open. Names are resolved: two names are two files. The operations are the system
calls of the modelled code. Reading, `rename` and `unlink` are reliable and atomic; `open`, `write`,
`chmod`, `chown`, `statfs` and `opendir` answer as the world likes. A crash during `open` or `write`
leaves the file being written in any condition, a crash while a partition is written leaves any
contents of the same length there, and nothing else is damaged. A partition is written where its
device is there: that `fopen` would make a regular file of the name of a device that is missing is
left out.

`FsProg` is the type of programs over these operations and `fsMachine` the machine they run on.
`SameExcept N s t` is the frame condition used throughout: only files whose names meet `N` differ.
-/

set_option autoImplicit false

namespace OpenRecovery.Storage

open OpenRecovery.Crash

/-- The part of `struct stat` that is read: permission bits, owner and group. -/
structure Stat where
  mode : Nat
  uid : Nat
  gid : Nat
  deriving DecidableEq

/-- A regular file. -/
structure Node where
  data : Bytes
  st : Stat
  deriving DecidableEq

/-- `FileContents`. `data` is `none` for a null or freed pointer. -/
structure FileContents where
  sha1 : Bytes
  data : Option Bytes
  size : Int
  st : Stat
  deriving DecidableEq

/-- Regular files, partitions and the names held open by some process. -/
structure Fs where
  files : Name → Option Node
  parts : Name → Option Bytes
  opened : Name → Bool

/-- Outcome of writing a partition: everything was written and closed, a call failed and left some
contents behind, or the device could not be opened. -/
inductive PartWrite where
  | done
  | failed (left : Bytes)
  | noDevice

/-- System calls. `load` is `stat`, `fopen` and `fread` of a whole file, `loadPart` opens and reads
a device, `writePart` is `fopen`, `fwrite` and `fclose` of a device, `statReg` asks whether a name
is a regular file, `openFiles` lists the links under `/proc/<pid>/fd`, and `uninit` reads a local
`FileContents` that was never assigned. -/
inductive Op where
  | load (n : Name)
  | loadPart (dev : Name)
  | openTrunc (n : Name)
  | write (n : Name) (data : Bytes)
  | chmod (n : Name) (mode : Nat)
  | chown (n : Name) (uid gid : Nat)
  | rename (a b : Name)
  | unlink (n : Name)
  | statfs (path : Name)
  | opendir (d : Name)
  | statReg (n : Name)
  | openFiles
  | writePart (dev : Name) (data : Bytes)
  | uninit

/-- Answer of each system call. `statfs` gives block size and free blocks. -/
def Op.Res : Op → Type
  | .load _ => Option Node
  | .loadPart _ => Option Bytes
  | .openTrunc _ => Bool
  | .write _ _ => Int
  | .chmod _ _ => Bool
  | .chown _ _ _ => Bool
  | .rename _ _ => Bool
  | .unlink _ => Bool
  | .statfs _ => Option (Nat × Nat)
  | .opendir _ => Option (List Name)
  | .statReg _ => Bool
  | .openFiles => Option (List Name)
  | .writePart _ _ => PartWrite
  | .uninit => FileContents

/-- Programs over the file system. -/
abbrev FsProg := Prog Op Op.Res

/-- The file `n` replaced. -/
def Fs.set (s : Fs) (n : Name) (v : Option Node) : Fs :=
  { s with files := Function.update s.files n v }

/-- The partition `dev` replaced. -/
def Fs.setPart (s : Fs) (dev : Name) (v : Option Bytes) : Fs :=
  { s with parts := Function.update s.parts dev v }

/-- The file `n` changed if it exists. -/
def Fs.modify (s : Fs) (n : Name) (f : Node → Node) : Fs := s.set n ((s.files n).map f)

/-- Metadata of a file created with `S_IRUSR | S_IWUSR`. -/
def newStat : Stat := ⟨0o600, 0, 0⟩

/-- The path separator. -/
def slash : UInt8 := 47

/-- Path of entry `e` of directory `d`. -/
def joinPath (d e : Name) : Name := d ++ cstr "/" ++ e

/-- The answers a system call can give. -/
def Fs.Allowed (s : Fs) : (o : Op) → o.Res → Prop
  | .load n, r => r = s.files n
  | .loadPart dev, r => r = s.parts dev
  | .openTrunc _, _ => True
  | .write _ d, r => Int.le r d.length
  | .chmod n _, r => r = true → (s.files n).isSome = true
  | .chown n _ _, r => r = true → (s.files n).isSome = true
  | .rename a _, r => r = true → (s.files a).isSome = true
  | .unlink n, r => r = (s.files n).isSome
  | .statfs _, _ => True
  | .opendir d, r => ∀ l, r = some l → l.Nodup ∧
      (∀ e ∈ l, slash ∉ e) ∧
      ∀ e, slash ∉ e → (s.files (joinPath d e)).isSome = true → e ∈ l
  | .statReg n, r => r = (s.files n).isSome
  | .openFiles, r => ∀ l, r = some l → ∀ n, n ∈ l ↔ s.opened n = true
  | .writePart dev d, r =>
      match r with
      | .done => ((s.parts dev).any fun old => d.length ≤ old.length) = true
      | .failed left => ((s.parts dev).any fun old => left.length = old.length) = true
      | .noDevice => True
  | .uninit, _ => True

/-- Effect of an answered system call. -/
def Fs.apply (s : Fs) : (o : Op) → o.Res → Fs
  | .openTrunc n, true => s.set n (some ⟨[], (s.files n).elim newStat Node.st⟩)
  | .write n d, r => s.modify n fun f => { f with data := f.data ++ d.take (Int.toNat r) }
  | .chmod n mode, true => s.modify n fun f => { f with st := { f.st with mode := mode } }
  | .chown n uid gid, true =>
      s.modify n fun f => { f with st := { f.st with uid := uid, gid := gid } }
  | .rename a b, true => if a = b then s else (s.set b (s.files a)).set a none
  | .unlink n, _ => s.set n none
  | .writePart dev d, .done =>
      s.setPart dev ((s.parts dev).map fun old => d ++ old.drop d.length)
  | .writePart dev _, .failed left => s.setPart dev (some left)
  | _, _ => s

/-- States a crash inside a system call leaves behind, besides the state before it. -/
def Fs.Damaged (s : Fs) : Op → Fs → Prop
  | .openTrunc n, t => ∃ v, t = s.set n v
  | .write n _, t => ∃ v, t = s.set n v
  | .writePart dev _, t => ∃ old new, s.parts dev = some old ∧ new.length = old.length ∧
      t = s.setPart dev (some new)
  | _, _ => False

/-- The file system as a machine. -/
def fsMachine : Machine Fs Op Op.Res := ⟨Fs.Allowed, Fs.apply, Fs.Damaged⟩

/-! ## System calls -/

/-- `stat`, `fopen` and `fread` of a whole file. -/
def sysLoad (n : Name) : FsProg (Option Node) := Prog.call (Op.load n)

/-- `fopen` and `fread` of a device. -/
def sysLoadPart (dev : Name) : FsProg (Option Bytes) := Prog.call (Op.loadPart dev)

/-- `open` with `O_WRONLY | O_CREAT | O_TRUNC | O_SYNC`; `false` for a negative descriptor. -/
def sysOpenTrunc (n : Name) : FsProg Bool := Prog.call (Op.openTrunc n)

/-- `write` to the file opened under the name `n`. -/
def sysWrite (n : Name) (data : Bytes) : FsProg Int := Prog.call (Op.write n data)

/-- `chmod`; `false` on failure. -/
def sysChmod (n : Name) (mode : Nat) : FsProg Bool := Prog.call (Op.chmod n mode)

/-- `chown`; `false` on failure. -/
def sysChown (n : Name) (uid gid : Nat) : FsProg Bool := Prog.call (Op.chown n uid gid)

/-- `rename`; `false` on failure. -/
def sysRename (a b : Name) : FsProg Bool := Prog.call (Op.rename a b)

/-- `unlink`; `false` on failure. -/
def sysUnlink (n : Name) : FsProg Bool := Prog.call (Op.unlink n)

/-- `statfs`: block size and free blocks. -/
def sysStatfs (path : Name) : FsProg (Option (Nat × Nat)) := Prog.call (Op.statfs path)

/-- `opendir` and `readdir` to the end. -/
def sysOpendir (d : Name) : FsProg (Option (List Name)) := Prog.call (Op.opendir d)

/-- `stat` and `S_ISREG`. -/
def sysStatReg (n : Name) : FsProg Bool := Prog.call (Op.statReg n)

/-- The targets of all links `/proc/<pid>/fd/<n>`. -/
def sysOpenFiles : FsProg (Option (List Name)) := Prog.call Op.openFiles

/-- `fopen`, `fwrite` and `fclose` of a device. -/
def sysWritePart (dev : Name) (data : Bytes) : FsProg PartWrite := Prog.call (Op.writePart dev data)

/-- A local `FileContents` before anything is assigned to it. -/
def sysUninit : FsProg FileContents := Prog.call Op.uninit

section Update

variable (s : Fs) (n : Name) (v : Option Node)

@[simp] theorem set_files_self : (s.set n v).files n = v := Function.update_self ..

@[simp] theorem set_files_of_ne {k : Name} (h : k ≠ n) : (s.set n v).files k = s.files k :=
  Function.update_of_ne h ..

@[simp] theorem set_parts : (s.set n v).parts = s.parts := rfl

@[simp] theorem set_opened : (s.set n v).opened = s.opened := rfl

@[simp] theorem modify_files_self (f : Node → Node) :
    (s.modify n f).files n = (s.files n).map f := Function.update_self ..

@[simp] theorem modify_parts (f : Node → Node) : (s.modify n f).parts = s.parts := rfl

@[simp] theorem setPart_files (dev : Name) (w : Option Bytes) : (s.setPart dev w).files = s.files :=
  rfl

@[simp] theorem setPart_parts_self (dev : Name) (w : Option Bytes) :
    (s.setPart dev w).parts dev = w := Function.update_self ..

end Update

/-! ## Frame conditions and contents -/

/-- Only the files whose names meet `N` differ. -/
def SameExcept (N : Name → Prop) (s t : Fs) : Prop :=
  (∀ n, ¬ N n → t.files n = s.files n) ∧ t.parts = s.parts ∧ t.opened = s.opened

/-- Nothing has changed. -/
theorem SameExcept.refl (N : Name → Prop) (s : Fs) : SameExcept N s s :=
  ⟨fun _ _ => rfl, rfl, rfl⟩

/-- What neither step touches is as before both. -/
theorem SameExcept.trans {N : Name → Prop} {s t u : Fs} (h : SameExcept N s t)
    (h' : SameExcept N t u) : SameExcept N s u :=
  ⟨fun n hn => (h'.1 n hn).trans (h.1 n hn), h'.2.1.trans h.2.1, h'.2.2.trans h.2.2⟩

/-- More names may be left out. -/
theorem SameExcept.mono {N M : Name → Prop} {s t : Fs} (hNM : ∀ n, N n → M n)
    (h : SameExcept N s t) : SameExcept M s t :=
  ⟨fun n hn => h.1 n fun hN => hn (hNM n hN), h.2⟩

/-- Setting a file changes no other. -/
theorem sameExcept_set {N : Name → Prop} {n : Name} (s : Fs) (v : Option Node) (h : N n) :
    SameExcept N s (s.set n v) :=
  ⟨fun _ hk => set_files_of_ne s n v fun hkn => hk (hkn ▸ h), rfl, rfl⟩

/-- Modifying a file changes no other. -/
theorem sameExcept_modify {N : Name → Prop} {n : Name} (s : Fs) (f : Node → Node) (h : N n) :
    SameExcept N s (s.modify n f) := sameExcept_set s _ h

/-- The file `n` exists and has contents `x`. -/
def Fs.Holds (s : Fs) (n : Name) (x : Bytes) : Prop := ∃ f, s.files n = some f ∧ f.data = x

/-- The contents depend on the node only. -/
theorem Fs.Holds.of_files_eq {s t : Fs} {n : Name} {x : Bytes} (h : s.Holds n x)
    (he : t.files n = s.files n) : t.Holds n x := by
  obtain ⟨f, hf, hx⟩ := h
  exact ⟨f, he.trans hf, hx⟩

/-- Contents survive what happens to other files. -/
theorem Fs.Holds.frame {N : Name → Prop} {s t : Fs} {n : Name} {x : Bytes} (h : s.Holds n x)
    (hf : SameExcept N s t) (hn : ¬ N n) : t.Holds n x := h.of_files_eq (hf.1 n hn)

/-! ## One rule for each system call -/

/-- Bytes appended to the file `n`, if it exists. -/
def Fs.append (s : Fs) (n : Name) (d : Bytes) : Fs :=
  s.modify n fun f => { f with data := f.data ++ d }

theorem append_nil (s : Fs) (n : Name) : s.append n [] = s := by
  simp only [Fs.append, Fs.modify, Fs.set, List.append_nil, Option.map_id']
  rw [Function.update_eq_self]

/-- Two appends are one. -/
theorem append_append (s : Fs) (n : Name) (d e : Bytes) :
    (s.append n d).append n e = s.append n (d ++ e) := by
  simp only [Fs.append, Fs.modify, Fs.set, Function.update_self, Function.update_idem,
    Option.map_map]
  congr 3
  funext f
  simp

/-- Appending to a file that was just written. -/
theorem append_set (s : Fs) (n : Name) (f : Node) (d : Bytes) :
    (s.set n (some f)).append n d = s.set n (some { f with data := f.data ++ d }) := by
  simp [Fs.append, Fs.modify, Fs.set]

/-- Appending to a file changes no other. -/
theorem sameExcept_append {N : Name → Prop} {n : Name} (s : Fs) (d : Bytes) (h : N n) :
    SameExcept N s (s.append n d) := sameExcept_modify s _ h

section Rules

variable {C : Fs → Prop} {s : Fs}

/-- Rule for a system call that a crash cannot damage. -/
theorem wp_atomic (o : Op) (Q : o.Res → Fs → Prop) (h : ∀ t, ¬ s.Damaged o t) :
    wp fsMachine Q C (Prog.call o) s ↔ C s ∧ ∀ r, s.Allowed o r → Q r (s.apply o r) := by
  constructor
  · rintro ⟨hC, -, hQ⟩
    exact ⟨hC, hQ⟩
  · rintro ⟨hC, hQ⟩
    exact ⟨hC, fun t ht => absurd ht (h t), hQ⟩

/-- A call that may always fail and can succeed under a condition `P`. -/
theorem forall_bool_guarded {P : Prop} {Q : Bool → Prop} :
    (∀ r, (r = true → P) → Q r) ↔ Q false ∧ (P → Q true) := by
  constructor
  · intro h
    exact ⟨h false nofun, fun hP => h true fun _ => hP⟩
  · rintro ⟨hf, ht⟩ r hr
    cases r with
    | false => exact hf
    | true => exact ht (hr rfl)

/-- A load sees the node and changes nothing. -/
theorem wp_sysLoad (n : Name) (Q : Option Node → Fs → Prop) :
    wp fsMachine Q C (sysLoad n) s ↔ C s ∧ Q (s.files n) s :=
  (wp_atomic (.load n) Q fun _ h => h).trans (and_congr_right fun _ => forall_eq)

/-- A load of a partition changes nothing. -/
theorem wp_sysLoadPart (dev : Name) (Q : Option Bytes → Fs → Prop) :
    wp fsMachine Q C (sysLoadPart dev) s ↔ C s ∧ Q (s.parts dev) s :=
  (wp_atomic (.loadPart dev) Q fun _ h => h).trans (and_congr_right fun _ => forall_eq)

theorem wp_sysStatReg (n : Name) (Q : Bool → Fs → Prop) :
    wp fsMachine Q C (sysStatReg n) s ↔ C s ∧ Q (s.files n).isSome s :=
  (wp_atomic (.statReg n) Q fun _ h => h).trans (and_congr_right fun _ => forall_eq)

/-- `unlink` removes the file, and says whether it was there. -/
theorem wp_sysUnlink (n : Name) (Q : Bool → Fs → Prop) :
    wp fsMachine Q C (sysUnlink n) s ↔ C s ∧ Q (s.files n).isSome (s.set n none) :=
  (wp_atomic (.unlink n) Q fun _ h => h).trans (and_congr_right fun _ => forall_eq)

/-- Uninitialised memory may hold anything. -/
theorem wp_sysUninit (Q : FileContents → Fs → Prop) :
    wp fsMachine Q C sysUninit s ↔ C s ∧ ∀ f, Q f s :=
  (wp_atomic .uninit Q fun _ h => h).trans
    (and_congr_right fun _ => forall_congr' fun _ => true_imp_iff)

/-- `statfs` may report anything. -/
theorem wp_sysStatfs (path : Name) (Q : Option (Nat × Nat) → Fs → Prop) :
    wp fsMachine Q C (sysStatfs path) s ↔ C s ∧ ∀ r, Q r s :=
  (wp_atomic (.statfs path) Q fun _ h => h).trans
    (and_congr_right fun _ => forall_congr' fun _ => true_imp_iff)

theorem wp_sysOpendir (d : Name) (Q : Option (List Name) → Fs → Prop) :
    wp fsMachine Q C (sysOpendir d) s ↔ C s ∧ ∀ r, s.Allowed (.opendir d) r → Q r s :=
  wp_atomic (.opendir d) Q fun _ h => h

theorem wp_sysOpenFiles (Q : Option (List Name) → Fs → Prop) :
    wp fsMachine Q C sysOpenFiles s ↔ C s ∧ ∀ r, s.Allowed .openFiles r → Q r s :=
  wp_atomic .openFiles Q fun _ h => h

/-- `chmod` may fail, and changes only a file that exists. -/
theorem wp_sysChmod (n : Name) (mode : Nat) (Q : Bool → Fs → Prop) :
    wp fsMachine Q C (sysChmod n mode) s ↔
      C s ∧ Q false s ∧ ((s.files n).isSome = true →
        Q true (s.modify n fun f => { f with st := { f.st with mode := mode } })) :=
  (wp_atomic (.chmod n mode) Q fun _ h => h).trans
    (and_congr_right fun _ => forall_bool_guarded)

theorem wp_sysChown (n : Name) (uid gid : Nat) (Q : Bool → Fs → Prop) :
    wp fsMachine Q C (sysChown n uid gid) s ↔
      C s ∧ Q false s ∧ ((s.files n).isSome = true →
        Q true (s.modify n fun f => { f with st := { f.st with uid := uid, gid := gid } })) :=
  (wp_atomic (.chown n uid gid) Q fun _ h => h).trans
    (and_congr_right fun _ => forall_bool_guarded)

/-- `rename` may fail. A rename to the same name does nothing. -/
theorem wp_sysRename (a b : Name) (Q : Bool → Fs → Prop) :
    wp fsMachine Q C (sysRename a b) s ↔
      C s ∧ Q false s ∧ ((s.files a).isSome = true →
        Q true (if a = b then s else (s.set b (s.files a)).set a none)) :=
  (wp_atomic (.rename a b) Q fun _ h => h).trans
    (and_congr_right fun _ => forall_bool_guarded)

/-- `open` with `O_TRUNC` may fail. A crash inside it can leave the file with any contents. -/
theorem wp_sysOpenTrunc (n : Name) (Q : Bool → Fs → Prop) :
    wp fsMachine Q C (sysOpenTrunc n) s ↔
      C s ∧ (∀ v, C (s.set n v)) ∧ Q false s ∧
        Q true (s.set n (some ⟨[], (s.files n).elim newStat Node.st⟩)) := by
  constructor
  · rintro ⟨hC, hd, hQ⟩
    exact ⟨hC, fun v => hd _ ⟨v, rfl⟩, hQ false trivial, hQ true trivial⟩
  · rintro ⟨hC, hd, hf, ht⟩
    refine ⟨hC, ?_, ?_⟩
    · rintro t ⟨v, rfl⟩
      exact hd v
    · intro r _
      cases r with
      | false => exact hf
      | true => exact ht

/-- A write may be short, or fail. A crash inside it can leave the file with any contents. -/
theorem wp_sysWrite (n : Name) (d : Bytes) (Q : Int → Fs → Prop) :
    wp fsMachine Q C (sysWrite n d) s ↔
      C s ∧ (∀ v, C (s.set n v)) ∧
        ∀ r : Int, r ≤ d.length → Q r (s.append n (d.take r.toNat)) := by
  constructor
  · rintro ⟨hC, hd, hQ⟩
    exact ⟨hC, fun v => hd _ ⟨v, rfl⟩, fun r hr => hQ r hr⟩
  · rintro ⟨hC, hd, hQ⟩
    refine ⟨hC, ?_, fun r hr => hQ r hr⟩
    rintro t ⟨v, rfl⟩
    exact hd v

/-- A write to a partition keeps its length, whatever else happens to it. -/
theorem wp_sysWritePart (dev : Name) (d : Bytes) (Q : PartWrite → Fs → Prop) :
    wp fsMachine Q C (sysWritePart dev d) s ↔
      C s ∧ Q .noDevice s ∧ ∀ old, s.parts dev = some old →
        (∀ new, new.length = old.length → C (s.setPart dev (some new)) ∧
          Q (.failed new) (s.setPart dev (some new))) ∧
        (d.length ≤ old.length → Q .done (s.setPart dev (some (d ++ old.drop d.length)))) := by
  constructor
  · rintro ⟨hC, hd, hQ⟩
    refine ⟨hC, hQ .noDevice trivial, ?_⟩
    intro old hold
    refine ⟨?_, ?_⟩
    · intro new hlen
      refine ⟨hd _ ⟨old, new, hold, hlen, rfl⟩, hQ (.failed new) ?_⟩
      change ((s.parts dev).any fun old => new.length = old.length) = true
      rw [hold]
      simpa using hlen
    · intro hfits
      have h := hQ .done (by
        change ((s.parts dev).any fun old => d.length ≤ old.length) = true
        rw [hold]
        simpa using hfits)
      simp only [fsMachine, Fs.apply, hold, Option.map_some] at h
      exact h
  · rintro ⟨hC, hno, hdev⟩
    refine ⟨hC, ?_, ?_⟩
    · rintro t ⟨old, new, hold, hlen, rfl⟩
      exact ((hdev old hold).1 new hlen).1
    · intro r hr
      cases hold : s.parts dev with
      | none =>
          -- there is no such device, so it cannot be opened
          cases r with
          | done =>
              change ((s.parts dev).any fun old => d.length ≤ old.length) = true at hr
              rw [hold] at hr
              cases hr
          | failed left =>
              change ((s.parts dev).any fun old => left.length = old.length) = true at hr
              rw [hold] at hr
              cases hr
          | noDevice => exact hno
      | some old =>
          cases r with
          | done =>
              change ((s.parts dev).any fun old => d.length ≤ old.length) = true at hr
              rw [hold] at hr
              simp only [fsMachine, Fs.apply, hold, Option.map_some]
              exact (hdev old hold).2 (by simpa using hr)
          | failed left =>
              change ((s.parts dev).any fun old => left.length = old.length) = true at hr
              rw [hold] at hr
              exact ((hdev old hold).1 left (by simpa using hr)).2
          | noDevice => exact hno

end Rules

/-! ## Programs that only read -/

/-- Only files and partitions are read. -/
inductive ReadOnly {α : Type} : FsProg α → Prop
  | ret (a : α) : ReadOnly (.ret a)
  | halt : ReadOnly .halt
  | load {n : Name} {k : Option Node → FsProg α} :
      (∀ r, ReadOnly (k r)) → ReadOnly (.op (.load n) k)
  | loadPart {dev : Name} {k : Option Bytes → FsProg α} :
      (∀ r, ReadOnly (k r)) → ReadOnly (.op (.loadPart dev) k)

/-- The result of a program that only reads; `none` when the process dies. -/
def readResult {α : Type} (s : Fs) : FsProg α → Option α
  | .ret a => some a
  | .op (.load n) k => readResult s (k (s.files n))
  | .op (.loadPart dev) k => readResult s (k (s.parts dev))
  | _ => none

/-- Reads one after the other. -/
theorem ReadOnly.bind {α β : Type} {p : FsProg α} {f : α → FsProg β} (hp : ReadOnly p)
    (hf : ∀ a, ReadOnly (f a)) : ReadOnly (p >>= f) := by
  induction hp with
  | ret a => exact hf a
  | halt => exact .halt
  | load _ ih => exact .load ih
  | loadPart _ ih => exact .loadPart ih

/-- The results of reads one after the other. -/
theorem ReadOnly.readResult_bind {α β : Type} {p : FsProg α} (hp : ReadOnly p)
    (f : α → FsProg β) (s : Fs) :
    readResult s (p >>= f) = (readResult s p).bind fun a => readResult s (f a) := by
  induction hp with
  | ret a => rfl
  | halt => rfl
  | load _ ih => exact ih _
  | loadPart _ ih => exact ih _

/-- Reading answers by the state and leaves it as it is. -/
theorem ReadOnly.wp {α : Type} {p : FsProg α} (hp : ReadOnly p) {Q : α → Fs → Prop}
    {C : Fs → Prop} {s : Fs} (hC : C s) (hQ : ∀ a, readResult s p = some a → Q a s) :
    wp fsMachine Q C p s := by
  induction hp with
  | ret a => exact hQ a rfl
  | halt => exact hC
  | @load n k _ ih =>
      refine ⟨hC, fun t ht => absurd ht id, ?_⟩
      rintro r rfl
      exact ih _ hQ
  | @loadPart dev k _ ih =>
      refine ⟨hC, fun t ht => absurd ht id, ?_⟩
      rintro r rfl
      exact ih _ hQ

/-- What is read can be the outcome of a run. -/
theorem ReadOnly.can {α : Type} {p : FsProg α} (hp : ReadOnly p) {s : Fs} {a : α}
    (h : readResult s p = some a) : Can fsMachine (fun b t => b = a ∧ t = s) p s := by
  induction hp with
  | ret b =>
      cases h
      exact can_ret ⟨rfl, rfl⟩
  | halt => cases h
  | load _ ih => exact can_op _ rfl (ih _ h)
  | loadPart _ ih => exact can_op _ rfl (ih _ h)

end OpenRecovery.Storage
