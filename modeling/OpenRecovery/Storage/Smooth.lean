import OpenRecovery.Storage.FileSystem

/-!
# A world in which nothing fails

`smoothReply` answers every system call with success; it drives the concrete runs. `roomyMachine`
is the file system restricted to such answers, with at least `k` bytes reported free on every file
system: the world of the statements about what an uninterrupted run achieves. `returns_roomy` is
the rule for one system call there, and the `returns_` lemmas are its instances.
-/

set_option autoImplicit false

namespace OpenRecovery.Storage

open OpenRecovery.Crash

/-- A write to a device that succeeds if the data fits. -/
def smoothPart (s : Fs) (dev : Name) (d : Bytes) : PartWrite :=
  if ((s.parts dev).any fun old => d.length ≤ old.length) = true then .done else .noDevice

/-- The device can answer a write as a smooth run wants it to. -/
theorem smoothPart_allowed (s : Fs) (dev : Name) (d : Bytes) :
    s.Allowed (.writePart dev d) (smoothPart s dev d) := by
  unfold smoothPart
  split
  · assumption
  · trivial

/-- Answers of a world in which every call succeeds; `space` is the answer of `statfs`, and
directories cannot be listed. -/
def smoothReply (space : Nat × Nat) (s : Fs) : (o : Op) → o.Res
  | .load n => s.files n
  | .loadPart dev => s.parts dev
  | .openTrunc _ => true
  | .write _ d => Int.ofNat d.length
  | .chmod n _ => (s.files n).isSome
  | .chown n _ _ => (s.files n).isSome
  | .rename a _ => (s.files a).isSome
  | .unlink n => (s.files n).isSome
  | .statfs _ => some space
  | .opendir _ => none
  | .statReg n => (s.files n).isSome
  | .openFiles => none
  | .writePart dev d => smoothPart s dev d
  | .uninit => FileContents.mk [] none 0 newStat

/-- Every answer of a smooth run is one the file system can give. -/
theorem smoothReply_allowed (space : Nat × Nat) (s : Fs) (o : Op) :
    s.Allowed o (smoothReply space s o) := by
  cases o with
  | load n => rfl
  | loadPart dev => rfl
  | openTrunc n => trivial
  | write n d => exact Int.le_refl _
  | chmod n mode => exact id
  | chown n uid gid => exact id
  | rename a b => exact id
  | unlink n => rfl
  | statfs path => trivial
  | opendir d => exact nofun
  | statReg n => rfl
  | openFiles => exact nofun
  | writePart dev d => exact smoothPart_allowed s dev d
  | uninit => trivial

/-! ## The restricted machine -/

/-- The call succeeds wherever it can, and `statfs` reports at least `k` bytes, computed in a
`size_t` of the given width. -/
def Roomy (bits k : Nat) (s : Fs) : (o : Op) → o.Res → Prop
  | .openTrunc _, r => r = true
  | .write _ d, r => r = Int.ofNat d.length
  | .chmod n _, r => r = (s.files n).isSome
  | .chown n _ _, r => r = (s.files n).isSome
  | .rename a _, r => r = (s.files a).isSome
  | .statfs _, r => ∃ bsize bfree, r = some (bsize, bfree) ∧ k ≤ bsize * bfree % 2 ^ bits
  | .writePart dev d, r => r = smoothPart s dev d
  | _, _ => True

/-- The file system when nothing fails and `k` bytes are free. -/
def roomyMachine (bits k : Nat) : Machine Fs Op Op.Res := fsMachine.restrict (Roomy bits k)

/-- Such an answer also leaves the free space that was promised. -/
theorem smoothReply_roomy {bits k : Nat} (hk : k < 2 ^ bits) (s : Fs) (o : Op) :
    (roomyMachine bits k).allowed s o (smoothReply (1, k) s o) := by
  refine ⟨smoothReply_allowed (1, k) s o, ?_⟩
  cases o with
  | statfs path =>
      -- blocks of one byte, so that the product is `k` and does not wrap
      refine ⟨1, k, rfl, ?_⟩
      rw [Nat.one_mul, Nat.mod_eq_of_lt hk]
  | load n => trivial
  | loadPart dev => trivial
  | openTrunc n => rfl
  | write n d => rfl
  | chmod n mode => rfl
  | chown n uid gid => rfl
  | rename a b => rfl
  | unlink n => trivial
  | opendir d => trivial
  | statReg n => trivial
  | openFiles => trivial
  | writePart dev d => rfl
  | uninit => trivial

section Rules

variable {bits k : Nat} (hk : k < 2 ^ bits) {s : Fs}

include hk

/-- Rule for one system call. -/
theorem returns_roomy (o : Op) {Q : o.Res → Fs → Prop}
    (h : ∀ r, s.Allowed o r → Roomy bits k s o r → Q r (s.apply o r)) :
    Returns (roomyMachine bits k) Q (Prog.call o) s :=
  ⟨⟨_, smoothReply_roomy hk s o⟩, fun r hr => h r hr.1 hr.2⟩

/-- A run returns whatever uninitialised memory holds. -/
theorem returns_sysUninit {Q : FileContents → Fs → Prop} (h : ∀ f, Q f s) :
    Returns (roomyMachine bits k) Q sysUninit s :=
  returns_roomy hk .uninit fun r _ _ => h r

/-- Loading a file returns its node. -/
theorem returns_sysLoad {n : Name} {Q : Option Node → Fs → Prop} (h : Q (s.files n) s) :
    Returns (roomyMachine bits k) Q (sysLoad n) s := by
  refine returns_roomy hk (.load n) ?_
  rintro r rfl -
  exact h

/-- Loading a partition returns its contents. -/
theorem returns_sysLoadPart {dev : Name} {Q : Option Bytes → Fs → Prop} (h : Q (s.parts dev) s) :
    Returns (roomyMachine bits k) Q (sysLoadPart dev) s := by
  refine returns_roomy hk (.loadPart dev) ?_
  rintro r rfl -
  exact h

/-- `statfs` reports at least the space that was promised. -/
theorem returns_sysStatfs {path : Name} {Q : Option (Nat × Nat) → Fs → Prop}
    (h : ∀ bsize bfree, k ≤ bsize * bfree % 2 ^ bits → Q (some (bsize, bfree)) s) :
    Returns (roomyMachine bits k) Q (sysStatfs path) s := by
  refine returns_roomy hk (.statfs path) ?_
  rintro r - ⟨bsize, bfree, rfl, hle⟩
  exact h bsize bfree hle

/-- Truncating a file succeeds and leaves it empty; an old file keeps its mode and owner. -/
theorem returns_sysOpenTrunc {n : Name} {Q : Bool → Fs → Prop}
    (h : Q true (s.set n (some ⟨[], (s.files n).elim newStat Node.st⟩))) :
    Returns (roomyMachine bits k) Q (sysOpenTrunc n) s := by
  refine returns_roomy hk (.openTrunc n) ?_
  rintro r - rfl
  exact h

/-- A write takes all of its bytes. -/
theorem returns_sysWrite {n : Name} {d : Bytes} {Q : Int → Fs → Prop}
    (h : Q d.length (s.append n d)) : Returns (roomyMachine bits k) Q (sysWrite n d) s := by
  refine returns_roomy hk (.write n d) ?_
  rintro r - rfl
  -- a full write appends all of the data
  have hlen : d.take (Int.toNat (Int.ofNat d.length)) = d := List.take_length
  change Q d.length (s.append n (d.take (Int.toNat (Int.ofNat d.length))))
  rw [hlen]
  exact h

/-- `chmod` of a file that exists succeeds. -/
theorem returns_sysChmod {n : Name} {mode : Nat} {Q : Bool → Fs → Prop}
    (hn : (s.files n).isSome = true)
    (h : Q true (s.modify n fun f => { f with st := { f.st with mode := mode } })) :
    Returns (roomyMachine bits k) Q (sysChmod n mode) s := by
  refine returns_roomy hk (.chmod n mode) ?_
  rintro r - hr
  change r = (s.files n).isSome at hr
  rw [hn] at hr
  subst hr
  exact h

/-- `chown` of a file that exists succeeds. -/
theorem returns_sysChown {n : Name} {uid gid : Nat} {Q : Bool → Fs → Prop}
    (hn : (s.files n).isSome = true)
    (h : Q true (s.modify n fun f => { f with st := { f.st with uid := uid, gid := gid } })) :
    Returns (roomyMachine bits k) Q (sysChown n uid gid) s := by
  refine returns_roomy hk (.chown n uid gid) ?_
  rintro r - hr
  change r = (s.files n).isSome at hr
  rw [hn] at hr
  subst hr
  exact h

/-- `unlink` succeeds if the file was there. -/
theorem returns_sysUnlink {n : Name} {Q : Bool → Fs → Prop}
    (h : Q (s.files n).isSome (s.set n none)) :
    Returns (roomyMachine bits k) Q (sysUnlink n) s := by
  refine returns_roomy hk (.unlink n) ?_
  rintro r rfl -
  exact h

/-- `rename` of a file that exists succeeds. -/
theorem returns_sysRename {a b : Name} {Q : Bool → Fs → Prop} (ha : (s.files a).isSome = true)
    (h : Q true (if a = b then s else (s.set b (s.files a)).set a none)) :
    Returns (roomyMachine bits k) Q (sysRename a b) s := by
  refine returns_roomy hk (.rename a b) ?_
  rintro r - hr
  change r = (s.files a).isSome at hr
  rw [ha] at hr
  subst hr
  exact h

/-- Contents that fit are written to the beginning of the partition. -/
theorem returns_sysWritePart {dev : Name} {d old : Bytes} {Q : PartWrite → Fs → Prop}
    (hold : s.parts dev = some old) (hfits : d.length ≤ old.length)
    (h : Q .done (s.setPart dev (some (d ++ old.drop d.length)))) :
    Returns (roomyMachine bits k) Q (sysWritePart dev d) s := by
  refine returns_roomy hk (.writePart dev d) ?_
  rintro r - hr
  have hdone : smoothPart s dev d = .done := by
    unfold smoothPart
    rw [hold]
    exact if_pos (by simpa using hfits)
  change r = smoothPart s dev d at hr
  rw [hdone] at hr
  subst hr
  -- the data covers the front of the partition
  simp only [Fs.apply, hold, Option.map_some]
  exact h

end Rules

/-- A program that only reads returns what it computes from the state. -/
theorem ReadOnly.returns {α : Type} {p : FsProg α} (hp : ReadOnly p) {bits k : Nat} {s : Fs} {a : α}
    {Q : α → Fs → Prop} (h : readResult s p = some a) (hQ : Q a s) :
    Returns (roomyMachine bits k) Q p s := by
  induction hp with
  | ret b =>
      cases h
      exact hQ
  | halt => cases h
  | load _ ih =>
      refine ⟨⟨_, rfl, trivial⟩, ?_⟩
      rintro r ⟨rfl, -⟩
      exact ih _ h
  | loadPart _ ih =>
      refine ⟨⟨_, rfl, trivial⟩, ?_⟩
      rintro r ⟨rfl, -⟩
      exact ih _ h

end OpenRecovery.Storage
