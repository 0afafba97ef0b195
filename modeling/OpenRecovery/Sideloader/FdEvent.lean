import Mathlib.Tactic

/-!
# The event pump

`sideloader/fdevent.c`, with `select`. `fd_table` knows every active `fdevent` by its descriptor,
the three sets hold what `select` watches, and the pending list what it reported and nobody has
handled yet. `Consistent` is how they belong together; every call of a client and every round of the
pump keeps it (`PumpStep.consistent`), and so no round meets a descriptor that is not in the table.
The sets hold any descriptor here, where an `fd_set` has room for those below `FD_SETSIZE`: the
process is taken to have fewer open.

`fdevent_set` takes the events that are wanted out of the pending ones (`set_events`), where its
comment wants the others out. What is left is still a part of what `select` reported
(`PumpRun.serves`).
-/

set_option autoImplicit false

namespace OpenRecovery.Sideloader

/-! ## Events -/

/-- `FDE_READ`, `FDE_WRITE` and `FDE_ERROR`. -/
inductive Ev where
  | read
  | write
  | error
  deriving DecidableEq

/-- A mask of events. -/
abbrev Events := Ev → Bool

theorem Events.ext_iff {a b : Events} :
    (a .read = b .read ∧ a .write = b .write ∧ a .error = b .error) ↔ a = b := by
  constructor
  · rintro ⟨hread, hwrite, herror⟩
    funext e
    cases e with
    | read => exact hread
    | write => exact hwrite
    | error => exact herror
  · rintro rfl
    exact ⟨rfl, rfl, rfl⟩

instance : DecidableEq Events := fun _ _ => decidable_of_iff _ Events.ext_iff

namespace Events

def empty : Events := fun _ => false

def only (e : Ev) : Events := fun e' => decide (e' = e)

def add (a b : Events) : Events := fun e => a e || b e

def del (a b : Events) : Events := fun e => a e && !b e

/-- The number of events in a mask. -/
def count (a : Events) : ℕ := (a .read).toNat + (a .write).toNat + (a .error).toNat

@[simp] theorem empty_apply (e : Ev) : empty e = false := rfl

@[simp] theorem add_apply (a b : Events) (e : Ev) : add a b e = (a e || b e) := rfl

@[simp] theorem del_apply (a b : Events) (e : Ev) : del a b e = (a e && !b e) := rfl

@[simp] theorem only_self (e : Ev) : only e e = true := decide_eq_true rfl

/-- A set with an event. -/
theorem ne_empty_iff {a : Events} : a ≠ empty ↔ ∃ e, a e = true := by
  rw [Function.ne_iff]
  exact exists_congr fun e => by rw [empty_apply, ne_eq, Bool.not_eq_false]

theorem add_ne_empty {a b : Events} (h : b ≠ empty) : add a b ≠ empty := by
  obtain ⟨e, he⟩ := ne_empty_iff.mp h
  exact ne_empty_iff.mpr ⟨e, by rw [add_apply, he, Bool.or_true]⟩

theorem count_eq_zero {a : Events} : count a = 0 ↔ a = empty := by
  constructor
  · intro h
    funext e
    cases ha : a e with
    | false => rfl
    | true =>
        rw [count] at h
        cases e <;> simp [ha] at h
  · rintro rfl
    rfl

end Events

/-! ## The pump -/

/-- An active `fdevent`: the events in its state, `FDE_PENDING`, and the events that are pending. -/
structure Fde (α : Type) where
  want : Events
  pending : Bool
  events : Events
  arg : α

/-- The variables of `fdevent.c`. -/
structure Pump (α : Type) where
  table : ℕ → Option (Fde α)
  pendingList : List ℕ
  fds : Ev → ℕ → Bool
  selectN : ℕ

variable {α : Type}

namespace Pump

/-- Before the first registration. -/
def initial : Pump α := ⟨fun _ => none, [], fun _ _ => false, 0⟩

/-- Another entry of `fd_table`. -/
def put (p : Pump α) (fd : ℕ) (fde : Option (Fde α)) : Pump α :=
  { p with table := Function.update p.table fd fde }

@[simp] theorem put_self (p : Pump α) (fd : ℕ) (fde : Option (Fde α)) :
    (p.put fd fde).table fd = fde := by
  simp [put]

@[simp] theorem put_of_ne (p : Pump α) {fd fd' : ℕ} (fde : Option (Fde α)) (h : fd' ≠ fd) :
    (p.put fd fde).table fd' = p.table fd' := by
  simp [put, h]

/-- `fdevent_install`. -/
def install (p : Pump α) (fd : ℕ) (arg : α) : Pump α :=
  { p.put fd (some ⟨.empty, false, .empty, arg⟩) with selectN := max p.selectN (fd + 1) }

/-- The loop of `fdevent_disconnect`: the last descriptor in the table. -/
def lastFd (p : Pump α) : ℕ :=
  ((List.range p.selectN).filter fun i => (p.table i).isSome).getLast?.getD 0

/-- `fdevent_remove`; `none` when `fdevent_unregister` finds the table out of sync. -/
def remove (p : Pump α) (fd : ℕ) : Option (Pump α) := do
  let fde ← p.table fd
  return { p.put fd none with
    pendingList := if fde.pending then p.pendingList.erase fd else p.pendingList
    fds := fun e => Function.update (p.fds e) fd false
    selectN := p.lastFd + 1 }

/-- The end of `fdevent_set`, for an `fdevent` that is pending. -/
def trimPending (p : Pump α) (fd : ℕ) (fde : Fde α) (events : Events) : Pump α :=
  if fde.pending = true then
    if fde.events.del events = .empty then
      { p.put fd (some { fde with want := events, events := .empty, pending := false }) with
        pendingList := p.pendingList.erase fd }
    else p.put fd (some { fde with want := events, events := fde.events.del events })
  else p.put fd (some { fde with want := events })

/-- `fdevent_set`. -/
def set (p : Pump α) (fd : ℕ) (events : Events) : Option (Pump α) := do
  let fde ← p.table fd
  if fde.want = events then return p
  else return { p with fds := fun e => Function.update (p.fds e) fd (events e) }.trimPending fd fde events

/-- `fdevent_add`. -/
def add (p : Pump α) (fd : ℕ) (events : Events) : Option (Pump α) := do
  let fde ← p.table fd
  p.set fd (fde.want.add events)

/-- `fdevent_del`. -/
def del (p : Pump α) (fd : ℕ) (events : Events) : Option (Pump α) := do
  let fde ← p.table fd
  p.set fd (fde.want.del events)

/-- What the loop of `fdevent_process` does for an `fdevent` that has events. -/
def mark (p : Pump α) (fd : ℕ) (fde : Fde α) (events : Events) : Pump α :=
  { p.put fd (some { fde with events := fde.events.add events, pending := true }) with
    pendingList := if fde.pending then p.pendingList else p.pendingList ++ [fd] }

/-- The loop of `fdevent_process`, with `n` events to go; `none` for `FATAL`. -/
def markLoop (ready : ℕ → Events) : List ℕ → ℕ → Pump α → Option (Pump α)
  | [], _, p => some p
  | i :: is, n, p =>
      if n = 0 then some p
      else if ready i = .empty then markLoop ready is n p
      else do
        let fde ← p.table i
        markLoop ready is (n - (ready i).count) (p.mark i fde (ready i))

/-- The events that a set of ready descriptors holds. -/
def readyCount (ready : ℕ → Events) (n : ℕ) : ℕ :=
  ((List.range n).map fun i => (ready i).count).sum

/-- How `select` ends: the sets it leaves, `EINTR` or an error that is not looked at, or `EBADF`. -/
inductive Selected where
  | ready (fds : ℕ → Events)
  | interrupted
  | bad (fds : ℕ → Bool)

/-- `fdevent_fd_check`: the registered descriptors that are bad count as readable. -/
def fdCheck (p : Pump α) (bad : ℕ → Bool) : ℕ → Events := fun i =>
  if bad i = true ∧ (p.table i).isSome then .only .read else .empty

/-- `fdevent_process`. -/
def process (p : Pump α) : Selected → Option (Pump α)
  | .ready fds => markLoop fds (List.range p.selectN) (readyCount fds p.selectN) p
  | .interrupted => some p
  | .bad bad =>
      markLoop (p.fdCheck bad) (List.range p.selectN) (readyCount (p.fdCheck bad) p.selectN) p

/-- `fdevent_plist_dequeue` and `fdevent_call_fdfunc`: the pump when the function is called, the
descriptor, the events and the argument. -/
def dispatch (p : Pump α) : Option (Pump α × ℕ × Events × α) :=
  match p.pendingList with
  | [] => none
  | fd :: rest => do
      let fde ← p.table fd
      return ({ p.put fd (some { fde with events := .empty, pending := false }) with
        pendingList := rest }, fd, fde.events, fde.arg)

/-! ## Consistency -/

/-- The table, the sets and the list agree. -/
structure Consistent (p : Pump α) : Prop where
  nodup : p.pendingList.Nodup
  mem_iff : ∀ fd, fd ∈ p.pendingList ↔ ∃ fde, p.table fd = some fde ∧ fde.pending = true
  pending_iff : ∀ fd fde, p.table fd = some fde → (fde.pending = true ↔ fde.events ≠ .empty)
  fds_iff : ∀ e fd, p.fds e fd = true ↔ ∃ fde, p.table fd = some fde ∧ fde.want e = true
  below : ∀ fd, p.table fd ≠ none → fd < p.selectN

theorem consistent_initial : (initial : Pump α).Consistent where
  nodup := List.nodup_nil
  mem_iff _ := iff_of_false List.not_mem_nil (by rintro ⟨_, ⟨⟩, _⟩)
  pending_iff := by rintro _ _ ⟨⟩
  fds_iff _ _ := iff_of_false Bool.false_ne_true (by rintro ⟨_, ⟨⟩, _⟩)
  below _ h := absurd rfl h

section Consistent

variable {p p' : Pump α} {fd : ℕ} {rest : List ℕ} {fde : Fde α} {events : Events}

/-- A pump that differs for one descriptor only. -/
theorem Consistent.change (h : p.Consistent) (entry : Option (Fde α))
    (htable : p'.table = Function.update p.table fd entry)
    (hnodup : p'.pendingList.Nodup)
    (hmem : ∀ fd', fd' ≠ fd → (fd' ∈ p'.pendingList ↔ fd' ∈ p.pendingList))
    (hself : fd ∈ p'.pendingList ↔ ∃ fde, entry = some fde ∧ fde.pending = true)
    (hpending : ∀ fde, entry = some fde → (fde.pending = true ↔ fde.events ≠ .empty))
    (hother : ∀ e fd', fd' ≠ fd → p'.fds e fd' = p.fds e fd')
    (hfds : ∀ e, p'.fds e fd = true ↔ ∃ fde, entry = some fde ∧ fde.want e = true)
    (hbelow : ∀ fd', fd' ≠ fd → p.table fd' ≠ none → fd' < p'.selectN)
    (hselfBelow : entry ≠ none → fd < p'.selectN) : p'.Consistent := by
  have hhere : p'.table fd = entry := by rw [htable, Function.update_self]
  have hthere : ∀ fd', fd' ≠ fd → p'.table fd' = p.table fd' := by
    intro fd' hne
    rw [htable, Function.update_of_ne hne]
  refine ⟨hnodup, ?_, ?_, ?_, ?_⟩
  · intro fd'
    by_cases hfd : fd' = fd
    · rw [hfd, hhere]
      exact hself
    · rw [hmem fd' hfd, hthere fd' hfd]
      exact h.mem_iff fd'
  · intro fd' fde hfde
    by_cases hfd : fd' = fd
    · rw [hfd, hhere] at hfde
      exact hpending fde hfde
    · rw [hthere fd' hfd] at hfde
      exact h.pending_iff fd' fde hfde
  · intro e fd'
    by_cases hfd : fd' = fd
    · rw [hfd, hhere]
      exact hfds e
    · rw [hother e fd' hfd, hthere fd' hfd]
      exact h.fds_iff e fd'
  · intro fd' hne
    by_cases hfd : fd' = fd
    · rw [hfd, hhere] at hne
      rw [hfd]
      exact hselfBelow hne
    · rw [hthere fd' hfd] at hne
      exact hbelow fd' hfd hne

/-- What the sets say of a registered descriptor. -/
theorem Consistent.fds_eq (h : p.Consistent) (hfde : p.table fd = some fde) {fde' : Fde α}
    (hwant : fde'.want = fde.want) (e : Ev) :
    p.fds e fd = true ↔ ∃ fde'', some fde' = some fde'' ∧ fde''.want e = true := by
  rw [h.fds_iff, hfde]
  constructor
  · rintro ⟨_, ⟨⟩, he⟩
    exact ⟨fde', rfl, hwant ▸ he⟩
  · rintro ⟨_, ⟨⟩, he⟩
    exact ⟨fde, rfl, hwant ▸ he⟩

/-- What is not installed is not in the list. -/
theorem Consistent.not_mem (h : p.Consistent) (hfree : p.table fd = none) : fd ∉ p.pendingList := by
  rw [h.mem_iff, hfree]
  rintro ⟨_, ⟨⟩, _⟩

/-- A descriptor in the table is pending if it is in the list. -/
theorem Consistent.mem_iff_pending (h : p.Consistent) (hfde : p.table fd = some fde) :
    fd ∈ p.pendingList ↔ fde.pending = true := by
  rw [h.mem_iff, hfde]
  constructor
  · rintro ⟨fde', heq, hpending⟩
    rwa [Option.some.inj heq]
  · exact fun hpending => ⟨fde, rfl, hpending⟩

/-- Installing a descriptor. -/
theorem Consistent.install (h : p.Consistent) (hfree : p.table fd = none) (arg : α) :
    (p.install fd arg).Consistent := by
  refine h.change (some ⟨.empty, false, .empty, arg⟩) rfl h.nodup (fun _ _ => Iff.rfl) ?_ ?_
    (fun _ _ _ => rfl) ?_ ?_ ?_
  · refine iff_of_false (h.not_mem hfree) ?_
    rintro ⟨_, ⟨⟩, hpending⟩
    cases hpending
  · rintro _ ⟨⟩
    exact iff_of_false Bool.false_ne_true fun hne => hne rfl
  · intro e
    refine iff_of_false ?_ ?_
    · show ¬ p.fds e fd = true
      rw [h.fds_iff, hfree]
      rintro ⟨_, ⟨⟩, _⟩
    · rintro ⟨_, ⟨⟩, hwant⟩
      cases hwant
  · exact fun fd' _ hne => lt_max_of_lt_left (h.below fd' hne)
  · exact fun _ => lt_max_of_lt_right (Nat.lt_succ_self fd)

/-- Descriptors that are looked at lie up to the last one. -/
theorem le_lastFd (hn : fd < p.selectN) (hfd : p.table fd ≠ none) : fd ≤ p.lastFd := by
  have hmem : fd ∈ (List.range p.selectN).filter fun i => (p.table i).isSome := by
    rw [List.mem_filter, List.mem_range]
    exact ⟨hn, Option.isSome_iff_ne_none.mpr hfd⟩
  have hsorted : ((List.range p.selectN).filter fun i => (p.table i).isSome).Pairwise (· < ·) :=
    List.pairwise_lt_range.filter _
  rw [lastFd]
  obtain ⟨front, last, heq⟩ := List.eq_nil_or_concat'
    ((List.range p.selectN).filter fun i => (p.table i).isSome) |>.resolve_left (List.ne_nil_of_mem hmem)
  rw [heq] at hmem hsorted ⊢
  rw [List.getLast?_append_of_ne_nil _ (by simp), List.getLast?_singleton, Option.getD_some]
  rcases List.mem_append.mp hmem with hfront | hlast
  · exact Nat.le_of_lt ((List.pairwise_append.mp hsorted).2.2 fd hfront last (List.mem_singleton_self _))
  · exact Nat.le_of_eq (List.mem_singleton.mp hlast)

/-- Removing a descriptor takes it from the list too. -/
theorem Consistent.remove (h : p.Consistent) (hremove : p.remove fd = some p') : p'.Consistent := by
  rw [Pump.remove] at hremove
  obtain ⟨fde, hfde, hp'⟩ := Option.bind_eq_some_iff.mp hremove
  cases hp'
  refine h.change none rfl ?_ ?_ ?_ (by rintro _ ⟨⟩) ?_ ?_ ?_ (fun hne => absurd rfl hne)
  · show (if fde.pending = true then p.pendingList.erase fd else p.pendingList).Nodup
    split
    · exact h.nodup.erase fd
    · exact h.nodup
  · intro fd' hne
    show fd' ∈ (if fde.pending = true then p.pendingList.erase fd else p.pendingList) ↔ _
    split
    · exact List.mem_erase_of_ne hne
    · exact Iff.rfl
  · refine iff_of_false ?_ (by rintro ⟨_, ⟨⟩, _⟩)
    show fd ∉ (if fde.pending = true then p.pendingList.erase fd else p.pendingList)
    split
    · exact h.nodup.not_mem_erase
    · rename_i hpending
      exact fun hmem => hpending ((h.mem_iff_pending hfde).mp hmem)
  · intro e fd' hne
    exact Function.update_of_ne hne _ _
  · intro e
    refine iff_of_false ?_ (by rintro ⟨_, ⟨⟩, _⟩)
    show ¬ Function.update (p.fds e) fd false fd = true
    rw [Function.update_self]
    exact Bool.false_ne_true
  · exact fun fd' _ hne => Nat.lt_succ_of_le (le_lastFd (h.below fd' hne) hne)

/-- Setting the wanted events. -/
theorem Consistent.set (h : p.Consistent) (hset : p.set fd events = some p') : p'.Consistent := by
  rw [Pump.set] at hset
  obtain ⟨fde, hfde, hp'⟩ := Option.bind_eq_some_iff.mp hset
  have hbelow : fd < p.selectN := h.below fd (by rw [hfde]; exact Option.some_ne_none fde)
  have hfds : ∀ (fde' : Fde α), fde'.want = events → ∀ e,
      Function.update (p.fds e) fd (events e) fd = true ↔
        ∃ fde'', some fde' = some fde'' ∧ fde''.want e = true := by
    rintro fde' rfl e
    rw [Function.update_self]
    constructor
    · exact fun hwant => ⟨fde', rfl, hwant⟩
    · rintro ⟨_, ⟨⟩, hwant⟩
      exact hwant
  have hother : ∀ e fd', fd' ≠ fd → Function.update (p.fds e) fd (events e) fd' = p.fds e fd' :=
    fun e fd' hne => Function.update_of_ne hne _ _
  split at hp'
  · cases hp'
    exact h
  · cases hp'
    unfold trimPending
    split
    · rename_i hpending
      split
      · -- no event is left, and it is taken out of the list
        refine h.change _ rfl (h.nodup.erase fd) (fun fd' hne => List.mem_erase_of_ne hne) ?_ ?_ hother
          (hfds _ rfl) (fun fd' _ => h.below fd') (fun _ => hbelow)
        · refine iff_of_false h.nodup.not_mem_erase ?_
          rintro ⟨_, ⟨⟩, hfalse⟩
          cases hfalse
        · rintro _ ⟨⟩
          exact iff_of_false Bool.false_ne_true fun hne => hne rfl
      · rename_i hleft
        refine h.change _ rfl h.nodup (fun _ _ => Iff.rfl) ?_ ?_ hother (hfds _ rfl)
          (fun fd' _ => h.below fd') (fun _ => hbelow)
        · refine iff_of_true ((h.mem_iff_pending hfde).mpr hpending) ⟨_, rfl, hpending⟩
        · rintro _ ⟨⟩
          exact iff_of_true hpending hleft
    · rename_i hpending
      refine h.change _ rfl h.nodup (fun _ _ => Iff.rfl) ?_ ?_ hother (hfds _ rfl)
        (fun fd' _ => h.below fd') (fun _ => hbelow)
      · refine iff_of_false (fun hmem => hpending ((h.mem_iff_pending hfde).mp hmem)) ?_
        rintro ⟨_, ⟨⟩, htrue⟩
        exact hpending htrue
      · rintro _ ⟨⟩
        exact h.pending_iff fd fde hfde

/-- Marking a descriptor puts it into the list once. -/
theorem Consistent.mark (h : p.Consistent) (hfde : p.table fd = some fde) (hevents : events ≠ .empty) :
    (p.mark fd fde events).Consistent := by
  have hmem := h.mem_iff_pending hfde
  refine h.change (some { fde with events := fde.events.add events, pending := true })
    rfl ?_ ?_ ?_ ?_ (fun _ _ _ => rfl) (h.fds_eq hfde rfl) (fun fd' _ => h.below fd')
    (fun _ => h.below fd (by rw [hfde]; exact Option.some_ne_none fde))
  · show (if fde.pending = true then p.pendingList else p.pendingList ++ [fd]).Nodup
    split
    · exact h.nodup
    · rename_i hpending
      refine h.nodup.append (List.nodup_singleton fd) ?_
      rw [List.disjoint_singleton]
      exact fun hin => hpending (hmem.mp hin)
  · intro fd' hne
    show fd' ∈ (if fde.pending = true then p.pendingList else p.pendingList ++ [fd]) ↔ _
    split
    · exact Iff.rfl
    · rw [List.mem_append, List.mem_singleton]
      exact or_iff_left hne
  · refine iff_of_true ?_ ⟨_, rfl, rfl⟩
    show fd ∈ (if fde.pending = true then p.pendingList else p.pendingList ++ [fd])
    split
    · rename_i hpending
      exact hmem.mpr hpending
    · exact List.mem_append_right _ (List.mem_singleton_self fd)
  · rintro _ ⟨⟩
    exact iff_of_true rfl (Events.add_ne_empty hevents)

/-- An entry of the table after `select` has reported `ready`. -/
def marked (ready : ℕ → Events) (p : Pump α) (fd : ℕ) : Option (Fde α) :=
  (p.table fd).map fun fde =>
    if ready fd = .empty then fde
    else { fde with events := fde.events.add (ready fd), pending := true }

/-- A descriptor that is not ready stays as it is. -/
theorem marked_empty {ready : ℕ → Events} (h : ready fd = .empty) : marked ready p fd = p.table fd := by
  rw [marked, funext fun fde => if_pos h, Option.map_id']

/-- A descriptor that is ready gets its events. -/
theorem marked_some {ready : ℕ → Events} (h : ready fd ≠ .empty) (hfde : p.table fd = some fde) :
    marked ready p fd = some { fde with events := fde.events.add (ready fd), pending := true } := by
  rw [marked, hfde, Option.map_some, if_neg h]

/-- The loop marks what is ready among the descriptors it goes through. -/
theorem Consistent.markLoop {ready : ℕ → Events} {is : List ℕ} {n : ℕ} (h : p.Consistent)
    (hnodup : is.Nodup) (hready : ∀ i, ready i ≠ .empty → p.table i ≠ none)
    (hn : n = (is.map fun i => (ready i).count).sum) :
    ∃ p', Pump.markLoop ready is n p = some p' ∧ p'.Consistent ∧
      ∀ fd, p'.table fd = if fd ∈ is then marked ready p fd else p.table fd := by
  induction is generalizing p n with
  | nil => exact ⟨p, rfl, h, fun fd => (if_neg List.not_mem_nil).symm⟩
  | cons i is ih =>
      obtain ⟨hi, hnodup'⟩ := List.nodup_cons.mp hnodup
      rw [List.map_cons, List.sum_cons] at hn
      unfold Pump.markLoop
      split
      · -- nothing is ready any more
        rename_i hzero
        refine ⟨p, rfl, h, fun fd => ?_⟩
        split
        · rename_i hmem
          refine (marked_empty ?_).symm
          rw [hzero] at hn
          have hsum : ((i :: is).map fun i => (ready i).count).sum = 0 := by
            rw [List.map_cons, List.sum_cons, ← hn]
          exact Events.count_eq_zero.mp
            (List.sum_eq_zero_iff.mp hsum _ (List.mem_map_of_mem hmem))
        · rfl
      · split
        · rename_i hempty
          rw [hempty, Events.count_eq_zero.mpr rfl, Nat.zero_add] at hn
          obtain ⟨p', hloop, hp', htable⟩ := ih h hnodup' hready hn
          refine ⟨p', hloop, hp', fun fd => ?_⟩
          rw [htable fd]
          by_cases hfd : fd = i
          · rw [hfd, if_neg hi, if_pos List.mem_cons_self, marked_empty hempty]
          · simp only [List.mem_cons, hfd, false_or]
        · rename_i hevents
          obtain ⟨fde, hfde⟩ := Option.ne_none_iff_exists'.mp (hready i hevents)
          have hmark : (p.mark i fde (ready i)).Consistent := h.mark hfde hevents
          have hother : ∀ fd, fd ≠ i → (p.mark i fde (ready i)).table fd = p.table fd :=
            fun fd hne => put_of_ne p _ hne
          have hready' : ∀ j, ready j ≠ .empty → (p.mark i fde (ready i)).table j ≠ none := by
            intro j hj
            by_cases hji : j = i
            · rw [hji, show (p.mark i fde (ready i)).table i = _ from put_self p i _]
              exact Option.some_ne_none _
            · rw [hother j hji]
              exact hready j hj
          obtain ⟨p', hloop, hp', htable⟩ := ih hmark hnodup' hready'
            (show n - (ready i).count = _ by rw [hn, Nat.add_sub_cancel_left])
          refine ⟨p', by rw [hfde]; exact hloop, hp', fun fd => ?_⟩
          rw [htable fd]
          by_cases hfd : fd = i
          · rw [hfd, if_neg hi, if_pos List.mem_cons_self, marked_some hevents hfde]
            exact put_self p i _
          · simp only [List.mem_cons, hfd, false_or]
            rw [marked, marked, hother fd hfd]

/-- `select` only takes descriptors out of the sets. -/
def Selected.Possible (p : Pump α) : Selected → Prop
  | .ready fds => ∀ fd e, fds fd e = true → p.fds e fd = true
  | .interrupted => True
  | .bad _ => True

/-- The events that a round of `fdevent_process` finds. -/
def Selected.reported (p : Pump α) : Selected → ℕ → Events
  | .ready fds => fds
  | .interrupted => fun _ => .empty
  | .bad closed => p.fdCheck closed

/-- A round of `fdevent_process` marks what `select` reported, and does not die. -/
theorem Consistent.process (h : p.Consistent) {a : Selected} (ha : a.Possible p) :
    ∃ p', p.process a = some p' ∧ p'.Consistent ∧ ∀ fd, p'.table fd = marked (a.reported p) p fd := by
  have hloop : ∀ ready : ℕ → Events, (∀ i, ready i ≠ .empty → p.table i ≠ none) →
      ∃ p', Pump.markLoop ready (List.range p.selectN) (readyCount ready p.selectN) p = some p' ∧
        p'.Consistent ∧ ∀ fd, p'.table fd = marked ready p fd := by
    intro ready hready
    obtain ⟨p', hmark, hp', htable⟩ := h.markLoop List.nodup_range hready rfl
    refine ⟨p', hmark, hp', fun fd => ?_⟩
    rw [htable fd]
    split
    · rfl
    · rename_i hlarge
      -- above the last descriptor nothing is registered
      have hnone : p.table fd = none := by
        by_contra hne
        exact hlarge (List.mem_range.mpr (h.below fd hne))
      rw [marked, hnone]
      rfl
  cases a with
  | ready fds =>
      refine hloop fds fun i hi => ?_
      obtain ⟨e, he⟩ := Events.ne_empty_iff.mp hi
      obtain ⟨fde, hfde, -⟩ := (h.fds_iff e i).mp (ha i e he)
      rw [hfde]
      exact Option.some_ne_none fde
  | interrupted => exact ⟨p, rfl, h, fun fd => (marked_empty rfl).symm⟩
  | bad bad =>
      refine hloop (p.fdCheck bad) fun i hi => ?_
      rw [fdCheck] at hi
      split at hi
      · rename_i hbad
        exact Option.isSome_iff_ne_none.mp hbad.2
      · exact absurd rfl hi

/-- The first `fdevent` of the list is called with its events. -/
theorem Consistent.dispatch (h : p.Consistent) (hlist : p.pendingList = fd :: rest) :
    ∃ p' fde, p.dispatch = some (p', fd, fde.events, fde.arg) ∧ p.table fd = some fde ∧
      fde.events ≠ .empty ∧ p'.Consistent ∧ p'.table fd =
        some { fde with events := .empty, pending := false } ∧
      ∀ fd', fd' ≠ fd → p'.table fd' = p.table fd' := by
  have hmem : fd ∈ p.pendingList := by
    rw [hlist]
    exact List.mem_cons_self
  obtain ⟨fde, hfde, hpending⟩ := (h.mem_iff fd).mp hmem
  have hnodup := h.nodup
  rw [hlist, List.nodup_cons] at hnodup
  refine ⟨{ p.put fd (some { fde with events := .empty, pending := false }) with
    pendingList := rest }, fde, ?_, hfde, (h.pending_iff fd fde hfde).mp hpending, ?_, put_self p fd _,
    fun fd' hne => put_of_ne p _ hne⟩
  · unfold Pump.dispatch
    rw [hlist]
    simp only [hfde]
    rfl
  · refine h.change _ rfl hnodup.2 ?_ ?_ ?_ (fun _ _ _ => rfl) (h.fds_eq hfde rfl)
      (fun fd' _ => h.below fd') (fun _ => h.below fd (by rw [hfde]; exact Option.some_ne_none fde))
    · intro fd' hne
      rw [hlist, List.mem_cons]
      exact (or_iff_right hne).symm
    · refine iff_of_false hnodup.1 ?_
      rintro ⟨_, ⟨⟩, hfalse⟩
      cases hfalse
    · rintro _ ⟨⟩
      exact iff_of_false Bool.false_ne_true fun hne => hne rfl

end Consistent

end Pump

/-! ## Runs -/

/-- What happens to the pump: the calls of its clients, what `select` reports, and the calls it
makes. -/
inductive PumpEvent where
  | installed (fd : ℕ)
  | removed (fd : ℕ)
  | wanted (fd : ℕ) (events : Events)
  | reported (ready : ℕ → Events)
  | called (fd : ℕ) (events : Events)

/-- One of these. A client installs a descriptor that is not in the table: the kernel gives out no
number twice. -/
inductive PumpStep : Pump α → PumpEvent → Pump α → Prop where
  | install {p : Pump α} {fd : ℕ} (hfree : p.table fd = none) (arg : α) :
      PumpStep p (.installed fd) (p.install fd arg)
  | remove {p p' : Pump α} {fd : ℕ} (hremove : p.remove fd = some p') : PumpStep p (.removed fd) p'
  | set {p p' : Pump α} {fd : ℕ} {events : Events} (hset : p.set fd events = some p') :
      PumpStep p (.wanted fd events) p'
  | process {p p' : Pump α} {a : Pump.Selected} (ha : a.Possible p) (hprocess : p.process a = some p') :
      PumpStep p (.reported (a.reported p)) p'
  | call {p p' : Pump α} {fd : ℕ} {events : Events} {arg : α}
      (hdispatch : p.dispatch = some (p', fd, events, arg)) : PumpStep p (.called fd events) p'

/-- Steps from the start of the process on. -/
inductive PumpRun : List PumpEvent → Pump α → Prop where
  | nil : PumpRun [] .initial
  | snoc {es : List PumpEvent} {e : PumpEvent} {p p' : Pump α} (hrun : PumpRun es p)
      (hstep : PumpStep p e p') : PumpRun (es ++ [e]) p'

/-- What was reported for a descriptor since it was installed or its function was called. -/
def unhandled (fd : ℕ) (a : Events) : PumpEvent → Events
  | .installed fd' => if fd' = fd then .empty else a
  | .removed fd' => if fd' = fd then .empty else a
  | .wanted _ _ => a
  | .reported ready => a.add (ready fd)
  | .called fd' _ => if fd' = fd then .empty else a

/-- The same for a list of events. -/
def unhandledAfter (es : List PumpEvent) (fd : ℕ) : Events := es.foldl (unhandled fd) .empty

/-- One event of the pump more. -/
theorem unhandledAfter_concat (es : List PumpEvent) (e : PumpEvent) (fd : ℕ) :
    unhandledAfter (es ++ [e]) fd = unhandled fd (unhandledAfter es fd) e := by
  rw [unhandledAfter, List.foldl_append]
  rfl

namespace Pump

variable {p p' : Pump α} {fd : ℕ} {e : PumpEvent} {events : Events}

/-- Pending events are a part of `a`. -/
def PendingIn (p : Pump α) (a : ℕ → Events) : Prop :=
  ∀ fd fde, p.table fd = some fde → ∀ e, fde.events e = true → a fd e = true

/-- What `fdevent_set` does to its descriptor, and to no other. -/
theorem set_events (hset : p.set fd events = some p') :
    ∃ fde fde', p.table fd = some fde ∧ p'.table fd = some fde' ∧ fde'.want = events ∧
      fde'.arg = fde.arg ∧ (∀ fd', fd' ≠ fd → p'.table fd' = p.table fd') ∧
      fde'.events = if fde.want = events ∨ fde.pending = false then fde.events
        else fde.events.del events := by
  rw [Pump.set] at hset
  obtain ⟨fde, hfde, hp'⟩ := Option.bind_eq_some_iff.mp hset
  split at hp'
  · rename_i hsame
    cases hp'
    exact ⟨fde, fde, hfde, hfde, hsame, rfl, fun _ _ => rfl, (if_pos (.inl hsame)).symm⟩
  · rename_i hnew
    cases hp'
    unfold trimPending
    split
    · rename_i hpending
      have hif : ¬ (fde.want = events ∨ fde.pending = false) := by
        rw [hpending]
        exact not_or.mpr ⟨hnew, Bool.true_eq_false_eq_False⟩
      split
      · rename_i hnone
        exact ⟨fde, _, hfde, put_self _ fd _, rfl, rfl, fun fd' hne => put_of_ne _ _ hne,
          ((if_neg hif).trans hnone).symm⟩
      · exact ⟨fde, _, hfde, put_self _ fd _, rfl, rfl, fun fd' hne => put_of_ne _ _ hne,
          (if_neg hif).symm⟩
    · rename_i hpending
      exact ⟨fde, _, hfde, put_self _ fd _, rfl, rfl, fun fd' hne => put_of_ne _ _ hne,
        (if_pos (.inr (Bool.not_eq_true _ ▸ hpending))).symm⟩

/-- What `fdevent_set` does to the table, for a descriptor that is in it. -/
theorem exists_set {fde : Fde α} (hfde : p.table fd = some fde) (events : Events) :
    ∃ p' fde', p.set fd events = some p' ∧ p'.table = Function.update p.table fd (some fde') ∧
      fde'.want = events ∧ fde'.arg = fde.arg ∧ ∀ e, fde'.events e = true → fde.events e = true := by
  have hsome : ∃ p', p.set fd events = some p' := by
    unfold Pump.set
    rw [hfde]
    by_cases hsame : fde.want = events
    · exact ⟨p, if_pos hsame⟩
    · exact ⟨_, if_neg hsame⟩
  obtain ⟨p', hset⟩ := hsome
  obtain ⟨fde₁, fde', hfde₁, hfde', hwant, harg, hother, hevents⟩ := set_events hset
  obtain rfl : fde₁ = fde := Option.some.inj (hfde₁.symm.trans hfde)
  refine ⟨p', fde', hset, ?_, hwant, harg, ?_⟩
  · funext fd'
    by_cases hfd : fd' = fd
    · rw [hfd, Function.update_self, hfde']
    · rw [Function.update_of_ne hfd, hother fd' hfd]
  · intro e he
    rw [hevents] at he
    split at he
    · exact he
    · exact (Bool.and_eq_true _ _ ▸ he : _ ∧ _).1

/-- `fdevent_add` sets the union. -/
theorem add_eq_set {fde : Fde α} (hfde : p.table fd = some fde) (events : Events) :
    p.add fd events = p.set fd (fde.want.add events) := by
  rw [Pump.add, hfde]
  rfl

/-- `fdevent_del` sets the difference. -/
theorem del_eq_set {fde : Fde α} (hfde : p.table fd = some fde) (events : Events) :
    p.del fd events = p.set fd (fde.want.del events) := by
  rw [Pump.del, hfde]
  rfl

/-- What `fdevent_remove` does to it. -/
theorem exists_remove {fde : Fde α} (hfde : p.table fd = some fde) :
    ∃ p', p.remove fd = some p' ∧ p'.table = Function.update p.table fd none := by
  unfold Pump.remove
  rw [hfde]
  exact ⟨_, rfl, rfl⟩

/-- A pump whose entries are as before but for one that has no new pending event. -/
theorem PendingIn.change {a b : ℕ → Events} (h : p.PendingIn a)
    (hother : ∀ fd', fd' ≠ fd → p'.table fd' = p.table fd' ∧ b fd' = a fd')
    (hself : ∀ fde', p'.table fd = some fde' → ∀ e, fde'.events e = true → b fd e = true) :
    p'.PendingIn b := by
  intro fd' fde hfde e he
  by_cases hfd : fd' = fd
  · subst hfd
    exact hself fde hfde e he
  · obtain ⟨htable, hb⟩ := hother fd' hfd
    rw [htable] at hfde
    rw [hb]
    exact h fd' fde hfde e he

end Pump

/-- A step keeps the pump consistent. -/
theorem PumpStep.consistent {p p' : Pump α} {e : PumpEvent} (hstep : PumpStep p e p')
    (h : p.Consistent) : p'.Consistent := by
  cases hstep with
  | install hfree arg => exact h.install hfree arg
  | remove hremove => exact h.remove hremove
  | set hset => exact h.set hset
  | process ha hprocess =>
      obtain ⟨q, hq, hconsistent, -⟩ := h.process ha
      rw [hq] at hprocess
      cases hprocess
      exact hconsistent
  | call hdispatch =>
      cases hlist : p.pendingList with
      | nil =>
          rw [Pump.dispatch, hlist] at hdispatch
          cases hdispatch
      | cons fd rest =>
          obtain ⟨q, fde, hq, -, -, hconsistent, -⟩ := h.dispatch hlist
          rw [hq] at hdispatch
          cases hdispatch
          exact hconsistent

/-- The pending events are those not handled yet. -/
theorem PumpStep.pendingIn {p p' : Pump α} {e : PumpEvent} {a : ℕ → Events}
    (hstep : PumpStep p e p') (h : p.Consistent) (ha : p.PendingIn a) :
    p'.PendingIn fun fd => unhandled fd (a fd) e := by
  cases hstep with
  | @install fd hfree arg =>
      refine ha.change (fun fd' hne => ⟨p.put_of_ne _ hne, if_neg hne.symm⟩) ?_
      intro fde' hfde' e he
      rw [show (p.install fd arg).table fd = _ from p.put_self fd _] at hfde'
      cases hfde'
      cases he
  | @remove _ fd hremove =>
      rw [Pump.remove] at hremove
      obtain ⟨fde, -, hp'⟩ := Option.bind_eq_some_iff.mp hremove
      cases hp'
      refine ha.change (fun fd' hne => ⟨p.put_of_ne _ hne, if_neg hne.symm⟩) ?_
      intro fde' hfde'
      rw [show (p.put fd none).table fd = none from p.put_self fd _] at hfde'
      cases hfde'
  | @set _ fd events hset =>
      obtain ⟨fde, fde', hfde, hfde', -, -, hother, hevents⟩ := Pump.set_events hset
      refine ha.change (fun fd' hne => ⟨hother fd' hne, rfl⟩) ?_
      intro fde'' hfde'' e he
      rw [hfde'] at hfde''
      cases hfde''
      refine ha fd fde hfde e ?_
      rw [hevents] at he
      split at he
      · exact he
      · rw [Events.del_apply, Bool.and_eq_true] at he
        exact he.1
  | @process _ answer hpossible hprocess =>
      obtain ⟨q, hq, -, htable⟩ := h.process hpossible
      rw [hq] at hprocess
      cases hprocess
      intro fd fde hfde e he
      show (a fd e || answer.reported p fd e) = true
      rw [htable fd] at hfde
      by_cases hready : answer.reported p fd = .empty
      · rw [Pump.marked_empty hready] at hfde
        rw [ha fd fde hfde e he]
        rfl
      · cases hold : p.table fd with
        | none =>
            rw [Pump.marked, hold] at hfde
            cases hfde
        | some old =>
            rw [Pump.marked_some hready hold] at hfde
            cases hfde
            rcases (Bool.or_eq_true _ _).mp he with he | he
            · rw [ha fd old hold e he]
              rfl
            · rw [he, Bool.or_true]
  | @call _ fd events arg hdispatch =>
      cases hlist : p.pendingList with
      | nil =>
          rw [Pump.dispatch, hlist] at hdispatch
          cases hdispatch
      | cons fd rest =>
          obtain ⟨q, fde, hq, -, -, -, hself, hother⟩ := h.dispatch hlist
          rw [hq] at hdispatch
          cases hdispatch
          refine ha.change (fun fd' hne => ⟨hother fd' hne, if_neg hne.symm⟩) ?_
          intro fde' hfde' e he
          rw [hself] at hfde'
          cases hfde'
          cases he

/-- The pump over a whole run. -/
theorem PumpRun.keeps {es : List PumpEvent} {p : Pump α} (h : PumpRun es p) :
    p.Consistent ∧ p.PendingIn (unhandledAfter es) := by
  induction h with
  | nil => exact ⟨Pump.consistent_initial, by rintro _ _ ⟨⟩⟩
  | snoc _ hstep ih =>
      obtain ⟨hconsistent, hpending⟩ := ih
      refine ⟨hstep.consistent hconsistent, ?_⟩
      have h := hstep.pendingIn hconsistent hpending
      simp only [← unhandledAfter_concat] at h
      exact h

/-- After any calls and reports, a round of `fdevent_process` does not die, and if the list is not
empty its first function is called, with events that `select` reported since it was called last. -/
theorem PumpRun.serves {es : List PumpEvent} {p : Pump α} (h : PumpRun es p) :
    p.Consistent ∧
    (∀ a : Pump.Selected, a.Possible p → ∃ p', p.process a = some p') ∧
    (p.pendingList ≠ [] → ∃ p' fd events arg, p.dispatch = some (p', fd, events, arg) ∧
      events ≠ .empty ∧ ∀ e, events e = true → unhandledAfter es fd e = true) := by
  obtain ⟨hconsistent, hpending⟩ := h.keeps
  refine ⟨hconsistent, ?_, ?_⟩
  · intro a ha
    obtain ⟨p', hprocess, -⟩ := hconsistent.process ha
    exact ⟨p', hprocess⟩
  · intro hne
    obtain ⟨fd, rest, hlist⟩ := List.exists_cons_of_ne_nil hne
    obtain ⟨p', fde, hdispatch, hfde, hevents, -⟩ := hconsistent.dispatch hlist
    exact ⟨p', fd, fde.events, fde.arg, hdispatch, hevents, hpending fd fde hfde⟩

/-- A descriptor is installed and watched, and `select` finds it readable. -/
theorem PumpRun.serves_readable : ∃ (es : List PumpEvent) (p : Pump Unit), PumpRun es p ∧
    p.pendingList = [3] ∧ p.Consistent ∧ ∃ p' fd events arg, p.dispatch = some (p', fd, events, arg) ∧
      events ≠ .empty ∧ ∀ e, events e = true → unhandledAfter es fd e = true := by
  have hplay : (((Pump.initial.install 3 ()).set 3 (.only .read)).bind fun p =>
      (p.process (.ready fun fd e => p.fds e fd)).map Pump.pendingList) = some [3] := by decide +kernel
  obtain ⟨p, hset, hprocessed⟩ := Option.bind_eq_some_iff.mp hplay
  obtain ⟨p', hprocess, hlist⟩ := Option.map_eq_some_iff.mp hprocessed
  have hpossible : (Pump.Selected.ready fun fd e => p.fds e fd).Possible p :=
    fun _ _ hwatched => hwatched
  have hrun := ((PumpRun.nil.snoc (.install rfl ())).snoc (.set hset)).snoc
    (.process hpossible hprocess)
  obtain ⟨hconsistent, -, hdispatch⟩ := hrun.serves
  exact ⟨_, p', hrun, hlist, hconsistent, hdispatch (by rw [hlist]; exact List.cons_ne_nil 3 [])⟩

end OpenRecovery.Sideloader
