import Mathlib.Data.List.TakeWhile
import Mathlib.Logic.Relation
import OpenRecovery.Storage.Bytes

/-!
# Interactive requests of shell scripts

`imenu` and `iinput` (`interactive/imenu.c`, `interactive/iinput.c`) put a request into a shared
`interactive_struct`, set `in_trigger` and wait for `out_trigger`; the loop of `run_shell_script`
serves it. Both sides are lists of writes to the shared memory, which may interleave: `Step` is one
step of either side.

The memory is that of a new node, all zero. A write to `items[20]` hits `reply`, which follows it in
the struct, and one to `items[21]` is behind the struct; `outside` records that there was one.
-/

set_option autoImplicit false

namespace OpenRecovery.Interactive

open OpenRecovery.Storage

/-- `interactive_struct`; `header`, `reply` and the 20 items have 50 bytes each. -/
structure Shm where
  inTrigger : Int
  outTrigger : Int
  header : Bytes
  items : List Bytes
  reply : Bytes

/-- A new node after `ftruncate`. -/
def Shm.fresh : Shm :=
  ⟨0, 0, List.replicate 50 0, List.replicate 20 (List.replicate 50 0), List.replicate 50 0⟩

def strncpy (dst src : Bytes) (n : Nat) : Bytes :=
  src.take n ++ List.replicate (n - src.length) 0 ++ dst.drop n

/-- `field[0] = '\0'`. -/
def clear (field : Bytes) : Bytes := field.set 0 0

/-- The string in a field. -/
def text (field : Bytes) : Bytes := field.takeWhile (· ≠ 0)

/-- The statements that write to the shared memory. -/
inductive Write where
  | header (s : Bytes)
  | clearHeader
  | item (i : Nat) (s : Bytes)
  | clearItem (i : Nat)
  | reply (s : Bytes)
  | clearReply
  | inTrigger (v : Int)
  | outTrigger (v : Int)

def Write.apply (m : Shm) : Write → Shm
  | .header s => { m with header := strncpy m.header s 49 }
  | .clearHeader => { m with header := clear m.header }
  | .item i s => { m with items := m.items.modify i fun field => strncpy field s 49 }
  | .clearItem i =>
      -- `items[20]` is `reply`; what is behind the struct is not kept
      if i = 20 then { m with reply := clear m.reply }
      else { m with items := m.items.modify i clear }
  | .reply s => { m with reply := strncpy m.reply s 49 }
  | .clearReply => { m with reply := clear m.reply }
  | .inTrigger v => { m with inTrigger := v }
  | .outTrigger v => { m with outTrigger := v }

/-- Does the statement index `items` outside its 20 fields? -/
def Write.isOutside : Write → Bool
  | .item i _ => 20 ≤ i
  | .clearItem i => 20 ≤ i
  | _ => false

def applyAll (ws : List Write) (m : Shm) : Shm := ws.foldl Write.apply m

theorem applyAll_append (ws ws' : List Write) (m : Shm) :
    applyAll (ws ++ ws') m = applyAll ws' (applyAll ws m) := List.foldl_append

/-! ## The requests -/

/-- The arguments of an `imenu` call: a header and 1 to 19 strings of 1 to 49 bytes. -/
structure MenuCall where
  header : Bytes
  items : List Bytes
  pos : 1 ≤ items.length
  le : items.length ≤ 19
  nonempty : ∀ s ∈ items, s ≠ []
  short : ∀ s ∈ items, s.length ≤ 49
  isString : ∀ s ∈ items, 0 ∉ s

inductive Call where
  | imenu (c : MenuCall)
  | iinput (header : Bytes)

/-- `strncpy(interactive->items[c-2], argv[c], 49)` for the strings `ss`, from item `i` on. -/
def itemWrites : Nat → List Bytes → List Write
  | _, [] => []
  | i, s :: ss => .item i s :: itemWrites (i + 1) ss

/-- `INTERACTIVE_TRIGGER_MENU` and `INTERACTIVE_TRIGGER_TEXT`. -/
def triggerMenu : Int := 1

def triggerText : Int := 2

/-- The writes of `main` up to the wait. The loop of `imenu` leaves `c` at `argc` or at 21. -/
def Call.writes : Call → List Write
  | .imenu c =>
      .header c.header :: itemWrites 0 (c.items.take 19) ++
        -- the terminator goes to item `c`, not to item `c - 2`
        [.clearItem (min (c.items.length + 2) 21), .outTrigger 0, .inTrigger triggerMenu]
  | .iinput header =>
      [.header header, .clearReply, .clearItem 0, .outTrigger 0, .inTrigger triggerText]

/-! ## The two sides -/

inductive Client where
  | idle
  | writing (c : Call) (ws : List Write)
  | waiting (c : Call)

inductive Server where
  | polling
  | menu (shown : List Bytes)
  | typing
  | writing (ws : List Write)

/-- What can be seen from outside. -/
inductive Event where
  | started (c : Call)
  | shown (items : List Bytes)
  | chose (k : Nat)
  | typed (s : Bytes)
  | printed (v : Int)
  | printedReply (s : Bytes)

/-- The two sides, the calls still to be made, and what was seen so far. -/
structure State where
  mem : Shm
  client : Client
  server : Server
  calls : List Call
  log : List Event
  outside : Bool

def State.init (calls : List Call) : State := ⟨.fresh, .idle, .polling, calls, [], false⟩

/-- `interactive->items[i][0]` is set. -/
def isSet (field : Bytes) : Bool := field.head? ≠ some 0

/-- The items up to the first empty one. -/
def shownItems (m : Shm) : List Bytes := (m.items.takeWhile isSet).map text

/-- The loop over the items has run past the last one. -/
def scansOutside (m : Shm) : Bool := m.items.all isSet

/-- What the server writes after a choice, after some text, and when there is no keyboard. -/
def menuReply (k : Nat) : List Write :=
  [.clearHeader, .clearItem 0, .clearReply, .inTrigger 0, .outTrigger (k + 1)]

def textReply (s : Bytes) : List Write :=
  [.clearHeader, .clearItem 0, .reply s, .inTrigger 0, .outTrigger 1]

def defaultReply : List Write :=
  [.clearHeader, .clearItem 0, .clearReply, .inTrigger 0, .outTrigger 1]

/-- What the client prints at the end. -/
def Call.output (m : Shm) : Call → Event
  | .imenu _ => .printed (m.outTrigger - 1)
  | .iinput _ => .printedReply (text m.reply)

/-- The client goes on with its writes, or waits. -/
def Client.next (c : Call) : List Write → Client
  | [] => .waiting c
  | ws => .writing c ws

def Server.next : List Write → Server
  | [] => .polling
  | ws => .writing ws

/-- One step of the client or of the server; the user chooses one of the items shown, and types up
to 32 characters. -/
inductive Step (hasQwerty : Bool) : State → State → Prop where
  | start {m : Shm} {sv : Server} {c : Call} {cs : List Call} {log : List Event} {o : Bool} :
      Step hasQwerty ⟨m, .idle, sv, c :: cs, log, o⟩
        ⟨m, .writing c c.writes, sv, cs, log ++ [.started c], o⟩
  | clientWrite {m : Shm} {sv : Server} {c : Call} {w : Write} {ws : List Write} {cs : List Call}
      {log : List Event} {o : Bool} :
      Step hasQwerty ⟨m, .writing c (w :: ws), sv, cs, log, o⟩
        ⟨w.apply m, .next c ws, sv, cs, log, o || w.isOutside⟩
  | clientRead {m : Shm} {sv : Server} {c : Call} {cs : List Call} {log : List Event} {o : Bool} :
      m.outTrigger ≠ 0 →
      -- the trigger is not reset here; the next call does it before its own
      Step hasQwerty ⟨m, .waiting c, sv, cs, log, o⟩ ⟨m, .idle, sv, cs, log ++ [c.output m], o⟩
  | serverMenu {m : Shm} {cl : Client} {cs : List Call} {log : List Event} {o : Bool} :
      m.inTrigger = triggerMenu →
      Step hasQwerty ⟨m, cl, .polling, cs, log, o⟩
        -- the items are read once, before anything is chosen
        ⟨m, cl, .menu (shownItems m), cs, log ++ [.shown (shownItems m)], o || scansOutside m⟩
  | serverChoose {m : Shm} {cl : Client} {shown : List Bytes} {k : Nat} {cs : List Call}
      {log : List Event} {o : Bool} :
      k < shown.length →
      Step hasQwerty ⟨m, cl, .menu shown, cs, log, o⟩
        ⟨m, cl, .writing (menuReply k), cs, log ++ [.chose k], o⟩
  | serverText {m : Shm} {cl : Client} {cs : List Call} {log : List Event} {o : Bool} :
      m.inTrigger = triggerText → hasQwerty = true →
      Step hasQwerty ⟨m, cl, .polling, cs, log, o⟩ ⟨m, cl, .typing, cs, log, o⟩
  | serverType {m : Shm} {cl : Client} {s : Bytes} {cs : List Call} {log : List Event} {o : Bool} :
      s.length ≤ 32 → 0 ∉ s →
      Step hasQwerty ⟨m, cl, .typing, cs, log, o⟩
        ⟨m, cl, .writing (textReply s), cs, log ++ [.typed s], o⟩
  | serverDefault {m : Shm} {cl : Client} {cs : List Call} {log : List Event} {o : Bool} :
      m.inTrigger ≠ 0 → m.inTrigger ≠ triggerMenu →
      -- any other request, or text without a keyboard
      ¬ (m.inTrigger = triggerText ∧ hasQwerty = true) →
      Step hasQwerty ⟨m, cl, .polling, cs, log, o⟩ ⟨m, cl, .writing defaultReply, cs, log, o⟩
  | serverWrite {m : Shm} {cl : Client} {w : Write} {ws : List Write} {cs : List Call}
      {log : List Event} {o : Bool} :
      Step hasQwerty ⟨m, cl, .writing (w :: ws), cs, log, o⟩
        ⟨w.apply m, cl, .next ws, cs, log, o || w.isOutside⟩

/-- Any number of steps from the start of a session. -/
def Reachable (hasQwerty : Bool) (calls : List Call) (s : State) : Prop :=
  Relation.ReflTransGen (Step hasQwerty) (State.init calls) s

end OpenRecovery.Interactive
