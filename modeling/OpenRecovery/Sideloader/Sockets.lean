import OpenRecovery.Sideloader.FdEvent
import OpenRecovery.Sideloader.Packet
import OpenRecovery.Storage.CString

/-!
# Sockets of the sideloader

`sideloader/sockets.c` and the packet handler of `sideloader/adb.c`, as they run on the device. An
`asocket` and an `atransport` live at an address; a pointer is an address, and following a pointer
to memory that was freed, or that nobody wrote, is `none`. What `read` and `write` answer is given
to the functions from outside. `sent` is what `send_packet` wrote; for each local socket, `traffic`
are the packets of its connection, `written` the bytes that went into its descriptor, and `readFrom`
those that came out of it. Sockets of services on a host (`smart_socket`) do not occur on the
device.
-/

set_option autoImplicit false

namespace OpenRecovery.Sideloader

open OpenRecovery.Storage

/-- Pointers to an `asocket` or an `atransport`. -/
abbrev Addr := ℕ

/-- What an `fdevent` was installed for. -/
inductive Owner where
  | registration
  | transport (t : Addr)
  | socket (a : Addr)
  deriving DecidableEq

/-- Which functions a socket points to. -/
inductive SocketKind where
  | local
  | remote
  deriving DecidableEq

/-- `asocket`. `pkts` are the unwritten bytes of the packets from `pkt_first` on. -/
structure ASocket where
  kind : SocketKind
  id : Word
  closing : Bool
  peer : Option Addr
  transport : Option Addr
  fd : ℕ
  pkts : List Bytes

/-- `connection_state` of the transport. -/
inductive ConnectionState where
  | offline
  | bootloader
  | device
  | host
  | recovery
  | noperm
  | sideload
  deriving DecidableEq

/-- `atransport`; `socket` is its `transport_socket`. -/
structure Transport where
  connectionState : ConnectionState
  disconnects : List Addr
  socket : ℕ

/-- A packet of a connection: the `OPEN` with the name of its service, and `OKAY` and `WRTE` as they
are sent, and as they come in. -/
inductive Traffic where
  | opened (name : Bytes)
  | okay
  | gave (x : Bytes)
  | granted
  | took (x : Bytes)
  deriving DecidableEq

/-- The variables of the process. -/
structure Daemon where
  heap : Addr → Option ASocket
  transports : Addr → Option Transport
  allocated : Addr
  localSocketNextId : Word
  localSocketList : List Addr
  localSocketClosingList : List Addr
  pump : Pump Owner
  sent : List (Addr × APacket)
  traffic : Addr → List Traffic
  written : Addr → Bytes
  readFrom : Addr → Bytes

namespace Daemon

/-- An assignment to the memory at an address. -/
def store (s : Daemon) (a : Addr) (sk : Option ASocket) : Daemon :=
  { s with heap := Function.update s.heap a sk }

/-- The same for a transport. -/
def storeTransport (s : Daemon) (t : Addr) (tr : Option Transport) : Daemon :=
  { s with transports := Function.update s.transports t tr }

/-- `send_packet`. -/
def send (s : Daemon) (p : APacket) (t : Addr) : Option Daemon := do
  let _ ← s.transports t
  return { s with sent := s.sent ++ [(t, p)] }

/-- `remove_transport_disconnect`. -/
def removeTransportDisconnect (s : Daemon) (t b : Addr) : Option Daemon := do
  let tr ← s.transports t
  return s.storeTransport t (some { tr with disconnects := tr.disconnects.erase b })

/-- A packet of the connection of a local socket. -/
def note (s : Daemon) (a : Addr) (e : Traffic) : Daemon :=
  { s with traffic := Function.update s.traffic a (s.traffic a ++ [e]) }

/-- Bytes that `adb_write` takes for the descriptor of a socket. -/
def putBytes (s : Daemon) (a : Addr) (x : Bytes) : Daemon :=
  { s with written := Function.update s.written a (s.written a ++ x) }

/-- Bytes that `adb_read` gives from it. -/
def gotBytes (s : Daemon) (a : Addr) (x : Bytes) : Daemon :=
  { s with readFrom := Function.update s.readFrom a (s.readFrom a ++ x) }

/-- `find_local_socket`, from some entry of the list on. -/
def findFrom (s : Daemon) (id : Word) : List Addr → Option (Option Addr)
  | [] => some none
  | a :: as => do
      let sk ← s.heap a
      if sk.id = id then return some a else s.findFrom id as

def findLocalSocket (s : Daemon) (id : Word) : Option (Option Addr) :=
  s.findFrom id s.localSocketList

/-- `remove_socket`: from the list it is in. -/
def removeSocket (s : Daemon) (a : Addr) : Daemon :=
  { s with
    localSocketList := s.localSocketList.erase a
    localSocketClosingList := s.localSocketClosingList.erase a }

/-- `fdevent_add` for the descriptor of a socket. -/
def fdeventAdd (s : Daemon) (sk : ASocket) (e : Ev) : Option Daemon := do
  return { s with pump := ← s.pump.add sk.fd (.only e) }

/-- `fdevent_del` for it. -/
def fdeventDel (s : Daemon) (sk : ASocket) (e : Ev) : Option Daemon := do
  return { s with pump := ← s.pump.del sk.fd (.only e) }

/-! ## Closing -/

/-- `local_socket_destroy`: the packets that are queued are lost. -/
def localSocketDestroy (a : Addr) (s : Daemon) : Option Daemon := do
  let sk ← s.heap a
  let pump ← s.pump.remove sk.fd
  return ({ s with pump := pump }.removeSocket a).store a none

/-- The end of `local_socket_close_locked`, for a socket that has no peer any more. -/
def endLocal (a : Addr) (s : Daemon) : Option Daemon := do
  let sk ← s.heap a
  if sk.closing = true ∨ sk.pkts = [] then localSocketDestroy a s
  else do
    let s ← (s.store a (some { sk with closing := true, id := 0 })).fdeventDel sk .read
    let s := s.removeSocket a
    return { s with localSocketClosingList := s.localSocketClosingList ++ [a] }

/-- `local_socket_close_locked`. -/
def localSocketClose (close : Addr → Daemon → Option Daemon) (a : Addr) (s : Daemon) :
    Option Daemon := do
  let sk ← s.heap a
  let s ← match sk.peer with
    | some b => do
        let peer ← s.heap b
        let s ← close b (s.store b (some { peer with peer := none }))
        let sk ← s.heap a
        pure (s.store a (some { sk with peer := none }))
    | none => pure s
  endLocal a s

/-- `remote_socket_close`. -/
def remoteSocketClose (close : Addr → Daemon → Option Daemon) (b : Addr) (s : Daemon) :
    Option Daemon := do
  let sk ← s.heap b
  let (arg0, s) ← match sk.peer with
    | some a => do
        let peer ← s.heap a
        let s ← close a (s.store a (some { peer with peer := none }))
        pure (peer.id, s)
    | none => pure (0, s)
  let t ← sk.transport
  let s ← s.send (.bare aClse arg0 sk.id) t
  let s ← s.removeTransportDisconnect t b
  return s.store b none

/-- `s->close(s)`, with a bound on the nesting of the calls. -/
def close : ℕ → Addr → Daemon → Option Daemon
  | 0, _, _ => none
  | n + 1, a, s => do
      let sk ← s.heap a
      match sk.kind with
      | .local => localSocketClose (close n) a s
      | .remote => remoteSocketClose (close n) a s

/-- The close functions of two halves do not call each other more often. -/
def closeDepth : ℕ := 3

/-- `remote_socket_disconnect`. -/
def remoteSocketDisconnect (b : Addr) (s : Daemon) : Option Daemon := do
  let sk ← s.heap b
  let s ← match sk.peer with
    | some a => do
        let peer ← s.heap a
        close closeDepth a (s.store a (some { peer with peer := none }))
    | none => pure s
  let s ← s.removeTransportDisconnect (← sk.transport) b
  return s.store b none

/-- The entry of a list behind another one. -/
def nextIn (as : List Addr) (a : Addr) : Option Addr := (as.dropWhile (· ≠ a)).tail.head?

/-- The loop of `run_transport_disconnects`. -/
def disconnectLoop (t : Addr) : ℕ → Option Addr → Daemon → Option Daemon
  | _, none, s => some s
  | 0, some _, _ => none
  | n + 1, some b, s => do
      let tr ← s.transports t
      let next := nextIn tr.disconnects b
      let s ← s.remoteSocketDisconnect b
      disconnectLoop t n next s

def runTransportDisconnects (t : Addr) (s : Daemon) : Option Daemon := do
  let tr ← s.transports t
  disconnectLoop t tr.disconnects.length tr.disconnects.head? s

/-- The search of `close_all_sockets`: the first socket that uses the transport, or whose peer does.
-/
def firstOf (t : Addr) (s : Daemon) : List Addr → Option (Option Addr)
  | [] => some none
  | a :: as => do
      let sk ← s.heap a
      if sk.transport = some t then return some a
      else match sk.peer with
        | some b => do
            let peer ← s.heap b
            if peer.transport = some t then return some a else firstOf t s as
        | none => firstOf t s as

/-- `close_all_sockets`, with a bound on its restarts. -/
def closeLoop (t : Addr) : ℕ → Daemon → Option Daemon
  | 0, _ => none
  | n + 1, s => do
      match ← firstOf t s s.localSocketList with
      | none => return s
      | some a => closeLoop t n (← localSocketClose (close closeDepth) a s)

def closeAllSockets (t : Addr) (s : Daemon) : Option Daemon :=
  closeLoop t (s.localSocketList.length + 1) s

/-! ## Data -/

/-- How a call of `write` ends: `n + 1` bytes if there are so many, `EAGAIN`, `EINTR`, or the end of
the file or another error. Behind the answers that are given, every call ends with `EAGAIN`. -/
inductive WriteAnswer where
  | count (n : ℕ)
  | again
  | intr
  | ended

/-- A loop around `adb_write`: the bytes that were written, the ones that are left, whether it
failed, and the answers that it did not need. `local_socket_enqueue` takes `EINTR` for an error. -/
def writeLoop (retry : Bool) : List WriteAnswer → Bytes → Bytes × Bytes × Bool × List WriteAnswer
  | as, [] => ([], [], false, as)
  | [], b :: x => ([], b :: x, false, [])
  | .count n :: as, b :: x =>
      let (w, left, failed, as) := writeLoop retry as (x.drop n)
      (b :: x.take n ++ w, left, failed, as)
  | .again :: as, b :: x => ([], b :: x, false, as)
  | .intr :: as, b :: x =>
      if retry = true then writeLoop retry as (b :: x) else ([], b :: x, true, as)
  | .ended :: as, b :: x => ([], b :: x, true, as)

/-- How a call of `read` ends. -/
inductive ReadAnswer where
  | bytes (b : UInt8) (x : Bytes)
  | again
  | intr
  | ended

/-- The loop around `adb_read`: the bytes for a packet, and `is_eof`. -/
def readLoop : List ReadAnswer → ℕ → Bytes × Bool
  | _, 0 => ([], false)
  | [], _ + 1 => ([], false)
  | .bytes b x :: as, n + 1 =>
      let (y, eof) := readLoop as (n - (x.take n).length)
      (b :: x.take n ++ y, eof)
  | .again :: _, _ + 1 => ([], false)
  | .intr :: as, n + 1 => readLoop as (n + 1)
  | .ended :: _, _ + 1 => ([], true)

theorem length_readLoop (as : List ReadAnswer) (n : ℕ) : (readLoop as n).1.length ≤ n := by
  induction as generalizing n with
  | nil => cases n <;> exact Nat.zero_le _
  | cons r as ih =>
      cases n with
      | zero => exact Nat.le_refl 0
      | succ n =>
          cases r with
          | bytes b x =>
              have hlen := ih (n - (x.take n).length)
              have htake := List.length_take_le n x
              show (b :: x.take n ++ (readLoop as (n - (x.take n).length)).1).length ≤ n + 1
              rw [List.cons_append, List.length_cons, List.length_append]
              omega
          | again => exact Nat.zero_le _
          | intr => exact ih (n + 1)
          | ended => exact Nat.zero_le _

/-- The end of `local_socket_enqueue`, where the packet is queued. -/
def queuePacket (a : Addr) (x : Bytes) (s : Daemon) : Option Daemon := do
  let sk ← s.heap a
  (s.store a (some { sk with pkts := sk.pkts ++ [x] })).fdeventAdd sk .write

/-- `local_socket_enqueue`, and whether it is ready for more data. -/
def localSocketEnqueue (as : List WriteAnswer) (a : Addr) (x : Bytes) (s : Daemon) :
    Option (Daemon × Bool) := do
  let sk ← s.heap a
  let s := s.note a (.took x)
  if sk.pkts ≠ [] then return (← queuePacket a x s, false)
  else do
    let (w, left, failed, _) := writeLoop false as x
    let s := s.putBytes a w
    if failed = true then return (← close closeDepth a s, false)
    else if left = [] then return (s, true)
    else return (← queuePacket a left s, false)

/-- `remote_socket_enqueue`. -/
def remoteSocketEnqueue (b : Addr) (p : APacket) (s : Daemon) : Option Daemon := do
  let sk ← s.heap b
  let a ← sk.peer
  let peer ← s.heap a
  let s ← s.send { p with command := aWrte, arg0 := peer.id, arg1 := sk.id } (← sk.transport)
  return s.note a (.gave p.data)

/-- `s->ready(s)`. -/
def ready (a : Addr) (s : Daemon) : Option Daemon := do
  let sk ← s.heap a
  match sk.kind with
  | .local => (s.note a .granted).fdeventAdd sk .read
  | .remote => do
      let b ← sk.peer
      let peer ← s.heap b
      let s ← s.send (.bare aOkay peer.id sk.id) (← sk.transport)
      return s.note b .okay

/-- How the loop over the queue ends. -/
inductive Flush where
  | drained
  | blocked
  | failed
  deriving DecidableEq

/-- The loop over the queue in `local_socket_event_func`. -/
def flush : List WriteAnswer → List Bytes → Bytes × List Bytes × Flush
  | _, [] => ([], [], .drained)
  | as, x :: q =>
      let (w, left, failed, as) := writeLoop true as x
      if failed = true then (w, left :: q, .failed)
      else if left = [] then
        let (w', q, e) := flush as q
        (w ++ w', q, e)
      else (w, left :: q, .blocked)

/-- What `local_socket_event_func` does after it, and whether it goes on. -/
def afterFlush (a : Addr) (sk : ASocket) (s : Daemon) : Flush → Option (Daemon × Bool)
  | .blocked => return (s, false)
  | .failed => return (← close closeDepth a s, false)
  | .drained =>
      if sk.closing = true then return (← close closeDepth a s, false)
      else do
        let s ← s.fdeventDel sk .write
        return (← ready (← sk.peer) s, true)

/-- The `FDE_WRITE` part of `local_socket_event_func`. -/
def writeEvent (as : List WriteAnswer) (a : Addr) (s : Daemon) : Option (Daemon × Bool) := do
  let sk ← s.heap a
  let (w, q, e) := flush as sk.pkts
  afterFlush a sk ((s.putBytes a w).store a (some { sk with pkts := q })) e

/-- Handing a packet to the peer, which takes no more after it. A local socket is no peer of one. -/
def enqueueToPeer (a : Addr) (x : Bytes) (hx : x.length ≤ maxPayload) (s : Daemon) : Option Daemon := do
  let sk ← s.heap a
  match sk.peer with
  | none => return s
  | some b => do
      let peer ← s.heap b
      match peer.kind with
      | .local => none
      | .remote => do
          let s ← remoteSocketEnqueue b ⟨0, 0, 0, x, hx⟩ s
          s.fdeventDel sk .read

/-- The `FDE_READ` part of `local_socket_event_func`. -/
def readEvent (as : List ReadAnswer) (a : Addr) (s : Daemon) : Option Daemon := do
  let x := (readLoop as maxPayload).1
  let s := s.gotBytes a x
  let s ← if x = [] then pure s else enqueueToPeer a x (length_readLoop as maxPayload) s
  if (readLoop as maxPayload).2 = true then close closeDepth a s else return s

/-- `local_socket_event_func`. -/
def localSocketEvent (ws : List WriteAnswer) (rs : List ReadAnswer) (events : Events) (a : Addr)
    (s : Daemon) : Option Daemon := do
  let (s, more) ← if events .write = true then writeEvent ws a s else pure (s, true)
  if more = true ∧ events .read = true then readEvent rs a s else return s

/-! ## Opening -/

/-- `create_local_socket`. -/
def createLocalSocket (fd : ℕ) (s : Daemon) : Daemon :=
  { s.store s.allocated (some ⟨.local, s.localSocketNextId, false, none, none, fd, []⟩) with
    allocated := s.allocated + 1
    localSocketNextId := s.localSocketNextId + 1
    localSocketList := s.localSocketList ++ [s.allocated]
    pump := s.pump.install fd (.socket s.allocated) }

/-- `create_remote_socket`. -/
def createRemoteSocket (id : Word) (t : Addr) (s : Daemon) : Option Daemon := do
  let b := s.allocated
  let tr ← s.transports t
  let s := s.storeTransport t (some { tr with disconnects := tr.disconnects ++ [b] })
  return { s.store b (some ⟨.remote, id, false, none, some t, 0, []⟩) with allocated := b + 1 }

/-- `s->peer = create_remote_socket(id, t); s->peer->peer = s;`. -/
def connectRemote (id : Word) (t a : Addr) (s : Daemon) : Option Daemon := do
  let b := s.allocated
  let s ← createRemoteSocket id t s
  let sk ← s.heap a
  let s := s.store a (some { sk with peer := some b })
  let rk ← s.heap b
  return s.store b (some { rk with peer := some a })

/-- The services of `service_to_fd`: the number in the name. -/
def serviceCount (name : Bytes) : Option Word :=
  if cstr "sideload:" <+: name then some (BitVec.ofInt 32 (strtol 32 (name.drop 9)).1) else none

/-- The name in an `A_OPEN` packet; its last byte is overwritten by a NUL. -/
def openName (data : Bytes) : Bytes := cText data.dropLast

/-- What `handle_packet` does for `A_OPEN`. `fd` is the descriptor of the service, if it could be
started. -/
def handleOpen (fd : Option ℕ) (p : APacket) (t : Addr) (s : Daemon) : Option Daemon :=
  match (serviceCount (openName p.data)).bind fun _ => fd with
  | none => s.send (.bare aClse 0 p.arg0) t
  | some fd => do
      let a := s.allocated
      let s ← connectRemote p.arg0 t a (createLocalSocket fd s)
      let sk ← s.heap a
      let peer ← s.heap (← sk.peer)
      let s ← (s.note a (.opened (openName p.data))).send (.bare aOkay sk.id peer.id) t
      ready a (s.note a .okay)

/-- `parse_banner` comes to an end within the packet: at a NUL, or at the second colon, over which
it writes one. -/
def BannerEnds (data : Bytes) : Prop := 0 ∈ data ∨ 2 ≤ data.count 58

instance (data : Bytes) : Decidable (BannerEnds data) :=
  inferInstanceAs (Decidable (0 ∈ data ∨ 2 ≤ data.count 58))

/-- The `type` of a banner, up to its first colon. A banner without an end is read on behind the
bytes of the packet. -/
def bannerType (data : Bytes) : Option Bytes :=
  if BannerEnds data then some ((cText data).takeWhile (· ≠ 58)) else none

/-- `parse_banner`, for the state. -/
def parseBanner (data : Bytes) : Option ConnectionState := do
  let type ← bannerType data
  if type = cstr "bootloader" then return .bootloader
  else if type = cstr "device" then return .device
  else if type = cstr "recovery" then return .recovery
  else if type = cstr "sideload" then return .sideload
  else return .host

theorem connectFits : (cstr "sideload::" ++ [0]).length ≤ maxPayload := by decide

/-- `send_connect`. -/
def sendConnect (t : Addr) (s : Daemon) : Option Daemon :=
  s.send ⟨aCnxn, aVersion, BitVec.ofNat 32 maxPayload, cstr "sideload::" ++ [0], connectFits⟩ t

/-- `t->connection_state = state`. -/
def setState (t : Addr) (state : ConnectionState) (s : Daemon) : Option Daemon := do
  let tr ← s.transports t
  return s.storeTransport t (some { tr with connectionState := state })

/-- Taking a transport offline. -/
def goOffline (t : Addr) (s : Daemon) : Option Daemon := do
  runTransportDisconnects t (← setState t .offline s)

/-- `handle_packet`. -/
def handlePacket (fd : Option ℕ) (as : List WriteAnswer) (p : APacket) (t : Addr) (s : Daemon) :
    Option Daemon := do
  let tr ← s.transports t
  if p.command = aSync then
    if p.arg0 ≠ 0 then s.send p t
    else (← goOffline t s).send p t
  else if p.command = aCnxn then do
    let s ← if tr.connectionState ≠ .offline then goOffline t s else pure s
    let state ← parseBanner p.data
    let s ← setState t state s
    sendConnect t s
  else if tr.connectionState = .offline then return s
  else if p.command = aOpen then handleOpen fd p t s
  else if p.command = aOkay then do
    match ← s.findLocalSocket p.arg1 with
    | none => return s
    | some a => do
        let sk ← s.heap a
        let s ← if sk.peer = none then connectRemote p.arg0 t a s else pure s
        ready a s
  else if p.command = aClse then do
    match ← s.findLocalSocket p.arg1 with
    | none => return s
    | some a => close closeDepth a s
  else if p.command = aWrte then do
    match ← s.findLocalSocket p.arg1 with
    | none => return s
    | some a => do
        let (s, more) ← localSocketEnqueue as a p.data s
        if more = true then do
          let sk ← s.heap a
          let s ← s.send (.bare aOkay sk.id p.arg0) t
          return s.note a .okay
        else return s
  else return s

/-! ## Transports -/

/-- `transport_registration_func` for a new transport, with its end of the new pair of sockets. -/
def registerTransport (fd : ℕ) (s : Daemon) : Option Daemon := do
  let t := s.allocated
  let s := { s.storeTransport t (some ⟨.offline, [], fd⟩) with
    allocated := t + 1
    pump := s.pump.install fd (.transport t) }
  return { s with pump := ← s.pump.set fd (.only .read) }

/-- The same for a transport that goes. -/
def unregisterTransport (t : Addr) (s : Daemon) : Option Daemon := do
  let tr ← s.transports t
  let s ← runTransportDisconnects t { s with pump := ← s.pump.remove tr.socket }
  return s.storeTransport t none

/-! ## The loop -/

/-- A message at the registration socket: `action` is 1 or 0. -/
inductive TMsg where
  | register (fd : ℕ)
  | remove (t : Addr)

/-- What a function that the pump calls finds outside: the answers of `write` and `read`, the packet
of `read_packet`, the descriptor of a service, and the message of `transport_read_action`. -/
structure Outside where
  writes : List WriteAnswer
  reads : List ReadAnswer
  packet : Option APacket
  service : Option ℕ
  message : TMsg

/-- The function of an `fdevent`: `local_socket_event_func`, `transport_socket_events` or
`transport_registration_func`. -/
def callback (o : Outside) (events : Events) : Owner → Daemon → Option Daemon
  | .socket a, s => localSocketEvent o.writes o.reads events a s
  | .transport t, s =>
      if events .read = true then
        match o.packet with
        | some p => handlePacket o.service o.writes p t s
        | none => some s
      else some s
  | .registration, s =>
      if events .read = true then
        match o.message with
        | .register fd => registerTransport fd s
        | .remove t => unregisterTransport t s
      else some s

/-- What happens: a round of `fdevent_process`, a call of the first pending `fdevent`, or
`close_all_sockets` in the input thread of a transport. -/
inductive Action where
  | wait (answer : Pump.Selected)
  | call (o : Outside)
  | closeAll (t : Addr)

def step (s : Daemon) : Action → Option Daemon
  | .wait answer => do return { s with pump := ← s.pump.process answer }
  | .call o =>
      if s.pump.pendingList = [] then some s
      else do
        let (pump, _, events, owner) ← s.pump.dispatch
        callback o events owner { s with pump := pump }
  | .closeAll t => closeAllSockets t s

/-- `main`, before the loop: the registration socket is in the pump. -/
def start (fd : ℕ) : Option Daemon := do
  let pump ← (Pump.initial.install fd Owner.registration).set fd (.only .read)
  return {
    heap := fun _ => none
    transports := fun _ => none
    allocated := 0
    localSocketNextId := 1
    localSocketList := []
    localSocketClosingList := []
    pump := pump
    sent := []
    traffic := fun _ => []
    written := fun _ => []
    readFrom := fun _ => [] }

end Daemon

end OpenRecovery.Sideloader
