import OpenRecovery.Sideloader.SocketInvariant

/-!
# Packets and bytes of a socket

What `local_socket_enqueue` and `local_socket_event_func` do in a well-formed state. They keep it
so, and they keep the stream of a socket in order (`Streams`): what came in packets is what went
into the descriptor followed by what is queued, as long as the socket is there, and when it is gone
what went into the descriptor is the first part of what came.
-/

set_option autoImplicit false

namespace OpenRecovery.Sideloader

open OpenRecovery.Storage

namespace Daemon

variable {g : Option Addr}

/-! ## The loops -/

/-- The bytes that a loop around `adb_write` has written and the ones it has left are the ones it
was given, and it has not failed when none are left. -/
theorem writeLoop_spec (retry : Bool) (as : List WriteAnswer) (x : Bytes) :
    (writeLoop retry as x).1 ++ (writeLoop retry as x).2.1 = x ∧
      ((writeLoop retry as x).2.2.1 = true → (writeLoop retry as x).2.1 ≠ []) := by
  induction as generalizing x with
  | nil =>
      cases x with
      | nil => exact ⟨rfl, by rintro ⟨⟩⟩
      | cons b x => exact ⟨rfl, by rintro ⟨⟩⟩
  | cons r as ih =>
      cases x with
      | nil =>
          rw [writeLoop]
          exact ⟨rfl, by rintro ⟨⟩⟩
      | cons b x =>
          cases r with
          | count n =>
              obtain ⟨hall, hfailed⟩ := ih (x.drop n)
              refine ⟨?_, hfailed⟩
              show (b :: x.take n ++ (writeLoop retry as (x.drop n)).1) ++
                (writeLoop retry as (x.drop n)).2.1 = b :: x
              rw [List.append_assoc, hall, List.cons_append, List.take_append_drop]
          | again => exact ⟨rfl, by rintro ⟨⟩⟩
          | intr =>
              rw [writeLoop]
              split
              · exact ih (b :: x)
              · exact ⟨rfl, fun _ => List.cons_ne_nil b x⟩
          | ended => exact ⟨rfl, fun _ => List.cons_ne_nil b x⟩

/-- The same for the loop over the queue: it stops with an empty one or with a packet that is not
empty. -/
theorem flush_spec (as : List WriteAnswer) (q : List Bytes) :
    (flush as q).1 ++ (flush as q).2.1.flatten = q.flatten ∧
      ((flush as q).2.2 = .drained ↔ (flush as q).2.1 = []) := by
  induction q generalizing as with
  | nil => exact ⟨rfl, iff_of_true rfl rfl⟩
  | cons x q ih =>
      obtain ⟨hall, hfailed⟩ := writeLoop_spec true as x
      rcases hloop : writeLoop true as x with ⟨w, left, failed, as'⟩
      rw [hloop] at hall hfailed
      rw [flush, hloop]
      dsimp only at hall hfailed ⊢
      split
      · refine ⟨?_, iff_of_false (by rintro ⟨⟩) (List.cons_ne_nil left q)⟩
        rw [List.flatten_cons, ← List.append_assoc, hall, List.flatten_cons]
      · split
        · rename_i hleft
          obtain ⟨hrest, hdrained⟩ := ih as'
          refine ⟨?_, hdrained⟩
          rw [List.append_assoc, hrest, List.flatten_cons, ← hall, hleft, List.append_nil]
        · refine ⟨?_, iff_of_false (by rintro ⟨⟩) (List.cons_ne_nil left q)⟩
          rw [List.flatten_cons, ← List.append_assoc, hall, List.flatten_cons]

/-! ## What a state keeps -/

/-- The bytes that came in. -/
def taken (es : List Traffic) : Bytes :=
  es.flatMap fun e => if let .took x := e then x else []

/-- The bytes that went out. -/
def given (es : List Traffic) : Bytes :=
  es.flatMap fun e => if let .gave x := e then x else []

/-- How many packets of data came in. -/
def tooks (es : List Traffic) : ℕ := es.countP fun e => if let .took _ := e then true else false

def okays (es : List Traffic) : ℕ := es.count .okay

/-- Whether the other side has asked for data since the last packet that went out. -/
def mayGive (es : List Traffic) : Bool :=
  es.foldl (fun may e => match e with | .granted => true | .gave _ => false | _ => may) false

/-- What holds of the packets of a connection and the bytes at its descriptor, at any time. An
`OKAY` after the first one answers some packet, and no packet of data goes out that was not asked
for. -/
structure InOrder (es : List Traffic) (written readFrom : Bytes) : Prop where
  wrote : written <+: taken es
  sentOut : given es <+: readFrom
  okay : ∀ front rest, es = front ++ .okay :: rest → okays front ≤ tooks front
  gave : ∀ front x rest, es = front ++ .gave x :: rest → mayGive front = true

/-- What holds of a local socket that is there: what came in has been written or is queued, and
there is no `OKAY` for what is queued. -/
structure Current (sk : ASocket) (es : List Traffic) (written : Bytes) : Prop where
  queued : taken es = written ++ sk.pkts.flatten
  okay : okays es + sk.pkts.length ≤ tooks es + 1

/-- What holds of a socket that has a peer: what was read has gone out, and it waits for more as
long as the other side has asked for it. -/
structure Granted (fde : Fde Owner) (es : List Traffic) (readFrom : Bytes) : Prop where
  sentOut : given es = readFrom
  want : fde.want .read = mayGive es
  pending : fde.events .read = true → fde.want .read = true

/-- The streams of all sockets. -/
structure Streams (s : Daemon) : Prop where
  inOrder : ∀ a, InOrder (s.traffic a) (s.written a) (s.readFrom a)
  current : ∀ a sk, s.heap a = some sk → sk.kind = .local → Current sk (s.traffic a) (s.written a)
  granted : ∀ a id b fd pkts, s.heap a = some (connectedSocket id b fd pkts) →
    ∃ fde, s.pump.table fd = some fde ∧ Granted fde (s.traffic a) (s.readFrom a)
  fresh : ∀ a, s.allocated ≤ a → s.traffic a = [] ∧ s.readFrom a = []

structure Sound (s : Daemon) (g : Option Addr) : Prop where
  wellFormed : s.WellFormed g
  streams : s.Streams

section Sound

variable {s s' : Daemon} {a b c t : Addr} {id rid : Word} {fd : ℕ} {pkts q : List Bytes} {x : Bytes}
  {p : Pump Owner}

theorem Streams.shrinks (h : s.Streams) (hs : Shrinks s s') : s'.Streams := by
  refine ⟨?_, ?_, ?_, ?_⟩
  · rw [hs.traffic, hs.written, hs.readFrom]
    exact h.inOrder
  · intro c sk hc hkind
    rw [hs.traffic, hs.written]
    rcases hs.heap c sk hc with hold | ⟨id, b, fd, pkts, hold, rfl⟩
    · exact h.current c sk hold hkind
    · obtain ⟨htaken, hokay⟩ := h.current c (connectedSocket id b fd pkts) hold rfl
      exact ⟨htaken, hokay⟩
  · intro c id b fd pkts hc
    rw [hs.table c id b fd pkts hc, hs.traffic, hs.readFrom]
    exact h.granted c id b fd pkts (hs.connected hc)
  · rw [hs.allocated, hs.traffic, hs.readFrom]
    exact h.fresh

theorem Sound.ended (h : s.Sound g) (e : Ended s s' a b t fd pkts)
    (ha : s.heap a = some (connectedSocket id b fd pkts))
    (hb : s.heap b = some (remoteSocket rid a t)) : s'.Sound g :=
  ⟨e.wellFormed h.wellFormed ha hb, h.streams.shrinks (e.shrinks h.wellFormed.watched ha)⟩

theorem Placed.congr {sk : ASocket} (h : s.Placed c sk) (hheap : s'.heap = s.heap)
    (htransports : s'.transports = s.transports) (hlist : s'.localSocketList = s.localSocketList)
    (hclosing : s'.localSocketClosingList = s.localSocketClosingList) : s'.Placed c sk := by
  cases h with
  | connected hpeer hmem => exact .connected (hheap ▸ hpeer) (hlist ▸ hmem)
  | closing hpkts hmem => exact .closing hpkts (hclosing ▸ hmem)
  | remote hpeer htransport hmem => exact .remote (hheap ▸ hpeer) (htransports ▸ htransport) hmem

/-- The logs do not count. -/
theorem WellFormed.congr (h : s.WellFormed g) (hheap : s'.heap = s.heap)
    (htransports : s'.transports = s.transports) (hlist : s'.localSocketList = s.localSocketList)
    (hclosing : s'.localSocketClosingList = s.localSocketClosingList)
    (hallocated : s'.allocated = s.allocated) (hpump : s'.pump = s.pump) : s'.WellFormed g := by
  obtain ⟨hlinked, hwatched⟩ := h
  refine ⟨⟨?_, ?_, ?_, ?_, ?_, ?_, ?_, ?_⟩, ⟨?_, ?_, ?_, ?_, ?_⟩⟩
  · intro c sk hc
    exact (hlinked.placed c sk (hheap ▸ hc)).congr hheap htransports hlist hclosing
  · rw [hheap, hlist]
    exact hlinked.connected
  · rw [hheap, hclosing]
    exact hlinked.closing
  · rw [hheap, htransports]
    exact hlinked.remote
  · rw [hlist]
    exact hlinked.listNodup
  · rw [hclosing]
    exact hlinked.closingNodup
  · rw [htransports]
    exact hlinked.disconnectsNodup
  · rw [hheap, htransports, hallocated]
    exact hlinked.fresh
  · rw [hpump]
    exact hwatched.consistent
  · rw [hheap, hpump]
    exact hwatched.socket
  · rw [hheap, hpump]
    exact hwatched.owner
  · rw [htransports, hpump]
    exact hwatched.transport
  · rw [htransports, hpump]
    exact hwatched.transportOwner

/-- Another queue of a local socket. -/
theorem Linked.requeue (h : s.Linked) {sk : ASocket} (ha : s.heap a = some sk) (hkind : sk.kind = .local)
    (hq : sk.closing = true → q ≠ []) : (s.store a (some { sk with pkts := q })).Linked := by
  have hold : ∀ c sk', (s.store a (some { sk with pkts := q })).heap c = some sk' →
      c = a ∧ sk' = { sk with pkts := q } ∨ c ≠ a ∧ s.heap c = some sk' := by
    intro c sk' hc
    by_cases hca : c = a
    · subst hca
      rw [store_self] at hc
      exact .inl ⟨rfl, (Option.some.inj hc).symm⟩
    · rw [store_of_ne s _ hca] at hc
      exact .inr ⟨hca, hc⟩
  have hremote : ∀ c rid' a' t', s.heap c = some (remoteSocket rid' a' t') →
      (s.store a (some { sk with pkts := q })).heap c = some (remoteSocket rid' a' t') := by
    intro c rid' a' t' hc
    have hca : c ≠ a := by
      rintro rfl
      rw [ha] at hc
      cases hc
      cases hkind
    rw [store_of_ne s _ hca, hc]
  have hconnected : ∀ c id' b' fd' pkts', s.heap c = some (connectedSocket id' b' fd' pkts') →
      ∃ pkts'', (s.store a (some { sk with pkts := q })).heap c =
        some (connectedSocket id' b' fd' pkts'') := by
    intro c id' b' fd' pkts' hc
    by_cases hca : c = a
    · subst hca
      rw [ha] at hc
      cases hc
      exact ⟨q, store_self s _⟩
    · exact ⟨pkts', (store_of_ne s _ hca).trans hc⟩
  refine ⟨?_, ?_, ?_, ?_, h.listNodup, h.closingNodup, h.disconnectsNodup, ?_⟩
  · intro c sk' hc
    rcases hold c sk' hc with ⟨rfl, rfl⟩ | ⟨hca, hc⟩
    · cases h.placed c sk ha with
      | connected hpeer hmem => exact .connected (hremote _ _ _ _ hpeer) hmem
      | closing _ hmem => exact .closing (hq rfl) hmem
      | remote _ _ _ => cases hkind
    · cases h.placed c sk' hc with
      | connected hpeer hmem => exact .connected (hremote _ _ _ _ hpeer) hmem
      | closing hpkts hmem => exact .closing hpkts hmem
      | remote hpeer htransport hmem =>
          obtain ⟨pkts'', hpeer'⟩ := hconnected _ _ _ _ _ hpeer
          exact .remote hpeer' htransport hmem
  · intro c hc
    obtain ⟨id', b', fd', pkts', hsk⟩ := h.connected c hc
    obtain ⟨pkts'', hsk'⟩ := hconnected c id' b' fd' pkts' hsk
    exact ⟨id', b', fd', pkts'', hsk'⟩
  · intro c hc
    obtain ⟨fd', pkts', hsk⟩ := h.closing c hc
    by_cases hca : c = a
    · subst hca
      rw [ha] at hsk
      cases hsk
      exact ⟨fd', q, store_self s _⟩
    · exact ⟨fd', pkts', (store_of_ne s _ hca).trans hsk⟩
  · intro t' tr ht b' hb'
    obtain ⟨rid', a', hsk⟩ := h.remote t' tr ht b' hb'
    exact ⟨rid', a', hremote b' rid' a' t' hsk⟩
  · intro c hc
    obtain ⟨hheap, htransport⟩ := h.fresh c hc
    refine ⟨?_, htransport⟩
    rw [store_of_ne s _ (by rintro rfl; rw [ha] at hheap; cases hheap), hheap]

/-- Another queue of a local socket, with what it waits for. -/
theorem WellFormed.requeue (h : s.WellFormed g) {sk : ASocket} (ha : s.heap a = some sk)
    (hkind : sk.kind = .local) (hq : sk.closing = true → q ≠ []) {fde' : Fde Owner}
    (hconsistent : p.Consistent)
    (htable : p.table = Function.update s.pump.table sk.fd (some fde'))
    (hwaits : Waits a { sk with pkts := q } fde') :
    ({ s.store a (some { sk with pkts := q }) with pump := p } : Daemon).WellFormed g := by
  have hlinked := h.linked.requeue ha hkind hq
  refine ⟨⟨?_, hlinked.connected, hlinked.closing, hlinked.remote, hlinked.listNodup,
    hlinked.closingNodup, hlinked.disconnectsNodup, hlinked.fresh⟩, ?_⟩
  · exact fun c sk' hc => (hlinked.placed c sk' hc).congr rfl rfl rfl rfl
  · exact h.watched.change ha hkind (some fde') hconsistent htable
      (.inr ⟨_, fde', store_self s _, hkind, rfl, rfl, hwaits⟩)
      (fun c hca sk' hc => (store_of_ne s _ hca).symm.trans hc)
      (fun c hca sk' hc _ => (store_of_ne s _ hca).trans hc) (fun _ => rfl)

/-- A closing socket that goes. -/
theorem WellFormed.gone (h : s.WellFormed g) (ha : s.heap a = some (closingSocket fd pkts))
    (hremove : s.pump.remove fd = some p) :
    (({ s with pump := p }.removeSocket a).store a none).WellFormed g := by
  have hsome : ∀ c sk, (s.store a none).heap c = some sk → c ≠ a ∧ s.heap c = some sk := by
    intro c sk hc
    have hca : c ≠ a := by
      rintro rfl
      rw [store_self] at hc
      cases hc
    exact ⟨hca, (store_of_ne s _ hca).symm.trans hc⟩
  have hne : ∀ c sk, sk.closing = false → s.heap c = some sk → (s.store a none).heap c = some sk := by
    intro c sk hclosing hc
    have hca : c ≠ a := by
      rintro rfl
      rw [ha] at hc
      cases hc
      cases hclosing
    exact (store_of_ne s _ hca).trans hc
  obtain ⟨fde, hfde, hwaits⟩ := h.watched.socket a _ ha rfl
  have hnotList : a ∉ s.localSocketList := by
    intro hmem
    obtain ⟨_, _, _, _, hsk⟩ := h.linked.connected a hmem
    rw [ha] at hsk
    cases hsk
  refine ⟨⟨?_, ?_, ?_, ?_, h.linked.listNodup.erase a, h.linked.closingNodup.erase a,
    h.linked.disconnectsNodup, ?_⟩, ?_⟩
  · intro c sk hc
    obtain ⟨hca, hc⟩ := hsome c sk hc
    cases h.linked.placed c sk hc with
    | connected hpeer hmem => exact .connected (hne _ _ rfl hpeer) ((List.mem_erase_of_ne hca).mpr hmem)
    | closing hpkts hmem => exact .closing hpkts ((List.mem_erase_of_ne hca).mpr hmem)
    | remote hpeer htransport hmem => exact .remote (hne _ _ rfl hpeer) htransport hmem
  · intro c hc
    obtain ⟨id', b', fd', pkts', hsk⟩ := h.linked.connected c (List.mem_of_mem_erase hc)
    exact ⟨id', b', fd', pkts', hne c _ rfl hsk⟩
  · intro c hc
    have hca : c ≠ a := by
      rintro rfl
      exact h.linked.closingNodup.not_mem_erase hc
    obtain ⟨fd', pkts', hsk⟩ := h.linked.closing c (List.mem_of_mem_erase hc)
    exact ⟨fd', pkts', (store_of_ne s _ hca).trans hsk⟩
  · intro t' tr ht b' hb'
    obtain ⟨rid', a', hsk⟩ := h.linked.remote t' tr ht b' hb'
    exact ⟨rid', a', hne b' _ rfl hsk⟩
  · intro c hc
    obtain ⟨hheap, htransport⟩ := h.linked.fresh c hc
    refine ⟨?_, htransport⟩
    show (s.store a none).heap c = none
    by_cases hca : c = a
    · rw [hca, store_self]
    · rw [store_of_ne s _ hca, hheap]
  · obtain ⟨p', hp', htable⟩ := Pump.exists_remove hfde
    rw [hp'] at hremove
    cases hremove
    exact h.watched.change ha rfl none (h.watched.consistent.remove hp') htable
      (.inl ⟨store_self s none, rfl⟩) (fun c _ sk' hc => (hsome c sk' hc).2)
      (fun c hca sk' hc _ => (store_of_ne s _ hca).trans hc) (fun _ => rfl)

theorem close_closing (n : ℕ) (ha : s.heap a = some (closingSocket fd pkts))
    (hremove : s.pump.remove fd = some p) :
    close (n + 1) a s = some (({ s with pump := p }.removeSocket a).store a none) := by
  rw [close, ha]
  show localSocketClose (close n) a s = _
  rw [localSocketClose, ha]
  show endLocal a s = _
  rw [endLocal, ha]
  exact localSocketDestroy_eq ha hremove

end Sound

/-! ## One more packet -/

section Traffic

variable {es front rest : List Traffic} {e e' : Traffic} {written readFrom w x : Bytes}

theorem taken_concat (es : List Traffic) (e : Traffic) : taken (es ++ [e]) = taken es ++ taken [e] :=
  List.flatMap_append

theorem given_concat (es : List Traffic) (e : Traffic) : given (es ++ [e]) = given es ++ given [e] :=
  List.flatMap_append

theorem tooks_concat (es : List Traffic) (e : Traffic) : tooks (es ++ [e]) = tooks es + tooks [e] :=
  List.countP_append

theorem okays_concat (es : List Traffic) (e : Traffic) : okays (es ++ [e]) = okays es + okays [e] :=
  List.count_append

theorem mayGive_concat (es : List Traffic) (e : Traffic) : mayGive (es ++ [e]) =
    match e with | .granted => true | .gave _ => false | _ => mayGive es :=
  List.foldl_append

theorem taken_singleton_took (x : Bytes) : taken [.took x] = x := List.append_nil x

theorem given_singleton_gave (x : Bytes) : given [.gave x] = x := List.append_nil x

theorem split_concat (h : es ++ [e] = front ++ e' :: rest) :
    e' = e ∧ front = es ∨ ∃ rest', es = front ++ e' :: rest' := by
  rcases List.eq_nil_or_concat' rest with rfl | ⟨rest', last, rfl⟩
  · obtain ⟨hfront, hlast⟩ := List.append_inj' h rfl
    exact .inl ⟨(List.cons.inj hlast).1.symm, hfront.symm⟩
  · rw [← List.cons_append, ← List.append_assoc] at h
    exact .inr ⟨rest', (List.append_inj' h rfl).1⟩

theorem InOrder.wrote_concat (h : InOrder es written readFrom) (e : Traffic) :
    written <+: taken (es ++ [e]) := by
  rw [taken_concat]
  exact h.wrote.trans (List.prefix_append _ _)

/-- One more packet, with what it brings to the descriptor or takes from it. -/
theorem InOrder.concat (h : InOrder es written readFrom) (e : Traffic) {written' readFrom' : Bytes}
    (hwrote : written' <+: taken (es ++ [e])) (hsentOut : given (es ++ [e]) <+: readFrom')
    (hokay : e = .okay → okays es ≤ tooks es) (hgave : ∀ x, e = .gave x → mayGive es = true) :
    InOrder (es ++ [e]) written' readFrom' where
  wrote := hwrote
  sentOut := hsentOut
  okay front rest hsplit := by
    rcases split_concat hsplit with ⟨heq, rfl⟩ | ⟨rest', hold⟩
    · exact hokay heq.symm
    · exact h.okay front rest' hold
  gave front x rest hsplit := by
    rcases split_concat hsplit with ⟨heq, rfl⟩ | ⟨rest', hold⟩
    · exact hgave x heq.symm
    · exact h.gave front x rest' hold

/-- A packet that takes nothing from the descriptor. -/
theorem InOrder.concat_in (h : InOrder es written readFrom) (e : Traffic) {written' : Bytes}
    (hwrote : written' <+: taken (es ++ [e])) (hnone : given [e] = []) (hne : ∀ x, e ≠ .gave x)
    (hokay : e = .okay → okays es ≤ tooks es) : InOrder (es ++ [e]) written' readFrom := by
  refine h.concat e hwrote ?_ hokay fun x heq => absurd heq (hne x)
  rw [given_concat, hnone, List.append_nil]
  exact h.sentOut

theorem InOrder.opened_concat (h : InOrder es written readFrom) (name : Bytes) :
    InOrder (es ++ [.opened name]) written readFrom :=
  h.concat_in (.opened name) (h.wrote_concat (.opened name)) rfl (by rintro _ ⟨⟩) (by rintro ⟨⟩)

theorem InOrder.okay_concat (h : InOrder es written readFrom) (hokay : okays es ≤ tooks es) :
    InOrder (es ++ [.okay]) written readFrom :=
  h.concat_in .okay (h.wrote_concat .okay) rfl (by rintro _ ⟨⟩) fun _ => hokay

theorem InOrder.granted_concat (h : InOrder es written readFrom) :
    InOrder (es ++ [.granted]) written readFrom :=
  h.concat_in .granted (h.wrote_concat .granted) rfl (by rintro _ ⟨⟩) (by rintro ⟨⟩)

theorem InOrder.took_concat (h : InOrder es written readFrom) (hall : taken es = written)
    (hw : w <+: x) : InOrder (es ++ [.took x]) (written ++ w) readFrom := by
  refine h.concat_in (.took x) ?_ rfl (by rintro _ ⟨⟩) (by rintro ⟨⟩)
  rw [taken_concat, taken_singleton_took, hall]
  exact (List.prefix_append_right_inj written).mpr hw

theorem InOrder.took_queued (h : InOrder es written readFrom) (x : Bytes) :
    InOrder (es ++ [.took x]) written readFrom :=
  h.concat_in (.took x) (h.wrote_concat (.took x)) rfl (by rintro _ ⟨⟩) (by rintro ⟨⟩)

theorem InOrder.gave_concat (h : InOrder es written readFrom) (hall : given es = readFrom)
    (hmay : mayGive es = true) (x : Bytes) : InOrder (es ++ [.gave x]) written (readFrom ++ x) := by
  refine h.concat (.gave x) (h.wrote_concat (.gave x)) ?_ (by rintro ⟨⟩) fun _ _ => hmay
  rw [given_concat, given_singleton_gave, hall]

/-- More bytes at the descriptor. -/
theorem InOrder.move (h : InOrder es written readFrom) {w : Bytes} (x : Bytes)
    (hw : w <+: taken es) : InOrder es w (readFrom ++ x) :=
  ⟨hw, h.sentOut.trans (List.prefix_append _ _), h.okay, h.gave⟩

end Traffic

/-! ## A step of one socket -/

/-- Nothing but the queue of a local socket, what it waits for, and its logs have changed. -/
structure Touched (s s' : Daemon) (a : Addr) (sk sk' : ASocket) (fde' : Fde Owner) : Prop where
  heap : s'.heap = Function.update s.heap a (some sk')
  transports : s'.transports = s.transports
  list : s'.localSocketList = s.localSocketList
  closingList : s'.localSocketClosingList = s.localSocketClosingList
  allocated : s'.allocated = s.allocated
  nextId : s'.localSocketNextId = s.localSocketNextId
  consistent : s'.pump.Consistent
  table : s'.pump.table = Function.update s.pump.table sk.fd (some fde')
  logs : ∀ c, c ≠ a →
    s'.traffic c = s.traffic c ∧ s'.written c = s.written c ∧ s'.readFrom c = s.readFrom c

section Step

variable {s s' : Daemon} {a : Addr} {sk : ASocket} {q : List Bytes} {f : Fde Owner}

theorem Streams.change (h : s.Streams) (ha : a < s.allocated)
    (hother : ∀ c, c ≠ a → ∀ sk, s'.heap c = some sk → s.heap c = some sk ∨
      ∃ id b fd pkts, s.heap c = some (connectedSocket id b fd pkts) ∧ sk = closingSocket fd pkts)
    (htable : ∀ c, c ≠ a → ∀ id b fd pkts, s'.heap c = some (connectedSocket id b fd pkts) →
      s'.pump.table fd = s.pump.table fd)
    (hlogs : ∀ c, c ≠ a →
      s'.traffic c = s.traffic c ∧ s'.written c = s.written c ∧ s'.readFrom c = s.readFrom c)
    (hallocated : s'.allocated = s.allocated)
    (hinOrder : InOrder (s'.traffic a) (s'.written a) (s'.readFrom a))
    (hcurrent : ∀ sk, s'.heap a = some sk → sk.kind = .local → Current sk (s'.traffic a) (s'.written a))
    (hgranted : ∀ id b fd pkts, s'.heap a = some (connectedSocket id b fd pkts) →
      ∃ fde, s'.pump.table fd = some fde ∧ Granted fde (s'.traffic a) (s'.readFrom a)) :
    s'.Streams := by
  refine ⟨?_, ?_, ?_, ?_⟩
  · intro c
    by_cases hca : c = a
    · exact hca ▸ hinOrder
    · obtain ⟨htraffic, hwritten, hread⟩ := hlogs c hca
      rw [htraffic, hwritten, hread]
      exact h.inOrder c
  · intro c sk hc hkind
    by_cases hca : c = a
    · subst hca
      exact hcurrent sk hc hkind
    · obtain ⟨htraffic, hwritten, -⟩ := hlogs c hca
      rw [htraffic, hwritten]
      rcases hother c hca sk hc with hold | ⟨id, b, fd, pkts, hold, rfl⟩
      · exact h.current c sk hold hkind
      · obtain ⟨htaken, hokay⟩ := h.current c _ hold rfl
        exact ⟨htaken, hokay⟩
  · intro c id b fd pkts hc
    by_cases hca : c = a
    · subst hca
      exact hgranted id b fd pkts hc
    · obtain ⟨htraffic, -, hread⟩ := hlogs c hca
      rw [htraffic, hread, htable c hca id b fd pkts hc]
      rcases hother c hca _ hc with hold | ⟨_, _, _, _, -, heq⟩
      · exact h.granted c id b fd pkts hold
      · cases heq
  · intro c hc
    rw [hallocated] at hc
    obtain ⟨htraffic, -, hread⟩ := hlogs c (Nat.ne_of_gt (Nat.lt_of_lt_of_le ha hc))
    rw [htraffic, hread]
    exact h.fresh c hc

theorem Linked.lt_allocated (h : s.Linked) (ha : s.heap a = some sk) : a < s.allocated := by
  by_contra hle
  rw [(h.fresh a (Nat.le_of_not_lt hle)).1] at ha
  cases ha

theorem Touched.heap_self (e : Touched s s' a sk { sk with pkts := q } f) :
    s'.heap a = some { sk with pkts := q } := by
  rw [e.heap, Function.update_self]

theorem Touched.heap_of_ne (e : Touched s s' a sk { sk with pkts := q } f) {c : Addr} (hca : c ≠ a) :
    s'.heap c = s.heap c := by
  rw [e.heap, Function.update_of_ne hca]

/-- What such a step has to see to. -/
theorem Sound.touched (h : s.Sound g) (ha : s.heap a = some sk) (hkind : sk.kind = .local)
    (e : Touched s s' a sk { sk with pkts := q } f) (hq : sk.closing = true → q ≠ [])
    (hwaits : Waits a { sk with pkts := q } f)
    (hinOrder : InOrder (s'.traffic a) (s'.written a) (s'.readFrom a))
    (hcurrent : Current { sk with pkts := q } (s'.traffic a) (s'.written a))
    (hgranted : sk.closing = false → Granted f (s'.traffic a) (s'.readFrom a)) : s'.Sound g := by
  refine ⟨?_, ?_⟩
  · exact (h.wellFormed.requeue ha hkind hq e.consistent e.table hwaits).congr e.heap e.transports e.list
      e.closingList e.allocated rfl
  · refine h.streams.change (h.wellFormed.linked.lt_allocated ha) ?_ ?_ e.logs e.allocated hinOrder
      ?_ ?_
    · exact fun c hca sk' hc => .inl ((e.heap_of_ne hca).symm.trans hc)
    · intro c hca id b fd pkts hc
      rw [e.heap_of_ne hca] at hc
      rw [e.table, Function.update_of_ne (h.wellFormed.watched.fd_ne ha hkind hc rfl hca)]
    · intro sk' hsk' _
      rw [e.heap_self] at hsk'
      cases hsk'
      exact hcurrent
    · intro id b fd pkts hsk'
      rw [e.heap_self] at hsk'
      have heq := Option.some.inj hsk'
      refine ⟨f, ?_, hgranted (congrArg ASocket.closing heq)⟩
      rw [e.table, show fd = sk.fd from (congrArg ASocket.fd heq).symm, Function.update_self]

end Step

/-! ## local_socket_enqueue -/

section Enqueue

variable {s : Daemon} {a b t : Addr} {id rid : Word} {fd : ℕ} {pkts : List Bytes} {x : Bytes}

theorem queuePacket_spec {sk : ASocket} {fde : Fde Owner} (ha : s.heap a = some sk)
    (hfde : s.pump.table sk.fd = some fde) (hconsistent : s.pump.Consistent) (x : Bytes) :
    ∃ p fde', queuePacket a x s =
        some { s.store a (some { sk with pkts := sk.pkts ++ [x] }) with pump := p } ∧
      p.Consistent ∧ p.table = Function.update s.pump.table sk.fd (some fde') ∧
      fde'.want = fde.want.add (.only .write) ∧ fde'.arg = fde.arg ∧
      ∀ e, fde'.events e = true → fde.events e = true := by
  obtain ⟨p, fde', hset, htable, hwant, harg, hevents⟩ :=
    Pump.exists_set hfde (fde.want.add (.only .write))
  refine ⟨p, fde', ?_, hconsistent.set hset, htable, hwant, harg, hevents⟩
  rw [← Pump.add_eq_set hfde] at hset
  rw [queuePacket, ha]
  show (s.pump.add sk.fd (.only .write)).bind _ = _
  rw [hset]
  rfl

theorem Waits.queue {sk sk' : ASocket} {fde fde' : Fde Owner} (h : Waits a sk fde)
    (hpkts : sk'.pkts ≠ []) (hwant : fde'.want = fde.want.add (.only .write))
    (harg : fde'.arg = fde.arg) : Waits a sk' fde' := by
  refine ⟨harg.trans h.arg, iff_of_true ?_ hpkts, fun _ => hpkts⟩
  rw [hwant, Events.add_apply, Events.only_self, Bool.or_true]

theorem Granted.queue {fde fde' : Fde Owner} {es es' : List Traffic} {readFrom : Bytes}
    (h : Granted fde es readFrom) (hwant : fde'.want = fde.want.add (.only .write))
    (hevents : ∀ e, fde'.events e = true → fde.events e = true) (hgiven : given es' = given es)
    (hmay : mayGive es' = mayGive es) : Granted fde' es' readFrom := by
  have hread : fde'.want .read = fde.want .read := by
    rw [hwant]
    exact Bool.or_false _
  refine ⟨hgiven.trans h.sentOut, ?_, ?_⟩
  · rw [hread, hmay, h.want]
  · exact fun he => hread.trans (h.pending (hevents .read he))

/-- The end of `local_socket_enqueue`, when `w` has been written of the packet and the rest is left.
-/
theorem Sound.queued (h : s.Sound g) (ha : s.heap a = some (connectedSocket id b fd pkts)) {w left : Bytes}
    (hx : w ++ left = x) (hw : pkts = [] ∨ w = []) :
    ∃ s', queuePacket a left ((s.note a (.took x)).putBytes a w) = some s' ∧ s'.Sound g := by
  obtain ⟨fde, hfde, hwaits⟩ := h.wellFormed.watched.socket a _ ha rfl
  obtain ⟨fde₀, hfde₀, hgranted⟩ := h.streams.granted a id b fd pkts ha
  rw [hfde] at hfde₀
  cases hfde₀
  obtain ⟨hqueued, hokay⟩ := h.streams.current a _ ha rfl
  obtain ⟨p, fde', hqueue, hconsistent, htable, hwant, harg, hevents⟩ :=
    queuePacket_spec (s := (s.note a (.took x)).putBytes a w) ha hfde h.wellFormed.watched.consistent left
  have htraffic : ((s.note a (.took x)).putBytes a w).traffic a = s.traffic a ++ [.took x] :=
    Function.update_self _ _ _
  have hwritten : ((s.note a (.took x)).putBytes a w).written a = s.written a ++ w :=
    Function.update_self _ _ _
  have hne : pkts ++ [left] ≠ [] := List.append_ne_nil_of_right_ne_nil pkts (List.cons_ne_nil left [])
  refine ⟨_, hqueue, h.touched (q := pkts ++ [left]) (f := fde') ha rfl
    ⟨rfl, rfl, rfl, rfl, rfl, rfl, hconsistent, htable, ?_⟩ (fun _ => hne)
    (hwaits.queue hne hwant harg) ?_ ?_ ?_⟩
  · exact fun c hca => ⟨Function.update_of_ne hca _ _, Function.update_of_ne hca _ _, rfl⟩
  · show InOrder (((s.note a (.took x)).putBytes a w).traffic a)
      (((s.note a (.took x)).putBytes a w).written a) (s.readFrom a)
    rw [htraffic, hwritten]
    rcases hw with rfl | rfl
    · exact (h.streams.inOrder a).took_concat (hqueued.trans (List.append_nil _))
        ⟨left, hx⟩
    · rw [List.append_nil]
      exact (h.streams.inOrder a).took_queued x
  · show Current _ (((s.note a (.took x)).putBytes a w).traffic a)
      (((s.note a (.took x)).putBytes a w).written a)
    rw [htraffic, hwritten]
    constructor
    · rw [taken_concat, taken_singleton_took, hqueued, List.flatten_append, List.flatten_singleton, ← hx]
      rcases hw with rfl | rfl
      · simp
      · simp
    · rw [okays_concat, tooks_concat, List.length_append]
      show okays (s.traffic a) + 0 + (pkts.length + 1) ≤ tooks (s.traffic a) + 1 + 1
      have : okays (s.traffic a) + pkts.length ≤ tooks (s.traffic a) + 1 := hokay
      omega
  · intro _
    show Granted fde' (((s.note a (.took x)).putBytes a w).traffic a) (s.readFrom a)
    rw [htraffic]
    refine hgranted.queue hwant hevents ?_ (mayGive_concat _ _)
    rw [given_concat]
    exact List.append_nil _

/-- A packet for a connected socket: it is written, and the socket is ready for more; or it is
queued; or the socket is closed. -/
theorem localSocketEnqueue_spec (as : List WriteAnswer) (h : s.Sound g)
    (ha : s.heap a = some (connectedSocket id b fd pkts))
    (hb : s.heap b = some (remoteSocket rid a t)) :
    pkts = [] ∧ localSocketEnqueue as a x s = some ((s.note a (.took x)).putBytes a x, true) ∨
      ∃ s', localSocketEnqueue as a x s = some (s', false) ∧ s'.Sound g := by
  by_cases hpkts : pkts = []
  · obtain ⟨hall, hfailed⟩ := writeLoop_spec false as x
    rcases hloop : writeLoop false as x with ⟨w, left, failed, as'⟩
    rw [hloop] at hall hfailed
    dsimp only at hall hfailed
    let s₁ := (s.note a (.took x)).putBytes a w
    have heq : localSocketEnqueue as a x s =
        if failed = true then (close closeDepth a s₁).bind fun s => some (s, false)
        else if left = [] then some (s₁, true)
        else (queuePacket a left s₁).bind fun s => some (s, false) := by
      rw [localSocketEnqueue, ha]
      show (if pkts ≠ [] then _ else _) = _
      rw [if_neg (not_not.mpr hpkts), hloop]
      rfl
    cases failed with
    | true =>
        -- the packet is lost, and so is the connection
        refine .inr ?_
        have hwell : s₁.WellFormed g := h.wellFormed.congr rfl rfl rfl rfl rfl rfl
        obtain ⟨s', hclose, e, -⟩ := close_connected 1 hwell ha hb
        refine ⟨s', ?_, e.wellFormed hwell ha hb, ?_⟩
        · rw [heq, if_pos rfl]
          show (close (1 + 2) a s₁).bind _ = _
          rw [hclose]
          rfl
        · have hshrinks := e.shrinks hwell.watched ha
          have hgone : s'.heap a = none := by
            rcases e.localEnd with ⟨-, hgone, -⟩ | ⟨hne, -⟩
            · exact hgone
            · exact absurd hpkts hne
          refine h.streams.change (h.wellFormed.linked.lt_allocated ha)
            (fun c _ sk hc => hshrinks.heap c sk hc)
            (fun c _ id b fd pkts hc => hshrinks.table c id b fd pkts hc) ?_ hshrinks.allocated ?_
            (fun sk hc => ?_) (fun id b fd pkts hc => ?_)
          · intro c hca
            rw [hshrinks.traffic, hshrinks.written, hshrinks.readFrom]
            exact ⟨Function.update_of_ne hca _ _, Function.update_of_ne hca _ _, rfl⟩
          · rw [hshrinks.traffic, hshrinks.written, hshrinks.readFrom]
            show InOrder (Function.update s.traffic a _ a) (Function.update s.written a _ a) (s.readFrom a)
            rw [Function.update_self, Function.update_self]
            refine (h.streams.inOrder a).took_concat ?_ ⟨left, hall⟩
            rw [(h.streams.current a _ ha rfl).queued, hpkts]
            exact List.append_nil _
          · rw [hgone] at hc
            cases hc
          · rw [hgone] at hc
            cases hc
    | false =>
        by_cases hleft : left = []
        · refine .inl ⟨hpkts, ?_⟩
          rw [heq, if_neg Bool.false_ne_true, if_pos hleft]
          show some ((s.note a (.took x)).putBytes a w, true) = _
          rw [← hall, hleft, List.append_nil]
        · obtain ⟨s', hqueue, hsound⟩ := h.queued ha hall (.inl hpkts)
          refine .inr ⟨s', ?_, hsound⟩
          rw [heq, if_neg Bool.false_ne_true, if_neg hleft]
          show (queuePacket a left s₁).bind _ = _
          rw [hqueue]
          rfl
  · obtain ⟨s', hqueue, hsound⟩ := h.queued ha (List.nil_append x) (.inr rfl)
    refine .inr ⟨s', ?_, hsound⟩
    have hnone : (s.note a (.took x)).putBytes a [] = s.note a (.took x) := by
      have : Function.update (s.note a (.took x)).written a ((s.note a (.took x)).written a ++ []) =
          (s.note a (.took x)).written := by
        rw [List.append_nil, Function.update_eq_self]
      exact congrArg (fun w => { s.note a (.took x) with written := w }) this
    rw [hnone] at hqueue
    rw [localSocketEnqueue, ha]
    show (if pkts ≠ [] then _ else _) = _
    rw [if_pos hpkts]
    show (queuePacket a x (s.note a (.took x))).bind _ = _
    rw [hqueue]
    rfl

end Enqueue

/-! ## local_socket_event_func -/

section Event

variable {s s₁ : Daemon} {a b t : Addr} {id rid : Word} {fd : ℕ} {pkts q : List Bytes} {x : Bytes}
  {sk : ASocket}

/-- A closing socket is closed: it goes, with what it has queued. -/
theorem Sound.gone (n : ℕ) (h : s.Sound g) (ha : s.heap a = some (closingSocket fd pkts))
    (hheap : s₁.heap = Function.update s.heap a (some (closingSocket fd q)))
    (htransports : s₁.transports = s.transports) (hlist : s₁.localSocketList = s.localSocketList)
    (hclosing : s₁.localSocketClosingList = s.localSocketClosingList)
    (hallocated : s₁.allocated = s.allocated) (hpump : s₁.pump = s.pump)
    (hlogs : ∀ c, c ≠ a →
      s₁.traffic c = s.traffic c ∧ s₁.written c = s.written c ∧ s₁.readFrom c = s.readFrom c)
    (hinOrder : InOrder (s₁.traffic a) (s₁.written a) (s₁.readFrom a)) :
    ∃ s', close (n + 1) a s₁ = some s' ∧ s'.Sound g := by
  obtain ⟨fde, hfde, -⟩ := h.wellFormed.watched.socket a _ ha rfl
  obtain ⟨p, hremove, htable⟩ := Pump.exists_remove hfde
  have ha₁ : s₁.heap a = some (closingSocket fd q) := by rw [hheap, Function.update_self]
  refine ⟨_, close_closing n ha₁ (hpump ▸ hremove), ?_, ?_⟩
  · refine (h.wellFormed.gone ha hremove).congr ?_ htransports ?_ ?_ hallocated rfl
    · show Function.update s₁.heap a none = Function.update s.heap a none
      rw [hheap, Function.update_idem]
    · exact congrArg (fun l => l.erase a) hlist
    · exact congrArg (fun l => l.erase a) hclosing
  · have hsome : ∀ c sk, Function.update s₁.heap a none c = some sk → c ≠ a ∧ s.heap c = some sk := by
      intro c sk hc
      have hca : c ≠ a := by
        rintro rfl
        rw [Function.update_self] at hc
        cases hc
      rw [Function.update_of_ne hca, hheap, Function.update_of_ne hca] at hc
      exact ⟨hca, hc⟩
    refine h.streams.change (h.wellFormed.linked.lt_allocated ha)
      (fun c _ sk hc => .inl (hsome c sk hc).2) ?_ hlogs hallocated hinOrder
      (fun sk hc => absurd rfl (hsome a sk hc).1) (fun id b fd pkts hc => absurd rfl (hsome a _ hc).1)
    intro c hca id b fd' pkts' hc
    show p.table fd' = s.pump.table fd'
    rw [htable, Function.update_of_ne
      (h.wellFormed.watched.fd_ne ha rfl (hsome c _ hc).2 rfl hca)]

/-- The queue after the loop over it, when the socket stays. -/
theorem Sound.flushed (h : s.Sound g) (ha : s.heap a = some sk) (hkind : sk.kind = .local) {w : Bytes}
    (hall : w ++ q.flatten = sk.pkts.flatten) (hq : q ≠ []) (hlen : q.length ≤ sk.pkts.length) :
    ((s.putBytes a w).store a (some { sk with pkts := q })).Sound g := by
  obtain ⟨fde, hfde, hwaits⟩ := h.wellFormed.watched.socket a sk ha hkind
  obtain ⟨hqueued, hokay⟩ := h.streams.current a sk ha hkind
  have hwritten : Function.update s.written a (s.written a ++ w) a = s.written a ++ w :=
    Function.update_self _ _ _
  have htaken : taken (s.traffic a) = (s.written a ++ w) ++ q.flatten := by
    rw [hqueued, List.append_assoc, hall]
  have hpkts : sk.pkts ≠ [] := by
    intro hnil
    rw [hnil] at hlen
    exact hq (List.length_eq_zero_iff.mp (Nat.le_zero.mp hlen))
  refine h.touched (q := q) (f := fde) ha hkind
    ⟨rfl, rfl, rfl, rfl, rfl, rfl, h.wellFormed.watched.consistent, ?_, ?_⟩ (fun _ => hq)
    ⟨hwaits.arg, ⟨fun _ => hq, fun _ => hwaits.write.mpr hpkts⟩, fun _ => hq⟩ ?_ ?_ ?_
  · rw [← hfde, Function.update_eq_self]
    rfl
  · exact fun c hca => ⟨rfl, Function.update_of_ne hca _ _, rfl⟩
  · show InOrder (s.traffic a) (Function.update s.written a _ a) (s.readFrom a)
    rw [hwritten]
    have hmove := (h.streams.inOrder a).move [] (w := s.written a ++ w) ⟨q.flatten, htaken.symm⟩
    rwa [List.append_nil] at hmove
  · show Current _ (s.traffic a) (Function.update s.written a _ a)
    rw [hwritten]
    exact ⟨htaken, Nat.le_trans (Nat.add_le_add_left hlen _) hokay⟩
  · intro hopen
    cases h.wellFormed.linked.placed a sk ha with
    | connected hpeer hmem =>
        obtain ⟨fde₀, hfde₀, hgranted⟩ := h.streams.granted a _ _ _ _ ha
        rw [hfde] at hfde₀
        cases hfde₀
        exact hgranted
    | closing _ _ => cases hopen
    | remote _ _ _ => cases hkind

theorem length_flush_le (as : List WriteAnswer) (q : List Bytes) :
    (flush as q).2.1.length ≤ q.length := by
  induction q generalizing as with
  | nil => exact Nat.le_refl 0
  | cons x q ih =>
      rcases hloop : writeLoop true as x with ⟨w, left, failed, as'⟩
      rw [flush, hloop]
      dsimp only
      split
      · exact Nat.le_refl _
      · split
        · exact Nat.le_succ_of_le (ih as')
        · exact Nat.le_refl _

end Event

section WriteEvent

variable {s : Daemon} {a b t : Addr} {id rid : Word} {fd : ℕ} {pkts : List Bytes} {sk : ASocket}
  {fde : Fde Owner}

theorem eq_empty_of_sub {m m' : Events} (h : ∀ e, m' e = true → m e = true) (hm : m = .empty) :
    m' = .empty := by
  funext e
  rw [Events.empty_apply, ← Bool.not_eq_true]
  intro he
  have hold := h e he
  rw [hm] at hold
  cases hold

theorem writeEvent_eq (as : List WriteAnswer) (ha : s.heap a = some sk) {w : Bytes} {q : List Bytes}
    {e : Flush} (hflush : flush as sk.pkts = (w, q, e)) :
    writeEvent as a s = afterFlush a sk ((s.putBytes a w).store a (some { sk with pkts := q })) e := by
  rw [writeEvent, ha, Option.bind_eq_bind, Option.bind_some, hflush]

/-- The queue of a closing socket is written. -/
theorem writeEvent_closing (as : List WriteAnswer) (h : s.Sound g)
    (ha : s.heap a = some (closingSocket fd pkts)) :
    ∃ s', writeEvent as a s = some (s', false) ∧ s'.Sound g := by
  rcases hflush : flush as pkts with ⟨w, q, e⟩
  obtain ⟨hall, hdrained⟩ := flush_spec as pkts
  have hlen := length_flush_le as pkts
  rw [hflush] at hall hdrained hlen
  have hgone : ∃ s', close closeDepth a ((s.putBytes a w).store a (some (closingSocket fd q))) = some s' ∧
      s'.Sound g := by
    have htaken : taken (s.traffic a) = (s.written a ++ w) ++ q.flatten := by
      rw [(h.streams.current a _ ha rfl).queued, List.append_assoc, hall]
    refine h.gone 2 ha rfl rfl rfl rfl rfl rfl
      (fun c hca => ⟨rfl, Function.update_of_ne hca _ _, rfl⟩) ?_
    show InOrder (s.traffic a) (Function.update s.written a _ a) (s.readFrom a)
    rw [Function.update_self]
    have hmove := (h.streams.inOrder a).move [] (w := s.written a ++ w) ⟨q.flatten, htaken.symm⟩
    rwa [List.append_nil] at hmove
  obtain ⟨s', hclose, hsound⟩ := hgone
  rw [writeEvent_eq as ha hflush]
  cases e with
  | blocked => exact ⟨_, rfl, h.flushed ha rfl hall (fun hnil => by cases hdrained.mpr hnil) hlen⟩
  | failed =>
      refine ⟨s', ?_, hsound⟩
      show (close closeDepth a _).bind _ = _
      rw [hclose]
      rfl
  | drained =>
      refine ⟨s', ?_, hsound⟩
      show (close closeDepth a _).bind _ = _
      rw [hclose]
      rfl

/-- The other side of a connection is told that the queue is empty. -/
theorem ready_remote (ha : s.heap a = some (connectedSocket id b fd pkts))
    (hb : s.heap b = some (remoteSocket rid a t)) {tr : Transport} (ht : s.transports t = some tr) :
    ready b s = some (({ s with sent := s.sent ++ [(t, APacket.bare aOkay id rid)] } : Daemon).note a
      .okay) := by
  rw [ready, hb]
  show (s.heap a).bind _ = _
  rw [ha]
  show ((s.transports t).bind _).bind _ = _
  rw [ht]
  rfl

/-- All of the queue has been written, the socket waits for no more room, and an `OKAY` has been
sent. -/
theorem Sound.drained (h : s.Sound g) (ha : s.heap a = some (connectedSocket id b fd pkts))
    (hpkts : pkts ≠ []) {w : Bytes} (hall : w = pkts.flatten) {fde' : Fde Owner} {p : Pump Owner}
    (sent : List (Addr × APacket)) (hfde : s.pump.table fd = some fde)
    (hconsistent : p.Consistent) (htable : p.table = Function.update s.pump.table fd (some fde'))
    (harg : fde'.arg = fde.arg) (hwrite : fde'.want .write = false)
    (hread : fde'.want .read = fde.want .read) (hclear : fde'.events = .empty) :
    (({ (s.putBytes a w).store a (some (connectedSocket id b fd [])) with
        pump := p, sent := sent } : Daemon).note a .okay).Sound g := by
  obtain ⟨fde₀, hfde₀, hwaits⟩ := h.wellFormed.watched.socket a _ ha rfl
  obtain ⟨fde₁, hfde₁, hgranted⟩ := h.streams.granted a id b fd pkts ha
  rw [hfde] at hfde₀ hfde₁
  cases hfde₀
  cases hfde₁
  obtain ⟨hqueued, hokay⟩ := h.streams.current a _ ha rfl
  have htaken : taken (s.traffic a) = s.written a ++ w := by rw [hqueued, hall]
  have hcount : okays (s.traffic a) + pkts.length ≤ tooks (s.traffic a) + 1 := hokay
  have hlength : 0 < pkts.length := List.length_pos_iff.mpr hpkts
  let s₃ := ({ (s.putBytes a w).store a (some (connectedSocket id b fd [])) with
    pump := p, sent := sent } : Daemon).note a .okay
  have htraffic : s₃.traffic a = s.traffic a ++ [.okay] := Function.update_self _ _ _
  have hwritten : s₃.written a = s.written a ++ w := Function.update_self _ _ _
  refine h.touched (q := []) (f := fde') ha rfl ⟨rfl, rfl, rfl, rfl, rfl, rfl, hconsistent, htable, ?_⟩
    (by rintro ⟨⟩) ⟨harg.trans hwaits.arg, ?_, ?_⟩ ?_ ?_ ?_
  · exact fun c hca => ⟨Function.update_of_ne hca _ _, Function.update_of_ne hca _ _, rfl⟩
  · rw [hwrite]
    exact iff_of_false Bool.false_ne_true (not_not.mpr rfl)
  · -- the events of the socket are cleared before its function is called
    rw [hclear]
    exact fun hpending => absurd hpending Bool.false_ne_true
  · show InOrder (s₃.traffic a) (s₃.written a) (s.readFrom a)
    rw [htraffic, hwritten]
    refine InOrder.okay_concat ?_ (by omega)
    have hmove := (h.streams.inOrder a).move [] (w := s.written a ++ w) ⟨[], by
      rw [List.append_nil, htaken]⟩
    rw [List.append_nil] at hmove
    exact hmove
  · show Current _ (s₃.traffic a) (s₃.written a)
    rw [htraffic, hwritten]
    constructor
    · rw [taken_concat, htaken]
      rfl
    · rw [okays_concat, tooks_concat]
      show okays (s.traffic a) + 1 + 0 ≤ tooks (s.traffic a) + 0 + 1
      omega
  · intro _
    show Granted fde' (s₃.traffic a) (s.readFrom a)
    rw [htraffic]
    refine ⟨?_, ?_, ?_⟩
    · rw [given_concat]
      exact (List.append_nil _).trans hgranted.sentOut
    · rw [hread, mayGive_concat]
      exact hgranted.want
    · rw [hclear]
      exact fun hpending => absurd hpending Bool.false_ne_true

/-- The queue of a connected socket could be written as a whole. -/
theorem afterFlush_drained (h : s.Sound g) (ha : s.heap a = some (connectedSocket id b fd pkts))
    (hb : s.heap b = some (remoteSocket rid a t)) (hpkts : pkts ≠ [])
    (hfde : s.pump.table fd = some fde) (hclear : fde.events = .empty) {w : Bytes}
    (hall : w = pkts.flatten) :
    ∃ s' fde', afterFlush a (connectedSocket id b fd pkts)
        ((s.putBytes a w).store a (some (connectedSocket id b fd []))) .drained = some (s', true) ∧
      s'.Sound g ∧ s'.heap a = some (connectedSocket id b fd []) ∧ s'.pump.table fd = some fde' ∧
      fde'.want .read = fde.want .read ∧ fde'.events = .empty := by
  obtain ⟨rid', t', tr, hb', ht, -⟩ := h.wellFormed.linked.peer ha
  rw [hb] at hb'
  cases hb'
  obtain ⟨p, fde', hset, htable, hwant, harg, hevents⟩ :=
    Pump.exists_set hfde (fde.want.del (.only .write))
  have hdel : s.pump.del fd (.only .write) = some p := (Pump.del_eq_set hfde _).trans hset
  have hread : fde'.want .read = fde.want .read := by
    rw [hwant]
    exact Bool.and_true _
  have hwrite : fde'.want .write = false := by
    rw [hwant]
    exact Bool.and_false _
  have hclear' : fde'.events = .empty := eq_empty_of_sub hevents hclear
  let s₁ := (s.putBytes a w).store a (some (connectedSocket id b fd []))
  let s₂ : Daemon := { s₁ with pump := p }
  have ha₂ : s₂.heap a = some (connectedSocket id b fd []) := store_self _ _
  have hb₂ : s₂.heap b = some (remoteSocket rid a t) :=
    (store_of_ne _ _ (ne_of_connected_remote ha hb).symm).trans hb
  refine ⟨_, fde', ?_, h.drained ha hpkts hall (s.sent ++ [(t, APacket.bare aOkay id rid)]) hfde
    (h.wellFormed.watched.consistent.set hset) htable harg hwrite hread hclear', ha₂, ?_, hread, hclear'⟩
  · show (s₁.fdeventDel _ .write).bind _ = _
    rw [fdeventDel]
    show ((s.pump.del fd (.only .write)).bind _).bind _ = _
    rw [hdel]
    show (ready b s₂).bind _ = _
    rw [ready_remote ha₂ hb₂ (show s₂.transports t = some tr from ht)]
    rfl
  · show p.table fd = some fde'
    rw [htable, Function.update_self]

/-- The queue of a connected socket is written. If nothing is left of it, the other side may send
more. -/
theorem writeEvent_connected (as : List WriteAnswer) (h : s.Sound g)
    (ha : s.heap a = some (connectedSocket id b fd pkts))
    (hb : s.heap b = some (remoteSocket rid a t)) (hpkts : pkts ≠ [])
    (hfde : s.pump.table fd = some fde) (hclear : fde.events = .empty) :
    (∃ s', writeEvent as a s = some (s', false) ∧ s'.Sound g) ∨
      ∃ s' fde', writeEvent as a s = some (s', true) ∧ s'.Sound g ∧
        s'.heap a = some (connectedSocket id b fd []) ∧ s'.pump.table fd = some fde' ∧
        fde'.want .read = fde.want .read ∧ fde'.events = .empty := by
  rcases hflush : flush as pkts with ⟨w, q, e⟩
  obtain ⟨hall, hdrained⟩ := flush_spec as pkts
  have hlen := length_flush_le as pkts
  rw [hflush] at hall hdrained hlen
  rw [writeEvent_eq as ha hflush]
  cases e with
  | blocked =>
      exact .inl ⟨_, rfl, h.flushed ha rfl hall (fun hnil => by cases hdrained.mpr hnil) hlen⟩
  | failed =>
      have hsound := h.flushed ha rfl hall (fun hnil => by cases hdrained.mpr hnil) hlen
      have ha₁ : ((s.putBytes a w).store a (some (connectedSocket id b fd q))).heap a = some _ :=
        store_self _ _
      have hb₁ : ((s.putBytes a w).store a (some (connectedSocket id b fd q))).heap b = some _ :=
        (store_of_ne _ _ (ne_of_connected_remote ha hb).symm).trans hb
      obtain ⟨s', hclose, e, -⟩ := close_connected 1 hsound.wellFormed ha₁ hb₁
      refine .inl ⟨s', ?_, hsound.ended e ha₁ hb₁⟩
      show (close (1 + 2) a _).bind _ = _
      rw [hclose]
      rfl
  | drained =>
      obtain rfl : q = [] := hdrained.mp rfl
      rw [List.flatten_nil, List.append_nil] at hall
      exact .inr (afterFlush_drained h ha hb hpkts hfde hclear hall)

end WriteEvent

section ReadEvent

variable {s : Daemon} {a b t : Addr} {id rid : Word} {fd : ℕ} {pkts : List Bytes} {sk : ASocket}
  {fde : Fde Owner}

theorem gotBytes_nil (s : Daemon) (a : Addr) : s.gotBytes a [] = s := by
  have : Function.update s.readFrom a (s.readFrom a ++ []) = s.readFrom := by
    rw [List.append_nil, Function.update_eq_self]
  exact congrArg (fun r => { s with readFrom := r }) this

theorem readEvent_eq (as : List ReadAnswer) {s' : Daemon} (hgot : (readLoop as maxPayload).1 = [] ∧
      s' = s ∨ (readLoop as maxPayload).1 ≠ [] ∧
        enqueueToPeer a (readLoop as maxPayload).1 (length_readLoop as maxPayload)
          (s.gotBytes a (readLoop as maxPayload).1) = some s') :
    readEvent as a s = if (readLoop as maxPayload).2 = true then close closeDepth a s' else some s' := by
  rw [readEvent]
  rcases hgot with ⟨hnil, rfl⟩ | ⟨hne, henqueue⟩
  · rw [if_pos hnil, hnil, gotBytes_nil]
    rfl
  · rw [if_neg hne, henqueue]
    rfl

/-- What comes for a closing socket has nowhere to go. -/
theorem readEvent_closing (as : List ReadAnswer) (h : s.Sound g)
    (ha : s.heap a = some (closingSocket fd pkts)) : ∃ s', readEvent as a s = some s' ∧ s'.Sound g := by
  obtain ⟨fde, hfde, hwaits⟩ := h.wellFormed.watched.socket a _ ha rfl
  have hheap : s.heap = Function.update s.heap a (some (closingSocket fd pkts)) := by
    rw [← ha, Function.update_eq_self]
  have hin : ∀ x, InOrder (s.traffic a) (s.written a) ((s.gotBytes a x).readFrom a) := by
    intro x
    rw [show (s.gotBytes a x).readFrom a = s.readFrom a ++ x from Function.update_self _ _ _]
    exact (h.streams.inOrder a).move x (h.streams.inOrder a).wrote
  have hsound : (s.gotBytes a (readLoop as maxPayload).1).Sound g := by
    refine h.touched (q := pkts) (f := fde) ha rfl ⟨hheap, rfl, rfl, rfl, rfl, rfl,
      h.wellFormed.watched.consistent, ?_, ?_⟩ (fun _ => ?_) hwaits (hin _)
      (h.streams.current a _ ha rfl) (by rintro ⟨⟩)
    · rw [← hfde, Function.update_eq_self]
      rfl
    · exact fun c hca => ⟨rfl, rfl, Function.update_of_ne hca _ _⟩
    · cases h.wellFormed.linked.placed a _ ha with
      | closing hpkts _ => exact hpkts
  have hgot : (readLoop as maxPayload).1 = [] ∧ s.gotBytes a (readLoop as maxPayload).1 = s ∨
      (readLoop as maxPayload).1 ≠ [] ∧
        enqueueToPeer a (readLoop as maxPayload).1 (length_readLoop as maxPayload)
          (s.gotBytes a (readLoop as maxPayload).1) =
            some (s.gotBytes a (readLoop as maxPayload).1) := by
    by_cases hnil : (readLoop as maxPayload).1 = []
    · refine .inl ⟨hnil, ?_⟩
      rw [hnil, gotBytes_nil]
    · refine .inr ⟨hnil, ?_⟩
      rw [enqueueToPeer, show (s.gotBytes a (readLoop as maxPayload).1).heap a = _ from ha]
      rfl
  rw [readEvent_eq as hgot]
  split
  · exact h.gone 2 ha hheap rfl rfl rfl rfl rfl
      (fun c hca => ⟨rfl, rfl, Function.update_of_ne hca _ _⟩) (hin _)
  · exact ⟨_, rfl, hsound⟩

/-- What was read from a connected socket that waits to read goes out in a packet, and it waits no
longer. -/
theorem enqueueToPeer_spec (h : s.Sound g) (ha : s.heap a = some (connectedSocket id b fd pkts))
    (hb : s.heap b = some (remoteSocket rid a t)) (hfde : s.pump.table fd = some fde)
    (hclear : fde.events = .empty) (hwant : fde.want .read = true) {x : Bytes}
    (hx : x.length ≤ maxPayload) :
    ∃ s', enqueueToPeer a x hx (s.gotBytes a x) = some s' ∧ s'.Sound g ∧
      s'.heap a = some (connectedSocket id b fd pkts) ∧ s'.heap b = some (remoteSocket rid a t) := by
  obtain ⟨rid', t', tr, hb', ht, -⟩ := h.wellFormed.linked.peer ha
  rw [hb] at hb'
  cases hb'
  obtain ⟨fde₀, hfde₀, hwaits⟩ := h.wellFormed.watched.socket a _ ha rfl
  obtain ⟨fde₁, hfde₁, hgranted⟩ := h.streams.granted a id b fd pkts ha
  rw [hfde] at hfde₀ hfde₁
  cases hfde₀
  cases hfde₁
  obtain ⟨p, fde', hset, htable, hwant', harg, hevents⟩ :=
    Pump.exists_set hfde (fde.want.del (.only .read))
  have hdel : s.pump.del fd (.only .read) = some p := (Pump.del_eq_set hfde _).trans hset
  have hclear' : fde'.events = .empty := eq_empty_of_sub hevents hclear
  have hwrite : fde'.want .write = fde.want .write := by
    rw [hwant']
    exact Bool.and_true _
  have hread : fde'.want .read = false := by
    rw [hwant']
    exact Bool.and_false _
  let s₁ := s.gotBytes a x
  let s₂ := ({ s₁ with sent := s₁.sent ++ [(t, ⟨aWrte, id, rid, x, hx⟩)] } : Daemon).note a (.gave x)
  have hremote : remoteSocketEnqueue b ⟨0, 0, 0, x, hx⟩ s₁ = some s₂ := by
    rw [remoteSocketEnqueue, show s₁.heap b = _ from hb]
    show (s₁.heap a).bind _ = _
    rw [show s₁.heap a = _ from ha]
    show ((s.transports t).bind _).bind _ = _
    rw [ht]
    rfl
  have htraffic : s₂.traffic a = s.traffic a ++ [.gave x] := Function.update_self _ _ _
  have hreadFrom : s₂.readFrom a = s.readFrom a ++ x := Function.update_self _ _ _
  refine ⟨{ s₂ with pump := p }, ?_, ?_, ha, hb⟩
  · rw [enqueueToPeer, show (s.gotBytes a x).heap a = _ from ha]
    show ((s.gotBytes a x).heap b).bind _ = _
    rw [show (s.gotBytes a x).heap b = _ from hb]
    show (remoteSocketEnqueue b _ s₁).bind _ = _
    rw [hremote]
    show (s.pump.del fd (.only .read)).bind _ = _
    rw [hdel]
    rfl
  · refine h.touched (q := pkts) (f := fde') ha rfl ⟨?_, rfl, rfl, rfl, rfl, rfl,
      h.wellFormed.watched.consistent.set hset, htable, ?_⟩ (by rintro ⟨⟩)
      ⟨harg.trans hwaits.arg, ?_, ?_⟩ ?_ ?_ ?_
    · rw [← ha, Function.update_eq_self]
      rfl
    · exact fun c hca => ⟨Function.update_of_ne hca _ _, rfl, Function.update_of_ne hca _ _⟩
    · rw [hwrite]
      exact hwaits.write
    · rw [hclear']
      exact fun hpending => absurd hpending Bool.false_ne_true
    · show InOrder (s₂.traffic a) (s.written a) (s₂.readFrom a)
      rw [htraffic, hreadFrom]
      exact (h.streams.inOrder a).gave_concat hgranted.sentOut (hgranted.want.symm.trans hwant) x
    · show Current _ (s₂.traffic a) (s.written a)
      rw [htraffic]
      obtain ⟨hqueued, hokay⟩ := h.streams.current a _ ha rfl
      constructor
      · rw [taken_concat]
        exact (List.append_nil _).trans hqueued
      · rw [okays_concat, tooks_concat]
        exact hokay
    · intro _
      show Granted fde' (s₂.traffic a) (s₂.readFrom a)
      rw [htraffic, hreadFrom]
      refine ⟨?_, ?_, ?_⟩
      · rw [given_concat, given_singleton_gave, hgranted.sentOut]
      · rw [hread, mayGive_concat]
      · rw [hclear']
        exact fun hpending => absurd hpending Bool.false_ne_true

theorem readEvent_connected (as : List ReadAnswer) (h : s.Sound g)
    (ha : s.heap a = some (connectedSocket id b fd pkts))
    (hb : s.heap b = some (remoteSocket rid a t)) (hfde : s.pump.table fd = some fde)
    (hclear : fde.events = .empty) (hwant : fde.want .read = true) :
    ∃ s', readEvent as a s = some s' ∧ s'.Sound g := by
  have hgot : ∃ s', ((readLoop as maxPayload).1 = [] ∧ s' = s ∨ (readLoop as maxPayload).1 ≠ [] ∧
      enqueueToPeer a (readLoop as maxPayload).1 (length_readLoop as maxPayload)
        (s.gotBytes a (readLoop as maxPayload).1) = some s') ∧ s'.Sound g ∧
      s'.heap a = some (connectedSocket id b fd pkts) ∧ s'.heap b = some (remoteSocket rid a t) := by
    by_cases hnil : (readLoop as maxPayload).1 = []
    · exact ⟨s, .inl ⟨hnil, rfl⟩, h, ha, hb⟩
    · obtain ⟨s', henqueue, hsound, ha', hb'⟩ :=
        enqueueToPeer_spec h ha hb hfde hclear hwant (length_readLoop as maxPayload)
      exact ⟨s', .inr ⟨hnil, henqueue⟩, hsound, ha', hb'⟩
  obtain ⟨s₁, hgot, hsound, ha₁, hb₁⟩ := hgot
  rw [readEvent_eq as hgot]
  split
  · obtain ⟨s', hclose, e, -⟩ := close_connected 1 hsound.wellFormed ha₁ hb₁
    exact ⟨s', hclose, hsound.ended e ha₁ hb₁⟩
  · exact ⟨s₁, rfl, hsound⟩

/-- The function of a local socket, when the pump calls it. -/
theorem localSocketEvent_sound (ws : List WriteAnswer) (rs : List ReadAnswer) (events : Events)
    (h : s.Sound g) (ha : s.heap a = some sk) (hkind : sk.kind = .local)
    (hfde : s.pump.table sk.fd = some fde) (hclear : fde.events = .empty)
    (hwrite : events .write = true → sk.pkts ≠ [])
    (hread : sk.closing = false → events .read = true → fde.want .read = true) :
    ∃ s', localSocketEvent ws rs events a s = some s' ∧ s'.Sound g := by
  have hskip : events .write ≠ true → localSocketEvent ws rs events a s =
      if events .read = true then readEvent rs a s else some s := by
    intro hno
    rw [localSocketEvent, if_neg hno]
    show (if true = true ∧ events .read = true then _ else _) = _
    by_cases hr : events .read = true
    · rw [if_pos ⟨rfl, hr⟩, if_pos hr]
    · rw [if_neg (fun hand => hr hand.2), if_neg hr]
      rfl
  have hstop : ∀ s', events .write = true → writeEvent ws a s = some (s', false) →
      localSocketEvent ws rs events a s = some s' := by
    intro s' hw hevent
    rw [localSocketEvent, if_pos hw, hevent]
    rfl
  have hgo : ∀ s', events .write = true → writeEvent ws a s = some (s', true) →
      localSocketEvent ws rs events a s =
        if events .read = true then readEvent rs a s' else some s' := by
    intro s' hw hevent
    rw [localSocketEvent, if_pos hw, hevent]
    show (if true = true ∧ events .read = true then _ else _) = _
    by_cases hr : events .read = true
    · rw [if_pos ⟨rfl, hr⟩, if_pos hr]
    · rw [if_neg (fun hand => hr hand.2), if_neg hr]
      rfl
  cases h.wellFormed.linked.placed a sk ha with
  | connected hb hmem =>
      by_cases hw : events .write = true
      · rcases writeEvent_connected ws h ha hb (hwrite hw) hfde hclear with
          ⟨s', hevent, hsound⟩ | ⟨s', fde', hevent, hsound, ha', hfde', hwant, hclear'⟩
        · exact ⟨s', hstop s' hw hevent, hsound⟩
        · rw [hgo s' hw hevent]
          split
          · rename_i hr
            obtain ⟨rid', t', tr, hb', -, -⟩ := hsound.wellFormed.linked.peer ha'
            exact readEvent_connected rs hsound ha' hb' hfde' hclear' (hwant.trans (hread rfl hr))
          · exact ⟨s', rfl, hsound⟩
      · rw [hskip hw]
        split
        · rename_i hr
          exact readEvent_connected rs h ha hb hfde hclear (hread rfl hr)
        · exact ⟨s, rfl, h⟩
  | closing hpkts hmem =>
      by_cases hw : events .write = true
      · obtain ⟨s', hevent, hsound⟩ := writeEvent_closing ws h ha
        exact ⟨s', hstop s' hw hevent, hsound⟩
      · rw [hskip hw]
        split
        · exact readEvent_closing rs h ha
        · exact ⟨s, rfl, h⟩
  | remote _ _ _ => cases hkind

end ReadEvent

end Daemon

end OpenRecovery.Sideloader
