import OpenRecovery.Sideloader.Sockets

/-!
# What holds of the sockets

In every state that the process can reach, the memory holds three kinds of sockets: connected local
sockets, the remote sockets that are their peers, and local sockets without a peer that still have
packets to write. `WellFormed` says so, with the lists, the transports and the event pump they
belong to. The functions of `sockets.c` keep it, and in such a state none of them follows a pointer
that does not point to a socket (`close_connected`, `runTransportDisconnects_spec`,
`closeAllSockets_spec`).
-/

set_option autoImplicit false

namespace OpenRecovery.Sideloader

open OpenRecovery.Storage

/-- A local socket that has a peer. -/
abbrev connectedSocket (id : Word) (b : Addr) (fd : ℕ) (pkts : List Bytes) : ASocket :=
  ⟨.local, id, false, some b, none, fd, pkts⟩

/-- A local socket in the list of closing ones. -/
abbrev closingSocket (fd : ℕ) (pkts : List Bytes) : ASocket := ⟨.local, 0, true, none, none, fd, pkts⟩

/-- A remote socket. -/
abbrev remoteSocket (id : Word) (a t : Addr) : ASocket := ⟨.remote, id, false, some a, some t, 0, []⟩

namespace Daemon

section Memory

variable (s : Daemon) {a c t t' : Addr}

@[simp] theorem store_self (sk : Option ASocket) : (s.store a sk).heap a = sk :=
  Function.update_self _ _ _

@[simp] theorem store_of_ne (sk : Option ASocket) (h : c ≠ a) : (s.store a sk).heap c = s.heap c :=
  Function.update_of_ne h _ _

@[simp] theorem storeTransport_self (tr : Option Transport) : (s.storeTransport t tr).transports t = tr :=
  Function.update_self _ _ _

@[simp] theorem storeTransport_of_ne (tr : Option Transport) (h : t' ≠ t) :
    (s.storeTransport t tr).transports t' = s.transports t' :=
  Function.update_of_ne h _ _

end Memory

variable {g : Option Addr}

/-! ## The invariant -/

/-- Where a socket belongs. -/
inductive Placed (s : Daemon) (c : Addr) : ASocket → Prop where
  | connected {id : Word} {b : Addr} {fd : ℕ} {pkts : List Bytes} {rid : Word} {t : Addr}
      (hpeer : s.heap b = some (remoteSocket rid c t)) (hmem : c ∈ s.localSocketList) :
      Placed s c (connectedSocket id b fd pkts)
  | closing {fd : ℕ} {pkts : List Bytes} (hpkts : pkts ≠ []) (hmem : c ∈ s.localSocketClosingList) :
      Placed s c (closingSocket fd pkts)
  | remote {rid : Word} {a t : Addr} {id : Word} {fd : ℕ} {pkts : List Bytes} {tr : Transport}
      (hpeer : s.heap a = some (connectedSocket id c fd pkts)) (htransport : s.transports t = some tr)
      (hmem : c ∈ tr.disconnects) : Placed s c (remoteSocket rid a t)

/-- The sockets, the lists and the transports belong together. -/
structure Linked (s : Daemon) : Prop where
  placed : ∀ c sk, s.heap c = some sk → s.Placed c sk
  connected : ∀ a ∈ s.localSocketList, ∃ id b fd pkts, s.heap a = some (connectedSocket id b fd pkts)
  closing : ∀ a ∈ s.localSocketClosingList, ∃ fd pkts, s.heap a = some (closingSocket fd pkts)
  remote : ∀ t tr, s.transports t = some tr → ∀ b ∈ tr.disconnects, ∃ id a,
    s.heap b = some (remoteSocket id a t)
  listNodup : s.localSocketList.Nodup
  closingNodup : s.localSocketClosingList.Nodup
  disconnectsNodup : ∀ t tr, s.transports t = some tr → tr.disconnects.Nodup
  fresh : ∀ a, s.allocated ≤ a → s.heap a = none ∧ s.transports a = none

/-- What the event pump does for a local socket: it waits to write as long as packets are queued. -/
structure Waits (a : Addr) (sk : ASocket) (fde : Fde Owner) : Prop where
  arg : fde.arg = .socket a
  write : fde.want .write = true ↔ sk.pkts ≠ []
  pending : fde.events .write = true → sk.pkts ≠ []

/-- The sockets and the transports and the event pump belong together. `g` is a transport whose
`fdevent` has been removed, if there is one. -/
structure Watched (s : Daemon) (g : Option Addr) : Prop where
  consistent : s.pump.Consistent
  socket : ∀ a sk, s.heap a = some sk → sk.kind = .local →
    ∃ fde, s.pump.table sk.fd = some fde ∧ Waits a sk fde
  owner : ∀ fd fde a, s.pump.table fd = some fde → fde.arg = .socket a →
    ∃ sk, s.heap a = some sk ∧ sk.kind = .local ∧ sk.fd = fd
  transport : ∀ t tr, s.transports t = some tr → g ≠ some t →
    ∃ fde, s.pump.table tr.socket = some fde ∧ fde.arg = .transport t
  transportOwner : ∀ fd fde t, s.pump.table fd = some fde → fde.arg = .transport t →
    g ≠ some t ∧ ∃ tr, s.transports t = some tr ∧ tr.socket = fd

structure WellFormed (s : Daemon) (g : Option Addr) : Prop where
  linked : s.Linked
  watched : s.Watched g

section Facts

variable {s : Daemon} {a b c t : Addr} {id rid : Word} {fd : ℕ} {pkts : List Bytes}

/-- A connected socket has a remote one for its peer, on a transport that is there. -/
theorem Linked.peer (h : s.Linked) (ha : s.heap a = some (connectedSocket id b fd pkts)) :
    ∃ rid t tr, s.heap b = some (remoteSocket rid a t) ∧ s.transports t = some tr ∧
      b ∈ tr.disconnects := by
  cases h.placed a _ ha with
  | connected hpeer hmem =>
      cases h.placed b _ hpeer with
      | remote hback htransport hmem => exact ⟨_, _, _, hpeer, htransport, hmem⟩

theorem ne_of_connected_remote (ha : s.heap a = some (connectedSocket id b fd pkts))
    {a' : Addr} (hc : s.heap c = some (remoteSocket rid a' t)) : a ≠ c := by
  rintro rfl
  rw [ha] at hc
  cases hc

end Facts

/-! ## Closing -/

/-- What is left of a state when the connection of `a` and `b` on `t` has ended. -/
structure Ended (s s' : Daemon) (a b t : Addr) (fd : ℕ) (pkts : List Bytes) : Prop where
  remoteGone : s'.heap b = none
  other : ∀ c, c ≠ a → c ≠ b → s'.heap c = s.heap c
  transports : ∃ tr, s.transports t = some tr ∧ s'.transports =
    Function.update s.transports t (some { tr with disconnects := tr.disconnects.erase b })
  list : s'.localSocketList = s.localSocketList.erase a
  localEnd : pkts = [] ∧ s'.heap a = none ∧
      s'.localSocketClosingList = s.localSocketClosingList.erase a ∧
      s.pump.remove fd = some s'.pump ∨
    pkts ≠ [] ∧ s'.heap a = some (closingSocket fd pkts) ∧
      s'.localSocketClosingList = s.localSocketClosingList.erase a ++ [a] ∧
      s.pump.del fd (.only .read) = some s'.pump
  allocated : s'.allocated = s.allocated
  nextId : s'.localSocketNextId = s.localSocketNextId
  traffic : s'.traffic = s.traffic
  written : s'.written = s.written
  readFrom : s'.readFrom = s.readFrom

section Ended

variable {s s' : Daemon} {a b t : Addr} {id rid : Word} {fd : ℕ} {pkts : List Bytes}

theorem Ended.heap_some (e : Ended s s' a b t fd pkts) {c : Addr} {sk : ASocket}
    (hc : s'.heap c = some sk) :
    c ≠ b ∧ (c = a ∧ pkts ≠ [] ∧ sk = closingSocket fd pkts ∨ c ≠ a ∧ s.heap c = some sk) := by
  have hcb : c ≠ b := by
    rintro rfl
    rw [e.remoteGone] at hc
    cases hc
  refine ⟨hcb, ?_⟩
  by_cases hca : c = a
  · subst hca
    rcases e.localEnd with ⟨-, hgone, -⟩ | ⟨hpkts, hhere, -⟩
    · rw [hgone] at hc
      cases hc
    · rw [hhere] at hc
      exact .inl ⟨rfl, hpkts, (Option.some.inj hc).symm⟩
  · exact .inr ⟨hca, by rw [← e.other c hca hcb, hc]⟩

theorem Ended.transport_some (e : Ended s s' a b t fd pkts) {t' : Addr} {tr' : Transport}
    (ht : s'.transports t' = some tr') :
    ∃ tr, s.transports t' = some tr ∧ tr'.connectionState = tr.connectionState ∧
      tr'.socket = tr.socket ∧
      (t' = t ∧ tr'.disconnects = tr.disconnects.erase b ∨ t' ≠ t ∧ tr'.disconnects = tr.disconnects) := by
  obtain ⟨tr, htr, hnew⟩ := e.transports
  rw [hnew] at ht
  by_cases hne : t' = t
  · subst hne
    rw [Function.update_self] at ht
    cases ht
    exact ⟨tr, htr, rfl, rfl, .inl ⟨rfl, rfl⟩⟩
  · rw [Function.update_of_ne hne] at ht
    exact ⟨tr', ht, rfl, rfl, .inr ⟨hne, rfl⟩⟩

theorem Ended.mem_disconnects (e : Ended s s' a b t fd pkts) {c t' : Addr} {tr : Transport}
    (ht : s.transports t' = some tr) (hmem : c ∈ tr.disconnects) (hc : c ≠ b) :
    ∃ tr', s'.transports t' = some tr' ∧ c ∈ tr'.disconnects := by
  obtain ⟨tr₀, htr, hnew⟩ := e.transports
  rw [hnew]
  by_cases hne : t' = t
  · subst hne
    rw [Function.update_self]
    rw [ht] at htr
    cases htr
    exact ⟨_, rfl, (List.mem_erase_of_ne hc).mpr hmem⟩
  · rw [Function.update_of_ne hne]
    exact ⟨tr, ht, hmem⟩

theorem Ended.closing_eq (e : Ended s s' a b t fd pkts) :
    s'.localSocketClosingList = s.localSocketClosingList.erase a ∧ pkts = [] ∨
      s'.localSocketClosingList = s.localSocketClosingList.erase a ++ [a] ∧ pkts ≠ [] := by
  rcases e.localEnd with ⟨hpkts, -, hlist, -⟩ | ⟨hpkts, -, hlist, -⟩
  · exact .inl ⟨hlist, hpkts⟩
  · exact .inr ⟨hlist, hpkts⟩

/-- The other closing sockets stay in their list. -/
theorem Ended.mem_closing (e : Ended s s' a b t fd pkts) {c : Addr} (hca : c ≠ a)
    (hmem : c ∈ s.localSocketClosingList) : c ∈ s'.localSocketClosingList := by
  have hleft := (List.mem_erase_of_ne hca).mpr hmem
  rcases e.closing_eq with ⟨heq, -⟩ | ⟨heq, -⟩
  · rwa [heq]
  · rw [heq]
    exact List.mem_append_left _ hleft

/-- A socket other than the two halves has what it points to. -/
theorem Ended.placed (e : Ended s s' a b t fd pkts) (h : s.Linked)
    (ha : s.heap a = some (connectedSocket id b fd pkts)) (hb : s.heap b = some (remoteSocket rid a t))
    {c : Addr} {sk : ASocket} (hc : s'.heap c = some sk) : s'.Placed c sk := by
  obtain ⟨hcb, ⟨rfl, hpkts, rfl⟩ | ⟨hca, hc⟩⟩ := e.heap_some hc
  · refine .closing hpkts ?_
    rcases e.closing_eq with ⟨-, hnil⟩ | ⟨heq, -⟩
    · exact absurd hnil hpkts
    · rw [heq]
      exact List.mem_append_right _ (List.mem_singleton_self c)
  · cases h.placed c sk hc with
    | @connected _ b' _ _ _ _ hpeer hmem =>
        -- its peer is neither half of the connection that ended
        have hba : b' ≠ a := by
          rintro rfl
          rw [ha] at hpeer
          cases hpeer
        have hbb : b' ≠ b := by
          rintro rfl
          rw [hb] at hpeer
          cases hpeer
          exact hca rfl
        refine .connected (by rw [e.other b' hba hbb, hpeer]) ?_
        rw [e.list]
        exact (List.mem_erase_of_ne hca).mpr hmem
    | closing hpkts hmem => exact .closing hpkts (e.mem_closing hca hmem)
    | @remote _ a' _ _ _ _ _ hpeer htransport hmem =>
        have haa : a' ≠ a := by
          rintro rfl
          rw [ha] at hpeer
          cases hpeer
          exact hcb rfl
        have hab : a' ≠ b := by
          rintro rfl
          rw [hb] at hpeer
          cases hpeer
        obtain ⟨tr', htr', hmem'⟩ := e.mem_disconnects htransport hmem hcb
        exact .remote (by rw [e.other a' haa hab, hpeer]) htr' hmem'

theorem Ended.connected (e : Ended s s' a b t fd pkts) (h : s.Linked)
    (hb : s.heap b = some (remoteSocket rid a t)) {c : Addr} (hc : c ∈ s'.localSocketList) :
    ∃ id b fd pkts, s'.heap c = some (connectedSocket id b fd pkts) := by
  rw [e.list] at hc
  have hca : c ≠ a := by
    rintro rfl
    exact h.listNodup.not_mem_erase hc
  obtain ⟨id', b', fd', pkts', hsk⟩ := h.connected c (List.mem_of_mem_erase hc)
  have hcb : c ≠ b := by
    rintro rfl
    rw [hb] at hsk
    cases hsk
  exact ⟨id', b', fd', pkts', by rw [e.other c hca hcb, hsk]⟩

theorem Ended.closing (e : Ended s s' a b t fd pkts) (h : s.Linked)
    (ha : s.heap a = some (connectedSocket id b fd pkts)) (hb : s.heap b = some (remoteSocket rid a t))
    {c : Addr} (hc : c ∈ s'.localSocketClosingList) :
    ∃ fd pkts, s'.heap c = some (closingSocket fd pkts) := by
  by_cases hca : c = a
  · subst hca
    rcases e.localEnd with ⟨-, -, heq, -⟩ | ⟨-, hhere, -⟩
    · rw [heq] at hc
      obtain ⟨_, _, hclosing⟩ := h.closing c (List.mem_of_mem_erase hc)
      rw [ha] at hclosing
      cases hclosing
    · exact ⟨fd, pkts, hhere⟩
  · have hold : c ∈ s.localSocketClosingList := by
      rcases e.closing_eq with ⟨heq, -⟩ | ⟨heq, -⟩
      · rw [heq] at hc
        exact List.mem_of_mem_erase hc
      · rw [heq, List.mem_append, List.mem_singleton] at hc
        exact List.mem_of_mem_erase (hc.resolve_right hca)
    obtain ⟨fd', pkts', hsk⟩ := h.closing c hold
    have hcb : c ≠ b := by
      rintro rfl
      rw [hb] at hsk
      cases hsk
    exact ⟨fd', pkts', by rw [e.other c hca hcb, hsk]⟩

/-- The remote sockets that a transport lists are there. -/
theorem Ended.remote (e : Ended s s' a b t fd pkts) (h : s.Linked)
    (ha : s.heap a = some (connectedSocket id b fd pkts)) (hb : s.heap b = some (remoteSocket rid a t))
    {t' : Addr} {tr' : Transport} (ht : s'.transports t' = some tr') {c : Addr}
    (hc : c ∈ tr'.disconnects) : ∃ id a, s'.heap c = some (remoteSocket id a t') := by
  obtain ⟨tr, htr, -, -, hdis⟩ := e.transport_some ht
  have hmem : c ∈ tr.disconnects ∧ c ≠ b := by
    rcases hdis with ⟨rfl, heq⟩ | ⟨hne, heq⟩
    · rw [heq] at hc
      refine ⟨List.mem_of_mem_erase hc, ?_⟩
      rintro rfl
      exact (h.disconnectsNodup t' tr htr).not_mem_erase hc
    · rw [heq] at hc
      refine ⟨hc, ?_⟩
      rintro rfl
      obtain ⟨_, _, hsk⟩ := h.remote t' tr htr c hc
      rw [hb] at hsk
      cases hsk
      exact hne rfl
  obtain ⟨id', a', hsk⟩ := h.remote t' tr htr c hmem.1
  have hca : c ≠ a := by
    rintro rfl
    rw [ha] at hsk
    cases hsk
  exact ⟨id', a', by rw [e.other c hca hmem.2, hsk]⟩

theorem Ended.fresh (e : Ended s s' a b t fd pkts) (h : s.Linked)
    (ha : s.heap a = some (connectedSocket id b fd pkts)) {c : Addr} (hc : s'.allocated ≤ c) :
    s'.heap c = none ∧ s'.transports c = none := by
  rw [e.allocated] at hc
  obtain ⟨hheap, htransport⟩ := h.fresh c hc
  constructor
  · cases hsk : s'.heap c with
    | none => rfl
    | some sk =>
        obtain ⟨-, ⟨rfl, -⟩ | ⟨-, hold⟩⟩ := e.heap_some hsk
        · rw [ha] at hheap
          cases hheap
        · rw [hheap] at hold
          cases hold
  · cases ht : s'.transports c with
    | none => rfl
    | some tr' =>
        obtain ⟨tr, htr, -⟩ := e.transport_some ht
        rw [htransport] at htr
        cases htr

/-- The end of a connection leaves the other sockets as they belong together. -/
theorem Ended.linked (e : Ended s s' a b t fd pkts) (h : s.Linked)
    (ha : s.heap a = some (connectedSocket id b fd pkts))
    (hb : s.heap b = some (remoteSocket rid a t)) : s'.Linked where
  placed _ _ hc := e.placed h ha hb hc
  connected _ hc := e.connected h hb hc
  closing _ hc := e.closing h ha hb hc
  remote _ _ ht _ hc := e.remote h ha hb ht hc
  listNodup := by
    rw [e.list]
    exact h.listNodup.erase a
  closingNodup := by
    rcases e.closing_eq with ⟨heq, -⟩ | ⟨heq, -⟩
    · rw [heq]
      exact h.closingNodup.erase a
    · rw [heq]
      refine (h.closingNodup.erase a).append (List.nodup_singleton a) ?_
      rw [List.disjoint_singleton]
      exact h.closingNodup.not_mem_erase
  disconnectsNodup t' tr' ht := by
    obtain ⟨tr, htr, -, -, ⟨-, heq⟩ | ⟨-, heq⟩⟩ := e.transport_some ht
    · rw [heq]
      exact (h.disconnectsNodup t' tr htr).erase b
    · rw [heq]
      exact h.disconnectsNodup t' tr htr
  fresh _ hc := e.fresh h ha hc

end Ended

section Watched

variable {s s' : Daemon} {a b t : Addr} {id rid : Word} {fd : ℕ} {pkts : List Bytes}

/-- The descriptors of two local sockets differ. -/
theorem Watched.fd_ne (h : s.Watched g) {c : Addr} {sk sk' : ASocket} (ha : s.heap a = some sk)
    (hkind : sk.kind = .local) (hc : s.heap c = some sk') (hkind' : sk'.kind = .local) (hne : c ≠ a) :
    sk'.fd ≠ sk.fd := by
  intro hfd
  obtain ⟨fde, hfde, hwaits⟩ := h.socket a sk ha hkind
  obtain ⟨fde', hfde', hwaits'⟩ := h.socket c sk' hc hkind'
  rw [hfd, hfde] at hfde'
  cases hfde'
  exact hne (Owner.socket.inj (hwaits'.arg.symm.trans hwaits.arg))

theorem Watched.transport_fd_ne (h : s.Watched g) {sk : ASocket} {t : Addr} {tr : Transport}
    (ha : s.heap a = some sk) (hkind : sk.kind = .local) (ht : s.transports t = some tr)
    (hg : g ≠ some t) : tr.socket ≠ sk.fd := by
  intro hfd
  obtain ⟨fde, hfde, hwaits⟩ := h.socket a sk ha hkind
  obtain ⟨fde', hfde', harg⟩ := h.transport t tr ht hg
  rw [hfd, hfde] at hfde'
  cases hfde'
  cases hwaits.arg.symm.trans harg

/-- A state that differs for one local socket: in what is queued, or in that it is gone. -/
theorem Watched.change (h : s.Watched g) {sk : ASocket} (ha : s.heap a = some sk)
    (hkind : sk.kind = .local) (entry : Option (Fde Owner)) (hconsistent : s'.pump.Consistent)
    (htable : s'.pump.table = Function.update s.pump.table sk.fd entry)
    (hself : (s'.heap a = none ∧ entry = none) ∨ ∃ sk' fde', s'.heap a = some sk' ∧ sk'.kind = .local ∧
      sk'.fd = sk.fd ∧ entry = some fde' ∧ Waits a sk' fde')
    (hother : ∀ c, c ≠ a → ∀ sk', s'.heap c = some sk' → s.heap c = some sk')
    (hlocal : ∀ c, c ≠ a → ∀ sk', s.heap c = some sk' → sk'.kind = .local → s'.heap c = some sk')
    (htransports : ∀ t, (s'.transports t).map Transport.socket = (s.transports t).map Transport.socket) :
    s'.Watched g := by
  obtain ⟨fde, hfde, hwaits⟩ := h.socket a sk ha hkind
  have hthere : ∀ fd', fd' ≠ sk.fd → s'.pump.table fd' = s.pump.table fd' := by
    intro fd' hne
    rw [htable, Function.update_of_ne hne]
  have hhere : s'.pump.table sk.fd = entry := by rw [htable, Function.update_self]
  refine ⟨hconsistent, ?_, ?_, ?_, ?_⟩
  · intro c sk' hc hkind'
    by_cases hca : c = a
    · subst hca
      rcases hself with ⟨hgone, -⟩ | ⟨sk'', fde', hsk, -, hfd, hentry, hwaits'⟩
      · rw [hgone] at hc
        cases hc
      · rw [hsk] at hc
        cases hc
        exact ⟨fde', by rw [hfd, hhere, hentry], hwaits'⟩
    · have hold := hother c hca sk' hc
      obtain ⟨fde', hfde', hwaits'⟩ := h.socket c sk' hold hkind'
      exact ⟨fde', by rw [hthere _ (h.fd_ne ha hkind hold hkind' hca), hfde'], hwaits'⟩
  · intro fd' fde' c hfde' harg
    by_cases hfd : fd' = sk.fd
    · subst hfd
      rw [hhere] at hfde'
      rcases hself with ⟨-, hnone⟩ | ⟨sk'', fde'', hsk, hlocal', hsame, hentry, hwaits'⟩
      · rw [hnone] at hfde'
        cases hfde'
      · rw [hentry] at hfde'
        cases hfde'
        cases hwaits'.arg.symm.trans harg
        exact ⟨sk'', hsk, hlocal', hsame⟩
    · rw [hthere fd' hfd] at hfde'
      obtain ⟨sk', hc, hkind', hsame⟩ := h.owner fd' fde' c hfde' harg
      have hca : c ≠ a := by
        rintro rfl
        rw [ha] at hc
        cases hc
        exact hfd hsame.symm
      exact ⟨sk', hlocal c hca sk' hc hkind', hkind', hsame⟩
  · intro t' tr' ht hg
    have hmap := htransports t'
    rw [ht] at hmap
    obtain ⟨tr, htr, hsocket⟩ := Option.map_eq_some_iff.mp hmap.symm
    obtain ⟨fde', hfde', harg⟩ := h.transport t' tr htr hg
    refine ⟨fde', ?_, harg⟩
    rw [← hsocket, hthere _ (h.transport_fd_ne ha hkind htr hg), hfde']
  · intro fd' fde' t' hfde' harg
    have hfd : fd' ≠ sk.fd := by
      rintro rfl
      rw [hhere] at hfde'
      rcases hself with ⟨-, hnone⟩ | ⟨_, _, -, -, -, hentry, hwaits'⟩
      · rw [hnone] at hfde'
        cases hfde'
      · rw [hentry] at hfde'
        cases hfde'
        cases hwaits'.arg.symm.trans harg
    rw [hthere fd' hfd] at hfde'
    obtain ⟨hg, tr, htr, hsocket⟩ := h.transportOwner fd' fde' t' hfde' harg
    have hmap := htransports t'
    rw [htr] at hmap
    obtain ⟨tr', htr', hsame⟩ := Option.map_eq_some_iff.mp hmap
    exact ⟨hg, tr', htr', hsame.trans hsocket⟩

theorem Ended.map_socket (e : Ended s s' a b t fd pkts) (t' : Addr) :
    (s'.transports t').map Transport.socket = (s.transports t').map Transport.socket := by
  obtain ⟨tr, htr, hnew⟩ := e.transports
  rw [hnew]
  by_cases hne : t' = t
  · subst hne
    rw [Function.update_self, htr]
    rfl
  · rw [Function.update_of_ne hne]

/-- The end of a connection, and the event pump. -/
theorem Ended.watched (e : Ended s s' a b t fd pkts) (h : s.Watched g)
    (ha : s.heap a = some (connectedSocket id b fd pkts))
    (hb : s.heap b = some (remoteSocket rid a t)) : s'.Watched g := by
  obtain ⟨fde, hfde, hwaits⟩ := h.socket a _ ha rfl
  have hother : ∀ c, c ≠ a → ∀ sk', s'.heap c = some sk' → s.heap c = some sk' := by
    intro c hca sk' hc
    obtain ⟨-, ⟨heq, -⟩ | ⟨-, hold⟩⟩ := e.heap_some hc
    · exact absurd heq hca
    · exact hold
  have hlocal : ∀ c, c ≠ a → ∀ sk', s.heap c = some sk' → sk'.kind = .local →
      s'.heap c = some sk' := by
    intro c hca sk' hc hkind
    have hcb : c ≠ b := by
      rintro rfl
      rw [hb] at hc
      cases hc
      cases hkind
    rw [e.other c hca hcb, hc]
  rcases e.localEnd with ⟨-, hgone, -, hremove⟩ | ⟨hpkts, hhere, -, hdel⟩
  · obtain ⟨p, hp, htable⟩ := Pump.exists_remove hfde
    rw [hp] at hremove
    cases hremove
    exact h.change ha rfl none (h.consistent.remove hp) htable (.inl ⟨hgone, rfl⟩) hother hlocal
      e.map_socket
  · rw [Pump.del_eq_set hfde] at hdel
    obtain ⟨p, fde', hp, htable, hwant, harg, hevents⟩ :=
      Pump.exists_set hfde (fde.want.del (.only .read))
    rw [hp] at hdel
    cases hdel
    refine h.change ha rfl (some fde') (h.consistent.set hp) htable
      (.inr ⟨_, fde', hhere, rfl, rfl, rfl, harg.trans hwaits.arg, ?_, ?_⟩) hother hlocal e.map_socket
    · rw [hwant, Events.del_apply]
      exact ⟨fun _ => hpkts, fun hne => by rw [hwaits.write.mpr hne]; rfl⟩
    · exact fun _ => hpkts

theorem Ended.wellFormed (e : Ended s s' a b t fd pkts) (h : s.WellFormed g)
    (ha : s.heap a = some (connectedSocket id b fd pkts))
    (hb : s.heap b = some (remoteSocket rid a t)) : s'.WellFormed g :=
  ⟨e.linked h.linked ha hb, e.watched h.watched ha hb⟩

end Watched

/-- What `local_socket_close_locked` does at its end. -/
structure LocalEnded (s s' : Daemon) (a : Addr) (fd : ℕ) (pkts : List Bytes) : Prop where
  other : ∀ c, c ≠ a → s'.heap c = s.heap c
  list : s'.localSocketList = s.localSocketList.erase a
  localEnd : pkts = [] ∧ s'.heap a = none ∧
      s'.localSocketClosingList = s.localSocketClosingList.erase a ∧
      s.pump.remove fd = some s'.pump ∨
    pkts ≠ [] ∧ s'.heap a = some (closingSocket fd pkts) ∧
      s'.localSocketClosingList = s.localSocketClosingList.erase a ++ [a] ∧
      s.pump.del fd (.only .read) = some s'.pump
  transports : s'.transports = s.transports
  allocated : s'.allocated = s.allocated
  nextId : s'.localSocketNextId = s.localSocketNextId
  traffic : s'.traffic = s.traffic
  written : s'.written = s.written
  readFrom : s'.readFrom = s.readFrom
  sent : s'.sent = s.sent

section Close

variable {s : Daemon} {a b t : Addr} {id rid : Word} {fd : ℕ} {pkts : List Bytes} {fde : Fde Owner}

theorem localSocketDestroy_eq {sk : ASocket} {p : Pump Owner} (ha : s.heap a = some sk)
    (hremove : s.pump.remove sk.fd = some p) :
    localSocketDestroy a s = some (({ s with pump := p }.removeSocket a).store a none) := by
  rw [localSocketDestroy, ha]
  show (s.pump.remove sk.fd).bind _ = _
  rw [hremove]
  rfl

theorem endLocal_spec (ha : s.heap a = some ⟨.local, id, false, none, none, fd, pkts⟩)
    (hfde : s.pump.table fd = some fde) : ∃ s', endLocal a s = some s' ∧ LocalEnded s s' a fd pkts := by
  by_cases hpkts : pkts = []
  · obtain ⟨p, hremove, -⟩ := Pump.exists_remove hfde
    refine ⟨({ s with pump := p }.removeSocket a).store a none, ?_, ?_⟩
    · rw [endLocal, ha]
      show (if _ then _ else _) = _
      rw [if_pos (.inr hpkts)]
      exact localSocketDestroy_eq ha hremove
    · exact ⟨fun c hca => store_of_ne _ none hca, rfl, .inl ⟨hpkts, store_self _ none, rfl, hremove⟩,
        rfl, rfl, rfl, rfl, rfl, rfl, rfl⟩
  · obtain ⟨p, _, hset, -⟩ := Pump.exists_set hfde (fde.want.del (.only .read))
    rw [← Pump.del_eq_set hfde] at hset
    refine ⟨{ ({ s.store a (some (closingSocket fd pkts)) with pump := p }.removeSocket a) with
      localSocketClosingList := s.localSocketClosingList.erase a ++ [a] }, ?_, ?_⟩
    · rw [endLocal, ha]
      show (if _ then _ else _) = _
      rw [if_neg (not_or.mpr ⟨Bool.false_ne_true, hpkts⟩)]
      show ((s.pump.del fd (.only .read)).bind _ >>= _) = _
      rw [hset]
      rfl
    · exact ⟨fun c hca => store_of_ne _ _ hca, rfl, .inr ⟨hpkts, store_self _ _, rfl, hset⟩,
        rfl, rfl, rfl, rfl, rfl, rfl, rfl⟩

/-- A remote socket without a peer says `CLOSE` to the other side. -/
theorem close_peerless (n : ℕ) (hb : s.heap b = some ⟨.remote, rid, false, none, some t, 0, []⟩)
    {tr : Transport} (ht : s.transports t = some tr) :
    close (n + 1) b s = some (({ s with sent := s.sent ++ [(t, APacket.bare aClse 0 rid)] }.storeTransport t
      (some { tr with disconnects := tr.disconnects.erase b })).store b none) := by
  rw [close, hb]
  show remoteSocketClose (close n) b s = _
  rw [remoteSocketClose, hb]
  show ((s.transports t).bind _ >>= _) = _
  rw [ht]
  show ((s.transports t).bind _ >>= _) = _
  rw [ht]
  rfl

theorem close_connected (n : ℕ) (h : s.WellFormed g)
    (ha : s.heap a = some (connectedSocket id b fd pkts))
    (hb : s.heap b = some (remoteSocket rid a t)) :
    ∃ s', close (n + 2) a s = some s' ∧ Ended s s' a b t fd pkts ∧
      s'.sent = s.sent ++ [(t, .bare aClse 0 rid)] := by
  obtain ⟨rid', t', tr, hb', ht, -⟩ := h.linked.peer ha
  rw [hb] at hb'
  cases hb'
  obtain ⟨fde, hfde, -⟩ := h.watched.socket a _ ha rfl
  have hab : a ≠ b := ne_of_connected_remote ha hb
  -- the peer forgets the socket before it is closed
  let s₁ := s.store b (some ⟨.remote, rid, false, none, some t, 0, []⟩)
  let s₂ := ({ s₁ with sent := s₁.sent ++ [(t, APacket.bare aClse 0 rid)] }.storeTransport t
    (some { tr with disconnects := tr.disconnects.erase b })).store b none
  let s₃ := s₂.store a (some ⟨.local, id, false, none, none, fd, pkts⟩)
  have hpeer : close (n + 1) b s₁ = some s₂ := close_peerless n (store_self s _) ht
  have ha₂ : s₂.heap a = some (connectedSocket id b fd pkts) :=
    (store_of_ne _ none hab).trans ((store_of_ne s _ hab).trans ha)
  obtain ⟨s', hend, e⟩ := endLocal_spec (s := s₃) (store_self s₂ _) hfde
  refine ⟨s', ?_, ⟨?_, ?_, ⟨tr, ht, e.transports⟩, e.list, e.localEnd, e.allocated, e.nextId,
    e.traffic, e.written, e.readFrom⟩, e.sent⟩
  · rw [close, ha]
    show localSocketClose (close (n + 1)) a s = _
    rw [localSocketClose, ha]
    show (s.heap b).bind _ = _
    rw [hb]
    show (close (n + 1) b s₁).bind _ = _
    rw [hpeer]
    show (s₂.heap a).bind _ = _
    rw [ha₂]
    exact hend
  · rw [e.other b hab.symm]
    exact (store_of_ne s₂ _ hab.symm).trans (store_self _ none)
  · intro c hca hcb
    rw [e.other c hca]
    exact (store_of_ne s₂ _ hca).trans ((store_of_ne _ none hcb).trans (store_of_ne s _ hcb))

end Close

section Disconnect

variable {s s' s'' : Daemon} {a b t : Addr} {id rid : Word} {fd : ℕ} {pkts : List Bytes}

/-- Only connections have ended between two states: what there is was there before. -/
structure Shrinks (s s' : Daemon) : Prop where
  heap : ∀ c sk, s'.heap c = some sk → s.heap c = some sk ∨
    ∃ id b fd pkts, s.heap c = some (connectedSocket id b fd pkts) ∧ sk = closingSocket fd pkts
  table : ∀ c id b fd pkts, s'.heap c = some (connectedSocket id b fd pkts) →
    s'.pump.table fd = s.pump.table fd
  allocated : s'.allocated = s.allocated
  nextId : s'.localSocketNextId = s.localSocketNextId
  traffic : s'.traffic = s.traffic
  written : s'.written = s.written
  readFrom : s'.readFrom = s.readFrom

theorem Shrinks.refl (s : Daemon) : Shrinks s s :=
  ⟨fun _ _ h => .inl h, fun _ _ _ _ _ _ => rfl, rfl, rfl, rfl, rfl, rfl⟩

theorem Shrinks.connected (h : Shrinks s s') {c : Addr}
    (hc : s'.heap c = some (connectedSocket id b fd pkts)) :
    s.heap c = some (connectedSocket id b fd pkts) := by
  rcases h.heap c _ hc with hold | ⟨_, _, _, _, -, heq⟩
  · exact hold
  · cases heq

theorem Shrinks.trans (h : Shrinks s s') (h' : Shrinks s' s'') : Shrinks s s'' where
  heap c sk hc := by
    rcases h'.heap c sk hc with hc' | ⟨id, b, fd, pkts, hc', rfl⟩
    · exact h.heap c sk hc'
    · rcases h.heap c _ hc' with hold | ⟨_, _, _, _, -, heq⟩
      · exact .inr ⟨id, b, fd, pkts, hold, rfl⟩
      · cases heq
  table c id b fd pkts hc := (h'.table c id b fd pkts hc).trans (h.table c id b fd pkts (h'.connected hc))
  allocated := h'.allocated.trans h.allocated
  nextId := h'.nextId.trans h.nextId
  traffic := h'.traffic.trans h.traffic
  written := h'.written.trans h.written
  readFrom := h'.readFrom.trans h.readFrom

theorem Ended.table (e : Ended s s' a b t fd pkts) {fd' : ℕ} (hfd : fd' ≠ fd) (h : s.Watched g)
    (ha : s.heap a = some (connectedSocket id b fd pkts)) :
    s'.pump.table fd' = s.pump.table fd' := by
  obtain ⟨fde, hfde, -⟩ := h.socket a _ ha rfl
  rcases e.localEnd with ⟨-, -, -, hremove⟩ | ⟨-, -, -, hdel⟩
  · obtain ⟨p, hp, htable⟩ := Pump.exists_remove hfde
    rw [hp] at hremove
    cases hremove
    rw [htable, Function.update_of_ne hfd]
  · rw [Pump.del_eq_set hfde] at hdel
    obtain ⟨p, fde', hp, htable, -⟩ := Pump.exists_set hfde (fde.want.del (.only .read))
    rw [hp] at hdel
    cases hdel
    rw [htable, Function.update_of_ne hfd]

theorem Ended.shrinks (e : Ended s s' a b t fd pkts) (h : s.Watched g)
    (ha : s.heap a = some (connectedSocket id b fd pkts)) : Shrinks s s' where
  heap c sk hc := by
    obtain ⟨-, ⟨rfl, -, rfl⟩ | ⟨-, hold⟩⟩ := e.heap_some hc
    · exact .inr ⟨id, b, fd, pkts, ha, rfl⟩
    · exact .inl hold
  table c id' b' fd' pkts' hc := by
    obtain ⟨-, ⟨-, -, heq⟩ | ⟨hca, hold⟩⟩ := e.heap_some hc
    · cases heq
    · exact e.table (h.fd_ne ha rfl hold rfl hca) h ha
  allocated := e.allocated
  nextId := e.nextId
  traffic := e.traffic
  written := e.written
  readFrom := e.readFrom

/-- `remote_socket_disconnect` ends the connection without a word to the other side. -/
theorem remoteSocketDisconnect_spec (h : s.WellFormed g)
    (ha : s.heap a = some (connectedSocket id b fd pkts))
    (hb : s.heap b = some (remoteSocket rid a t)) :
    ∃ s', remoteSocketDisconnect b s = some s' ∧ Ended s s' a b t fd pkts ∧ s'.sent = s.sent := by
  obtain ⟨rid', t', tr, hb', ht, -⟩ := h.linked.peer ha
  rw [hb] at hb'
  cases hb'
  obtain ⟨fde, hfde, -⟩ := h.watched.socket a _ ha rfl
  have hab : a ≠ b := ne_of_connected_remote ha hb
  let s₁ := s.store a (some ⟨.local, id, false, none, none, fd, pkts⟩)
  have ha₁ : s₁.heap a = some ⟨.local, id, false, none, none, fd, pkts⟩ := store_self s _
  obtain ⟨s₂, hend, e⟩ := endLocal_spec (s := s₁) ha₁ hfde
  have hclose : close closeDepth a s₁ = some s₂ := by
    rw [closeDepth, close, ha₁]
    show localSocketClose (close 2) a s₁ = _
    rw [localSocketClose, ha₁]
    exact hend
  have ht₂ : s₂.transports t = some tr := by
    rw [e.transports]
    exact ht
  refine ⟨(s₂.storeTransport t (some { tr with disconnects := tr.disconnects.erase b })).store b none,
    ?_, ⟨store_self _ none, ?_, ⟨tr, ht, ?_⟩, e.list, ?_, e.allocated, e.nextId, e.traffic, e.written,
    e.readFrom⟩, e.sent⟩
  · rw [remoteSocketDisconnect, hb]
    show (s.heap a).bind _ = _
    rw [ha]
    show (close closeDepth a s₁).bind _ = _
    rw [hclose]
    show ((s₂.transports t).bind _).bind _ = _
    rw [ht₂]
    rfl
  · intro c hca hcb
    rw [store_of_ne _ none hcb]
    exact (e.other c hca).trans (store_of_ne s _ hca)
  · show Function.update s₂.transports t _ = _
    rw [e.transports]
    rfl
  · rw [store_of_ne _ none hab]
    exact e.localEnd

/-- The loop of `run_transport_disconnects` gets along with the list that its calls take apart. -/
theorem disconnectLoop_spec {tr : Transport} (bs : List Addr) (h : s.WellFormed g)
    (ht : s.transports t = some tr) (hbs : tr.disconnects = bs) :
    ∃ s', disconnectLoop t bs.length bs.head? s = some s' ∧ s'.WellFormed g ∧ Shrinks s s' ∧
      s'.sent = s.sent ∧
      s'.transports = Function.update s.transports t (some { tr with disconnects := [] }) := by
  induction bs generalizing s tr with
  | nil =>
      refine ⟨s, rfl, h, .refl s, rfl, ?_⟩
      rw [← hbs, ← ht, Function.update_eq_self]
  | cons b bs ih =>
      have hmem : b ∈ tr.disconnects := hbs ▸ List.mem_cons_self
      obtain ⟨rid, a, hb⟩ := h.linked.remote t tr ht b hmem
      cases h.linked.placed b _ hb with
      | remote ha _ _ =>
          obtain ⟨s₁, hdisconnect, e, hsent⟩ := remoteSocketDisconnect_spec h ha hb
          obtain ⟨tr', ht', hnew⟩ := e.transports
          rw [ht] at ht'
          cases ht'
          have herase : tr.disconnects.erase b = bs := by rw [hbs, List.erase_cons_head]
          have ht₁ : s₁.transports t = some { tr with disconnects := tr.disconnects.erase b } := by
            rw [hnew, Function.update_self]
          obtain ⟨s', hloop, hwell, hshrinks, hsent', htransports⟩ :=
            ih (e.wellFormed h ha hb) ht₁ herase
          refine ⟨s', ?_, hwell, (e.shrinks h.watched ha).trans hshrinks, hsent'.trans hsent, ?_⟩
          · rw [List.head?_cons, List.length_cons, disconnectLoop, ht]
            have hnext : nextIn tr.disconnects b = bs.head? := by
              rw [nextIn, hbs, List.dropWhile_cons_of_neg (by simp)]
              rfl
            show (remoteSocketDisconnect b s).bind _ = _
            rw [hdisconnect]
            show disconnectLoop t bs.length (nextIn tr.disconnects b) s₁ = _
            rw [hnext, hloop]
          · rw [htransports, hnew, Function.update_idem]

theorem runTransportDisconnects_spec {tr : Transport} (h : s.WellFormed g)
    (ht : s.transports t = some tr) :
    ∃ s', runTransportDisconnects t s = some s' ∧ s'.WellFormed g ∧ Shrinks s s' ∧ s'.sent = s.sent ∧
      s'.transports = Function.update s.transports t (some { tr with disconnects := [] }) := by
  rw [runTransportDisconnects, ht]
  exact disconnectLoop_spec tr.disconnects h ht rfl

end Disconnect

section CloseAll

variable {s s' : Daemon} {a t : Addr} {fd : ℕ} {pkts : List Bytes} {tr : Transport}

/-- A state with another record of a transport, of the same list and descriptor. -/
theorem WellFormed.storeTransport (h : s.WellFormed g) (ht : s.transports t = some tr)
    (state : ConnectionState) :
    (s.storeTransport t (some { tr with connectionState := state })).WellFormed g := by
  have hsome : ∀ t' tr', (s.storeTransport t (some { tr with connectionState := state })).transports t' =
      some tr' → ∃ tr₀, s.transports t' = some tr₀ ∧ tr'.disconnects = tr₀.disconnects ∧
        tr'.socket = tr₀.socket := by
    intro t' tr' ht'
    by_cases hne : t' = t
    · subst hne
      rw [storeTransport_self] at ht'
      cases ht'
      exact ⟨tr, ht, rfl, rfl⟩
    · rw [storeTransport_of_ne s _ hne] at ht'
      exact ⟨tr', ht', rfl, rfl⟩
  have hthere : ∀ t' tr₀, s.transports t' = some tr₀ → ∃ tr',
      (s.storeTransport t (some { tr with connectionState := state })).transports t' = some tr' ∧
        tr'.disconnects = tr₀.disconnects ∧ tr'.socket = tr₀.socket := by
    intro t' tr₀ ht'
    by_cases hne : t' = t
    · subst hne
      rw [ht] at ht'
      cases ht'
      exact ⟨_, storeTransport_self s _, rfl, rfl⟩
    · exact ⟨tr₀, (storeTransport_of_ne s _ hne).trans ht', rfl, rfl⟩
  refine ⟨⟨?_, h.linked.connected, h.linked.closing, ?_, h.linked.listNodup, h.linked.closingNodup,
    ?_, ?_⟩, ⟨h.watched.consistent, h.watched.socket, h.watched.owner, ?_, ?_⟩⟩
  · intro c sk hc
    cases h.linked.placed c sk hc with
    | connected hpeer hmem => exact .connected hpeer hmem
    | closing hpkts hmem => exact .closing hpkts hmem
    | remote hpeer htransport hmem =>
        obtain ⟨tr', ht', hdis, -⟩ := hthere _ _ htransport
        exact .remote hpeer ht' (hdis ▸ hmem)
  · intro t' tr' ht' b hb
    obtain ⟨tr₀, ht₀, hdis, -⟩ := hsome t' tr' ht'
    exact h.linked.remote t' tr₀ ht₀ b (hdis ▸ hb)
  · intro t' tr' ht'
    obtain ⟨tr₀, ht₀, hdis, -⟩ := hsome t' tr' ht'
    exact hdis ▸ h.linked.disconnectsNodup t' tr₀ ht₀
  · intro c hc
    obtain ⟨hheap, htransport⟩ := h.linked.fresh c hc
    refine ⟨hheap, ?_⟩
    rw [storeTransport_of_ne s _ (by rintro rfl; rw [ht] at htransport; cases htransport), htransport]
  · intro t' tr' ht' hg
    obtain ⟨tr₀, ht₀, -, hsocket⟩ := hsome t' tr' ht'
    obtain ⟨fde, hfde, harg⟩ := h.watched.transport t' tr₀ ht₀ hg
    exact ⟨fde, by rw [hsocket]; exact hfde, harg⟩
  · intro fd' fde t' hfde harg
    obtain ⟨hg, tr₀, ht₀, hsocket⟩ := h.watched.transportOwner fd' fde t' hfde harg
    obtain ⟨tr', ht', -, hsame⟩ := hthere t' tr₀ ht₀
    exact ⟨hg, tr', ht', hsame.trans hsocket⟩

theorem setState_eq (ht : s.transports t = some tr) (state : ConnectionState) :
    setState t state s = some (s.storeTransport t (some { tr with connectionState := state })) := by
  rw [setState, ht]
  rfl

theorem goOffline_spec (h : s.WellFormed g) (ht : s.transports t = some tr) :
    ∃ s', goOffline t s = some s' ∧ s'.WellFormed g ∧ Shrinks s s' ∧ s'.sent = s.sent ∧
      s'.transports = Function.update s.transports t
        (some { tr with connectionState := .offline, disconnects := [] }) := by
  obtain ⟨s', hrun, hwell, hshrinks, hsent, htransports⟩ :=
    runTransportDisconnects_spec (h.storeTransport ht .offline) (storeTransport_self s _)
  refine ⟨s', ?_, hwell, ⟨hshrinks.heap, hshrinks.table, hshrinks.allocated, hshrinks.nextId, hshrinks.traffic,
    hshrinks.written, hshrinks.readFrom⟩, hsent, ?_⟩
  · rw [goOffline, setState_eq ht]
    exact hrun
  · rw [htransports]
    exact Function.update_idem _ _ _

/-- The search finds a socket whose connection uses the transport, if there is one. -/
theorem firstOf_spec (h : s.Linked) (t : Addr) (as : List Addr)
    (has : ∀ a ∈ as, a ∈ s.localSocketList) :
    (firstOf t s as = some none ∧ ∀ a ∈ as, ∀ id b fd pkts rid,
      s.heap a = some (connectedSocket id b fd pkts) → s.heap b ≠ some (remoteSocket rid a t)) ∨
    ∃ a id b fd pkts rid, firstOf t s as = some (some a) ∧ a ∈ as ∧
      s.heap a = some (connectedSocket id b fd pkts) ∧ s.heap b = some (remoteSocket rid a t) := by
  induction as with
  | nil => exact .inl ⟨rfl, fun a ha => absurd ha List.not_mem_nil⟩
  | cons a as ih =>
      obtain ⟨id, b, fd, pkts, ha⟩ := h.connected a (has a List.mem_cons_self)
      obtain ⟨rid, t', _, hb, -, -⟩ := h.peer ha
      have hstep : firstOf t s (a :: as) =
          if t' = t then some (some a) else firstOf t s as := by
        rw [firstOf, ha]
        show (if (none : Option Addr) = some t then some (some a) else _) = _
        rw [if_neg (Option.some_ne_none t).symm]
        show (s.heap b).bind _ = _
        rw [hb]
        show (if some t' = some t then some (some a) else firstOf t s as) = _
        by_cases heq : t' = t
        · rw [if_pos heq, if_pos (congrArg some heq)]
        · rw [if_neg heq, if_neg fun hsome => heq (Option.some.inj hsome)]
      by_cases heq : t' = t
      · subst heq
        exact .inr ⟨a, id, b, fd, pkts, rid, hstep.trans (if_pos rfl), List.mem_cons_self, ha, hb⟩
      · rw [hstep, if_neg heq]
        rcases ih fun c hc => has c (List.mem_cons_of_mem a hc) with ⟨hnone, hall⟩ | hfound
        · refine .inl ⟨hnone, ?_⟩
          intro c hc id' b' fd' pkts' rid' hsk hpeer
          rcases List.mem_cons.mp hc with rfl | hc
          · rw [ha] at hsk
            cases hsk
            rw [hb] at hpeer
            cases hpeer
            exact heq rfl
          · exact hall c hc id' b' fd' pkts' rid' hsk hpeer
        · obtain ⟨c, id', b', fd', pkts', rid', hfirst, hc, hsk, hpeer⟩ := hfound
          exact .inr ⟨c, id', b', fd', pkts', rid', hfirst, List.mem_cons_of_mem a hc, hsk, hpeer⟩

/-- `close_all_sockets` ends the connections of the transport, and says so to the other side. -/
theorem closeLoop_spec (n : ℕ) (h : s.WellFormed g) (ht : s.transports t = some tr)
    (hn : s.localSocketList.length < n) :
    ∃ s', ∃ rids : List Word, closeLoop t n s = some s' ∧ s'.WellFormed g ∧ Shrinks s s' ∧
      s'.sent = s.sent ++ rids.map (fun rid => (t, APacket.bare aClse 0 rid)) ∧
      s'.transports = Function.update s.transports t (some { tr with disconnects := [] }) := by
  induction n generalizing s tr with
  | zero => cases hn
  | succ n ih =>
      rcases firstOf_spec h.linked t s.localSocketList fun a ha => ha with
        ⟨hnone, hall⟩ | ⟨a, id, b, fd, pkts, rid, hfirst, hmem, ha, hb⟩
      · refine ⟨s, [], ?_, h, .refl s, (List.append_nil _).symm, ?_⟩
        · rw [closeLoop, hnone]
          rfl
        · have hnil : tr.disconnects = [] := by
            rw [List.eq_nil_iff_forall_not_mem]
            intro b hb
            obtain ⟨rid, a, hsk⟩ := h.linked.remote t tr ht b hb
            cases h.linked.placed b _ hsk with
            | remote ha _ _ =>
                cases h.linked.placed a _ ha with
                | connected _ hmem => exact hall a hmem _ _ _ _ _ ha hsk
          rw [← hnil, ← ht, Function.update_eq_self]
      · obtain ⟨s₁, hclose, e, hsent⟩ := close_connected 2 h ha hb
        obtain ⟨tr', ht', hnew⟩ := e.transports
        rw [ht] at ht'
        cases ht'
        have ht₁ : s₁.transports t = some { tr with disconnects := tr.disconnects.erase b } := by
          rw [hnew, Function.update_self]
        have hshorter : s₁.localSocketList.length < n := by
          rw [e.list, List.length_erase_of_mem hmem]
          have := List.length_pos_of_mem hmem
          omega
        obtain ⟨s', rids, hloop, hwell, hshrinks, hsent', htransports⟩ :=
          ih (e.wellFormed h ha hb) ht₁ hshorter
        refine ⟨s', rid :: rids, ?_, hwell, (e.shrinks h.watched ha).trans hshrinks, ?_, ?_⟩
        · rw [closeLoop, hfirst]
          show (localSocketClose (close closeDepth) a s).bind _ = _
          have hlocal : localSocketClose (close closeDepth) a s = some s₁ := by
            rw [← hclose, close, ha]
            rfl
          rw [hlocal]
          exact hloop
        · rw [hsent', hsent, List.map_cons, List.append_assoc]
          rfl
        · rw [htransports, hnew, Function.update_idem]

theorem closeAllSockets_spec (h : s.WellFormed g) (ht : s.transports t = some tr) :
    ∃ s', ∃ rids : List Word, closeAllSockets t s = some s' ∧ s'.WellFormed g ∧ Shrinks s s' ∧
      s'.sent = s.sent ++ rids.map (fun rid => (t, APacket.bare aClse 0 rid)) ∧
      s'.transports = Function.update s.transports t (some { tr with disconnects := [] }) :=
  closeLoop_spec _ h ht (Nat.lt_succ_self _)

end CloseAll

end Daemon

end OpenRecovery.Sideloader
