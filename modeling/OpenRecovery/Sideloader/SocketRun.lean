import OpenRecovery.Sideloader.SocketEvents

/-!
# Runs of the sideloader

`fdevent_loop` calls the functions of the sockets, of the transports and of the registration in any
order, with any packets and any bytes; a thread may close all sockets of a transport in between.
From the start of the process on every state is sound, and no call follows a pointer to memory that
was freed, but for one: a banner that does not end within its packet (`Run.step_eq_none_iff`). The
bytes of every connection stay in order (`Run.delivered`), and its packets follow one another as
they should (`Run.paced`).
-/

set_option autoImplicit false

namespace OpenRecovery.Sideloader

open OpenRecovery.Storage

namespace Daemon

variable {g : Option Addr}

/-! ## A new connection -/

/-- What a new connection adds to a state. -/
structure Opened (s s' : Daemon) (t : Addr) (rid : Word) (fd : ℕ) (tr : Transport) (fde : Fde Owner)
    (name : Bytes) : Prop where
  heap : s'.heap = Function.update (Function.update s.heap s.allocated
    (some (connectedSocket s.localSocketNextId (s.allocated + 1) fd []))) (s.allocated + 1)
    (some (remoteSocket rid s.allocated t))
  transports : s'.transports = Function.update s.transports t
    (some { tr with disconnects := tr.disconnects ++ [s.allocated + 1] })
  list : s'.localSocketList = s.localSocketList ++ [s.allocated]
  closingList : s'.localSocketClosingList = s.localSocketClosingList
  allocated : s'.allocated = s.allocated + 2
  consistent : s'.pump.Consistent
  table : s'.pump.table = Function.update s.pump.table fd (some fde)
  arg : fde.arg = .socket s.allocated
  want : fde.want = .only .read
  events : fde.events = .empty
  traffic : s'.traffic = Function.update s.traffic s.allocated [.opened name, .okay, .granted]
  written : s'.written = s.written
  readFrom : s'.readFrom = s.readFrom

section Open

variable {s s' : Daemon} {t : Addr} {rid : Word} {fd : ℕ} {tr : Transport} {fde : Fde Owner}
  {name : Bytes}

theorem Opened.heap_cases (e : Opened s s' t rid fd tr fde name) {c : Addr} {sk : ASocket}
    (hc : s'.heap c = some sk) :
    c = s.allocated + 1 ∧ sk = remoteSocket rid s.allocated t ∨
    c = s.allocated ∧ sk = connectedSocket s.localSocketNextId (s.allocated + 1) fd [] ∨
    c ≠ s.allocated ∧ s.heap c = some sk := by
  rw [e.heap] at hc
  by_cases hb : c = s.allocated + 1
  · rw [hb, Function.update_self] at hc
    exact .inl ⟨hb, (Option.some.inj hc).symm⟩
  · rw [Function.update_of_ne hb] at hc
    by_cases ha : c = s.allocated
    · rw [ha, Function.update_self] at hc
      exact .inr (.inl ⟨ha, (Option.some.inj hc).symm⟩)
    · rw [Function.update_of_ne ha] at hc
      exact .inr (.inr ⟨ha, hc⟩)

theorem Opened.heap_old (e : Opened s s' t rid fd tr fde name) {c : Addr} (hc : c < s.allocated) :
    s'.heap c = s.heap c := by
  rw [e.heap, Function.update_of_ne (Nat.ne_of_lt (Nat.lt_succ_of_lt hc)),
    Function.update_of_ne (Nat.ne_of_lt hc)]

theorem Opened.heap_local (e : Opened s s' t rid fd tr fde name) : s'.heap s.allocated =
    some (connectedSocket s.localSocketNextId (s.allocated + 1) fd []) := by
  rw [e.heap, Function.update_of_ne (Nat.ne_of_lt (Nat.lt_succ_self _)), Function.update_self]

theorem Opened.heap_remote (e : Opened s s' t rid fd tr fde name) : s'.heap (s.allocated + 1) =
    some (remoteSocket rid s.allocated t) := by
  rw [e.heap, Function.update_self]

theorem Opened.transport_cases (e : Opened s s' t rid fd tr fde name) (ht : s.transports t = some tr)
    {t' : Addr} {tr' : Transport} (ht' : s'.transports t' = some tr') :
    ∃ tr₀, s.transports t' = some tr₀ ∧ tr'.socket = tr₀.socket ∧
      (t' = t ∧ tr'.disconnects = tr₀.disconnects ++ [s.allocated + 1] ∨
        tr'.disconnects = tr₀.disconnects) := by
  rw [e.transports] at ht'
  by_cases hne : t' = t
  · subst hne
    rw [Function.update_self] at ht'
    cases ht'
    exact ⟨tr, ht, rfl, .inl ⟨rfl, rfl⟩⟩
  · rw [Function.update_of_ne hne] at ht'
    exact ⟨tr', ht', rfl, .inr rfl⟩

theorem Opened.linked (e : Opened s s' t rid fd tr fde name) (h : s.Linked)
    (ht : s.transports t = some tr) : s'.Linked := by
  have hthere : ∀ t' tr₀, s.transports t' = some tr₀ → ∃ tr', s'.transports t' = some tr' ∧
      tr₀.disconnects ⊆ tr'.disconnects := by
    intro t' tr₀ ht₀
    rw [e.transports]
    by_cases hne : t' = t
    · subst hne
      rw [ht] at ht₀
      cases ht₀
      rw [Function.update_self]
      exact ⟨_, rfl, List.subset_append_left _ _⟩
    · rw [Function.update_of_ne hne]
      exact ⟨tr₀, ht₀, List.Subset.refl _⟩
  refine ⟨?_, ?_, ?_, ?_, ?_, ?_, ?_, ?_⟩
  · intro c sk hc
    rcases e.heap_cases hc with ⟨rfl, rfl⟩ | ⟨rfl, rfl⟩ | ⟨-, hold⟩
    · exact .remote e.heap_local (by rw [e.transports, Function.update_self])
        (List.mem_append_right _ (List.mem_singleton_self _))
    · refine .connected e.heap_remote ?_
      rw [e.list]
      exact List.mem_append_right _ (List.mem_singleton_self _)
    · cases h.placed c sk hold with
      | connected hpeer hmem =>
          refine .connected ((e.heap_old (h.lt_allocated hpeer)).trans hpeer) ?_
          rw [e.list]
          exact List.mem_append_left _ hmem
      | closing hpkts hmem =>
          refine .closing hpkts ?_
          rw [e.closingList]
          exact hmem
      | remote hpeer htransport hmem =>
          obtain ⟨tr', htr', hsub⟩ := hthere _ _ htransport
          exact .remote ((e.heap_old (h.lt_allocated hpeer)).trans hpeer) htr' (hsub hmem)
  · intro c hc
    rw [e.list, List.mem_append, List.mem_singleton] at hc
    rcases hc with hc | rfl
    · obtain ⟨id, b, fd', pkts, hsk⟩ := h.connected c hc
      exact ⟨id, b, fd', pkts, (e.heap_old (h.lt_allocated hsk)).trans hsk⟩
    · exact ⟨_, _, _, _, e.heap_local⟩
  · intro c hc
    rw [e.closingList] at hc
    obtain ⟨fd', pkts, hsk⟩ := h.closing c hc
    exact ⟨fd', pkts, (e.heap_old (h.lt_allocated hsk)).trans hsk⟩
  · intro t' tr' ht' b hb
    obtain ⟨tr₀, ht₀, -, hdis⟩ := e.transport_cases ht ht'
    have hold : b ∈ tr₀.disconnects → ∃ id a, s'.heap b = some (remoteSocket id a t') := by
      intro hmem
      obtain ⟨id, a, hsk⟩ := h.remote t' tr₀ ht₀ b hmem
      exact ⟨id, a, (e.heap_old (h.lt_allocated hsk)).trans hsk⟩
    rcases hdis with ⟨rfl, heq⟩ | heq
    · rw [heq, List.mem_append, List.mem_singleton] at hb
      rcases hb with hb | rfl
      · exact hold hb
      · exact ⟨rid, s.allocated, e.heap_remote⟩
    · exact hold (heq ▸ hb)
  · rw [e.list]
    refine h.listNodup.append (List.nodup_singleton _) ?_
    rw [List.disjoint_singleton]
    intro hmem
    obtain ⟨_, _, _, _, hsk⟩ := h.connected _ hmem
    exact Nat.lt_irrefl _ (h.lt_allocated hsk)
  · rw [e.closingList]
    exact h.closingNodup
  · intro t' tr' ht'
    obtain ⟨tr₀, ht₀, -, ⟨rfl, heq⟩ | heq⟩ := e.transport_cases ht ht'
    · rw [heq]
      refine (h.disconnectsNodup t' tr₀ ht₀).append (List.nodup_singleton _) ?_
      rw [List.disjoint_singleton]
      intro hmem
      obtain ⟨_, _, hsk⟩ := h.remote t' tr₀ ht₀ _ hmem
      exact Nat.not_succ_lt_self (h.lt_allocated hsk)
    · rw [heq]
      exact h.disconnectsNodup t' tr₀ ht₀
  · intro c hc
    rw [e.allocated] at hc
    have hlt : s.allocated + 1 < c := hc
    have hle : s.allocated < c := Nat.lt_of_succ_lt hlt
    obtain ⟨hheap, htransport⟩ := h.fresh c (Nat.le_of_lt hle)
    constructor
    · rw [e.heap, Function.update_of_ne (Nat.ne_of_gt hlt), Function.update_of_ne (Nat.ne_of_gt hle),
        hheap]
    · rw [e.transports, Function.update_of_ne (by rintro rfl; rw [ht] at htransport; cases htransport),
        htransport]

theorem Opened.watched (e : Opened s s' t rid fd tr fde name) (h : s.WellFormed g)
    (ht : s.transports t = some tr) (hfree : s.pump.table fd = none) : s'.Watched g := by
  have hthere : ∀ fd', fd' ≠ fd → s'.pump.table fd' = s.pump.table fd' := by
    intro fd' hne
    rw [e.table, Function.update_of_ne hne]
  have hhere : s'.pump.table fd = some fde := by rw [e.table, Function.update_self]
  have hne : ∀ fd' fde', s.pump.table fd' = some fde' → fd' ≠ fd := by
    rintro fd' fde' hfde rfl
    rw [hfree] at hfde
    cases hfde
  refine ⟨e.consistent, ?_, ?_, ?_, ?_⟩
  · intro c sk hc hkind
    rcases e.heap_cases hc with ⟨rfl, rfl⟩ | ⟨rfl, rfl⟩ | ⟨-, hold⟩
    · cases hkind
    · refine ⟨fde, hhere, e.arg, ?_, ?_⟩
      · rw [e.want]
        exact iff_of_false Bool.false_ne_true (not_not.mpr rfl)
      · rw [e.events]
        exact fun hpending => absurd hpending Bool.false_ne_true
    · obtain ⟨fde', hfde', hwaits⟩ := h.watched.socket c sk hold hkind
      exact ⟨fde', (hthere _ (hne _ _ hfde')).trans hfde', hwaits⟩
  · intro fd' fde' c hfde' harg
    by_cases hfd : fd' = fd
    · subst hfd
      rw [hhere] at hfde'
      cases hfde'
      cases e.arg.symm.trans harg
      exact ⟨_, e.heap_local, rfl, rfl⟩
    · rw [hthere fd' hfd] at hfde'
      obtain ⟨sk, hc, hkind, hsame⟩ := h.watched.owner fd' fde' c hfde' harg
      exact ⟨sk, (e.heap_old (h.linked.lt_allocated hc)).trans hc, hkind, hsame⟩
  · intro t' tr' ht' hg
    obtain ⟨tr₀, ht₀, hsocket, -⟩ := e.transport_cases ht ht'
    obtain ⟨fde', hfde', harg⟩ := h.watched.transport t' tr₀ ht₀ hg
    refine ⟨fde', ?_, harg⟩
    rw [hsocket]
    exact (hthere _ (hne _ _ hfde')).trans hfde'
  · intro fd' fde' t' hfde' harg
    have hfd : fd' ≠ fd := by
      rintro rfl
      rw [hhere] at hfde'
      cases hfde'
      cases e.arg.symm.trans harg
    rw [hthere fd' hfd] at hfde'
    obtain ⟨hg, tr₀, ht₀, hsocket⟩ := h.watched.transportOwner fd' fde' t' hfde' harg
    refine ⟨hg, ?_⟩
    rw [e.transports]
    by_cases htt : t' = t
    · subst htt
      rw [ht] at ht₀
      cases ht₀
      rw [Function.update_self]
      exact ⟨_, rfl, hsocket⟩
    · rw [Function.update_of_ne htt]
      exact ⟨tr₀, ht₀, hsocket⟩

theorem Opened.streams (e : Opened s s' t rid fd tr fde name) (h : s.Sound g)
    (hfree : s.pump.table fd = none) : s'.Streams := by
  obtain ⟨htraffic, hread⟩ := h.streams.fresh s.allocated (Nat.le_refl _)
  have hwritten : s.written s.allocated = [] := by
    have hpre := (h.streams.inOrder s.allocated).wrote
    rw [htraffic] at hpre
    exact List.prefix_nil.mp hpre
  have hold : ∀ c, c ≠ s.allocated → s'.traffic c = s.traffic c := by
    intro c hc
    rw [e.traffic, Function.update_of_ne hc]
  have hnew : s'.traffic s.allocated = [.opened name, .okay, .granted] := by
    rw [e.traffic, Function.update_self]
  have hwritten' : s'.written s.allocated = [] := by rw [e.written, hwritten]
  have hread' : s'.readFrom s.allocated = [] := by rw [e.readFrom, hread]
  refine ⟨?_, ?_, ?_, ?_⟩
  · intro c
    by_cases hc : c = s.allocated
    · subst hc
      rw [hnew, hwritten', hread']
      have hin := h.streams.inOrder s.allocated
      rw [htraffic, hwritten, hread] at hin
      exact ((hin.opened_concat name).okay_concat (Nat.le_refl 0)).granted_concat
    · rw [hold c hc, e.written, e.readFrom]
      exact h.streams.inOrder c
  · intro c sk hc hkind
    rcases e.heap_cases hc with ⟨rfl, rfl⟩ | ⟨rfl, rfl⟩ | ⟨hne, hsk⟩
    · cases hkind
    · rw [hnew, hwritten']
      exact ⟨rfl, Nat.le_refl 1⟩
    · rw [hold c hne, e.written]
      exact h.streams.current c sk hsk hkind
  · intro c id b fd' pkts hc
    rcases e.heap_cases hc with ⟨rfl, heq⟩ | ⟨rfl, heq⟩ | ⟨hne, hsk⟩
    · cases heq
    · cases heq
      refine ⟨fde, by rw [e.table, Function.update_self], ?_⟩
      rw [hnew, hread']
      refine ⟨rfl, ?_, ?_⟩
      · rw [e.want]
        rfl
      · rw [e.events]
        exact fun hpending => absurd hpending Bool.false_ne_true
    · obtain ⟨fde', hfde', hgranted⟩ := h.streams.granted c id b fd' pkts hsk
      have hfd : fd' ≠ fd := by
        rintro rfl
        rw [hfree] at hfde'
        cases hfde'
      rw [e.table, Function.update_of_ne hfd, hold c hne, e.readFrom]
      exact ⟨fde', hfde', hgranted⟩
  · intro c hc
    rw [e.allocated] at hc
    have hlt : s.allocated < c := Nat.lt_of_succ_lt hc
    rw [hold c (Nat.ne_of_gt hlt), e.readFrom]
    exact h.streams.fresh c (Nat.le_of_lt hlt)

theorem Opened.sound (e : Opened s s' t rid fd tr fde name) (h : s.Sound g)
    (ht : s.transports t = some tr) (hfree : s.pump.table fd = none) : s'.Sound g :=
  ⟨⟨e.linked h.wellFormed.linked ht, e.watched h.wellFormed ht hfree⟩, e.streams h hfree⟩

end Open

/-! ## handle_packet -/

section Packet

variable {s s' : Daemon} {a t : Addr} {id rid : Word} {fd : ℕ} {tr : Transport} {sk : ASocket}

theorem Sound.logged (h : s.Sound g) (sent : List (Addr × APacket)) :
    ({ s with sent := sent } : Daemon).Sound g :=
  ⟨h.wellFormed.congr rfl rfl rfl rfl rfl rfl,
    ⟨h.streams.inOrder, h.streams.current, h.streams.granted, h.streams.fresh⟩⟩

theorem send_sound (h : s.Sound g) (ht : s.transports t = some tr) (p : APacket) :
    ∃ s', s.send p t = some s' ∧ s'.Sound g := by
  refine ⟨{ s with sent := s.sent ++ [(t, p)] }, ?_, h.logged _⟩
  rw [send, ht]
  rfl

theorem setState_sound (h : s.Sound g) (ht : s.transports t = some tr) (state : ConnectionState) :
    ∃ s', setState t state s = some s' ∧ s'.Sound g ∧
      s'.transports t = some { tr with connectionState := state } :=
  ⟨_, setState_eq ht state, ⟨h.wellFormed.storeTransport ht state,
    ⟨h.streams.inOrder, h.streams.current, h.streams.granted, h.streams.fresh⟩⟩, storeTransport_self s _⟩

theorem goOffline_sound (h : s.Sound g) (ht : s.transports t = some tr) :
    ∃ s' tr', goOffline t s = some s' ∧ s'.Sound g ∧ s'.transports t = some tr' := by
  obtain ⟨s', hrun, hwell, hshrinks, -, htransports⟩ := goOffline_spec h.wellFormed ht
  exact ⟨s', _, hrun, ⟨hwell, h.streams.shrinks hshrinks⟩, by rw [htransports, Function.update_self]⟩

theorem connectRemote_eq (rid : Word) (ht : s.transports t = some tr) (ha : s.heap a = some sk)
    (hne : a ≠ s.allocated) : connectRemote rid t a s = some
      ((({ (s.storeTransport t (some { tr with disconnects := tr.disconnects ++ [s.allocated] })).store
          s.allocated (some ⟨.remote, rid, false, none, some t, 0, []⟩) with
          allocated := s.allocated + 1 } : Daemon).store a (some { sk with peer := some s.allocated })).store
        s.allocated (some (remoteSocket rid a t))) := by
  let s₁ : Daemon := { (s.storeTransport t
    (some { tr with disconnects := tr.disconnects ++ [s.allocated] })).store
      s.allocated (some ⟨.remote, rid, false, none, some t, 0, []⟩) with allocated := s.allocated + 1 }
  have hcreate : createRemoteSocket rid t s = some s₁ := by
    rw [createRemoteSocket, ht]
    rfl
  have ha₁ : s₁.heap a = some sk := (store_of_ne _ _ hne).trans ha
  have hb₁ : (s₁.store a (some { sk with peer := some s.allocated })).heap s.allocated =
      some ⟨.remote, rid, false, none, some t, 0, []⟩ :=
    (store_of_ne s₁ _ hne.symm).trans (store_self _ _)
  rw [connectRemote, hcreate]
  show (s₁.heap a).bind _ = _
  rw [ha₁]
  show ((s₁.store a (some { sk with peer := some s.allocated })).heap s.allocated).bind _ = _
  rw [hb₁]
  rfl

/-- `A_OPEN` opens a connection for the service that it names, or says that there is none. -/
theorem handleOpen_sound (fd : Option ℕ) (p : APacket) (h : s.Sound g) (ht : s.transports t = some tr)
    (hfd : ∀ d, fd = some d → s.pump.table d = none) :
    ∃ s', handleOpen fd p t s = some s' ∧ s'.Sound g := by
  rcases hservice : (serviceCount (openName p.data)).bind fun _ => fd with _ | d
  · rw [handleOpen, hservice]
    exact send_sound h ht _
  · have hfree : s.pump.table d = none := by
      obtain ⟨_, -, hd⟩ := Option.bind_eq_some_iff.mp hservice
      exact hfd d hd
    let a := s.allocated
    let s₁ := createLocalSocket d s
    have ha₁ : s₁.heap a = some ⟨.local, s.localSocketNextId, false, none, none, d, []⟩ := store_self s _
    have hne : a ≠ s₁.allocated := Nat.ne_of_lt (Nat.lt_succ_self _)
    have hconnect := connectRemote_eq p.arg0 (s := s₁) (t := t) ht ha₁ hne
    let s₂ := ((({ (s₁.storeTransport t
      (some { tr with disconnects := tr.disconnects ++ [s₁.allocated] })).store
        s₁.allocated (some ⟨.remote, p.arg0, false, none, some t, 0, []⟩) with
        allocated := s₁.allocated + 1 } : Daemon).store a
        (some (connectedSocket s.localSocketNextId s₁.allocated d []))).store
        s₁.allocated (some (remoteSocket p.arg0 a t)))
    have ha₂ : s₂.heap a = some (connectedSocket s.localSocketNextId s₁.allocated d []) :=
      (store_of_ne _ _ hne).trans (store_self _ _)
    have hb₂ : s₂.heap s₁.allocated = some (remoteSocket p.arg0 a t) := store_self _ _
    have ht₂ : s₂.transports t =
        some { tr with disconnects := tr.disconnects ++ [s₁.allocated] } := storeTransport_self s₁ _
    let s₃ : Daemon := { s₂ with sent := s₂.sent ++ [(t, APacket.bare aOkay s.localSocketNextId p.arg0)] }
    let s₄ := (s₃.note a (.opened (openName p.data))).note a .okay
    have hfde : s₁.pump.table d = some ⟨.empty, false, .empty, .socket a⟩ := Pump.put_self _ _ _
    obtain ⟨q, fde, hset, htable, hwant, harg, hevents⟩ :=
      Pump.exists_set hfde (Events.add .empty (.only .read))
    have hadd : s₁.pump.add d (.only .read) = some q := (Pump.add_eq_set hfde _).trans hset
    refine ⟨{ s₄.note a .granted with pump := q }, ?_, ?_⟩
    · rw [handleOpen, hservice]
      show (connectRemote p.arg0 t a s₁).bind _ = _
      rw [hconnect]
      show (s₂.heap a).bind _ = _
      rw [ha₂]
      show (s₂.heap s₁.allocated).bind _ = _
      rw [hb₂]
      show ((s₂.transports t).bind _).bind _ = _
      rw [ht₂]
      show ready a s₄ = _
      rw [ready, show s₄.heap a = _ from ha₂]
      show (s₁.pump.add d (.only .read)).bind _ = _
      rw [hadd]
      rfl
    · have htraffic := (h.streams.fresh a (Nat.le_refl _)).1
      have e : Opened s { s₄.note a .granted with pump := q } t p.arg0 d tr fde
          (openName p.data) := by
        refine ⟨?_, rfl, rfl, rfl, rfl, ?_, ?_, harg, ?_, ?_, ?_, rfl, rfl⟩
        · funext c
          show s₂.heap c = _
          by_cases hcb : c = s.allocated + 1
          · rw [hcb, Function.update_self]
            exact hb₂
          · by_cases hca : c = s.allocated
            · rw [hca, Function.update_of_ne (show s.allocated ≠ s.allocated + 1 from hne),
                Function.update_self]
              exact ha₂
            · rw [Function.update_of_ne hcb, Function.update_of_ne hca]
              exact (store_of_ne _ _ hcb).trans ((store_of_ne _ _ hca).trans
                ((store_of_ne _ _ hcb).trans (store_of_ne s _ hca)))
        · exact (h.wellFormed.watched.consistent.install hfree _).set hset
        · show q.table = _
          rw [htable]
          exact Function.update_idem _ _ _
        · rw [hwant]
          rfl
        · exact eq_empty_of_sub hevents rfl
        · show Function.update s₄.traffic a (s₄.traffic a ++ [.granted]) = _
          have hopened : s₄.traffic = Function.update (Function.update s.traffic a
              (s.traffic a ++ [.opened (openName p.data)])) a
              (Function.update s.traffic a (s.traffic a ++ [.opened (openName p.data)]) a ++ [.okay]) := rfl
          rw [hopened, Function.update_self, Function.update_self, htraffic, Function.update_idem,
            Function.update_idem]
          rfl
      exact e.sound h ht hfree

/-- `find_local_socket`, on a part of the list. -/
theorem findFrom_spec (h : s.Linked) (id : Word) (as : List Addr) (has : ∀ a ∈ as, a ∈ s.localSocketList) :
    s.findFrom id as = some none ∨ ∃ a ∈ as, s.findFrom id as = some (some a) := by
  induction as with
  | nil => exact .inl rfl
  | cons a as ih =>
      obtain ⟨id', b, fd, pkts, ha⟩ := h.connected a (has a List.mem_cons_self)
      have hstep : s.findFrom id (a :: as) = if id' = id then some (some a) else s.findFrom id as := by
        rw [findFrom, ha]
        rfl
      rw [hstep]
      split
      · exact .inr ⟨a, List.mem_cons_self, rfl⟩
      · rcases ih fun c hc => has c (List.mem_cons_of_mem a hc) with hnone | ⟨c, hc, hfound⟩
        · exact .inl hnone
        · exact .inr ⟨c, List.mem_cons_of_mem a hc, hfound⟩

/-- A search for a socket by its number gives a connected socket, or none. -/
theorem findLocalSocket_spec (h : s.Linked) (id : Word) :
    s.findLocalSocket id = some none ∨ ∃ a id' b fd pkts rid t tr, s.findLocalSocket id = some (some a) ∧
      s.heap a = some (connectedSocket id' b fd pkts) ∧ s.heap b = some (remoteSocket rid a t) ∧
      s.transports t = some tr := by
  rcases findFrom_spec h id s.localSocketList fun a ha => ha with hnone | ⟨a, hmem, hfound⟩
  · exact .inl hnone
  · obtain ⟨id', b, fd, pkts, ha⟩ := h.connected a hmem
    obtain ⟨rid, t, tr, hb, ht, -⟩ := h.peer ha
    exact .inr ⟨a, id', b, fd, pkts, rid, t, tr, hfound, ha, hb, ht⟩

end Packet

section HandlePacket

variable {s : Daemon} {a b t : Addr} {id rid : Word} {fd : ℕ} {pkts : List Bytes} {tr : Transport}

/-- The other side asks for data. -/
theorem ready_sound (h : s.Sound g) (ha : s.heap a = some (connectedSocket id b fd pkts)) :
    ∃ s', ready a s = some s' ∧ s'.Sound g := by
  obtain ⟨fde, hfde, hwaits⟩ := h.wellFormed.watched.socket a _ ha rfl
  obtain ⟨fde₀, hfde₀, hgranted⟩ := h.streams.granted a id b fd pkts ha
  rw [hfde] at hfde₀
  cases hfde₀
  obtain ⟨p, fde', hset, htable, hwant, harg, hevents⟩ :=
    Pump.exists_set hfde (fde.want.add (.only .read))
  have hadd : s.pump.add fd (.only .read) = some p := (Pump.add_eq_set hfde _).trans hset
  have hwrite : fde'.want .write = fde.want .write := by
    rw [hwant]
    exact Bool.or_false _
  have hread : fde'.want .read = true := by
    rw [hwant]
    exact Bool.or_true _
  have htraffic : (s.note a .granted).traffic a = s.traffic a ++ [.granted] := Function.update_self _ _ _
  refine ⟨{ s.note a .granted with pump := p }, ?_, ?_⟩
  · rw [ready, ha]
    show (s.pump.add fd (.only .read)).bind _ = _
    rw [hadd]
    rfl
  · refine h.touched (q := pkts) (f := fde') ha rfl ⟨?_, rfl, rfl, rfl, rfl, rfl,
      h.wellFormed.watched.consistent.set hset, htable, ?_⟩ (by rintro ⟨⟩)
      ⟨harg.trans hwaits.arg, ?_, fun hpending => hwaits.pending (hevents .write hpending)⟩ ?_ ?_ ?_
    · rw [← ha, Function.update_eq_self]
      rfl
    · exact fun c hca => ⟨Function.update_of_ne hca _ _, rfl, rfl⟩
    · rw [hwrite]
      exact hwaits.write
    · show InOrder ((s.note a .granted).traffic a) (s.written a) (s.readFrom a)
      rw [htraffic]
      exact (h.streams.inOrder a).granted_concat
    · show Current _ ((s.note a .granted).traffic a) (s.written a)
      rw [htraffic]
      obtain ⟨hqueued, hokay⟩ := h.streams.current a _ ha rfl
      constructor
      · rw [taken_concat]
        exact (List.append_nil _).trans hqueued
      · rw [okays_concat, tooks_concat]
        exact hokay
    · intro _
      show Granted fde' ((s.note a .granted).traffic a) (s.readFrom a)
      rw [htraffic]
      refine ⟨?_, ?_, fun _ => hread⟩
      · rw [given_concat]
        exact (List.append_nil _).trans hgranted.sentOut
      · rw [hread, mayGive_concat]

/-- A packet of data has been written, and the other side is told so. -/
theorem acknowledge_sound (h : s.Sound g) (ha : s.heap a = some (connectedSocket id b fd []))
    (x : Bytes) (sent : List (Addr × APacket)) :
    (({ (s.note a (.took x)).putBytes a x with sent := sent } : Daemon).note a .okay).Sound g := by
  obtain ⟨fde, hfde, hwaits⟩ := h.wellFormed.watched.socket a _ ha rfl
  obtain ⟨fde₀, hfde₀, hgranted⟩ := h.streams.granted a id b fd [] ha
  rw [hfde] at hfde₀
  cases hfde₀
  obtain ⟨hqueued, hokay⟩ := h.streams.current a _ ha rfl
  let s₁ : Daemon := { (s.note a (.took x)).putBytes a x with sent := sent }
  have htook : s₁.traffic a = s.traffic a ++ [.took x] := Function.update_self _ _ _
  have htraffic : (s₁.note a .okay).traffic a = s.traffic a ++ [.took x] ++ [.okay] := by
    rw [← htook]
    exact Function.update_self _ _ _
  have hwritten : (s₁.note a .okay).written a = s.written a ++ x := Function.update_self _ _ _
  have hall : taken (s.traffic a) = s.written a := hqueued.trans (List.append_nil _)
  have hle : okays (s.traffic a) ≤ tooks (s.traffic a) + 1 := hokay
  refine h.touched (q := []) (f := fde) ha rfl ⟨?_, rfl, rfl, rfl, rfl, rfl,
    h.wellFormed.watched.consistent, ?_, ?_⟩ (by rintro ⟨⟩) hwaits ?_ ?_ ?_
  · rw [← ha, Function.update_eq_self]
    rfl
  · rw [← hfde, Function.update_eq_self]
    rfl
  · intro c hca
    refine ⟨?_, Function.update_of_ne hca _ _, rfl⟩
    show Function.update s₁.traffic a _ c = s.traffic c
    rw [Function.update_of_ne hca]
    exact Function.update_of_ne hca _ _
  · show InOrder _ _ (s.readFrom a)
    rw [htraffic, hwritten]
    refine ((h.streams.inOrder a).took_concat hall (List.prefix_refl x)).okay_concat ?_
    rw [okays_concat, tooks_concat]
    exact hle
  · rw [htraffic, hwritten]
    constructor
    · rw [taken_concat, taken_concat, taken_singleton_took, hall]
      rfl
    · rw [okays_concat, okays_concat, tooks_concat, tooks_concat]
      show okays (s.traffic a) + 0 + 1 + 0 ≤ tooks (s.traffic a) + 1 + 0 + 1
      omega
  · intro _
    show Granted fde _ (s.readFrom a)
    rw [htraffic]
    refine ⟨?_, ?_, hgranted.pending⟩
    · rw [given_concat, given_concat]
      exact (List.append_nil _).trans ((List.append_nil _).trans hgranted.sentOut)
    · rw [mayGive_concat, mayGive_concat]
      exact hgranted.want

theorem parseBanner_eq_none_iff (data : Bytes) : parseBanner data = none ↔ ¬ BannerEnds data := by
  unfold parseBanner bannerType
  by_cases hends : BannerEnds data
  · rw [if_pos hends]
    refine iff_of_false ?_ (not_not.mpr hends)
    simp only [Option.bind_eq_bind, Option.bind_some]
    repeat' split
    all_goals exact Option.some_ne_none _
  · rw [if_neg hends]
    exact iff_of_true rfl hends

/-- `A_SYNC` and `A_CNXN`. -/
theorem sync_sound (p : APacket) (h : s.Sound g) (ht : s.transports t = some tr) :
    ∃ s', (if p.arg0 ≠ 0 then s.send p t else (goOffline t s).bind fun s => s.send p t) = some s' ∧
      s'.Sound g := by
  split
  · exact send_sound h ht p
  · obtain ⟨s', tr', hoff, hsound, ht'⟩ := goOffline_sound h ht
    rw [hoff]
    exact send_sound hsound ht' p

theorem connect_sound (p : APacket) (h : s.Sound g) (ht : s.transports t = some tr) :
    ∃ s', (if tr.connectionState ≠ .offline then goOffline t s else some s) = some s' ∧ s'.Sound g ∧
      (BannerEnds p.data → ∃ s'', ((parseBanner p.data).bind fun state => (setState t state s').bind
        fun s => sendConnect t s) = some s'' ∧ s''.Sound g) := by
  have hstate : ∀ s' tr', s'.Sound g → s'.transports t = some tr' → BannerEnds p.data →
      ∃ s'', ((parseBanner p.data).bind fun state => (setState t state s').bind
        fun s => sendConnect t s) = some s'' ∧ s''.Sound g := by
    intro s' tr' hsound ht' hends
    obtain ⟨state, hbanner⟩ := Option.ne_none_iff_exists'.mp
      (fun hnone => (parseBanner_eq_none_iff p.data).mp hnone hends)
    obtain ⟨s₁, hset, hsound₁, ht₁⟩ := setState_sound hsound ht' state
    rw [hbanner, Option.bind_some, hset]
    exact send_sound hsound₁ ht₁ _
  split
  · obtain ⟨s', tr', hoff, hsound, ht'⟩ := goOffline_sound h ht
    exact ⟨s', hoff, hsound, hstate s' tr' hsound ht'⟩
  · exact ⟨s, rfl, h, hstate s tr h ht⟩

/-- `A_CNXN`, up to the banner. -/
theorem handleConnect_sound (newFd : Option ℕ) (as : List WriteAnswer) {p : APacket} (h : s.Sound g)
    (ht : s.transports t = some tr) (hcnxn : p.command = aCnxn) :
    (handlePacket newFd as p t s = none ↔ ¬ BannerEnds p.data) ∧
      ∀ s', handlePacket newFd as p t s = some s' → s'.Sound g := by
  obtain ⟨s₁, hoff, -, hgreet⟩ := connect_sound p h ht
  have heq : handlePacket newFd as p t s = (parseBanner p.data).bind fun state =>
      (setState t state s₁).bind fun s => sendConnect t s := by
    have hsync : p.command ≠ aSync := by
      rw [hcnxn]
      decide
    rw [handlePacket, ht]
    show (if p.command = aSync then _ else if p.command = aCnxn then _ else _) = _
    rw [if_neg hsync, if_pos hcnxn]
    show (if tr.connectionState ≠ .offline then (goOffline t s).bind _ else _) = _
    by_cases hoffline : tr.connectionState ≠ .offline
    · rw [if_pos hoffline] at hoff ⊢
      rw [hoff]
      rfl
    · rw [if_neg hoffline] at hoff ⊢
      cases hoff
      rfl
  rw [heq]
  by_cases hends : BannerEnds p.data
  · obtain ⟨s₂, hend, hsound⟩ := hgreet hends
    rw [hend]
    refine ⟨iff_of_false (Option.some_ne_none s₂) (not_not.mpr hends), ?_⟩
    rintro s' ⟨⟩
    exact hsound
  · rw [(parseBanner_eq_none_iff p.data).mpr hends]
    exact ⟨iff_of_true rfl hends, by rintro s' ⟨⟩⟩

/-- A packet for a socket that is looked up by its number is dropped when there is none. -/
theorem found_sound (h : s.Sound g) (id : Word) {k : Addr → Option Daemon}
    (hk : ∀ a id b fd pkts rid t tr, s.heap a = some (connectedSocket id b fd pkts) →
      s.heap b = some (remoteSocket rid a t) → s.transports t = some tr → ∃ s', k a = some s' ∧ s'.Sound g) :
    ∃ s', ((s.findLocalSocket id).bind fun
      | none => some s
      | some a => k a) = some s' ∧ s'.Sound g := by
  rcases findLocalSocket_spec h.wellFormed.linked id with
    hnone | ⟨a, id', b, fd, pkts, rid, t, tr, hfound, ha, hb, ht⟩
  · rw [hnone]
    exact ⟨s, rfl, h⟩
  · rw [hfound]
    exact hk a id' b fd pkts rid t tr ha hb ht

/-- The data of an `A_WRTE` packet, and the `OKAY` for them if they could be written. -/
theorem write_sound (as : List WriteAnswer) (p : APacket) (h : s.Sound g) (ht : s.transports t = some tr)
    {t' : Addr} (ha : s.heap a = some (connectedSocket id b fd pkts))
    (hb : s.heap b = some (remoteSocket rid a t')) :
    ∃ s', ((localSocketEnqueue as a p.data s).bind fun
      | (s, more) => if more = true then (s.heap a).bind fun sk =>
          (s.send (.bare aOkay sk.id p.arg0) t).bind fun s => some (s.note a .okay)
        else some s) = some s' ∧ s'.Sound g := by
  rcases localSocketEnqueue_spec (x := p.data) as h ha hb with ⟨rfl, henqueue⟩ | ⟨s', henqueue, hsound⟩
  · let s₁ := (s.note a (.took p.data)).putBytes a p.data
    refine ⟨_, ?_, acknowledge_sound h ha p.data (s.sent ++ [(t, .bare aOkay id p.arg0)])⟩
    rw [henqueue]
    show (s₁.heap a).bind _ = _
    rw [show s₁.heap a = _ from ha]
    show ((s.transports t).bind _).bind _ = _
    rw [ht]
    rfl
  · refine ⟨s', ?_, hsound⟩
    rw [henqueue]
    rfl

/-- The packets that count when the transport is online. -/
theorem handleOnline_sound (newFd : Option ℕ) (as : List WriteAnswer) {p : APacket} (h : s.Sound g)
    (ht : s.transports t = some tr) (hfd : ∀ d, newFd = some d → s.pump.table d = none)
    (hsync : p.command ≠ aSync) (hcnxn : p.command ≠ aCnxn) (honline : tr.connectionState ≠ .offline) :
    ∃ s', handlePacket newFd as p t s = some s' ∧ s'.Sound g := by
  rw [handlePacket, ht]
  show ∃ s', (if p.command = aSync then _ else if p.command = aCnxn then _ else
    if tr.connectionState = .offline then some s else if p.command = aOpen then handleOpen newFd p t s
    else if p.command = aOkay then _ else if p.command = aClse then _
    else if p.command = aWrte then _ else some s) = some s' ∧ _
  rw [if_neg hsync, if_neg hcnxn, if_neg honline]
  by_cases hopen : p.command = aOpen
  · rw [if_pos hopen]
    exact handleOpen_sound newFd p h ht hfd
  rw [if_neg hopen]
  by_cases hokay : p.command = aOkay
  · rw [if_pos hokay]
    refine found_sound h p.arg1 fun a id b fd pkts rid t tr ha _ _ => ?_
    show ∃ s', (s.heap a).bind _ = some s' ∧ _
    rw [ha]
    exact ready_sound h ha
  rw [if_neg hokay]
  by_cases hclse : p.command = aClse
  · rw [if_pos hclse]
    refine found_sound h p.arg1 fun a id b fd pkts rid t tr ha hb _ => ?_
    obtain ⟨s', hclose, e, -⟩ := close_connected 1 h.wellFormed ha hb
    exact ⟨s', hclose, h.ended e ha hb⟩
  rw [if_neg hclse]
  by_cases hwrte : p.command = aWrte
  · rw [if_pos hwrte]
    exact found_sound h p.arg1 fun a id b fd pkts rid t' tr' ha hb _ => write_sound as p h ht ha hb
  rw [if_neg hwrte]
  exact ⟨s, rfl, h⟩

/-- The handler of a packet does nothing wrong but for a banner that does not end within its packet.
-/
theorem handlePacket_sound (newFd : Option ℕ) (as : List WriteAnswer) (p : APacket) (h : s.Sound g)
    (ht : s.transports t = some tr) (hfd : ∀ d, newFd = some d → s.pump.table d = none) :
    (handlePacket newFd as p t s = none ↔ p.command = aCnxn ∧ ¬ BannerEnds p.data) ∧
      ∀ s', handlePacket newFd as p t s = some s' → s'.Sound g := by
  by_cases hcnxn : p.command = aCnxn
  · obtain ⟨hnone, hsome⟩ := handleConnect_sound newFd as h ht hcnxn
    exact ⟨hnone.trans (and_iff_right hcnxn).symm, hsome⟩
  · have hgood : ∃ s', handlePacket newFd as p t s = some s' ∧ s'.Sound g := by
      by_cases hsync : p.command = aSync
      · rw [handlePacket, ht]
        show ∃ s', (if p.command = aSync then _ else _) = some s' ∧ _
        rw [if_pos hsync]
        exact sync_sound p h ht
      by_cases hoffline : tr.connectionState = .offline
      · refine ⟨s, ?_, h⟩
        rw [handlePacket, ht]
        show (if p.command = aSync then _ else if p.command = aCnxn then _ else
          if tr.connectionState = .offline then some s else _) = some s
        rw [if_neg hsync, if_neg hcnxn, if_pos hoffline]
      · exact handleOnline_sound newFd as h ht hfd hsync hcnxn hoffline
    obtain ⟨s₁, heq, hsound⟩ := hgood
    rw [heq]
    refine ⟨iff_of_false (Option.some_ne_none s₁) fun hand => hcnxn hand.1, ?_⟩
    rintro s' ⟨⟩
    exact hsound

end HandlePacket

/-! ## The event pump and the transports -/

section Pumped

variable {s : Daemon} {p : Pump Owner} {t : Addr} {fd : ℕ} {tr : Transport}

/-- The pump has the same entries, with fewer events pending or more of the wanted ones. -/
theorem Sound.pumped (h : s.Sound g) (hconsistent : p.Consistent)
    (hnone : ∀ fd, s.pump.table fd = none → p.table fd = none)
    (hsome : ∀ fd fde, s.pump.table fd = some fde → ∃ fde', p.table fd = some fde' ∧
      fde'.want = fde.want ∧ fde'.arg = fde.arg ∧
      ∀ e, fde'.events e = true → fde.events e = true ∨ fde.want e = true) :
    ({ s with pump := p } : Daemon).Sound g := by
  have hback : ∀ fd fde', p.table fd = some fde' → ∃ fde, s.pump.table fd = some fde ∧
      fde'.arg = fde.arg := by
    intro fd fde' hfde'
    cases hfde : s.pump.table fd with
    | none =>
        rw [hnone fd hfde] at hfde'
        cases hfde'
    | some fde =>
        obtain ⟨fde'', hfde'', -, harg, -⟩ := hsome fd fde hfde
        rw [hfde'] at hfde''
        cases hfde''
        exact ⟨fde, rfl, harg⟩
  obtain ⟨hlinked, hwatched⟩ := h.wellFormed
  refine ⟨⟨⟨?_, hlinked.connected, hlinked.closing, hlinked.remote, hlinked.listNodup,
    hlinked.closingNodup, hlinked.disconnectsNodup, hlinked.fresh⟩, ⟨hconsistent, ?_, ?_, ?_, ?_⟩⟩,
    ⟨h.streams.inOrder, h.streams.current, ?_, h.streams.fresh⟩⟩
  · exact fun c sk hc => (hlinked.placed c sk hc).congr rfl rfl rfl rfl
  · intro a sk ha hkind
    obtain ⟨fde, hfde, harg, hwrite, hpending⟩ := hwatched.socket a sk ha hkind
    obtain ⟨fde', hfde', hwant, harg', hevents⟩ := hsome _ fde hfde
    refine ⟨fde', hfde', harg'.trans harg, ?_, ?_⟩
    · rw [hwant]
      exact hwrite
    · intro he
      rcases hevents .write he with hold | hwanted
      · exact hpending hold
      · exact hwrite.mp hwanted
  · intro fd' fde' a hfde' harg
    obtain ⟨fde, hfde, hsame⟩ := hback fd' fde' hfde'
    exact hwatched.owner fd' fde a hfde (hsame.symm.trans harg)
  · intro t' tr' ht' hg
    obtain ⟨fde, hfde, harg⟩ := hwatched.transport t' tr' ht' hg
    obtain ⟨fde', hfde', -, harg', -⟩ := hsome _ fde hfde
    exact ⟨fde', hfde', harg'.trans harg⟩
  · intro fd' fde' t' hfde' harg
    obtain ⟨fde, hfde, hsame⟩ := hback fd' fde' hfde'
    exact hwatched.transportOwner fd' fde t' hfde (hsame.symm.trans harg)
  · intro a id b fd' pkts ha
    obtain ⟨fde, hfde, hsent, hwant, hpending⟩ := h.streams.granted a id b fd' pkts ha
    obtain ⟨fde', hfde', hwant', -, hevents⟩ := hsome _ fde hfde
    refine ⟨fde', hfde', hsent, ?_, ?_⟩
    · rw [hwant']
      exact hwant
    · intro he
      rw [hwant']
      rcases hevents .read he with hold | hwanted
      · exact hpending hold
      · exact hwanted

/-- What `select` can answer: descriptors in the table are open, because nobody else closes them. -/
def Answers (s : Daemon) : Pump.Selected → Prop
  | .ready fds => Pump.Selected.Possible s.pump (.ready fds)
  | .interrupted => True
  | .bad closed => ∀ fd, s.pump.table fd ≠ none → closed fd = false

theorem wait_sound (h : s.Sound g) {answer : Pump.Selected} (hanswer : s.Answers answer) :
    ∃ s', s.step (.wait answer) = some s' ∧ s'.Sound g := by
  have hconsistent := h.wellFormed.watched.consistent
  have hpossible : answer.Possible s.pump := by
    cases answer with
    | ready fds => exact hanswer
    | interrupted => trivial
    | bad closed => trivial
  have hwanted : ∀ fd fde e, s.pump.table fd = some fde → answer.reported s.pump fd e = true →
      fde.want e = true := by
    intro fd fde e hfde he
    cases answer with
    | ready fds =>
        obtain ⟨fde', hfde', hwant⟩ := (hconsistent.fds_iff e fd).mp (hanswer fd e he)
        rw [hfde] at hfde'
        cases hfde'
        exact hwant
    | interrupted => cases he
    | bad closed =>
        have hopen : closed fd = false := hanswer fd (by rw [hfde]; exact Option.some_ne_none fde)
        have hnone : s.pump.fdCheck closed fd = .empty :=
          if_neg fun hand => Bool.false_ne_true (hopen.symm.trans hand.1)
        have hcheck : s.pump.fdCheck closed fd e = true := he
        rw [hnone] at hcheck
        cases hcheck
  obtain ⟨p, hprocess, hp, htable⟩ := hconsistent.process hpossible
  refine ⟨{ s with pump := p }, ?_, h.pumped hp ?_ ?_⟩
  · rw [step, hprocess]
    rfl
  · intro fd hfd
    rw [htable fd, Pump.marked, hfd]
    rfl
  · intro fd fde hfde
    by_cases hready : answer.reported s.pump fd = .empty
    · refine ⟨fde, ?_, rfl, rfl, fun e he => .inl he⟩
      rw [htable fd, Pump.marked_empty hready, hfde]
    · refine ⟨_, (htable fd).trans (Pump.marked_some hready hfde), rfl, rfl, ?_⟩
      intro e he
      rcases (Bool.or_eq_true _ _).mp he with hold | hnew
      · exact .inl hold
      · exact .inr (hwanted fd fde e hfde hnew)

/-- A new transport. -/
theorem registerTransport_sound (h : s.Sound none) (hfree : s.pump.table fd = none) :
    ∃ s', registerTransport fd s = some s' ∧ s'.Sound none := by
  obtain ⟨hheap, htransport⟩ := h.wellFormed.linked.fresh s.allocated (Nat.le_refl _)
  have hfde : (s.pump.install fd (.transport s.allocated)).table fd =
      some ⟨.empty, false, .empty, .transport s.allocated⟩ := Pump.put_self _ _ _
  obtain ⟨p, fde, hset, htable, -, harg, -⟩ := Pump.exists_set hfde (.only .read)
  have htable' : p.table = Function.update s.pump.table fd (some fde) :=
    htable.trans (Function.update_idem _ _ _)
  have hhere : p.table fd = some fde := by rw [htable', Function.update_self]
  have hthere : ∀ fd', fd' ≠ fd → p.table fd' = s.pump.table fd' := by
    intro fd' hne
    rw [htable', Function.update_of_ne hne]
  have hne : ∀ fd' fde', s.pump.table fd' = some fde' → fd' ≠ fd := by
    rintro fd' fde' hold rfl
    rw [hfree] at hold
    cases hold
  let s' : Daemon := { s.storeTransport s.allocated (some ⟨.offline, [], fd⟩) with
    allocated := s.allocated + 1
    pump := p }
  have hcases : ∀ t tr, s'.transports t = some tr →
      t = s.allocated ∧ tr = ⟨.offline, [], fd⟩ ∨ t ≠ s.allocated ∧ s.transports t = some tr := by
    intro t tr ht
    by_cases hta : t = s.allocated
    · rw [hta] at ht
      exact .inl ⟨hta, (Option.some.inj ((storeTransport_self s _).symm.trans ht)).symm⟩
    · exact .inr ⟨hta, (storeTransport_of_ne s _ hta).symm.trans ht⟩
  have hold : ∀ t tr, s.transports t = some tr → s'.transports t = some tr := by
    intro t tr ht
    refine (storeTransport_of_ne s _ ?_).trans ht
    rintro rfl
    rw [htransport] at ht
    cases ht
  obtain ⟨hlinked, hwatched⟩ := h.wellFormed
  refine ⟨s', ?_, ⟨⟨⟨?_, hlinked.connected, hlinked.closing, ?_, hlinked.listNodup,
    hlinked.closingNodup, ?_, ?_⟩, ⟨(hwatched.consistent.install hfree _).set hset, ?_, ?_, ?_, ?_⟩⟩,
    ⟨h.streams.inOrder, h.streams.current, ?_, ?_⟩⟩⟩
  · rw [registerTransport]
    show ((s.pump.install fd (.transport s.allocated)).set fd (.only .read)).bind _ = _
    rw [hset]
    rfl
  · intro c sk hc
    cases hlinked.placed c sk hc with
    | connected hpeer hmem => exact .connected hpeer hmem
    | closing hpkts hmem => exact .closing hpkts hmem
    | remote hpeer ht hmem => exact .remote hpeer (hold _ _ ht) hmem
  · intro t tr ht b hb
    rcases hcases t tr ht with ⟨-, rfl⟩ | ⟨-, ht⟩
    · cases hb
    · exact hlinked.remote t tr ht b hb
  · intro t tr ht
    rcases hcases t tr ht with ⟨-, rfl⟩ | ⟨-, ht⟩
    · exact List.nodup_nil
    · exact hlinked.disconnectsNodup t tr ht
  · intro c hc
    have hlt : s.allocated < c := hc
    obtain ⟨hheap', htransport'⟩ := hlinked.fresh c (Nat.le_of_lt hlt)
    exact ⟨hheap', (storeTransport_of_ne s _ (Nat.ne_of_gt hlt)).trans htransport'⟩
  · intro a sk ha hkind
    obtain ⟨fde', hfde', hwaits⟩ := hwatched.socket a sk ha hkind
    exact ⟨fde', (hthere _ (hne _ _ hfde')).trans hfde', hwaits⟩
  · intro fd' fde' a hfde' harg'
    have hfd : fd' ≠ fd := by
      rintro rfl
      have hhere' : p.table fd' = some fde' := hfde'
      rw [hhere] at hhere'
      cases hhere'
      cases harg.symm.trans harg'
    exact hwatched.owner fd' fde' a ((hthere fd' hfd).symm.trans hfde') harg'
  · intro t tr ht hg
    rcases hcases t tr ht with ⟨rfl, rfl⟩ | ⟨-, ht⟩
    · exact ⟨fde, hhere, harg⟩
    · obtain ⟨fde', hfde', harg'⟩ := hwatched.transport t tr ht hg
      exact ⟨fde', (hthere _ (hne _ _ hfde')).trans hfde', harg'⟩
  · intro fd' fde' t hfde' harg'
    refine ⟨(Option.some_ne_none t).symm, ?_⟩
    by_cases hfd : fd' = fd
    · subst hfd
      have hhere' : p.table fd' = some fde' := hfde'
      rw [hhere] at hhere'
      cases hhere'
      cases harg.symm.trans harg'
      exact ⟨_, storeTransport_self s _, rfl⟩
    · obtain ⟨-, tr, ht, hsocket⟩ :=
        hwatched.transportOwner fd' fde' t ((hthere fd' hfd).symm.trans hfde') harg'
      exact ⟨tr, hold t tr ht, hsocket⟩
  · intro a id b fd' pkts ha
    obtain ⟨fde', hfde', hgranted⟩ := h.streams.granted a id b fd' pkts ha
    exact ⟨fde', (hthere _ (hne _ _ hfde')).trans hfde', hgranted⟩
  · exact fun a ha => h.streams.fresh a (Nat.le_of_succ_le ha)

/-- A transport without its entry in the pump. -/
theorem Sound.unwatched (h : s.Sound none) (ht : s.transports t = some tr)
    (hremove : s.pump.remove tr.socket = some p)
    (htable : p.table = Function.update s.pump.table tr.socket none) :
    ({ s with pump := p } : Daemon).Sound (some t) := by
  obtain ⟨fde, hfde, harg⟩ := h.wellFormed.watched.transport t tr ht (Option.some_ne_none t).symm
  have hthere : ∀ fd', fd' ≠ tr.socket → p.table fd' = s.pump.table fd' := by
    intro fd' hne
    rw [htable, Function.update_of_ne hne]
  have hback : ∀ fd' fde', p.table fd' = some fde' → fd' ≠ tr.socket ∧ s.pump.table fd' = some fde' := by
    intro fd' fde' hfde'
    have hne : fd' ≠ tr.socket := by
      rintro rfl
      rw [htable, Function.update_self] at hfde'
      cases hfde'
    exact ⟨hne, (hthere fd' hne).symm.trans hfde'⟩
  obtain ⟨hlinked, hwatched⟩ := h.wellFormed
  refine ⟨⟨⟨?_, hlinked.connected, hlinked.closing, hlinked.remote, hlinked.listNodup,
    hlinked.closingNodup, hlinked.disconnectsNodup, hlinked.fresh⟩,
    ⟨hwatched.consistent.remove hremove, ?_, ?_, ?_, ?_⟩⟩,
    ⟨h.streams.inOrder, h.streams.current, ?_, h.streams.fresh⟩⟩
  · exact fun c sk hc => (hlinked.placed c sk hc).congr rfl rfl rfl rfl
  · intro a sk ha hkind
    obtain ⟨fde', hfde', hwaits⟩ := hwatched.socket a sk ha hkind
    have hne := hwatched.transport_fd_ne ha hkind ht (Option.some_ne_none t).symm
    exact ⟨fde', (hthere _ hne.symm).trans hfde', hwaits⟩
  · intro fd' fde' a hfde' harg'
    exact hwatched.owner fd' fde' a (hback fd' fde' hfde').2 harg'
  · intro t' tr' ht' hg
    obtain ⟨fde', hfde', harg'⟩ := hwatched.transport t' tr' ht' (Option.some_ne_none t').symm
    have hne : tr'.socket ≠ tr.socket := by
      intro heq
      rw [heq, hfde] at hfde'
      cases hfde'
      exact hg (congrArg some (Owner.transport.inj (harg.symm.trans harg')))
    exact ⟨fde', (hthere _ hne).trans hfde', harg'⟩
  · intro fd' fde' t' hfde' harg'
    obtain ⟨hne, hfde'⟩ := hback fd' fde' hfde'
    obtain ⟨-, tr', ht', hsocket⟩ := hwatched.transportOwner fd' fde' t' hfde' harg'
    refine ⟨?_, tr', ht', hsocket⟩
    rintro ⟨⟩
    rw [ht] at ht'
    cases ht'
    exact hne hsocket.symm
  · intro a id b fd' pkts ha
    obtain ⟨fde', hfde', hgranted⟩ := h.streams.granted a id b fd' pkts ha
    have hne := hwatched.transport_fd_ne ha rfl ht (Option.some_ne_none t).symm
    exact ⟨fde', (hthere fd' hne.symm).trans hfde', hgranted⟩

/-- A transport without an entry in the pump and without connections can be freed. -/
theorem Sound.forget (h : s.Sound (some t)) (ht : s.transports t = some { tr with disconnects := [] }) :
    (s.storeTransport t none).Sound none := by
  obtain ⟨⟨hlinked, hwatched⟩, hstreams⟩ := h
  have hback : ∀ t' tr', (s.storeTransport t none).transports t' = some tr' →
      t' ≠ t ∧ s.transports t' = some tr' := by
    intro t' tr' ht'
    have hne : t' ≠ t := by
      rintro rfl
      rw [storeTransport_self] at ht'
      cases ht'
    exact ⟨hne, (storeTransport_of_ne s none hne).symm.trans ht'⟩
  refine ⟨⟨⟨?_, hlinked.connected, hlinked.closing, ?_, hlinked.listNodup, hlinked.closingNodup, ?_, ?_⟩,
    ⟨hwatched.consistent, hwatched.socket, hwatched.owner, ?_, ?_⟩⟩,
    ⟨hstreams.inOrder, hstreams.current, hstreams.granted, hstreams.fresh⟩⟩
  · intro c sk hc
    cases hlinked.placed c sk hc with
    | connected hpeer hmem => exact .connected hpeer hmem
    | closing hpkts hmem => exact .closing hpkts hmem
    | @remote _ _ t' _ _ _ _ hpeer ht' hmem =>
        have hne : t' ≠ t := by
          rintro rfl
          rw [ht] at ht'
          cases ht'
          cases hmem
        exact .remote hpeer ((storeTransport_of_ne s none hne).trans ht') hmem
  · exact fun t' tr' ht' => hlinked.remote t' tr' (hback t' tr' ht').2
  · exact fun t' tr' ht' => hlinked.disconnectsNodup t' tr' (hback t' tr' ht').2
  · intro c hc
    obtain ⟨hheap, htransport⟩ := hlinked.fresh c hc
    refine ⟨hheap, ?_⟩
    by_cases hct : c = t
    · rw [hct, storeTransport_self]
    · rw [storeTransport_of_ne s none hct, htransport]
  · intro t' tr' ht' _
    obtain ⟨hne, ht'⟩ := hback t' tr' ht'
    exact hwatched.transport t' tr' ht' fun heq => hne (Option.some.inj heq).symm
  · intro fd' fde' t' hfde' harg'
    obtain ⟨hg, tr', ht', hsocket⟩ := hwatched.transportOwner fd' fde' t' hfde' harg'
    have hne : t' ≠ t := by
      rintro rfl
      exact hg rfl
    exact ⟨(Option.some_ne_none t').symm, tr', (storeTransport_of_ne s none hne).trans ht', hsocket⟩

/-- A transport that goes takes its connections with it. -/
theorem unregisterTransport_sound (h : s.Sound none) (ht : s.transports t = some tr) :
    ∃ s', unregisterTransport t s = some s' ∧ s'.Sound none := by
  obtain ⟨fde, hfde, -⟩ := h.wellFormed.watched.transport t tr ht (Option.some_ne_none t).symm
  obtain ⟨p, hremove, htable⟩ := Pump.exists_remove hfde
  have hsound := h.unwatched ht hremove htable
  obtain ⟨s₁, hrun, hwell, hshrinks, -, htransports⟩ :=
    runTransportDisconnects_spec hsound.wellFormed (show s.transports t = some tr from ht)
  have hempty : s₁.transports t = some { tr with disconnects := [] } := by
    rw [htransports, Function.update_self]
  refine ⟨s₁.storeTransport t none, ?_, Sound.forget ⟨hwell, hsound.streams.shrinks hshrinks⟩ hempty⟩
  rw [unregisterTransport, ht]
  show (s.pump.remove tr.socket).bind _ = _
  rw [hremove]
  show (runTransportDisconnects t { s with pump := p }).bind _ = _
  rw [hrun]
  rfl

end Pumped

/-! ## Runs -/

/-- What the rest of the system can do in a state: `select` answers as it should, the kernel gives
out descriptors that are not in use, and the other threads name transports that are registered. -/
def Possible (s : Daemon) : Action → Prop
  | .wait answer => s.Answers answer
  | .call o => (∀ d, o.service = some d → s.pump.table d = none) ∧
      (∀ d, o.message = .register d → s.pump.table d = none) ∧
      ∀ t, o.message = .remove t → s.transports t ≠ none
  | .closeAll t => s.transports t ≠ none

/-- The first pending `fdevent` is a transport with a packet `CNXN` whose banner has neither a NUL
nor a second colon. -/
def BadBanner (s : Daemon) (act : Action) : Prop :=
  ∃ o p fd rest fde t, act = .call o ∧ s.pump.pendingList = fd :: rest ∧
    s.pump.table fd = some fde ∧ fde.arg = .transport t ∧ fde.events .read = true ∧
    o.packet = some p ∧ p.command = aCnxn ∧ ¬ BannerEnds p.data

/-- The states of the process. -/
inductive Run : Daemon → Prop where
  | start {fd : ℕ} {s : Daemon} (hstart : start fd = some s) : Run s
  | snoc {s s' : Daemon} {act : Action} (hrun : Run s) (hpossible : s.Possible act)
      (hstep : s.step act = some s') : Run s'

section Run

variable {s s' : Daemon} {act : Action}

/-- One descriptor is ready, or the first pending `fdevent` is called. -/
inductive Event where
  | ready (fd : ℕ) (e : Ev)
  | call (o : Outside)

def Event.action : Event → Action
  | .ready fd e => .wait (.ready fun fd' e' => decide (fd' = fd ∧ e' = e))
  | .call o => .call o

/-- Whether an event can happen. -/
def Event.allowed (s : Daemon) : Event → Bool
  | .ready fd e => s.pump.fds e fd
  | .call o => (o.service.all fun d => (s.pump.table d).isNone) &&
      match o.message with
      | .register d => (s.pump.table d).isNone
      | .remove t => (s.transports t).isSome

/-- The events one after another, as long as each can happen. -/
def play : List Event → Daemon → Option Daemon
  | [], s => some s
  | e :: es, s => if e.allowed s = true then (s.step e.action).bind (play es) else none

theorem Event.possible {e : Event} (h : e.allowed s = true) : s.Possible e.action := by
  cases e with
  | ready fd e =>
      intro fd' e' he
      obtain ⟨rfl, rfl⟩ := of_decide_eq_true he
      exact h
  | call o =>
      obtain ⟨hservice, hmessage⟩ := (Bool.and_eq_true _ _ ▸ h : _ ∧ _)
      refine ⟨?_, ?_, ?_⟩
      · intro d hd
        rw [hd] at hservice
        exact Option.isNone_iff_eq_none.mp hservice
      · intro d hd
        rw [hd] at hmessage
        exact Option.isNone_iff_eq_none.mp hmessage
      · intro t ht
        rw [ht] at hmessage
        exact Option.isSome_iff_ne_none.mp hmessage

theorem Run.play {es : List Event} (h : Run s) (hplay : Daemon.play es s = some s') : Run s' := by
  induction es generalizing s with
  | nil =>
      cases hplay
      exact h
  | cons e es ih =>
      rw [Daemon.play] at hplay
      split at hplay
      · rename_i hallowed
        obtain ⟨s₁, hstep, hrest⟩ := Option.bind_eq_some_iff.mp hplay
        exact ih (h.snoc (Event.possible hallowed) hstep) hrest
      · cases hplay

/-- The host opens `sideload:3` and sends three bytes, which the service answers. -/
def upload : List Event :=
  let none : Outside := ⟨[], [], none, none, .register 100⟩
  let packet (p : APacket) : Outside := { none with packet := some p }
  [.ready 5 .read, .call { none with message := .register 7 },
    .ready 7 .read, .call (packet ⟨aCnxn, aVersion, 4096, cstr "host::" ++ [0], by decide⟩),
    .ready 7 .read,
    .call { packet ⟨aOpen, 77, 0, cstr "sideload:3" ++ [0], by decide⟩ with service := some 9 },
    .ready 7 .read,
    .call { packet ⟨aWrte, 77, 1, cstr "abc", by decide⟩ with writes := [.count 0] },
    .ready 9 .write, .call { none with writes := [.count 1] },
    .ready 9 .read, .call { none with reads := [.bytes 79 [75, 65, 89]] }]

theorem exists_upload : ∃ s, Run s ∧ s.written 1 = cstr "abc" ∧ s.readFrom 1 = cstr "OKAY" ∧
    s.traffic 1 = [.opened (cstr "sideload:3"), .okay, .granted, .took (cstr "abc"), .okay,
      .gave (cstr "OKAY")] ∧ (s.heap 1).map ASocket.kind = some .local := by
  have hplay : ((start 5).bind (play upload)).map (fun s => (s.written 1, s.readFrom 1, s.traffic 1,
      (s.heap 1).map ASocket.kind)) =
      some (cstr "abc", cstr "OKAY", [.opened (cstr "sideload:3"), .okay, .granted, .took (cstr "abc"),
        .okay, .gave (cstr "OKAY")], some .local) := by decide +kernel
  obtain ⟨s, hs, hfacts⟩ := Option.map_eq_some_iff.mp hplay
  obtain ⟨s₀, hstart, hrest⟩ := Option.bind_eq_some_iff.mp hs
  refine ⟨s, (Run.start hstart).play hrest, ?_, ?_, ?_, ?_⟩
  · exact congrArg Prod.fst hfacts
  · exact congrArg (fun x => x.2.1) hfacts
  · exact congrArg (fun x => x.2.2.1) hfacts
  · exact congrArg (fun x => x.2.2.2) hfacts

/-- The host greets with the bytes of `banner` alone, with no NUL behind them. -/
def greeting (banner : Bytes) (h : banner.length ≤ maxPayload) : Outside :=
  ⟨[], [], some ⟨aCnxn, aVersion, 4096, banner, h⟩, none, .register 100⟩

theorem hostFits : (cstr "host:").length ≤ maxPayload := by decide

theorem hostProductFits : (cstr "host::").length ≤ maxPayload := by decide

theorem exists_greeted : ∃ s, Run s ∧ s.written 1 = cstr "abc" ∧
    s.step (.call (greeting (cstr "host:") hostFits)) = none ∧
    s.step (.call (greeting (cstr "host::") hostProductFits)) ≠ none ∧
    s.pump.table 9 ≠ none ∧ s.pump.table 100 = none := by
  have hplay : ((start 5).bind (play (upload ++ [.ready 7 .read]))).map (fun s => (s.written 1,
      (s.step (.call (greeting (cstr "host:") hostFits))).isNone,
      (s.step (.call (greeting (cstr "host::") hostProductFits))).isSome,
      (s.pump.table 9).isSome, (s.pump.table 100).isNone)) =
      some (cstr "abc", true, true, true, true) := by decide +kernel
  obtain ⟨s, hs, hfacts⟩ := Option.map_eq_some_iff.mp hplay
  obtain ⟨s₀, hstart, hrest⟩ := Option.bind_eq_some_iff.mp hs
  refine ⟨s, (Run.start hstart).play hrest, congrArg Prod.fst hfacts, ?_, ?_, ?_, ?_⟩
  · exact Option.isNone_iff_eq_none.mp (congrArg (fun x => x.2.1) hfacts)
  · exact Option.isSome_iff_ne_none.mp (congrArg (fun x => x.2.2.1) hfacts)
  · exact Option.isSome_iff_ne_none.mp (congrArg (fun x => x.2.2.2.1) hfacts)
  · exact Option.isNone_iff_eq_none.mp (congrArg (fun x => x.2.2.2.2) hfacts)

/-- What the outside does is possible where it only greets, and the descriptor of its message is
free. -/
theorem greeting_possible {banner : Bytes} (hlen : banner.length ≤ maxPayload)
    (hfree : s.pump.table 100 = none) : s.Possible (.call (greeting banner hlen)) :=
  ⟨by rintro d ⟨⟩, by rintro d ⟨⟩; exact hfree, by rintro t ⟨⟩⟩

theorem inOrder_nil : InOrder [] [] [] where
  wrote := List.nil_prefix
  sentOut := List.nil_prefix
  okay _ _ hsplit := absurd hsplit.symm (List.append_ne_nil_of_right_ne_nil _ (List.cons_ne_nil _ _))
  gave _ _ _ hsplit := absurd hsplit.symm (List.append_ne_nil_of_right_ne_nil _ (List.cons_ne_nil _ _))

theorem start_sound {fd : ℕ} (hstart : start fd = some s) : s.Sound none := by
  have hfree : (Pump.initial (α := Owner)).table fd = none := rfl
  have hfde : ((Pump.initial (α := Owner)).install fd .registration).table fd =
      some ⟨.empty, false, .empty, .registration⟩ := Pump.put_self _ _ _
  obtain ⟨p, fde, hset, htable, -, harg, -⟩ := Pump.exists_set hfde (.only .read)
  rw [start, hset] at hstart
  cases hstart
  have howner : ∀ fd' fde', p.table fd' = some fde' → fde'.arg = .registration := by
    intro fd' fde' hfde'
    rw [htable] at hfde'
    by_cases hfd : fd' = fd
    · rw [hfd, Function.update_self] at hfde'
      cases hfde'
      exact harg
    · rw [Function.update_of_ne hfd,
        show (Pump.initial.install fd Owner.registration).table fd' = _ from Pump.put_of_ne _ _ hfd] at hfde'
      cases hfde'
  refine ⟨⟨⟨?_, ?_, ?_, ?_, List.nodup_nil, List.nodup_nil, ?_, fun _ _ => ⟨rfl, rfl⟩⟩,
    ⟨(Pump.consistent_initial.install hfree _).set hset, ?_, ?_, ?_, ?_⟩⟩,
    ⟨fun _ => inOrder_nil, ?_, ?_, fun _ _ => ⟨rfl, rfl⟩⟩⟩
  · rintro _ _ ⟨⟩
  · exact fun _ hmem => absurd hmem List.not_mem_nil
  · exact fun _ hmem => absurd hmem List.not_mem_nil
  · rintro _ _ ⟨⟩
  · rintro _ _ ⟨⟩
  · rintro _ _ ⟨⟩
  · intro fd' fde' a hfde' harg'
    cases (howner fd' fde' hfde').symm.trans harg'
  · rintro _ _ ⟨⟩
  · intro fd' fde' t hfde' harg'
    cases (howner fd' fde' hfde').symm.trans harg'
  · rintro _ _ ⟨⟩
  · rintro _ _ _ _ _ ⟨⟩

/-- The number of packets of data when each of them had its `OKAY`. -/
theorem tooks_le_okays {es : List Traffic}
    (hrule : ∀ front x rest, es = front ++ .took x :: rest → tooks front < okays front) :
    tooks es ≤ okays es := by
  induction es using List.reverseRecOn with
  | nil => exact Nat.le_refl 0
  | append_singleton es e ih =>
      have hle : tooks es ≤ okays es := by
        refine ih fun front x rest hsplit => hrule front x (rest ++ [e]) ?_
        rw [hsplit, List.append_assoc, List.cons_append]
      rw [tooks_concat, okays_concat]
      cases e with
      | took x =>
          have hlt := hrule es x [] rfl
          show tooks es + 1 ≤ okays es + 0
          omega
      | opened name => exact Nat.add_le_add hle (Nat.le_refl 0)
      | okay => exact Nat.add_le_add hle (Nat.zero_le 1)
      | gave x => exact Nat.add_le_add hle (Nat.le_refl 0)
      | granted => exact Nat.add_le_add hle (Nat.le_refl 0)

/-- The state in which the function of the first pending `fdevent` is called. -/
structure Dispatched (s : Daemon) (fd : ℕ) (fde : Fde Owner) (p : Pump Owner) : Prop where
  sound : ({ s with pump := p } : Daemon).Sound none
  old : s.pump.table fd = some fde
  here : p.table fd = some { fde with events := .empty, pending := false }
  free : ∀ d, s.pump.table d = none → p.table d = none

/-- The first pending `fdevent` is taken out of the list. -/
theorem Sound.dispatch (h : s.Sound none) {fd : ℕ} {rest : List ℕ}
    (hlist : s.pump.pendingList = fd :: rest) (o : Outside) :
    ∃ p fde, s.Dispatched fd fde p ∧
      s.step (.call o) = callback o fde.events fde.arg { s with pump := p } := by
  obtain ⟨p, fde, hdispatch, hfde, -, hconsistent, hself, hother⟩ :=
    h.wellFormed.watched.consistent.dispatch hlist
  have hfree : ∀ d, s.pump.table d = none → p.table d = none := by
    intro d hd
    have hne : d ≠ fd := by
      rintro rfl
      rw [hfde] at hd
      cases hd
    exact (hother d hne).trans hd
  refine ⟨p, fde, ⟨h.pumped hconsistent hfree ?_, hfde, hself, hfree⟩, ?_⟩
  · intro fd' fde' hfde'
    by_cases hfd : fd' = fd
    · subst hfd
      rw [hfde] at hfde'
      cases hfde'
      exact ⟨_, hself, rfl, rfl, fun e he => absurd he Bool.false_ne_true⟩
    · exact ⟨fde', (hother fd' hfd).trans hfde', rfl, rfl, fun e he => .inl he⟩
  · rw [step, if_neg (by rw [hlist]; exact List.cons_ne_nil fd rest), hdispatch]
    rfl

section Dispatched

variable {fd : ℕ} {fde : Fde Owner} {p : Pump Owner} {o : Outside}

theorem Dispatched.registration (e : s.Dispatched fd fde p) (hpossible : s.Possible (.call o)) :
    ∃ s', callback o fde.events .registration { s with pump := p } = some s' ∧ s'.Sound none := by
  obtain ⟨-, hregister, hremove⟩ := hpossible
  rw [callback]
  split
  · cases hmessage : o.message with
    | register d => exact registerTransport_sound e.sound (e.free d (hregister d hmessage))
    | remove t =>
        obtain ⟨tr, ht⟩ := Option.ne_none_iff_exists'.mp (hremove t hmessage)
        exact unregisterTransport_sound e.sound ht
  · exact ⟨_, rfl, e.sound⟩

theorem Dispatched.socket (e : s.Dispatched fd fde p) (h : s.Sound none) {a : Addr}
    (harg : fde.arg = .socket a) :
    ∃ s', callback o fde.events (.socket a) { s with pump := p } = some s' ∧ s'.Sound none := by
  obtain ⟨sk, ha, hkind, rfl⟩ := h.wellFormed.watched.owner fd fde a e.old harg
  obtain ⟨fde₀, hfde₀, hwaits⟩ := h.wellFormed.watched.socket a sk ha hkind
  rw [e.old] at hfde₀
  cases hfde₀
  refine localSocketEvent_sound o.writes o.reads fde.events e.sound ha hkind e.here rfl hwaits.pending ?_
  intro hopen hread
  cases h.wellFormed.linked.placed a sk ha with
  | connected _ _ =>
      obtain ⟨fde₁, hfde₁, hgranted⟩ := h.streams.granted a _ _ _ _ ha
      rw [e.old] at hfde₁
      cases hfde₁
      exact hgranted.pending hread
  | closing _ _ => cases hopen
  | remote _ _ _ => cases hkind

theorem Dispatched.transport (e : s.Dispatched fd fde p) (h : s.Sound none) {t : Addr}
    (harg : fde.arg = .transport t) (hpossible : s.Possible (.call o)) :
    (callback o fde.events (.transport t) { s with pump := p } = none ↔ fde.events .read = true ∧
        ∃ p, o.packet = some p ∧ p.command = aCnxn ∧ ¬ BannerEnds p.data) ∧
      ∀ s', callback o fde.events (.transport t) { s with pump := p } = some s' → s'.Sound none := by
  obtain ⟨-, tr, ht, -⟩ := h.wellFormed.watched.transportOwner fd fde t e.old harg
  have hidle : ∀ P : Prop, ¬ P → (some { s with pump := p } = none ↔ P) ∧
      ∀ s', some ({ s with pump := p } : Daemon) = some s' → s'.Sound none := by
    intro P hP
    refine ⟨iff_of_false (Option.some_ne_none _) hP, ?_⟩
    rintro s' ⟨⟩
    exact e.sound
  rw [callback]
  by_cases hread : fde.events .read = true
  · rw [if_pos hread]
    cases hpacket : o.packet with
    | none => exact hidle _ (by rintro ⟨-, _, ⟨⟩, -⟩)
    | some q =>
        obtain ⟨hnone, hsome⟩ := handlePacket_sound o.service o.writes q e.sound ht
          fun d hd => e.free d (hpossible.1 d hd)
        refine ⟨hnone.trans ⟨fun hbad => ⟨hread, q, rfl, hbad⟩, ?_⟩, hsome⟩
        rintro ⟨-, _, ⟨⟩, hbad⟩
        exact hbad
  · rw [if_neg hread]
    exact hidle _ fun hand => hread hand.1

end Dispatched

/-- A bad banner, where the first pending `fdevent` is known. -/
theorem badBanner_iff {fd : ℕ} {rest : List ℕ} {fde : Fde Owner} (hlist : s.pump.pendingList = fd :: rest)
    (hfde : s.pump.table fd = some fde) (o : Outside) : s.BadBanner (.call o) ↔
      ∃ t, fde.arg = .transport t ∧ fde.events .read = true ∧
        ∃ p, o.packet = some p ∧ p.command = aCnxn ∧ ¬ BannerEnds p.data := by
  constructor
  · rintro ⟨_, p, fd', rest', fde', t, ⟨⟩, hlist', hfde', harg, hread, hbad⟩
    rw [hlist] at hlist'
    cases hlist'
    rw [hfde] at hfde'
    cases hfde'
    exact ⟨t, harg, hread, p, hbad⟩
  · rintro ⟨t, harg, hread, p, hbad⟩
    exact ⟨o, p, fd, rest, fde, t, rfl, hlist, hfde, harg, hread, hbad⟩

/-- The function of the first pending `fdevent`, whatever the `fdevent` is for. -/
theorem call_sound (h : s.Sound none) (o : Outside) (hpossible : s.Possible (.call o)) :
    (s.step (.call o) = none ↔ s.BadBanner (.call o)) ∧
      ∀ s', s.step (.call o) = some s' → s'.Sound none := by
  -- a call that ends well is none with a bad banner
  have hgood : (∃ s', s.step (.call o) = some s' ∧ s'.Sound none) → ¬ s.BadBanner (.call o) →
      (s.step (.call o) = none ↔ s.BadBanner (.call o)) ∧
        ∀ s', s.step (.call o) = some s' → s'.Sound none := by
    rintro ⟨s₂, heq, hsound⟩ hbanner
    rw [heq]
    refine ⟨iff_of_false (Option.some_ne_none s₂) hbanner, ?_⟩
    rintro s' ⟨⟩
    exact hsound
  cases hlist : s.pump.pendingList with
  | nil =>
      refine hgood ⟨s, by rw [step, if_pos hlist], h⟩ ?_
      rintro ⟨_, _, _, _, _, _, -, hcons, -⟩
      rw [hlist] at hcons
      cases hcons
  | cons fd rest =>
      obtain ⟨p, fde, e, hstep⟩ := h.dispatch hlist o
      have hbanner := badBanner_iff hlist e.old o
      have hother : (∀ t, fde.arg ≠ .transport t) → ¬ s.BadBanner (.call o) := by
        intro hne hbad
        obtain ⟨t, harg, -⟩ := hbanner.mp hbad
        exact hne t harg
      cases harg : fde.arg with
      | registration =>
          refine hgood ?_ (hother (by rw [harg]; rintro _ ⟨⟩))
          rw [hstep, harg]
          exact e.registration hpossible
      | socket a =>
          refine hgood ?_ (hother (by rw [harg]; rintro _ ⟨⟩))
          rw [hstep, harg]
          exact e.socket h harg
      | transport t =>
          rw [hstep, harg]
          obtain ⟨hnone, hsome⟩ := e.transport (o := o) h harg hpossible
          refine ⟨hnone.trans ⟨fun hbad => hbanner.mpr ⟨t, harg, hbad⟩, fun hbad => ?_⟩, hsome⟩
          obtain ⟨_, -, hbad⟩ := hbanner.mp hbad
          exact hbad

/-- Every step of a sound state, but for the bad banner, ends in a sound state. -/
theorem step_sound (h : s.Sound none) (hpossible : s.Possible act) :
    (s.step act = none ↔ s.BadBanner act) ∧ ∀ s', s.step act = some s' → s'.Sound none := by
  have hgood : (∃ s', s.step act = some s' ∧ s'.Sound none) → (∀ o, act ≠ .call o) →
      (s.step act = none ↔ s.BadBanner act) ∧ ∀ s', s.step act = some s' → s'.Sound none := by
    rintro ⟨s₁, heq, hsound⟩ hne
    rw [heq]
    refine ⟨iff_of_false (Option.some_ne_none s₁) ?_, ?_⟩
    · rintro ⟨o, _, _, _, _, _, hcall, -⟩
      exact hne o hcall
    · rintro s' ⟨⟩
      exact hsound
  cases act with
  | wait answer => exact hgood (wait_sound h hpossible) (by rintro _ ⟨⟩)
  | call o => exact call_sound h o hpossible
  | closeAll t =>
      obtain ⟨tr, ht⟩ := Option.ne_none_iff_exists'.mp hpossible
      obtain ⟨s₁, _, hclose, hwell, hshrinks, -⟩ := closeAllSockets_spec h.wellFormed ht
      exact hgood ⟨s₁, hclose, hwell, h.streams.shrinks hshrinks⟩ (by rintro _ ⟨⟩)

theorem Run.sound (h : Run s) : s.Sound none := by
  induction h with
  | start hstart => exact start_sound hstart
  | snoc _ hpossible hstep ih => exact (step_sound ih hpossible).2 _ hstep

/-- In every state of the process the sockets, the lists, the transports and the event pump belong
together, and whatever happens next follows no pointer to memory that was freed, unless it is a
banner without an end. -/
theorem Run.step_eq_none_iff (h : Run s) (hpossible : s.Possible act) :
    s.WellFormed none ∧ (s.step act = none ↔ s.BadBanner act) :=
  ⟨h.sound.wellFormed, (step_sound h.sound hpossible).1⟩

/-- Behind an upload, one packet with a banner that does not end, and one with a banner that does.
-/
theorem Run.step_eq_none_iff_upload : ∃ s, Run s ∧ s.written 1 = cstr "abc" ∧
    (s.WellFormed none ∧ s.step (.call (greeting (cstr "host:") hostFits)) = none ∧
      s.BadBanner (.call (greeting (cstr "host:") hostFits))) ∧
    s.step (.call (greeting (cstr "host::") hostProductFits)) ≠ none ∧
      ¬ s.BadBanner (.call (greeting (cstr "host::") hostProductFits)) := by
  obtain ⟨s, h, hwritten, hnone, hsome, -, hfree⟩ := exists_greeted
  obtain ⟨hwell, hbad⟩ := h.step_eq_none_iff (greeting_possible hostFits hfree)
  obtain ⟨-, hgood⟩ := h.step_eq_none_iff (greeting_possible hostProductFits hfree)
  exact ⟨s, h, hwritten, ⟨hwell, hnone, hbad.mp hnone⟩, hsome, fun hbanner => hsome (hgood.mpr hbanner)⟩

/-- The bytes of every connection: what has been written is the first part of what came in, what
went out is the first part of what has been read, and as long as the socket is there the rest is
queued, and nothing that was read is missing while it has a peer. -/
theorem Run.delivered (h : Run s) (a : Addr) :
    s.written a <+: taken (s.traffic a) ∧ given (s.traffic a) <+: s.readFrom a ∧
      ∀ sk, s.heap a = some sk → sk.kind = .local →
        taken (s.traffic a) = s.written a ++ sk.pkts.flatten ∧
        (sk.closing = false → given (s.traffic a) = s.readFrom a) := by
  obtain ⟨hwrote, hsent, -, -⟩ := h.sound.streams.inOrder a
  refine ⟨hwrote, hsent, fun sk ha hkind => ⟨(h.sound.streams.current a sk ha hkind).queued, ?_⟩⟩
  intro hopen
  cases h.sound.wellFormed.linked.placed a sk ha with
  | connected _ _ =>
      obtain ⟨_, -, hgranted⟩ := h.sound.streams.granted a _ _ _ _ ha
      exact hgranted.sentOut
  | closing _ _ => cases hopen
  | remote _ _ _ => cases hkind

theorem Run.delivered_upload : ∃ s, Run s ∧ s.written 1 = cstr "abc" ∧
    s.written 1 <+: taken (s.traffic 1) ∧ given (s.traffic 1) <+: s.readFrom 1 := by
  obtain ⟨s, h, hwritten, -⟩ := exists_upload
  exact ⟨s, h, hwritten, (h.delivered 1).1, (h.delivered 1).2.1⟩

/-- The packets of every connection. An `OKAY` but for the first, which answers the `OPEN`, answers
a packet of data that came in. A packet of data goes out when the other side has asked for one since
the last, with an `OKAY` or, for the first, with the `OPEN` itself. As long as the other side sends
data only when it has an `OKAY` for it, no more than one packet is queued. -/
theorem Run.paced (h : Run s) (a : Addr) :
    (∀ front rest, s.traffic a = front ++ .okay :: rest → okays front ≤ tooks front) ∧
      (∀ front x rest, s.traffic a = front ++ .gave x :: rest → mayGive front = true) ∧
      ((∀ front x rest, s.traffic a = front ++ .took x :: rest → tooks front < okays front) →
        ∀ sk, s.heap a = some sk → sk.kind = .local → sk.pkts.length ≤ 1) := by
  obtain ⟨-, -, hokay, hgave⟩ := h.sound.streams.inOrder a
  refine ⟨hokay, hgave, ?_⟩
  intro hrule sk ha hkind
  have hcurrent := (h.sound.streams.current a sk ha hkind).okay
  have hcount := tooks_le_okays hrule
  omega

theorem Run.paced_upload : ∃ s sk, Run s ∧ s.written 1 = cstr "abc" ∧ s.heap 1 = some sk ∧
    (∀ front rest, s.traffic 1 = front ++ .okay :: rest → okays front ≤ tooks front) ∧
      (∀ front x rest, s.traffic 1 = front ++ .gave x :: rest → mayGive front = true) ∧
      sk.pkts.length ≤ 1 := by
  obtain ⟨s, h, hwritten, -, htraffic, hheap⟩ := exists_upload
  obtain ⟨sk, hsk, hkind⟩ := Option.map_eq_some_iff.mp hheap
  obtain ⟨hokay, hgave, hqueue⟩ := h.paced 1
  refine ⟨s, sk, h, hwritten, hsk, hokay, hgave, hqueue ?_ sk hsk hkind⟩
  intro front x rest hsplit
  rw [htraffic] at hsplit
  -- the one packet of data comes behind the first `OKAY`
  obtain ⟨rfl, -⟩ : front = [.opened (cstr "sideload:3"), .okay, .granted] ∧ x = cstr "abc" ∧
      rest = [.okay, .gave (cstr "OKAY")] := by
    simpa [List.cons_eq_append_iff] using hsplit
  decide

end Run

end Daemon

end OpenRecovery.Sideloader
