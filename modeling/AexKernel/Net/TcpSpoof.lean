import AexKernel.Net.TcpListen

/-! # Which acknowledgement completes a handshake (`packetReceivedListen`)

A listener should spawn a socket only for a peer that acknowledges the initial sequence number of
its SYN-ACK. -/

namespace AexKernel.Net

open Library TcpSocket Option List
open TcpHeader (parse)

def ListenCall.handled : ListenCall → Option PeerSegment
  | .receive seg _ =>
    if hasFlag (TcpHeader.parse seg.buffer).bitvalues tcpRst ∨
        hasFlag (TcpHeader.parse seg.buffer).bitvalues tcpSyn then none
    else some seg
  | .resume seg => some seg
  | .accept => none

namespace Listener

/-- Every socket that a step spawns is one for the sender of a segment that acknowledges the SYN-ACK
for it, whose sequence number is `snd_nxt - 1` of its entry. -/
def Unspoofed (l : Listener) (call : ListenCall) : Prop :=
  ∀ l', l.step call = .ok l' → ∀ child ∈ l'.children.drop l.children.length,
    ∃ seg entry, call.handled = some seg ∧ child.peer = (seg.src, seg.srcPort) ∧
      l.socket.getListenEntry seg.src seg.srcPort = some entry ∧
      hasFlag (TcpHeader.parse seg.buffer).bitvalues tcpAck ∧
      (TcpHeader.parse seg.buffer).ackNumber = entry.block.sndNxt

/-- Where there is room, the acknowledgement of a segment from the peer of a half-open connection is
the right one, or one before it. -/
def NotAhead (l : Listener) (call : ListenCall) : Prop :=
  ∀ seg entry, call.handled = some seg → l.socket.getListenEntry seg.src seg.srcPort = some entry →
    hasFlag (TcpHeader.parse seg.buffer).bitvalues tcpAck → 0 < l.socket.listenBacklog →
    (TcpHeader.parse seg.buffer).ackNumber = entry.block.sndNxt ∨
      isBefore (TcpHeader.parse seg.buffer).ackNumber entry.block.sndNxt

variable {limit : ℤ} {l : Listener} {t : Handshakes}

theorem children_of_step {call : ListenCall} {l' : Listener} (hs : l.step call = .ok l') :
    l'.children = l.children ++ (call.handled.bind fun seg =>
      (l.socket.listenEntry seg.src seg.srcPort seg.buffer).2).toList := by
  cases call with
  | receive seg uptime =>
    simp only [Listener.step] at hs
    rw [ListenCall.handled]
    by_cases hr : hasFlag (parse seg.buffer).bitvalues tcpRst
    · rw [if_pos hr] at hs
      rw [if_pos (.inl hr)]
      cases hs
      exact (append_nil _).symm
    by_cases hy : hasFlag (parse seg.buffer).bitvalues tcpSyn
    · rw [if_neg hr, if_pos hy] at hs
      rw [if_pos (.inr hy)]
      cases hs
      exact (append_nil _).symm
    rw [if_neg hr, if_neg hy] at hs
    rw [if_neg (not_or.mpr ⟨hr, hy⟩)]
    cases hs
    rfl
  | resume seg =>
    cases hs
    rfl
  | accept =>
    cases hs
    exact (append_nil _).symm

theorem Tracks.spawned (h : l.Tracks limit t) (seg : PeerSegment) {entry : TcpListenEntry}
    (he : l.socket.getListenEntry seg.src seg.srcPort = some entry) :
    ∃ child, child.peer = (seg.src, seg.srcPort) ∧
      (l.socket.listenEntry seg.src seg.srcPort seg.buffer).2 =
        if hasFlag (parse seg.buffer).bitvalues tcpAck ∧
            isAfterOrEqual (parse seg.buffer).ackNumber entry.block.sndNxt ∧
            0 < l.socket.listenBacklog then some child
        else none := by
  obtain ⟨queue, hq, ho⟩ := h.queue
  obtain ⟨waiting, hw, -⟩ := h.waiting
  rw [getListenEntry, hq, getD_some] at he
  have hp := find?_some he
  rw [Bool.and_eq_true, beq_iff_eq, beq_iff_eq] at hp
  obtain ⟨mss, queue', -, hl⟩ := listenEntry_of_find? seg hq hw
    (ho.state entry (mem_of_find?_eq_some he)) he
  refine ⟨l.socket.ofListenEntry
    { entry with block := { entry.block with sndMss := mss, state := .established } },
    Prod.ext hp.1 hp.2, ?_⟩
  rw [hl]
  split_ifs <;> rfl

theorem Tracks.unspoofed_iff_notAhead (h : l.Tracks limit t) (call : ListenCall) :
    l.Unspoofed call ↔ l.NotAhead call := by
  constructor
  · intro ho seg entry hh he ha hr
    by_contra hw
    obtain ⟨hn, hb⟩ := not_or.mp hw
    obtain ⟨child, -, hs⟩ := h.spawned seg he
    have hf : isAfterOrEqual (parse seg.buffer).ackNumber entry.block.sndNxt := by
      rw [isAfterOrEqual, Bool.not_eq_true']
      exact Bool.eq_false_iff.mpr hb
    rw [if_pos ⟨ha, hf, hr⟩] at hs
    obtain ⟨l', ht⟩ : ∃ l', l.step call = .ok l' := by
      cases call with
      | receive seg uptime =>
        simp only [Listener.step]
        split_ifs <;> exact ⟨_, rfl⟩
      | resume seg => exact ⟨_, rfl⟩
      | accept => exact ⟨_, rfl⟩
    have hc := children_of_step ht
    rw [hh, bind_some, hs] at hc
    have hm : child ∈ l'.children.drop l.children.length := by
      rw [hc, drop_left]
      exact mem_singleton_self child
    obtain ⟨seg', entry', hh', -, he', -, hk⟩ := ho l' ht child hm
    obtain rfl := Option.some.inj (hh.symm.trans hh')
    obtain rfl := Option.some.inj (he.symm.trans he')
    exact hn hk
  · intro hah l' ht child hch
    rw [children_of_step ht, drop_left] at hch
    obtain ⟨seg, hh, hp⟩ := bind_eq_some_iff.mp (mem_toList.mp hch)
    cases he : l.socket.getListenEntry seg.src seg.srcPort with
    | none =>
      rw [listenEntry, he] at hp
      cases hp
    | some entry =>
      obtain ⟨child', hpe, hs⟩ := h.spawned seg he
      rw [hs] at hp
      split_ifs at hp with hco
      cases hp
      obtain ⟨ha, hf, hr⟩ := hco
      rw [isAfterOrEqual, Bool.not_eq_true'] at hf
      have hi := (hah seg entry hh he ha hr).resolve_right (Bool.eq_false_iff.mp hf)
      exact ⟨seg, entry, hh, hpe, he, ha, hi⟩

/-- **Which acknowledgements spawn sockets.** In every state of a run of a listener, a step spawns
sockets for the right acknowledgement only, exactly when the acknowledgement of the segment it
handles is not ahead of the right one. -/
theorem unspoofed_iff {s socket : TcpSocket} {backlog : ℤ} (hlisten : s.listen backlog = .ok socket)
    {l : Listener} {t : Handshakes}
    (hrun : Reach (alongside step (Handshakes.step (max (min backlog 128) 0))) Allowed
      ({ socket := socket }, {}) (l, t)) (call : ListenCall) :
    l.Unspoofed call ↔ l.NotAhead call := by
  have h : l.Tracks (max (min backlog 128) 0) t := by
    refine hrun.alongside (R := Tracks (max (min backlog 128) 0)) (.listen hlisten) ?_
    intro l t call l' h _ hst
    exact h.step hst
  exact h.unspoofed_iff_notAhead call

theorem exists_halfOpen : ∃ socket, (listen { deviceAddress := 0x0A000002, sourcePort := 80 } 1 =
    .ok socket) ∧ ∃ state, execute (alongside step (Handshakes.step 1)) Allowed ({ socket := socket }, {})
      [.receive (segmentFrom 1 tcpSyn 0) 0, .resume (segmentFrom 1 tcpSyn 0)] = some state ∧
      state.1.children = [] ∧
      (state.1.socket.getListenEntry 0x0A000001 1).map (·.block.sndNxt) = some 2138 ∧
      ∀ l' ∈ (state.1.step (.receive (segmentFrom 1 tcpAck 3138) 0)).toOption,
        l'.children.map peer = [(0x0A000001, 1)] := by
  refine ⟨_, rfl, ?_⟩
  show ∃ state ∈ execute _ _ _ _, _
  decide

theorem unspoofed_iff_right : ∃ l : Listener,
    (l.socket.getListenEntry 0x0A000001 1).map (·.block.sndNxt) = some 2138 ∧
      l.Unspoofed (.receive (segmentFrom 1 tcpAck 2138) 0) := by
  obtain ⟨socket, hli, state, hst, -, hen, -⟩ := exists_halfOpen
  refine ⟨state.1, hen, (unspoofed_iff hli (Reach.refl.execute hst) _).mpr ?_⟩
  intro seg entry hha hfo _ _
  obtain rfl : segmentFrom 1 tcpAck 2138 = seg := Option.some.inj ((by decide : some _ = _).trans hha)
  rw [show state.1.socket.getListenEntry 0x0A000001 1 = some entry from hfo] at hen
  exact .inl ((by decide : _ = (2138 : BitVec 32)).trans (Option.some.inj hen).symm)

theorem not_unspoofed_ahead : ∃ (socket : TcpSocket) (l : Listener) (t : Handshakes) (l' : Listener),
    TcpSocket.listen { deviceAddress := 0x0A000002, sourcePort := 80 } 1 = .ok socket ∧
      Reach (alongside step (Handshakes.step 1)) Allowed ({ socket := socket }, {}) (l, t) ∧
      (l.socket.getListenEntry 0x0A000001 1).map (·.block.sndNxt) = some 2138 ∧
      l.step (.receive (segmentFrom 1 tcpAck 3138) 0) = .ok l' ∧
      l'.children.map TcpSocket.peer = [(0x0A000001, 1)] ∧
      ¬ l.Unspoofed (.receive (segmentFrom 1 tcpAck 3138) 0) := by
  obtain ⟨socket, hli, state, hst, hnon, hen, hsp⟩ := exists_halfOpen
  obtain ⟨l', hste⟩ : ∃ l', state.1.step (.receive (segmentFrom 1 tcpAck 3138) 0) = .ok l' :=
    ⟨_, rfl⟩
  have hpe := hsp l' (toOption_eq_some.mpr hste)
  refine ⟨socket, state.1, state.2, l', hli, Reach.refl.execute hst, hen, hste, hpe, ?_⟩
  intro hun
  obtain ⟨child, hch, -⟩ : ∃ child ∈ l'.children, child.peer = (0x0A000001, 1) :=
    List.mem_map.mp (hpe ▸ mem_singleton_self _)
  obtain ⟨seg, entry, hha, -, hfo, -, hack⟩ := hun l' hste child (by
    rw [hnon]
    exact hch)
  obtain rfl : segmentFrom 1 tcpAck 3138 = seg := Option.some.inj ((by decide : some _ = _).trans hha)
  rw [show state.1.socket.getListenEntry 0x0A000001 1 = some entry from hfo] at hen
  have hri := hack.trans (Option.some.inj hen)
  exact absurd hri (by decide)

end Listener

end AexKernel.Net
