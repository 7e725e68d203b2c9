import AexKernel.Net.TcpIntegrity

/-! # Flow control

The right edge of the window that an end has been offered is `Endpoint.offered`, the largest
acknowledgement plus window that it has received. -/

namespace AexKernel.Net

open Library Mem List Endpoint CircularBuffer
open TcpSocket (Acknowledged initialSeq sendToPass)
open BitVec (ofNat)

/-- The data ends at or before the right edge of the window that the peer has offered. -/
def Endpoint.Bounded (e : Endpoint) (seq : BitVec 32) (data : List (BitVec 8)) : Prop :=
  data ≠ [] → (seq - e.firstSeq).toNat + data.length ≤ e.offered

/-- The reset branch of `packetReceived`. -/
def TcpSocket.Overflows (s : TcpSocket) (p : Packet) : Prop :=
  p.payload ≠ [] ∧ p.header.seqNumber = s.block.rcvNxt ∧
    s.rxBuffer.writeAvailable < p.payload.length

/-- What one end has sent keeps to the window, and it has room for what the other end sends. -/
structure Endpoint.FlowControlled (e : Endpoint) (sent arriving : List Packet) : Prop where
  sent : ∀ p ∈ sent, e.Bounded p.header.seqNumber p.payload
  room : e.socket.block.state = .established → ∀ p ∈ arriving, ¬ e.socket.Overflows p

/-! ## One end -/

/-- What one end keeps true of its send window. -/
structure FlowOk (e : Endpoint) : Prop where
  sndWnd_lt : e.socket.block.sndWnd < 65536
  window : e.socket.block.state ≠ .closed →
    (e.socket.block.sndNxt - e.firstSeq).toNat + e.socket.block.sndWnd ≤ e.offered
  queue : ∀ seg ∈ e.socket.retransmissionQueue, e.Bounded seg.seq seg.body

/-- What a step of one end gives to the proof about both. -/
structure FlowStepped (limit : ℕ) (e e' : Endpoint) (sent : List Packet) : Prop where
  ok : FlowOk e'
  sent : ∀ p ∈ sent, e'.Bounded p.header.seqNumber p.payload
  firstSeq : e'.firstSeq = e.firstSeq
  offered : e.offered ≤ e'.offered
  limit : e'.offered ≤ limit

theorem Endpoint.le_edge (e : Endpoint) : 8191 ≤ e.edge := by
  rw [edge]
  omega

variable {e e' peer : Endpoint}

theorem Endpoint.edge_of_nil (hl : e.socket.rxLog = []) (hr : e.read = []) : e.edge = 8191 := by
  rw [edge, hl, hr, length_nil, Nat.zero_add]
  exact max_eq_right (Nat.zero_le _)

variable {seq base base' : BitVec 32}

theorem Endpoint.Bounded.mono {data : List (BitVec 8)} (h : e.Bounded seq data)
    (hf : e'.firstSeq = e.firstSeq) (ho : e.offered ≤ e'.offered) :
    e'.Bounded seq data := fun hne => by
  rw [hf]
  exact (h hne).trans ho

variable {u a s t : TcpSocket}

theorem Endpoint.Bounded.sendSegment {seg : Segment} (hw : seg.WellFormed)
    (h : e.Bounded seg.seq seg.body) :
    e.Bounded (u.sendSegment seg).header.seqNumber (u.sendSegment seg).payload := by
  rw [TcpSocket.sendSegment, TcpSocket.seqNumber_sendSegmentTo u hw,
    TcpSocket.payload_sendSegmentTo u hw]
  exact h

theorem bounded_control (u : TcpSocket) (seq ack : BitVec 32) (flags : ℕ) (hlt : flags < 4096) :
    e.Bounded (u.sendSegment { seq := seq, ack := ack, flags := flags, headerLen := 20 }).header.seqNumber
      (u.sendSegment { seq := seq, ack := ack, flags := flags, headerLen := 20 }).payload :=
  Endpoint.Bounded.sendSegment ⟨Or.inl rfl, hlt⟩ fun hne => absurd rfl hne

section Steps

variable {limit : ℕ} (he : FlowOk e) (hli : e.offered ≤ limit)
include he

theorem FlowOk.reset : FlowOk { e with socket := e.socket.reset.1 } :=
  ⟨he.sndWnd_lt, fun h => absurd rfl h, forall_mem_nil _⟩

theorem FlowOk.afterSegment (hop : e.socket.block.state ≠ .closed) (now : ℕ) :
    FlowOk { e with socket := e.socket.afterSegment now } ∧
      e.Bounded (e.socket.nextSegment now).seq (e.socket.nextSegment now).body := by
  have hi := e.socket.segmentSize_le_sndWnd
  have hw := he.window hop
  have hlt := he.sndWnd_lt
  have hs : e.Bounded (e.socket.nextSegment now).seq (e.socket.nextSegment now).body := by
    intro _
    have hl : (e.socket.nextSegment now).body.length ≤ e.socket.segmentSize := by
      change (e.socket.nextSegment now).data.length ≤ _
      rw [e.socket.data_nextSegment, length_take]
      exact min_le_left _ _
    change (e.socket.block.sndNxt - e.firstSeq).toNat + _ ≤ _
    omega
  have hn := TcpSocket.sndWnd_afterSegment he.sndWnd_lt now
  refine ⟨⟨?_, fun _ => ?_, ?_⟩, hs⟩
  · dsimp only
    omega
  · change (e.socket.block.sndNxt + ofNat 32 e.socket.segmentSize - e.firstSeq).toNat +
      (e.socket.afterSegment now).block.sndWnd ≤ e.offered
    bv_omega
  intro seg hs'
  rcases mem_append.mp hs' with hm | hm
  · exact he.queue seg hm
  rw [mem_singleton.mp hm]
  exact hs

include hli

variable {sent : List Packet}

theorem flowStepped_self : FlowStepped limit e e [] :=
  ⟨he, forall_mem_nil _, rfl, le_rfl, hli⟩

theorem flowStepped_connectEnd : FlowStepped limit e e.connectEnd.1 e.connectEnd.2 := by
  rw [connectEnd, TcpSocket.connectEnd]
  split
  iterate 4 exact flowStepped_self he hli
  refine ⟨he.reset, fun p hp => ?_, rfl, le_rfl, hli⟩
  rw [TcpSocket.mem_resetRst hp]
  exact bounded_control _ _ _ tcpRst (by decide)

theorem flowStepped_receivePass : FlowStepped limit e e.receivePass.1 e.receivePass.2 := by
  rw [receivePass]
  split
  · exact flowStepped_self he hli
  rw [TcpSocket.receiveFromPass]
  dsimp only
  split_ifs <;> refine ⟨⟨he.sndWnd_lt, he.window, he.queue⟩, ?_, rfl, le_rfl, hli⟩
  iterate 3 exact forall_mem_nil _
  · intro p hp
    rw [mem_singleton.mp hp]
    exact bounded_control _ _ _ tcpAck (by decide)
  · exact forall_mem_nil _

section

variable (hok : EndpointOk base base' e)
include hok

theorem flowStepped_tick {now : ℕ} (h : e.tick now = .ok (e', sent)) :
    FlowStepped limit e e' sent := by
  obtain ⟨⟨t, more⟩, ho, h⟩ := bind_eq_ok.mp h
  obtain ⟨rfl, rfl⟩ := Prod.mk.inj (Except.ok.inj h)
  have ht : FlowOk { e with socket := t } ∧
      ∀ p ∈ more, e.Bounded p.header.seqNumber p.payload := by
    refine TcpSocket.tick_invariant
      (P := fun u => Ticking base base' e u ∧ FlowOk { e with socket := u })
      (R := fun u => FlowOk { e with socket := u }) ?_ ?_ ?_ ?_ ?_ (fun _ => he)
      (fun hop => ⟨⟨⟨hok, ⟨rfl, rfl⟩, rfl, Or.inl rfl⟩, hop⟩, he⟩) ho
    · rintro u ⟨hu, hflow⟩ hv -
      obtain ⟨hne, hs⟩ := hflow.afterSegment hu.opened now
      exact ⟨⟨hu.afterSegment hv now, hne⟩,
        .sendSegment (hu.nextSegment hv now).wellFormed hs⟩
    · rintro u ⟨hu, hflow⟩ hc
      exact ⟨⟨hu.acked (hu.established_of_compAck hc), hflow.1, hflow.2, hflow.3⟩,
        bounded_control _ _ _ tcpAck (by decide)⟩
    · rintro u ⟨hu, hflow⟩ seg hs seg' hr
      refine .sendSegment ((hu.ok.queue seg hs).resent hr).wellFormed ?_
      obtain ⟨retries, retransmitAt, rfl⟩ := hr
      exact hflow.queue seg hs
    · rintro u ⟨hu, hflow⟩ queue ha
      refine ⟨hflow.sndWnd_lt, hflow.window, fun seg hs => ?_⟩
      obtain ⟨seg₀, hse₀, retries, retransmitAt, rfl⟩ := TcpSocket.exists_resent ha hs
      exact hflow.queue seg₀ hse₀
    · rintro u ⟨hu, hflow⟩
      exact ⟨hflow.reset, bounded_control _ _ _ tcpRst (by decide)⟩
  exact ⟨ht.1, ht.2, rfl, le_rfl, hli⟩

theorem flowStepped_act {a : LocalAction} (h : e.act a = .ok (e', sent)) :
    FlowStepped limit e e' sent := by
  cases a with
  | sendTo data dstAddr =>
    cases h
    rw [sendTo]
    split
    · split
      · exact flowStepped_self he hli
      · exact ⟨⟨he.sndWnd_lt, he.window, he.queue⟩, forall_mem_nil _, rfl, le_rfl, hli⟩
    · exact flowStepped_self he hli
  | sendPass =>
    cases h
    rw [sendPass]
    split
    · exact flowStepped_self he hli
    rw [sendToPass]
    split_ifs
    all_goals
      exact ⟨⟨he.sndWnd_lt, he.window, he.queue⟩, forall_mem_nil _, rfl, le_rfl, hli⟩
  | receiveFrom len waitAll srcAddr =>
    cases h
    rw [receiveFrom]
    split
    · exact ⟨⟨he.sndWnd_lt, he.window, he.queue⟩, forall_mem_nil _, rfl, le_rfl, hli⟩
    · exact flowStepped_self he hli
  | receivePass =>
    have hq : e.receivePass = (e', sent) := Except.ok.inj h
    have hs := flowStepped_receivePass he hli
    rw [hq] at hs
    exact hs
  | tick uptime => exact flowStepped_tick he hli hok h

end

end Steps

/-! ## Segments -/

/-- A segment whose acknowledgement does not let an established end send too much. -/
def TcpSocket.Conservative (s : TcpSocket) (h : TcpHeader) : Prop :=
  s.block.state = .established → hasFlag h.bitvalues tcpAck →
    isAfterOrEqual h.ackNumber s.block.sndUna →
    h.ackNumber = s.block.sndNxt ∨ h.window ≤ s.block.sndWnd
deriving Decidable

theorem Endpoint.le_offeredAfter (e : Endpoint) (src : IPv4Addr) (port : BitVec 16)
    (h : TcpHeader) : e.offered ≤ e.offeredAfter src port h := by
  rw [offeredAfter]
  split_ifs
  · exact le_max_left _ _
  · exact le_rfl

theorem Endpoint.offeredAfter_of_ack {src : IPv4Addr} {port : BitVec 16} {h : TcpHeader}
    (ha : hasFlag h.bitvalues tcpAck) (hop : e.socket.block.state ≠ .closed)
    (hpeer : src = e.socket.destinationAddress ∨ port = e.socket.destinationPort) :
    (h.ackNumber - e.firstSeq).toNat + h.window ≤ e.offeredAfter src port h := by
  rw [offeredAfter, if_pos ⟨ha, hop, hpeer⟩]
  exact le_max_right _ _

theorem Endpoint.offeredAfter_le {p : Packet} (hf : e.firstSeq = base)
    (hp : PacketOk base' base peer p) (hlt : peer.socket.rxLog.length < 2 ^ 31)
    (hli : e.offered ≤ peer.edge) :
    e.offeredAfter p.src p.header.sourcePort p.header ≤ peer.edge := by
  rw [offeredAfter]
  split_ifs with h
  · obtain ⟨j, hj, hq, hd⟩ := hp.ack h.1
    rw [hq, hf, toNat_add_ofNat_sub (by omega)]
    exact max_le hli hd
  · exact hli

section Segments

variable {p : Packet} (he : FlowOk e)
include he

theorem FlowOk.acknowledged {h : TcpHeader} {offered : ℕ}
    (hes : e.socket.block.state = .established) (ha : Acknowledged e.socket h a)
    (hc : e.socket.Conservative h) (hlt : h.window < 65536) (hle : e.offered ≤ offered)
    (hm : hasFlag h.bitvalues tcpAck → (h.ackNumber - e.firstSeq).toNat + h.window ≤ offered) :
    FlowOk { e with socket := a, offered := offered } := by
  have hw := he.window (by rw [hes]; exact TcpState.noConfusion)
  obtain ⟨⟨mss, una, wnd, queue, rfl⟩, hu, hn⟩ := ha
  refine ⟨?_, fun _ => ?_, fun seg hse => (he.queue seg (hu.subset hse)).mono rfl hle⟩
  · rcases hn with hsa | ⟨-, -, hs⟩
    · exact hsa ▸ he.sndWnd_lt
    · exact hs ▸ hlt
  dsimp only at hn ⊢
  rcases hn with hsa | ⟨hf, haf, hs⟩
  · rw [hsa]
    exact hw.trans hle
  rw [hs]
  rcases hc hes hf haf with hl | hsm
  · exact hl ▸ hm hf
  · omega

variable (hok : EndpointOk base base' e) (hp : PacketOk base' base peer p)
  (hlt : peer.socket.rxLog.length < 2 ^ 31) (hli : e.offered ≤ peer.edge)
  (hpeer : p.src = e.socket.destinationAddress ∨ p.header.sourcePort = e.socket.destinationPort)
include hok hp hlt hli hpeer

theorem flowStepped_packetReceivedOpen (hs : e.socket.block.state = .established)
    (hc : e.socket.Conservative p.header) :
    FlowStepped peer.edge e
      { e with
        socket := (e.socket.packetReceivedOpen p.buffer).1
        offered := e.offeredAfter p.src p.header.sourcePort p.header }
      (e.socket.packetReceivedOpen p.buffer).2 := by
  have hop : e.socket.block.state ≠ .closed := by
    rw [hs]
    exact TcpState.noConfusion
  have hl := e.le_offeredAfter p.src p.header.sourcePort p.header
  have hl' := offeredAfter_le hok.firstSeq hp hlt hli
  have hflow (a : TcpSocket) (ha : Acknowledged e.socket p.header a) :
      FlowOk { e with
        socket := a, offered := e.offeredAfter p.src p.header.sourcePort p.header } :=
    he.acknowledged hs ha hc (TcpSocket.window_parse_lt p.buffer) hl
      fun hf => offeredAfter_of_ack hf hop hpeer
  have hr := TcpSocket.received_of_established hs
    (fun seg hse => (hok.queue seg hse).fin) p.buffer hp.fin
  generalize e.socket.packetReceivedOpen p.buffer = r at hr ⊢
  cases hr with
  | reset ha ht =>
    refine ⟨(hflow _ ha).reset, fun q hq => ?_, rfl, hl, hl'⟩
    rw [ht q hq]
    exact bounded_control _ _ _ tcpRst (by decide)
  | nothing ha => exact ⟨hflow _ ha, forall_mem_nil _, rfl, hl, hl'⟩
  | again ha hd hold =>
    refine ⟨hflow _ ha, fun q hq => ?_, rfl, hl, hl'⟩
    rw [mem_singleton.mp hq]
    exact bounded_control _ _ _ tcpAck (by decide)
  | taken ha hd hne hroom =>
    obtain ⟨hn, hw, hu⟩ := hflow _ ha
    exact ⟨⟨hn, hw, hu⟩, forall_mem_nil _, rfl, hl, hl'⟩

theorem flowStepped_synAck (hs : e.socket.block.state = .synSent) (ha : SynAck base base' p) :
    FlowStepped peer.edge e
      { e with
        socket := (e.socket.packetReceivedOpen p.buffer).1
        offered := e.offeredAfter p.src p.header.sourcePort p.header }
      (e.socket.packetReceivedOpen p.buffer).2 := by
  have hop : e.socket.block.state ≠ .closed := by
    rw [hs]
    exact TcpState.noConfusion
  have hl := e.le_offeredAfter p.src p.header.sourcePort p.header
  have hn := hok.sndNxt_of_synSent hs
  obtain ⟨-, -, -, seg, hu, hf, hi⟩ := hok.synSent hs
  obtain ⟨mss, una, wnd, heq, hw⟩ := TcpSocket.packetReceivedOpen_synAck hs hu hf hi
    p.buffer ha.rst ha.syn ha.ack ha.fin (ha.ackNumber.trans hn.symm)
    ha.payload
  rw [heq]
  refine ⟨⟨?_, fun _ => ?_, forall_mem_nil _⟩, fun q hq => ?_, rfl, hl,
    offeredAfter_le hok.firstSeq hp hlt hli⟩
  · rcases hw with rfl | rfl
    · exact he.sndWnd_lt
    · exact TcpSocket.window_parse_lt p.buffer
  · rcases hw with rfl | rfl
    · exact (he.window hop).trans hl
    rw [hn, ← ha.ackNumber]
    exact offeredAfter_of_ack ha.ack hop hpeer
  · rw [mem_singleton.mp hq]
    exact bounded_control _ _ _ tcpAck (by decide)

end Segments

theorem EndpointOk.not_overflows {p : Packet} (he : EndpointOk base base' e)
    (hs : e.socket.block.state = .established) (hlt : e.socket.rxLog.length < 2 ^ 31)
    (hf : peer.firstSeq = base') (hp : peer.Bounded p.header.seqNumber p.payload)
    (hd : peer.offered ≤ e.edge) : ¬ e.socket.Overflows p := by
  rintro ⟨hne, hn, hu⟩
  have hb := hp hne
  rw [hn, he.rcvNxt (Or.inl hs), hf, toNat_add_ofNat_sub hlt] at hb
  have hl := congrArg length he.log
  rw [length_append, length_contents] at hl
  rw [writeAvailable_eq, he.rxSize, tcpRxBufferSize] at hu
  rw [edge] at hd
  omega

/-! ## Both ends -/

namespace Connection

def arriving (c : Connection) : Side → List Packet
  | .client => c.toClient
  | .server => c.toServer

/-- The steps of a single connection in which every segment that arrives is conservative. -/
def Conservative (c : Connection) (a : ConnectionAction) : Prop :=
  Single c a ∧ match a with
  | .deliver side index _ =>
    ∀ p ∈ (c.arriving side)[index]?, ∀ e ∈ c.endpoint side, e.socket.Conservative p.header
  | _ => True

instance (c : Connection) : (a : ConnectionAction) → Decidable (Conservative c a)
  | .deliver side index uptime => inferInstanceAs (Decidable (Single c (.deliver side index uptime) ∧
      ∀ p ∈ (c.arriving side)[index]?, ∀ e ∈ c.endpoint side, e.socket.Conservative p.header))
  | .act side a => inferInstanceAs (Decidable (Single c (.act side a) ∧ True))
  | .connectEnd => inferInstanceAs (Decidable (Single c .connectEnd ∧ True))

def FlowControlled (c : Connection) : Prop :=
  c.client.FlowControlled c.toServer c.toClient ∧
    ∀ e, c.accepted = some e → e.FlowControlled c.toClient c.toServer

/-- What both ends keep true of their send windows. -/
structure Flow (c : Connection) : Prop where
  client : FlowOk c.client
  toServer : ∀ p ∈ c.toServer, c.client.Bounded p.header.seqNumber p.payload
  offered : c.client.offered ≤ c.server.edge
  accepted : ∀ e, c.accepted = some e → FlowOk e ∧
    (∀ p ∈ c.toClient, e.Bounded p.header.seqNumber p.payload) ∧ e.offered ≤ c.client.edge

section Steps

variable {c : Connection} (h : Inv base base' c) (hflow : Flow c)
include hflow

variable {sent : List Packet}

theorem Flow.setClient (hs : FlowStepped c.server.edge c.client e sent) (hg : c.client.Grows e) :
    Flow { c with client := e, toServer := c.toServer ++ sent } where
  client := hs.ok
  toServer := forall_mem_append.mpr
    ⟨fun p hp => (hflow.toServer p hp).mono hs.firstSeq hs.offered, hs.sent⟩
  offered := hs.limit
  accepted := fun peer ha =>
    ⟨(hflow.accepted peer ha).1, (hflow.accepted peer ha).2.1,
      (hflow.accepted peer ha).2.2.trans hg.edge⟩

theorem Flow.setAccepted (ha : c.accepted = some e) (hs : FlowStepped c.client.edge e e' sent)
    (hg : e.Grows e') : Flow { c with accepted := some e', toClient := c.toClient ++ sent } where
  client := hflow.client
  toServer := hflow.toServer
  offered := by
    have ho := hflow.offered
    rw [server, ha] at ho
    exact ho.trans hg.edge
  accepted := fun x hx => by
    cases hx
    refine ⟨hs.ok, forall_mem_append.mpr ⟨fun p hp => ?_, hs.sent⟩, hs.limit⟩
    exact ((hflow.accepted e ha).2.1 p hp).mono hs.firstSeq hs.offered

include h

variable {p : Packet}

theorem Flow.deliverClient (hp : p ∈ c.toClient) (now : ℕ)
    (hc : c.client.socket.Conservative p.header) : Flow (c.deliverClient p now) := by
  rw [Connection.deliverClient]
  rcases packetReceived_cases h.client.not_listen p.src p.header.sourcePort p.buffer now
    with hsa | ⟨hop, hpeer, hq⟩
  · rw [hsa]
    exact hflow.setClient (flowStepped_self hflow.client hflow.offered) (.refl _)
  have hok := h.packetOk hp
  have hlt := h.server_rxLog_lt
  rw [hq]
  rcases h.client.state with hs | hes | hl
  · have ha := (h.handshake (h.synSent hs).1).answers p hp
    refine hflow.setClient (flowStepped_synAck hflow.client h.client hok hlt hflow.offered hpeer
      hs ha) ?_
    exact ((stepped_synAck h.client hs ha).1.setOffered _).grows
  · refine hflow.setClient (flowStepped_packetReceivedOpen hflow.client h.client hok hlt
      hflow.offered hpeer hes hc) ?_
    exact ((stepped_packetReceivedOpen h.client hes hok h.server_passed_lt
      h.returned).1.setOffered _).grows
  · exact absurd hl hop

theorem Flow.deliverAccepted (hc : c.accepted = some e) (hp : p ∈ c.toServer) (now : ℕ)
    (ho : e.socket.Conservative p.header) :
    Flow { c with
      accepted := some (e.packetReceived p.src p.header.sourcePort p.buffer now).1
      toClient :=
        c.toClient ++ (e.packetReceived p.src p.header.sourcePort p.buffer now).2.1 } := by
  have ha := h.accepted e hc
  obtain ⟨hok, -, hli⟩ := hflow.accepted e hc
  rcases packetReceived_cases ha.ok.not_listen p.src p.header.sourcePort p.buffer
    now with hsa | ⟨hop, hpeer, hq⟩
  · rw [hsa]
    exact hflow.setAccepted hc (flowStepped_self hok hli) (.refl _)
  have hs : e.socket.block.state = .established :=
    (ha.ok.state.resolve_left ha.state).resolve_right hop
  have hlt : c.client.socket.rxLog.length < 2 ^ 31 :=
    ha.returned.length_le.trans_lt ha.ok.passed_lt
  have hse := (h.toServer p hp).toPacketOk
  rw [hq]
  refine hflow.setAccepted hc (flowStepped_packetReceivedOpen hok ha.ok hse hlt hli
    hpeer hs ho) ?_
  exact ((stepped_packetReceivedOpen ha.ok hs hse h.client.passed_lt
    ha.received).1.setOffered _).grows

omit hflow in
theorem Inv.bounded_answers (hp : p ∈ c.toServer) (now : ℕ) (e : Endpoint) :
    ∀ q ∈ (c.listener.packetReceived p.src p.header.sourcePort p.buffer now).2.1,
      e.Bounded q.header.seqNumber q.payload := fun q hq => by
  obtain ⟨entry, hn, rfl⟩ := (h.listened hp now).answers q hq
  exact fun hne =>
    absurd (synAck_sendSegmentTo h.listener.rxBuffer hn.rcvNxt _ _).payload hne

omit hflow in
theorem Inv.flowOk_accept (hc : c.accepted = none) (hp : p ∈ c.toServer)
    (now : ℕ) (ch : TcpSocket)
    (hh : (c.listener.packetReceived p.src p.header.sourcePort p.buffer now).2.2 = some ch) :
    FlowOk (accept ch p) ∧ (accept ch p).offered ≤ c.client.edge ∧
      (accept ch p).edge = 8191 := by
  obtain ⟨first, h, hli⟩ := h.listened_handshake hc hp now
  obtain ⟨hf, entry, ⟨hha, hi, hn⟩, rfl⟩ := hli.spawned ch hh
  obtain ⟨j, hj, ha, hd⟩ := (h.toServer p hp).ack hf
  have hl := (h.handshake hc).rxLog
  have hw := (h.toServer p hp).window hl
  rw [hl, length_nil] at hj
  rw [Nat.le_zero.mp hj] at ha hd
  refine ⟨⟨?_, fun _ => ?_, forall_mem_nil _⟩, ?_, edge_of_nil rfl rfl⟩
  · exact hn.trans_lt (by decide)
  · change (entry.block.sndNxt - entry.block.sndNxt).toNat + entry.block.sndWnd ≤
      (p.header.ackNumber - entry.block.sndNxt).toNat + p.header.window
    rw [hn, hw]
    bv_omega
  change (p.header.ackNumber - entry.block.sndNxt).toNat + p.header.window ≤ _
  rw [ha, hi]
  refine le_trans (Nat.le_of_eq ?_) hd
  bv_omega

theorem Flow.deliverListener (hp : p ∈ c.toServer) (now : ℕ) :
    Flow (c.deliverListener p now) := by
  have hb := h.bounded_answers hp now
  cases hc : c.accepted with
  | none =>
    have ho : c.client.offered ≤ 8191 := by
      have ho := hflow.offered
      rw [server, hc, Option.getD_none, edge_of_nil h.listener.rxLog rfl] at ho
      exact ho
    have ha := h.flowOk_accept hc hp now
    have hn := (h.handshake hc).answers
    rw [Connection.deliverListener, hc]
    generalize c.listener.packetReceived p.src p.header.sourcePort p.buffer now = r
      at hb ha ⊢
    obtain ⟨listener, sent, spawned⟩ := r
    cases spawned with
    | none =>
      refine ⟨hflow.client, hflow.toServer, ho.trans (le_edge _), fun e he => ?_⟩
      exact absurd he (Option.some_ne_none e).symm
    | some child =>
      obtain ⟨hh, hli, hd⟩ := ha child rfl
      refine ⟨hflow.client, hflow.toServer, ho.trans hd.ge, fun e he => ?_⟩
      cases he
      refine ⟨hh, forall_mem_append.mpr ⟨fun q hq hne => ?_, hb _⟩, hli⟩
      exact absurd (hn q hq).payload hne
  | some e =>
    have ho := hflow.offered
    rw [server, hc] at ho
    rw [Connection.deliverListener, hc]
    refine ⟨hflow.client, hflow.toServer, ho, fun x hx => ?_⟩
    cases hx
    obtain ⟨hok, hl, hli⟩ := hflow.accepted e hc
    exact ⟨hok, forall_mem_append.mpr ⟨hl, hb e⟩, hli⟩

theorem Flow.step {a : ConnectionAction} {c' : Connection} (ho : Conservative c a)
    (hs : c.step a = .ok c') : Flow c' := by
  obtain ⟨hi, ho⟩ := ho
  cases a with
  | act side a =>
    cases side with
    | client =>
      obtain ⟨⟨e, sent⟩, ha, hc'⟩ := bind_eq_ok.mp hs
      cases hc'
      refine hflow.setClient (flowStepped_act hflow.client hflow.offered h.client ha) ?_
      refine (stepped_act h.client h.returned ha ?_).1.grows
      rintro data dstAddr rfl
      exact hi c.client rfl
    | server =>
      rw [Connection.step] at hs
      cases hac : c.accepted with
      | none =>
        rw [hac] at hs
        cases hs
        exact hflow
      | some e =>
        rw [hac] at hs
        obtain ⟨⟨e', sent⟩, ha, hc'⟩ := bind_eq_ok.mp hs
        cases hc'
        have hc := h.accepted e hac
        obtain ⟨hok, -, hli⟩ := hflow.accepted e hac
        refine hflow.setAccepted hac (flowStepped_act hok hli hc.ok ha) ?_
        refine (stepped_act hc.ok hc.received ha ?_).1.grows
        rintro data dstAddr rfl
        exact hi e hac
  | connectEnd =>
    cases hs
    exact hflow.setClient (flowStepped_connectEnd hflow.client hflow.offered)
      (stepped_connectEnd h.client h.returned).1.grows
  | deliver side index uptime =>
    cases side
    all_goals
      rw [Connection.step] at hs
      split at hs
      · cases hs
        exact hflow
      rename_i p hp
      cases hs
      have hm := mem_of_getElem? hp
    · exact hflow.deliverClient h hm uptime (ho p hp c.client rfl)
    · rw [deliverServer]
      split
      · exact hflow.deliverListener h hm uptime
      next e hac =>
      split_ifs
      · exact hflow.deliverListener h hm uptime
      · exact hflow.deliverAccepted h hac hm uptime (ho p hp e hac)

theorem Flow.controlled : FlowControlled c := by
  refine ⟨⟨hflow.toServer, fun hs p hp => ?_⟩, fun e hc => ⟨(hflow.accepted e hc).2.1,
    fun hs p hp => ?_⟩⟩
  · cases hc : c.accepted with
    | none => exact fun hv => hv.1 ((h.handshake hc).answers p hp).payload
    | some e =>
      obtain ⟨-, hse, hli⟩ := hflow.accepted e hc
      have ha := h.accepted e hc
      exact h.client.not_overflows hs
        (ha.returned.length_le.trans_lt ha.ok.passed_lt) ha.ok.firstSeq
        (hse p hp) hli
  have ha := h.accepted e hc
  have ho := hflow.offered
  rw [server, hc] at ho
  exact ha.ok.not_overflows hs
    (ha.received.length_le.trans_lt h.client.passed_lt) h.client.firstSeq
    (hflow.toServer p hp) ho

end Steps

theorem flow_start (ca : IPv4Addr) (cp : BitVec 16) (sa : IPv4Addr)
    (sp : BitVec 16) (n : ℤ) (now : ℕ) :
    Flow (start ca cp sa sp n now) := by
  refine ⟨⟨(by decide : 0 < 65536), fun _ => ?_, fun seg hs => ?_⟩, fun p hp => ?_, Nat.zero_le _,
    fun e he => absurd he (Option.some_ne_none e).symm⟩
  · change (initialSeq now + 1 - (initialSeq now + 1)).toNat + 0 ≤ 0
    bv_omega
  · obtain rfl := mem_singleton.mp hs
    exact fun hne => absurd rfl hne
  · obtain rfl := mem_singleton.mp hp
    exact .sendSegment ⟨Or.inr ⟨rfl, rfl⟩, (by decide : tcpSyn < 4096)⟩ fun hne => absurd rfl hne

/-- **Flow control.** In every run of a single connection in which every segment that arrives is
conservative, every byte that an end has sent lies before the right edge of the largest window that
it has been offered, and no end takes the branch that resets the connection for want of room. -/
theorem flowControlled {clientAddress serverAddress : IPv4Addr} {clientPort serverPort : BitVec 16}
    {backlog : ℤ} {uptime : ℕ} {c : Connection}
    (run : Reach step Conservative
      (start clientAddress clientPort serverAddress serverPort backlog uptime) c) :
    FlowControlled c := by
  obtain ⟨⟨peerBase, h⟩, hflow⟩ := Reach.invariant
    (P := fun c => (∃ peerBase, Inv (initialSeq uptime + 1) peerBase c) ∧ Flow c)
    ⟨⟨0, inv_start _ _ _ _ _ _⟩, flow_start _ _ _ _ _ _⟩
    (fun c a c' ⟨⟨peerBase, h⟩, hflow⟩ hco hst => ⟨h.step hco.1 hst, hflow.step h hco hst⟩)
    run
  exact hflow.controlled h

/-- The byte of `sendByte` is acknowledged and a second one is sent. -/
def sendTwoBytes : List ConnectionAction :=
  sendByte ++ [.act .server (.tick 0), .deliver .client 1 0,
    .act .client (.sendTo [0x62#8] none), .act .client .sendPass, .act .client (.tick 0)]

theorem flowControlled_sendTwoBytes : ∃ c, Reach step Conservative (start 1 49152 2 80 8 0) c ∧
    c.client.socket.block.sndNxt = c.client.firstSeq + 2 ∧ FlowControlled c := by
  exact exists_reach sendTwoBytes (by decide) fun c run => flowControlled run

end Connection

/-! ## Leaving the window -/

namespace TcpSocket

variable {uptime fuel : ℕ} {sent : List Packet}

theorem packageLoop_last (hf : s.txBuffer.readAvailable ≤ fuel) (hm : s.block.sndMss ≠ 0)
    (ha : s.txBuffer.readAvailable ≠ 0) (h : packageLoop uptime fuel s = .ok (t, sent)) :
    ∃ p ∈ sent, p.payload ≠ [] ∧
      p.header.seqNumber + ofNat 32 p.payload.length = t.block.sndNxt := by
  induction fuel generalizing s sent with
  | zero => exact absurd (Nat.le_zero.mp hf) ha
  | succ fuel ih =>
    rw [packageLoop, if_neg ha] at h
    split_ifs at h with hn
    obtain ⟨⟨last, more⟩, hr, h⟩ := bind_eq_ok.mp h
    obtain ⟨rfl, rfl⟩ := Prod.mk.inj (Except.ok.inj h)
    have ho := segmentSize_pos ha hn hm
    have hle := s.readAvailable_afterSegment uptime
    by_cases hem : (s.afterSegment uptime).txBuffer.readAvailable = 0
    · -- the loop ends here, and this is the last packet
      have hl : last = s.afterSegment uptime := by
        cases fuel <;> rw [packageLoop] at hr
        · exact (Prod.mk.inj (Except.ok.inj hr)).1.symm
        rw [if_pos hem] at hr
        exact (Prod.mk.inj (Except.ok.inj hr)).1.symm
      have hw : (s.nextSegment uptime).WellFormed :=
        ⟨Or.inl rfl, (by decide : tcpPsh ||| tcpAck < 4096)⟩
      have hb : (s.nextSegment uptime).body.length = s.segmentSize := by
        change (s.nextSegment uptime).data.length = _
        rw [data_nextSegment, length_take, length_contents]
        exact min_eq_left s.segmentSize_le
      refine ⟨_, mem_cons_self, ?_, ?_⟩
      · rw [sendSegment, payload_sendSegmentTo _ hw, ← length_pos_iff, hb]
        exact ho
      · rw [hl, sendSegment, payload_sendSegmentTo _ hw, seqNumber_sendSegmentTo _ hw, hb]
        rfl
    · obtain ⟨p, hp, hfo⟩ := ih (s := s.afterSegment uptime) (by omega) hm hem hr
      exact ⟨p, .tail _ hp, hfo⟩

theorem retransmitLoop_early (s : TcpSocket) {q : List Segment}
    (ha : ∀ seg ∈ q, uptime < seg.retransmitAt) (passed : List Segment) :
    s.retransmitLoop uptime passed q = ({ s with retransmissionQueue := passed ++ q }, []) := by
  induction q generalizing passed with
  | nil =>
    rw [append_nil]
    rfl
  | cons seg rest ih =>
    rw [retransmitLoop, if_pos (ha seg mem_cons_self),
      ih (fun x hx => ha x (.tail _ hx)), append_assoc]
    rfl

theorem tick_early (hop : s.block.state ≠ .closed)
    (h : packageLoop uptime s.txBuffer.readAvailable s = .ok (t, sent))
    (hea : ∀ seg ∈ t.retransmissionQueue, uptime < seg.retransmitAt) :
    ∃ more, s.tick uptime =
      .ok ({ t with block := { t.block with sendingCompAck := false } }, sent ++ more) := by
  have ha : ∃ more, s.package uptime =
      .ok ({ t with block := { t.block with sendingCompAck := false } }, sent ++ more) := by
    rw [package, h, ok_bind]
    dsimp only
    by_cases hc : t.block.sendingCompAck
    · exact ⟨_, if_pos hc⟩
    rw [Bool.not_eq_true] at hc
    refine ⟨[], ?_⟩
    rw [if_neg (Bool.not_eq_true _ ▸ hc), append_nil, ← hc]
    rfl
  obtain ⟨more, ha⟩ := ha
  refine ⟨more, ?_⟩
  rw [tick, if_neg hop, ha, ok_bind]
  dsimp only
  rw [retransmit, retransmitLoop_early _ hea, nil_append, append_nil]
  rfl

end TcpSocket

/-- An end that has sent all of the `sent` bytes it was given, may send `window` more, and has
nothing to send again at the start of time. -/
structure Poised (e : Endpoint) (sent window : ℕ) : Prop where
  state : e.socket.block.state = .established
  sendShut : e.socket.block.sendShut = false
  sending : e.sending = []
  passed : e.passed.length = sent
  txSize : e.socket.txBuffer.size = tcpTxBufferSize
  empty : e.socket.txBuffer.contents = []
  sndNxt : e.socket.block.sndNxt = e.firstSeq + BitVec.ofNat 32 sent
  sndWnd : e.socket.block.sndWnd = window
  sndMss : e.socket.block.sndMss ≠ 0
  queue : ∀ seg ∈ e.socket.retransmissionQueue, 0 < seg.retransmitAt

section Rounds

variable {sent window : ℕ} (he : Poised e sent window) {data : List (BitVec 8)} (hne : data ≠ [])
  (hroom : data.length < tcpTxBufferSize)
include he hne hroom

omit hroom in
theorem Poised.sendTo :
    e.sendTo data none = { e with sending := data, passed := e.passed ++ data } := by
  rw [Endpoint.sendTo, if_pos he.sending, TcpSocket.sendToCheck, if_neg hne, he.sendShut,
    if_neg Bool.false_ne_true, if_neg (by decide), if_neg (not_not.mpr he.state)]

theorem Poised.sendPass : (e.sendTo data none).sendPass =
    { e with
      socket := { e.socket with txBuffer := (e.socket.txBuffer.write data).1 }
      sending := []
      passed := e.passed ++ data } := by
  have hr := congrArg length he.empty
  have hw := e.socket.txBuffer.writeAvailable_eq
  have ho := length_pos_iff.mpr hne
  rw [CircularBuffer.length_contents, length_nil] at hr
  rw [hr, he.txSize] at hw
  have hm : min e.socket.txBuffer.writeAvailable data.length = data.length := by omega
  rw [he.sendTo hne, Endpoint.sendPass, if_neg hne, sendToPass]
  dsimp only
  rw [he.sendShut, if_neg Bool.false_ne_true, if_neg (by omega), hm, take_length, drop_length]
  rfl

theorem Poised.tick (hw : data.length ≤ window) (hlt : window < 65536) :
    ∃ e' packets, (e.sendTo data none).sendPass.tick 0 = .ok (e', packets) ∧
      Poised e' (sent + data.length) (window - data.length) ∧ e'.firstSeq = e.firstSeq ∧
      e'.offered = e.offered ∧ ∃ p ∈ packets, p.payload ≠ [] ∧
        p.header.seqNumber + ofNat 32 p.payload.length =
          e.firstSeq + ofNat 32 (sent + data.length) := by
  have hr := congrArg length he.empty
  have hwr := e.socket.txBuffer.writeAvailable_eq
  have ho := length_pos_iff.mpr hne
  rw [CircularBuffer.length_contents, length_nil] at hr
  rw [hr, he.txSize] at hwr
  have hu := e.socket.txBuffer.contents_write (show data.length ≤ _ by omega)
  rw [he.empty, nil_append] at hu
  have hc := congrArg length hu
  rw [CircularBuffer.length_contents] at hc
  rw [he.sendPass hne hroom]
  generalize hs : { e.socket with txBuffer := (e.socket.txBuffer.write data).1 } = s
  have hb : s.block = e.socket.block := by rw [← hs]
  have ha : s.txBuffer.readAvailable = data.length := by rw [← hs]; exact hc
  obtain ⟨t, packets, hl, hem, hwn, hx⟩ := TcpSocket.packageLoop_ok 0 (s := s) le_rfl
    (by rw [hb]; exact he.sndMss) (by rw [hb, he.sndWnd]; exact hlt)
    (by rw [hb, he.sndWnd, ha]; exact hw)
  obtain ⟨p, hp, hpa, hn⟩ := TcpSocket.packageLoop_last le_rfl
    (by rw [hb]; exact he.sndMss) (by omega) hl
  -- the passes of the loop leave the rest of the socket alone
  obtain ⟨⟨ht, hh, hi, hm, hq⟩, -⟩ := TcpSocket.packageLoop_invariant
    (P := fun u => u.block.state = .established ∧ u.block.sendShut = false ∧
      u.txBuffer.size = tcpTxBufferSize ∧ u.block.sndMss ≠ 0 ∧
      ∀ seg ∈ u.retransmissionQueue, 0 < seg.retransmitAt) (Q := fun _ => True)
    (fun u ⟨ht, hh, hi, hm, hq⟩ _ _ => ⟨⟨ht, hh,
      (CircularBuffer.size_read _ _).trans hi, hm, forall_mem_append.mpr ⟨hq,
        forall_mem_singleton.mpr (by decide : 0 < 0 + tcpRetransmitInterval)⟩⟩, trivial⟩)
    (by
      rw [← hs]
      exact ⟨he.state, he.sendShut, (CircularBuffer.size_write _ _).trans he.txSize, he.sndMss,
        he.queue⟩) hl
  obtain ⟨more, hti⟩ := TcpSocket.tick_early
    (by rw [hb, he.state]; exact TcpState.noConfusion) hl hq
  have he' : t.block.sndNxt = e.firstSeq + ofNat 32 (sent + data.length) := by
    rw [hx, hb, he.sndNxt, ha, add_ofNat_add]
  rw [Endpoint.tick, hti]
  refine ⟨_, _, rfl, ⟨ht, hh, rfl, ?_, hi, hem, he', ?_, hm, hq⟩, rfl, rfl,
    p, mem_append_left _ hp, hpa, hn.trans he'⟩
  · rw [length_append, he.passed]
  · rw [hwn, hb, he.sndWnd, ha]

end Rounds

namespace Connection

theorem Run.send {c₀ c : Connection} {sent win : ℕ} (run : Run c₀ c)
    (ho : Poised c.client sent win) (hs : sent < 10000) (hw : 4095 ≤ win)
    (hlt : win < 65536) :
    ∃ c', Run c₀ c' ∧ Poised c'.client (sent + 4095) (win - 4095) ∧
      c'.client.firstSeq = c.client.firstSeq ∧ c'.client.offered = c.client.offered ∧
      ∃ p ∈ c'.toServer, p.payload ≠ [] ∧
        p.header.seqNumber + ofNat 32 p.payload.length =
          c.client.firstSeq + ofNat 32 (sent + 4095) := by
  have hl : (replicate 4095 0x61#8).length = 4095 := length_replicate
  generalize replicate 4095 0x61#8 = data at hl
  have hne : data ≠ [] := ne_nil_of_length_eq_add_one hl
  obtain ⟨e', packets, ht, hp', hf, hof, p, hp, hn⟩ :=
    ho.tick hne (by rw [hl, tcpTxBufferSize]; omega) (by omega) hlt
  rw [hl] at hp' hn
  have hc : Run c₀ { c with client := c.client.sendTo data none, toServer := c.toServer ++ [] } :=
    run.step (.act .client (.sendTo data none)) (fun e he => by
      cases he
      rw [ho.sendTo hne, length_append, ho.passed, hl]
      omega) rfl
  have ha : Run c₀ { c with
      client := (c.client.sendTo data none).sendPass, toServer := c.toServer ++ [] ++ [] } :=
    hc.step (ConnectionAction.act .client .sendPass) trivial rfl
  have hse : Run c₀ { c with client := e', toServer := c.toServer ++ [] ++ [] ++ packets } := by
    refine ha.step (ConnectionAction.act .client (.tick 0)) trivial ?_
    change ((c.client.sendTo data none).sendPass.tick 0 >>= _) = _
    rw [ht]
    rfl
  exact ⟨_, hse, hp', hf, hof, p, mem_append_right _ hp, hn⟩

/-- The handshake; then two bytes, of which the server has acknowledged one when its window arrives
at the client. -/
def acknowledgeFirst : List ConnectionAction :=
  [.deliver .server 0 0, .deliver .client 0 0, .deliver .server 1 0,
   .act .client (.sendTo [0x61#8] none), .act .client .sendPass, .act .client (.tick 0),
   .act .client (.sendTo [0x62#8] none), .act .client .sendPass, .act .client (.tick 0),
   .deliver .server 2 0, .act .server (.tick 0), .deliver .client 1 0]

theorem run_acknowledgeFirst : ∃ c, Run (start 1 49152 2 80 8 0) c ∧ Poised c.client 2 8190 ∧
    c.client.offered = 8191 := by
  obtain ⟨c, hex, ⟨h1, h2, h3, h4, h5, h6, h7, h8, h9, h10⟩, ho⟩ :
      ∃ c ∈ execute step Single (start 1 49152 2 80 8 0) acknowledgeFirst,
      (c.client.socket.block.state = .established ∧ c.client.socket.block.sendShut = false ∧
        c.client.sending = [] ∧ c.client.passed.length = 2 ∧
        c.client.socket.txBuffer.size = tcpTxBufferSize ∧
        c.client.socket.txBuffer.contents = [] ∧
        c.client.socket.block.sndNxt = c.client.firstSeq + ofNat 32 2 ∧
        c.client.socket.block.sndWnd = 8190 ∧ c.client.socket.block.sndMss ≠ 0 ∧
        ∀ seg ∈ c.client.socket.retransmissionQueue, 0 < seg.retransmitAt) ∧
      c.client.offered = 8191 := by
    decide
  exact ⟨c, Reach.refl.execute hex, ⟨h1, h2, h3, h4, h5, h6, h7, h8, h9, h10⟩, ho⟩

theorem not_flowControlled :
    ¬ ∀ c, Run (start 1 49152 2 80 8 0) c → c.FlowControlled := by
  intro h
  obtain ⟨c, run, hpo, hof⟩ := run_acknowledgeFirst
  obtain ⟨c', run', hpo', hfi', hof', -⟩ :=
    run.send hpo (by decide) (by decide) (by decide)
  obtain ⟨c'', run'', -, hfi'', hof'', p, hp, hne, hend⟩ :=
    run'.send hpo' (by decide) (by decide) (by decide)
  have hbo := (h c'' run'').1.sent p hp hne
  bv_omega

end Connection

end AexKernel.Net
