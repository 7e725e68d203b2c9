import AexKernel.Net.TcpConnection

/-! # The stream of one end of a connection

What one end of a connection keeps true in every step, given what the packets of the other end look
like. -/

namespace AexKernel.Net

open Library Mem List TcpSocket Or
open BitVec (ofNat)
open TcpState (noConfusion)

/-! ## Sequence numbers of a stream -/

variable {i j n now : ℕ} {base seq ack : BitVec 32}

theorem add_ofNat_inj (hi : i < 2 ^ 31) (hj : j < 2 ^ 31)
    (h : base + ofNat 32 i = base + ofNat 32 j) : i = j := by
  bv_omega

theorem toNat_add_ofNat_sub (hi : i < 2 ^ 31) : (base + ofNat 32 i - base).toNat = i := by
  bv_omega

theorem add_ofNat_add (base : BitVec 32) (i j : ℕ) :
    base + ofNat 32 i + ofNat 32 j = base + ofNat 32 (i + j) := by
  rw [BitVec.add_assoc, ← BitVec.ofNat_add]

theorem le_of_isBeforeOrEqual (hi : i < 2 ^ 31) (hj : j < 2 ^ 31)
    (h : isBeforeOrEqual (base + ofNat 32 i) (base + ofNat 32 j)) : i ≤ j := by
  rw [isBeforeOrEqual] at h
  split_ifs at h with hq hlt
  · exact (add_ofNat_inj hi hj hq).le
  · have h := of_decide_eq_true h
    bv_omega
  · have h := of_decide_eq_true h
    bv_omega

/-! ## Segments and packets -/

/-- The right edge of the window that an endpoint can have offered, counted from the first byte of
its peer. -/
def Endpoint.edge (e : Endpoint) : ℕ := max e.socket.rxLog.length (e.read.length + 8191)

/-- The history of an endpoint only grows. -/
structure Endpoint.Grows (e e' : Endpoint) : Prop where
  passed : e.passed <+: e'.passed
  rxLog : e.socket.rxLog <+: e'.socket.rxLog
  read : e.read.length ≤ e'.read.length

theorem Endpoint.Grows.refl (e : Endpoint) : Endpoint.Grows e e :=
  ⟨prefix_rfl, prefix_rfl, le_rfl⟩

variable {e e' : Endpoint}

theorem Endpoint.Grows.same (ha : e'.passed = e.passed)
    (hlog : e'.socket.rxLog = e.socket.rxLog) (hr : e'.read = e.read) : Endpoint.Grows e e' :=
  ⟨by rw [ha], by rw [hlog], by rw [hr]⟩

theorem Endpoint.Grows.edge (h : Endpoint.Grows e e') : e.edge ≤ e'.edge := by
  have hlog := h.rxLog.length_le
  have hr := h.read
  rw [Endpoint.edge, Endpoint.edge]
  omega

/-- The data stands in the stream at the place that its sequence number names. -/
def Placed (base : BitVec 32) (stream : List (BitVec 8)) (seq : BitVec 32)
    (data : List (BitVec 8)) : Prop :=
  data ≠ [] → ∃ i, seq = base + BitVec.ofNat 32 i ∧ data <+: stream.drop i

variable {stream stream' data : List (BitVec 8)}

theorem Placed.mono (h : Placed base stream seq data) (hg : stream <+: stream') :
    Placed base stream' seq data := fun hn => by
  obtain ⟨i, hs, hr⟩ := h hn
  exact ⟨i, hs, hr.trans (hg.drop i)⟩

/-- A segment that an endpoint queues. -/
structure SegmentOk (base peerBase : BitVec 32) (e : Endpoint) (seg : Segment) : Prop where
  wellFormed : seg.WellFormed
  fin : ¬ hasFlag seg.flags tcpFin
  syn : hasFlag seg.flags tcpSyn → seg.seq + 1 = base
  data : Placed base e.passed seg.seq seg.body
  ack : hasFlag seg.flags tcpAck →
    ∃ j ≤ e.socket.rxLog.length, seg.ack = peerBase + BitVec.ofNat 32 j

variable {base' : BitVec 32} {seg seg' : Segment}

theorem SegmentOk.mono (h : SegmentOk base base' e seg) (hg : e.Grows e') :
    SegmentOk base base' e' seg where
  wellFormed := h.wellFormed
  fin := h.fin
  syn := h.syn
  data := h.data.mono hg.passed
  ack := fun hf => by
    obtain ⟨j, hj, hq⟩ := h.ack hf
    exact ⟨j, hj.trans hg.rxLog.length_le, hq⟩

theorem SegmentOk.resent (h : SegmentOk base base' e seg) (hr : Resent seg seg') :
    SegmentOk base base' e seg' := by
  obtain ⟨retries, retransmitAt, rfl⟩ := hr
  exact ⟨⟨h.wellFormed.headerLen, h.wellFormed.flags_lt⟩, h.fin, h.syn, h.data, h.ack⟩

/-- A packet of an endpoint, as its peer sees it. -/
structure PacketOk (base peerBase : BitVec 32) (e : Endpoint) (p : Packet) : Prop where
  fin : ¬ hasFlag p.header.bitvalues tcpFin
  data : Placed base e.passed p.header.seqNumber p.payload
  ack : hasFlag p.header.bitvalues tcpAck → ∃ j ≤ e.socket.rxLog.length,
    p.header.ackNumber = peerBase + BitVec.ofNat 32 j ∧ j + p.header.window ≤ e.edge

variable {p : Packet}

theorem PacketOk.mono (h : PacketOk base base' e p) (hg : e.Grows e') :
    PacketOk base base' e' p where
  fin := h.fin
  data := h.data.mono hg.passed
  ack := fun hf => by
    obtain ⟨j, hj, hq, hd⟩ := h.ack hf
    exact ⟨j, hj.trans hg.rxLog.length_le, hq, hd.trans hg.edge⟩

/-- A packet of an endpoint, with what its peer's listener looks at. -/
structure Sent (base peerBase : BitVec 32) (e : Endpoint) (p : Packet) : Prop extends
    PacketOk base peerBase e p where
  syn : hasFlag p.header.bitvalues tcpSyn → p.header.seqNumber + 1 = base
  src : p.src = e.socket.deviceAddress
  port : p.header.sourcePort = e.socket.sourcePort
  window : e.socket.rxLog = [] → p.header.window = 8191

/-- The host and the port of a socket. -/
structure SameHost (s t : TcpSocket) : Prop where
  deviceAddress : t.deviceAddress = s.deviceAddress
  sourcePort : t.sourcePort = s.sourcePort

theorem Sent.mono (h : Sent base base' e p) (hg : e.Grows e')
    (hh : SameHost e.socket e'.socket) :
    Sent base base' e' p where
  toPacketOk := h.toPacketOk.mono hg
  syn := h.syn
  src := h.src.trans hh.deviceAddress.symm
  port := h.port.trans hh.sourcePort.symm
  window := fun hlog => h.window (prefix_nil.mp (hlog ▸ hg.rxLog))

variable {u v a : TcpSocket}

/-- **Sending a good segment puts a good packet on the wire.** -/
theorem sent_sendSegment (hlog : e.socket.rxLog = e.read ++ u.rxBuffer.contents)
    (hh : SameHost e.socket u) (h : SegmentOk base base' e seg) :
    Sent base base' e (u.sendSegment seg) := by
  have hc : e.socket.rxLog.length = e.read.length + u.rxBuffer.readAvailable := by
    rw [hlog, length_append, CircularBuffer.length_contents]
  have hw := u.window_sendSegmentTo h.wellFormed u.destinationAddress u.destinationPort
  rw [getWindow_eq] at hw
  have hf {flag : ℕ} (hlt : flag < 4096) := u.hasFlag_sendSegmentTo h.wellFormed
    u.destinationAddress u.destinationPort hlt
  refine ⟨⟨?_, ?_, ?_⟩, ?_, hh.deviceAddress, ?_, ?_⟩ <;> rw [sendSegment]
  · rw [hf (by decide)]
    exact h.fin
  · rw [payload_sendSegmentTo u h.wellFormed, seqNumber_sendSegmentTo u h.wellFormed]
    exact h.data
  · intro ha
    rw [hf (by decide)] at ha
    obtain ⟨j, hj, hq⟩ := h.ack ha
    refine ⟨j, hj, ?_, ?_⟩
    · rw [ackNumber_sendSegmentTo u h.wellFormed, hq]
    rw [hw, Endpoint.edge]
    omega
  · intro hs
    rw [hf (by decide)] at hs
    rw [seqNumber_sendSegmentTo u h.wellFormed]
    exact h.syn hs
  · rw [sourcePort_sendSegmentTo u h.wellFormed]
    exact hh.sourcePort
  · intro hn
    rw [hn, length_nil] at hc
    omega

/-! ## One end of a connection -/

/-- What holds of one end of a connection. -/
structure EndpointOk (base peerBase : BitVec 32) (e : Endpoint) : Prop where
  firstSeq : e.firstSeq = base
  rxSize : e.socket.rxBuffer.size = tcpRxBufferSize
  state : e.socket.block.state = .synSent ∨ e.socket.block.state = .established ∨
    e.socket.block.state = .closed
  passed_lt : e.passed.length < 2 ^ 31
  shut : e.socket.block.state ≠ .closed →
    e.socket.block.sendShut = false ∧ e.socket.block.receiveShut = false
  /-- `snd_nxt` counts the bytes packaged; the others wait in the transmit buffer and in `sendTo`. -/
  stream : e.socket.block.state ≠ .closed → ∃ k ≤ e.passed.length,
    e.socket.block.sndNxt = base + BitVec.ofNat 32 k ∧
    e.passed.drop k = e.socket.txBuffer.contents ++ e.sending
  log : e.socket.rxLog = e.read ++ e.socket.rxBuffer.contents
  /-- `rcv_nxt` counts the bytes taken. -/
  rcvNxt : e.socket.block.state = .established ∨
      e.socket.block.state = .closed ∧ e.socket.rxLog ≠ [] →
    e.socket.block.rcvNxt = peerBase + BitVec.ofNat 32 e.socket.rxLog.length
  queue : ∀ seg ∈ e.socket.retransmissionQueue, SegmentOk base peerBase e seg
  closed : e.socket.block.state = .closed → e.socket.retransmissionQueue = []
  synSent : e.socket.block.state = .synSent → e.passed = [] ∧ e.socket.rxLog = [] ∧
    e.socket.block.sendingCompAck = false ∧
    ∃ seg, e.socket.retransmissionQueue = [seg] ∧ seg.flags = tcpSyn ∧
      seg.ackWith = e.socket.block.sndNxt

/-- What a step of one end gives to the proof about both. -/
structure Stepped (base peerBase : BitVec 32) (stream : List (BitVec 8)) (e e' : Endpoint)
    (sent : List Packet) : Prop where
  ok : EndpointOk base peerBase e'
  sent : ∀ p ∈ sent, Sent base peerBase e' p
  grows : e.Grows e'
  host : SameHost e.socket e'.socket
  log : e'.socket.rxLog <+: stream

/-- A local step opens no connection. -/
structure Silent (e e' : Endpoint) (sent : List Packet) : Prop where
  synSent : e'.socket.block.state = .synSent → e.socket.block.state = .synSent
  idle : e.socket.block.state ≠ .established → e.socket.rxLog = [] →
    e'.socket.block.state ≠ .established ∧ ∀ p ∈ sent, ¬ hasFlag p.header.bitvalues tcpAck

theorem Silent.of_state (h : e'.socket.block.state = e.socket.block.state) : Silent e e' [] :=
  ⟨fun hs => h ▸ hs, fun hn _ => ⟨h ▸ hn, forall_mem_nil _⟩⟩

theorem segmentOk_control (seq : BitVec 32) (flags : ℕ) (hlt : flags < 4096)
    (hf : ¬ hasFlag flags tcpFin) (hs : ¬ hasFlag flags tcpSyn)
    (ha : hasFlag flags tcpAck → ∃ j ≤ e.socket.rxLog.length, ack = base' + ofNat 32 j) :
    SegmentOk base base' e { seq := seq, ack := ack, flags := flags, headerLen := 20 } where
  wellFormed := ⟨inl rfl, hlt⟩
  fin := hf
  syn := fun h => absurd h hs
  data := fun h => absurd rfl h
  ack := ha

theorem not_ack_rst (u : TcpSocket) : ¬ hasFlag u.rst.header.bitvalues tcpAck := by
  have hlt : tcpRst < 4096 := by decide
  rw [rst, sendSegment, hasFlag_sendSegmentTo u ⟨inl rfl, hlt⟩ _ _ (by decide)]
  change ¬ hasFlag tcpRst tcpAck
  decide

section Steps

variable (he : EndpointOk base base' e)
include he

theorem EndpointOk.queue_mono (hg : e.Grows e') :
    ∀ seg ∈ e.socket.retransmissionQueue, SegmentOk base base' e' seg :=
  fun seg hs => (he.queue seg hs).mono hg

theorem EndpointOk.setOffered (offered : ℕ) :
    EndpointOk base base' { e with offered := offered } :=
  ⟨he.firstSeq, he.rxSize, he.state, he.passed_lt, he.shut, he.stream, he.log, he.rcvNxt,
    he.queue_mono (.same rfl rfl rfl), he.closed, he.synSent⟩

theorem EndpointOk.reset : EndpointOk base base' { e with socket := e.socket.reset.1 } where
  firstSeq := he.firstSeq
  rxSize := he.rxSize
  state := inr (inr rfl)
  passed_lt := he.passed_lt
  shut := fun h => absurd rfl h
  stream := fun h => absurd rfl h
  log := he.log
  rcvNxt := fun h => by
    have hlog : e.socket.rxLog ≠ [] := h.elim nofun And.right
    rcases he.state with hs | hest | hc
    · exact absurd (he.synSent hs).2.1 hlog
    · exact he.rcvNxt (inl hest)
    · exact he.rcvNxt (inr ⟨hc, hlog⟩)
  queue := forall_mem_nil _
  closed := fun _ => rfl
  synSent := nofun

theorem EndpointOk.sent_rst : Sent base base' e e.socket.reset.1.rst :=
  sent_sendSegment (u := e.socket.reset.1) he.log ⟨rfl, rfl⟩
    (segmentOk_control _ tcpRst (by decide) (by decide) (by decide) fun h => absurd h (by decide))

theorem EndpointOk.sent_ack (hu : u.rxBuffer = e.socket.rxBuffer) (hh : SameHost e.socket u)
    (hj : j ≤ e.socket.rxLog.length) (ha : ack = base' + ofNat 32 j) :
    Sent base base' e
      (u.sendSegment { seq := seq, ack := ack, flags := tcpAck, headerLen := 20 }) :=
  sent_sendSegment (by rw [hu]; exact he.log) hh
    (segmentOk_control seq tcpAck (by decide) (by decide) (by decide) fun _ => ⟨j, hj, ha⟩)

/-! ### Local steps -/

variable (hlog : e.socket.rxLog <+: stream)
include hlog

theorem stepped_self : Stepped base base' stream e e [] ∧ Silent e e [] :=
  ⟨⟨he, forall_mem_nil _, .refl e, ⟨rfl, rfl⟩, hlog⟩, .of_state rfl⟩

theorem stepped_connectEnd :
    Stepped base base' stream e e.connectEnd.1 e.connectEnd.2 ∧
      Silent e e.connectEnd.1 e.connectEnd.2 := by
  rw [Endpoint.connectEnd, connectEnd]
  split
  iterate 4 exact stepped_self he hlog
  have hg : e.Grows { e with socket := e.socket.reset.1 } := .same rfl rfl rfl
  refine ⟨⟨he.reset, fun p hp => ?_, hg, ⟨rfl, rfl⟩, hlog⟩,
    (fun hn => by cases hn), fun _ _ => ⟨?_, fun p hp => ?_⟩⟩
  · rw [mem_resetRst hp]
    exact he.sent_rst.mono hg ⟨rfl, rfl⟩
  · exact noConfusion
  rw [mem_resetRst hp]
  exact not_ack_rst _

theorem stepped_sendTo {dstAddr : Option IPv4Addr}
    (hlt : (e.sendTo data dstAddr).passed.length < 2 ^ 31) :
    Stepped base base' stream e (e.sendTo data dstAddr) [] ∧
      Silent e (e.sendTo data dstAddr) [] := by
  rw [Endpoint.sendTo] at hlt ⊢
  split_ifs at hlt ⊢ with hs
  · rw [sendToCheck] at hlt ⊢
    split_ifs at hlt ⊢ with h1 h2 h3 h4
    iterate 4 exact stepped_self he hlog
    rw [not_not] at h4
    have hop : e.socket.block.state ≠ .closed := by
      rw [h4]
      exact noConfusion
    have hg : e.Grows { e with sending := data, passed := e.passed ++ data } :=
      ⟨prefix_append _ _, prefix_rfl, le_rfl⟩
    refine ⟨⟨?_, forall_mem_nil _, hg, ⟨rfl, rfl⟩, hlog⟩, .of_state rfl⟩
    obtain ⟨k, hk, hn, hr⟩ := he.stream hop
    refine ⟨he.firstSeq, he.rxSize, he.state, hlt, he.shut, fun _ => ⟨k, ?_, hn, ?_⟩, he.log,
      he.rcvNxt, he.queue_mono hg, he.closed, fun hy => ?_⟩
    · exact hk.trans (length_append ▸ Nat.le_add_right _ _)
    · change (e.passed ++ data).drop k = _
      rw [drop_append_of_le_length hk, hr, hs, append_nil]
    · exact absurd (h4.symm.trans hy) noConfusion
  · exact stepped_self he hlog

theorem stepped_sendPass :
    Stepped base base' stream e e.sendPass [] ∧ Silent e e.sendPass [] := by
  rw [Endpoint.sendPass]
  split_ifs with hn
  · exact stepped_self he hlog
  rw [sendToPass]
  split_ifs with hh ha
  · -- only a closed connection is shut
    have hc : e.socket.block.state = .closed := by
      by_contra hop
      rw [(he.shut hop).1] at hh
      cases hh
    refine ⟨⟨⟨he.firstSeq, he.rxSize, he.state, he.passed_lt, he.shut,
      fun hop => absurd hc hop, he.log, he.rcvNxt,
      he.queue_mono (.same rfl rfl rfl), he.closed, he.synSent⟩,
      forall_mem_nil _, .same rfl rfl rfl, ⟨rfl, rfl⟩, hlog⟩, .of_state rfl⟩
  · exact stepped_self he hlog
  refine ⟨⟨⟨he.firstSeq, he.rxSize, he.state, he.passed_lt, he.shut, fun hop => ?_, he.log,
    he.rcvNxt, he.queue_mono (.same rfl rfl rfl), he.closed, he.synSent⟩,
    forall_mem_nil _, .same rfl rfl rfl, ⟨rfl, rfl⟩, hlog⟩, .of_state rfl⟩
  obtain ⟨k, hk, hx, hr⟩ := he.stream hop
  refine ⟨k, hk, hx, ?_⟩
  have hf : (e.sending.take (min e.socket.txBuffer.writeAvailable e.sending.length)).length ≤
      e.socket.txBuffer.writeAvailable := by
    rw [length_take]
    omega
  rw [e.socket.txBuffer.contents_write hf, append_assoc, hr]
  exact congrArg _ (take_append_drop _ _).symm

theorem stepped_receiveFrom (len : ℕ) (waitAll : Bool) (srcAddr : Option IPv4Addr) :
    Stepped base base' stream e (e.receiveFrom len waitAll srcAddr) [] ∧
      Silent e (e.receiveFrom len waitAll srcAddr) [] := by
  rw [Endpoint.receiveFrom]
  split
  · exact ⟨⟨⟨he.firstSeq, he.rxSize, he.state, he.passed_lt, he.shut, he.stream, he.log,
      he.rcvNxt, he.queue_mono (.same rfl rfl rfl), he.closed, he.synSent⟩,
      forall_mem_nil _, .same rfl rfl rfl, ⟨rfl, rfl⟩, hlog⟩, .of_state rfl⟩
  · exact stepped_self he hlog

omit hlog in
theorem EndpointOk.readBytes (hn : n ≤ e.socket.rxBuffer.readAvailable) (notify : Bool)
    (receiving : Option ReceiveCall) :
    EndpointOk base base' { e with
      socket := { e.socket with
        rxBuffer := (e.socket.rxBuffer.read n).1
        block := { e.socket.block with notifyOfWindowSize := notify } }
      receiving := receiving
      read := e.read ++ (e.socket.rxBuffer.read n).2 } := by
  refine ⟨he.firstSeq, (CircularBuffer.size_read _ _).trans he.rxSize, he.state, he.passed_lt,
    he.shut, he.stream, ?_, he.rcvNxt, he.queue_mono ?_, he.closed, he.synSent⟩
  · change e.socket.rxLog = e.read ++ _ ++ _
    rw [e.socket.rxBuffer.read_eq_take hn, e.socket.rxBuffer.contents_read hn, append_assoc,
      take_append_drop]
    exact he.log
  · exact ⟨prefix_rfl, prefix_rfl, length_append ▸ Nat.le_add_right _ _⟩

omit hlog in
theorem EndpointOk.rxLog_ne_nil (hr : e.socket.rxBuffer.readAvailable ≠ 0) :
    e.socket.rxLog ≠ [] := fun hn => hr <| by
  have hc := congrArg length he.log
  rw [hn, length_append, CircularBuffer.length_contents, length_nil] at hc
  omega

omit hlog in
theorem EndpointOk.rcvNxt_of_readable (hr : e.socket.rxBuffer.readAvailable ≠ 0) :
    e.socket.block.rcvNxt = base' + ofNat 32 e.socket.rxLog.length := by
  have hlog := he.rxLog_ne_nil hr
  rcases he.state with hs | hest | hc
  · exact absurd (he.synSent hs).2.1 hlog
  · exact he.rcvNxt (inl hest)
  · exact he.rcvNxt (inr ⟨hc, hlog⟩)

theorem stepped_receivePass :
    Stepped base base' stream e e.receivePass.1 e.receivePass.2 ∧
      Silent e e.receivePass.1 e.receivePass.2 := by
  rw [Endpoint.receivePass]
  split
  · exact stepped_self he hlog
  next call _ =>
  have hi (receiving : Option ReceiveCall) :
      Stepped base base' stream e { e with receiving := receiving, read := e.read ++ [] } [] ∧
      Silent e { e with receiving := receiving, read := e.read ++ [] } [] := by
    rw [append_nil]
    exact ⟨⟨⟨he.firstSeq, he.rxSize, he.state, he.passed_lt, he.shut, he.stream, he.log,
      he.rcvNxt, he.queue_mono (.same rfl rfl rfl), he.closed, he.synSent⟩,
      forall_mem_nil _, .same rfl rfl rfl, ⟨rfl, rfl⟩, hlog⟩, .of_state rfl⟩
  rw [receiveFromPass]
  dsimp only
  have hl : min e.socket.rxBuffer.readAvailable call.len ≤ e.socket.rxBuffer.readAvailable :=
    min_le_left _ _
  generalize min e.socket.rxBuffer.readAvailable call.len = n at hl ⊢
  split_ifs with hlen ha hd ht
  · exact hi none
  · exact hi none
  · exact hi (some call)
  · -- the window has grown enough to tell the peer
    have hne := he.rcvNxt_of_readable ha
    have ho := he.readBytes hl false
      (some { call with len := call.len - n, read := call.read + n })
    refine ⟨⟨ho, fun p hp => ?_, ?_, ⟨rfl, rfl⟩, hlog⟩,
      id, fun _ hn => absurd hn (he.rxLog_ne_nil ha)⟩
    · rw [mem_singleton.mp hp]
      exact ho.sent_ack rfl ⟨rfl, rfl⟩ le_rfl hne
    · exact ⟨prefix_rfl, prefix_rfl, length_append ▸ Nat.le_add_right _ _⟩
  · refine ⟨⟨he.readBytes hl e.socket.block.notifyOfWindowSize _, forall_mem_nil _, ?_,
      ⟨rfl, rfl⟩, hlog⟩, .of_state rfl⟩
    exact ⟨prefix_rfl, prefix_rfl, length_append ▸ Nat.le_add_right _ _⟩

/-! ### The timer -/

omit he hlog in
/-- A socket in place of the endpoint's during and after a tick. -/
structure Ticked (base peerBase : BitVec 32) (e : Endpoint) (u : TcpSocket) : Prop where
  ok : EndpointOk base peerBase { e with socket := u }
  host : SameHost e.socket u
  rxLog : u.rxLog = e.socket.rxLog
  state : u.block.state = e.socket.block.state ∨ u.block.state = .closed

omit he hlog in
/-- The invariant of a tick, until the connection is given up. -/
structure Ticking (base peerBase : BitVec 32) (e : Endpoint) (u : TcpSocket) : Prop extends
    Ticked base peerBase e u where
  opened : u.block.state ≠ .closed

omit he hlog in
theorem Ticking.sent (h : Ticking base base' e u) (hr : v.rxBuffer = u.rxBuffer)
    (hh : SameHost u v) (hs : SegmentOk base base' { e with socket := u } seg) :
    Sent base base' e (v.sendSegment seg) := by
  have hlog : e.socket.rxLog = e.read ++ v.rxBuffer.contents := by
    rw [hr, ← h.rxLog]
    exact h.ok.log
  refine sent_sendSegment hlog ⟨?_, ?_⟩ (hs.mono (.same rfl h.rxLog.symm rfl))
  · exact hh.deviceAddress.trans h.host.deviceAddress
  · exact hh.sourcePort.trans h.host.sourcePort

omit he hlog in
theorem Ticking.established (h : Ticking base base' e u)
    (ha : u.txBuffer.readAvailable ≠ 0) : u.block.state = .established := by
  rcases h.ok.state with hs | hest | hc
  · obtain ⟨k, -, -, hr⟩ := h.ok.stream h.opened
    rw [(h.ok.synSent hs).1, drop_nil] at hr
    have hn := (append_eq_nil_iff.mp hr.symm).1
    rw [← CircularBuffer.length_contents, hn] at ha
    exact absurd rfl ha
  · exact hest
  · exact absurd hc h.opened

omit he hlog in
theorem Ticking.nextSegment (h : Ticking base base' e u)
    (ha : u.txBuffer.readAvailable ≠ 0) (now : ℕ) :
    SegmentOk base base' { e with socket := u } (u.nextSegment now) := by
  obtain ⟨k, hk, hn, hr⟩ := h.ok.stream h.opened
  refine ⟨⟨inl rfl, (by decide : tcpPsh ||| tcpAck < 4096)⟩,
    (by decide : ¬ hasFlag (tcpPsh ||| tcpAck) tcpFin),
    fun hs => absurd hs (by decide : ¬ hasFlag (tcpPsh ||| tcpAck) tcpSyn), fun _ => ?_,
    fun _ => ⟨_, le_rfl, h.ok.rcvNxt (inl (h.established ha))⟩⟩
  refine ⟨k, hn, ?_⟩
  change (u.nextSegment now).data <+: e.passed.drop k
  rw [u.data_nextSegment, show e.passed.drop k = _ from hr]
  exact ( take_prefix _ _).trans (prefix_append _ _)

omit he hlog in
theorem Ticking.afterSegment (h : Ticking base base' e u)
    (ha : u.txBuffer.readAvailable ≠ 0) (now : ℕ) :
    Ticking base base' e (u.afterSegment now) := by
  have hest := h.established ha
  have hse := h.nextSegment ha now
  refine ⟨⟨⟨h.ok.firstSeq, h.ok.rxSize, h.ok.state, h.ok.passed_lt, h.ok.shut, fun _ => ?_,
    h.ok.log, h.ok.rcvNxt, fun seg hm => ?_, fun hc => absurd hc h.opened,
    fun hs => absurd (hest.symm.trans hs) noConfusion⟩,
    ⟨h.host.deviceAddress, h.host.sourcePort⟩, h.rxLog, h.state⟩, h.opened⟩
  · obtain ⟨k, hk, hn, hr⟩ := h.ok.stream h.opened
    dsimp only at hk hn hr ⊢
    have hl := u.segmentSize_le
    have ho := congrArg length hr
    rw [length_drop, length_append, CircularBuffer.length_contents] at ho
    refine ⟨k + u.segmentSize, by omega, ?_, ?_⟩
    · change u.block.sndNxt + _ = _
      rw [hn, add_ofNat_add]
    · rw [u.contents_afterSegment, ← drop_drop, hr, drop_append_of_le_length]
      rwa [CircularBuffer.length_contents]
  · rcases mem_append.mp hm with hm | hm
    · exact (h.ok.queue seg hm).mono (.same rfl rfl rfl)
    rw [mem_singleton.mp hm]
    exact hse.mono (.same rfl rfl rfl)

omit he hlog in
theorem Ticking.requeue (h : Ticking base base' e u) {queue : List Segment}
    (ha : List.Forall₂ Resent u.retransmissionQueue queue) :
    Ticked base base' e { u with retransmissionQueue := queue } := by
  refine ⟨⟨h.ok.firstSeq, h.ok.rxSize, h.ok.state, h.ok.passed_lt, h.ok.shut, h.ok.stream, h.ok.log,
    h.ok.rcvNxt, fun seg hm => ?_, fun hc => absurd hc h.opened, fun hs => ?_⟩,
    ⟨h.host.deviceAddress, h.host.sourcePort⟩, h.rxLog, h.state⟩
  · obtain ⟨seg₀, hse₀, hre⟩ := exists_resent ha hm
    exact ((h.ok.queue seg₀ hse₀).resent hre).mono (.same rfl rfl rfl)
  obtain ⟨hpa, hlog, ho, seg, hq, hf, hw⟩ := h.ok.synSent hs
  rw [show u.retransmissionQueue = [seg] from hq] at ha
  obtain ⟨seg', rest, ⟨retries, retransmitAt, rfl⟩, hr, rfl⟩ := forall₂_cons_left_iff.mp ha
  obtain rfl := forall₂_nil_left_iff.mp hr
  exact ⟨hpa, hlog, ho, _, rfl, hf, hw⟩

omit he hlog in
theorem Ticking.not_ack (h : Ticking base base' e u) (hse : seg ∈ u.retransmissionQueue)
    (hr : Resent seg seg') (hn : e.socket.block.state ≠ .established) :
    ¬ hasFlag (u.sendSegment seg').header.bitvalues tcpAck := by
  have hs : u.block.state = .synSent := by
    rcases h.ok.state with hs | hest | hc
    · exact hs
    · exact absurd (h.state.resolve_right h.opened ▸ hest) hn
    · exact absurd hc h.opened
  obtain ⟨-, -, -, seg₀, hq, hf, -⟩ := h.ok.synSent hs
  rw [show u.retransmissionQueue = [seg₀] from hq] at hse
  have hw := ((h.ok.queue seg (by rw [hq]; exact hse)).resent hr).wellFormed
  obtain ⟨retries, retransmitAt, rfl⟩ := hr
  obtain rfl := mem_singleton.mp hse
  rw [sendSegment, hasFlag_sendSegmentTo u hw _ _ (by decide)]
  change ¬ hasFlag seg.flags tcpAck
  rw [hf]
  decide

omit he hlog in
theorem Ticking.established_of_compAck (h : Ticking base base' e u)
    (hc : u.block.sendingCompAck) : u.block.state = .established := by
  rcases h.ok.state with hs | hest | hl
  · cases hc.symm.trans (h.ok.synSent hs).2.2.1
  · exact hest
  · exact absurd hl h.opened

omit he hlog in
theorem Ticking.acked (h : Ticking base base' e u) (hest : u.block.state = .established) :
    Ticking base base' e { u with block := { u.block with sendingCompAck := false } } :=
  ⟨⟨⟨h.ok.firstSeq, h.ok.rxSize, h.ok.state, h.ok.passed_lt, h.ok.shut, h.ok.stream, h.ok.log,
    h.ok.rcvNxt, h.ok.queue_mono (.same rfl rfl rfl), h.ok.closed,
    fun hs => absurd (hest.symm.trans hs) noConfusion⟩,
    ⟨h.host.deviceAddress, h.host.sourcePort⟩, h.rxLog, h.state⟩, h.opened⟩

theorem stepped_tick {sent : List Packet} (h : e.tick now = .ok (e', sent)) :
    Stepped base base' stream e e' sent ∧ Silent e e' sent := by
  rw [Endpoint.tick] at h
  obtain ⟨⟨t, more⟩, ho, h⟩ := bind_eq_ok.mp h
  obtain ⟨rfl, rfl⟩ := Prod.mk.inj (Except.ok.inj h)
  have hi : Ticked base base' e t ∧ ∀ p ∈ more, Sent base base' e p ∧
      (e.socket.block.state ≠ .established → ¬ hasFlag p.header.bitvalues tcpAck) := by
    refine tick_invariant (P := Ticking base base' e) ?_ ?_ ?_ ?_ ?_
      (fun _ => ⟨he, ⟨rfl, rfl⟩, rfl, inl rfl⟩)
      (fun hop => ⟨⟨he, ⟨rfl, rfl⟩, rfl, inl rfl⟩, hop⟩) ho
    · intro u hu ha _
      refine ⟨hu.afterSegment ha now, ?_, fun hn => ?_⟩
      · exact hu.sent rfl ⟨rfl, rfl⟩ (hu.nextSegment ha now)
      · exact absurd (hu.state.resolve_right hu.opened ▸ hu.established ha) hn
    · intro u hu hco
      have hest := hu.established_of_compAck hco
      refine ⟨hu.acked hest, ?_, fun hn => absurd (hu.state.resolve_right hu.opened ▸ hest) hn⟩
      exact hu.sent rfl ⟨rfl, rfl⟩ (segmentOk_control _ tcpAck (by decide) (by decide) (by decide)
        fun _ => ⟨_, le_rfl, hu.ok.rcvNxt (inl hest)⟩)
    · intro u hu seg hse seg' hr
      exact ⟨hu.sent rfl ⟨rfl, rfl⟩ ((hu.ok.queue seg hse).resent hr), hu.not_ack hse hr⟩
    · exact fun u hu queue hl => hu.requeue hl
    · intro u hu
      refine ⟨⟨hu.ok.reset, ⟨hu.host.deviceAddress, hu.host.sourcePort⟩, hu.rxLog, inr rfl⟩,
        hu.sent (u := u) rfl ⟨rfl, rfl⟩ ?_, fun _ => not_ack_rst _⟩
      exact segmentOk_control _ tcpRst (by decide) (by decide) (by decide)
        fun h => absurd h (by decide)
  obtain ⟨⟨hk, hh, hx, ht⟩, hs⟩ := hi
  have hg : e.Grows { e with socket := t } := .same rfl hx rfl
  refine ⟨⟨hk, fun p hp => (hs p hp).1.mono hg hh, hg, hh, ?_⟩, fun hy => ?_,
    fun hn _ => ⟨fun hest => ?_, fun p hp => (hs p hp).2 hn⟩⟩
  · rw [hx]
    exact hlog
  · rcases ht with hsa | hc
    · exact hsa ▸ hy
    · cases hc.symm.trans hy
  · rcases ht with hsa | hc
    · exact hn (hsa ▸ hest)
    · cases hc.symm.trans hest

theorem stepped_act {a : LocalAction} {sent : List Packet} (h : e.act a = .ok (e', sent))
    (hlt : ∀ data dstAddr, a = .sendTo data dstAddr → (e.sendTo data dstAddr).passed.length < 2 ^
      31) :
    Stepped base base' stream e e' sent ∧ Silent e e' sent := by
  cases a with
  | sendTo data dstAddr =>
    cases h
    exact stepped_sendTo he hlog (hlt data dstAddr rfl)
  | sendPass =>
    cases h
    exact stepped_sendPass he hlog
  | receiveFrom len waitAll srcAddr =>
    cases h
    exact stepped_receiveFrom he hlog len waitAll srcAddr
  | receivePass =>
    have hq : e.receivePass = (e', sent) := Except.ok.inj h
    have hs := stepped_receivePass he hlog
    rw [hq] at hs
    exact hs
  | tick now => exact stepped_tick he hlog h

end Steps

/-! ### Segments -/

theorem Stepped.setOffered {sent : List Packet} (h : Stepped base base' stream e e' sent)
    (offered : ℕ) : Stepped base base' stream e { e' with offered := offered } sent where
  ok := h.ok.setOffered offered
  sent := fun p hp => (h.sent p hp).mono (.same rfl rfl rfl) ⟨rfl, rfl⟩
  grows := ⟨h.grows.passed, h.grows.rxLog, h.grows.read⟩
  host := ⟨h.host.deviceAddress, h.host.sourcePort⟩
  log := h.log

section Segments

variable {peer : Endpoint} (he : EndpointOk base base' e)
  (hest : e.socket.block.state = .established)
include he hest

theorem EndpointOk.acknowledged {h : TcpHeader} (ha : Acknowledged e.socket h a) :
    EndpointOk base base' { e with socket := a } ∧ SameHost e.socket a ∧
      a.block.state = .established ∧ a.block.rcvNxt = e.socket.block.rcvNxt ∧
      a.rxBuffer = e.socket.rxBuffer ∧ a.rxLog = e.socket.rxLog := by
  obtain ⟨⟨mss, una, wnd, queue, rfl⟩, hs, -⟩ := ha
  refine ⟨⟨he.firstSeq, he.rxSize, he.state, he.passed_lt, he.shut, he.stream, he.log, he.rcvNxt,
    fun seg hse => (he.queue seg (hs.subset hse)).mono (.same rfl rfl rfl),
    fun hc => absurd (hest.symm.trans hc) noConfusion,
    fun hy => absurd (hest.symm.trans hy) noConfusion⟩,
    ⟨rfl, rfl⟩, hest, rfl, rfl, rfl⟩

variable (hp : PacketOk base' base peer p) (hlt : peer.passed.length < 2 ^ 31)
  (hlog : e.socket.rxLog <+: peer.passed)
include hp hlt hlog

theorem prefix_of_next (hd : p.payload ≠ []) (hn : p.header.seqNumber = e.socket.block.rcvNxt) :
    e.socket.rxLog ++ p.payload <+: peer.passed := by
  obtain ⟨i, hse, hr⟩ := hp.data hd
  have ho := length_pos_iff.mpr hd
  have hl := hr.length_le
  have hc := hlog.length_le
  rw [length_drop] at hl
  rw [hn, he.rcvNxt (inl hest)] at hse
  obtain rfl := add_ofNat_inj (by omega) (by omega) hse
  obtain ⟨rest, hs⟩ := hlog
  rw [← hs, drop_left] at hr
  rw [← hs]
  exact (prefix_append_right_inj _).mpr hr

theorem position_of_old (hd : p.payload ≠ [])
    (hold : isBeforeOrEqual (p.header.seqNumber + ofNat 32 p.payload.length)
      e.socket.block.rcvNxt) :
    ∃ j ≤ e.socket.rxLog.length,
      p.header.seqNumber + ofNat 32 p.payload.length = base' + ofNat 32 j := by
  obtain ⟨i, hs, hr⟩ := hp.data hd
  have ho := length_pos_iff.mpr hd
  have hl := hr.length_le
  have hc := hlog.length_le
  rw [length_drop] at hl
  rw [hs, add_ofNat_add, he.rcvNxt (inl hest)] at hold
  exact ⟨i + p.payload.length, le_of_isBeforeOrEqual (by omega) (by omega) hold,
    by rw [hs, add_ofNat_add]⟩

theorem stepped_takeData (ha : Acknowledged e.socket p.header a) (hd : p.payload ≠ [])
    (hn : p.header.seqNumber = e.socket.block.rcvNxt)
    (ho : p.payload.length ≤ e.socket.rxBuffer.writeAvailable) :
    Stepped base base' peer.passed e { e with socket := a.takeData p.payload } [] := by
  have hr := prefix_of_next he hest hp hlt hlog hd hn
  obtain ⟨⟨mss, una, wnd, queue, rfl⟩, hu, -⟩ := ha
  have hh : e.socket.block.receiveShut = false :=
    (he.shut (by rw [hest]; exact noConfusion)).2
  have hw := e.socket.rxBuffer.contents_write ho
  have hg (s : TcpSocket) (hs : s.rxLog = e.socket.rxLog ++ p.payload) :
      e.Grows { e with socket := s } :=
    ⟨prefix_rfl, by rw [hs]; exact prefix_append _ _, le_rfl⟩
  rw [takeData]
  simp only [hh, Bool.false_eq_true, if_false]
  refine ⟨⟨he.firstSeq, (CircularBuffer.size_write _ _).trans he.rxSize, he.state, he.passed_lt,
    fun hop => ⟨(he.shut hop).1, rfl⟩, he.stream, ?_, fun _ => ?_,
    fun seg hse => (he.queue seg (hu.subset hse)).mono (hg _ rfl),
    fun hc => absurd (hest.symm.trans hc) noConfusion,
    fun hy => absurd (hest.symm.trans hy) noConfusion⟩,
    forall_mem_nil _, hg _ rfl, ⟨rfl, rfl⟩, hr⟩
  · rw [hw, he.log, append_assoc]
  rw [he.rcvNxt (inl hest), add_ofNat_add, length_append]

theorem stepped_packetReceivedOpen :
    Stepped base base' peer.passed e
      { e with socket := (e.socket.packetReceivedOpen p.buffer).1 }
      (e.socket.packetReceivedOpen p.buffer).2 ∧
    (e.socket.packetReceivedOpen p.buffer).1.block.state ≠ .synSent := by
  have hr := received_of_established hest (fun seg hse => (he.queue seg hse).fin) p.buffer hp.fin
  change Received e.socket p.header p.payload _ at hr
  generalize e.socket.packetReceivedOpen p.buffer = r at hr ⊢
  cases hr with
  | reset ha ht =>
    obtain ⟨ho, hh, -, -, hx, hrxL⟩ := he.acknowledged hest ha
    refine ⟨⟨ho.reset, fun q hq => ?_, .same rfl hrxL rfl,
      ⟨hh.deviceAddress, hh.sourcePort⟩, ?_⟩, noConfusion⟩
    · rw [ht q hq]
      exact ho.sent_rst.mono (.same rfl rfl rfl) ⟨rfl, rfl⟩
    · rw [← hrxL] at hlog
      exact hlog
  | nothing ha =>
    obtain ⟨ho, hh, hs, -, hx, hrxL⟩ := he.acknowledged hest ha
    exact ⟨⟨ho, forall_mem_nil _, .same rfl hrxL rfl, hh, hrxL.symm ▸ hlog⟩,
      by rw [hs]; exact noConfusion⟩
  | again ha hd hold =>
    obtain ⟨ho, hh, hs, -, hx, hrxL⟩ := he.acknowledged hest ha
    obtain ⟨j, hj, heq⟩ := position_of_old he hest hp hlt hlog hd hold
    refine ⟨⟨ho, fun q hq => ?_, .same rfl hrxL rfl, hh, hrxL.symm ▸ hlog⟩,
      by rw [hs]; exact noConfusion⟩
    rw [mem_singleton.mp hq]
    exact ho.sent_ack rfl ⟨rfl, rfl⟩ (hrxL.symm ▸ hj) heq
  | taken ha hd hn hro =>
    obtain ⟨-, -, hs, -⟩ := he.acknowledged hest ha
    refine ⟨stepped_takeData he hest hp hlt hlog ha hd hn hro, fun hy => ?_⟩
    exact noConfusion (hs.symm.trans hy)

end Segments

theorem EndpointOk.sndNxt_of_synSent
    (he : EndpointOk base base' e) (hs : e.socket.block.state = .synSent) :
    e.socket.block.sndNxt = base := by
  obtain ⟨k, hk, hn, -⟩ := he.stream (by rw [hs]; exact noConfusion)
  rw [(he.synSent hs).1] at hk
  rw [hn, Nat.le_zero.mp hk]
  exact BitVec.add_zero base

/-- The answer of a listener to the SYN of a connection with first byte `base`. -/
structure SynAck (base peerBase : BitVec 32) (p : Packet) : Prop where
  rst : ¬ hasFlag p.header.bitvalues tcpRst
  syn : hasFlag p.header.bitvalues tcpSyn
  ack : hasFlag p.header.bitvalues tcpAck
  fin : ¬ hasFlag p.header.bitvalues tcpFin
  seqNumber : p.header.seqNumber + 1 = peerBase
  ackNumber : p.header.ackNumber = base
  payload : p.payload = []
  window : p.header.window = 8191

theorem stepped_synAck (he : EndpointOk base base' e) (hs : e.socket.block.state = .synSent)
    (hp : SynAck base base' p) :
    Stepped base base' [] e { e with socket := (e.socket.packetReceivedOpen p.buffer).1 }
      (e.socket.packetReceivedOpen p.buffer).2 ∧
    (e.socket.packetReceivedOpen p.buffer).1.block.state = .established := by
  obtain ⟨-, hlog, -, seg, hu, hf, hw⟩ := he.synSent hs
  have hop : e.socket.block.state ≠ .closed := by
    rw [hs]
    exact noConfusion
  have hb := he.sndNxt_of_synSent hs
  obtain ⟨mss, una, wnd, heq, -⟩ := packetReceivedOpen_synAck hs hu hf hw
    p.buffer hp.rst hp.syn hp.ack hp.fin (hp.ackNumber.trans hb.symm) hp.payload
  have hn : (TcpHeader.parse p.buffer).seqNumber + 1 = base' + ofNat 32 0 :=
    hp.seqNumber.trans (BitVec.add_zero base').symm
  rw [heq]
  have ho : EndpointOk base base' { e with socket := { e.socket with
      block := { e.socket.block with
        state := .established, rcvNxt := (TcpHeader.parse p.buffer).seqNumber + 1,
        sndMss := mss, sndUna := una, sndWnd := wnd }
      retransmissionQueue := [] } } := by
    refine ⟨he.firstSeq, he.rxSize, inr (inl rfl), he.passed_lt, fun _ => he.shut hop,
      fun _ => he.stream hop, he.log, fun _ => ?_, forall_mem_nil _, fun _ => rfl, nofun⟩
    dsimp only
    rw [hn, hlog]
    rfl
  refine ⟨⟨ho, fun q hq => ?_, .same rfl rfl rfl, ⟨rfl, rfl⟩, by rw [hlog]⟩, rfl⟩
  rw [mem_singleton.mp hq]
  exact ho.sent_ack rfl ⟨rfl, rfl⟩ (Nat.zero_le _) hn

end AexKernel.Net
