import AexKernel.Net.TcpStream

/-! # The streams of a connection stay intact

`Connection.Inv` relates the two ends of a connection, the half-open connections of the listener and
all packets ever sent. -/

namespace AexKernel.Net

open Library Mem List TcpSocket Option TcpState

/-! ## Packets at the two ends -/

variable {e e' : Endpoint}

theorem Endpoint.packetReceived_cases (hl : e.socket.block.state ≠ .listen) (src : IPv4Addr)
    (port : BitVec 16) (buf : List (BitVec 8)) (now : ℕ) :
    e.packetReceived src port buf now = (e, [], none) ∨
    (e.socket.block.state ≠ .closed ∧
      (src = e.socket.destinationAddress ∨ port = e.socket.destinationPort) ∧
      e.packetReceived src port buf now =
        ({ e with
            socket := (e.socket.packetReceivedOpen buf).1
            offered := e.offeredAfter src port (TcpHeader.parse buf) },
          (e.socket.packetReceivedOpen buf).2, none)) := by
  rw [Endpoint.packetReceived, TcpSocket.packetReceived]
  split_ifs with ho hc
  · left
    rw [Endpoint.offeredAfter, if_neg fun h => h.2.2.elim ho.2.1 ho.2.2]
  · left
    rw [Endpoint.offeredAfter, if_neg fun h => h.2.1 hc]
  right
  refine ⟨hc, ?_, rfl⟩
  by_contra hn
  exact ho ⟨hl, fun h => hn (Or.inl h), fun h => hn (Or.inr h)⟩

variable {base base' first : BitVec 32}

theorem EndpointOk.not_listen (he : EndpointOk base base' e) :
    e.socket.block.state ≠ .listen := fun hl => by
  rcases he.state with hs | hs | hs <;> cases hl.symm.trans hs

variable {s client : TcpSocket}

theorem TcpSocket.packetReceived_listen (hl : s.block.state = .listen) (src : IPv4Addr)
    (srcPort : BitVec 16) (buffer : List (BitVec 8)) (uptime : ℕ) :
    s.packetReceived src srcPort buffer uptime =
      s.packetReceivedListen src srcPort buffer uptime := by
  rw [packetReceived, if_neg fun h => h.1 hl, if_pos hl, hl]
  rfl

theorem SynAck.packetOk {p : Packet} (h : SynAck base first p) (e : Endpoint) :
    PacketOk base' base e p where
  fin := h.fin
  data := fun hn => absurd h.payload hn
  ack := fun _ => by
    refine ⟨0, Nat.zero_le _, h.ackNumber.trans (BitVec.add_zero base).symm, ?_⟩
    rw [h.window, Endpoint.edge]
    omega

variable {entry : TcpListenEntry}

theorem synAck_sendSegmentTo (hr : s.rxBuffer.readAvailable = 0) (he : entry.block.rcvNxt = base)
    (src : IPv4Addr) (port : BitVec 16) :
    SynAck base entry.block.sndNxt (s.sendSegmentTo (TcpSocket.synAck entry) src port) := by
  have hw : (synAck entry).WellFormed :=
    ⟨Or.inr ⟨rfl, rfl⟩, (by decide : tcpSyn ||| tcpAck < 4096)⟩
  have hf {flag : ℕ} (hl : flag < 4096) := s.hasFlag_sendSegmentTo hw src port hl
  constructor
  · rw [hf (by decide)]
    exact (by decide : ¬ hasFlag (tcpSyn ||| tcpAck) tcpRst)
  · rw [hf (by decide)]
    exact (by decide : hasFlag (tcpSyn ||| tcpAck) tcpSyn)
  · rw [hf (by decide)]
    exact (by decide : hasFlag (tcpSyn ||| tcpAck) tcpAck)
  · rw [hf (by decide)]
    exact (by decide : ¬ hasFlag (tcpSyn ||| tcpAck) tcpFin)
  · rw [s.seqNumber_sendSegmentTo hw]
    exact BitVec.sub_add_cancel _ _
  · rw [s.ackNumber_sendSegmentTo hw]
    exact he
  · rw [s.payload_sendSegmentTo hw]
    rfl
  · rw [s.window_sendSegmentTo hw, getWindow_eq, hr]

/-! ## The invariant -/

/-- A half-open connection to the client whose first byte has the number `base`. -/
structure HalfOpen (base : BitVec 32) (client : TcpSocket) (entry : TcpListenEntry) : Prop where
  sourceAddress : entry.sourceAddress = client.deviceAddress
  sourcePort : entry.sourcePort = client.sourcePort
  rcvNxt : entry.block.rcvNxt = base
  sendShut : entry.block.sendShut = false
  receiveShut : entry.block.receiveShut = false

/-- A listener that has heard of the client only. -/
structure ListenerOk (base : BitVec 32) (client listener : TcpSocket) : Prop where
  state : listener.block.state = .listen
  queue : listener.listenQueue.isSome
  rxBuffer : listener.rxBuffer.readAvailable = 0
  rxLog : listener.rxLog = []
  entries : ∀ entry ∈ listener.entries, HalfOpen base client entry

namespace Connection

/-- The server's end; until a socket has been accepted it has sent and received nothing. -/
def server (c : Connection) : Endpoint := c.accepted.getD { socket := c.listener }

/-- The connection during the handshake. -/
structure Handshake (base peerBase : BitVec 32) (c : Connection) : Prop where
  rxLog : c.client.socket.rxLog = []
  entries : ∀ entry ∈ c.listener.entries,
    entry.block.sndNxt = peerBase ∧ entry.block.sndWnd = 8191
  answers : ∀ p ∈ c.toClient, SynAck base peerBase p
  idle : c.listener.entries = [] → c.toClient = [] ∧
    c.client.socket.block.state ≠ .established ∧
    ∀ p ∈ c.toServer, ¬ hasFlag p.header.bitvalues tcpAck

/-- The connection once the server's end exists. -/
structure Accepted (base peerBase : BitVec 32) (c : Connection) (e : Endpoint) : Prop where
  ok : EndpointOk peerBase base e
  state : e.socket.block.state ≠ .synSent
  toClient : ∀ p ∈ c.toClient, PacketOk peerBase base e p
  received : e.socket.rxLog <+: c.client.passed
  returned : c.client.socket.rxLog <+: e.passed

/-- **The invariant of a connection.** -/
structure Inv (base peerBase : BitVec 32) (c : Connection) : Prop where
  client : EndpointOk base peerBase c.client
  listener : ListenerOk base c.client.socket c.listener
  toServer : ∀ p ∈ c.toServer, Sent base peerBase c.client p
  synSent : c.client.socket.block.state = .synSent →
    c.accepted = none ∧ ∀ p ∈ c.toServer, ¬ hasFlag p.header.bitvalues tcpAck
  handshake : c.accepted = none → Handshake base peerBase c
  accepted : ∀ e, c.accepted = some e → Accepted base peerBase c e

section Steps

variable {c : Connection} (h : Inv base base' c)
include h

theorem Inv.returned : c.client.socket.rxLog <+: c.server.passed := by
  cases ha : c.accepted with
  | none => rw [(h.handshake ha).rxLog]; exact nil_prefix
  | some e =>
    rw [server, ha]
    exact (h.accepted e ha).returned

variable {p : Packet}

theorem Inv.packetOk (hp : p ∈ c.toClient) : PacketOk base' base c.server p := by
  cases ha : c.accepted with
  | none => exact ((h.handshake ha).answers p hp).packetOk _
  | some e =>
    rw [server, ha]
    exact (h.accepted e ha).toClient p hp

theorem Inv.server_passed_lt : c.server.passed.length < 2 ^ 31 := by
  cases ha : c.accepted with
  | none =>
    rw [server, ha]
    exact Nat.two_pow_pos 31
  | some e =>
    rw [server, ha]
    exact (h.accepted e ha).ok.passed_lt

/-! ### Steps of the client -/

variable {sent : List Packet}

theorem Inv.setClient (hs : Stepped base base' c.server.passed c.client e sent)
    (hy : e.socket.block.state = .synSent → c.client.socket.block.state = .synSent ∧ ∀ p ∈ sent,
      ¬ hasFlag p.header.bitvalues tcpAck)
    (hi : c.accepted = none → c.listener.entries = [] → e.socket.block.state ≠ .established ∧
      ∀ p ∈ sent, ¬ hasFlag p.header.bitvalues tcpAck) :
    Inv base base' { c with client := e, toServer := c.toServer ++ sent } where
  client := hs.ok
  listener :=
    { h.listener with
      entries := fun entry he =>
        { h.listener.entries entry he with
          sourceAddress := (h.listener.entries entry he).sourceAddress.trans
            hs.host.deviceAddress.symm
          sourcePort := (h.listener.entries entry he).sourcePort.trans
            hs.host.sourcePort.symm } }
  toServer := forall_mem_append.mpr
    ⟨fun p hp => (h.toServer p hp).mono hs.grows hs.host, hs.sent⟩
  synSent := fun ht =>
    ⟨(h.synSent (hy ht).1).1, forall_mem_append.mpr ⟨(h.synSent (hy ht).1).2, (hy ht).2⟩⟩
  handshake := fun hc =>
    have hh := h.handshake hc
    { rxLog := by
        have hl := hs.log
        rw [server, show c.accepted = none from hc] at hl
        exact prefix_nil.mp hl
      entries := hh.entries
      answers := hh.answers
      idle := fun hn => ⟨(hh.idle hn).1, (hi hc hn).1,
        forall_mem_append.mpr ⟨(hh.idle hn).2.2, (hi hc hn).2⟩⟩ }
  accepted := fun peer hc =>
    have ha := h.accepted peer hc
    { ha with
      toClient := ha.toClient
      received := ha.received.trans hs.grows.passed
      returned := by
        have hl := hs.log
        rw [server, show c.accepted = some peer from hc] at hl
        exact hl }

theorem Inv.setClient_silent
    (hs : Stepped base base' c.server.passed c.client e sent ∧ Silent c.client e sent) :
    Inv base base' { c with client := e, toServer := c.toServer ++ sent } := by
  refine h.setClient hs.1 (fun ht => ?_) (fun ha hn => ?_)
  · have hy := hs.2.synSent ht
    refine ⟨hy, (hs.2.idle ?_ (h.client.synSent hy).2.1).2⟩
    rw [hy]
    exact noConfusion
  · exact hs.2.idle ((h.handshake ha).idle hn).2.1 (h.handshake ha).rxLog

theorem Inv.server_rxLog_lt : c.server.socket.rxLog.length < 2 ^ 31 := by
  cases ha : c.accepted with
  | none =>
    rw [server, ha, getD_none, h.listener.rxLog]
    exact Nat.two_pow_pos 31
  | some e =>
    rw [server, ha]
    exact (h.accepted e ha).received.length_le.trans_lt h.client.passed_lt

theorem Inv.deliverClient (hp : p ∈ c.toClient) (now : ℕ) :
    Inv base base' (c.deliverClient p now) := by
  rw [Connection.deliverClient]
  rcases Endpoint.packetReceived_cases h.client.not_listen p.src p.header.sourcePort p.buffer now
    with ha | ⟨hop, -, hq⟩
  · rw [ha]
    exact h.setClient_silent (stepped_self h.client h.returned)
  rw [hq]
  rcases h.client.state with hs | he | hc
  · -- the handshake: the packet is the answer to the SYN
    have hh := h.handshake (h.synSent hs).1
    obtain ⟨ht, hst⟩ := stepped_synAck h.client hs (hh.answers p hp)
    have hpa : c.server.passed = [] := by rw [server, (h.synSent hs).1]; rfl
    refine h.setClient (hpa ▸ ht.setOffered _)
      (fun ho => absurd (hst.symm.trans ho) noConfusion) (fun _ hn => ?_)
    rw [(hh.idle hn).1] at hp
    exact absurd hp not_mem_nil
  · obtain ⟨ht, hst⟩ :=
      stepped_packetReceivedOpen h.client he (h.packetOk hp) h.server_passed_lt h.returned
    exact h.setClient (ht.setOffered _) (fun ho => absurd ho hst)
      fun hac hn => absurd he ((h.handshake hac).idle hn).2.1
  · exact absurd hc hop

/-! ### Steps of the accepted socket -/

theorem Inv.setAccepted (hc : c.accepted = some e)
    (hs : Stepped base' base c.client.passed e e' sent)
    (ht : e'.socket.block.state ≠ .synSent) :
    Inv base base' { c with accepted := some e', toClient := c.toClient ++ sent } where
  client := h.client
  listener := h.listener
  toServer := h.toServer
  synSent := fun hy => absurd ((h.synSent hy).1.symm.trans hc) (some_ne_none e).symm
  handshake := fun hn => absurd hn (some_ne_none e')
  accepted := fun x hx => by
    cases hx
    have ha := h.accepted e hc
    exact
      { ok := hs.ok
        state := ht
        toClient := forall_mem_append.mpr
          ⟨fun p hp => (ha.toClient p hp).mono hs.grows,
            fun p hp => (hs.sent p hp).toPacketOk⟩
        received := hs.log
        returned := ha.returned.trans hs.grows.passed }

theorem Inv.deliverAccepted (hc : c.accepted = some e) (hp : p ∈ c.toServer) (now : ℕ) :
    Inv base base' { c with
      accepted := some (e.packetReceived p.src p.header.sourcePort p.buffer now).1
      toClient :=
        c.toClient ++ (e.packetReceived p.src p.header.sourcePort p.buffer now).2.1 } := by
  have ha := h.accepted e hc
  rcases Endpoint.packetReceived_cases ha.ok.not_listen p.src p.header.sourcePort p.buffer
    now with hsa | ⟨hop, -, he⟩
  · rw [hsa]
    exact h.setAccepted hc (stepped_self ha.ok ha.received).1 ha.state
  rw [he]
  have hes : e.socket.block.state = .established :=
    (ha.ok.state.resolve_left ha.state).resolve_right hop
  obtain ⟨hs, ht⟩ := stepped_packetReceivedOpen ha.ok hes
    (h.toServer p hp).toPacketOk h.client.passed_lt ha.received
  exact h.setAccepted hc (hs.setOffered _) ht

/-! ### Steps of the listener -/

theorem Inv.rebase (ha : c.accepted = none) (hn : c.listener.entries = [])
    (first : BitVec 32) : Inv base first c := by
  obtain ⟨-, ho, hc⟩ := (h.handshake ha).idle hn
  have hl := (h.handshake ha).rxLog
  refine
    { client :=
        { h.client with
          rcvNxt := fun hr => hr.elim (absurd · ho) fun hcl => absurd hl hcl.2
          queue := fun seg hs => { h.client.queue seg hs with ack := fun hf => ?_ } }
      listener := h.listener
      toServer := fun p hp => { h.toServer p hp with ack := fun hf => absurd hf (hc p hp) }
      synSent := h.synSent
      handshake := fun _ =>
        { h.handshake ha with
          entries := hn ▸ forall_mem_nil _
          answers := ((h.handshake ha).idle hn).1 ▸ forall_mem_nil _ }
      accepted := fun e he => absurd (ha.symm.trans he) (some_ne_none e).symm }
  -- the queue holds the SYN at most
  rcases h.client.state with hy | hes | hcl
  · obtain ⟨-, -, -, seg₀, hq, hfl, -⟩ := h.client.synSent hy
    rw [hq] at hs
    rw [mem_singleton.mp hs, hfl] at hf
    exact absurd hf (by decide)
  · exact absurd hes ho
  rw [h.client.closed hcl] at hs
  exact absurd hs not_mem_nil

theorem Inv.halfOpen (hp : p ∈ c.toServer) (hs : hasFlag p.header.bitvalues tcpSyn) (now : ℕ) :
    HalfOpen base c.client.socket
      { sourceAddress := p.src, sourcePort := p.header.sourcePort
        block := halfOpen p.header now } where
  sourceAddress := (h.toServer p hp).src
  sourcePort := (h.toServer p hp).port
  rcvNxt := (h.toServer p hp).syn hs
  sendShut := rfl
  receiveShut := rfl

theorem Inv.entries_eq_nil (hp : p ∈ c.toServer)
    (hn : c.listener.getListenEntry p.src p.header.sourcePort = none) :
    c.listener.entries = [] := by
  rw [eq_nil_iff_forall_not_mem]
  intro entry he
  refine find?_eq_none.mp hn entry he ?_
  rw [(h.listener.entries entry he).sourceAddress, (h.listener.entries entry he).sourcePort,
    (h.toServer p hp).src, (h.toServer p hp).port]
  simp only [beq_self_eq_true, Bool.and_self]

omit h in
theorem listenerOk_of_listened {P : TcpListenEntry → Prop} {src : IPv4Addr} {port : BitVec 16}
    {hd : TcpHeader} {r : TcpSocket × List Packet × Option TcpSocket}
    (hs : ListenerOk base client s) (hr : Listened P s src port hd r)
    (hP : ∀ entry, P entry → HalfOpen base client entry) : ListenerOk base client r.1 := by
  obtain ⟨⟨queue, accepted, backlog, hq⟩, hn, -, hu, -, -⟩ := hr
  refine ⟨?_, hu hs.queue, ?_, ?_, fun entry he => hP entry (hn entry he)⟩
  · rw [hq]
    exact hs.state
  · rw [hq]
    exact hs.rxBuffer
  · rw [hq]
    exact hs.rxLog

omit h in
theorem endpointOk_accept (he : HalfOpen base client entry) (hf : entry.block.sndNxt = base')
    (p : Packet) :
    EndpointOk base' base (accept (s.ofListenEntry
      { entry with block := { entry.block with state := .established } }) p) where
  firstSeq := hf
  rxSize := rfl
  state := Or.inr (Or.inl rfl)
  passed_lt := Nat.two_pow_pos 31
  shut := fun _ => ⟨he.sendShut, he.receiveShut⟩
  stream := fun _ => by
    refine ⟨0, le_rfl, hf.trans (BitVec.add_zero base').symm, ?_⟩
    exact (congrArg (· ++ []) (CircularBuffer.contents_new tcpTxBufferSize (by decide))).symm
  log := (CircularBuffer.contents_new tcpRxBufferSize (by decide)).symm
  rcvNxt := fun _ => he.rcvNxt.trans (BitVec.add_zero base).symm
  queue := forall_mem_nil _
  closed := fun _ => rfl
  synSent := nofun

theorem Inv.listened (hp : p ∈ c.toServer) (now : ℕ) :
    Listened (HalfOpen base c.client.socket) c.listener p.src p.header.sourcePort p.header
      (c.listener.packetReceived p.src p.header.sourcePort p.buffer now) := by
  rw [packetReceived_listen h.listener.state]
  exact listened_packetReceivedListen _ _ _ _ h.listener.entries
    (fun hs _ => h.halfOpen hp hs now)
    (fun entry mss _ he => ⟨he.sourceAddress, he.sourcePort, he.rcvNxt,
      he.sendShut, he.receiveShut⟩)

theorem Inv.listened_handshake (ha : c.accepted = none) (hp : p ∈ c.toServer)
    (now : ℕ) : ∃ first, Inv base first c ∧
      Listened (fun entry => HalfOpen base c.client.socket entry ∧
        entry.block.sndNxt = first ∧ entry.block.sndWnd = 8191)
        c.listener p.src p.header.sourcePort p.header
        (c.listener.packetReceived p.src p.header.sourcePort p.buffer now) := by
  obtain ⟨first, h, hf⟩ : ∃ first, Inv base first c ∧
      (c.listener.entries = [] → first = initialSeq now + 1) := by
    by_cases hn : c.listener.entries = []
    · exact ⟨_, h.rebase ha hn _, fun _ => rfl⟩
    · exact ⟨base', h, fun hno => absurd hno hn⟩
  have hh := h.handshake ha
  refine ⟨first, h, ?_⟩
  rw [packetReceived_listen h.listener.state]
  exact listened_packetReceivedListen _ _ _ _
    (fun entry he => ⟨h.listener.entries entry he, hh.entries entry he⟩)
    (fun hs ho => ⟨h.halfOpen hp hs now, (hf (h.entries_eq_nil hp ho)).symm,
      (h.toServer p hp).window hh.rxLog⟩)
    (fun entry mss _ he =>
      ⟨⟨he.1.sourceAddress, he.1.sourcePort, he.1.rcvNxt, he.1.sendShut,
        he.1.receiveShut⟩, he.2⟩)

theorem Inv.deliverListener_handshake (ha : c.accepted = none)
    (hp : p ∈ c.toServer) (now : ℕ) : ∃ first, Inv base first (c.deliverListener p now) := by
  obtain ⟨first, h, hi⟩ := h.listened_handshake ha hp now
  have hh := h.handshake ha
  have hl := listenerOk_of_listened h.listener hi fun _ hn => hn.1
  refine ⟨first, ?_⟩
  rw [deliverListener, ha]
  generalize c.listener.packetReceived p.src p.header.sourcePort p.buffer now = r
    at hi hl ⊢
  obtain ⟨listener, sent, spawned⟩ := r
  have han : ∀ q ∈ c.toClient ++ sent, SynAck base first q :=
    forall_mem_append.mpr ⟨hh.answers, fun q hq => by
      obtain ⟨entry, hn, rfl⟩ := hi.answers q hq
      exact hn.2.1 ▸ synAck_sendSegmentTo h.listener.rxBuffer hn.1.rcvNxt _ _⟩
  cases spawned with
  | none =>
    refine ⟨h.client, hl, h.toServer, fun hs => ⟨rfl, (h.synSent hs).2⟩,
      fun _ => ⟨hh.rxLog, fun entry hn => (hi.entries entry hn).2, han,
        fun hnil => ?_⟩, fun e he => absurd he (some_ne_none e).symm⟩
    have hw := hi.waiting h.listener.queue rfl
    have hen : c.listener.entries = [] := by
      by_contra hne
      exact hw (Or.inl hne) hnil
    have hse : sent = [] := by
      by_contra hne
      exact hw (Or.inr hne) hnil
    obtain ⟨hc, hr⟩ := hh.idle hen
    refine ⟨?_, hr⟩
    rw [hc, hse]
    rfl
  | some child =>
    obtain ⟨hf, entry, hn, rfl⟩ := hi.spawned child rfl
    refine ⟨h.client, hl, h.toServer, fun hs => absurd hf ((h.synSent hs).2 p hp),
      fun ho => absurd ho (some_ne_none _), fun e he => ?_⟩
    cases he
    exact ⟨endpointOk_accept hn.1 hn.2.1 p, noConfusion,
      fun q hq => (han q hq).packetOk _, nil_prefix,
      by rw [hh.rxLog]; exact nil_prefix⟩

theorem Inv.deliverListener_closed (hc : c.accepted = some e) (hp : p ∈ c.toServer) (now : ℕ) :
    Inv base base' (c.deliverListener p now) := by
  have ha := h.accepted e hc
  have hi := h.listened hp now
  have hl := listenerOk_of_listened h.listener hi fun _ he => he
  rw [deliverListener, hc]
  generalize c.listener.packetReceived p.src p.header.sourcePort p.buffer now = r
    at hi hl ⊢
  obtain ⟨listener, sent, spawned⟩ := r
  refine ⟨h.client, hl, h.toServer, fun hs => ?_, fun hn => ?_, fun x hx => ?_⟩
  · exact absurd ((h.synSent hs).1.symm.trans hc) (some_ne_none e).symm
  · exact absurd hn (some_ne_none e)
  cases hx
  refine { ha with toClient := forall_mem_append.mpr ⟨ha.toClient, ?_⟩ }
  intro q hq
  obtain ⟨entry, he, rfl⟩ := hi.answers q hq
  exact (synAck_sendSegmentTo h.listener.rxBuffer he.rcvNxt _ _).packetOk _

theorem Inv.step {a : ConnectionAction} {c' : Connection} (hi : Single c a)
    (hs : c.step a = .ok c') : ∃ first, Inv base first c' := by
  cases a with
  | act side a =>
    cases side with
    | client =>
      obtain ⟨⟨e, sent⟩, ht, hc'⟩ := bind_eq_ok.mp hs
      cases hc'
      refine ⟨base', h.setClient_silent (stepped_act h.client h.returned ht ?_)⟩
      rintro data dstAddr rfl
      exact hi c.client rfl
    | server =>
      rw [Connection.step] at hs
      cases hc : c.accepted with
      | none =>
        rw [hc] at hs
        cases hs
        exact ⟨base', h⟩
      | some e =>
        rw [hc] at hs
        obtain ⟨⟨e', sent⟩, ht, hc'⟩ := bind_eq_ok.mp hs
        cases hc'
        have ha := h.accepted e hc
        obtain ⟨hst, hsi⟩ := stepped_act ha.ok ha.received ht <| by
          rintro data dstAddr rfl
          exact hi e hc
        exact ⟨base', h.setAccepted hc hst fun hy =>
          ha.state (hsi.synSent hy)⟩
  | connectEnd =>
    cases hs
    exact ⟨base', h.setClient_silent (stepped_connectEnd h.client h.returned)⟩
  | deliver side index uptime =>
    cases side
    all_goals
      rw [Connection.step] at hs
      split at hs
      · cases hs
        exact ⟨base', h⟩
      rename_i p hp
      cases hs
      have hm := mem_of_getElem? hp
    · exact ⟨base', h.deliverClient hm uptime⟩
    · rw [deliverServer]
      split
      · next hc => exact h.deliverListener_handshake hc hm uptime
      next e hc =>
      split_ifs with hl
      · exact ⟨base', h.deliverListener_closed hc hm uptime⟩
      · exact ⟨base', h.deliverAccepted hc hm uptime⟩

end Steps

/-! ## Runs -/

theorem endpointOk_connect (base' : BitVec 32) (deviceAddress addr : IPv4Addr)
    (sourcePort port : BitVec 16) (now : ℕ) :
    EndpointOk (initialSeq now + 1) base'
      (Endpoint.connect { socket := { deviceAddress := deviceAddress, sourcePort := sourcePort } }
        addr port now).1 where
  firstSeq := rfl
  rxSize := rfl
  state := Or.inl rfl
  passed_lt := Nat.two_pow_pos 31
  shut := fun _ => ⟨rfl, rfl⟩
  stream := fun _ => by
    refine ⟨0, le_rfl, (BitVec.add_zero _).symm, ?_⟩
    exact (congrArg (· ++ []) (CircularBuffer.contents_resize _)).symm
  log := (CircularBuffer.contents_resize _).symm
  rcvNxt := nofun
  queue := fun seg hs => by
    obtain rfl := mem_singleton.mp hs
    refine ⟨⟨Or.inr ⟨rfl, rfl⟩, (by decide : tcpSyn < 4096)⟩,
      (by decide : ¬ hasFlag tcpSyn tcpFin), fun _ => rfl, fun hn => absurd rfl hn,
      fun ha => absurd ha (by decide : ¬ hasFlag tcpSyn tcpAck)⟩
  closed := nofun
  synSent := fun _ => ⟨rfl, rfl, rfl, _, rfl, rfl, rfl⟩

theorem inv_start (ca : IPv4Addr) (cp : BitVec 16) (sa : IPv4Addr)
    (sp : BitVec 16) (n : ℤ) (now : ℕ) :
    Inv (TcpSocket.initialSeq now + 1) 0
      (start ca cp sa sp n now) := by
  have ho := endpointOk_connect 0 ca sa cp sp now
  have ha : ∀ p ∈ (start ca cp sa sp n now).toServer,
      Sent (initialSeq now + 1) 0
        (start ca cp sa sp n now).client p ∧
      ¬ hasFlag p.header.bitvalues tcpAck := fun p hp => by
    obtain rfl := mem_singleton.mp hp
    have hs := ho.queue _ (mem_singleton.mpr rfl)
    refine ⟨sent_sendSegment ho.log ⟨rfl, rfl⟩ hs, ?_⟩
    rw [sendSegment, hasFlag_sendSegmentTo _ hs.wellFormed _ _ (by decide)]
    exact (by decide : ¬ hasFlag tcpSyn tcpAck)
  exact
    { client := ho
      listener := ⟨rfl, rfl, rfl, rfl, forall_mem_nil _⟩
      toServer := fun p hp => (ha p hp).1
      synSent := fun _ => ⟨rfl, fun p hp => (ha p hp).2⟩
      handshake := fun _ => ⟨rfl, forall_mem_nil _, forall_mem_nil _, fun _ =>
        ⟨rfl, noConfusion, fun p hp => (ha p hp).2⟩⟩
      accepted := fun e he => absurd he (some_ne_none e).symm }

theorem Run.inv {ca sa : IPv4Addr} {cp sp : BitVec 16}
    {n : ℤ} {now : ℕ} {c : Connection}
    (run : Run (start ca cp sa sp n now) c) :
    ∃ base', Inv (TcpSocket.initialSeq now + 1) base' c := by
  refine Reach.invariant (P := fun c => ∃ base', Inv (initialSeq now + 1) base' c)
    ⟨0, inv_start _ _ _ _ _ _⟩ ?_ run
  rintro c a c' ⟨base', h⟩ hs ht
  exact h.step hs ht

end Connection

/-- The stream from a sender to a receiver is intact. -/
structure Endpoint.Intact (sender receiver : Endpoint) : Prop where
  written : receiver.socket.rxLog = receiver.read ++ receiver.socket.rxBuffer.contents
  received : receiver.socket.rxLog <+: sender.passed

/-- **Stream integrity.** Whatever the network loses, duplicates, delays or reorders, in every state
of a single connection both streams are intact; until the handshake has made the server's socket
the client has received nothing. -/
theorem Connection.intact {clientAddress serverAddress : IPv4Addr}
    {clientPort serverPort : BitVec 16} {backlog : ℤ} {uptime : ℕ} {c : Connection}
    (run : Run (start clientAddress clientPort serverAddress serverPort backlog uptime) c) :
    (c.accepted = none → c.client.socket.rxLog = []) ∧
    ∀ e, c.accepted = some e → e.Intact c.client ∧ c.client.Intact e := by
  obtain ⟨peerBase, h⟩ := run.inv
  refine ⟨fun hac => (h.handshake hac).rxLog, fun e hac => ?_⟩
  have hacce := h.accepted e hac
  exact ⟨⟨h.client.log, hacce.returned⟩, ⟨hacce.ok.log, hacce.received⟩⟩

/-- The handshake, and one byte from the client to the server. -/
def Connection.sendByte : List ConnectionAction :=
  [.deliver .server 0 0, .deliver .client 0 0, .deliver .server 1 0,
   .act .client (.sendTo [0x61#8] none), .act .client .sendPass, .act .client (.tick 0),
   .deliver .server 2 0]

theorem Connection.intact_sendByte : ∃ c e, Run (start 1 49152 2 80 8 0) c ∧
    c.accepted = some e ∧ e.socket.rxLog = [0x61#8] ∧ c.client.Intact e := by
  have hfa : ∃ c ∈ execute step Single (start 1 49152 2 80 8 0) sendByte,
      ∃ e ∈ c.accepted, e.socket.rxLog = [0x61#8] := by decide
  obtain ⟨c, hex, e, hac, hlog⟩ := hfa
  have run : Run (start 1 49152 2 80 8 0) c := Reach.refl.execute hex
  exact ⟨c, e, run, hac, hlog, ((intact run).2 e hac).2⟩

end AexKernel.Net
