import AexKernel.Basic
import AexKernel.Mem.CircularBuffer
import AexKernel.Net.TcpHeader

/-! # TCP sockets (`socket/inet/tcp.cpp`)

`TCPSocket` as a record and its methods as functions that return the socket after the call and the
packets that the call put on the wire. -/

namespace AexKernel.Net

open Library Mem

/-- `TCP_RETRANSMIT_INTERVAL`, in nanoseconds. -/
def tcpRetransmitInterval : ℕ := 2 * 1000000000
/-- `TCP_RETRIES`. -/
def tcpRetries : ℕ := 5
/-- `TCP_TX_BUFFER_SIZE`. -/
def tcpTxBufferSize : ℕ := 4096
/-- `TCP_RX_BUFFER_SIZE`. -/
def tcpRxBufferSize : ℕ := 8192 + 64
/-- `TCP_MIN_MSS`. -/
def tcpMinMss : ℕ := 256
/-- `TCP_PROBE_SLACK`. -/
def tcpProbeSlack : ℕ := 64

theorem tcpTxBufferSize_pos : 0 < tcpTxBufferSize := by decide

theorem tcpRxBufferSize_pos : 0 < tcpRxBufferSize := by decide

/-- `tcp_state_t`. -/
inductive TcpState
  | listen | synSent | synReceived | established | finWait1 | finWait2 | closeWait | closing
  | lastAck | timeWait | closed
  deriving DecidableEq, Repr

/-- The errors of the socket calls. -/
inductive NetError
  | einval | epipe | eisconn | enotconn | econnrefused
  deriving DecidableEq, Repr

/-- `tcp_block`. -/
structure TcpBlock where
  state : TcpState := .closed
  sndUna : BitVec 32 := 0
  sndNxt : BitVec 32 := 0
  sndWnd : ℕ := 0
  sndMss : ℕ := 0
  rcvNxt : BitVec 32 := 0
  sendingCompAck : Bool := false
  notifyOfWindowSize : Bool := false
  closing : Bool := false
  sendShut : Bool := false
  receiveShut : Bool := false
  deriving DecidableEq, Repr

/-- `TCPSocket::segment`; `len` is the length of `data`. -/
structure Segment where
  seq : BitVec 32 := 0
  ack : BitVec 32 := 0
  ackWith : BitVec 32 := 0
  flags : ℕ
  retransmitAt : ℕ := 0
  retries : ℕ := 0
  headerLen : ℕ
  data : List (BitVec 8) := []
  deriving DecidableEq, Repr

/-- `tcp_listen_entry`. -/
structure TcpListenEntry where
  sourceAddress : IPv4Addr
  sourcePort : BitVec 16
  block : TcpBlock := {}
  deriving DecidableEq, Repr

/-- A packet on the wire: the addresses of its IPv4 header and its TCP segment. -/
structure Packet where
  src : IPv4Addr
  dst : IPv4Addr
  buffer : List (BitVec 8)
  deriving DecidableEq, Repr

/-- `TCPSocket`. -/
structure TcpSocket where
  deviceAddress : IPv4Addr
  sourceAddress : IPv4Addr := 0
  sourcePort : BitVec 16 := 0
  destinationAddress : IPv4Addr := 0
  destinationPort : BitVec 16 := 0
  txBuffer : CircularBuffer := .new tcpTxBufferSize tcpTxBufferSize_pos
  rxBuffer : CircularBuffer := .new tcpRxBufferSize tcpRxBufferSize_pos
  /-- A history variable: every byte ever written to `m_rx_buffer`, oldest first. -/
  rxLog : List (BitVec 8) := []
  retransmissionQueue : List Segment := []
  listenQueue : Option (List TcpListenEntry) := none
  /-- The sockets that wait for `accept`, named by the entries they were made from. -/
  acceptQueue : Option (List TcpListenEntry) := none
  block : TcpBlock := {}
  listenBacklog : ℤ := 0

namespace TcpSocket

/-! ## Sending -/

/-- `getWindow()`. -/
def getWindow (s : TcpSocket) : ℕ :=
  (max 0 ((tcpRxBufferSize : ℤ) - 1 - s.rxBuffer.readAvailable - tcpProbeSlack)).toNat

/-- `sendSegment(seg, addr, port)`. -/
def sendSegmentTo (s : TcpSocket) (seg : Segment) (addr : IPv4Addr) (port : BitVec 16) : Packet :=
  let header : TcpHeader :=
    { sourcePort := s.sourcePort
      destinationPort := port
      seqNumber := seg.seq
      ackNumber := seg.ack
      bitvalues := ((seg.headerLen / 4) <<< 12) ||| seg.flags
      window := s.getWindow
      checksum := 0
      urgentPointer := 0 }
  let sum := sumBytes (tcpFakeIPv4Header s.deviceAddress addr (seg.data.length + 20)) +
    sumBytes header.encode + sumBytes seg.data
  { src := s.deviceAddress
    dst := addr
    buffer := { header with checksum := toChecksum (sum % 2 ^ 32) }.encode ++ seg.data }

/-- `sendSegment(seg)`. -/
def sendSegment (s : TcpSocket) (seg : Segment) : Packet :=
  s.sendSegmentTo seg s.destinationAddress s.destinationPort

/-- `ack(manual)`. -/
def ackManual (s : TcpSocket) (manual : BitVec 32) : Packet :=
  s.sendSegment { seq := s.block.sndNxt, ack := manual, flags := tcpAck, headerLen := 20 }

/-- `windowUpdate()`. -/
def windowUpdate (s : TcpSocket) : Packet :=
  s.sendSegment { seq := s.block.sndNxt, ack := s.block.rcvNxt, flags := tcpAck, headerLen := 20 }

/-- `rst()`. -/
def rst (s : TcpSocket) : Packet :=
  s.sendSegment
    { seq := s.block.sndNxt
      ack := if s.block.state = .synReceived then s.block.rcvNxt else 0
      flags := tcpRst
      headerLen := 20 }

def synOptions : List (BitVec 8) := [0x02#8, 0x04#8, 0x05#8, 0xb4#8]

def initialSeq (uptime : ℕ) : BitVec 32 := BitVec.ofNat 32 (uptime - uptime % 10000 + 2137)

/-- `_close()`. -/
def close_ (s : TcpSocket) : TcpSocket :=
  { s with
    block := { s.block with state := .closed, sendShut := true, receiveShut := true }
    listenQueue := none
    acceptQueue := none
    retransmissionQueue := [] }

/-- `reset()`: the closed socket, and whether the peer has to be told. -/
def reset (s : TcpSocket) : TcpSocket × Bool :=
  let verdict := !(s.block.closing || s.block.state == .listen || s.block.state == .closed)
  (close_ { s with block := { s.block with closing := true } }, verdict)

/-- `reset()` and, if it says so, `rst()`. -/
def resetRst (s : TcpSocket) : TcpSocket × List Packet :=
  (s.reset.1, if s.reset.2 then [s.reset.1.rst] else [])

/-! ## Receiving -/

/-- The loop of `readOptions` from byte `i` on. -/
def readOptionsLoop (buffer : List (BitVec 8)) (hdrLen : ℕ) : ℕ → TcpBlock → ℕ → TcpBlock
  | 0, block, _ => block
  | fuel + 1, block, i =>
    if i < hdrLen then
      let len := max 2 (buffer.getD (i + 1) 0#8).toNat
      match (buffer.getD i 0#8).toNat with
      -- TCP_OPT_END
      | 0 => readOptionsLoop buffer hdrLen fuel block (65536 + len)
      -- TCP_OPT_NOOP returns
      | 1 => block
      -- TCP_OPT_MSS
      | 2 => readOptionsLoop buffer hdrLen fuel
          { block with sndMss := max (min (readBE buffer (i + 2) 2) 1460) tcpMinMss } (i + len)
      | _ => readOptionsLoop buffer hdrLen fuel block (i + len)
    else block

/-- `readOptions(block, buffer, hdr_len)`. -/
def readOptions (block : TcpBlock) (buffer : List (BitVec 8)) (hdrLen : ℕ) : TcpBlock :=
  readOptionsLoop buffer hdrLen hdrLen block 20

/-- The socket after `readOptions`. -/
def receiveOptions (s : TcpSocket) (buffer : List (BitVec 8)) (hdrLen : ℕ) : TcpSocket :=
  { s with block := readOptions s.block buffer hdrLen }

/-- What the options change. -/
abbrev withMss (s : TcpSocket) (mss : ℕ) : TcpSocket :=
  { s with block := { s.block with sndMss := mss } }

/-- What a phase of `packetReceived` does. -/
inductive Flow
  | goOn (s : TcpSocket) (sent : List Packet)
  | done (s : TcpSocket) (sent : List Packet)

/-- An RST segment: a connection that waits for its SYN to be answered believes it when it
acknowledges the SYN, any other connection when its sequence number is in the window. -/
def receiveRst (s : TcpSocket) (h : TcpHeader) (expectedSeqn : BitVec 32) : TcpSocket :=
  if s.block.state = .synSent ∧ hasFlag h.bitvalues tcpAck ∧ h.ackNumber = s.block.sndNxt then
    s.reset.1
  else if isAfterOrEqual h.seqNumber expectedSeqn ∧
      isBefore h.seqNumber (expectedSeqn + BitVec.ofNat 32 s.getWindow) then
    s.reset.1
  else s

def receiveSyn (s : TcpSocket) (h : TcpHeader) : TcpSocket × List Packet :=
  if hasFlag h.bitvalues tcpSyn ∧ s.block.state = .synSent then
    let s := { s with block := { s.block with rcvNxt := h.seqNumber + 1 } }
    ({ s with block := { s.block with state := .synReceived } }, [s.ackManual s.block.rcvNxt])
  else (s, [])

/-- The scan of the retransmission queue for segments that `ackn` acknowledges. -/
def ackScan (ackn : BitVec 32) : TcpState → List Segment → TcpState × List Segment × Bool
  | state, [] => (state, [], false)
  | state, seg :: rest =>
    if isBeforeOrEqual seg.ackWith ackn then
      if hasFlag seg.flags tcpFin then
        if state = .finWait1 then ackScan ackn .finWait2 rest
        else if state = .lastAck ∨ state = .closing then (state, seg :: rest, true)
        else ackScan ackn state rest
      else if hasFlag seg.flags tcpSyn ∧ state = .synReceived then
        ackScan ackn .established rest
      else ackScan ackn state rest
    else
      let (state, queue, closes) := ackScan ackn state rest
      (state, seg :: queue, closes)

theorem ackScan_of_none {ackn : BitVec 32} (state : TcpState) {queue : List Segment}
    (h : ∀ seg ∈ queue, ¬ isBeforeOrEqual seg.ackWith ackn) :
    ackScan ackn state queue = (state, queue, false) := by
  induction queue with
  | nil => rfl
  | cons seg rest ih =>
    rw [ackScan, if_neg (h seg List.mem_cons_self), ih fun seg hs => h seg (.tail _ hs)]

/-- The update of the send window from an acknowledgement that is not old. -/
def updateWindow (s : TcpSocket) (h : TcpHeader) : TcpSocket :=
  if isAfterOrEqual h.ackNumber s.block.sndUna then
    { s with block := { s.block with sndUna := h.ackNumber, sndWnd := h.window } }
  else s

def receiveAck (s : TcpSocket) (h : TcpHeader) : Flow :=
  if hasFlag h.bitvalues tcpAck then
    let s := s.updateWindow h
    if (s.block.state = .synSent ∨ s.block.state = .synReceived) ∧
        h.ackNumber ≠ s.block.sndNxt then
      let s := { s with
        block := { s.block with sndNxt := h.ackNumber, rcvNxt := h.seqNumber } }
      .done s.resetRst.1 s.resetRst.2
    else
      let (state, queue, closes) := ackScan h.ackNumber s.block.state s.retransmissionQueue
      let s := { s with
        block := { s.block with state := state }
        retransmissionQueue := queue }
      if closes then .done s.close_ [] else .goOn s []
  else .goOn s []

/-- Take data that is next in order. A connection that has been shut for reading only counts it. -/
def takeData (s : TcpSocket) (data : List (BitVec 8)) : TcpSocket :=
  let s := { s with
    rxBuffer := if s.block.receiveShut then s.rxBuffer else (s.rxBuffer.write data).1
    rxLog := if s.block.receiveShut then s.rxLog else s.rxLog ++ data
    block := { s.block with
      rcvNxt := s.block.rcvNxt + BitVec.ofNat 32 data.length, sendingCompAck := true } }
  { s with block := { s.block with
      notifyOfWindowSize := s.block.notifyOfWindowSize || s.getWindow < tcpRxBufferSize / 2 } }

/-- The data of a segment: what is next in order is taken or, when there is no room, resets the
connection. -/
def receiveData (s : TcpSocket) (h : TcpHeader) (expectedSeqn : BitVec 32)
    (data : List (BitVec 8)) : Flow :=
  if data = [] then .goOn s []
  else if h.seqNumber = expectedSeqn then
    if s.rxBuffer.writeAvailable < data.length then .done s.resetRst.1 s.resetRst.2
    else .goOn (s.takeData data) []
  else if isBeforeOrEqual (h.seqNumber + BitVec.ofNat 32 data.length) s.block.rcvNxt then
    .goOn s [s.ackManual (h.seqNumber + BitVec.ofNat 32 data.length)]
  else .goOn s []

/-- `rcv_nxt++` and `ack()`. -/
def takeFin (s : TcpSocket) (state : TcpState) : TcpSocket :=
  { s with block := { s.block with
    rcvNxt := s.block.rcvNxt + 1, sendingCompAck := true, state := state } }

def receiveFin (s : TcpSocket) (h : TcpHeader) (expectedSeqn : BitVec 32) : TcpSocket :=
  if hasFlag h.bitvalues tcpFin ∧ h.seqNumber = expectedSeqn then
    let s := { s with block := { s.block with receiveShut := true } }
    match s.block.state with
    | .finWait1 => s.takeFin .closing
    | .finWait2 => s.takeFin .finWait2
    | .established => s.takeFin .closeWait
    | _ => s
  else s

/-- The last phases of `packetReceived`, for the data and the FIN. -/
def receiveRest (s : TcpSocket) (h : TcpHeader) (expectedSeqn : BitVec 32)
    (data : List (BitVec 8)) : TcpSocket × List Packet :=
  match s.receiveData h expectedSeqn data with
  | .done s sent => (s, sent)
  | .goOn s sent => (s.receiveFin h expectedSeqn, sent)

/-- The phases of `packetReceived` for a segment without RST. -/
def receiveSegment (s : TcpSocket) (h : TcpHeader) (expectedSeqn : BitVec 32)
    (data : List (BitVec 8)) : TcpSocket × List Packet :=
  let (s, sent) := s.receiveSyn h
  match s.receiveAck h with
  | .done s more => (s, sent ++ more)
  | .goOn s more =>
    let (s, last) := s.receiveRest h expectedSeqn data
    (s, sent ++ more ++ last)

/-- `packetReceived` for a socket that neither listens nor is closed. -/
def packetReceivedOpen (s : TcpSocket) (buffer : List (BitVec 8)) : TcpSocket × List Packet :=
  let h := TcpHeader.parse buffer
  let expectedSeqn := s.block.rcvNxt
  let s := s.receiveOptions buffer h.hdrLen
  if hasFlag h.bitvalues tcpRst then (s.receiveRst h expectedSeqn, [])
  else s.receiveSegment h expectedSeqn (buffer.drop h.hdrLen)

/-! ## Listening -/

def getListenEntry (s : TcpSocket) (addr : IPv4Addr) (port : BitVec 16) : Option TcpListenEntry :=
  (s.listenQueue.getD []).find? fun e => e.sourceAddress == addr && e.sourcePort == port

/-- `removeEntry(addr, port)`. -/
def removeEntry (s : TcpSocket) (addr : IPv4Addr) (port : BitVec 16) : TcpSocket :=
  { s with listenQueue := s.listenQueue.map fun queue =>
      queue.filter fun e => e.sourceAddress != addr || e.sourcePort != port }

/-- Write an entry back to the queue it was found in. -/
def setListenEntry (s : TcpSocket) (entry : TcpListenEntry) : TcpSocket :=
  { s with listenQueue := s.listenQueue.map fun queue =>
      queue.replaceF fun e =>
        if e.sourceAddress == entry.sourceAddress && e.sourcePort == entry.sourcePort
        then some entry else none }

def halfOpen (h : TcpHeader) (uptime : ℕ) : TcpBlock :=
  { state := .synReceived
    sndNxt := initialSeq uptime + 1
    sndUna := initialSeq uptime + 1
    sndMss := tcpMinMss
    sndWnd := h.window
    rcvNxt := h.seqNumber + 1 }

def synAck (entry : TcpListenEntry) : Segment where
  seq := entry.block.sndNxt - 1
  ack := entry.block.rcvNxt
  flags := tcpSyn ||| tcpAck
  headerLen := 24
  data := synOptions

/-- The SYN part of `packetReceivedListen`. -/
def listenSyn (s : TcpSocket) (src : IPv4Addr) (srcPort : BitVec 16) (h : TcpHeader)
    (uptime : ℕ) : TcpSocket × List Packet :=
  match s.getListenEntry src srcPort with
  | some entry => (s, [s.sendSegmentTo (synAck entry) src srcPort])
  | none =>
    let entry : TcpListenEntry :=
      { sourceAddress := src, sourcePort := srcPort, block := halfOpen h uptime }
    ({ s with listenQueue := s.listenQueue.map (· ++ [entry]) },
      [s.sendSegmentTo (synAck entry) src srcPort])

/-- `TCPSocket(parent, listen_entry)`. -/
def ofListenEntry (parent : TcpSocket) (entry : TcpListenEntry) : TcpSocket where
  deviceAddress := parent.deviceAddress
  sourceAddress := parent.deviceAddress
  sourcePort := parent.sourcePort
  destinationAddress := entry.sourceAddress
  destinationPort := entry.sourcePort
  block := entry.block

/-- The ACK part of `packetReceivedListen`, for the entry of the sender. -/
def listenAck (s : TcpSocket) (src : IPv4Addr) (srcPort : BitVec 16) (entry : TcpListenEntry)
    (h : TcpHeader) : TcpSocket × Option TcpSocket :=
  if hasFlag h.bitvalues tcpAck ∧ entry.block.state = .synReceived ∧
      isAfterOrEqual h.ackNumber entry.block.sndNxt ∧ 0 < s.listenBacklog then
    let entry := { entry with block := { entry.block with state := .established } }
    let spawned := s.ofListenEntry entry
    let s := { s with acceptQueue := s.acceptQueue.map (· ++ [entry]) }
    let s := s.removeEntry src srcPort
    ({ s with listenBacklog := s.listenBacklog - 1 }, some spawned)
  else (s, none)

/-- `packetReceivedListen`: the listener, the packets sent and the socket that a completed handshake
spawns. -/
def packetReceivedListen (s : TcpSocket) (src : IPv4Addr) (srcPort : BitVec 16)
    (buffer : List (BitVec 8)) (uptime : ℕ) : TcpSocket × List Packet × Option TcpSocket :=
  let h := TcpHeader.parse buffer
  if hasFlag h.bitvalues tcpRst then (s, [], none)
  else
    let (s, sent) := if hasFlag h.bitvalues tcpSyn then s.listenSyn src srcPort h uptime else (s, [])
    match s.getListenEntry src srcPort with
    | none => (s, sent, none)
    | some entry =>
      let entry := { entry with block := readOptions entry.block buffer h.hdrLen }
      let (s, spawned) := (s.setListenEntry entry).listenAck src srcPort entry h
      (s, sent, spawned)

/-- `packetReceived(src, src_port, buffer, len)`. -/
def packetReceived (s : TcpSocket) (src : IPv4Addr) (srcPort : BitVec 16)
    (buffer : List (BitVec 8)) (uptime : ℕ) : TcpSocket × List Packet × Option TcpSocket :=
  if s.block.state ≠ .listen ∧ src ≠ s.destinationAddress ∧ srcPort ≠ s.destinationPort then
    (s, [], none)
  else if s.block.state = .closed then (s, [], none)
  else if s.block.state = .listen then s.packetReceivedListen src srcPort buffer uptime
  else
    let (s, sent) := s.packetReceivedOpen buffer
    (s, sent, none)

/-! ## The timer -/

/-- The number of bytes that the next segment takes from the transmit buffer. -/
def segmentSize (s : TcpSocket) : ℕ :=
  min (min s.txBuffer.readAvailable s.block.sndWnd) s.block.sndMss

/-- The segment that a pass of the loop of `package` makes. -/
def nextSegment (s : TcpSocket) (uptime : ℕ) : Segment where
  seq := s.block.sndNxt
  ack := s.block.rcvNxt
  ackWith := s.block.sndNxt + BitVec.ofNat 32 s.segmentSize
  flags := tcpPsh ||| tcpAck
  retransmitAt := uptime + tcpRetransmitInterval
  headerLen := 20
  data := (s.txBuffer.read s.segmentSize).2

/-- The socket after a pass of the loop of `package`. `snd_wnd` has sixteen bits. -/
def afterSegment (s : TcpSocket) (uptime : ℕ) : TcpSocket :=
  { s with
    txBuffer := (s.txBuffer.read s.segmentSize).1
    retransmissionQueue := s.retransmissionQueue ++ [s.nextSegment uptime]
    block := { s.block with
      sndNxt := s.block.sndNxt + BitVec.ofNat 32 s.segmentSize
      sndWnd := (s.block.sndWnd + 65536 - s.segmentSize) % 65536
      sendingCompAck := false } }

/-- The loop of `package`. -/
def packageLoop (uptime : ℕ) : ℕ → TcpSocket → Except Fault (TcpSocket × List Packet)
  | 0, s => .ok (s, [])
  | fuel + 1, s =>
    if s.txBuffer.readAvailable = 0 then .ok (s, [])
    else if s.block.sndWnd = 0 then .error (.assertion "m_block.snd_wnd != 0")
    else do
      let (last, sent) ← packageLoop uptime fuel (s.afterSegment uptime)
      return (last, (s.afterSegment uptime).sendSegment (s.nextSegment uptime) :: sent)

/-- `package()`. -/
def package (s : TcpSocket) (uptime : ℕ) : Except Fault (TcpSocket × List Packet) := do
  let (s, sent) ← packageLoop uptime s.txBuffer.readAvailable s
  if s.block.sendingCompAck then
    return ({ s with block := { s.block with sendingCompAck := false } },
      sent ++ [s.ackManual s.block.rcvNxt])
  else return (s, sent)

/-- The loop of `retransmit` over the queue. -/
def retransmitLoop (s : TcpSocket) (uptime : ℕ) :
    List Segment → List Segment → TcpSocket × List Packet
  | passed, [] => ({ s with retransmissionQueue := passed }, [])
  | passed, seg :: rest =>
    if uptime < seg.retransmitAt then retransmitLoop s uptime (passed ++ [seg]) rest
    else if tcpRetries < seg.retries + 1 then s.resetRst
    else
      let seg := { seg with
        retries := seg.retries + 1, retransmitAt := seg.retransmitAt + tcpRetransmitInterval }
      let (last, sent) := retransmitLoop s uptime (passed ++ [seg]) rest
      (last, s.sendSegment seg :: sent)

/-- `retransmit()`. -/
def retransmit (s : TcpSocket) (uptime : ℕ) : TcpSocket × List Packet :=
  retransmitLoop s uptime [] s.retransmissionQueue

/-- `tick()`. -/
def tick (s : TcpSocket) (uptime : ℕ) : Except Fault (TcpSocket × List Packet) :=
  if s.block.state = .closed then .ok (s, [])
  else do
    let (s, sent) ← s.package uptime
    return ((s.retransmit uptime).1, sent ++ (s.retransmit uptime).2)

/-! ## Calls -/

/-- `clearState()`. -/
def clearState (s : TcpSocket) : TcpSocket :=
  { s with
    txBuffer := s.txBuffer.resize
    rxBuffer := s.rxBuffer.resize
    retransmissionQueue := []
    block := { sndMss := tcpMinMss } }

/-- `syn()`. -/
def syn (s : TcpSocket) (uptime : ℕ) : TcpSocket × List Packet :=
  let seg : Segment :=
    { seq := initialSeq uptime
      ackWith := initialSeq uptime + 1
      flags := tcpSyn
      retransmitAt := uptime + tcpRetransmitInterval
      headerLen := 24
      data := synOptions }
  let s := { s with
    retransmissionQueue := s.retransmissionQueue ++ [seg]
    block := { s.block with
      sndNxt := initialSeq uptime + 1, sndMss := tcpMinMss, sndUna := initialSeq uptime } }
  (s, [s.sendSegment seg])

/-- `connect(addr)` up to its wait. -/
def connect (s : TcpSocket) (addr : IPv4Addr) (port : BitVec 16) (uptime : ℕ) :
    Except NetError (TcpSocket × List Packet) :=
  if s.block.state ≠ .closed then .error .eisconn
  else
    let s := clearState { s with destinationAddress := addr, destinationPort := port }
    .ok (syn { s with block := { s.block with state := .synSent } } uptime)

/-- The end of `connect(addr)`. -/
def connectEnd (s : TcpSocket) : TcpSocket × List Packet :=
  match s.block.state with
  | .established | .finWait1 | .finWait2 | .closeWait => (s, [])
  | _ => s.resetRst

/-- `listen(backlog)`. -/
def listen (s : TcpSocket) (backlog : ℤ) : Except NetError TcpSocket :=
  if s.block.state ≠ .closed then .error .eisconn
  else .ok { s with
    block := { s.block with state := .listen }
    listenQueue := some []
    acceptQueue := some []
    listenBacklog := max (min backlog 128) 0
    txBuffer := s.txBuffer.resize
    rxBuffer := s.rxBuffer.resize }

/-- The checks of `sendTo(buffer, len, flags, dst_addr)`. -/
def sendToCheck (s : TcpSocket) (data : List (BitVec 8)) (dstAddr : Option IPv4Addr) :
    Except NetError Unit :=
  if data = [] then .error .einval
  else if s.block.sendShut then .error .epipe
  else if dstAddr.isSome then .error .eisconn
  else if s.block.state ≠ .established then .error .enotconn
  else .ok ()

/-- A pass of the loop of `sendTo` over the bytes that are left. -/
def sendToPass (s : TcpSocket) (rest : List (BitVec 8)) : TcpSocket × Option (List (BitVec 8)) :=
  if s.block.sendShut then (s, none)
  else if s.txBuffer.writeAvailable = 0 then (s, some rest)
  else
    let av := min s.txBuffer.writeAvailable rest.length
    ({ s with txBuffer := (s.txBuffer.write (rest.take av)).1 }, some (rest.drop av))

/-- A `receiveFrom` call under way. -/
structure ReceiveCall where
  len : ℕ
  read : ℕ := 0
  waitAll : Bool
  deriving DecidableEq, Repr

/-- The checks of `receiveFrom(buffer, len, flags, src_addr)`. -/
def receiveFromCheck (s : TcpSocket) (len : ℕ) (srcAddr : Option IPv4Addr) :
    Except NetError Unit :=
  if len = 0 then .error .einval
  else if srcAddr.isSome then .error .eisconn
  else if s.block.state ≠ .established then .error .enotconn
  else .ok ()

/-- A pass of the loop of `receiveFrom`. -/
def receiveFromPass (s : TcpSocket) (call : ReceiveCall) :
    TcpSocket × List (BitVec 8) × List Packet × Option ReceiveCall :=
  if call.len = 0 then (s, [], [], none)
  else if s.rxBuffer.readAvailable = 0 then
    if (!call.waitAll && 0 < call.read) || s.block.receiveShut then (s, [], [], none)
    else (s, [], [], some call)
  else
    let av := min s.rxBuffer.readAvailable call.len
    let bytes := (s.rxBuffer.read av).2
    let s := { s with rxBuffer := (s.rxBuffer.read av).1 }
    let call := { call with len := call.len - av, read := call.read + av }
    if s.block.notifyOfWindowSize then
      let s := { s with block := { s.block with notifyOfWindowSize := false } }
      (s, bytes, [s.windowUpdate], some call)
    else (s, bytes, [], some call)

end TcpSocket

end AexKernel.Net
