import AexKernel.Library.Run
import AexKernel.Net.TcpPackage

/-! # The threads of a socket

`package`, `retransmit` and `shutdown` release `m_lock` in the middle, and between a release and the
next acquisition the other threads of the socket run. -/

namespace AexKernel.Net

open Library Mem

/-- `SHUT_RD`. -/
def shutRd : ℕ := 0x01
/-- `SHUT_WR`. -/
def shutWr : ℕ := 0x02

/-- `Vector::operator[]`: an index outside of the range reads slot 0, which is no element when the
vector is empty. -/
def vectorAt {α : Type} (v : List α) (index : ℕ) : Option α := v[index]?.or v.head?

/-- Write through the reference that `Vector::operator[]` returns. -/
def vectorSet {α : Type} (v : List α) (index : ℕ) (x : α) : List α :=
  v.set (if index < v.length then index else 0) x

namespace TcpSocket

/-! ## Closing -/

/-- The segment of `fin()`. -/
def finSegment (s : TcpSocket) (uptime : ℕ) : Segment where
  seq := s.block.sndNxt
  ack := s.block.rcvNxt
  ackWith := s.block.sndNxt + 1
  flags := tcpFin ||| tcpAck
  retransmitAt := uptime + tcpRetransmitInterval
  headerLen := 20

/-- The socket after `fin()`. -/
def afterFin (s : TcpSocket) (uptime : ℕ) : TcpSocket :=
  { s with
    retransmissionQueue := s.retransmissionQueue ++ [s.finSegment uptime]
    block := { s.block with sndNxt := s.block.sndNxt + 1, sendingCompAck := false } }

/-- `fin()`. -/
def fin (s : TcpSocket) (uptime : ℕ) : TcpSocket × List Packet :=
  (s.afterFin uptime, [(s.afterFin uptime).sendSegment (s.finSegment uptime)])

/-- `shutdown(how)` up to its first wait, and whether it goes on to the FIN. -/
def shutdown (s : TcpSocket) (how : ℕ) : Except NetError (TcpSocket × Bool) :=
  if how = 0 then .error .einval
  else if s.block.state = .listen ∨ s.block.state = .synSent ∨ s.block.state = .synReceived ∨
      s.block.state = .closed then .error .enotconn
  else
    let s := { s with
      block := { s.block with receiveShut := s.block.receiveShut || hasFlag how shutRd } }
    if hasFlag how shutWr ∧ s.block.sendShut = false then
      .ok ({ s with block := { s.block with sendShut := true } }, true)
    else .ok (s, false)

theorem shutdown_eq_ok {s t : TcpSocket} {ho : ℕ} {goesOn : Bool}
    (h : s.shutdown ho = .ok (t, goesOn)) :
    ∃ receiveShut, t = { s with block := { s.block with
        receiveShut := receiveShut, sendShut := s.block.sendShut || goesOn } } ∧
      s.block.state ≠ .closed ∧ (goesOn → s.block.sendShut = false) := by
  rw [shutdown] at h
  split_ifs at h with hh hs
  have hop : s.block.state ≠ .closed := fun hc => hs (.inr (.inr (.inr hc)))
  dsimp only at h
  split_ifs at h with hw
  · cases h
    exact ⟨_, by rw [Bool.or_true], hop, fun _ => hw.2⟩
  · cases h
    exact ⟨_, by rw [Bool.or_false], hop, fun hn => nomatch hn⟩

/-- Everything has been sent and acknowledged. -/
def Drained (s : TcpSocket) : Prop :=
  s.txBuffer.readAvailable = 0 ∧ s.block.sndUna = s.block.sndNxt
deriving Decidable

/-- The change of the state with which `shutdown` goes on after its first wait. -/
def shutdownState (s : TcpSocket) : TcpSocket :=
  match s.block.state with
  | .established => { s with block := { s.block with state := .finWait1 } }
  | .closeWait => { s with block := { s.block with state := .lastAck } }
  | _ => s

/-- `close()` up to its wait. -/
def close (s : TcpSocket) : Except Fault (TcpSocket × List Packet) :=
  if s.block.state = .closeWait then .error .divergence
  else if s.block.state = .lastAck ∨ s.block.state = .closed then .ok (s, [])
  else .ok s.resetRst

/-! ## The scan of the retransmission queue -/

/-- A `retransmit` that has released the lock. -/
structure Scan where
  uptime : ℕ
  index : ℕ
  count : ℕ
  deriving DecidableEq, Repr

/-- A read of the retransmission queue. -/
structure Touch where
  index : ℕ
  seg : Option Segment
  deriving DecidableEq, Repr

/-- What `retransmit` does between an acquisition of the lock and the next release. -/
structure ScanSection where
  touched : List Touch
  outcome : Except Fault (TcpSocket × List Packet × Option Scan)

def resent (seg : Segment) : Segment :=
  { seg with
    retries := seg.retries + 1, retransmitAt := seg.retransmitAt + tcpRetransmitInterval }

/-- The loop of `retransmit` up to the next release of the lock. -/
def scanLoop (s : TcpSocket) (uptime count : ℕ) : ℕ → ℕ → ScanSection
  | 0, _ => ⟨[], .ok (s, [], none)⟩
  | fuel + 1, index =>
    if index < count then
      let found : Touch := ⟨index, vectorAt s.retransmissionQueue index⟩
      match found.seg with
      | none => ⟨[found], .error .outOfBounds⟩
      | some seg =>
        if uptime < seg.retransmitAt then
          let rest := scanLoop s uptime count fuel (index + 1)
          ⟨found :: rest.touched, rest.outcome⟩
        else if tcpRetries < seg.retries + 1 then ⟨[found], .ok (s.resetRst.1, s.resetRst.2, none)⟩
        else
          let t := { s with
            retransmissionQueue := vectorSet s.retransmissionQueue index (resent seg) }
          ⟨[found], .ok (t, [t.sendSegment (resent seg)], some ⟨uptime, index + 1, count⟩)⟩
    else ⟨[], .ok (s, [], none)⟩

/-- `retransmit` from where it has stopped. -/
def scan (s : TcpSocket) (k : Scan) : ScanSection :=
  s.scanLoop k.uptime k.count (k.count - k.index) k.index

end TcpSocket

/-! ## Threads -/

/-- Where the timer thread has stopped. -/
inductive TimerPosition
  | idle
  /-- In the loop of `package`, with the time it started at. -/
  | packaging (uptime : ℕ)
  /-- Behind the loop of `package`. -/
  | acking
  | scanning (k : TcpSocket.Scan)
  deriving DecidableEq, Repr

/-- Where a thread in `shutdown` has stopped. -/
inductive ShutdownPosition
  | idle
  | draining
  /-- In front of `fin()`. -/
  | finishing
  | waiting
  deriving DecidableEq, Repr

/-- A socket and its threads. `send_shut` lets one `shutdown` at a time go on to the FIN. -/
structure TcpThreads where
  socket : TcpSocket
  timer : TimerPosition := .idle
  shutting : ShutdownPosition := .idle

/-- A step of a thread. -/
inductive ThreadAction
  | connect (addr : IPv4Addr) (port : BitVec 16) (uptime : ℕ)
  | connectEnd
  | listen (backlog : ℤ)
  | packetReceived (src : IPv4Addr) (srcPort : BitVec 16) (buffer : List (BitVec 8)) (uptime : ℕ)
  /-- A pass of a `sendTo` that has these bytes left. -/
  | sendPass (rest : List (BitVec 8))
  | receivePass (call : TcpSocket.ReceiveCall)
  | timer (uptime : ℕ)
  | shutdown (how : ℕ)
  /-- The thread in `shutdown` goes on. -/
  | shutdownPass (uptime : ℕ)
  | close

namespace TcpThreads

/-- The section that the timer thread runs when it is in `retransmit`. -/
def scanned (t : TcpThreads) (uptime : ℕ) : Option TcpSocket.ScanSection :=
  match t.timer with
  | .acking => some (t.socket.scan ⟨uptime, 0, t.socket.retransmissionQueue.length⟩)
  | .scanning k => some (t.socket.scan k)
  | _ => none

/-- The socket without the delayed acknowledgement, and the packet for it. -/
def compAck (s : TcpSocket) : TcpSocket × List Packet :=
  if s.block.sendingCompAck then
    ({ s with block := { s.block with sendingCompAck := false } }, [s.ackManual s.block.rcvNxt])
  else (s, [])

/-- The threads after the timer thread has run a section of `retransmit`. -/
def afterScan (t : TcpThreads) (r : TcpSocket × List Packet × Option TcpSocket.Scan) : TcpThreads :=
  { t with
    socket := r.1
    timer := match r.2.2 with
      | none => .idle
      | some k => .scanning k }

def stepTimer (t : TcpThreads) (uptime : ℕ) : Except Fault (TcpThreads × List Packet) :=
  match t.timer with
  | .idle =>
    if t.socket.block.state = .closed then .ok (t, [])
    else .ok ({ t with timer := .packaging uptime }, [])
  | .packaging start =>
    if t.socket.txBuffer.readAvailable = 0 then
      .ok ({ t with socket := (compAck t.socket).1, timer := .acking }, (compAck t.socket).2)
    else if t.socket.block.sndWnd = 0 then .error (.assertion "m_block.snd_wnd != 0")
    else .ok ({ t with socket := t.socket.afterSegment start },
      [(t.socket.afterSegment start).sendSegment (t.socket.nextSegment start)])
  | .acking => do
    let r ← (t.socket.scan ⟨uptime, 0, t.socket.retransmissionQueue.length⟩).outcome
    return (t.afterScan r, r.2.1)
  | .scanning k => do
    let r ← (t.socket.scan k).outcome
    return (t.afterScan r, r.2.1)

/-- `shutdown(how)` begins. -/
def stepShutdown (t : TcpThreads) (how : ℕ) : TcpThreads :=
  match t.socket.shutdown how with
  | .error _ => t
  | .ok (s, goesOn) => { t with
      socket := s
      shutting := if goesOn then .draining else t.shutting }

/-- The thread in `shutdown` goes on. -/
def stepShutdownPass (t : TcpThreads) (uptime : ℕ) : TcpThreads × List Packet :=
  match t.shutting with
  | .idle => (t, [])
  | .draining =>
    if t.socket.Drained then
      ({ t with socket := t.socket.shutdownState, shutting := .finishing }, [])
    else (t, [])
  | .finishing =>
    ({ t with socket := (t.socket.fin uptime).1, shutting := .waiting }, (t.socket.fin uptime).2)
  | .waiting => if t.socket.block.state = .closed then ({ t with shutting := .idle }, []) else (t, [])

def withSocket (t : TcpThreads) (s : TcpSocket) : TcpThreads := { t with socket := s }

def send (t : TcpThreads) : ThreadAction → Except Fault (TcpThreads × List Packet)
  | .connect addr port uptime =>
    match t.socket.connect addr port uptime with
    | .error _ => .ok (t, [])
    | .ok (s, sent) => .ok (t.withSocket s, sent)
  | .connectEnd => .ok (t.withSocket t.socket.connectEnd.1, t.socket.connectEnd.2)
  | .listen backlog =>
    match t.socket.listen backlog with
    | .error _ => .ok (t, [])
    | .ok s => .ok (t.withSocket s, [])
  | .packetReceived src srcPort buffer uptime =>
    let (s, sent, _) := t.socket.packetReceived src srcPort buffer uptime
    .ok (t.withSocket s, sent)
  | .sendPass rest => .ok (t.withSocket (t.socket.sendToPass rest).1, [])
  | .receivePass call =>
    let (s, _, sent, _) := t.socket.receiveFromPass call
    .ok (t.withSocket s, sent)
  | .timer uptime => t.stepTimer uptime
  | .shutdown how => .ok (t.stepShutdown how, [])
  | .shutdownPass uptime => .ok (t.stepShutdownPass uptime)
  | .close => do
    let (s, sent) ← t.socket.close
    return (t.withSocket s, sent)

def step (t : TcpThreads) (a : ThreadAction) : Except Fault TcpThreads := do
  let r ← t.send a
  return r.1

theorem step_eq_ok {t t' : TcpThreads} {a : ThreadAction} :
    t.step a = .ok t' ↔ ∃ sent, t.send a = .ok (t', sent) := by
  rw [step, bind_eq_ok]
  refine ⟨fun ⟨r, hr, hn⟩ => ⟨r.2, ?_⟩, fun ⟨sent, hs⟩ => ⟨_, hs, rfl⟩⟩
  rw [hr, ← Except.ok.inj hn]

/-! A connection on which nothing has been sent yet, the acknowledgements of its peer, and a byte that
is sent and given to the network by one tick. -/

def opened : TcpSocket where
  deviceAddress := 1
  sourcePort := 49152
  destinationAddress := 2
  destinationPort := 80
  block := { state := .established, sndUna := 100, sndNxt := 100, sndWnd := 1000, sndMss := 256,
             rcvNxt := 500 }

/-- An acknowledgement from the peer of `opened`. -/
def ackFromPeer (ackNumber : BitVec 32) : ThreadAction :=
  .packetReceived 2 80 (TcpHeader.encode
    { sourcePort := 80, destinationPort := 49152, seqNumber := 500, ackNumber := ackNumber,
      bitvalues := 0x5010, window := 1000, checksum := 0, urgentPointer := 0 }) 0

def sendByte (byte : BitVec 8) : List ThreadAction :=
  [.sendPass [byte], .timer 0, .timer 0, .timer 0, .timer 0]

end TcpThreads

end AexKernel.Net
