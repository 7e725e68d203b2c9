import AexKernel.Net.TcpReceive

/-! # A socket and its application

An `Endpoint` is a socket together with the calls that its application has under way. -/

namespace AexKernel.Net

open Library Mem

/-- A socket, the calls of its application and their history. -/
structure Endpoint where
  socket : TcpSocket
  /-- The bytes of the `sendTo` call under way that are not yet in the transmit buffer. -/
  sending : List (BitVec 8) := []
  /-- The `receiveFrom` call under way. -/
  receiving : Option TcpSocket.ReceiveCall := none
  /-- Every byte passed to a `sendTo` call that was accepted. -/
  passed : List (BitVec 8) := []
  /-- Every byte that `receiveFrom` has returned. -/
  read : List (BitVec 8) := []
  firstSeq : BitVec 32 := 0
  /-- The largest acknowledgement plus window ever received, counted from `firstSeq`. -/
  offered : ℕ := 0

namespace Endpoint

/-- `connect(addr)`, up to its wait. -/
def connect (e : Endpoint) (addr : IPv4Addr) (port : BitVec 16) (uptime : ℕ) :
    Endpoint × List Packet :=
  match e.socket.connect addr port uptime with
  | .error _ => (e, [])
  | .ok (s, sent) =>
    ({ socket := s
       sending := e.sending
       receiving := e.receiving
       passed := e.sending
       firstSeq := s.block.sndNxt }, sent)

/-- The end of `connect(addr)`. -/
def connectEnd (e : Endpoint) : Endpoint × List Packet :=
  ({ e with socket := e.socket.connectEnd.1 }, e.socket.connectEnd.2)

/-- `listen(backlog)`. -/
def listen (e : Endpoint) (backlog : ℤ) : Endpoint :=
  match e.socket.listen backlog with
  | .error _ => e
  | .ok s => { e with socket := s }

/-- A call of `sendTo`, up to its loop. -/
def sendTo (e : Endpoint) (data : List (BitVec 8)) (dstAddr : Option IPv4Addr) : Endpoint :=
  if e.sending = [] then
    match e.socket.sendToCheck data dstAddr with
    | .error _ => e
    | .ok () => { e with sending := data, passed := e.passed ++ data }
  else e

/-- A pass of the loop of `sendTo`. -/
def sendPass (e : Endpoint) : Endpoint :=
  if e.sending = [] then e
  else { e with
    socket := (e.socket.sendToPass e.sending).1
    sending := (e.socket.sendToPass e.sending).2.getD [] }

/-- A call of `receiveFrom`, up to its loop. -/
def receiveFrom (e : Endpoint) (len : ℕ) (waitAll : Bool) (srcAddr : Option IPv4Addr) : Endpoint :=
  match e.receiving, e.socket.receiveFromCheck len srcAddr with
  | none, .ok () => { e with receiving := some { len := len, waitAll := waitAll } }
  | _, _ => e

/-- A pass of the loop of `receiveFrom`. -/
def receivePass (e : Endpoint) : Endpoint × List Packet :=
  match e.receiving with
  | none => (e, [])
  | some call =>
    let (s, bytes, sent, receiving) := e.socket.receiveFromPass call
    ({ e with socket := s, receiving := receiving, read := e.read ++ bytes }, sent)

/-- `tick()`. -/
def tick (e : Endpoint) (uptime : ℕ) : Except Fault (Endpoint × List Packet) := do
  let (s, sent) ← e.socket.tick uptime
  return ({ e with socket := s }, sent)

/-- The right edge of the window after a segment. -/
def offeredAfter (e : Endpoint) (src : IPv4Addr) (srcPort : BitVec 16) (h : TcpHeader) : ℕ :=
  if hasFlag h.bitvalues tcpAck ∧ e.socket.block.state ≠ .closed ∧
      (src = e.socket.destinationAddress ∨ srcPort = e.socket.destinationPort) then
    max e.offered ((h.ackNumber - e.firstSeq).toNat + h.window)
  else e.offered

/-- `packetReceived(src, src_port, buffer, len)`. -/
def packetReceived (e : Endpoint) (src : IPv4Addr) (srcPort : BitVec 16)
    (buffer : List (BitVec 8)) (uptime : ℕ) : Endpoint × List Packet × Option TcpSocket :=
  let (s, sent, child) := e.socket.packetReceived src srcPort buffer uptime
  ({ e with
      socket := s
      offered := e.offeredAfter src srcPort (TcpHeader.parse buffer) }, sent, child)

end Endpoint

/-- A step that a socket takes without the network. -/
inductive LocalAction
  | sendTo (data : List (BitVec 8)) (dstAddr : Option IPv4Addr)
  | sendPass
  | receiveFrom (len : ℕ) (waitAll : Bool) (srcAddr : Option IPv4Addr)
  | receivePass
  | tick (uptime : ℕ)

def Endpoint.act (e : Endpoint) : LocalAction → Except Fault (Endpoint × List Packet)
  | .sendTo data dstAddr => .ok (e.sendTo data dstAddr, [])
  | .sendPass => .ok (e.sendPass, [])
  | .receiveFrom len waitAll srcAddr => .ok (e.receiveFrom len waitAll srcAddr, [])
  | .receivePass => .ok e.receivePass
  | .tick uptime => e.tick uptime

/-- A step of a socket and its application, with an arbitrary network. -/
inductive EndpointAction
  | connect (addr : IPv4Addr) (port : BitVec 16) (uptime : ℕ)
  | connectEnd
  | listen (backlog : ℤ)
  | act (a : LocalAction)
  | packetReceived (src : IPv4Addr) (srcPort : BitVec 16) (buffer : List (BitVec 8)) (uptime : ℕ)

def Endpoint.step (e : Endpoint) : EndpointAction → Except Fault Endpoint
  | .connect addr port uptime => .ok (e.connect addr port uptime).1
  | .connectEnd => .ok e.connectEnd.1
  | .listen backlog => .ok (e.listen backlog)
  | .act a => (e.act a).map Prod.fst
  | .packetReceived src srcPort buffer uptime => .ok (e.packetReceived src srcPort buffer uptime).1

/-- The endpoints that exist in some run. -/
inductive Endpoint.Reachable : Endpoint → Prop
  | create (deviceAddress : IPv4Addr) (sourcePort : BitVec 16) :
      Reachable { socket := { deviceAddress := deviceAddress, sourcePort := sourcePort } }
  | spawn {e : Endpoint} {child : TcpSocket} (run : Reachable e) (src : IPv4Addr)
      (srcPort : BitVec 16) (buffer : List (BitVec 8)) (uptime : ℕ)
      (spawned : (e.packetReceived src srcPort buffer uptime).2.2 = some child) :
      Reachable { socket := child, firstSeq := child.block.sndNxt }
  | step {e e' : Endpoint} (run : Reachable e) (a : EndpointAction) (next : e.step a = .ok e') :
      Reachable e'

end AexKernel.Net
