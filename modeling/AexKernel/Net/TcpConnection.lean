import AexKernel.Library.Run
import AexKernel.Net.TcpPackage

/-! # A connection and its network

Two hosts: a client that has called `connect`, and a server with a listening socket. -/

namespace AexKernel.Net

open Library Mem

/-- The two ends of a connection. -/
inductive Side
  | client | server
  deriving DecidableEq, Repr

/-- The state of the two hosts and of the network between them. -/
structure Connection where
  client : Endpoint
  listener : TcpSocket
  accepted : Option Endpoint := none
  toServer : List Packet
  toClient : List Packet := []

/-- A step of the connection. -/
inductive ConnectionAction
  | act (side : Side) (a : LocalAction)
  /-- The end of the client's `connect`. -/
  | connectEnd
  | deliver (side : Side) (index : ℕ) (uptime : ℕ)

namespace Connection

/-- The client has called `connect` and the server `listen`. -/
def start (clientAddress : IPv4Addr) (clientPort : BitVec 16) (serverAddress : IPv4Addr)
    (serverPort : BitVec 16) (backlog : ℤ) (uptime : ℕ) : Connection :=
  let client : Endpoint :=
    { socket := { deviceAddress := clientAddress, sourcePort := clientPort } }
  let server : Endpoint :=
    { socket := { deviceAddress := serverAddress, sourcePort := serverPort } }
  { client := (client.connect serverAddress serverPort uptime).1
    listener := (server.listen backlog).socket
    toServer := (client.connect serverAddress serverPort uptime).2 }

/-- The endpoint of a socket that the listener spawned for a packet. -/
def accept (child : TcpSocket) (p : Packet) : Endpoint where
  socket := child
  firstSeq := child.block.sndNxt
  offered := (p.header.ackNumber - child.block.sndNxt).toNat + p.header.window

def deliverListener (c : Connection) (p : Packet) (uptime : ℕ) : Connection :=
  let (listener, sent, spawned) :=
    c.listener.packetReceived p.src p.header.sourcePort p.buffer uptime
  { c with
    listener := listener
    accepted := c.accepted.or (spawned.map (accept · p))
    toClient := c.toClient ++ sent }

/-- A packet for the server: the accepted socket takes it while it is open, the listener
otherwise. -/
def deliverServer (c : Connection) (p : Packet) (uptime : ℕ) : Connection :=
  match c.accepted with
  | none => c.deliverListener p uptime
  | some e =>
    if e.socket.block.state = .closed then c.deliverListener p uptime
    else
      let (e, sent, _) := e.packetReceived p.src p.header.sourcePort p.buffer uptime
      { c with accepted := some e, toClient := c.toClient ++ sent }

def deliverClient (c : Connection) (p : Packet) (uptime : ℕ) : Connection :=
  let (e, sent, _) := c.client.packetReceived p.src p.header.sourcePort p.buffer uptime
  { c with client := e, toServer := c.toServer ++ sent }

def step (c : Connection) : ConnectionAction → Except Fault Connection
  | .act .client a => do
    let (e, sent) ← c.client.act a
    return { c with client := e, toServer := c.toServer ++ sent }
  | .act .server a =>
    match c.accepted with
    | none => .ok c
    | some e => do
      let (e, sent) ← e.act a
      return { c with accepted := some e, toClient := c.toClient ++ sent }
  | .connectEnd =>
    .ok { c with client := c.client.connectEnd.1, toServer := c.toServer ++ c.client.connectEnd.2 }
  | .deliver .server index uptime =>
    match c.toServer[index]? with
    | none => .ok c
    | some p => .ok (c.deliverServer p uptime)
  | .deliver .client index uptime =>
    match c.toClient[index]? with
    | none => .ok c
    | some p => .ok (c.deliverClient p uptime)

def endpoint (c : Connection) : Side → Option Endpoint
  | .client => some c.client
  | .server => c.accepted

/-- The steps of a single connection in which fewer than 2^31 bytes are sent in each direction. -/
def Single (c : Connection) : ConnectionAction → Prop
  | .act side (.sendTo data dstAddr) =>
    ∀ e ∈ c.endpoint side, (e.sendTo data dstAddr).passed.length < 2 ^ 31
  | .deliver .server index uptime =>
    ∀ p ∈ c.toServer[index]?, ∀ e ∈ c.accepted, e.socket.block.state = .closed →
      (c.listener.packetReceived p.src p.header.sourcePort p.buffer uptime).2.2 = none
  | _ => True

instance (c : Connection) : (a : ConnectionAction) → Decidable (Single c a)
  | .act side (.sendTo data dstAddr) => inferInstanceAs
      (Decidable (∀ e ∈ c.endpoint side, (e.sendTo data dstAddr).passed.length < 2 ^ 31))
  | .deliver .server index uptime => inferInstanceAs
      (Decidable (∀ p ∈ c.toServer[index]?, ∀ e ∈ c.accepted, e.socket.block.state = .closed →
        (c.listener.packetReceived p.src p.header.sourcePort p.buffer uptime).2.2 = none))
  | .act _ .sendPass | .act _ (.receiveFrom _ _ _) | .act _ .receivePass | .act _ (.tick _)
  | .connectEnd | .deliver .client _ _ => .isTrue trivial

def Run (c₀ c : Connection) : Prop := Reach step Single c₀ c

end Connection

end AexKernel.Net
