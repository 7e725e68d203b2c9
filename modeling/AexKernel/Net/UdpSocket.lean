import AexKernel.Basic
import AexKernel.Net.IPv4Layer

/-! # UDP datagrams (`socket/inet/udp.cpp`, `layer/transport/udp.cpp`, `protocol/inet/udp.cpp`)

`sendTo` puts a payload behind a UDP header and an IPv4 header. -/

namespace AexKernel.Net

open Library Nat IPv4Layer List Option

/-! ## Headers -/

/-- `udp_header`. -/
structure UdpHeader where
  sourcePort : BitVec 16
  destinationPort : BitVec 16
  totalLength : BitVec 16
  checksum : BitVec 16
  deriving DecidableEq, Repr

namespace UdpHeader

def encode (h : UdpHeader) : List (BitVec 8) :=
  toBE 2 h.sourcePort.toNat ++ toBE 2 h.destinationPort.toNat ++ toBE 2 h.totalLength.toNat ++
    toBE 2 h.checksum.toNat

def parse (buffer : List (BitVec 8)) : UdpHeader where
  sourcePort := BitVec.ofNat 16 (readBE buffer 0 2)
  destinationPort := BitVec.ofNat 16 (readBE buffer 2 2)
  totalLength := BitVec.ofNat 16 (readBE buffer 4 2)
  checksum := BitVec.ofNat 16 (readBE buffer 6 2)

@[simp] theorem length_encode (h : UdpHeader) : h.encode.length = 8 := by
  simp [encode]

theorem parse_encode (h : UdpHeader) (body : List (BitVec 8)) : parse (h.encode ++ body) = h := by
  simp only [parse, encode, append_assoc]
  simp (disch := decide) only [readBE_skip, readBE_head, reduceSub, reducePow]
  simp only [mod_eq_of_lt h.sourcePort.isLt, mod_eq_of_lt h.destinationPort.isLt,
    mod_eq_of_lt h.totalLength.isLt, mod_eq_of_lt h.checksum.isLt, BitVec.ofNat_toNat,
    BitVec.setWidth_eq]

theorem sumBytes_encode (h : UdpHeader) :
    sumBytes h.encode = sumBytes (toBE 2 h.sourcePort.toNat) +
      sumBytes (toBE 2 h.destinationPort.toNat) + sumBytes (toBE 2 h.totalLength.toNat) +
      sumBytes (toBE 2 h.checksum.toNat) := by
  rw [encode]
  simp (disch := simp) only [sumBytes_append]

end UdpHeader

/-- The bytes of `udp_fake_ipv4_header`. -/
def udpFakeIPv4Header (source destination : IPv4Addr) (length : BitVec 16) : List (BitVec 8) :=
  toBE 4 source.toNat ++ toBE 4 destination.toNat ++ [0#8, 17#8] ++ toBE 2 length.toNat

/-- The sum of the two halves of an address, as `sum_bytes` adds them. -/
def IPv4Addr.words (addr : IPv4Addr) : ℕ := sumBytes (toBE 4 addr.toNat)

theorem IPv4Addr.words_le (addr : IPv4Addr) : IPv4Addr.words addr ≤ 131070 := by
  have hl := sumBytes_le (toBE 4 addr.toNat)
  rw [length_toBE] at hl
  exact hl

theorem sumBytes_udpFakeIPv4Header (source destination : IPv4Addr) (length : BitVec 16) :
    sumBytes (udpFakeIPv4Header source destination length) =
      IPv4Addr.words source + IPv4Addr.words destination + 4352 +
        sumBytes (toBE 2 length.toNat) := by
  rw [udpFakeIPv4Header]
  simp (disch := simp) only [sumBytes_append]
  rfl

/-! ## Sockets -/

/-- `UDPSocket::datagram`. -/
structure Datagram where
  sourceAddress : IPv4Addr
  sourcePort : BitVec 16
  buffer : List (BitVec 8)
  deriving DecidableEq, Repr

/-- `UDPSocket`, with the datagrams from `m_first_datagram` to `m_last_datagram`. -/
structure UdpSocket where
  sourceAddress : IPv4Addr := 0
  sourcePort : BitVec 16 := 0
  destinationAddress : IPv4Addr := 0
  destinationPort : BitVec 16 := 0
  datagrams : List Datagram := []
  deriving DecidableEq, Repr

/-- The errors of `sendTo`. -/
inductive UdpError
  | einval | enotconn | enetunreach
  deriving DecidableEq, Repr

/-- `UDP_SOCKET_BUFFER_SIZE`. -/
def udpSocketBufferSize : ℕ := 1048576

namespace UdpSocket

/-- `m_buffered_size`, which is zero at first and which nothing changes. -/
def bufferedSize (_ : UdpSocket) : ℕ := 0

/-- The address and the port that `sendTo` sends to. -/
def target (s : UdpSocket) : Option (IPv4Addr × BitVec 16) → Except UdpError (IPv4Addr × BitVec 16)
  | some dst => .ok dst
  | none =>
    if s.destinationPort = 0 then .error .enotconn
    else .ok (s.destinationAddress, s.destinationPort)

/-- The header that `sendTo` writes, without the checksum. -/
def bareHeader (s : UdpSocket) (port : BitVec 16) (buffer : List (BitVec 8)) : UdpHeader where
  sourcePort := s.sourcePort
  destinationPort := port
  totalLength := BitVec.ofNat 16 (buffer.length + 8)
  checksum := 0

/-- `sum` in `sendTo`. -/
def sum (s : UdpSocket) (dev : NetDevice) (port : BitVec 16) (buffer : List (BitVec 8)) : ℕ :=
  sumBytes (udpFakeIPv4Header dev.addr s.destinationAddress (BitVec.ofNat 16 (buffer.length + 8))) +
    sumBytes (s.bareHeader port buffer).encode + sumBytes (buffer.take (buffer.length % 65536))

/-- `sendTo(buffer, len, flags, dst_addr)`. -/
def sendTo (devices : List NetDevice) (packet : IPv4Header) (s : UdpSocket)
    (buffer : Option (List (BitVec 8))) (dst : Option (IPv4Addr × BitVec 16)) :
    Except UdpError (Option (List (BitVec 8))) := do
  let some buffer := buffer | .error .einval
  let (addr, port) ← s.target dst
  let some dev := IPv4Layer.getInterface devices addr | .error .enetunreach
  let header := { s.bareHeader port buffer with
    checksum := BitVec.ofNat 16 (toChecksum (s.sum dev port buffer % 2 ^ 32)) }
  return IPv4Layer.route devices packet (header.encode ++ buffer) addr .udp

/-- `packetReceived(src, src_port, buffer, len)`. -/
def packetReceived (s : UdpSocket) (src : IPv4Addr) (srcPort : BitVec 16)
    (buffer : List (BitVec 8)) : UdpSocket :=
  if s.bufferedSize + buffer.length > udpSocketBufferSize then s
  else { s with datagrams := s.datagrams ++ [⟨src, srcPort, buffer⟩] }

end UdpSocket

/-! ## Receiving -/

/-- `UDPProtocol::packetReceived(src, src_port, dst, dst_port, buffer, len)`. -/
def UdpProtocol.packetReceived (sockets : List UdpSocket) (src : IPv4Addr) (srcPort : BitVec 16)
    (dst : IPv4Addr) (dstPort : BitVec 16) (buffer : List (BitVec 8)) : List UdpSocket :=
  if dstPort = 0 then sockets
  else sockets.map fun socket =>
    if dstPort ≠ socket.sourcePort then socket
    else if dst ≠ socket.sourceAddress ∧ socket.sourceAddress ≠ ipv4Any then socket
    else socket.packetReceived src srcPort buffer

/-- `UDPLayer::parse(buffer, len, src_addr, dst_addr)`. -/
def UdpLayer.parse (sockets : List UdpSocket) (behind buffer : List (BitVec 8))
    (src dst : IPv4Addr) : List UdpSocket :=
  let header := UdpHeader.parse buffer
  let total := sumBytes (udpFakeIPv4Header src dst header.totalLength) +
    sumBytes ((buffer ++ behind).take header.totalLength.toNat)
  if buffer.length < 8 then sockets
  else if header.checksum ≠ 0 ∧ toChecksum (total % 2 ^ 32) ≠ 0 then sockets
  else UdpProtocol.packetReceived sockets src header.sourcePort dst header.destinationPort
    (buffer.drop 8)

/-- A frame at a receiver: `IPv4Layer::parse` and the layer of UDP. -/
def UdpLayer.receive (dev : NetDevice) (sockets : List UdpSocket) (behind : List (BitVec 8))
    (frame : List (BitVec 8)) : List UdpSocket :=
  match IPv4Layer.parse dev frame with
  | some received =>
    if received.protocol = IPv4Protocol.udp.toByte then
      UdpLayer.parse sockets behind received.payload received.source received.destination
    else sockets
  | none => sockets

/-! ## Round trip -/

namespace UdpSocket

/-- The sum of the 16-bit words of a datagram that is sent from `source` by a socket. -/
def wordSum (s : UdpSocket) (source : IPv4Addr) (port : BitVec 16) (payload : List (BitVec 8)) : ℕ :=
  IPv4Addr.words source + IPv4Addr.words s.destinationAddress + 4352 +
    2 * sumBytes (toBE 2 (payload.length + 8)) + sumBytes (toBE 2 s.sourcePort.toNat) +
    sumBytes (toBE 2 port.toNat) + sumBytes payload

/-- When the receiver finds the checksum right. -/
def Agrees (s : UdpSocket) (source addr : IPv4Addr) (port : BitVec 16)
    (payload : List (BitVec 8)) : Prop :=
  IPv4Addr.words addr ≡ IPv4Addr.words s.destinationAddress [MOD 65535] ∨
    s.wordSum source port payload ≡ 0 [MOD 65535]

instance (s : UdpSocket) (source addr : IPv4Addr) (port : BitVec 16) (payload : List (BitVec 8)) :
    Decidable (s.Agrees source addr port payload) :=
  inferInstanceAs (Decidable (_ ∨ _))

section Sent

variable {s : UdpSocket} {dev : NetDevice} {port : BitVec 16} {payload : List (BitVec 8)}

def sentHeader (s : UdpSocket) (dev : NetDevice) (port : BitVec 16) (payload : List (BitVec 8)) :
    UdpHeader :=
  { s.bareHeader port payload with
    checksum := BitVec.ofNat 16 (toChecksum (s.sum dev port payload % 2 ^ 32)) }

theorem toNat_totalLength (h : payload.length ≤ 65507) :
    (BitVec.ofNat 16 (payload.length + 8)).toNat = payload.length + 8 := by
  rw [BitVec.toNat_ofNat]
  omega

theorem sum_eq (h : payload.length ≤ 65507) :
    s.sum dev port payload = s.wordSum dev.addr port payload := by
  rw [sum, sumBytes_udpFakeIPv4Header, UdpHeader.sumBytes_encode, bareHeader, wordSum,
    mod_eq_of_lt (by omega), take_length, toNat_totalLength h]
  have hz : sumBytes (toBE 2 (0 : BitVec 16).toNat) = 0 := sumBytes_toBE_two_zero
  dsimp only
  omega

theorem wordSum_lt (s : UdpSocket) (source : IPv4Addr) (port : BitVec 16)
    (h : payload.length ≤ 65507) : s.wordSum source port payload < 2 ^ 31 := by
  have ho := IPv4Addr.words_le source
  have hc := IPv4Addr.words_le s.destinationAddress
  have hl := sumBytes_le (toBE 2 (payload.length + 8))
  have hs := sumBytes_le (toBE 2 s.sourcePort.toNat)
  have hd := sumBytes_le (toBE 2 port.toNat)
  have hp := sumBytes_le payload
  rw [length_toBE] at hl hs hd
  rw [wordSum]
  omega

section

variable (h : payload.length ≤ 65507)
include h

theorem toNat_checksum :
    (s.sentHeader dev port payload).checksum.toNat =
      toChecksum (s.wordSum dev.addr port payload) := by
  have hl := wordSum_lt s dev.addr port h
  rw [sentHeader, sum_eq h, mod_eq_of_lt (by omega), BitVec.toNat_ofNat,
    mod_eq_of_lt (toChecksum_lt _)]

theorem checksum_eq_zero_iff :
    (s.sentHeader dev port payload).checksum = 0 ↔
      s.wordSum dev.addr port payload ≡ 0 [MOD 65535] := by
  have hl := wordSum_lt s dev.addr port h
  have hp : s.wordSum dev.addr port payload ≠ 0 := by
    rw [wordSum]
    omega
  rw [← BitVec.toNat_inj, toNat_checksum h]
  exact (toChecksum_eq_zero_iff (by omega)).trans (and_iff_right hp)

theorem toChecksum_received_iff (addr : IPv4Addr) :
    toChecksum ((sumBytes (udpFakeIPv4Header dev.addr addr
        (s.sentHeader dev port payload).totalLength) +
          sumBytes ((s.sentHeader dev port payload).encode ++ payload)) % 2 ^ 32) = 0 ↔
      IPv4Addr.words addr ≡ IPv4Addr.words s.destinationAddress [MOD 65535] := by
  have hlt := wordSum_lt s dev.addr port h
  have hw := IPv4Addr.words_le addr
  have hf := sumBytes_le (toBE 2 (toChecksum (s.wordSum dev.addr port payload)))
  rw [length_toBE] at hf
  obtain ⟨received, hr⟩ : ∃ received,
      received + IPv4Addr.words s.destinationAddress =
        s.wordSum dev.addr port payload + IPv4Addr.words addr :=
    ⟨s.wordSum dev.addr port payload + IPv4Addr.words addr - IPv4Addr.words s.destinationAddress, by
      rw [wordSum]
      omega⟩
  have hp : 0 < received := by
    rw [wordSum] at hr
    omega
  have ht : sumBytes (udpFakeIPv4Header dev.addr addr
      (s.sentHeader dev port payload).totalLength) +
        sumBytes ((s.sentHeader dev port payload).encode ++ payload) =
      received + sumBytes (toBE 2 (toChecksum (s.wordSum dev.addr port payload))) := by
    have hl : (s.sentHeader dev port payload).totalLength.toNat = payload.length + 8 :=
      toNat_totalLength h
    rw [sumBytes_append _ _ (by simp), sumBytes_udpFakeIPv4Header, UdpHeader.sumBytes_encode,
      toNat_checksum h, hl]
    rw [wordSum] at hr
    simp only [sentHeader, bareHeader]
    omega
  rw [ht, mod_eq_of_lt (by omega), toChecksum_field_iff (by omega) (by omega) hp, ModEq, ModEq]
  omega

/-- **What the layer of the receiver does with a datagram**. -/
theorem parse_sent (sockets : List UdpSocket) (behind : List (BitVec 8)) (addr : IPv4Addr) :
    UdpLayer.parse sockets behind ((s.sentHeader dev port payload).encode ++ payload) dev.addr addr =
      if s.Agrees dev.addr addr port payload then
        UdpProtocol.packetReceived sockets dev.addr s.sourcePort addr port payload
      else sockets := by
  have hl : (s.sentHeader dev port payload).totalLength.toNat =
      ((s.sentHeader dev port payload).encode ++ payload).length := by
    rw [length_append, UdpHeader.length_encode, Nat.add_comm]
    exact toNat_totalLength h
  have height : ¬ ((s.sentHeader dev port payload).encode ++ payload).length < 8 := by
    rw [length_append, UdpHeader.length_encode]
    omega
  have hp : ((s.sentHeader dev port payload).encode ++ payload).drop 8 = payload :=
    drop_left' (UdpHeader.length_encode _)
  rw [UdpLayer.parse, UdpHeader.parse_encode, hl, take_left, hp, if_neg height]
  simp only [ne_eq, checksum_eq_zero_iff h, toChecksum_received_iff h]
  by_cases ha : s.Agrees dev.addr addr port payload
  · rw [if_pos ha, if_neg fun hd => ha.elim hd.2 hd.1]
    rfl
  · rw [if_neg ha, if_pos ⟨fun hz => ha (.inr hz), fun hs => ha (.inl hs)⟩]

end

variable {addr : IPv4Addr}

theorem receive_sent {devices : List NetDevice} {receiver : NetDevice}
    (hd : getInterface devices addr = some dev) (hr : receiver.addr = addr)
    (h : payload.length ≤ 65507) (s : UdpSocket) (port : BitVec 16) (pkt : IPv4Header)
    (ss : List UdpSocket) (behind : List (BitVec 8)) :
    ∃ frame, route devices pkt ((s.sentHeader dev port payload).encode ++ payload) addr
        .udp = some frame ∧
      UdpLayer.receive receiver ss behind frame =
        UdpLayer.parse ss behind ((s.sentHeader dev port payload).encode ++ payload) dev.addr
          addr := by
  have hf : ((s.sentHeader dev port payload).encode ++ payload).length ≤ 65515 := by
    rw [length_append, UdpHeader.length_encode]
    omega
  obtain ⟨frame, ho, hp⟩ := bind_eq_some_iff.mp
    ((parse_route_iff hd hr pkt _ .udp).mpr hf)
  refine ⟨frame, ho, ?_⟩
  rw [UdpLayer.receive, hp]
  exact if_pos rfl

theorem getElem?_packetReceived {ss : List UdpSocket} {i : ℕ} {r : UdpSocket}
    (hr : ss[i]? = some r) (hp : r.sourcePort = port)
    (ha : r.sourceAddress = addr ∨ r.sourceAddress = ipv4Any) (h : payload.length ≤ 65507)
    (src : IPv4Addr) (srcPort : BitVec 16) :
    (UdpProtocol.packetReceived ss src srcPort addr port payload)[i]? = if port = 0 then some r
      else some { r with datagrams := r.datagrams ++ [⟨src, srcPort, payload⟩] } := by
  have hro : ¬ r.bufferedSize + payload.length > udpSocketBufferSize := by
    rw [bufferedSize, udpSocketBufferSize]
    omega
  have hm : ¬ (addr ≠ r.sourceAddress ∧ r.sourceAddress ≠ ipv4Any) :=
    fun ho => ha.elim (fun he => ho.1 he.symm) ho.2
  rw [UdpProtocol.packetReceived]
  split_ifs with hz
  · exact hr
  rw [getElem?_map, hr, map_some, if_neg (fun hn => hn hp.symm), if_neg hm,
    packetReceived, if_neg hro]

end Sent

/-- **When a datagram is delivered.** The receiving socket gets the payload with the address and the
port of the sender exactly when the port is not 0 and the checksum of the connected address agrees
with that of the address. -/
theorem delivered_iff {devices : List NetDevice} {dev receiver : NetDevice} {s r : UdpSocket}
    {dst : Option (IPv4Addr × BitVec 16)} {addr : IPv4Addr} {port : BitVec 16}
    {payload : List (BitVec 8)} {sockets : List UdpSocket} {i : ℕ}
    (htarget : s.target dst = .ok (addr, port))
    (hdev : IPv4Layer.getInterface devices addr = some dev) (hreceiver : receiver.addr = addr)
    (hr : sockets[i]? = some r) (hport : r.sourcePort = port)
    (haddr : r.sourceAddress = addr ∨ r.sourceAddress = ipv4Any) (hlen : payload.length ≤ 65507)
    (packet : IPv4Header) (behind : List (BitVec 8)) :
    (∃ frame, s.sendTo devices packet (some payload) dst = .ok (some frame) ∧
        (UdpLayer.receive receiver sockets behind frame)[i]? =
          some { r with datagrams := r.datagrams ++ [⟨dev.addr, s.sourcePort, payload⟩] }) ↔
      port ≠ 0 ∧ s.Agrees dev.addr addr port payload := by
  have hse : s.sendTo devices packet (some payload) dst = .ok (route devices packet
      ((s.sentHeader dev port payload).encode ++ payload) addr .udp) := by
    rw [sendTo, htarget, ok_bind]
    simp only [hdev]
    rfl
  obtain ⟨frame, hro, hrec⟩ :=
    receive_sent hdev hreceiver hlen s port packet sockets behind
  have hsa : ({ r with datagrams := r.datagrams ++ [⟨dev.addr, s.sourcePort, payload⟩] } :
      UdpSocket) ≠ r := by
    intro heq
    have hleng := congrArg (·.datagrams.length) heq
    simp at hleng
  have hiff : (UdpLayer.receive receiver sockets behind frame)[i]? =
      some { r with datagrams := r.datagrams ++ [⟨dev.addr, s.sourcePort, payload⟩] } ↔
        port ≠ 0 ∧ s.Agrees dev.addr addr port payload := by
    rw [hrec, parse_sent hlen]
    split_ifs with hag
    · rw [getElem?_packetReceived hr hport haddr hlen]
      split_ifs with hze
      · exact iff_of_false (fun heq => hsa (Option.some.inj heq).symm) (fun hco => hco.1 hze)
      · exact iff_of_true rfl ⟨hze, hag⟩
    · rw [hr]
      exact iff_of_false (fun heq => hsa (Option.some.inj heq).symm) (fun hco => hag hco.2)
  rw [hse, hro]
  constructor
  · rintro ⟨sent, hsent, hde⟩
    cases hsent
    exact hiff.mp hde
  · intro hco
    exact ⟨frame, rfl, hiff.mpr hco⟩

/-- The interface 10.0.0.2 of a host and a resolver that waits for datagrams there. -/
def udpDevice : NetDevice := ⟨0x0A000002, 0xFFFFFF00, 0x0A0000FF, 100⟩

@[inherit_doc udpDevice]
def resolver : UdpSocket := { sourceAddress := 0x0A000002, sourcePort := 53 }

/-- A socket that is connected to the resolver, and one that is not connected. -/
def connectedSocket : UdpSocket :=
  { sourcePort := 49152, destinationAddress := 0x0A000002, destinationPort := 53 }

@[inherit_doc connectedSocket]
def freshSocket : UdpSocket := { sourcePort := 49152 }

def stackHeader : IPv4Header := ⟨0, 0, 0, 0, 0, 0, 0, 0, 0, 0, 0⟩

theorem delivered_iff_connected :
    ∃ frame, connectedSocket.sendTo [udpDevice] stackHeader (some [1, 2, 3]) none =
        .ok (some frame) ∧
      (UdpLayer.receive udpDevice [resolver] [] frame)[0]? =
        some { resolver with datagrams := [⟨0x0A000002, 49152, [1, 2, 3]⟩] } := by
  have hta : connectedSocket.target none = .ok (0x0A000002, 53) := by decide
  have hde : getInterface [udpDevice] 0x0A000002 = some udpDevice := by decide
  have hco : (53 : BitVec 16) ≠ 0 ∧ connectedSocket.Agrees udpDevice.addr 0x0A000002 53 [1, 2, 3] :=
    ⟨by decide, .inl rfl⟩
  have hlen : [1#8, 2#8, 3#8].length ≤ 65507 := by decide
  exact (delivered_iff (r := resolver) hta hde rfl rfl rfl (.inl rfl) hlen stackHeader []).mpr hco

theorem not_delivered_unconnected :
    freshSocket.target (some (0x0A000002, 53)) = .ok (0x0A000002, 53) ∧
      ∃ frame, freshSocket.sendTo [udpDevice] stackHeader (some [1]) (some (0x0A000002, 53)) =
          .ok (some frame) ∧
        UdpLayer.receive udpDevice [resolver] [] frame = [resolver] := by
  refine ⟨by decide, ?_⟩
  obtain ⟨sent, hse, frame, hfr, hrec⟩ :
      ∃ sent ∈ (freshSocket.sendTo [udpDevice] stackHeader (some [1])
      (some (0x0A000002, 53))).toOption,
      ∃ frame ∈ sent, UdpLayer.receive udpDevice [resolver] [] frame = [resolver] := by
    decide
  refine ⟨frame, ?_, hrec⟩
  rw [toOption_eq_some.mp hse, mem_def.mp hfr]

end UdpSocket

end AexKernel.Net
