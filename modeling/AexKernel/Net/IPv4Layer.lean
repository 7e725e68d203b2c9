import AexKernel.Net.Checksum

/-! # The IPv4 layer (`layer/network/ipv4.cpp`)

`parse` at the receiver checks the destination, the checksum and the lengths before it hands the
payload on. -/

namespace AexKernel.Net

open Library BitVec Nat List

/-- `ipv4_protocol_t`. -/
inductive IPv4Protocol
  | ipv4 | tcp | udp
  deriving DecidableEq, Repr

def IPv4Protocol.toByte : IPv4Protocol → BitVec 8
  | ipv4 => 4
  | tcp => 6
  | udp => 17

/-- `IPv4_ANY`. -/
def ipv4Any : IPv4Addr := 0
/-- `IPv4_BROADCAST`. -/
def ipv4Broadcast : IPv4Addr := 0xFFFFFFFF

/-! ## Headers -/

/-- `ipv4_header`. -/
structure IPv4Header where
  headerLen : BitVec 4
  version : BitVec 4
  dsf : BitVec 8
  totalLen : BitVec 16
  id : BitVec 16
  flags : BitVec 16
  ttl : BitVec 8
  protocol : BitVec 8
  headerChecksum : BitVec 16
  source : IPv4Addr
  destination : IPv4Addr
  deriving DecidableEq, Repr

namespace IPv4Header

def front (h : IPv4Header) : List (BitVec 8) :=
  toBE 1 (h.version.toNat * 16 + h.headerLen.toNat) ++ toBE 1 h.dsf.toNat ++
    toBE 2 h.totalLen.toNat ++ toBE 2 h.id.toNat ++ toBE 2 h.flags.toNat ++ toBE 1 h.ttl.toNat ++
    toBE 1 h.protocol.toNat

def back (h : IPv4Header) : List (BitVec 8) :=
  toBE 4 h.source.toNat ++ toBE 4 h.destination.toNat

def encode (h : IPv4Header) : List (BitVec 8) :=
  h.front ++ toBE 2 h.headerChecksum.toNat ++ h.back

def parse (buffer : List (BitVec 8)) : IPv4Header where
  headerLen := BitVec.ofNat 4 (readBE buffer 0 1 % 16)
  version := BitVec.ofNat 4 (readBE buffer 0 1 / 16)
  dsf := BitVec.ofNat 8 (readBE buffer 1 1)
  totalLen := BitVec.ofNat 16 (readBE buffer 2 2)
  id := BitVec.ofNat 16 (readBE buffer 4 2)
  flags := BitVec.ofNat 16 (readBE buffer 6 2)
  ttl := BitVec.ofNat 8 (readBE buffer 8 1)
  protocol := BitVec.ofNat 8 (readBE buffer 9 1)
  headerChecksum := BitVec.ofNat 16 (readBE buffer 10 2)
  source := BitVec.ofNat 32 (readBE buffer 12 4)
  destination := BitVec.ofNat 32 (readBE buffer 16 4)

@[simp] theorem length_front (h : IPv4Header) : h.front.length = 10 := by
  simp [front]

@[simp] theorem length_encode (h : IPv4Header) : h.encode.length = 20 := by
  simp [encode, back]

theorem parse_encode (h : IPv4Header) (body : List (BitVec 8)) : parse (h.encode ++ body) = h := by
  simp only [parse, encode, front, back, List.append_assoc]
  simp (disch := decide) only [readBE_skip, readBE_head, Nat.reduceSub, reducePow]
  have hf : (h.version.toNat * 16 + h.headerLen.toNat) % 256 =
      h.version.toNat * 16 + h.headerLen.toNat := by omega
  have hl : (h.version.toNat * 16 + h.headerLen.toNat) % 16 = h.headerLen.toNat := by omega
  have hh : (h.version.toNat * 16 + h.headerLen.toNat) / 16 = h.version.toNat := by omega
  simp only [hf, hl, hh, mod_eq_of_lt h.dsf.isLt, mod_eq_of_lt h.totalLen.isLt,
    mod_eq_of_lt h.id.isLt, mod_eq_of_lt h.flags.isLt, mod_eq_of_lt h.ttl.isLt,
    mod_eq_of_lt h.protocol.isLt, mod_eq_of_lt h.headerChecksum.isLt,
    mod_eq_of_lt h.source.isLt, mod_eq_of_lt h.destination.isLt, ofNat_toNat,
    setWidth_eq]

theorem sumBytes_encode (h : IPv4Header) :
    sumBytes h.encode =
      sumBytes h.front + sumBytes h.back + sumBytes (toBE 2 h.headerChecksum.toNat) := by
  rw [encode, sumBytes_append _ _ (by simp), sumBytes_append _ _ (by simp)]
  omega

theorem sumBytes_front_pos (h : IPv4Header) (hv : 0 < h.version.toNat) : 0 < sumBytes h.front := by
  simp only [front, toBE, pow_zero, Nat.div_one, List.cons_append, nil_append, sumBytes,
    toNat_ofNat, reducePow]
  omega

theorem sumBytes_encode_lt (h : IPv4Header) : sumBytes h.encode < 2 ^ 20 := by
  have hl := sumBytes_le h.encode
  rw [length_encode] at hl
  omega

end IPv4Header

/-! ## Interfaces -/

/-- A `NetDevice` of `Dev::devices`, with its `ipv4_info` and its metric. -/
structure NetDevice where
  addr : IPv4Addr
  mask : IPv4Addr
  broadcast : IPv4Addr
  metric : ℤ
  deriving DecidableEq, Repr

namespace IPv4Layer

/-- The loop of `get_interface`. -/
def scanInterfaces (addr : IPv4Addr) : Option NetDevice → ℤ → List NetDevice → Option NetDevice
  | best, _, [] => best
  | best, bestMetric, dev :: rest =>
    let (best, bestMetric) :=
      if dev.metric < bestMetric then (some dev, dev.metric) else (best, bestMetric)
    if dev.addr &&& dev.mask ≠ addr &&& dev.mask then scanInterfaces addr best bestMetric rest
    else some dev

/-- `get_interface(ipv4_addr)`. -/
def getInterface (devices : List NetDevice) (addr : IPv4Addr) : Option NetDevice :=
  scanInterfaces addr none 23232323 devices

/-! ## Sending -/

/-- `encaps_len(payload_len)`, as the 16-bit length that `route` takes. -/
def encapsLen (payloadLen : ℕ) : BitVec 16 := BitVec.ofNat 16 (20 + payloadLen)

/-- `encapsulate(buffer, len, dst, protocol)`. -/
def encapsulate (packet : IPv4Header) (len : BitVec 16) (dst : IPv4Addr)
    (protocol : IPv4Protocol) : IPv4Header :=
  { packet with
    headerLen := 5
    version := 4
    dsf := 0
    totalLen := len + 20
    id := 0x2137
    flags := 0x4000
    ttl := 72
    protocol := protocol.toByte
    destination := dst }

/-- What `send` writes to the header. -/
def stamp (header : IPv4Header) (dev : NetDevice) : IPv4Header :=
  let header := { header with source := dev.addr, headerChecksum := 0 }
  { header with headerChecksum := BitVec.ofNat 16 (toChecksum (sumBytes header.encode)) }

/-- `send(buffer, len)`: the frame that leaves the interface, or `none` for `ENETUNREACH`. -/
def send (devices : List NetDevice) (header : IPv4Header) (payload : List (BitVec 8))
    (len : BitVec 16) : Option (List (BitVec 8)) :=
  (getInterface devices header.destination).map fun dev =>
    ((stamp header dev).encode ++ payload).take len.toNat

/-- A payload is put behind the header of its length and routed. -/
def route (devices : List NetDevice) (packet : IPv4Header) (payload : List (BitVec 8))
    (dst : IPv4Addr) (protocol : IPv4Protocol) : Option (List (BitVec 8)) :=
  send devices (encapsulate packet (BitVec.ofNat 16 payload.length) dst protocol) payload
    (encapsLen payload.length)

/-! ## Receiving -/

/-- What `parse` hands to the layer of the protocol. -/
structure Received where
  protocol : BitVec 8
  source : IPv4Addr
  destination : IPv4Addr
  payload : List (BitVec 8)
  deriving DecidableEq, Repr

/-- `parse(dev, buffer, len)`. -/
def parse (dev : NetDevice) (buffer : List (BitVec 8)) : Option Received :=
  let header := IPv4Header.parse buffer
  let headerLen := header.headerLen.toNat * 4
  if headerLen < 20 ∨ buffer.length < headerLen then none
  else if header.destination ≠ dev.addr ∧ header.destination ≠ ipv4Broadcast ∧
      header.destination ≠ dev.broadcast then none
  else if toChecksum (sumBytes (buffer.take headerLen)) ≠ 0 then none
  else if header.totalLen.toNat < headerLen then none
  else some
    { protocol := header.protocol
      source := header.source
      destination := header.destination
      payload := (buffer.drop headerLen).take (min header.totalLen.toNat buffer.length - headerLen) }

/-! ## Acceptance -/

theorem toChecksum_stamp (hd : IPv4Header) (dev : NetDevice) (h : 0 < hd.version.toNat) :
    toChecksum (sumBytes (stamp hd dev).encode) = 0 := by
  let bare : IPv4Header := { hd with source := dev.addr, headerChecksum := 0 }
  have hs : sumBytes bare.encode = sumBytes bare.front + sumBytes bare.back := by
    rw [IPv4Header.sumBytes_encode]
    exact congrArg _ sumBytes_toBE_two_zero
  have hl := IPv4Header.sumBytes_encode_lt bare
  have hp := IPv4Header.sumBytes_front_pos bare h
  have hf : (BitVec.ofNat 16 (toChecksum (sumBytes bare.encode))).toNat =
      toChecksum (sumBytes bare.encode) := by
    rw [toNat_ofNat]
    exact mod_eq_of_lt (toChecksum_lt _)
  have ht : sumBytes (stamp hd dev).encode =
      sumBytes bare.encode + sumBytes (toBE 2 (toChecksum (sumBytes bare.encode))) := by
    rw [IPv4Header.sumBytes_encode, hs, ← hs, ← hf]
    exact congrArg (· + _) hs.symm
  rw [ht, toChecksum_field_iff (by omega) (by omega) (by omega)]

variable {dev receiver : NetDevice}

theorem length_le_of_parse {buf : List (BitVec 8)} {r : Received} (h : parse dev buf =
      some r) :
    r.payload.length ≤ 65515 := by
  rw [parse] at h
  split_ifs at h with hl hd hs hf
  cases h
  rw [length_take]
  omega

theorem parse_route_iff {devices : List NetDevice} {dst : IPv4Addr}
    (hd : getInterface devices dst = some dev) (hr : receiver.addr = dst) (pkt : IPv4Header)
    (payload : List (BitVec 8)) (protocol : IPv4Protocol) :
    (route devices pkt payload dst protocol).bind (parse receiver) =
        some ⟨protocol.toByte, dev.addr, dst, payload⟩ ↔ payload.length ≤ 65515 := by
  constructor
  · intro h
    obtain ⟨frame, -, hp⟩ := Option.bind_eq_some_iff.mp h
    exact length_le_of_parse hp
  intro hf
  let header := stamp (encapsulate pkt (BitVec.ofNat 16 payload.length) dst protocol) dev
  have hl : (encapsLen payload.length).toNat = (header.encode ++ payload).length := by
    rw [encapsLen, toNat_ofNat, length_append, IPv4Header.length_encode]
    omega
  have ho : route devices pkt payload dst protocol = some (header.encode ++ payload) := by
    rw [route, send, show (encapsulate pkt _ dst protocol).destination = dst from rfl, hd,
      Option.map_some, hl, take_length]
  have hs : toChecksum (sumBytes header.encode) = 0 :=
    toChecksum_stamp _ _ (show 0 < (4#4).toNat by decide)
  have ht : header.totalLen.toNat = payload.length + 20 := by
    show (BitVec.ofNat 16 payload.length + 20#16).toNat = _
    rw [toNat_add, toNat_ofNat, toNat_ofNat]
    omega
  have hfo : header.headerLen.toNat * 4 = header.encode.length :=
    (IPv4Header.length_encode header).symm
  rw [ho, Option.bind_some, parse, IPv4Header.parse_encode]
  rw [hfo, take_left, drop_left, ht, hs, IPv4Header.length_encode,
    length_append, IPv4Header.length_encode, if_neg (by omega),
    if_neg (fun h => h.1 hr.symm), if_neg (by decide), if_neg (by omega)]
  rw [take_of_length_le (by omega)]
  rfl

end IPv4Layer

end AexKernel.Net
