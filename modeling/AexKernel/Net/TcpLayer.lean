import AexKernel.Net.IPv4Layer
import AexKernel.Net.TcpSocket

/-! # The checks of the transport layer (`layer/transport/tcp.cpp`)

The sender of a segment adds the sums of the pseudo header, of the header and of the data. -/

namespace AexKernel.Net

open Library IPv4Layer TcpHeader List

theorem TcpHeader.sumBytes_encode (h : TcpHeader) :
    sumBytes h.encode = sumBytes { h with checksum := 0 }.encode + sumBytes (toBE 2 h.checksum) := by
  have hs : ∀ c : ℕ, sumBytes { h with checksum := c }.encode =
      sumBytes { h with checksum := 0 }.encode + sumBytes (toBE 2 c) := by
    intro c
    simp only [encode]
    simp (disch := simp) only [sumBytes_append, sumBytes_toBE_two_zero]
    omega
  exact hs h.checksum

namespace TcpLayer

/-- The segment that `parse` hands to `TCPProtocol::packetReceived`. -/
structure Received where
  src : IPv4Addr
  srcPort : BitVec 16
  dst : IPv4Addr
  dstPort : BitVec 16
  buffer : List (BitVec 8)
  deriving DecidableEq, Repr

/-- `total` in `parse`: the sum of the pseudo header and of the segment. -/
def total (buffer : List (BitVec 8)) (src dst : IPv4Addr) : ℕ :=
  sumBytes (tcpFakeIPv4Header src dst buffer.length) + sumBytes buffer

/-- `parse(buffer, len, src_addr, dst_addr)`. -/
def parse (buffer : List (BitVec 8)) (src dst : IPv4Addr) : Option Received :=
  let header := TcpHeader.parse buffer
  if buffer.length < 20 then none
  else if header.bitvalues >>> 10 > buffer.length then none
  else if toChecksum (total buffer src dst % 2 ^ 32) ≠ 0 then none
  else some ⟨src, header.sourcePort, dst, header.destinationPort, buffer⟩

/-! ## Sums in two and in three parts -/

/-- The three sums that `sendSegment` adds up, for a header with any checksum. -/
def parts (source destination : IPv4Addr) (header : TcpHeader) (data : List (BitVec 8)) : ℕ :=
  sumBytes (tcpFakeIPv4Header source destination (data.length + 20)) + sumBytes header.encode +
    sumBytes data

variable (src dst source destination : IPv4Addr)

/-- **Two parts and three parts have one sum**, for data of even and of odd length. -/
theorem total_eq_parts (hd : TcpHeader) (data : List (BitVec 8)) :
    total (hd.encode ++ data) src dst = parts src dst hd data := by
  rw [total, parts, sumBytes_append _ _ (by simp), length_append, length_encode,
    Nat.add_comm 20, Nat.add_assoc]

theorem length_tcpFakeIPv4Header (length : ℕ) :
    (tcpFakeIPv4Header source destination length).length = 12 := by
  simp [tcpFakeIPv4Header]

theorem sumBytes_tcpFakeIPv4Header_pos (length : ℕ) :
    0 < sumBytes (tcpFakeIPv4Header source destination length) := by
  simp only [tcpFakeIPv4Header]
  simp (disch := simp) only [sumBytes_append]
  have hp : sumBytes [0#8, 6#8] = 1536 := by decide
  omega

variable {data : List (BitVec 8)}

theorem parts_lt (hd : TcpHeader) (h : data.length + 20 ≤ 65535) :
    parts source destination hd data + 65535 < 2 ^ 32 := by
  have hf := sumBytes_le (tcpFakeIPv4Header source destination (data.length + 20))
  have hh := sumBytes_le hd.encode
  have ha := sumBytes_le data
  rw [length_tcpFakeIPv4Header] at hf
  rw [length_encode] at hh
  rw [parts]
  omega

/-! ## Segments on the wire -/

theorem toChecksum_completed (header : TcpHeader) (hz : header.checksum = 0)
    (h : data.length + 20 ≤ 65535) :
    toChecksum (total ({ header with
      checksum := toChecksum (parts src dst header data % 2 ^ 32) }.encode ++ data) src dst % 2 ^ 32)
        = 0 := by
  have hl := parts_lt src dst header h
  have hp : 0 < parts src dst header data := by
    have hf := sumBytes_tcpFakeIPv4Header_pos src dst (data.length + 20)
    rw [parts]
    omega
  generalize hs : parts src dst header data = sum at hl hp ⊢
  have hb : { header with checksum := 0 } = header := by
    rw [← hz]
  have ht : total ({ header with checksum := toChecksum (sum % 2 ^ 32) }.encode ++ data) src dst
      = sum + sumBytes (toBE 2 (toChecksum (sum % 2 ^ 32))) := by
    rw [total_eq_parts, parts, sumBytes_encode, hb, ← hs, parts]
    dsimp only
    omega
  have hw := sumBytes_le (toBE 2 (toChecksum (sum % 2 ^ 32)))
  rw [length_toBE] at hw
  rw [ht, Nat.mod_eq_of_lt (a := sum + _) (by omega), Nat.mod_eq_of_lt (a := sum) (by omega),
    toChecksum_field_iff (by omega) hl hp]

/-- **A segment passes the test of its receiver**, when it sees the same addresses. -/
theorem toChecksum_sendSegment (s : TcpSocket) (seg : Segment) (addr : IPv4Addr) (port : BitVec 16)
    (h : seg.data.length + 20 ≤ 65535) :
    toChecksum (total (s.sendSegmentTo seg addr port).buffer s.deviceAddress addr % 2 ^ 32) = 0 :=
  toChecksum_completed s.deviceAddress addr _ rfl h

/-- **Checksums on the wire.** The header that `encapsulate` and `send` fill checks out, and the
addressed receiver hands the payload on exactly when it has at most 65515 bytes. A TCP segment passes
the test of `TCPLayer::parse`; the sums in two and in three parts are one and stay below `2 ^ 32`. -/
theorem checks_out_iff_fits {devices : List NetDevice} {dev receiver : NetDevice} {dst : IPv4Addr}
    (hdev : IPv4Layer.getInterface devices dst = some dev) (hreceiver : receiver.addr = dst)
    (packet : IPv4Header) (payload : List (BitVec 8)) (protocol : IPv4Protocol) :
    toChecksum (sumBytes (IPv4Layer.stamp (IPv4Layer.encapsulate packet
        (BitVec.ofNat 16 payload.length) dst protocol) dev).encode) = 0 ∧
      ((IPv4Layer.route devices packet payload dst protocol).bind (IPv4Layer.parse receiver) =
        some ⟨protocol.toByte, dev.addr, dst, payload⟩ ↔ payload.length ≤ 65515) ∧
      ∀ (s : TcpSocket) (seg : Segment) (addr : IPv4Addr) (port : BitVec 16),
        seg.data.length + 20 ≤ 65535 →
        let sent := s.sendSegmentTo seg addr port
        (∀ header : TcpHeader,
          total (header.encode ++ seg.data) sent.src sent.dst =
              parts sent.src sent.dst header seg.data ∧
            parts sent.src sent.dst header seg.data < 2 ^ 32) ∧
          toChecksum (total sent.buffer sent.src sent.dst % 2 ^ 32) = 0 ∧
          ((parse sent.buffer sent.src sent.dst).isSome ↔
            (TcpHeader.parse sent.buffer).bitvalues >>> 10 ≤ sent.buffer.length) := by
  refine ⟨toChecksum_stamp _ _ (show 0 < (4#4).toNat by decide),
    parse_route_iff hdev hreceiver packet payload protocol, ?_⟩
  intro s seg addr port hfit sent
  have hsum : toChecksum (total sent.buffer sent.src sent.dst % 2 ^ 32) = 0 :=
    toChecksum_sendSegment s seg addr port hfit
  refine ⟨fun header => ⟨total_eq_parts _ _ _ _, ?_⟩, hsum, ?_⟩
  · have hlt := parts_lt sent.src sent.dst header hfit
    omega
  have hlen : ¬ sent.buffer.length < 20 := by
    show ¬ (encode _ ++ seg.data).length < 20
    rw [length_append, length_encode]
    omega
  rw [parse]
  split_ifs with hof <;> simp_all

/-- An interface with the address 10.0.0.2, and a stack buffer that holds zeros. -/
def hostDevice : NetDevice := ⟨0x0A000002, 0xFFFFFF00, 0x0A0000FF, 100⟩

@[inherit_doc hostDevice]
def blankHeader : IPv4Header := ⟨0, 0, 0, 0, 0, 0, 0, 0, 0, 0, 0⟩

theorem checks_out_iff_fits_host :
    (IPv4Layer.route [hostDevice] blankHeader [1, 2, 3] hostDevice.addr .udp).bind
        (IPv4Layer.parse hostDevice) =
      some ⟨IPv4Protocol.udp.toByte, hostDevice.addr, hostDevice.addr, [1, 2, 3]⟩ := by
  have hde : getInterface [hostDevice] hostDevice.addr = some hostDevice := by decide
  have hfit : [1, 2, 3].length ≤ 65515 := by decide
  exact (checks_out_iff_fits hde rfl blankHeader [1, 2, 3] .udp).2.1.mpr hfit

theorem not_checks_out_oversized :
    IPv4Layer.getInterface [hostDevice] hostDevice.addr = some hostDevice ∧
      (List.replicate 65516 1#8).length = 65516 ∧
      IPv4Layer.route [hostDevice] blankHeader (List.replicate 65516 1#8) hostDevice.addr .udp =
        some [] ∧
      (IPv4Layer.route [hostDevice] blankHeader (List.replicate 65516 1#8) hostDevice.addr .udp).bind
        (IPv4Layer.parse hostDevice) = none := by
  have hde : getInterface [hostDevice] hostDevice.addr = some hostDevice := by decide
  have hlen : (replicate 65516 1#8).length = 65516 := length_replicate
  have hze : (encapsLen 65516).toNat = 0 := by decide
  have hro : route [hostDevice] blankHeader (replicate 65516 1#8) hostDevice.addr
      .udp = some [] := by
    rw [route, send, hlen, hze, encapsulate, hde, Option.map_some, take_zero]
  refine ⟨hde, hlen, hro, ?_⟩
  rw [hro]
  decide

end TcpLayer

end AexKernel.Net
