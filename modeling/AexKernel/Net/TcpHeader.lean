import AexKernel.Library.BigEndian

/-! # TCP headers and sequence numbers (`layer/transport/tcp.hpp`, `checksum.hpp`)

The wire format of a TCP segment: twenty header bytes, options and data, in network byte order. -/

namespace AexKernel.Net

open Library Nat

/-- `ipv4_addr`. -/
abbrev IPv4Addr := BitVec 32

/-! ## Flags -/

/-- `TCP_FIN`. -/
def tcpFin : ℕ := 0x01
/-- `TCP_SYN`. -/
def tcpSyn : ℕ := 0x02
/-- `TCP_RST`. -/
def tcpRst : ℕ := 0x04
/-- `TCP_PSH`. -/
def tcpPsh : ℕ := 0x08
/-- `TCP_ACK`. -/
def tcpAck : ℕ := 0x10

/-- `flags & flag`. -/
def hasFlag (flags flag : ℕ) : Bool := flags &&& flag != 0

/-! The flags stand in the low bits of a word whose four top bits are the data offset. -/

variable {k flags flag : ℕ}

theorem shiftRight_bitvalues (h : flags < 4096) : ((k <<< 12) ||| flags) >>> 12 = k := by
  rw [shiftRight_or_distrib, shiftLeft_shiftRight, shiftRight_eq_zero _ _ h, or_zero]

theorem hasFlag_bitvalues (h : flag < 4096) :
    hasFlag ((k <<< 12) ||| flags) flag = hasFlag flags flag := by
  have hz : (k <<< 12) &&& flag = 0 := by
    refine eq_of_testBit_eq fun i => ?_
    rw [testBit_and, testBit_shiftLeft, zero_testBit]
    by_cases hi : 12 ≤ i
    · have hp : 2 ^ 12 ≤ 2 ^ i := Nat.pow_le_pow_right (by decide) hi
      rw [testBit_lt_two_pow (h.trans_le hp), Bool.and_false]
    · simp [hi]
  rw [hasFlag, hasFlag, and_or_distrib_right, hz, zero_or]

theorem bitvalues_lt (hk : k < 16) (h : flags < 4096) : (k <<< 12) ||| flags < 65536 := by
  refine or_lt_two_pow (n := 16) ?_ (h.trans (by decide))
  rw [shiftLeft_eq]
  omega

/-! ## Headers -/

/-- `tcp_header`. -/
structure TcpHeader where
  sourcePort : BitVec 16
  destinationPort : BitVec 16
  seqNumber : BitVec 32
  ackNumber : BitVec 32
  /-- `goddamned_bitvalues`: the data offset in the four top bits, the flags below. -/
  bitvalues : ℕ
  window : ℕ
  checksum : ℕ
  urgentPointer : ℕ
  deriving DecidableEq, Repr

namespace TcpHeader

def encode (h : TcpHeader) : List (BitVec 8) :=
  toBE 2 h.sourcePort.toNat ++ toBE 2 h.destinationPort.toNat ++ toBE 4 h.seqNumber.toNat ++
    toBE 4 h.ackNumber.toNat ++ toBE 2 h.bitvalues ++ toBE 2 h.window ++ toBE 2 h.checksum ++
    toBE 2 h.urgentPointer

def parse (buffer : List (BitVec 8)) : TcpHeader where
  sourcePort := BitVec.ofNat 16 (readBE buffer 0 2)
  destinationPort := BitVec.ofNat 16 (readBE buffer 2 2)
  seqNumber := BitVec.ofNat 32 (readBE buffer 4 4)
  ackNumber := BitVec.ofNat 32 (readBE buffer 8 4)
  bitvalues := readBE buffer 12 2
  window := readBE buffer 14 2
  checksum := readBE buffer 16 2
  urgentPointer := readBE buffer 18 2

/-- `hdr_len`. -/
def hdrLen (h : TcpHeader) : ℕ := (h.bitvalues >>> 12) * 4

@[simp] theorem length_encode (h : TcpHeader) : h.encode.length = 20 := by
  simp [encode]

theorem parse_encode (h : TcpHeader) (body : List (BitVec 8)) (hb : h.bitvalues < 65536)
    (hw : h.window < 65536) (hs : h.checksum < 65536) (hu : h.urgentPointer < 65536) :
    parse (h.encode ++ body) = h := by
  have he := h.seqNumber.isLt
  have ha := h.ackNumber.isLt
  have ho := h.sourcePort.isLt
  have hd := h.destinationPort.isLt
  simp only [parse, encode, List.append_assoc]
  -- every field is reached by skipping the ones before it
  simp (disch := decide) only [readBE_skip, readBE_head, reduceSub, reducePow]
  simp only [mod_eq_of_lt hb, mod_eq_of_lt hw, mod_eq_of_lt hs,
    mod_eq_of_lt hu, mod_eq_of_lt he, mod_eq_of_lt ha,
    mod_eq_of_lt ho, mod_eq_of_lt hd, BitVec.ofNat_toNat, BitVec.setWidth_eq]

end TcpHeader

/-! ## Checksums -/

/-- `sum_bytes(buffer, len)`: the sum of the little-endian 16-bit words, and of the last byte when
the length is odd. -/
def sumBytes : List (BitVec 8) → ℕ
  | low :: high :: rest => low.toNat + 256 * high.toNat + sumBytes rest
  | [last] => last.toNat
  | [] => 0

/-- The loop of `to_checksum`. -/
def foldCarries : ℕ → ℕ → ℕ
  | 0, total => total
  | fuel + 1, total =>
    if total >>> 16 = 0 then total else foldCarries fuel (total % 65536 + total >>> 16)

/-- `to_checksum(total)`: the complement of the folded sum, in host byte order. -/
def toChecksum (total : ℕ) : ℕ :=
  let sum := 65535 - foldCarries 3 total % 65536
  sum % 256 * 256 + sum / 256

theorem toChecksum_lt (total : ℕ) : toChecksum total < 65536 := by
  rw [toChecksum]
  omega

/-- The bytes of `tcp_fake_ipv4_header`. -/
def tcpFakeIPv4Header (source destination : IPv4Addr) (length : ℕ) : List (BitVec 8) :=
  toBE 4 source.toNat ++ toBE 4 destination.toNat ++ [0#8, 6#8] ++ toBE 2 length

/-! ## Sequence numbers -/

/-- `is_before(val, start)`, with the default extent. -/
def isBefore (val start : BitVec 32) : Bool :=
  if val = start then false
  else if start < val then 0xFFFFFFFF#32 - val + start ≤ 2147483647#32
  else start - val ≤ 2147483647#32

/-- `is_before_or_equal(val, start)`. -/
def isBeforeOrEqual (val start : BitVec 32) : Bool :=
  if val = start then true
  else if start < val then 0xFFFFFFFF#32 - val + start ≤ 2147483647#32
  else start - val ≤ 2147483647#32

/-- `is_after(val, start)`. -/
def isAfter (val start : BitVec 32) : Bool := !isBeforeOrEqual val start

/-- `is_after_or_equal(val, start)`. -/
def isAfterOrEqual (val start : BitVec 32) : Bool := !isBefore val start

end AexKernel.Net
