import AexKernel.Net.TcpProtocol
import AexKernel.Net.TcpReset
import AexKernel.Net.TcpSending

/-! # Acknowledging a retransmission

A peer whose acknowledgement was lost sends its segment again. -/

namespace AexKernel.Net

open Library List TcpHeader
open BitVec (ofNat toNat_zero)

namespace TcpSocket

/-- The sequence numbers that a segment takes. -/
def sequenceLength (buffer : List (BitVec 8)) : ℕ :=
  (buffer.drop (TcpHeader.parse buffer).hdrLen).length +
    if hasFlag (TcpHeader.parse buffer).bitvalues tcpFin then 1 else 0

/-- A segment with data or FIN that lies wholly before `rcv_nxt`. -/
structure Retransmission (s : TcpSocket) (buffer : List (BitVec 8)) : Prop where
  carries : 0 < sequenceLength buffer
  serial : SerialLe (TcpHeader.parse buffer).seqNumber s.block.rcvNxt
  before : sequenceLength buffer ≤ (s.block.rcvNxt - (TcpHeader.parse buffer).seqNumber).toNat

/-- An ACK is sent or will be by the timer, and what is sent acknowledges all that has been
received. -/
def Repairs (after : TcpSocket) (sent : List Packet) : Prop :=
  ((∃ p ∈ sent, hasFlag p.header.bitvalues tcpAck) ∨
      after.block.state ≠ .closed ∧ after.block.sendingCompAck = true) ∧
    ∀ p ∈ sent, hasFlag p.header.bitvalues tcpAck → p.header.ackNumber = after.block.rcvNxt

/-- A segment of which only the RST flag is looked at, if anything. -/
def Ignored (s : TcpSocket) (src : IPv4Addr) (srcPort : BitVec 16) (h : TcpHeader) : Prop :=
  src ≠ s.destinationAddress ∧ srcPort ≠ s.destinationPort ∨ hasFlag h.bitvalues tcpRst

instance (s : TcpSocket) (src : IPv4Addr) (srcPort : BitVec 16) (h : TcpHeader) :
    Decidable (s.Ignored src srcPort h) :=
  inferInstanceAs (Decidable (_ ∨ _))

/-- The segment acknowledges the FIN of a connection that waits for nothing else. -/
def ClosedBy (s : TcpSocket) (h : TcpHeader) : Prop :=
  hasFlag h.bitvalues tcpAck ∧ (ackScan h.ackNumber s.block.state s.retransmissionQueue).2.2 = true
deriving Decidable

/-- The socket stays open and keeps what it has received, and the ACK that it owes. -/
structure SameReceipt (s t : TcpSocket) : Prop where
  rcvNxt : t.block.rcvNxt = s.block.rcvNxt
  sendingCompAck : t.block.sendingCompAck = s.block.sendingCompAck
  state : t.block.state ≠ .closed

variable {s : TcpSocket} {buf : List (BitVec 8)}

theorem Synchronized.ne (h : s.Synchronized) : s.block.state ≠ .closed ∧ s.block.state ≠ .listen ∧
    s.block.state ≠ .synSent ∧ s.block.state ≠ .synReceived := by
  rcases h with h | h | h | h | h | h <;> simp [h]

theorem receiveAck_of_synchronized (hs : s.Synchronized) (mss : ℕ) (h : TcpHeader) :
    ∃ a, SameReceipt s a ∧ (s.withMss mss).receiveAck h =
      if s.ClosedBy h then .done a.close_ [] else .goOn a [] := by
  unfold receiveAck
  by_cases ha : hasFlag h.bitvalues tcpAck
  · obtain ⟨una, wnd, hu, -⟩ :=
      (s.withMss mss).updateWindow_eq h
    rw [if_pos ha, hu]
    dsimp only
    rw [if_neg fun hn => hn.1.elim hs.ne.2.2.1 hs.ne.2.2.2]
    let scan := ackScan h.ackNumber s.block.state s.retransmissionQueue
    refine ⟨{ s with
      block := { s.block with sndMss := mss, sndUna := una, sndWnd := wnd, state := scan.1 }
      retransmissionQueue := scan.2.1 },
      ⟨rfl, rfl, fun hn => hs.ne.1 (ackScan_state nofun nofun hn)⟩, ?_⟩
    by_cases hc : s.ClosedBy h
    · rw [if_pos hc.2, if_pos hc]
    · rw [if_neg fun hl => hc ⟨ha, hl⟩, if_neg hc]
  · rw [if_neg ha]
    refine ⟨s.withMss mss, ⟨rfl, rfl, hs.ne.1⟩, ?_⟩
    rw [if_neg fun hc : s.ClosedBy h => ha hc.1]

theorem Retransmission.ne (h : s.Retransmission buf) :
    (parse buf).seqNumber ≠ s.block.rcvNxt := by
  intro he
  have hp := h.carries
  have hl := h.before
  rw [he, BitVec.sub_self, toNat_zero] at hl
  omega

theorem Retransmission.data_before (h : s.Retransmission buf) :
    isBeforeOrEqual ((parse buf).seqNumber +
      ofNat 32 (buf.drop (parse buf).hdrLen).length) s.block.rcvNxt := by
  have hl := h.before
  have hs := h.serial
  unfold sequenceLength at hl
  unfold SerialLe at hs
  generalize (buf.drop (parse buf).hdrLen).length = n at hl ⊢
  generalize (parse buf).seqNumber = seqn at hl hs ⊢
  have ha : (seqn + ofNat 32 n - seqn).toNat = n := by
    rw [toNat_add_sub (by rw [BitVec.sub_self, toNat_zero]; omega), BitVec.sub_self,
      toNat_zero, Nat.zero_add]
  refine isBeforeOrEqual_of_serialLe ?_
  rw [SerialLe, toNat_sub_of_le (a := seqn) (by omega), ha]
  omega

theorem Retransmission.receiveRst (hs : s.Synchronized) (h : s.Retransmission buf) (mss : ℕ) :
    (s.withMss mss).receiveRst (parse buf)
      s.block.rcvNxt = s.withMss mss := by
  have hb : isBefore (parse buf).seqNumber s.block.rcvNxt :=
    isBefore_of_pos (h.carries.trans_le h.before) h.serial
  rw [TcpSocket.receiveRst, if_neg fun hn => hs.ne.2.2.1 hn.1, if_neg]
  rintro ⟨ha, -⟩
  rw [isAfterOrEqual, hb] at ha
  cases ha

theorem packetReceived_retransmission (hs : s.Synchronized) (h : s.Retransmission buf)
    (src : IPv4Addr) (srcPort : BitVec 16) (uptime : ℕ) :
    ∃ a, SameReceipt s a ∧ s.packetReceived src srcPort buf uptime =
      if s.Ignored src srcPort (parse buf) then (a, [], none)
      else if s.ClosedBy (parse buf) then (a.close_, [], none)
      else (a, if buf.drop (parse buf).hdrLen = [] then []
        else [a.ackManual ((parse buf).seqNumber +
          ofNat 32 (buf.drop (parse buf).hdrLen).length)], none) := by
  unfold packetReceived
  by_cases hp : src ≠ s.destinationAddress ∧ srcPort ≠ s.destinationPort
  · rw [if_pos ⟨hs.ne.2.1, hp⟩]
    exact ⟨s, ⟨rfl, rfl, hs.ne.1⟩, (if_pos (Or.inl hp)).symm⟩
  rw [if_neg fun hn => hp hn.2, if_neg hs.ne.1, if_neg hs.ne.2.1]
  have hold := h.data_before
  have he := h.ne
  unfold packetReceivedOpen
  dsimp only
  obtain ⟨mss, hop, -⟩ := readOptions_eq s.block buf (parse buf).hdrLen
  rw [receiveOptions, hop]
  by_cases hr : hasFlag (parse buf).bitvalues tcpRst
  · rw [if_pos hr, h.receiveRst hs]
    exact ⟨s.withMss mss, ⟨rfl, rfl, hs.ne.1⟩,
      (if_pos (Or.inr hr)).symm⟩
  rw [if_neg hr]
  generalize buf.drop (parse buf).hdrLen = data at hold ⊢
  generalize parse buf = header at hold he hr ⊢
  rw [receiveSegment, receiveSyn, if_neg fun hn => hs.ne.2.2.1 hn.2]
  obtain ⟨a, hsa, ha⟩ := receiveAck_of_synchronized hs mss header
  have hre : ¬ s.Ignored src srcPort header := not_or.mpr ⟨hp, hr⟩
  refine ⟨a, hsa, ?_⟩
  dsimp only
  rw [ha, if_neg hre]
  split_ifs with hc hd
  · rfl
  · dsimp only
    rw [receiveRest, receiveData, if_pos hd]
    dsimp only
    rw [receiveFin, if_neg fun hn => he hn.2]
    rfl
  dsimp only
  rw [receiveRest, receiveData, if_neg hd, if_neg he, hsa.rcvNxt, if_pos hold]
  dsimp only
  rw [receiveFin, if_neg fun hn => he hn.2]
  rfl

/-- A retransmission is answered with an ACK for all that has been received exactly when it is data
that ends at `rcv_nxt` and the connection stays open, or an ACK was owed before anyway. -/
theorem repairs_iff (s : TcpSocket) (src : IPv4Addr) (srcPort : BitVec 16) (buffer : List (BitVec 8))
    (uptime : ℕ) (hsyn : s.Synchronized) (h : s.Retransmission buffer) :
    Repairs (s.packetReceived src srcPort buffer uptime).1
        (s.packetReceived src srcPort buffer uptime).2.1 ↔
      if s.Ignored src srcPort (TcpHeader.parse buffer) ∨
          ¬ s.ClosedBy (TcpHeader.parse buffer) ∧
            buffer.drop (TcpHeader.parse buffer).hdrLen = [] then s.block.sendingCompAck = true
      else ¬ s.ClosedBy (TcpHeader.parse buffer) ∧ (TcpHeader.parse buffer).seqNumber +
        BitVec.ofNat 32 (buffer.drop (TcpHeader.parse buffer).hdrLen).length = s.block.rcvNxt := by
  obtain ⟨a, hsa, heq⟩ := packetReceived_retransmission hsyn h src srcPort uptime
  rw [heq]
  have hsi : Repairs a [] ↔ s.block.sendingCompAck = true := by
    simp [Repairs, hsa.state, hsa.sendingCompAck]
  by_cases hig : s.Ignored src srcPort (parse buffer)
  · rw [if_pos hig, if_pos (Or.inl hig)]
    exact hsi
  rw [if_neg hig]
  by_cases hcl : s.ClosedBy (parse buffer)
  · rw [if_pos hcl, if_neg (not_or.mpr ⟨hig, fun hno => hno.1 hcl⟩)]
    simp [Repairs, close_, hcl]
  rw [if_neg hcl]
  by_cases hda : buffer.drop (parse buffer).hdrLen = []
  · rw [if_pos hda, if_pos (Or.inr ⟨hcl, hda⟩)]
    exact hsi
  rw [if_neg hda, if_neg (not_or.mpr ⟨hig, fun hno => hda hno.2⟩)]
  generalize (parse buffer).seqNumber + ofNat 32 (buffer.drop (parse buffer).hdrLen).length = manual
  have hwf : Segment.WellFormed
      { seq := a.block.sndNxt, ack := manual, flags := tcpAck, headerLen := 20 } :=
    ⟨Or.inl rfl, show tcpAck < 4096 by decide⟩
  have hnu : (a.ackManual manual).header.ackNumber = manual := a.ackNumber_sendSegmentTo hwf _ _
  have hfl : hasFlag (a.ackManual manual).header.bitvalues tcpAck = true :=
    (a.hasFlag_sendSegmentTo hwf _ _ (show tcpAck < 4096 by decide)).trans
      (show hasFlag tcpAck tcpAck = true by decide)
  simp only [Repairs, mem_singleton, exists_eq_left, forall_eq, hfl, hnu, hsa.rcvNxt, true_or,
    true_and, forall_const, hcl, not_false_eq_true]

/-- A segment of the peer of `connected`. -/
def peerSegment (seqn : BitVec 32) (flags : ℕ) (data : List (BitVec 8)) : List (BitVec 8) :=
  TcpHeader.encode
    { sourcePort := 80
      destinationPort := 49152
      seqNumber := seqn
      ackNumber := 1
      bitvalues := 0x5000 ||| flags
      window := 1000
      checksum := 0
      urgentPointer := 0 } ++ data

theorem repairs_iff_lastByte :
    Repairs ((connected .established 1001 1).packetReceived 0x0A000002 80
        (peerSegment 1000 tcpAck [7]) 0).1
      ((connected .established 1001 1).packetReceived 0x0A000002 80
        (peerSegment 1000 tcpAck [7]) 0).2.1 :=
  (repairs_iff (connected .established 1001 1) 0x0A000002 80 (peerSegment 1000 tcpAck [7]) 0
    (by decide) ⟨by decide, by decide, by decide⟩).mpr (by decide)

theorem not_repairs_fin :
    (connected .closeWait 1001 1).Retransmission (peerSegment 1000 tcpFin []) ∧
      (connected .closeWait 1001 1).packetReceived 0x0A000002 80 (peerSegment 1000 tcpFin []) 0 =
        (connected .closeWait 1001 1, [], none) ∧
      ¬ Repairs (connected .closeWait 1001 1) [] := by
  refine ⟨⟨by decide, by decide, by decide⟩, ?_, ?_⟩
  · rfl
  rintro ⟨⟨p, hp, -⟩ | how, -⟩
  · cases hp
  · cases how.2

end TcpSocket

end AexKernel.Net
