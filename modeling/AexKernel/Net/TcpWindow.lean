import AexKernel.Net.TcpSending

/-! # The receive window

`getWindow()` is what the receive buffer can take less a slack of 64 bytes that is never offered. -/

namespace AexKernel.Net

open Library Mem BitVec CircularBuffer TcpThreads

namespace TcpSocket

/-! ## The receive side of a segment -/

/-- Two sockets with the same receive side. -/
structure SameReceiving (s t : TcpSocket) : Prop where
  rxBuffer : t.rxBuffer = s.rxBuffer
  rxLog : t.rxLog = s.rxLog
  rcvNxt : t.block.rcvNxt = s.block.rcvNxt

theorem SameReceiving.refl (s : TcpSocket) : SameReceiving s s := ⟨rfl, rfl, rfl⟩

/-- The receive side after a segment. -/
structure Arrival (s t : TcpSocket) (data : List (BitVec 8)) (counted : ℕ) : Prop where
  room : data.length ≤ s.rxBuffer.writeAvailable
  rxBuffer : t.rxBuffer = (s.rxBuffer.write data).1
  rxLog : t.rxLog = s.rxLog ++ data
  le : data.length ≤ counted
  counted_le : counted ≤ s.rxBuffer.writeAvailable + 1
  rcvNxt : t.block.state = .closed ∨ t.block.rcvNxt = s.block.rcvNxt + BitVec.ofNat 32 counted

section Phases

variable {s t u : TcpSocket} {data : List (BitVec 8)} {counted : ℕ}

theorem SameReceiving.arrival (h : SameReceiving s t) : Arrival s t [] 0 :=
  ⟨Nat.zero_le _, h.rxBuffer, h.rxLog.trans (List.append_nil _).symm, le_rfl, Nat.zero_le _,
    .inr (h.rcvNxt.trans (add_zero _).symm)⟩

theorem arrival_of_closed (hb : t.rxBuffer = s.rxBuffer) (hl : t.rxLog = s.rxLog)
    (hc : t.block.state = .closed) : Arrival s t [] 0 :=
  ⟨Nat.zero_le _, hb, hl.trans (List.append_nil _).symm, le_rfl, Nat.zero_le _, .inl hc⟩

theorem Arrival.of_same (h : SameReceiving s u) (ha : Arrival u t data counted) :
    Arrival s t data counted := by
  obtain ⟨room, rxBuffer, rxLog, le, counted_le, rcvNxt⟩ := ha
  rw [h.rxBuffer] at room rxBuffer counted_le
  rw [h.rxLog] at rxLog
  rw [h.rcvNxt] at rcvNxt
  exact ⟨room, rxBuffer, rxLog, le, counted_le, rcvNxt⟩

theorem receiveFin_receiving (s : TcpSocket) (h : TcpHeader) (seqn : BitVec 32) :
    (s.receiveFin h seqn).rxBuffer = s.rxBuffer ∧
      (s.receiveFin h seqn).rxLog = s.rxLog ∧
      ∃ fin ≤ 1, (s.receiveFin h seqn).block.rcvNxt = s.block.rcvNxt + BitVec.ofNat 32 fin := by
  rw [receiveFin]
  split_ifs
  · dsimp only
    split
    · exact ⟨rfl, rfl, 1, le_rfl, rfl⟩
    · exact ⟨rfl, rfl, 1, le_rfl, rfl⟩
    · exact ⟨rfl, rfl, 1, le_rfl, rfl⟩
    · exact ⟨rfl, rfl, 0, Nat.zero_le _, (add_zero _).symm⟩
  · exact ⟨rfl, rfl, 0, Nat.zero_le _, (add_zero _).symm⟩

theorem receiveData_receiving (s : TcpSocket) (h : TcpHeader) (seqn : BitVec 32)
    (data : List (BitVec 8)) :
    (∃ sent, s.receiveData h seqn data = .done s.reset.1 sent) ∨
    ∃ a sent taken counted, s.receiveData h seqn data = .goOn a sent ∧
      taken.length ≤ counted ∧ counted ≤ s.rxBuffer.writeAvailable ∧
      a.rxBuffer = (s.rxBuffer.write taken).1 ∧ a.rxLog = s.rxLog ++ taken ∧
      a.block.rcvNxt = s.block.rcvNxt + BitVec.ofNat 32 counted := by
  have hn : ∃ taken counted, taken.length ≤ counted ∧ counted ≤ s.rxBuffer.writeAvailable ∧
      s.rxBuffer = (s.rxBuffer.write taken).1 ∧ s.rxLog = s.rxLog ++ taken ∧
      s.block.rcvNxt = s.block.rcvNxt + BitVec.ofNat 32 counted :=
    ⟨[], 0, le_rfl, Nat.zero_le _, rfl, (List.append_nil _).symm, (BitVec.add_zero _).symm⟩
  obtain ⟨taken, counted, hn⟩ := hn
  rw [receiveData]
  split_ifs with hd he hr
  · exact .inr ⟨s, _, taken, counted, rfl, hn⟩
  · exact .inl ⟨_, rfl⟩
  · refine .inr ⟨s.takeData data, [], ?_⟩
    have hf := Nat.not_lt.mp hr
    by_cases hs : s.block.receiveShut
    · exact ⟨[], data.length, rfl, Nat.zero_le _, hf, if_pos hs,
        (if_pos hs).trans (List.append_nil _).symm, rfl⟩
    · exact ⟨data, data.length, rfl, le_rfl, hf, if_neg hs, if_neg hs, rfl⟩
  · exact .inr ⟨s, _, taken, counted, rfl, hn⟩
  · exact .inr ⟨s, _, taken, counted, rfl, hn⟩

theorem receiveRest_arrival (s : TcpSocket) (h : TcpHeader) (seqn : BitVec 32)
    (data : List (BitVec 8)) :
    ∃ taken counted, Arrival s (s.receiveRest h seqn data).1 taken counted := by
  rw [receiveRest]
  obtain ⟨sent, he⟩ | ⟨a, sent, taken, counted, he, hle, hf, hb, hl, hn⟩ :=
    s.receiveData_receiving h seqn data
  · rw [he]
    exact ⟨[], 0, arrival_of_closed rfl rfl rfl⟩
  rw [he]
  obtain ⟨hb', hl', fin, hi, hn'⟩ := a.receiveFin_receiving h seqn
  refine ⟨taken, counted + fin, hle.trans hf, hb'.trans hb, hl'.trans hl, by omega,
    by omega, .inr ?_⟩
  rw [hn', hn, ofNat_add, add_assoc]

theorem receiveAck_receiving (s : TcpSocket) (h : TcpHeader) :
    (∃ a sent, s.receiveAck h = .done a sent ∧ a.rxBuffer = s.rxBuffer ∧ a.rxLog = s.rxLog ∧
      a.block.state = .closed) ∨
    ∃ a sent, s.receiveAck h = .goOn a sent ∧ SameReceiving s a := by
  rw [receiveAck]
  split_ifs with ha
  · obtain ⟨una, wnd, hu, -⟩ := s.updateWindow_eq h
    rw [hu]
    dsimp only
    split_ifs
    · exact .inl ⟨_, _, rfl, rfl, rfl, rfl⟩
    · exact .inl ⟨_, _, rfl, rfl, rfl, rfl⟩
    · exact .inr ⟨_, _, rfl, rfl, rfl, rfl⟩
  · exact .inr ⟨s, [], rfl, .refl s⟩

/-- Bytes are taken in, and a SYN may have set `rcv_nxt` before. -/
abbrev Arrives (s t : TcpSocket) : Prop :=
  ∃ u taken counted, u.rxBuffer = s.rxBuffer ∧ u.rxLog = s.rxLog ∧
    (s.block.state ≠ .synSent → u.block.rcvNxt = s.block.rcvNxt) ∧ Arrival u t taken counted

theorem receiveSegment_arrival (s : TcpSocket) (h : TcpHeader) (seqn : BitVec 32)
    (data : List (BitVec 8)) : Arrives s (s.receiveSegment h seqn data).1 := by
  rw [receiveSegment]
  have hs : (s.receiveSyn h).1.rxBuffer = s.rxBuffer ∧ (s.receiveSyn h).1.rxLog = s.rxLog ∧
      (s.block.state ≠ .synSent → (s.receiveSyn h).1.block.rcvNxt = s.block.rcvNxt) := by
    rw [receiveSyn]
    split_ifs with hop
    · exact ⟨rfl, rfl, fun hn => absurd hop.2 hn⟩
    · exact ⟨rfl, rfl, fun _ => rfl⟩
  generalize s.receiveSyn h = first at hs ⊢
  obtain ⟨u, sent⟩ := first
  dsimp only at hs ⊢
  obtain ⟨a, more, he, hb, hl, hc⟩ | ⟨a, more, he, ha⟩ := u.receiveAck_receiving h
  · rw [he]
    exact ⟨u, [], 0, hs.1, hs.2.1, hs.2.2, arrival_of_closed hb hl hc⟩
  rw [he]
  obtain ⟨taken, counted, hr⟩ := a.receiveRest_arrival h seqn data
  exact ⟨u, taken, counted, hs.1, hs.2.1, hs.2.2, hr.of_same ha⟩

theorem packetReceivedOpen_arrival (s : TcpSocket) (buf : List (BitVec 8)) :
    Arrives s (s.packetReceivedOpen buf).1 := by
  rw [packetReceivedOpen]
  generalize TcpHeader.parse buf = h
  obtain ⟨mss, hop, -⟩ := s.receiveOptions_eq buf h.hdrLen
  rw [hop]
  split_ifs
  · refine ⟨s, [], 0, rfl, rfl, fun _ => rfl, ?_⟩
    rcases receiveRst_cases (s.withMss mss) h s.block.rcvNxt
      with he | he
    · rw [he]
      exact arrival_of_closed rfl rfl rfl
    · rw [he]
      exact SameReceiving.arrival ⟨rfl, rfl, rfl⟩
  · exact receiveSegment_arrival (s.withMss mss) h _ _

theorem packetReceivedListen_receiving (s : TcpSocket) (src : IPv4Addr) (port : BitVec 16)
    (buf : List (BitVec 8)) (now : ℕ) :
    SameReceiving s (s.packetReceivedListen src port buf now).1 := by
  obtain ⟨queue, accepted, backlog, he⟩ :=
    (listened_packetReceivedListen (P := fun _ => True) (s := s) src port buf now
      (fun _ _ => trivial) (fun _ _ => trivial) fun _ _ _ _ => trivial).socket
  rw [he]
  exact ⟨rfl, rfl, rfl⟩

/-- **What a segment does to the receive side**, in every state. -/
theorem packetReceived_arrival (s : TcpSocket) (src : IPv4Addr) (port : BitVec 16)
    (buf : List (BitVec 8)) (now : ℕ) :
    Arrives s (s.packetReceived src port buf now).1 := by
  have hs : ∀ t, SameReceiving s t → Arrives s t :=
    fun t h => ⟨s, [], 0, rfl, rfl, fun _ => rfl, h.arrival⟩
  rw [packetReceived]
  split_ifs
  · exact hs s (.refl s)
  · exact hs s (.refl s)
  · exact hs _ (s.packetReceivedListen_receiving src port buf now)
  · exact s.packetReceivedOpen_arrival buf

end Phases

/-! ## The window -/

/-- What a step does to the receive side. -/
inductive ReceiveStep (s t : TcpSocket) : Prop
  | closed (state : t.block.state = .closed) (size : t.rxBuffer.size = s.rxBuffer.size)
  | opened (state : s.block.state = .closed) (size : t.rxBuffer.size = s.rxBuffer.size)
  | arrived {u : TcpSocket} {data : List (BitVec 8)} {counted : ℕ} (rxBuffer : u.rxBuffer = s.rxBuffer)
      (rcvNxt : s.block.state ≠ .synSent → u.block.rcvNxt = s.block.rcvNxt)
      (arrival : Arrival u t data counted)
  | read (n : ℕ) (there : n ≤ s.rxBuffer.readAvailable) (rxBuffer : t.rxBuffer = (s.rxBuffer.read n).1)
      (rcvNxt : t.block.rcvNxt = s.block.rcvNxt)

variable {s t : TcpSocket}

theorem SameReceiving.receiveStep (h : SameReceiving s t) : ReceiveStep s t :=
  .arrived rfl (fun _ => rfl) h.arrival

theorem ReceiveStep.refl (s : TcpSocket) : ReceiveStep s s := (SameReceiving.refl s).receiveStep

end TcpSocket

namespace TcpThreads

open TcpSocket

variable {t t' : TcpThreads} {sent : List Packet}

end TcpThreads

/-! ## The right edge -/

/-- The threads of a socket, and `rcv_nxt` as a count that does not go around. -/
structure ReceiveCount where
  threads : TcpThreads
  received : ℕ := 0

namespace ReceiveCount

def step (c : ReceiveCount) (a : ThreadAction) : Except Fault ReceiveCount := do
  let threads ← c.threads.step a
  return ⟨threads, c.received +
    (threads.socket.block.rcvNxt - c.threads.socket.block.rcvNxt).toNat⟩

def edge (c : ReceiveCount) : ℕ := c.received + c.threads.socket.getWindow

open TcpSocket

variable {c c' : ReceiveCount}

variable {s : TcpSocket}

end ReceiveCount

end AexKernel.Net
