import AexKernel.Net.TcpSending

/-! # The scan of the retransmission queue

`retransmit` takes the number of queued segments once and releases the lock around every segment it
sends. -/

namespace AexKernel.Net

open Library Mem List

namespace TcpSocket

/-! ## Reads of the queue -/

def Touch.Queued (touch : Touch) (queue : List Segment) : Prop :=
  ∃ seg, touch.seg = some seg ∧ queue[touch.index]? = some seg

variable {s : TcpSocket}

theorem scanLoop_spec {now count : ℕ} (hc : count ≤ s.retransmissionQueue.length)
    (fuel i : ℕ) :
    (∀ touch ∈ (s.scanLoop now count fuel i).touched, touch.Queued s.retransmissionQueue) ∧
    ∀ r, (s.scanLoop now count fuel i).outcome = .ok r → ∀ k ∈ r.2.2,
      k.count ≤ r.1.retransmissionQueue.length := by
  induction fuel generalizing i with
  | zero =>
    refine ⟨forall_mem_nil _, fun r hr k hk => ?_⟩
    cases hr
    cases hk
  | succ fuel ih =>
    rw [scanLoop]
    by_cases hi : i < count
    · have hl : i < s.retransmissionQueue.length := hi.trans_le hc
      have hg := getElem?_eq_getElem hl
      have hf : vectorAt s.retransmissionQueue i = some s.retransmissionQueue[i] := by
        rw [vectorAt, hg, Option.some_or]
      have ht : Touch.Queued ⟨i, some s.retransmissionQueue[i]⟩
          s.retransmissionQueue := ⟨_, rfl, hg⟩
      rw [if_pos hi, hf]
      dsimp only
      split_ifs
      · obtain ⟨he, hle⟩ := ih (i + 1)
        exact ⟨forall_mem_cons.mpr ⟨ht, he⟩, hle⟩
      · refine ⟨forall_mem_singleton.mpr ht, fun r hr k hk => ?_⟩
        cases hr
        cases hk
      refine ⟨forall_mem_singleton.mpr ht, fun r hr k hk => ?_⟩
      cases hr
      cases hk
      rwa [vectorSet, length_set]
    · rw [if_neg hi]
      refine ⟨forall_mem_nil _, fun r hr k hk => ?_⟩
      cases hr
      cases hk

/-! ## Steps that take nothing out of the queue -/

/-- A segment that acknowledges nothing that is queued and does not close the connection. -/
def SparesSegment (s : TcpSocket) (buffer : List (BitVec 8)) : Prop :=
  let h := TcpHeader.parse buffer
  ¬ hasFlag h.bitvalues tcpRst ∧
  (hasFlag h.bitvalues tcpAck →
    (∀ seg ∈ s.retransmissionQueue, ¬ isBeforeOrEqual seg.ackWith h.ackNumber) ∧
    (s.block.state = .synSent ∨ s.block.state = .synReceived → h.ackNumber = s.block.sndNxt)) ∧
  (h.seqNumber = s.block.rcvNxt → (buffer.drop h.hdrLen).length ≤ s.rxBuffer.writeAvailable)
deriving Decidable

/-- The steps of other threads that take nothing out of the queue. -/
def Spares (s : TcpSocket) : ThreadAction → Prop
  | .connect _ _ _ => s.block.state ≠ .closed
  | .connectEnd => s.block.state = .established ∨ s.block.state = .finWait1 ∨
      s.block.state = .finWait2 ∨ s.block.state = .closeWait
  | .close => s.block.state = .closeWait ∨ s.block.state = .lastAck ∨ s.block.state = .closed
  | .packetReceived _ _ buffer _ => s.SparesSegment buffer
  | _ => True

instance (s : TcpSocket) : (a : ThreadAction) → Decidable (s.Spares a)
  | .connect _ _ _ => inferInstanceAs (Decidable (_ ≠ _))
  | .connectEnd => inferInstanceAs (Decidable (_ ∨ _))
  | .close => inferInstanceAs (Decidable (_ ∨ _))
  | .packetReceived _ _ buffer _ => inferInstanceAs (Decidable (s.SparesSegment buffer))
  | .listen _ | .sendPass _ | .receivePass _ | .timer _ | .shutdown _ | .shutdownPass _ =>
    .isTrue trivial

section Spared

variable {h : TcpHeader}
  (hspare : hasFlag h.bitvalues tcpAck → (∀ seg ∈ s.retransmissionQueue, ¬ isBeforeOrEqual seg.ackWith h.ackNumber) ∧ (s.block.state = .synSent ∨ s.block.state = .synReceived → h.ackNumber = s.block.sndNxt))
include hspare

theorem receiveAck_of_none : ∃ a, s.receiveAck h = .goOn a [] ∧
    a.retransmissionQueue = s.retransmissionQueue ∧ a.rxBuffer = s.rxBuffer := by
  rw [receiveAck]
  by_cases ha : hasFlag h.bitvalues tcpAck
  · obtain ⟨hn, hs⟩ := hspare ha
    obtain ⟨una, wnd, hu, -⟩ := s.updateWindow_spec h
    rw [if_pos ha, hu]
    rw [if_neg fun hb => hb.2 (hs hb.1), ackScan_of_none s.block.state hn]
    exact ⟨_, rfl, rfl, rfl⟩
  · rw [if_neg ha]
    exact ⟨s, rfl, rfl, rfl⟩

theorem queue_receiveSegment (hr : ¬ hasFlag h.bitvalues tcpRst) {seqn : BitVec 32}
    {data : List (BitVec 8)}
    (ho : h.seqNumber = seqn → data.length ≤ s.rxBuffer.writeAvailable) :
    (s.receiveSegment h seqn data).1.retransmissionQueue = s.retransmissionQueue := by
  obtain ⟨rcvNxt, sent, hs⟩ := s.receiveSyn_spec hr
  obtain ⟨a, hg, hq, hx⟩ := receiveAck_of_none (s := { s with block := { s.block with
    rcvNxt := rcvNxt, state := synNext h s.block.state } }) (h := h) fun hf =>
      ⟨(hspare hf).1, fun hop => (hspare hf).2 (opening_synNext.mp hop)⟩
  rw [receiveSegment, hs]
  dsimp only
  rw [hg]
  rcases a.receiveRest_cases h seqn data with ⟨-, he, hu⟩ | ha
  · rw [hx] at hu
    exact absurd (ho he) (Nat.not_le.mpr hu)
  · exact ha.1.queue.trans hq

end Spared

variable {buffer : List (BitVec 8)}

theorem queue_packetReceivedOpen (hspare : s.SparesSegment buffer) :
    (s.packetReceivedOpen buffer).1.retransmissionQueue = s.retransmissionQueue := by
  obtain ⟨hr, ha, ho⟩ := hspare
  obtain ⟨mss, hop, -⟩ := s.receiveOptions_eq buffer (TcpHeader.parse buffer).hdrLen
  rw [packetReceivedOpen, if_neg hr, hop]
  exact queue_receiveSegment (s := s.withMss mss) ha hr ho

theorem queue_listened (src : IPv4Addr) (port : BitVec 16) (buf : List (BitVec 8))
    (now : ℕ) :
    (s.packetReceivedListen src port buf now).1.retransmissionQueue =
      s.retransmissionQueue := by
  obtain ⟨queue, accepted, backlog, he⟩ := (listened_packetReceivedListen (P := fun _ => True)
    (s := s) src port buf now (fun _ _ => trivial) (fun _ _ => trivial)
    fun _ _ _ _ => trivial).socket
  rw [he]

theorem queue_packetReceived {src : IPv4Addr} {port : BitVec 16}
    (hspare : s.SparesSegment buffer) (now : ℕ) :
    (s.packetReceived src port buffer now).1.retransmissionQueue =
      s.retransmissionQueue := by
  rw [packetReceived]
  split_ifs
  · rfl
  · rfl
  · exact queue_listened src port buffer now
  · exact queue_packetReceivedOpen hspare

end TcpSocket

namespace TcpThreads

open TcpSocket

/-- Every read that the timer thread makes in `retransmit` leads to the segment at its index. -/
def TouchesQueued (t : TcpThreads) : Prop :=
  ∀ uptime, ∀ sec ∈ t.scanned uptime, ∀ touch ∈ sec.touched,
    touch.Queued t.socket.retransmissionQueue

/-- While a scan has released the lock, the other threads take nothing out of the queue. -/
def Undisturbed (t : TcpThreads) (a : ThreadAction) : Prop :=
  match t.timer with
  | .scanning _ => t.socket.Spares a
  | _ => True

instance (t : TcpThreads) (a : ThreadAction) : Decidable (Undisturbed t a) := by
  unfold Undisturbed
  split
  · exact inferInstance
  · exact .isTrue trivial

/-- The scan that is under way does not count more segments than there are. -/
def Counted (t : TcpThreads) : Prop :=
  ∀ k, t.timer = .scanning k → k.count ≤ t.socket.retransmissionQueue.length

variable {t t' : TcpThreads}

theorem Counted.touchesQueued (h : t.Counted) : t.TouchesQueued := by
  intro uptime sec hs
  rw [scanned] at hs
  split at hs
  · cases hs
    exact (scanLoop_spec le_rfl _ _).1
  · next k hk =>
    cases hs
    exact (scanLoop_spec (h k hk) _ _).1
  · cases hs

theorem counted_afterScan {r : TcpSocket × List Packet × Option Scan}
    (h : ∀ k ∈ r.2.2, k.count ≤ r.1.retransmissionQueue.length) : (t.afterScan r).Counted := by
  intro k hk
  rw [afterScan] at hk ⊢
  split at hk
  · cases hk
  next k' hk' =>
  obtain rfl := TimerPosition.scanning.inj hk
  exact h k' hk'

theorem counted_stepTimer {now : ℕ} {sent : List Packet} (h : t.Counted)
    (hs : t.stepTimer now = .ok (t', sent)) : t'.Counted := by
  rw [stepTimer] at hs
  split at hs
  · next hi =>
    split_ifs at hs
    · cases hs
      exact h
    · cases hs
      exact fun k hk => by cases hk
  · next start hp =>
    split_ifs at hs
    · cases hs
      exact fun k hk => by cases hk
    cases hs
    intro k hk
    rw [show _ = t.timer from rfl, hp] at hk
    cases hk
  · obtain ⟨r, hr, hs⟩ := bind_eq_ok.mp hs
    cases hs
    exact counted_afterScan ((scanLoop_spec le_rfl _ _).2 r hr)
  · next k hk =>
    obtain ⟨r, hr, hs⟩ := bind_eq_ok.mp hs
    cases hs
    exact counted_afterScan ((scanLoop_spec (h k hk) _ _).2 r hr)

theorem Counted.of_length (h : t.Counted) (ht : t'.timer = t.timer)
    (hl : ∀ k, t.timer = .scanning k → t.socket.retransmissionQueue.length ≤
      t'.socket.retransmissionQueue.length) :
    t'.Counted := fun k hk => by
  rw [ht] at hk
  exact (h k hk).trans (hl k hk)

theorem length_stepShutdown (t : TcpThreads) (ho : ℕ) :
    (t.stepShutdown ho).timer = t.timer ∧
      (t.stepShutdown ho).socket.retransmissionQueue = t.socket.retransmissionQueue := by
  rw [stepShutdown]
  split
  · exact ⟨rfl, rfl⟩
  next s goesOn hs =>
  obtain ⟨receiveShut, rfl, -⟩ := shutdown_eq_ok hs
  exact ⟨rfl, rfl⟩

theorem length_stepShutdownPass (t : TcpThreads) (now : ℕ) :
    (t.stepShutdownPass now).1.timer = t.timer ∧
      t.socket.retransmissionQueue.length ≤
        (t.stepShutdownPass now).1.socket.retransmissionQueue.length := by
  rw [stepShutdownPass]
  split
  · exact ⟨rfl, le_rfl⟩
  · split_ifs
    · refine ⟨rfl, le_of_eq ?_⟩
      rw [shutdownState]
      split <;> rfl
    · exact ⟨rfl, le_rfl⟩
  · refine ⟨rfl, ?_⟩
    change _ ≤ (t.socket.retransmissionQueue ++ [_]).length
    rw [length_append]
    exact Nat.le_add_right _ _
  · split_ifs <;> exact ⟨rfl, le_rfl⟩

theorem Counted.step {a : ThreadAction} (h : t.Counted) (ha : Undisturbed t a)
    (hst : t.step a = .ok t') : t'.Counted := by
  obtain ⟨sent, he⟩ := step_eq_ok.mp hst
  -- the condition is about the other threads of a scan that is under way
  have hp (k : Scan) (hk : t.timer = .scanning k) : t.socket.Spares a := by
    rw [Undisturbed, hk] at ha
    exact ha
  cases a with
  | connect addr port uptime =>
    rw [send, TcpSocket.connect] at he
    split_ifs at he with hop
    · cases he
      exact h
    · cases he
      exact h.of_length rfl fun k hk => absurd (hp k hk) hop
  | connectEnd =>
    cases he
    refine h.of_length rfl fun k hk => le_of_eq ?_
    change _ = t.socket.connectEnd.1.retransmissionQueue.length
    rcases hp k hk with hs | hs | hs | hs <;> rw [connectEnd, hs]
  | listen backlog =>
    rw [send, TcpSocket.listen] at he
    split_ifs at he
    · cases he
      exact h
    · cases he
      exact h.of_length rfl fun k hk => le_rfl
  | packetReceived src srcPort buffer uptime =>
    cases he
    refine h.of_length rfl fun k hk => le_of_eq ?_
    exact congrArg length (queue_packetReceived (hp k hk) uptime).symm
  | sendPass rest =>
    cases he
    obtain ⟨tx, hq⟩ := t.socket.sendToPass_eq rest
    exact h.of_length rfl fun k hk => le_of_eq (by rw [withSocket, hq])
  | receivePass call =>
    cases he
    refine h.of_length rfl fun k hk => le_of_eq (congrArg length ?_)
    exact (t.socket.receiveFromPass_spec call).1.queue.symm
  | timer uptime => exact counted_stepTimer h he
  | shutdown ho =>
    cases he
    obtain ⟨ht, hu⟩ := t.length_stepShutdown ho
    exact h.of_length ht fun k hk => le_of_eq (congrArg length hu.symm)
  | shutdownPass uptime =>
    obtain ⟨rfl, rfl⟩ := Prod.mk.inj (Except.ok.inj he)
    obtain ⟨ht, hl⟩ := t.length_stepShutdownPass uptime
    exact h.of_length ht fun k hk => hl
  | close =>
    obtain ⟨⟨s, more⟩, hc, he⟩ := bind_eq_ok.mp he
    cases he
    refine h.of_length rfl fun k hk => le_of_eq ?_
    rw [TcpSocket.close] at hc
    rcases hp k hk with hs | hs | hs
    · rw [if_pos hs] at hc
      cases hc
    all_goals
      rw [if_neg (by rw [hs]; decide), if_pos (by rw [hs]; decide)] at hc
      cases hc
      rfl

/-- **An undisturbed scan touches queued segments only**, from whatever socket it starts. -/
theorem touches_queued {s : TcpSocket} {t : TcpThreads}
    (run : Reach step Undisturbed { socket := s } t) : t.TouchesQueued := by
  have hco : t.Counted := run.invariant (P := Counted) (fun k hk => by cases hk)
    fun _ _ _ h hall hst => h.step hall hst
  exact hco.touchesQueued

/-- Three bytes are sent, each in a segment of its own, and a tick after their time sends the first
one again. -/
def resendFirst : List ThreadAction :=
  sendByte 0x61 ++ sendByte 0x62 ++ sendByte 0x63 ++
    [.timer 3000000000, .timer 3000000000, .timer 3000000000]

theorem touches_queued_oldAck : ∃ t, Reach step Undisturbed { socket := opened } t ∧
    t.timer = .scanning ⟨3000000000, 1, 3⟩ ∧ t.socket.retransmissionQueue.length = 3 ∧
    t.TouchesQueued := by
  exact exists_reach_both (resendFirst ++ [ackFromPeer 100]) (by decide)
    fun t run => touches_queued run

theorem not_touchesQueued_ack : ¬ ∀ s t,
    Reach step (fun _ _ => True) { socket := s } t → t.TouchesQueued := by
  intro h
  have hfa : ∃ t ∈ execute step (fun _ _ => True) { socket := opened }
      (resendFirst ++ [ackFromPeer 102]), t.timer = .scanning ⟨3000000000, 1, 3⟩ ∧
        t.socket.retransmissionQueue.length = 1 ∧
        ∃ sec ∈ t.scanned 0, ∃ touch ∈ sec.touched, touch.index = 1 := by decide
  obtain ⟨t, ht, -, hlen, sec, hse, touch, hto, hin⟩ := hfa
  obtain ⟨seg, -, hget⟩ := h opened t (Reach.refl.execute ht) 0 sec hse touch hto
  rw [hin] at hget
  have hlt := (List.getElem?_eq_some_iff.mp hget).1
  omega

end TcpThreads

end AexKernel.Net
