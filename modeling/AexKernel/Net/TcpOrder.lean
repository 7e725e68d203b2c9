import AexKernel.Net.TcpSending

/-! # The order of the send sequence

`packetReceived` takes every acknowledgement that is not before `snd_una`, also one for data that
was never sent. -/

namespace AexKernel.Net

open Library Mem List Or

namespace TcpSocket

/-! ## Queues behind the window -/

/-- The number of sequence numbers that have been sent and not acknowledged. -/
def inFlight (s : TcpSocket) : ℕ := (s.block.sndNxt - s.block.sndUna).toNat

/-- The window is ordered, and the queued segments are acknowledged by numbers inside of it. -/
structure SendOrder (s : TcpSocket) : Prop where
  window : SerialLe s.block.sndUna s.block.sndNxt
  queued : ∀ seg ∈ s.retransmissionQueue, (seg.ackWith - s.block.sndUna).toNat ≤ s.inFlight

section Acknowledgement

variable {s : TcpSocket} (ho : s.SendOrder) {seg : Segment} {ackn : BitVec 32}
include ho

theorem SendOrder.not_removed (hm : seg ∈ s.retransmissionQueue)
    (hold : SerialLe ackn s.block.sndUna) (hn : ackn ≠ s.block.sndUna)
    (hs : SerialLe ackn s.block.sndNxt) : ¬ isBeforeOrEqual seg.ackWith ackn := by
  have hd := hold.toNat_sub ho.window
  have he := ho.queued seg hm
  have hp : 0 < (s.block.sndUna - ackn).toNat := Nat.pos_of_ne_zero fun hz =>
    hn (sub_eq_zero.mp (BitVec.eq_of_toNat_eq hz)).symm
  rw [inFlight] at he
  rw [SerialLe] at hs
  have hu : (seg.ackWith - ackn).toNat =
      (s.block.sndUna - ackn).toNat + (seg.ackWith - s.block.sndUna).toNat :=
    toNat_sub_add_sub (by omega)
  exact not_isBeforeOrEqual (by omega) (by rw [SerialLe]; omega)

end Acknowledgement

variable {s a t s' : TcpSocket}

/-- **What an acknowledgement does that is not after `snd_nxt`**. -/
theorem SendOrder.acked {h : TcpHeader} (ho : s.SendOrder) (ha : Acked s h a)
    (hs : Acknowledges h → SerialLe h.ackNumber s.block.sndNxt) :
    a.SendOrder ∧ SerialLe s.block.sndUna a.block.sndUna ∧
      ∀ seg ∈ s.retransmissionQueue, seg ∈ a.retransmissionQueue ∨
        Acknowledges h ∧ SerialLe s.block.sndUna h.ackNumber ∧ SerialLe seg.ackWith h.ackNumber := by
  by_cases hy : Acknowledges h
  · have hq := ackScan_queue (ha.scan hy)
    have hw := ha.window hy
    have hs := hs hy
    have hn := ha.sndNxt
    by_cases hl : SerialLe s.block.sndUna h.ackNumber
    · -- the acknowledgement is in the window
      rw [if_pos (isAfterOrEqual_of_serialLe hl)] at hw
      have hu : a.block.sndUna = h.ackNumber := (Prod.mk.inj hw).1
      have hd := hl.toNat_sub hs
      refine ⟨⟨?_, fun seg hm => ?_⟩, ?_, fun seg hm => ?_⟩
      · rwa [hu, hn]
      · rw [hq, mem_filter, Bool.not_eq_true'] at hm
        have ht := mt (isBeforeOrEqual_iff hl hs (ho.queued seg hm.1)).mpr (Bool.eq_false_iff.mp hm.2)
        have he := ho.queued seg hm.1
        rw [inFlight] at he
        rw [inFlight, hu, hn, toNat_sub_of_le (Nat.le_of_not_le ht)]
        omega
      · rwa [hu]
      by_cases hb : isBeforeOrEqual seg.ackWith h.ackNumber
      · have he := (isBeforeOrEqual_iff hl hs (ho.queued seg hm)).mp hb
        refine inr ⟨hy, hl, ?_⟩
        rw [SerialLe] at hl ⊢
        rw [toNat_sub_of_le he]
        omega
      · refine inl ?_
        rw [hq, mem_filter]
        exact ⟨hm, by simp [hb]⟩
    · -- the acknowledgement is old
      have hold := (hs.total ho.window).resolve_right hl
      have hne : h.ackNumber ≠ s.block.sndUna := fun heq => hl (heq ▸ .refl _)
      have hb : isBefore h.ackNumber s.block.sndUna :=
        isBefore_of_pos (Nat.pos_of_ne_zero fun hz =>
          hne (sub_eq_zero.mp (BitVec.eq_of_toNat_eq hz)).symm) hold
      rw [if_neg (by simp [isAfterOrEqual, hb])] at hw
      have hu : a.block.sndUna = s.block.sndUna := (Prod.mk.inj hw).1
      have hsa : a.retransmissionQueue = s.retransmissionQueue := by
        rw [hq, filter_eq_self]
        intro seg hm
        simpa using ho.not_removed hm hold hne hs
      refine ⟨⟨?_, fun seg hm => ?_⟩, ?_, fun seg hm => inl (hsa ▸ hm)⟩
      · rw [hu, hn]
        exact ho.window
      · rw [inFlight, hu, hn]
        exact ho.queued seg (hsa ▸ hm)
      · rw [hu]
        exact .refl _
  · obtain ⟨hu, -, -, hq⟩ := ha.without hy
    refine ⟨⟨?_, fun seg hm => ?_⟩, ?_, fun seg hm => inl (hq ▸ hm)⟩
    · rw [hu, ha.sndNxt]
      exact ho.window
    · rw [inFlight, hu, ha.sndNxt]
      exact ho.queued seg (hq ▸ hm)
    · rw [hu]
      exact .refl _

theorem SendOrder.push (ho : s.SendOrder) {n : ℕ} {seg : Segment}
    (hr : 2 * (s.inFlight + n) < 2 ^ 32) (hu : t.block.sndUna = s.block.sndUna)
    (hn : t.block.sndNxt = s.block.sndNxt + BitVec.ofNat 32 n) (hs : seg.ackWith = t.block.sndNxt)
    (hq : t.retransmissionQueue = s.retransmissionQueue ++ [seg]) : t.SendOrder := by
  have hd : t.inFlight = s.inFlight + n := by
    rw [inFlight, hu, hn, toNat_add_sub (by rw [inFlight] at hr; omega)]
    rfl
  refine ⟨?_, fun x hm => ?_⟩
  · rw [SerialLe]
    change 2 * t.inFlight < 2 ^ 32
    omega
  rw [hq] at hm
  rcases mem_append.mp hm with hm | hm
  · have hx := ho.queued x hm
    rw [hu]
    omega
  · rw [mem_singleton.mp hm, hs]
    exact le_rfl

/-! ## Steps -/

/-- The steps that keep the order. -/
def WithinSent (s : TcpSocket) : ThreadAction → Prop
  | .packetReceived _ _ buffer _ =>
    s.Open → s.block.state ≠ .synSent → s.block.state ≠ .synReceived →
      Acknowledges (TcpHeader.parse buffer) →
        SerialLe (TcpHeader.parse buffer).ackNumber s.block.sndNxt
  | .timer _ | .shutdownPass _ => s.Open → 2 * (s.inFlight + s.txBuffer.readAvailable + 1) < 2 ^ 32
  | _ => True

instance (s : TcpSocket) : (a : ThreadAction) → Decidable (s.WithinSent a)
  | .packetReceived _ _ _ _ | .timer _ | .shutdownPass _ => inferInstanceAs (Decidable (_ → _))
  | .connect _ _ _ | .connectEnd | .listen _ | .sendPass _ | .receivePass _ | .shutdown _ | .close =>
    .isTrue trivial

/-- The segment leaves the queue because of an acknowledgement of data that has been sent. -/
def AckedBy (s : TcpSocket) (a : ThreadAction) (seg : Segment) : Prop :=
  ∃ src srcPort buffer uptime, a = .packetReceived src srcPort buffer uptime ∧
    Acknowledges (TcpHeader.parse buffer) ∧
    SerialLe s.block.sndUna (TcpHeader.parse buffer).ackNumber ∧
    SerialLe (TcpHeader.parse buffer).ackNumber s.block.sndNxt ∧
    SerialLe seg.ackWith (TcpHeader.parse buffer).ackNumber

/-- What a step may do to the window and the queue. -/
structure Forward (s : TcpSocket) (a : ThreadAction) (s' : TcpSocket) : Prop where
  sndUna : SerialLe s.block.sndUna s'.block.sndUna
  removed : ∀ seg ∈ s.retransmissionQueue,
    (∃ seg' ∈ s'.retransmissionQueue, Resent seg seg') ∨ AckedBy s a seg

variable {a : ThreadAction}

theorem Forward.of_subset (hu : s'.block.sndUna = s.block.sndUna)
    (hq : s.retransmissionQueue ⊆ s'.retransmissionQueue) : Forward s a s' :=
  ⟨hu ▸ .refl _, fun seg hm => inl ⟨seg, hq hm, .refl seg⟩⟩

theorem SendOrder.congr (ho : s.SendOrder) (hu : s'.block.sndUna = s.block.sndUna)
    (hn : s'.block.sndNxt = s.block.sndNxt) (hq : s'.retransmissionQueue =
      s.retransmissionQueue) :
    s'.SendOrder := by
  refine ⟨by rw [hu, hn]; exact ho.window, fun seg hm => ?_⟩
  rw [inFlight, hu, hn]
  exact ho.queued seg (hq ▸ hm)

theorem sendOrder_syn (s : TcpSocket) (now : ℕ) (hq : s.retransmissionQueue = []) :
    (s.syn now).1.SendOrder := by
  refine ⟨?_, fun seg hm => ?_⟩
  · change SerialLe (initialSeq now) (initialSeq now + 1)
    rw [SerialLe, add_sub_cancel_left]
    decide
  change seg ∈ s.retransmissionQueue ++ [_] at hm
  rw [hq, nil_append] at hm
  rw [mem_singleton.mp hm]
  exact le_rfl

theorem SendStep.order (ht : SendStep s a s') (ho : s.Open → s.SendOrder) (hw : s.WithinSent a)
    (hp' : s'.Open) : s'.SendOrder ∧ (s.Open → Forward s a s') := by
  cases ht with
  | shut hc => exact absurd hc hp'.1
  | listens hl => exact absurd hl hp'.2
  | opens hc =>
    exact ⟨sendOrder_syn _ _ rfl, fun hp => absurd hc hp.1⟩
  | keeps hs hst =>
    have hp : s.Open := by rwa [Open, ← hst]
    exact ⟨(ho hp).congr hs.sndUna hs.sndNxt hs.queue,
      fun _ => .of_subset hs.sndUna (hs.queue ▸ Subset.refl _)⟩
  | shuts receiveShut =>
    exact ⟨(ho hp').congr rfl rfl rfl, fun _ => .of_subset rfl (Subset.refl _)⟩
  | moves hd =>
    have hp := open_shutdownState.mp hp'
    rw [shutdownState_eq]
    exact ⟨(ho hp).congr rfl rfl rfl, fun _ => .of_subset rfl (Subset.refl _)⟩
  | fins =>
    have hro := hw hp'
    refine ⟨(ho hp').push (n := 1) (by omega) rfl rfl rfl rfl, fun _ => ?_⟩
    exact .of_subset rfl (subset_append_left _ _)
  | writes =>
    rename_i rest
    obtain ⟨tx, hq⟩ := s.sendToPass_eq rest
    rw [hq] at hp' ⊢
    exact ⟨(ho hp').congr rfl rfl rfl, fun _ => .of_subset rfl (Subset.refl _)⟩
  | packages start hv hi =>
    have hro := hw hp'
    have hz := s.segmentSize_le
    refine ⟨(ho hp').push (n := s.segmentSize) (by omega) rfl rfl rfl rfl, fun _ => ?_⟩
    exact .of_subset rfl (subset_append_left _ _)
  | requeues hr =>
    have ho' := ho hp'
    refine ⟨⟨ho'.window, fun seg' hm => ?_⟩, fun _ => ⟨.refl _, fun seg hm => inl ?_⟩⟩
    · obtain ⟨seg, hse, _, _, rfl⟩ := exists_resent hr hm
      exact ho'.queued seg hse
    · exact exists_resent_of_mem hr hm
  | @acks src srcPort buffer uptime a s' hp ha hs hst =>
    have he (hy : Acknowledges (TcpHeader.parse buffer)) :
        SerialLe (TcpHeader.parse buffer).ackNumber s.block.sndNxt := by
      by_cases hop : s.block.state = .synSent ∨ s.block.state = .synReceived
      · rw [ha.opening hy hop]
        exact .refl _
      · exact hw hp (fun h => hop (inl h)) (fun h => hop (inr h)) hy
    obtain ⟨hor, hfo, hre⟩ := (ho hp).acked ha he
    refine ⟨hor.congr hs.sndUna hs.sndNxt hs.queue, fun _ => ⟨?_, fun seg hm => ?_⟩⟩
    · rwa [hs.sndUna]
    rcases hre seg hm with hk | ⟨hy, hf, hb⟩
    · exact inl ⟨seg, hs.queue ▸ hk, .refl seg⟩
    · exact inr ⟨_, _, _, _, rfl, hy, hf, he hy, hb⟩

/-! ## Half-open connections -/

/-- The sockets of a run: the order of an open connection, and for a listener half-open connections
with nothing under way. -/
structure Ordered (s : TcpSocket) : Prop where
  order : s.Open → s.SendOrder
  entries : ∀ entry ∈ s.entries, entry.block.sndUna = entry.block.sndNxt

theorem ordered_spawned (h : s.Ordered) (src : IPv4Addr) (port : BitVec 16)
    (buf : List (BitVec 8)) (now : ℕ) :
    (∀ entry ∈ (s.packetReceived src port buf now).1.entries,
      entry.block.sndUna = entry.block.sndNxt) ∧
    ∀ child, (s.packetReceived src port buf now).2.2 = some child → child.Ordered := by
  rw [packetReceived]
  split_ifs with ht hcl hi
  · exact ⟨h.entries, fun _ hn => by cases hn⟩
  · exact ⟨h.entries, fun _ hn => by cases hn⟩
  · have hl := listened_packetReceivedListen src port buf now h.entries
      (fun _ _ => rfl) fun _ _ _ he => he
    refine ⟨hl.entries, fun child hc => ?_⟩
    obtain ⟨-, entry, he, rfl⟩ := hl.spawned child hc
    refine ⟨fun _ => ⟨?_, forall_mem_nil _⟩, forall_mem_nil _⟩
    change SerialLe entry.block.sndUna entry.block.sndNxt
    rw [he]
    exact .refl _
  refine ⟨fun entry hm => ?_, fun _ hn => by cases hn⟩
  rw [TcpSocket.entries] at hm
  rcases (s.keepsSending_packetReceivedOpen buf).listenQueue with hs | hnon
  · rw [hs] at hm
    exact h.entries entry hm
  · rw [hnon] at hm
    cases hm

end TcpSocket

namespace TcpThreads

open TcpSocket

/-- The sockets and their threads that runs of `allowed` steps reach. -/
inductive Reachable (allowed : TcpSocket → ThreadAction → Prop) : TcpThreads → Prop
  | create (deviceAddress : IPv4Addr) (sourcePort : BitVec 16) :
      Reachable allowed { socket := { deviceAddress := deviceAddress, sourcePort := sourcePort } }
  | spawn {t : TcpThreads} {child : TcpSocket} (run : Reachable allowed t) (src : IPv4Addr)
      (srcPort : BitVec 16) (buffer : List (BitVec 8)) (uptime : ℕ)
      (spawned : (t.socket.packetReceived src srcPort buffer uptime).2.2 = some child) :
      Reachable allowed { socket := child }
  | step {t t' : TcpThreads} (run : Reachable allowed t) (a : ThreadAction)
      (ok : allowed t.socket a) (next : t.step a = .ok t') : Reachable allowed t'

variable {t t' : TcpThreads}

theorem Reachable.of_reach {allowed : TcpSocket → ThreadAction → Prop} (first : Reachable allowed t)
    (run : Reach TcpThreads.step (fun t a => allowed t.socket a) t t') : Reachable allowed t' := by
  induction run with
  | refl => exact first
  | step a _ ok next ih => exact ih.step a ok next

variable {a : ThreadAction}

theorem entries_of_send {sent : List Packet} (h : t.send a = .ok (t', sent))
    (hn : ∀ src srcPort buffer uptime, a ≠ .packetReceived src srcPort buffer uptime) :
    t'.socket.entries ⊆ t.socket.entries := by
  have hs := socketStep_of_send h
  generalize t'.socket = s' at hs
  cases hs with
  | same => exact Subset.refl _
  | reset => exact nil_subset _
  | opens => exact Subset.refl _
  | listens => exact nil_subset _
  | receives => exact absurd rfl (hn _ _ _ _)
  | @writes rest =>
    obtain ⟨tx, he⟩ := t.socket.sendToPass_eq rest
    rw [he]
    exact Subset.refl _
  | @reads call => exact (t.socket.receiveFromPass_spec call).2.2 ▸ Subset.refl _
  | packages => exact Subset.refl _
  | acks => exact Subset.refl _
  | requeues => exact Subset.refl _
  | shuts => exact Subset.refl _
  | moves =>
    rw [shutdownState_eq]
    exact Subset.refl _
  | fins => exact Subset.refl _

theorem ordered_step (h : t.socket.Ordered) (hw : t.socket.WithinSent a) (ht : t.step a =
      .ok t') :
    t'.socket.Ordered := by
  obtain ⟨sent, hs⟩ := step_eq_ok.mp ht
  refine ⟨fun ho' => ((sendStep_of_send hs).order h.order hw ho').1, ?_⟩
  by_cases hp : ∃ src srcPort buffer uptime, a = .packetReceived src srcPort buffer uptime
  · obtain ⟨src, srcPort, buffer, uptime, rfl⟩ := hp
    cases hs
    exact (ordered_spawned h src srcPort buffer uptime).1
  · have hu := entries_of_send hs fun src srcPort buffer uptime he =>
      hp ⟨src, srcPort, buffer, uptime, he⟩
    exact fun entry hm => h.entries entry (hu hm)

theorem Reachable.ordered (run : Reachable WithinSent t) : t.socket.Ordered := by
  induction run with
  | create deviceAddress sourcePort =>
    exact ⟨fun hop => absurd rfl hop.1, forall_mem_nil _⟩
  | spawn _ src srcPort buffer uptime spawned ih =>
    exact (ordered_spawned ih src srcPort buffer uptime).2 _ spawned
  | step _ a ok next ih => exact ordered_step ih ok next

/-- The law of the send sequence for a socket in a synchronized state. -/
structure SendLaw (allowed : TcpSocket → ThreadAction → Prop) (t : TcpThreads) : Prop where
  ordered : SerialLe t.socket.block.sndUna t.socket.block.sndNxt
  forward : ∀ a t', allowed t.socket a → t.step a = .ok t' → t'.socket.Synchronized →
    t.socket.Forward a t'.socket

/-- **The send sequence keeps its order** in every run that stays within what has been sent. -/
theorem send_law {t : TcpThreads} (run : Reachable WithinSent t) (hs : t.socket.Synchronized) :
    SendLaw WithinSent t := by
  have hor := run.ordered
  refine ⟨(hor.order hs.isOpen).window, fun a t' hwi hst hs' => ?_⟩
  obtain ⟨sent, hse⟩ := step_eq_ok.mp hst
  exact ((sendStep_of_send hse).order hor.order hwi hs'.isOpen).2 hs.isOpen

/-- A socket connects to its peer, whose SYN-ACK opens the connection. -/
def connecting : List ThreadAction :=
  [.connect 2 80 0,
   .packetReceived 2 80 (TcpHeader.encode
     { sourcePort := 80, destinationPort := 49152, seqNumber := 500, ackNumber := 2138,
       bitvalues := 0x5012, window := 1000, checksum := 0, urgentPointer := 0 }) 0]

theorem send_law_oneOfTwo : ∃ t, Reachable WithinSent t ∧ t.socket.Synchronized ∧
    t.socket.block.sndUna = 2139 ∧ t.socket.block.sndNxt = 2140 ∧ SendLaw WithinSent t := by
  obtain ⟨t, ht, hs, hun, hnx⟩ : ∃ t ∈ execute step (fun t a => t.socket.WithinSent a)
      { socket := { deviceAddress := 1, sourcePort := 49152 } }
      (connecting ++ sendByte 0x61 ++ sendByte 0x62 ++ [ackFromPeer 2139]),
      t.socket.Synchronized ∧ t.socket.block.sndUna = 2139 ∧ t.socket.block.sndNxt = 2140 := by
    decide
  have run := (Reachable.create 1 49152).of_reach (Reach.refl.execute ht)
  exact ⟨t, run, hs, hun, hnx, send_law run hs⟩

theorem not_sendLaw_unsent : ¬ ∀ t, Reachable (fun _ _ => True) t → t.socket.Synchronized →
    SendLaw (fun _ _ => True) t := by
  intro h
  obtain ⟨t, ht, hs, hun, hnx⟩ : ∃ t ∈ execute step (fun _ _ => True)
      { socket := { deviceAddress := 1, sourcePort := 49152 } }
      (connecting ++ [ackFromPeer 3138]),
      t.socket.Synchronized ∧ t.socket.block.sndUna = 3138 ∧ t.socket.block.sndNxt = 2138 := by
    decide
  have hla := (h t ((Reachable.create 1 49152).of_reach (Reach.refl.execute ht)) hs).ordered
  rw [hun, hnx] at hla
  exact absurd hla (by decide)

end TcpThreads

end AexKernel.Net
