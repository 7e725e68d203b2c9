import AexKernel.Library.SerialNumber
import AexKernel.Net.TcpThreads

/-! # Segments and the sending side of a socket

What an incoming segment does to the transmit buffer, the send window, the retransmission queue and
the state of a connection. -/

namespace AexKernel.Net

open Library Mem List Or

/-! ## Sequence numbers -/

variable {val start : BitVec 32}

/-- Half the way around, the larger number is before the smaller one. -/
theorem isBefore_iff (val start : BitVec 32) : isBefore val start ↔ val ≠ start ∧
    if start < val then (start - val).toNat ≤ 2 ^ 31 else (start - val).toNat < 2 ^ 31 := by
  rw [isBefore]
  by_cases he : val = start
  · simp [he]
  rw [if_neg he, and_iff_right he]
  by_cases hl : start < val
  · rw [if_pos hl, if_pos hl, decide_eq_true_eq]
    bv_omega
  · rw [if_neg hl, if_neg hl, decide_eq_true_eq]
    bv_omega

theorem isBefore_iff_of_ne (h : (start - val).toNat ≠ 2 ^ 31) :
    isBefore val start ↔ 1 ≤ (start - val).toNat ∧ (start - val).toNat < 2 ^ 31 := by
  rw [isBefore_iff]
  split_ifs <;> bv_omega

theorem isBefore_comm (h : val ≠ start) : isBefore start val ↔ ¬ isBefore val start := by
  rw [isBefore_iff, isBefore_iff]
  split_ifs <;> bv_omega

theorem isBefore_of_pos (hp : 0 < (start - val).toNat)
    (hl : SerialLe val start) : isBefore val start := by
  rw [SerialLe] at hl
  rw [isBefore_iff]
  split_ifs <;> bv_omega

theorem not_isBefore (hl : SerialLe start val) : ¬ isBefore val start := by
  rw [SerialLe] at hl
  rw [isBefore_iff]
  split_ifs <;> bv_omega

theorem isAfterOrEqual_of_serialLe (hl : SerialLe start val) :
    isAfterOrEqual val start := by
  rw [isAfterOrEqual, Bool.not_eq_true']
  exact Bool.eq_false_iff.mpr (not_isBefore hl)

theorem isBeforeOrEqual_eq (val start : BitVec 32) :
    isBeforeOrEqual val start = (decide (val = start) || isBefore val start) := by
  rw [isBeforeOrEqual, isBefore]
  split_ifs with he <;> simp [he]

theorem isBeforeOrEqual_of_serialLe (hl : SerialLe val start) :
    isBeforeOrEqual val start := by
  rw [isBeforeOrEqual_eq, Bool.or_eq_true]
  by_cases he : val = start
  · exact inl (decide_eq_true he)
  refine inr (isBefore_of_pos (Nat.pos_of_ne_zero fun hz => he ?_) hl)
  exact (sub_eq_zero.mp (BitVec.eq_of_toNat_eq hz)).symm

theorem not_isBeforeOrEqual (hp : 0 < (val - start).toNat)
    (hl : SerialLe start val) : ¬ isBeforeOrEqual val start := by
  rw [isBeforeOrEqual_eq, Bool.or_eq_true]
  rintro (he | hb)
  · rw [of_decide_eq_true he, BitVec.sub_self] at hp
    exact absurd hp (Nat.lt_irrefl 0)
  · exact not_isBefore hl hb

/-- **Sequence numbers are compared by the shorter way around**, and half the way around one of the
two is before the other. -/
theorem serial_comparison (a b d : BitVec 32) :
    ((b - a).toNat ≠ 2 ^ 31 → (isBefore a b ↔ 1 ≤ (b - a).toNat ∧ (b - a).toNat < 2 ^ 31)) ∧
      (a ≠ b → Xor (isBefore a b) (isBefore b a)) ∧
      (isBeforeOrEqual a b ↔ a = b ∨ isBefore a b) ∧ (isAfter a b ↔ isBefore b a) ∧
      (isAfterOrEqual a b ↔ a = b ∨ isBefore b a) ∧
      ((b - a).toNat ≠ 2 ^ 31 → isBefore (a + d) (b + d) = isBefore a b ∧
        isBeforeOrEqual (a + d) (b + d) = isBeforeOrEqual a b ∧
        isAfter (a + d) (b + d) = isAfter a b ∧
        isAfterOrEqual (a + d) (b + d) = isAfterOrEqual a b) := by
  have hadd : b + d - (a + d) = b - a := add_sub_add_right_eq_sub b a d
  have hin : a + d = b + d ↔ a = b := add_left_inj d
  refine ⟨isBefore_iff_of_ne, fun hne => ?_, ?_, ?_, ?_, fun hne => ?_⟩
  · by_cases hbe : isBefore a b
    · exact inl ⟨hbe, mt (isBefore_comm hne).mp (not_not.mpr hbe)⟩
    · exact inr ⟨(isBefore_comm hne).mpr hbe, hbe⟩
  · simp [isBeforeOrEqual_eq]
  · by_cases heq : a = b
    · simp [isAfter, isBeforeOrEqual_eq, heq, isBefore]
    · simp [isAfter, isBeforeOrEqual_eq, heq, isBefore_comm heq]
  · by_cases heq : a = b
    · simp [isAfterOrEqual, heq, isBefore]
    · simp [isAfterOrEqual, heq, isBefore_comm heq]
  · have hbe : isBefore (a + d) (b + d) = isBefore a b := by
      rw [Bool.eq_iff_iff, isBefore_iff_of_ne (hadd.symm ▸ hne), isBefore_iff_of_ne hne, hadd]
    simp [isBeforeOrEqual_eq, isAfter, isAfterOrEqual, hbe, hin]

variable {una ackn nxt x : BitVec 32}

theorem isBeforeOrEqual_iff (hl : SerialLe una ackn) (hs : SerialLe ackn nxt)
    (hx : (x - una).toNat ≤ (nxt - una).toNat) :
    isBeforeOrEqual x ackn ↔ (x - una).toNat ≤ (ackn - una).toNat := by
  have hd := hl.toNat_sub hs
  rw [SerialLe] at hl hs
  constructor
  · intro hb
    by_contra ht
    have hp := toNat_sub_of_le (Nat.le_of_not_le ht)
    exact not_isBeforeOrEqual (by omega) (by rw [SerialLe]; omega) hb
  · intro hx'
    have ha := toNat_sub_of_le hx'
    exact isBeforeOrEqual_of_serialLe (by rw [SerialLe]; omega)

namespace TcpSocket

/-! ## The phases after the acknowledgement -/

/-- The states of a connection that has been opened and is not closed. -/
def Synchronized (s : TcpSocket) : Prop :=
  s.block.state = .established ∨ s.block.state = .finWait1 ∨ s.block.state = .finWait2 ∨
    s.block.state = .closeWait ∨ s.block.state = .closing ∨ s.block.state = .lastAck
deriving Decidable

/-- Two sockets with the same sending side. -/
structure SameSending (s t : TcpSocket) : Prop where
  txBuffer : t.txBuffer = s.txBuffer
  queue : t.retransmissionQueue = s.retransmissionQueue
  sndUna : t.block.sndUna = s.block.sndUna
  sndNxt : t.block.sndNxt = s.block.sndNxt
  sndWnd : t.block.sndWnd = s.block.sndWnd
  sndMss : t.block.sndMss = s.block.sndMss
  sendShut : t.block.sendShut = s.block.sendShut

theorem SameSending.refl (s : TcpSocket) : SameSending s s := ⟨rfl, rfl, rfl, rfl, rfl, rfl, rfl⟩

theorem receiveFromPass_spec (s : TcpSocket) (call : ReceiveCall) :
    SameSending s (s.receiveFromPass call).1 ∧
      (s.receiveFromPass call).1.block.state = s.block.state ∧
      (s.receiveFromPass call).1.entries = s.entries := by
  rw [receiveFromPass]
  split
  · exact ⟨.refl s, rfl, rfl⟩
  split
  · split <;> exact ⟨.refl s, rfl, rfl⟩
  dsimp only
  split <;> exact ⟨⟨rfl, rfl, rfl, rfl, rfl, rfl, rfl⟩, rfl, rfl⟩

theorem sendToPass_eq (s : TcpSocket) (rest : List (BitVec 8)) :
    ∃ tx, (s.sendToPass rest).1 = { s with txBuffer := tx } := by
  rw [sendToPass]
  split_ifs <;> exact ⟨_, rfl⟩

def finNext : TcpState → TcpState
  | .finWait1 => .closing
  | .established => .closeWait
  | state => state

def TakesFin (s : TcpSocket) (h : TcpHeader) : Prop :=
  hasFlag h.bitvalues tcpFin ∧ h.seqNumber = s.block.rcvNxt
deriving Decidable

section Phases

variable (s : TcpSocket) (h : TcpHeader) (seqn : BitVec 32) (data : List (BitVec 8))

theorem receiveFin_spec : SameSending s (s.receiveFin h seqn) ∧
    (s.receiveFin h seqn).block.state =
      if hasFlag h.bitvalues tcpFin ∧ h.seqNumber = seqn then finNext s.block.state
      else s.block.state := by
  rw [receiveFin]
  by_cases hf : hasFlag h.bitvalues tcpFin ∧ h.seqNumber = seqn
  · rw [if_pos hf, if_pos hf]
    dsimp only
    refine ⟨?_, ?_⟩
    · split <;> exact ⟨rfl, rfl, rfl, rfl, rfl, rfl, rfl⟩
    · cases s.block.state <;> rfl
  · rw [if_neg hf, if_neg hf]
    exact ⟨.refl s, rfl⟩

theorem receiveData_cases :
    (∃ sent, s.receiveData h seqn data = .done s.reset.1 sent ∧
      h.seqNumber = seqn ∧ s.rxBuffer.writeAvailable < data.length) ∨
    ∃ a sent, s.receiveData h seqn data = .goOn a sent ∧ SameSending s a ∧
      a.block.state = s.block.state := by
  rw [receiveData]
  split_ifs with hd hs hr
  · exact inr ⟨s, _, rfl, .refl s, rfl⟩
  · exact inl ⟨_, rfl, hs, hr⟩
  · exact inr ⟨_, _, rfl, ⟨rfl, rfl, rfl, rfl, rfl, rfl, rfl⟩, rfl⟩
  · exact inr ⟨s, _, rfl, .refl s, rfl⟩
  · exact inr ⟨s, _, rfl, .refl s, rfl⟩

theorem receiveRest_cases :
    ((s.receiveRest h seqn data).1 = s.reset.1 ∧
      h.seqNumber = seqn ∧ s.rxBuffer.writeAvailable < data.length) ∨
    (SameSending s (s.receiveRest h seqn data).1 ∧
      (s.receiveRest h seqn data).1.block.state =
        if hasFlag h.bitvalues tcpFin ∧ h.seqNumber = seqn then finNext s.block.state
        else s.block.state) := by
  rw [receiveRest]
  obtain ⟨sent, he, hu⟩ | ⟨a, sent, he, hs, ht⟩ :=
    s.receiveData_cases h seqn data
  · rw [he]
    exact inl ⟨rfl, hu⟩
  rw [he]
  obtain ⟨hf, hn⟩ := a.receiveFin_spec h seqn
  rw [ht] at hn
  refine inr ⟨?_, hn⟩
  exact ⟨hf.txBuffer.trans hs.txBuffer, hf.queue.trans hs.queue,
    hf.sndUna.trans hs.sndUna, hf.sndNxt.trans hs.sndNxt,
    hf.sndWnd.trans hs.sndWnd, hf.sndMss.trans hs.sndMss,
    hf.sendShut.trans hs.sendShut⟩

end Phases

/-! ## The acknowledgement -/

def Acknowledges (h : TcpHeader) : Prop := hasFlag h.bitvalues tcpAck ∧ ¬ hasFlag h.bitvalues tcpRst
deriving Decidable

def synNext (h : TcpHeader) (state : TcpState) : TcpState :=
  if ¬ hasFlag h.bitvalues tcpRst ∧ hasFlag h.bitvalues tcpSyn ∧ state = .synSent then .synReceived
  else state

variable {h : TcpHeader} {state state' : TcpState}

theorem synNext_of_ne (ht : state ≠ .synSent) :
    synNext h state = state := if_neg fun hs => ht hs.2.2

/-- The socket after the SYN and the acknowledgement of a segment, when it does not close the
connection. -/
structure Acked (s : TcpSocket) (h : TcpHeader) (a : TcpSocket) : Prop where
  txBuffer : a.txBuffer = s.txBuffer
  sndNxt : a.block.sndNxt = s.block.sndNxt
  sendShut : a.block.sendShut = s.block.sendShut
  sndMss : a.block.sndMss = s.block.sndMss ∨ tcpMinMss ≤ a.block.sndMss
  without : ¬ Acknowledges h → a.block.sndUna = s.block.sndUna ∧ a.block.sndWnd = s.block.sndWnd ∧
    a.block.state = synNext h s.block.state ∧ a.retransmissionQueue = s.retransmissionQueue
  window : Acknowledges h → (a.block.sndUna, a.block.sndWnd) =
    if isAfterOrEqual h.ackNumber s.block.sndUna then (h.ackNumber, h.window)
    else (s.block.sndUna, s.block.sndWnd)
  scan : Acknowledges h →
    ackScan h.ackNumber (synNext h s.block.state) s.retransmissionQueue =
      (a.block.state, a.retransmissionQueue, false)
  opening : Acknowledges h → s.block.state = .synSent ∨ s.block.state = .synReceived →
    h.ackNumber = s.block.sndNxt

theorem updateWindow_spec (s : TcpSocket) (h : TcpHeader) : ∃ una wnd,
    s.updateWindow h = { s with block := { s.block with sndUna := una, sndWnd := wnd } } ∧
      (una, wnd) = if isAfterOrEqual h.ackNumber s.block.sndUna then (h.ackNumber, h.window)
        else (s.block.sndUna, s.block.sndWnd) := by
  rw [updateWindow]
  split
  · exact ⟨_, _, rfl, rfl⟩
  · exact ⟨_, _, rfl, rfl⟩

theorem receiveSyn_spec (s : TcpSocket) (hr : ¬ hasFlag h.bitvalues tcpRst) :
    ∃ rcvNxt sent, s.receiveSyn h = ({ s with block := { s.block with
      rcvNxt := rcvNxt, state := synNext h s.block.state } }, sent) := by
  rw [receiveSyn]
  by_cases hs : hasFlag h.bitvalues tcpSyn ∧ s.block.state = .synSent
  · rw [if_pos hs, synNext, if_pos ⟨hr, hs⟩]
    exact ⟨_, _, rfl⟩
  · rw [if_neg hs, synNext, if_neg fun hy => hs hy.2]
    exact ⟨_, _, rfl⟩

theorem opening_synNext :
    synNext h state = .synSent ∨ synNext h state = .synReceived ↔
      state = .synSent ∨ state = .synReceived := by
  rw [synNext]
  split_ifs with hs
  · simp [hs.2.2]
  · rfl

theorem receiveAck_cases (s : TcpSocket) (hr : ¬ hasFlag h.bitvalues tcpRst)
    (rcvNxt : BitVec 32) :
    let u := { s with block := { s.block with
      rcvNxt := rcvNxt, state := synNext h s.block.state } }
    (∃ a sent, u.receiveAck h = .done a sent ∧ a.block.state = .closed) ∨
    ∃ a, u.receiveAck h = .goOn a [] ∧ Acked s h a := by
  intro u
  rw [receiveAck]
  by_cases ha : hasFlag h.bitvalues tcpAck
  · obtain ⟨una, wnd, hu, hw⟩ := u.updateWindow_spec h
    rw [if_pos ha, hu]
    by_cases hs : (u.block.state = .synSent ∨ u.block.state = .synReceived) ∧
        h.ackNumber ≠ u.block.sndNxt
    · rw [if_pos hs]
      exact inl ⟨_, _, rfl, rfl⟩
    obtain ⟨state, queue, closes, hc⟩ : ∃ state queue closes,
        ackScan h.ackNumber (synNext h s.block.state) s.retransmissionQueue =
          (state, queue, closes) := ⟨_, _, _, rfl⟩
    rw [if_neg hs, show u.block.state = synNext h s.block.state from rfl,
      show u.retransmissionQueue = s.retransmissionQueue from rfl, hc]
    cases closes with
    | true => exact inl ⟨_, _, rfl, rfl⟩
    | false =>
      refine inr ⟨_, rfl, ⟨rfl, rfl, rfl, inl rfl, fun hn => ?_, fun _ => hw,
        fun _ => hc, fun _ hop => ?_⟩⟩
      · exact absurd ⟨ha, hr⟩ hn
      · exact not_not.mp fun he => hs ⟨opening_synNext.mpr hop, he⟩
  · rw [if_neg ha]
    exact inr ⟨u, rfl, ⟨rfl, rfl, rfl, inl rfl, fun _ => ⟨rfl, rfl, rfl, rfl⟩,
      fun hy => absurd hy.1 ha, fun hy => absurd hy.1 ha,
      fun hy => absurd hy.1 ha⟩⟩

theorem receiveOptions_eq (s : TcpSocket) (buf : List (BitVec 8)) (hdrLen : ℕ) :
    ∃ mss, s.receiveOptions buf hdrLen = s.withMss mss ∧
      (mss = s.block.sndMss ∨ tcpMinMss ≤ mss) := by
  obtain ⟨mss, he, hm⟩ := readOptions_eq s.block buf hdrLen
  exact ⟨mss, by rw [receiveOptions, he], hm⟩

theorem receiveRst_cases (s : TcpSocket) (h : TcpHeader) (seqn : BitVec 32) :
    s.receiveRst h seqn = s.reset.1 ∨ s.receiveRst h seqn = s := by
  rw [receiveRst]
  split_ifs
  · exact inl rfl
  · exact inl rfl
  · exact inr rfl

def finState (s : TcpSocket) (h : TcpHeader) (state : TcpState) : TcpState :=
  if ¬ hasFlag h.bitvalues tcpRst ∧ s.TakesFin h then finNext state else state

theorem packetReceivedOpen_cases (s : TcpSocket) (buf : List (BitVec 8)) :
    (s.packetReceivedOpen buf).1.block.state = .closed ∨
    ∃ a, Acked s (TcpHeader.parse buf) a ∧ SameSending a (s.packetReceivedOpen buf).1 ∧
      (s.packetReceivedOpen buf).1.block.state =
        finState s (TcpHeader.parse buf) a.block.state := by
  rw [packetReceivedOpen]
  generalize TcpHeader.parse buf = h
  obtain ⟨mss, hop, hm⟩ := s.receiveOptions_eq buf h.hdrLen
  rw [hop]
  by_cases hr : hasFlag h.bitvalues tcpRst
  · rw [if_pos hr]
    rcases receiveRst_cases (s.withMss mss) h s.block.rcvNxt
      with he | he
    · rw [he]
      exact inl rfl
    rw [he]
    have hn : ¬ Acknowledges h := fun hy => hy.2 hr
    refine inr ⟨s.withMss mss, ⟨rfl, rfl, rfl, hm,
      fun _ => ⟨rfl, rfl, ?_, rfl⟩, fun hy => absurd hy hn, fun hy => absurd hy hn,
      fun hy => absurd hy hn⟩, .refl _, ?_⟩
    · exact (if_neg fun hs => hs.1 hr).symm
    · exact (if_neg fun hb => hb.1 hr).symm
  obtain ⟨rcvNxt, sent, hs⟩ :=
    receiveSyn_spec (s.withMss mss) hr
  rw [if_neg hr, receiveSegment, hs]
  dsimp only
  obtain ⟨a, sent', hd, hc⟩ | ⟨a, hg, ha⟩ :=
    receiveAck_cases (s.withMss mss) hr rcvNxt
  · rw [hd]
    exact inl hc
  rw [hg]
  rcases a.receiveRest_cases h s.block.rcvNxt (buf.drop h.hdrLen) with
    ⟨hres, -⟩ | ⟨hsa, hne⟩
  · rw [hres]
    exact inl rfl
  refine inr ⟨a, ⟨ha.txBuffer, ha.sndNxt, ha.sendShut, ?_, ha.without,
    ha.window, ha.scan, ha.opening⟩, hsa, ?_⟩
  · rcases ha.sndMss with he | hl
    · rw [he]
      exact hm
    · exact inr hl
  · rw [hne]
    refine if_congr ?_ rfl rfl
    exact ⟨fun hf => ⟨hr, hf⟩, fun hf => hf.2⟩

/-! ## Queues -/

theorem forall₂_resent_refl (queue : List Segment) : List.Forall₂ Resent queue queue :=
  forall₂_same.mpr fun seg _ => .refl seg

variable {queue queue' : List Segment} {seg : Segment}

theorem exists_resent_of_mem (h : List.Forall₂ Resent queue queue') (hm : seg ∈ queue) :
    ∃ seg' ∈ queue', Resent seg seg' := by
  induction h with
  | nil => cases hm
  | cons hf _ ih =>
    rcases mem_cons.mp hm with rfl | hm
    · exact ⟨_, mem_cons_self, hf⟩
    obtain ⟨seg', hs, hr⟩ := ih hm
    exact ⟨seg', .tail _ hs, hr⟩

variable {index uptime count fuel : ℕ}

theorem forall₂_vectorSet (hr : vectorAt queue index = some seg) :
    List.Forall₂ Resent queue (vectorSet queue index (resent seg)) := by
  -- the slot that an index leads to
  obtain ⟨slot, hs, hg⟩ : ∃ slot, vectorSet queue index (resent seg) =
      queue.set slot (resent seg) ∧ queue[slot]? = some seg := by
    rw [vectorAt] at hr
    rw [vectorSet]
    by_cases hl : index < queue.length
    · rw [getElem?_eq_getElem hl, Option.some_or] at hr
      exact ⟨index, by rw [if_pos hl], by rw [getElem?_eq_getElem hl, hr]⟩
    · rw [getElem?_eq_none (Nat.not_lt.mp hl), Option.none_or] at hr
      exact ⟨0, by rw [if_neg hl], by rw [← head?_eq_getElem?, hr]⟩
  rw [hs]
  clear hr hs
  induction queue generalizing slot with
  | nil => cases hg
  | cons first rest ih =>
    cases slot with
    | zero =>
      cases hg
      exact .cons ⟨_, _, rfl⟩ (forall₂_resent_refl rest)
    | succ slot => exact .cons (.refl first) (ih slot hg)

theorem ackScan_queue (h : ackScan ackn state queue = (state', queue', false)) :
    queue' = queue.filter fun seg => !isBeforeOrEqual seg.ackWith ackn := by
  induction queue generalizing state queue' with
  | nil =>
    obtain ⟨-, hr⟩ := Prod.mk.inj h
    exact (Prod.mk.inj hr).1.symm
  | cons seg rest ih =>
    rw [ackScan] at h
    by_cases ha : isBeforeOrEqual seg.ackWith ackn
    · rw [filter_cons_of_neg (by simp [ha])]
      rw [if_pos ha] at h
      split_ifs at h
      · exact ih h
      · cases (Prod.mk.inj (Prod.mk.inj h).2).2
      · exact ih h
      · exact ih h
      · exact ih h
    rw [filter_cons_of_pos (by simp [ha])]
    rw [if_neg ha] at h
    obtain ⟨state1, queue1, closes, hr⟩ : ∃ state1 queue1 closes,
        ackScan ackn state rest = (state1, queue1, closes) := ⟨_, _, _, rfl⟩
    rw [hr] at h
    obtain ⟨rfl, hq⟩ := Prod.mk.inj h
    cases hq
    rw [ih hr]

def HasFin (queue : List Segment) : Prop := ∃ seg ∈ queue, hasFlag seg.flags tcpFin
deriving Decidable

theorem HasFin.mono (h : HasFin queue) (hs : queue ⊆ queue') : HasFin queue' := by
  obtain ⟨seg, hm, hf⟩ := h
  exact ⟨seg, hs hm, hf⟩

theorem hasFin_append : HasFin (queue ++ [seg]) ↔ HasFin queue ∨ hasFlag seg.flags tcpFin := by
  constructor
  · rintro ⟨x, hm, hf⟩
    rcases mem_append.mp hm with hm | hm
    · exact inl ⟨x, hm, hf⟩
    rw [mem_singleton.mp hm] at hf
    exact inr hf
  · rintro (hq | hf)
    · exact hq.mono (subset_append_left _ _)
    · exact ⟨seg, mem_append_right _ mem_cons_self, hf⟩

theorem hasFin_of_resent (h : List.Forall₂ Resent queue queue') : HasFin queue' ↔ HasFin queue := by
  constructor
  · rintro ⟨seg', hm, hf⟩
    obtain ⟨seg, hs, _, _, rfl⟩ := exists_resent h hm
    exact ⟨seg, hs, hf⟩
  · rintro ⟨seg, hm, hf⟩
    obtain ⟨seg', hs, _, _, rfl⟩ := exists_resent_of_mem h hm
    exact ⟨_, hs, hf⟩

theorem ackScan_fin (h : ackScan ackn state queue = (state', queue', false))
    (hn : state ≠ .synReceived) :
    (state' = state ∧ (state = .finWait1 ∨ state = .closing ∨ state = .lastAck →
      HasFin queue → HasFin queue')) ∨
    (state = .finWait1 ∧ state' = .finWait2 ∧
      ∃ seg ∈ queue, hasFlag seg.flags tcpFin ∧ isBeforeOrEqual seg.ackWith ackn) := by
  induction queue generalizing state queue' with
  | nil =>
    obtain ⟨rfl, hr⟩ := Prod.mk.inj h
    cases hr
    exact inl ⟨rfl, fun _ => id⟩
  | cons seg rest ih =>
    rw [ackScan] at h
    by_cases ha : isBeforeOrEqual seg.ackWith ackn
    · rw [if_pos ha] at h
      by_cases hf : hasFlag seg.flags tcpFin
      · rw [if_pos hf] at h
        split_ifs at h with h1 h2
        · -- the FIN is acknowledged, and the rest of the scan stays in FIN_WAIT_2
          refine inr ⟨h1, ?_, seg, mem_cons_self, hf, ha⟩
          rcases ih h (by decide) with ⟨he, -⟩ | ⟨ho, -⟩
          · exact he
          · cases ho
        · cases (Prod.mk.inj (Prod.mk.inj h).2).2
        rcases ih h hn with ⟨he, -⟩ | ⟨ho, -⟩
        · refine inl ⟨he, fun hs => ?_⟩
          rcases hs with hs | hs | hs
          · exact absurd hs h1
          · exact absurd (inr hs) h2
          · exact absurd (inl hs) h2
        · exact absurd ho h1
      rw [if_neg hf, if_neg fun hb => hn hb.2] at h
      rcases ih h hn with ⟨he, hk⟩ | ⟨h1, h2, x, hx, hxf⟩
      · refine inl ⟨he, fun hs hex => hk hs ?_⟩
        obtain ⟨x, hx, hxf⟩ := hex
        rcases mem_cons.mp hx with rfl | hx
        · exact absurd hxf hf
        · exact ⟨x, hx, hxf⟩
      · exact inr ⟨h1, h2, x, .tail _ hx, hxf⟩
    · rw [if_neg ha] at h
      obtain ⟨state1, queue1, closes, hr⟩ : ∃ state1 queue1 closes,
          ackScan ackn state rest = (state1, queue1, closes) := ⟨_, _, _, rfl⟩
      rw [hr] at h
      obtain ⟨rfl, hq⟩ := Prod.mk.inj h
      cases hq
      rcases ih hr hn with ⟨he, hk⟩ | ⟨h1, h2, x, hx, hxf⟩
      · refine inl ⟨he, fun hs hex => ?_⟩
        obtain ⟨x, hx, hxf⟩ := hex
        rcases mem_cons.mp hx with rfl | hx
        · exact ⟨x, mem_cons_self, hxf⟩
        obtain ⟨y, hy, hyf⟩ := hk hs ⟨x, hx, hxf⟩
        exact ⟨y, .tail _ hy, hyf⟩
      · exact inr ⟨h1, h2, x, .tail _ hx, hxf⟩

variable {s a : TcpSocket}

theorem acked_fin (ha : Acked s h a) (he : s.block.state ≠ .synSent)
    (hr : s.block.state ≠ .synReceived) :
    (HasFin a.retransmissionQueue → HasFin s.retransmissionQueue) ∧
    ((a.block.state = s.block.state ∧
        (s.block.state = .finWait1 ∨ s.block.state = .closing ∨ s.block.state = .lastAck →
          HasFin s.retransmissionQueue → HasFin a.retransmissionQueue)) ∨
      (s.block.state = .finWait1 ∧ a.block.state = .finWait2 ∧ hasFlag h.bitvalues tcpAck ∧
        ∃ seg ∈ s.retransmissionQueue, hasFlag seg.flags tcpFin ∧
          isBeforeOrEqual seg.ackWith h.ackNumber)) := by
  by_cases hy : Acknowledges h
  · have hc := ha.scan hy
    rw [synNext_of_ne he] at hc
    have hs := ackScan_sublist h.ackNumber s.block.state s.retransmissionQueue
    rw [hc] at hs
    refine ⟨fun hf => hf.mono hs.subset, ?_⟩
    rcases ackScan_fin hc hr with hsa | ⟨h1, h2, hf⟩
    · exact inl hsa
    · exact inr ⟨h1, h2, hy.1, hf⟩
  · obtain ⟨-, -, ht, hq⟩ := ha.without hy
    rw [synNext_of_ne he] at ht
    rw [hq]
    exact ⟨id, inl ⟨ht, fun _ => id⟩⟩

theorem scanLoop_cases {r : TcpSocket × List Packet × Option Scan}
    (h : (s.scanLoop uptime count fuel index).outcome = .ok r) :
    r.1 = s.reset.1 ∨ ∃ queue, List.Forall₂ Resent s.retransmissionQueue queue ∧
      r.1 = { s with retransmissionQueue := queue } := by
  induction fuel generalizing index with
  | zero =>
    cases h
    exact inr ⟨_, forall₂_resent_refl _, rfl⟩
  | succ fuel ih =>
    rw [scanLoop] at h
    by_cases hi : index < count
    · rw [if_pos hi] at h
      cases hr : vectorAt s.retransmissionQueue index with
      | none =>
        rw [hr] at h
        cases h
      | some seg =>
        rw [hr] at h
        dsimp only at h
        split_ifs at h
        · exact ih h
        · cases h
          exact inl rfl
        · cases h
          exact inr ⟨_, forall₂_vectorSet hr, rfl⟩
    · rw [if_neg hi] at h
      cases h
      exact inr ⟨_, forall₂_resent_refl _, rfl⟩

/-! ## Steps -/

def Open (s : TcpSocket) : Prop := s.block.state ≠ .closed ∧ s.block.state ≠ .listen
deriving Decidable

theorem Synchronized.isOpen (hs : s.Synchronized) : s.Open := by
  rcases hs with hs | hs | hs | hs | hs | hs <;> exact ⟨by rw [hs]; decide, by rw [hs]; decide⟩

/-- The state after `shutdown` has waited. -/
def shutdownNext : TcpState → TcpState
  | .established => .finWait1
  | .closeWait => .lastAck
  | state => state

theorem shutdownState_eq (s : TcpSocket) : s.shutdownState =
    { s with block := { s.block with state := shutdownNext s.block.state } } := by
  rw [shutdownState]
  split
  · next hs => rw [hs]; rfl
  · next hs => rw [hs]; rfl
  next he hc =>
  have ha : shutdownNext s.block.state = s.block.state := by
    cases hs : s.block.state <;> first | rfl | contradiction
  rw [ha]

theorem open_shutdownState : s.shutdownState.Open ↔ s.Open := by
  rw [shutdownState_eq, Open, Open]
  dsimp only
  cases s.block.state <;> decide

/-- **What a step of a thread does to its socket.** -/
inductive SocketStep (s : TcpSocket) : ThreadAction → TcpSocket → Prop
  | same {a : ThreadAction} : SocketStep s a s
  | reset {a : ThreadAction} : SocketStep s a s.reset.1
  | opens {addr : IPv4Addr} {port : BitVec 16} {uptime : ℕ} (closed : s.block.state = .closed) :
      SocketStep s (.connect addr port uptime) (syn { clearState
        { s with destinationAddress := addr, destinationPort := port } with
          block := { sndMss := tcpMinMss, state := .synSent } } uptime).1
  | listens {backlog : ℤ} (closed : s.block.state = .closed) : SocketStep s (.listen backlog)
      { s with
        block := { s.block with state := .listen }
        listenQueue := some []
        acceptQueue := some []
        listenBacklog := max (min backlog 128) 0
        txBuffer := s.txBuffer.resize
        rxBuffer := s.rxBuffer.resize }
  | receives {src : IPv4Addr} {srcPort : BitVec 16} {buffer : List (BitVec 8)} {uptime : ℕ} :
      SocketStep s (.packetReceived src srcPort buffer uptime)
        (s.packetReceived src srcPort buffer uptime).1
  | writes {rest : List (BitVec 8)} : SocketStep s (.sendPass rest) (s.sendToPass rest).1
  | reads {call : ReceiveCall} : SocketStep s (.receivePass call) (s.receiveFromPass call).1
  | packages {uptime : ℕ} (start : ℕ) (avail : s.txBuffer.readAvailable ≠ 0)
      (window : s.block.sndWnd ≠ 0) : SocketStep s (.timer uptime) (s.afterSegment start)
  | acks {uptime : ℕ} : SocketStep s (.timer uptime)
      { s with block := { s.block with sendingCompAck := false } }
  | requeues {uptime : ℕ} {queue : List Segment}
      (resent : List.Forall₂ Resent s.retransmissionQueue queue) :
      SocketStep s (.timer uptime) { s with retransmissionQueue := queue }
  | shuts {how : ℕ} (receiveShut goesOn : Bool) : SocketStep s (.shutdown how)
      { s with block := { s.block with
        receiveShut := receiveShut, sendShut := s.block.sendShut || goesOn } }
  | moves {uptime : ℕ} (drained : s.Drained) : SocketStep s (.shutdownPass uptime) s.shutdownState
  | fins {uptime : ℕ} : SocketStep s (.shutdownPass uptime) (s.afterFin uptime)

/-- **What a step of a thread does to the sending side of a socket.** -/
inductive SendStep (s : TcpSocket) : ThreadAction → TcpSocket → Prop
  | shut {a : ThreadAction} {s' : TcpSocket} (closed : s'.block.state = .closed) : SendStep s a s'
  | listens {backlog : ℤ} {s' : TcpSocket} (state : s'.block.state = .listen) :
      SendStep s (.listen backlog) s'
  | opens {addr : IPv4Addr} {port : BitVec 16} {uptime : ℕ} (closed : s.block.state = .closed) :
      SendStep s (.connect addr port uptime) (syn { clearState
        { s with destinationAddress := addr, destinationPort := port } with
          block := { sndMss := tcpMinMss, state := .synSent } } uptime).1
  | keeps {a : ThreadAction} {s' : TcpSocket} (side : SameSending s s')
      (state : s'.block.state = s.block.state) : SendStep s a s'
  /-- `shutdown` shuts the socket for writing. -/
  | shuts {how : ℕ} (receiveShut : Bool) : SendStep s (.shutdown how)
      { s with block := { s.block with receiveShut := receiveShut, sendShut := true } }
  /-- `shutdown` changes the state. -/
  | moves {uptime : ℕ} (drained : s.Drained) : SendStep s (.shutdownPass uptime) s.shutdownState
  | fins {uptime : ℕ} : SendStep s (.shutdownPass uptime) (s.afterFin uptime)
  | writes {rest : List (BitVec 8)} : SendStep s (.sendPass rest) (s.sendToPass rest).1
  | packages {uptime : ℕ} (start : ℕ) (avail : s.txBuffer.readAvailable ≠ 0)
      (window : s.block.sndWnd ≠ 0) : SendStep s (.timer uptime) (s.afterSegment start)
  | requeues {uptime : ℕ} {queue : List Segment}
      (resent : List.Forall₂ Resent s.retransmissionQueue queue) :
      SendStep s (.timer uptime) { s with retransmissionQueue := queue }
  | acks {src : IPv4Addr} {srcPort : BitVec 16} {buffer : List (BitVec 8)} {uptime : ℕ}
      {a s' : TcpSocket} (isOpen : s.Open) (acked : Acked s (TcpHeader.parse buffer) a)
      (side : SameSending a s')
      (state : s'.block.state = finState s (TcpHeader.parse buffer) a.block.state) :
      SendStep s (.packetReceived src srcPort buffer uptime) s'

theorem SendStep.refl (s : TcpSocket) (a : ThreadAction) : SendStep s a s := .keeps (.refl s) rfl

theorem sendStep_packetReceived (s : TcpSocket) (src : IPv4Addr) (port : BitVec 16)
    (buf : List (BitVec 8)) (now : ℕ) :
    SendStep s (.packetReceived src port buf now)
      (s.packetReceived src port buf now).1 := by
  rw [packetReceived]
  split_ifs with ho hc' hl
  · exact .refl s _
  · exact .refl s _
  · obtain ⟨queue, accepted, backlog, he⟩ := (listened_packetReceivedListen (P := fun _ => True)
      (s := s) src port buf now (fun _ _ => trivial) (fun _ _ => trivial)
      fun _ _ _ _ => trivial).socket
    rw [he]
    exact .keeps ⟨rfl, rfl, rfl, rfl, rfl, rfl, rfl⟩ rfl
  · rcases s.packetReceivedOpen_cases buf with hc | ⟨a, ha, hs, ht⟩
    · exact .shut hc
    · exact .acks ⟨hc', hl⟩ ha hs ht

end TcpSocket

namespace TcpThreads

open TcpSocket

variable {t t' : TcpThreads} {sent : List Packet}

theorem socketStep_timer {now : ℕ} (h : t.stepTimer now = .ok (t', sent)) :
    SocketStep t.socket (.timer now) t'.socket := by
  have hc {r : TcpSocket × List Packet × Option Scan} {count index fuel start : ℕ}
      (hr : (t.socket.scanLoop start count fuel index).outcome = .ok r) :
      SocketStep t.socket (.timer now) r.1 := by
    rcases scanLoop_cases hr with he | ⟨queue, hs, he⟩
    · rw [he]
      exact .reset
    · rw [he]
      exact .requeues hs
  rw [stepTimer] at h
  split at h
  · split_ifs at h <;> cases h <;> exact .same
  · split_ifs at h with ha hw
    · cases h
      rw [compAck]
      split_ifs
      · exact .acks
      · exact .same
    · cases h
      exact .packages _ ha hw
  · obtain ⟨r, hr, h⟩ := bind_eq_ok.mp h
    cases h
    exact hc hr
  · obtain ⟨r, hr, h⟩ := bind_eq_ok.mp h
    cases h
    exact hc hr

theorem socketStep_shutdown (t : TcpThreads) (ho : ℕ) :
    SocketStep t.socket (.shutdown ho) (t.stepShutdown ho).socket := by
  rw [stepShutdown]
  split
  · exact .same
  next s goesOn hs =>
  obtain ⟨receiveShut, rfl, -⟩ := shutdown_eq_ok hs
  exact .shuts receiveShut goesOn

theorem socketStep_shutdownPass (t : TcpThreads) (now : ℕ) :
    SocketStep t.socket (.shutdownPass now) (t.stepShutdownPass now).1.socket := by
  rw [stepShutdownPass]
  split
  · exact .same
  · split_ifs with hd
    · exact .moves hd
    · exact .same
  · exact .fins
  · split_ifs <;> exact .same

variable {a : ThreadAction}

/-- **The case analysis** that the results about runs start from. -/
theorem socketStep_of_send (h : t.send a = .ok (t', sent)) : SocketStep t.socket a t'.socket := by
  cases a with
  | connect addr port uptime =>
    rw [send, TcpSocket.connect] at h
    split_ifs at h with hop
    · cases h
      exact .same
    · cases h
      exact .opens (not_not.mp hop)
  | connectEnd =>
    cases h
    rw [connectEnd]
    split
    all_goals first | exact .same | exact .reset
  | listen backlog =>
    rw [send, TcpSocket.listen] at h
    split_ifs at h with hop
    · cases h
      exact .same
    · cases h
      exact .listens (not_not.mp hop)
  | packetReceived src srcPort buffer uptime =>
    cases h
    exact .receives
  | sendPass rest =>
    cases h
    exact .writes
  | receivePass call =>
    cases h
    exact .reads
  | timer uptime => exact socketStep_timer h
  | shutdown ho =>
    cases h
    exact t.socketStep_shutdown ho
  | shutdownPass uptime =>
    have he := Except.ok.inj h
    have hs := t.socketStep_shutdownPass uptime
    rwa [he] at hs
  | close =>
    obtain ⟨⟨s, more⟩, hc, h⟩ := bind_eq_ok.mp h
    cases h
    rw [TcpSocket.close] at hc
    split_ifs at hc
    · cases hc
      exact .same
    · cases hc
      exact .reset

theorem sendStep_of_send (h : t.send a = .ok (t', sent)) : SendStep t.socket a t'.socket := by
  have hs := socketStep_of_send h
  generalize t'.socket = s' at hs
  cases hs with
  | same => exact .refl _ _
  | reset => exact .shut rfl
  | opens closed => exact .opens closed
  | listens => exact .listens rfl
  | receives => exact sendStep_packetReceived ..
  | writes => exact .writes
  | reads =>
    obtain ⟨hi, ht, -⟩ := t.socket.receiveFromPass_spec _
    exact .keeps hi ht
  | packages start avail window => exact .packages start avail window
  | acks => exact .keeps ⟨rfl, rfl, rfl, rfl, rfl, rfl, rfl⟩ rfl
  | requeues resent => exact .requeues resent
  | shuts receiveShut goesOn =>
    cases goesOn with
    | true =>
      rw [Bool.or_true]
      exact .shuts receiveShut
    | false => exact .keeps ⟨rfl, rfl, rfl, rfl, rfl, rfl, Bool.or_false _⟩ rfl
  | moves drained => exact .moves drained
  | fins => exact .fins

end TcpThreads

end AexKernel.Net
