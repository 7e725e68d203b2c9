import AexKernel.Net.TcpReceive

/-! # Demultiplexing (`protocol/inet/tcp.cpp`)

`TCPProtocol::packetReceived` looks for a socket for a segment twice. -/

namespace AexKernel.Net

open Library Mem List Or Option TcpHeader

namespace TcpSocket

/-! ## Segments with nothing in them for the socket -/

variable {ackn : BitVec 32} {queue : List Segment}

theorem ackScan_of_some (st : TcpState) {seg : Segment} (hse : seg ∈ queue)
    (h : isBeforeOrEqual seg.ackWith ackn) :
    (ackScan ackn st queue).2.2 ∨ (ackScan ackn st queue).2.1 ≠ queue := by
  induction queue generalizing st with
  | nil => cases hse
  | cons first rest ih =>
    have hs (state' : TcpState) : (ackScan ackn state' rest).2.1 ≠ first :: rest := fun he => by
      have hl := (ackScan_sublist ackn state' rest).length_le
      rw [he, length_cons] at hl
      omega
    rw [ackScan]
    split_ifs with ha
    · exact inr (hs _)
    · exact inl rfl
    · exact inr (hs _)
    · exact inr (hs _)
    · exact inr (hs _)
    · rcases mem_cons.mp hse with rfl | hr
      · exact absurd h ha
      · exact (ih st hr).imp id fun hn he => hn (cons.inj he).2

theorem ackScan_state {st last : TcpState} (hf : last ≠ .finWait2) (he : last ≠ .established)
    (h : (ackScan ackn st queue).1 = last) : st = last := by
  induction queue generalizing st with
  | nil => exact h
  | cons seg rest ih =>
    rw [ackScan] at h
    split_ifs at h
    · exact absurd (ih h).symm hf
    · exact h
    · exact ih h
    · exact absurd (ih h).symm he
    · exact ih h
    · exact ih h

/-- An RST that is neither the answer to a SYN nor in the window. -/
def IgnoresRst (s : TcpSocket) (h : TcpHeader) : Prop :=
  ¬ (s.block.state = .synSent ∧ hasFlag h.bitvalues tcpAck ∧ h.ackNumber = s.block.sndNxt) ∧
    ¬ (isAfterOrEqual h.seqNumber s.block.rcvNxt ∧
      isBefore h.seqNumber (s.block.rcvNxt + BitVec.ofNat 32 s.getWindow))

/-- An acknowledgement that is old or repeats the last one, and for which there is nothing in the
queue. -/
def IgnoresAck (s : TcpSocket) (h : TcpHeader) : Prop :=
  hasFlag h.bitvalues tcpAck →
    (isAfterOrEqual h.ackNumber s.block.sndUna →
      h.ackNumber = s.block.sndUna ∧ h.window = s.block.sndWnd) ∧
    ¬ ((s.block.state = .synSent ∨ s.block.state = .synReceived) ∧
      h.ackNumber ≠ s.block.sndNxt) ∧
    ∀ seg ∈ s.retransmissionQueue, ¬ isBeforeOrEqual seg.ackWith h.ackNumber

/-- A FIN that is out of order, or finds the connection shut and in a state that it does not
move. -/
def IgnoresFin (s : TcpSocket) (h : TcpHeader) : Prop :=
  hasFlag h.bitvalues tcpFin ∧ h.seqNumber = s.block.rcvNxt →
    s.block.receiveShut ∧ s.block.state ≠ .finWait1 ∧ s.block.state ≠ .finWait2 ∧
      s.block.state ≠ .established

def Ignores (s : TcpSocket) (buffer : List (BitVec 8)) : Prop :=
  let h := TcpHeader.parse buffer
  (readOptions s.block buffer h.hdrLen).sndMss = s.block.sndMss ∧
    if hasFlag h.bitvalues tcpRst then s.IgnoresRst h
    else ¬ (hasFlag h.bitvalues tcpSyn ∧ s.block.state = .synSent) ∧ s.IgnoresAck h ∧
      (buffer.drop h.hdrLen ≠ [] → h.seqNumber ≠ s.block.rcvNxt) ∧ s.IgnoresFin h

variable {s t : TcpSocket}

theorem state_ne_of_eq (hop : s.block.state ≠ .closed) (ht : t.block.state = .closed) : t ≠ s := by
  rintro rfl
  exact hop ht

theorem receiveRst_eq_self_iff (hop : s.block.state ≠ .closed) (h : TcpHeader) :
    s.receiveRst h s.block.rcvNxt = s ↔ s.IgnoresRst h := by
  have hr : s.reset.1 ≠ s := state_ne_of_eq hop rfl
  rw [receiveRst, IgnoresRst]
  split_ifs with h1 h2
  · exact iff_of_false hr fun hn => hn.1 h1
  · exact iff_of_false hr fun hn => hn.2 h2
  · exact iff_of_true rfl ⟨h1, h2⟩

variable {h : TcpHeader}

theorem IgnoresAck.receiveAck_eq (hi : s.IgnoresAck h) : s.receiveAck h = .goOn s [] := by
  rw [receiveAck]
  split_ifs with ha
  · obtain ⟨hu, hs, hq⟩ := hi ha
    have hsa : s.updateWindow h = s := by
      rw [updateWindow]
      split_ifs with hf
      · rw [(hu hf).1, (hu hf).2]
      · rfl
    simp only [hsa]
    rw [if_neg hs, ackScan_of_none _ hq]
    rfl
  · rfl

theorem rcvNxt_receiveFin (s : TcpSocket) (h : TcpHeader) (seqn : BitVec 32) :
    (s.receiveFin h seqn).block.rcvNxt = s.block.rcvNxt ∨
      (s.receiveFin h seqn).block.rcvNxt = s.block.rcvNxt + 1 := by
  rw [receiveFin]
  split
  · dsimp only
    split
    · exact inr rfl
    · exact inr rfl
    · exact inr rfl
    · exact inl rfl
  · exact inl rfl

theorem receiveFin_eq_self_iff (s : TcpSocket) (h : TcpHeader) :
    s.receiveFin h s.block.rcvNxt = s ↔ s.IgnoresFin h := by
  have hm (state : TcpState) :
      ({ s with block := { s.block with receiveShut := true } } : TcpSocket).takeFin state ≠ s :=
    fun he => by
      have : s.block.rcvNxt + 1 = s.block.rcvNxt := congrArg (·.block.rcvNxt) he
      simp at this
  rw [receiveFin, IgnoresFin]
  split_ifs with hf
  · dsimp only
    split
    · next hs => exact iff_of_false (hm _) fun hn => (hn hf).2.1 hs
    · next hs => exact iff_of_false (hm _) fun hn => (hn hf).2.2.1 hs
    · next hs => exact iff_of_false (hm _) fun hn => (hn hf).2.2.2 hs
    next h1 h2 h3 =>
    constructor
    · intro he
      exact fun _ => ⟨(congrArg (·.block.receiveShut) he).symm, h1, h2, h3⟩
    intro hn
    obtain ⟨hh, -⟩ := hn hf
    rw [← hh]
  · exact iff_of_true rfl fun hn => absurd hn hf

variable {data buffer : List (BitVec 8)}

theorem receiveRest_eq_self_iff (hop : s.block.state ≠ .closed) (h : TcpHeader)
    (hl : data.length < 65536) :
    (s.receiveRest h s.block.rcvNxt data).1 = s ↔
      (data ≠ [] → h.seqNumber ≠ s.block.rcvNxt) ∧ s.IgnoresFin h := by
  rw [receiveRest, receiveData]
  by_cases hd : data = []
  · rw [if_pos hd]
    simp only [receiveFin_eq_self_iff, hd, ne_eq, not_true, false_implies, true_and]
  rw [if_neg hd]
  have hp : 0 < data.length := length_pos_iff.mpr hd
  by_cases hs : h.seqNumber = s.block.rcvNxt
  · rw [if_pos hs]
    refine iff_of_false ?_ fun hn => hn.1 hd hs
    by_cases hr : s.rxBuffer.writeAvailable < data.length
    · rw [if_pos hr]
      exact state_ne_of_eq hop rfl
    rw [if_neg hr]
    intro he
    have hne : (s.takeData data).block.rcvNxt = s.block.rcvNxt + BitVec.ofNat 32 data.length := rfl
    have hm := (s.takeData data).rcvNxt_receiveFin h s.block.rcvNxt
    rw [show (s.takeData data).receiveFin h s.block.rcvNxt = s from he, hne] at hm
    rcases hm with hm | hm <;> bv_omega
  rw [if_neg hs]
  have hf : s.IgnoresFin h := fun hn => absurd hn.2 hs
  refine iff_of_true ?_ ⟨fun _ => hs, hf⟩
  split_ifs
  · exact (s.receiveFin_eq_self_iff h).mpr hf
  · exact (s.receiveFin_eq_self_iff h).mpr hf

variable {sent : List Packet}

theorem receiveAck_done (he : s.receiveAck h = .done t sent) :
    t.block.state = .closed ∧ t.block.sndMss = s.block.sndMss := by
  have hm : (s.updateWindow h).block.sndMss = s.block.sndMss := by
    rw [updateWindow]
    split <;> rfl
  rw [receiveAck] at he
  dsimp only at he
  split_ifs at he
  · injection he with ht
    rw [← ht]
    exact ⟨rfl, hm⟩
  · injection he with ht
    rw [← ht]
    exact ⟨rfl, hm⟩

theorem receiveAck_goOn (he : s.receiveAck h = .goOn t sent) :
    t.block.sndMss = s.block.sndMss ∧ (t.block.state = .synSent → s.block.state = .synSent) ∧
      (t.block.sndUna = s.block.sndUna → t.block.sndWnd = s.block.sndWnd →
        t.retransmissionQueue = s.retransmissionQueue → s.IgnoresAck h) := by
  rw [receiveAck] at he
  dsimp only at he
  split_ifs at he with hc hh hl
  · injection he with ht
    have hk : (s.updateWindow h).block.state = s.block.state ∧
        (s.updateWindow h).block.sndNxt = s.block.sndNxt ∧
        (s.updateWindow h).block.sndMss = s.block.sndMss ∧
        (s.updateWindow h).retransmissionQueue = s.retransmissionQueue := by
      rw [updateWindow]
      split <;> exact ⟨rfl, rfl, rfl, rfl⟩
    obtain ⟨hst, hn, hm, hq⟩ := hk
    rw [hst, hn] at hh
    rw [hst, hq] at hl ht
    rw [← ht]
    refine ⟨hm, fun hs => ackScan_state (by decide) (by decide) hs, fun hu hw hsa => ?_⟩
    refine fun _ => ⟨fun hf => ?_, hh, fun seg hse ha => ?_⟩
    · dsimp only at hu hw
      rw [updateWindow, if_pos hf] at hu hw
      exact ⟨hu, hw⟩
    · exact (ackScan_of_some _ hse ha).elim hl fun hne => hne hsa
  · injection he with ht
    rw [← ht]
    exact ⟨rfl, id, fun _ _ _ hy => absurd hy hc⟩

theorem receiveRest_keeps (s : TcpSocket) (h : TcpHeader) (seqn : BitVec 32)
    (data : List (BitVec 8)) :
    let t := (s.receiveRest h seqn data).1
    t.block.sndMss = s.block.sndMss ∧ (t.block.state = .closed ∨
      (t.block.state = .synSent → s.block.state = .synSent) ∧
      t.block.sndUna = s.block.sndUna ∧ t.block.sndWnd = s.block.sndWnd ∧
      t.retransmissionQueue = s.retransmissionQueue) := by
  have hf (u : TcpSocket) : (u.receiveFin h seqn).block.sndMss = u.block.sndMss ∧
      ((u.receiveFin h seqn).block.state = .synSent → u.block.state = .synSent) ∧
      (u.receiveFin h seqn).block.sndUna = u.block.sndUna ∧
      (u.receiveFin h seqn).block.sndWnd = u.block.sndWnd ∧
      (u.receiveFin h seqn).retransmissionQueue = u.retransmissionQueue := by
    rw [receiveFin]
    split
    · dsimp only
      split <;> exact ⟨rfl, by first | exact id | exact nofun, rfl, rfl, rfl⟩
    · exact ⟨rfl, id, rfl, rfl, rfl⟩
  rw [receiveRest, receiveData]
  split_ifs
  · exact ⟨(hf s).1, inr (hf s).2⟩
  · exact ⟨rfl, inl rfl⟩
  · exact ⟨(hf (s.takeData data)).1, inr (hf (s.takeData data)).2⟩
  · exact ⟨(hf s).1, inr (hf s).2⟩
  · exact ⟨(hf s).1, inr (hf s).2⟩

theorem sndMss_receiveSegment (s : TcpSocket) (h : TcpHeader) (seqn : BitVec 32)
    (data : List (BitVec 8)) :
    (s.receiveSegment h seqn data).1.block.sndMss = s.block.sndMss := by
  have hs : (s.receiveSyn h).1.block.sndMss = s.block.sndMss := by
    rw [receiveSyn]
    split <;> rfl
  rw [receiveSegment]
  dsimp only
  split
  · next ha => rw [(receiveAck_done ha).2, hs]
  · next ha => rw [(receiveRest_keeps ..).1, (receiveAck_goOn ha).1, hs]

theorem receiveSegment_eq_self_iff (hop : s.block.state ≠ .closed) (h : TcpHeader)
    (hl : data.length < 65536) :
    (s.receiveSegment h s.block.rcvNxt data).1 = s ↔
      ¬ (hasFlag h.bitvalues tcpSyn ∧ s.block.state = .synSent) ∧ s.IgnoresAck h ∧
        (data ≠ [] → h.seqNumber ≠ s.block.rcvNxt) ∧ s.IgnoresFin h := by
  rw [receiveSegment, receiveSyn]
  by_cases hs : hasFlag h.bitvalues tcpSyn ∧ s.block.state = .synSent
  · -- the handshake leaves the state that it started from
    refine iff_of_false (fun he => ?_) fun hn => hn.1 hs
    rw [if_pos hs] at he
    dsimp only at he
    have ht := congrArg (·.block.state) he
    rw [hs.2] at ht
    split at ht
    · next ha => cases (receiveAck_done ha).1.symm.trans ht
    next ha =>
    rcases (receiveRest_keeps ..).2 with hc | ⟨hb, -⟩
    · cases hc.symm.trans ht
    · cases (receiveAck_goOn ha).2.1 (hb ht)
  rw [if_neg hs]
  dsimp only
  constructor
  · intro he
    split at he
    · next ha => exact absurd he (state_ne_of_eq hop (receiveAck_done ha).1)
    next t more ha =>
    rcases (t.receiveRest_keeps h s.block.rcvNxt data).2 with hc | ⟨-, hu, hw, hq⟩
    · exact absurd he (state_ne_of_eq hop hc)
    change (t.receiveRest h s.block.rcvNxt data).1 = s at he
    rw [he] at hu hw hq
    have hi := (receiveAck_goOn ha).2.2 hu.symm hw.symm hq.symm
    rw [hi.receiveAck_eq] at ha
    injection ha with hsa
    rw [← hsa] at he
    exact ⟨hs, hi, (receiveRest_eq_self_iff hop h hl).mp he⟩
  · rintro ⟨-, ha, hr⟩
    rw [ha.receiveAck_eq]
    exact (receiveRest_eq_self_iff hop h hl).mpr hr

theorem receiveOptions_eq_self_iff (s : TcpSocket) (buf : List (BitVec 8)) (hdrLen : ℕ) :
    s.receiveOptions buf hdrLen = s ↔
      (readOptions s.block buf hdrLen).sndMss = s.block.sndMss := by
  obtain ⟨mss, hop, -⟩ := readOptions_eq s.block buf hdrLen
  rw [receiveOptions, hop]
  constructor
  · exact fun he => congrArg (·.block.sndMss) he
  intro hm
  rw [show mss = s.block.sndMss from hm]

theorem packetReceivedOpen_eq_self_iff (hop : s.block.state ≠ .closed)
    (hl : buffer.length < 65536) : (s.packetReceivedOpen buffer).1 = s ↔ s.Ignores buffer := by
  have hd : (buffer.drop (parse buffer).hdrLen).length < 65536 := by
    rw [length_drop]
    omega
  rw [packetReceivedOpen, Ignores]
  generalize parse buffer = h at hd ⊢
  by_cases hm : (readOptions s.block buffer h.hdrLen).sndMss = s.block.sndMss
  · rw [(receiveOptions_eq_self_iff ..).mpr hm, and_iff_right hm]
    split_ifs
    · exact receiveRst_eq_self_iff hop h
    · exact receiveSegment_eq_self_iff hop h hd
  -- nothing after the options restores the maximum segment size
  refine iff_of_false (fun he => hm ?_) fun hn => hm hn.1
  rw [← congrArg (·.block.sndMss) he]
  split_ifs
  · rw [receiveRst]
    split_ifs <;> rfl
  · exact (sndMss_receiveSegment (s.receiveOptions buffer h.hdrLen) ..).symm

end TcpSocket

/-! ## The protocol -/

/-- A segment that `TCPLayer` hands up. -/
structure Arrival where
  src : IPv4Addr
  srcPort : BitVec 16
  dst : IPv4Addr
  dstPort : BitVec 16
  buffer : List (BitVec 8)
  uptime : ℕ

namespace TcpProtocol

def matchesOpen (a : Arrival) (s : TcpSocket) : Bool :=
  a.dstPort == s.sourcePort && a.srcPort == s.destinationPort && s.block.state != .listen &&
    s.block.state != .closed

def matchesListener (a : Arrival) (s : TcpSocket) : Bool :=
  a.dstPort == s.sourcePort && s.block.state == .listen

/-- A loop over the sockets: the first one that passes the test takes the segment. -/
def deliverFirst (test : TcpSocket → Bool) (a : Arrival) :
    List TcpSocket → Option (List TcpSocket × List Packet × Option TcpSocket)
  | [] => none
  | s :: rest =>
    if test s then
      let (s, sent, child) := s.packetReceived a.src a.srcPort a.buffer a.uptime
      some (s :: rest, sent, child)
    else (deliverFirst test a rest).map fun (rest, sent, child) => (s :: rest, sent, child)

/-- `packetReceived(src, src_port, dst, dst_port, buffer, len)`. -/
def packetReceived (sockets : List TcpSocket) (a : Arrival) : List TcpSocket × List Packet :=
  if a.dstPort = 0 then (sockets, [])
  else
    match (deliverFirst (matchesOpen a) a sockets).or
        (deliverFirst (matchesListener a) a sockets) with
    | some (sockets, sent, child) => (sockets ++ child.toList, sent)
    | none => (sockets, [])

/-- The socket is the end of the connection that the segment belongs to. -/
def Addressed (a : Arrival) (s : TcpSocket) : Prop :=
  s.destinationAddress = a.src ∧ s.destinationPort = a.srcPort ∧ s.sourcePort = a.dstPort

/-- **Demultiplexing**: of the sockets that do not listen, the segment changes only one whose
connection it belongs to. -/
def Demultiplexes (sockets : List TcpSocket) (a : Arrival) : Prop :=
  ∀ (i : ℕ) (s : TcpSocket), sockets[i]? = some s → s.block.state ≠ .listen →
    (packetReceived sockets a).1[i]? ≠ some s → Addressed a s

/-! ## The loops -/

theorem deliverFirst_cases (test : TcpSocket → Bool) (a : Arrival) (ss : List TcpSocket) :
    (ss.find? test = none ∧ deliverFirst test a ss = none) ∨
    ∃ before s after, ss = before ++ s :: after ∧ ss.find? test = some s ∧
      deliverFirst test a ss =
        some (before ++ (s.packetReceived a.src a.srcPort a.buffer a.uptime).1 :: after,
          (s.packetReceived a.src a.srcPort a.buffer a.uptime).2) := by
  induction ss with
  | nil => exact inl ⟨rfl, rfl⟩
  | cons s rest ih =>
    by_cases ht : test s
    · refine inr ⟨[], s, rest, rfl, ?_, ?_⟩
      · rw [find?_cons_of_pos ht]
      rw [deliverFirst, if_pos ht]
      rfl
    rw [find?_cons_of_neg ht, deliverFirst, if_neg ht]
    rcases ih with ⟨hn, hd⟩ | ⟨before, t, after, hs, hf, hd⟩
    · exact inl ⟨hn, by rw [hd]; rfl⟩
    refine inr ⟨s :: before, t, after, by rw [hs]; rfl, hf, ?_⟩
    rw [hd]
    rfl

theorem eq_of_getElem?_ne {α : Type} {pre after extra : List α} {x y t : α} {i : ℕ}
    (hold : (pre ++ y :: after)[i]? = some t)
    (hn : (pre ++ x :: after ++ extra)[i]? ≠ some t) : t = y ∧ x ≠ y := by
  rw [append_assoc, cons_append] at hn
  rcases lt_trichotomy i pre.length with hi | rfl | hi
  · rw [getElem?_append_left hi] at hold hn
    exact absurd hold hn
  · rw [getElem?_append_right le_rfl, Nat.sub_self, getElem?_cons_zero] at hold hn
    cases hold
    exact ⟨rfl, fun h => hn (congrArg some h)⟩
  obtain ⟨k, hk⟩ : ∃ k, i - pre.length = k + 1 := ⟨i - pre.length - 1, by omega⟩
  rw [getElem?_append_right hi.le, hk, getElem?_cons_succ] at hold hn
  have hl : k < after.length := (List.getElem?_eq_some_iff.mp hold).1
  rw [getElem?_append_left hl] at hn
  exact absurd hold hn

variable {a : Arrival} {s : TcpSocket}

theorem matchesOpen_iff : matchesOpen a s ↔
    a.dstPort = s.sourcePort ∧ a.srcPort = s.destinationPort ∧ s.block.state ≠ .listen ∧
      s.block.state ≠ .closed := by
  simp only [matchesOpen, Bool.and_eq_true, beq_iff_eq, bne_iff_ne, and_assoc]

theorem packetReceived_of_matchesOpen (h : matchesOpen a s) :
    s.packetReceived a.src a.srcPort a.buffer a.uptime =
      ((s.packetReceivedOpen a.buffer).1, (s.packetReceivedOpen a.buffer).2, none) := by
  obtain ⟨-, hp, hl, hc⟩ := matchesOpen_iff.mp h
  rw [TcpSocket.packetReceived, if_neg fun hn => hn.2.2 hp, if_neg hc, if_neg hl]

variable {sockets : List TcpSocket}

theorem packetReceived_of_find (hp : a.dstPort ≠ 0) (hf : sockets.find? (matchesOpen a) =
      some s) :
    ∃ before after, sockets = before ++ s :: after ∧
      (packetReceived sockets a).1 = before ++ (s.packetReceivedOpen a.buffer).1 :: after := by
  rcases deliverFirst_cases (matchesOpen a) a sockets with ⟨hn, -⟩ |
      ⟨before, t, after, hs, hf', hd⟩
  · rw [hn] at hf
    cases hf
  obtain rfl := Option.some.inj (hf'.symm.trans hf)
  refine ⟨before, after, hs, ?_⟩
  rw [packetReceived, if_neg hp, hd, packetReceived_of_matchesOpen (find?_some hf), some_or]
  exact append_nil _

theorem packetReceived_of_find_none (hn : sockets.find? (matchesOpen a) = none) :
    (packetReceived sockets a).1 = sockets ∨ ∃ before s after extra,
      sockets = before ++ s :: after ∧ s.block.state = .listen ∧ ∃ s',
        (packetReceived sockets a).1 = before ++ s' :: after ++ extra := by
  have hi : deliverFirst (matchesOpen a) a sockets = none := by
    rcases deliverFirst_cases (matchesOpen a) a sockets with ⟨-, h⟩ | ⟨_, _, _, _, hf, -⟩
    · exact h
    rw [hn] at hf
    cases hf
  rw [packetReceived, hi, none_or]
  split
  · exact inl rfl
  rcases deliverFirst_cases (matchesListener a) a sockets with ⟨-, h⟩ |
      ⟨before, s, after, hs, hf, hd⟩
  · rw [h]
    exact inl rfl
  have hl := find?_some hf
  rw [matchesListener, Bool.and_eq_true, beq_iff_eq, beq_iff_eq] at hl
  rw [hd]
  exact inr ⟨before, s, after, _, hs, hl.2, _, rfl⟩

/-- **When demultiplexing goes well**: the first open connection with the ports of the segment is
the one with its sender, or there is nothing in the segment for that connection. -/
theorem demultiplexes_iff (sockets : List TcpSocket) (a : Arrival)
    (hlen : a.buffer.length < 65536) :
    Demultiplexes sockets a ↔ a.dstPort = 0 ∨
      ∀ s, sockets.find? (matchesOpen a) = some s →
        s.destinationAddress = a.src ∨ s.Ignores a.buffer := by
  by_cases hpo : a.dstPort = 0
  · refine iff_of_true (fun i s hi _ hch => absurd hi ?_) (inl hpo)
    rwa [packetReceived, if_pos hpo] at hch
  rw [or_iff_right hpo]
  cases hfin : sockets.find? (matchesOpen a) with
  | none =>
    refine iff_of_true (fun i s hi hli hch => ?_) fun s hs => absurd hs.symm (some_ne_none s)
    rcases packetReceived_of_find_none hfin with hsa |
        ⟨before, t, after, extra, hsp, ht, s', hnew⟩
    · rw [hsa] at hch
      exact absurd hi hch
    rw [hsp] at hi
    rw [hnew] at hch
    obtain ⟨rfl, -⟩ := eq_of_getElem?_ne hi hch
    exact absurd ht hli
  | some s =>
    have hma := matchesOpen_iff.mp (find?_some hfin)
    obtain ⟨before, after, hsp, hnew⟩ := packetReceived_of_find hpo hfin
    have hse := TcpSocket.packetReceivedOpen_eq_self_iff hma.2.2.2 hlen
    constructor
    · intro hgo t ht
      cases ht
      by_cases hsa : (s.packetReceivedOpen a.buffer).1 = s
      · exact inr (hse.mp hsa)
      have hat (x : TcpSocket) : (before ++ x :: after)[before.length]? = some x := by
        rw [getElem?_append_right le_rfl, Nat.sub_self, getElem?_cons_zero]
      have hold : sockets[before.length]? = some s := by rw [hsp, hat]
      have hch : (packetReceived sockets a).1[before.length]? ≠ some s := by
        rw [hnew, hat]
        exact fun heq => hsa (Option.some.inj heq)
      exact inl (hgo before.length s hold hma.2.2.1 hch).1
    intro hgo i t hi _ hch
    rw [hsp] at hi
    rw [hnew, ← append_nil (before ++ _)] at hch
    obtain ⟨rfl, hne⟩ := eq_of_getElem?_ne hi hch
    rcases hgo t rfl with hadd | hig
    · exact ⟨hadd, hma.2.1.symm, hma.1.symm⟩
    · exact absurd (hse.mpr hig) hne

/-! ## Two hosts behind one port -/

/-- A connection of the local port 80 with port 50000 of a host. -/
def webConnection (host : IPv4Addr) : TcpSocket where
  deviceAddress := 1
  sourcePort := 80
  destinationAddress := host
  destinationPort := 50000
  block := { state := .established, sndMss := tcpMinMss }

def webReset (host : IPv4Addr) : Arrival where
  src := host
  srcPort := 50000
  dst := 1
  dstPort := 80
  buffer := TcpHeader.encode
    { sourcePort := 50000, destinationPort := 80, seqNumber := 0, ackNumber := 0,
      bitvalues := 0x5004, window := 8191, checksum := 0, urgentPointer := 0 }
  uptime := 0

theorem demultiplexes_oneHost : Demultiplexes [webConnection 2] (webReset 2) := by
  have hlen : (webReset 2).buffer.length = 20 := length_encode _
  refine (demultiplexes_iff _ _ (by omega)).mpr (inr fun s hs => inl ?_)
  rw [find?_cons_of_pos (by decide)] at hs
  exact some.inj hs ▸ rfl

theorem not_demultiplexes_twoHosts :
    ¬ Demultiplexes [webConnection 2, webConnection 3] (webReset 3) := by
  intro h
  have hcl : (packetReceived [webConnection 2, webConnection 3] (webReset 3)).1[0]?.map
      (·.block.state) = some .closed := by decide +kernel
  have hadd := h 0 (webConnection 2) rfl (by decide) fun heq => by
    rw [heq] at hcl
    exact absurd hcl (by decide)
  exact absurd hadd.1 (by decide)

end TcpProtocol

end AexKernel.Net
