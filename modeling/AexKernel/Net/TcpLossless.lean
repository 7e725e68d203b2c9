import AexKernel.Net.TcpSending

/-! # Nothing that has been accepted for sending is lost

The bytes that `sendTo` has taken stand in three places. -/

namespace AexKernel.Net

open Library Mem TcpSocket List TcpThreads

/-! ## Linked segments -/

def queuedData (queue : List Segment) : List (BitVec 8) := queue.flatMap Segment.data

theorem queuedData_append (q queue' : List Segment) :
    queuedData (q ++ queue') = queuedData q ++ queuedData queue' :=
  flatMap_append ..

theorem queuedData_cons (seg : Segment) (rest : List Segment) :
    queuedData (seg :: rest) = seg.data ++ queuedData rest := flatMap_cons ..

theorem queuedData_singleton (seg : Segment) : queuedData [seg] = seg.data := by
  rw [queuedData_cons]
  exact append_nil _

/-- The segments take up the sequence numbers from `a` to `b` without a gap. -/
def Linked : BitVec 32 → List Segment → BitVec 32 → Prop
  | a, [], b => a = b
  | a, seg :: rest, b => seg.seq = a ∧ seg.ackWith = a + BitVec.ofNat 32 seg.data.length ∧
    Linked seg.ackWith rest b

namespace Linked

variable {una a b : BitVec 32} {queue : List Segment} {seg : Segment}

theorem push (h : Linked a queue b) (hs : seg.seq = b)
    (ha : seg.ackWith = b + BitVec.ofNat 32 seg.data.length) :
    Linked a (queue ++ [seg]) seg.ackWith := by
  induction queue generalizing a with
  | nil =>
    obtain rfl : a = b := h
    exact ⟨hs, ha, rfl⟩
  | cons first rest ih => exact ⟨h.1, h.2.1, ih h.2.2⟩

variable {queue' rest : List Segment}

theorem resent (h : Linked a queue b) (hr : List.Forall₂ Resent queue queue') :
    Linked a queue' b ∧ queuedData queue' = queuedData queue := by
  induction hr generalizing a with
  | nil => exact ⟨h, rfl⟩
  | cons hf _ ih =>
    obtain ⟨_, _, rfl⟩ := hf
    obtain ⟨hl, hd⟩ := ih h.2.2
    refine ⟨⟨h.1, h.2.1, hl⟩, ?_⟩
    rw [queuedData_cons, queuedData_cons, hd]

theorem toNat_first (h : Linked a (seg :: rest) b)
    (hlen : (a - una).toNat + (queuedData (seg :: rest)).length < 2 ^ 32) :
    (seg.ackWith - una).toNat = (a - una).toNat + seg.data.length := by
  rw [queuedData_cons, length_append] at hlen
  rw [h.2.1]
  exact toNat_add_sub (by omega)

section

variable (h : Linked a queue b)
include h

section

variable (hlen : (a - una).toNat + (queuedData queue).length < 2 ^ 32)
include hlen

theorem toNat_mem (hm : seg ∈ queue) :
    (a - una).toNat ≤ (seg.ackWith - una).toNat ∧
      (seg.ackWith - una).toNat ≤ (a - una).toNat + (queuedData queue).length := by
  induction queue generalizing a with
  | nil => cases hm
  | cons first rest ih =>
    have hf := h.toNat_first hlen
    rw [queuedData_cons, length_append] at hlen ⊢
    rcases mem_cons.mp hm with rfl | hm
    · omega
    have hr := ih h.2.2 (by omega) hm
    omega

theorem toNat_end : (b - una).toNat = (a - una).toNat + (queuedData queue).length := by
  induction queue generalizing a with
  | nil =>
    obtain rfl : a = b := h
    rfl
  | cons first rest ih =>
    have hf := h.toNat_first hlen
    rw [queuedData_cons, length_append] at hlen ⊢
    rw [ih h.2.2 (by omega)]
    omega

theorem split {ackn : BitVec 32} (hle : (a - una).toNat ≤ (ackn - una).toNat)
    (hb : ackn = a ∨ ∃ seg ∈ queue, ackn = seg.ackWith) :
    ∃ done rest, queue = done ++ rest ∧ Linked a done ackn ∧ Linked ackn rest b ∧
      (∀ seg ∈ done, (seg.ackWith - una).toNat ≤ (ackn - una).toNat) ∧
      ∀ seg ∈ rest, ¬ (seg.ackWith - una).toNat ≤ (ackn - una).toNat := by
  induction queue generalizing a with
  | nil =>
    obtain rfl : ackn = a := hb.resolve_right fun ⟨_, hm, _⟩ => nomatch hm
    exact ⟨[], [], rfl, rfl, h, forall_mem_nil _, forall_mem_nil _⟩
  | cons seg rest ih =>
    have hi := h.toNat_first hlen
    have ha {x : Segment} (hx : x ∈ rest) :
        (seg.ackWith - una).toNat ≤ (x.ackWith - una).toNat := by
      rw [queuedData_cons, length_append] at hlen
      exact (h.2.2.toNat_mem (by omega) hx).1
    by_cases he : (seg.ackWith - una).toNat ≤ (ackn - una).toNat
    · -- the segment is before the boundary, which is then its end or one of the rest
      have hb' : ackn = seg.ackWith ∨ ∃ x ∈ rest, ackn = x.ackWith := by
        rcases hb with rfl | ⟨x, hx, hq⟩
        · have hq : (seg.ackWith - una).toNat = (ackn - una).toNat := by omega
          exact Or.inl (sub_left_inj.mp (BitVec.eq_of_toNat_eq hq)).symm
        rcases mem_cons.mp hx with rfl | hx
        · exact Or.inl hq
        · exact Or.inr ⟨x, hx, hq⟩
      rw [queuedData_cons, length_append] at hlen
      obtain ⟨done, left, rfl, hd, hl, hbe, hf⟩ :=
        ih h.2.2 (by omega) he hb'
      exact ⟨seg :: done, left, rfl, ⟨h.1, h.2.1, hd⟩, hl, forall_mem_cons.mpr ⟨he, hbe⟩, hf⟩
    obtain rfl : ackn = a := hb.resolve_right fun ⟨x, hx, hq⟩ => by
      rcases mem_cons.mp hx with rfl | hx
      · exact he (by rw [hq])
      · exact he (by rw [hq]; exact ha hx)
    refine ⟨[], seg :: rest, rfl, rfl, h, forall_mem_nil _, fun x hx => ?_⟩
    rcases mem_cons.mp hx with rfl | hx
    · exact he
    have := ha hx
    omega

end

theorem contiguous :
    (∀ seg ∈ queue, seg.ackWith = seg.seq + BitVec.ofNat 32 seg.data.length) ∧
      queue.IsChain (fun seg next => seg.ackWith = next.seq) ∧
      ∀ seg ∈ queue.getLast?, seg.ackWith = b := by
  induction queue generalizing a with
  | nil => exact ⟨forall_mem_nil _, .nil, fun _ hn => nomatch hn⟩
  | cons seg rest ih =>
    obtain ⟨hlen, hc, hl⟩ := ih h.2.2
    refine ⟨forall_mem_cons.mpr ⟨by rw [h.1, h.2.1], hlen⟩, ?_, ?_⟩
    · cases rest with
      | nil => exact .singleton seg
      | cons next rest => exact .cons_cons h.2.2.1.symm hc
    cases rest with
    | nil =>
      intro x hx
      cases hx
      exact h.2.2
    | cons next rest => exact hl

end

end Linked

/-! ## The log of a connection -/

/-- A socket, the bytes that `sendTo` has accepted since the connection was established, and how far
`snd_una` has moved since then. -/
structure SendLog where
  threads : TcpThreads
  accepted : List (BitVec 8) := []
  acked : ℕ := 0

/-- The steps: a pass of `sendTo`, the timer, and a segment. -/
inductive SendCall
  | sendTo (rest : List (BitVec 8))
  | tick (uptime : ℕ)
  | received (src : IPv4Addr) (srcPort : BitVec 16) (buffer : List (BitVec 8)) (uptime : ℕ)

def SendCall.action : SendCall → ThreadAction
  | .sendTo rest => .sendPass rest
  | .tick uptime => .timer uptime
  | .received src srcPort buffer uptime => .packetReceived src srcPort buffer uptime

/-- The bytes that a step accepts. -/
def SendCall.accepts (s : TcpSocket) : SendCall → List (BitVec 8)
  | .sendTo rest =>
    match (s.sendToPass rest).2 with
    | none => []
    | some left => rest.take (rest.length - left.length)
  | _ => []

namespace SendLog

def socket (l : SendLog) : TcpSocket := l.threads.socket

def step (l : SendLog) (a : SendCall) : Except Fault SendLog := do
  let t ← l.threads.step a.action
  return {
    threads := t
    accepted := l.accepted ++ a.accepts l.socket
    acked := l.acked + (t.socket.block.sndUna - l.socket.block.sndUna).toNat }

/-- Every acknowledgement that an established connection receives lies in the window and on the
boundary of a segment. -/
def AckInWindow (l : SendLog) : SendCall → Prop
  | .received _ _ buffer _ =>
    l.socket.block.state = .established → Acknowledges (TcpHeader.parse buffer) →
      SerialLe l.socket.block.sndUna (TcpHeader.parse buffer).ackNumber ∧
      SerialLe (TcpHeader.parse buffer).ackNumber l.socket.block.sndNxt ∧
      ((TcpHeader.parse buffer).ackNumber = l.socket.block.sndUna ∨
        ∃ seg ∈ l.socket.retransmissionQueue, (TcpHeader.parse buffer).ackNumber = seg.ackWith)
  | _ => True

instance (l : SendLog) : (a : SendCall) → Decidable (l.AckInWindow a)
  | .received _ _ _ _ => inferInstanceAs (Decidable (_ → _ → _ ∧ _ ∧ (_ ∨ ∃ seg ∈ _, _)))
  | .sendTo _ | .tick _ => .isTrue trivial

/-- **Nothing is lost**: the accepted bytes are the ones below `snd_una`, those of the queue and those
of the transmit buffer, in this order, and the queue takes up the sequence numbers up to `snd_nxt`
without a gap. -/
structure NothingLost (l : SendLog) : Prop where
  bytes : l.accepted = l.accepted.take l.acked ++ queuedData l.socket.retransmissionQueue ++
    l.socket.txBuffer.contents
  lengths : ∀ seg ∈ l.socket.retransmissionQueue,
    seg.ackWith = seg.seq + BitVec.ofNat 32 seg.data.length
  contiguous : l.socket.retransmissionQueue.IsChain fun seg next => seg.ackWith = next.seq
  last : ∀ seg ∈ l.socket.retransmissionQueue.getLast?, seg.ackWith = l.socket.block.sndNxt

/-- A connection that has just been established. -/
structure Fresh (s : TcpSocket) : Prop where
  state : s.block.state = .established
  queue : s.retransmissionQueue = []
  txBuffer : s.txBuffer.contents = []
  sndUna : s.block.sndUna = s.block.sndNxt
  sndWnd : s.block.sndWnd < 65536

/-- What holds in ESTABLISHED, of the socket, the bytes accepted and the distance `snd_una` has
moved. -/
structure Sending (s : TcpSocket) (accepted : List (BitVec 8)) (acked : ℕ) : Prop where
  bytes : ∃ below, accepted = below ++ queuedData s.retransmissionQueue ++ s.txBuffer.contents ∧
    below.length = acked
  linked : Linked s.block.sndUna s.retransmissionQueue s.block.sndNxt
  sndWnd : s.block.sndWnd < 65536
  /-- An acknowledgement leaves less than `2 ^ 31` bytes, and a window is added at most. -/
  room : (queuedData s.retransmissionQueue).length + s.block.sndWnd < 2 ^ 31 + 65536
  noFin : ¬ HasFin s.retransmissionQueue

variable {l l' : SendLog}

theorem Sending.nothingLost (h : Sending l.socket l.accepted l.acked) : l.NothingLost := by
  obtain ⟨below, hb, hlen⟩ := h.bytes
  obtain ⟨hl, hc, ha⟩ := h.linked.contiguous
  refine ⟨?_, hl, hc, ha⟩
  have ht : l.accepted.take l.acked = below := by
    rw [hb, append_assoc, take_left' hlen]
  rw [ht]
  exact hb

/-! ## Steps -/

section Steps

variable {s s' : TcpSocket} {accepted : List (BitVec 8)} {acked : ℕ} (h : Sending s accepted acked)
include h

theorem Sending.keep {more : List (BitVec 8)} (hu : s'.block.sndUna = s.block.sndUna)
    (hb : queuedData s'.retransmissionQueue ++ s'.txBuffer.contents =
      queuedData s.retransmissionQueue ++ s.txBuffer.contents ++ more)
    (hl : Linked s.block.sndUna s'.retransmissionQueue s'.block.sndNxt)
    (hw : s'.block.sndWnd < 65536)
    (hr : (queuedData s'.retransmissionQueue).length + s'.block.sndWnd < 2 ^ 31 + 65536)
    (hf : ¬ HasFin s'.retransmissionQueue) :
    Sending s' (accepted ++ more) (acked + (s'.block.sndUna - s.block.sndUna).toNat) := by
  obtain ⟨below, ha, hlen⟩ := h.bytes
  refine ⟨⟨below, ?_, ?_⟩, hu ▸ hl, hw, hr, hf⟩
  · rw [ha, append_assoc, append_assoc, append_assoc, hb, append_assoc]
  rw [hu, BitVec.sub_self]
  exact hlen

theorem Sending.same (hs : SameSending s s') :
    Sending s' (accepted ++ []) (acked + (s'.block.sndUna - s.block.sndUna).toNat) := by
  refine h.keep hs.sndUna ?_ ?_ ?_ ?_ ?_
  · rw [hs.queue, hs.txBuffer, append_nil]
  · rw [hs.queue, hs.sndNxt]
    exact h.linked
  · rw [hs.sndWnd]
    exact h.sndWnd
  · rw [hs.queue, hs.sndWnd]
    exact h.room
  · rw [hs.queue]
    exact h.noFin

omit h in
theorem contents_sendToPass (s : TcpSocket) (rest : List (BitVec 8)) :
    (s.sendToPass rest).1.txBuffer.contents =
      s.txBuffer.contents ++ (SendCall.sendTo rest).accepts s := by
  rw [SendCall.accepts, sendToPass]
  split_ifs
  · exact (append_nil _).symm
  · dsimp only
    rw [Nat.sub_self, take_zero, append_nil]
  have hlen : rest.length - (rest.drop (min s.txBuffer.writeAvailable rest.length)).length =
      min s.txBuffer.writeAvailable rest.length := by
    rw [length_drop]
    omega
  dsimp only
  rw [hlen, CircularBuffer.contents_write _ (by rw [length_take]; omega)]

theorem Sending.sendTo (rest : List (BitVec 8)) :
    Sending (s.sendToPass rest).1 (accepted ++ (SendCall.sendTo rest).accepts s)
      (acked + ((s.sendToPass rest).1.block.sndUna - s.block.sndUna).toNat) := by
  obtain ⟨tx, he⟩ := s.sendToPass_eq rest
  refine h.keep (by rw [he]) ?_ (by rw [he]; exact h.linked) (by rw [he]; exact h.sndWnd)
    (by rw [he]; exact h.room) (by rw [he]; exact h.noFin)
  rw [contents_sendToPass, he, append_assoc]

theorem Sending.package (start : ℕ) :
    Sending (s.afterSegment start) (accepted ++ [])
      (acked + ((s.afterSegment start).block.sndUna - s.block.sndUna).toNat) := by
  have hd := s.data_nextSegment start
  have hs : (s.nextSegment start).data.length = s.segmentSize := by
    rw [hd, length_take, CircularBuffer.length_contents]
    exact min_eq_left s.segmentSize_le
  have hq : (s.afterSegment start).retransmissionQueue =
      s.retransmissionQueue ++ [s.nextSegment start] := rfl
  have hw := sndWnd_afterSegment h.sndWnd start
  have hl := s.segmentSize_le_sndWnd
  have hr := h.room
  have hw' := h.sndWnd
  refine h.keep rfl ?_ ?_ ?_ ?_ ?_
  · rw [hq, contents_afterSegment, queuedData_append, queuedData_singleton, hd,
      append_nil, append_assoc, take_append_drop]
  · exact h.linked.push rfl (by rw [hs]; rfl)
  · rw [hw]
    omega
  · rw [hq, queuedData_append, queuedData_singleton, length_append, hs, hw]
    omega
  · rw [hq, hasFin_append]
    rintro (hf | hf)
    · exact h.noFin hf
    · exact absurd hf (by change ¬ hasFlag (tcpPsh ||| tcpAck) tcpFin; decide)

theorem Sending.requeue {q : List Segment}
    (hr : List.Forall₂ Resent s.retransmissionQueue q) :
    Sending { s with retransmissionQueue := q } (accepted ++ [])
      (acked + (s.block.sndUna - s.block.sndUna).toNat) := by
  obtain ⟨hl, hd⟩ := h.linked.resent hr
  refine h.keep rfl ?_ hl h.sndWnd ?_ ?_
  · rw [hd, append_nil]
  · rw [hd]
    exact h.room
  · rw [hasFin_of_resent hr]
    exact h.noFin

variable {header : TcpHeader} {a : TcpSocket}

theorem Sending.acks (hy : Acknowledges header) (ha : Acked s header a) (hs : SameSending a s')
    (hn : header.window < 65536) (hle : SerialLe s.block.sndUna header.ackNumber)
    (hse : SerialLe header.ackNumber s.block.sndNxt)
    (hb : header.ackNumber = s.block.sndUna ∨ ∃ seg ∈ s.retransmissionQueue, header.ackNumber =
      seg.ackWith) :
    Sending s' (accepted ++ []) (acked + (s'.block.sndUna - s.block.sndUna).toNat) := by
  have hro := h.room
  have hlen : (s.block.sndUna - s.block.sndUna).toNat +
      (queuedData s.retransmissionQueue).length < 2 ^ 32 := by
    rw [BitVec.sub_self, BitVec.toNat_zero]
    omega
  obtain ⟨done, rest, hp, hdo, hr, hbe, haf⟩ :=
    h.linked.split hlen (by rw [BitVec.sub_self]; exact Nat.zero_le _) hb
  -- the scan leaves exactly the segments behind the boundary
  have he {seg : Segment} (hm : seg ∈ s.retransmissionQueue) :=
    isBeforeOrEqual_iff hle hse ((h.linked.toNat_mem hlen hm).2.trans_eq
      (h.linked.toNat_end hlen).symm)
  have hq : s'.retransmissionQueue = rest := by
    rw [hs.queue, ackScan_queue (ha.scan hy)]
    rw [hp] at he ⊢
    rw [filter_append, filter_eq_nil_iff.mpr, nil_append, filter_eq_self]
    · intro seg hm
      rw [Bool.not_eq_true', ← Bool.not_eq_true, he (mem_append_right _ hm)]
      exact haf seg hm
    · intro seg hm
      rw [Bool.not_eq_true', Bool.not_eq_false, he (mem_append_left _ hm)]
      exact hbe seg hm
  have ho := ha.window hy
  rw [if_pos (isAfterOrEqual_of_serialLe hle)] at ho
  have hu : s'.block.sndUna = header.ackNumber := hs.sndUna.trans (Prod.mk.inj ho).1
  have hw : s'.block.sndWnd = header.window := hs.sndWnd.trans (Prod.mk.inj ho).2
  have hx : s'.block.sndNxt = s.block.sndNxt := hs.sndNxt.trans ha.sndNxt
  rw [hp, queuedData_append, length_append] at hro
  -- the distances from a link of its own
  have hd {a b : BitVec 32} {queue : List Segment} (hli : Linked a queue b)
      (hlt : (queuedData queue).length < 2 ^ 32) : (b - a).toNat = (queuedData queue).length := by
    have ht : (a - a).toNat = 0 := by rw [BitVec.sub_self, BitVec.toNat_zero]
    have hlen : (a - a).toNat + (queuedData queue).length < 2 ^ 32 := by omega
    rw [hli.toNat_end hlen, ht, Nat.zero_add]
  have hc := hd hdo (by omega)
  have hf := hd hr (by omega)
  obtain ⟨below, hby, hl⟩ := h.bytes
  refine ⟨⟨below ++ queuedData done, ?_, ?_⟩, ?_, ?_, ?_, ?_⟩
  · rw [hq, hs.txBuffer, ha.txBuffer, append_nil, hby, hp, queuedData_append, ← append_assoc]
  · rw [length_append, hl, hu, hc]
  · rw [hu, hq, hx]
    exact hr
  · rwa [hw]
  · rw [SerialLe] at hse
    rw [hq, hw, ← hf]
    omega
  · rw [hq]
    intro hi
    refine h.noFin (hi.mono ?_)
    rw [hp]
    exact subset_append_right _ _

theorem Sending.receives (ha : Acked s header a) (hs : SameSending a s')
    (hw : header.window < 65536)
    (hi : Acknowledges header → SerialLe s.block.sndUna header.ackNumber ∧
      SerialLe header.ackNumber s.block.sndNxt ∧ (header.ackNumber = s.block.sndUna ∨
      ∃ seg ∈ s.retransmissionQueue, header.ackNumber = seg.ackWith)) :
    Sending s' (accepted ++ []) (acked + (s'.block.sndUna - s.block.sndUna).toNat) := by
  by_cases hy : Acknowledges header
  · obtain ⟨hl, he, hb⟩ := hi hy
    exact h.acks hy ha hs hw hl he hb
  obtain ⟨hu, hn, -, hq⟩ := ha.without hy
  refine h.keep (hs.sndUna.trans hu) ?_ ?_ ?_ ?_ ?_
  · rw [hs.queue, hq, hs.txBuffer, ha.txBuffer, append_nil]
  · rw [hs.queue, hq, hs.sndNxt, ha.sndNxt]
    exact h.linked
  · rw [hs.sndWnd, hn]
    exact h.sndWnd
  · rw [hs.queue, hq, hs.sndWnd, hn]
    exact h.room
  · rw [hs.queue, hq]
    exact h.noFin

end Steps

/-! ## Runs -/

/-- The connection has been opened, and nothing is lost while it is established. -/
structure Live (l : SendLog) : Prop where
  opened : l.socket.block.state ≠ .synSent ∧ l.socket.block.state ≠ .synReceived
  sending : l.socket.block.state = .established → Sending l.socket l.accepted l.acked

variable {s : TcpSocket}

theorem live_of_fresh (h : Fresh s) : Live { threads := { socket := s } } := by
  refine ⟨?_, fun _ => ⟨⟨[], ?_, rfl⟩, ?_, h.sndWnd, ?_, ?_⟩⟩
  · change s.block.state ≠ _ ∧ s.block.state ≠ _
    rw [h.state]
    decide
  · change [] = [] ++ queuedData s.retransmissionQueue ++ s.txBuffer.contents
    rw [h.queue, h.txBuffer]
    rfl
  · change Linked s.block.sndUna s.retransmissionQueue s.block.sndNxt
    rw [h.queue]
    exact h.sndUna
  · change (queuedData s.retransmissionQueue).length + s.block.sndWnd < _
    have hw := h.sndWnd
    rw [h.queue, queuedData, flatMap_nil, length_nil]
    omega
  · change ¬ HasFin s.retransmissionQueue
    rw [h.queue]
    exact fun ⟨_, hm, _⟩ => nomatch hm

/-- The log after a step of the threads that accepts the given bytes. -/
def after (l : SendLog) (t : TcpThreads) (more : List (BitVec 8)) : SendLog where
  threads := t
  accepted := l.accepted ++ more
  acked := l.acked + (t.socket.block.sndUna - l.socket.block.sndUna).toNat

variable {more buffer : List (BitVec 8)} {t : TcpThreads}

theorem Live.of_state (h : l.Live) (hs : t.socket.block.state = l.socket.block.state)
    (he : Sending l.socket l.accepted l.acked → Sending t.socket (l.accepted ++ more) (l.acked +
      (t.socket.block.sndUna - l.socket.block.sndUna).toNat)) :
    (l.after t more).Live := by
  refine ⟨?_, fun hes => he (h.sending (hs ▸ hes))⟩
  change t.socket.block.state ≠ _ ∧ t.socket.block.state ≠ _
  rw [hs]
  exact h.opened

theorem live_closed (hc : t.socket.block.state = .closed) : (l.after t more).Live := by
  constructor
  · change t.socket.block.state ≠ _ ∧ t.socket.block.state ≠ _
    rw [hc]
    decide
  intro he
  change t.socket.block.state = _ at he
  rw [hc] at he
  cases he

variable {uptime : ℕ}

theorem Live.tick (h : l.Live) {sent : List Packet}
    (ht : l.threads.stepTimer uptime = .ok (t, sent)) : (l.after t []).Live := by
  have hc := sendStep_of_send (a := .timer uptime) ht
  obtain ⟨s', hs'⟩ : ∃ s', s' = t.socket := ⟨_, rfl⟩
  rw [← hs'] at hc
  cases hc with
  | shut hl => exact live_closed (hs' ▸ hl)
  | keeps hi hst => exact h.of_state (hs' ▸ hst) fun hs => hs.same (hs' ▸ hi)
  | packages start _ _ =>
    refine h.of_state (by rw [← hs']; rfl) fun hs => ?_
    rw [← hs']
    exact hs.package start
  | requeues hr =>
    refine h.of_state (by rw [← hs']; rfl) fun hs => ?_
    rw [← hs']
    exact hs.requeue hr

theorem finState_eq {hd : TcpHeader} {state : TcpState}
    (h : finState s hd state = .established ∨ finState s hd state = .synSent ∨
      finState s hd state = .synReceived) :
    finState s hd state = state := by
  rw [finState] at h ⊢
  split_ifs at h ⊢
  · cases state <;> first | rfl | exact absurd h (by decide)
  · rfl

theorem Live.received (h : l.Live) {src : IPv4Addr} {srcPort : BitVec 16}
    (hi : l.AckInWindow (.received src srcPort buffer uptime)) :
    (l.after (l.threads.withSocket
      (l.socket.packetReceived src srcPort buffer uptime).1) []).Live := by
  have hc := l.socket.sendStep_packetReceived src srcPort buffer uptime
  obtain ⟨s', hs'⟩ : ∃ s', s' = (l.socket.packetReceived src srcPort buffer uptime).1 := ⟨_, rfl⟩
  rw [← hs'] at hc ⊢
  cases hc with
  | shut hl => exact live_closed hl
  | keeps hs ht => exact h.of_state ht fun hse => hse.same hs
  | acks hop ha hs ht =>
    obtain ⟨-, hm⟩ := acked_fin ha h.opened.1 h.opened.2
    -- a state that matters is the one before
    have hb (hn : s'.block.state = .established ∨ s'.block.state = .synSent ∨
        s'.block.state = .synReceived) : s'.block.state = l.socket.block.state := by
      rw [ht] at hn ⊢
      have hsa := finState_eq hn
      rw [hsa] at hn ⊢
      rcases hm with ⟨hq, -⟩ | ⟨-, hw, -⟩
      · exact hq
      rw [hw] at hn
      exact absurd hn (by decide)
    refine ⟨⟨fun hn => ?_, fun hn => ?_⟩, fun hn => ?_⟩
    · exact h.opened.1 ((hb (Or.inr (Or.inl hn))).symm.trans hn)
    · exact h.opened.2 ((hb (Or.inr (Or.inr hn))).symm.trans hn)
    have he := (hb (Or.inl hn)).symm.trans hn
    exact (h.sending he).receives ha hs (window_parse_lt buffer) (hi he)

theorem Live.step {a : SendCall} (h : l.Live) (hi : l.AckInWindow a) (hst : l.step a = .ok l') :
    l'.Live := by
  obtain ⟨t, ht, hst⟩ := bind_eq_ok.mp hst
  cases hst
  obtain ⟨sent, hs⟩ := step_eq_ok.mp ht
  cases a with
  | sendTo rest =>
    cases hs
    refine h.of_state ?_ fun he => he.sendTo rest
    obtain ⟨tx, hq⟩ := l.socket.sendToPass_eq rest
    change (l.socket.sendToPass rest).1.block.state = _
    rw [hq]
  | tick uptime => exact h.tick hs
  | received src srcPort buffer uptime =>
    cases hs
    exact h.received hi

/-- **Nothing accepted for sending is lost** on an established connection whose peer acknowledges
segments that have been sent. -/
theorem nothing_lost {s : TcpSocket} (fresh : Fresh s) {l : SendLog}
    (run : Reach step AckInWindow { threads := { socket := s } } l)
    (hst : l.socket.block.state = .established) : l.NothingLost := by
  have hli : l.Live := run.invariant (P := Live) (live_of_fresh fresh)
    fun _ _ _ h hin hste => h.step hin hste
  exact (hli.sending hst).nothingLost

theorem nothing_lost_oneOfTwo : ∃ l,
    Fresh TcpThreads.opened ∧ Reach step AckInWindow { threads := { socket := TcpThreads.opened } } l ∧
    l.socket.block.state = .established ∧ l.accepted = [0x61, 0x62, 0x63] ∧ l.acked = 1 ∧
    queuedData l.socket.retransmissionQueue = [0x62] ∧ l.NothingLost := by
  have hfr : Fresh opened := ⟨rfl, rfl, rfl, rfl, by decide⟩
  obtain ⟨l, hl, hst, hac, hack, hqu⟩ :
      ∃ l ∈ execute step AckInWindow { threads := { socket := opened } }
      [.sendTo [0x61], .tick 0, .tick 0, .sendTo [0x62], .tick 0, .tick 0, .tick 0,
       .received 2 80 (TcpHeader.encode
         { sourcePort := 80, destinationPort := 49152, seqNumber := 500, ackNumber := 101,
           bitvalues := 0x5010, window := 1000, checksum := 0, urgentPointer := 0 }) 0,
       .sendTo [0x63]],
      l.socket.block.state = .established ∧ l.accepted = [0x61, 0x62, 0x63] ∧ l.acked = 1 ∧
        queuedData l.socket.retransmissionQueue = [0x62] := by
    decide
  have run := Reach.refl.execute hl
  exact ⟨l, hfr, run, hst, hac, hack, hqu, nothing_lost hfr run hst⟩

end SendLog

end AexKernel.Net
