import AexKernel.Net.TcpSending

/-! # The handshake of an active open

A socket that has sent its SYN handles the segments that arrive. -/

namespace AexKernel.Net

open Library Mem TcpSocket List
open TcpHeader (parse)

namespace TcpSocket

/-- `packetReceived` for a SYN in SYN_SENT, up to the place where it drops the lock. -/
def takeSyn (s : TcpSocket) (buffer : List (BitVec 8)) : TcpSocket :=
  let h := TcpHeader.parse buffer
  let s := s.receiveOptions buffer h.hdrLen
  { s with block := { s.block with rcvNxt := h.seqNumber + 1 } }

/-- The rest of it, from where it has the lock again. -/
def receiveAfterSyn (s : TcpSocket) (buffer : List (BitVec 8)) (expectedSeqn : BitVec 32) :
    TcpSocket × List Packet :=
  let h := TcpHeader.parse buffer
  let s := { s with block := { s.block with state := .synReceived } }
  match s.receiveAck h with
  | .done s sent => (s, sent)
  | .goOn s sent =>
    let (s, last) := s.receiveRest h expectedSeqn (buffer.drop h.hdrLen)
    (s, sent ++ last)

def TakesSyn (s : TcpSocket) (h : TcpHeader) : Prop :=
  ¬ hasFlag h.bitvalues tcpRst ∧ hasFlag h.bitvalues tcpSyn ∧ s.block.state = .synSent
deriving Decidable

/-- **The two halves** are `packetReceived`, when nothing comes in between. -/
theorem receiveAfterSyn_takeSyn {s : TcpSocket} {buf : List (BitVec 8)}
    (h : s.TakesSyn (parse buf)) :
    (s.packetReceivedOpen buf).1 =
      ((s.takeSyn buf).receiveAfterSyn buf s.block.rcvNxt).1 := by
  obtain ⟨hr, hs, ht⟩ := h
  rw [packetReceivedOpen, takeSyn, receiveAfterSyn]
  obtain ⟨mss, hop, -⟩ := s.receiveOptions_eq buf (parse buf).hdrLen
  rw [hop]
  dsimp only
  rw [if_neg hr, receiveSegment, receiveSyn, if_pos ⟨hs, ht⟩]
  dsimp only
  generalize receiveAck _ _ = flow
  cases flow <;> rfl

/-- A segment that `packetReceived` looks at. -/
def Handles (s : TcpSocket) (src : IPv4Addr) (srcPort : BitVec 16) : Prop :=
  ¬ (src ≠ s.destinationAddress ∧ srcPort ≠ s.destinationPort) ∧ s.block.state ≠ .closed
deriving Decidable

/-- The number of payload bytes of a segment that is next in order. -/
def carried (buffer : List (BitVec 8)) (expectedSeqn : BitVec 32) : ℕ :=
  let h := TcpHeader.parse buffer
  if ¬ hasFlag h.bitvalues tcpRst ∧ h.seqNumber = expectedSeqn then (buffer.drop h.hdrLen).length else 0

end TcpSocket

/-- A socket that connects, and what has been received for it. -/
structure Opening where
  socket : TcpSocket
  /-- The SYN segments whose threads have dropped the lock, and `expected_seqn` of each thread. -/
  halves : List (List (BitVec 8) × BitVec 32) := []
  syn : Option (BitVec 32) := none
  taken : ℕ := 0
  acks : List (BitVec 32) := []

/-- What happens to a socket that connects. -/
inductive OpeningAction
  | receive (src : IPv4Addr) (srcPort : BitVec 16) (buffer : List (BitVec 8)) (uptime : ℕ)
  | resume (thread : ℕ)

namespace Opening

def acksWith (o : Opening) (h : TcpHeader) : List (BitVec 32) :=
  if hasFlag h.bitvalues tcpAck then o.acks ++ [h.ackNumber] else o.acks

def step (o : Opening) : OpeningAction → Except Fault Opening
  | .receive src srcPort buffer uptime =>
    let h := TcpHeader.parse buffer
    if o.socket.Handles src srcPort then
      if o.socket.TakesSyn h then .ok { o with
        socket := o.socket.takeSyn buffer
        halves := o.halves ++ [(buffer, o.socket.block.rcvNxt)]
        syn := some h.seqNumber
        taken := 0
        acks := o.acksWith h }
      else .ok { o with
        socket := (o.socket.packetReceived src srcPort buffer uptime).1
        taken := o.taken + TcpSocket.carried buffer o.socket.block.rcvNxt
        acks := o.acksWith h }
    else .ok { o with socket := (o.socket.packetReceived src srcPort buffer uptime).1 }
  | .resume thread =>
    match o.halves[thread]? with
    | none => .ok o
    | some (buffer, expectedSeqn) => .ok { o with
        socket := (o.socket.receiveAfterSyn buffer expectedSeqn).1
        halves := o.halves.eraseIdx thread
        taken := o.taken + TcpSocket.carried buffer expectedSeqn }

/-- The handshake, for a connection whose initial sequence number is `iss`. -/
structure Law (iss : BitVec 32) (o : Opening) : Prop where
  received : o.socket.block.state = .established ∨ o.socket.block.state = .closeWait →
    o.syn.isSome ∧ iss + 1 ∈ o.acks
  rcvNxt : o.socket.block.state = .established →
    ∃ isn, o.syn = some isn ∧ o.socket.block.rcvNxt = isn + 1 + BitVec.ofNat 32 o.taken
  queued : o.socket.block.state = .synSent ∨ o.socket.block.state = .synReceived →
    ∃ seg ∈ o.socket.retransmissionQueue, hasFlag seg.flags tcpSyn ∧ seg.seq = iss

/-- An acknowledgement of the SYN in SYN_SENT, without a SYN. -/
def EarlyAck (s : TcpSocket) (h : TcpHeader) : Prop :=
  s.block.state = .synSent ∧ hasFlag h.bitvalues tcpAck ∧ ¬ hasFlag h.bitvalues tcpSyn ∧
    ¬ hasFlag h.bitvalues tcpRst ∧ h.ackNumber = s.block.sndNxt
deriving Decidable

/-- A segment of the connection is handled whole, and acknowledges the SYN only when the peer's SYN
has come or comes with it. -/
def InTurn (o : Opening) : OpeningAction → Prop
  | .receive src srcPort buffer _ => o.socket.Handles src srcPort →
      o.halves = [] ∧ ¬ EarlyAck o.socket (TcpHeader.parse buffer)
  | .resume _ => True

instance (o : Opening) : (a : OpeningAction) → Decidable (o.InTurn a)
  | .receive .. => inferInstanceAs (Decidable (_ → _))
  | .resume _ => .isTrue trivial

end Opening

/-! ## What a segment does -/

namespace TcpSocket

def Waiting (iss : BitVec 32) (s : TcpSocket) : Prop :=
  ∃ seg, s.retransmissionQueue = [seg] ∧ seg.flags = tcpSyn ∧ seg.seq = iss ∧
    seg.ackWith = iss + 1 ∧ s.block.sndNxt = iss + 1

/-- `rcv_nxt` counts from the SYN on. -/
def Synced (syn : Option (BitVec 32)) (taken : ℕ) (s : TcpSocket) : Prop :=
  ∃ isn, syn = some isn ∧ s.block.rcvNxt = isn + 1 + BitVec.ofNat 32 taken

/-- How far the handshake has come, by the state. -/
inductive Phase (iss : BitVec 32) (syn : Option (BitVec 32)) (taken : ℕ) (acks : List (BitVec 32))
    (s : TcpSocket) : Prop
  | synSent (state : s.block.state = .synSent) (waiting : s.Waiting iss)
  | synReceived (state : s.block.state = .synReceived) (waiting : s.Waiting iss)
      (synced : s.Synced syn taken)
  | established (state : s.block.state = .established) (queue : s.retransmissionQueue = [])
      (synced : s.Synced syn taken) (acked : iss + 1 ∈ acks)
  | closeWait (state : s.block.state = .closeWait) (queue : s.retransmissionQueue = [])
      (syn : syn.isSome) (acked : iss + 1 ∈ acks)
  | closed (state : s.block.state = .closed)

section Phases

variable {iss : BitVec 32} {syn : Option (BitVec 32)} {taken : ℕ} {acks : List (BitVec 32)}
  {s : TcpSocket}

theorem Synced.isSome (h : s.Synced syn taken) : syn.isSome := by
  obtain ⟨isn, hi, -⟩ := h
  rw [hi]
  rfl

variable {h : TcpHeader}

theorem Phase.receiveAck (p : s.Phase iss syn taken acks) (hop : s.block.state ≠ .closed)
    (hc : hasFlag h.bitvalues tcpAck → h.ackNumber ∈ acks)
    (he : s.block.state = .synSent → hasFlag h.bitvalues tcpAck → h.ackNumber ≠ s.block.sndNxt) :
    (∃ a sent, s.receiveAck h = .done a sent ∧ a.block.state = .closed) ∨
      ∃ a, s.receiveAck h = .goOn a [] ∧ a.Phase iss syn taken acks := by
  rw [TcpSocket.receiveAck]
  by_cases hf : hasFlag h.bitvalues tcpAck
  swap
  · rw [if_neg hf]
    exact .inr ⟨s, rfl, p⟩
  rw [if_pos hf]
  obtain ⟨una, wnd, hu, -⟩ := s.updateWindow_eq h
  rw [hu]
  dsimp only
  by_cases hr : (s.block.state = .synSent ∨ s.block.state = .synReceived) ∧
      h.ackNumber ≠ s.block.sndNxt
  · rw [if_pos hr]
    exact .inl ⟨_, _, rfl, rfl⟩
  rw [if_neg hr]
  have ha : s.block.state = .synSent ∨ s.block.state = .synReceived →
      h.ackNumber = s.block.sndNxt := fun ht => not_not.mp fun hn => hr ⟨ht, hn⟩
  cases p with
  | synSent state waiting => exact absurd (ha (.inl state)) (he state hf)
  | synReceived state waiting synced =>
    -- the SYN is acknowledged: it leaves the queue, and the connection is established
    obtain ⟨seg, hq, hl, -, hw, hx⟩ := waiting
    have hi : h.ackNumber = iss + 1 := (ha (.inr state)).trans hx
    have hsc : ackScan h.ackNumber s.block.state s.retransmissionQueue =
        (.established, [], false) := by
      rw [hq, ackScan, hw, hi, if_pos (by rw [isBeforeOrEqual, if_pos rfl]), hl,
        if_neg (by decide), if_pos ⟨by decide, state⟩]
      rfl
    rw [hsc]
    exact .inr ⟨_, rfl, .established rfl rfl synced (hi ▸ hc hf)⟩
  | established state queue synced acked =>
    rw [queue, state]
    exact .inr ⟨_, rfl, .established rfl rfl synced acked⟩
  | closeWait state queue hs acked =>
    rw [queue, state]
    exact .inr ⟨_, rfl, .closeWait rfl rfl hs acked⟩
  | closed state => exact absurd state hop

theorem receiveFin_rcvNxt {seqn : BitVec 32}
    (hs : (s.receiveFin h seqn).block.state = .synReceived ∨
      (s.receiveFin h seqn).block.state = .established) :
    (s.receiveFin h seqn).block.rcvNxt = s.block.rcvNxt := by
  rw [receiveFin] at hs ⊢
  split_ifs with hf
  · rw [if_pos hf] at hs
    dsimp only at hs ⊢
    split at hs
    · rcases hs with hn | hn <;> cases hn
    · rcases hs with hn | hn <;> cases hn
    · rcases hs with hn | hn <;> cases hn
    · rfl
  · rfl

theorem receiveRest_rcvNxt (s : TcpSocket) (h : TcpHeader) (seqn : BitVec 32)
    (data : List (BitVec 8))
    (hs : (s.receiveRest h seqn data).1.block.state = .synReceived ∨
      (s.receiveRest h seqn data).1.block.state = .established) :
    (s.receiveRest h seqn data).1.block.rcvNxt = s.block.rcvNxt +
      BitVec.ofNat 32 (if h.seqNumber = seqn then data.length else 0) := by
  rw [receiveRest, receiveData] at hs ⊢
  split_ifs at hs ⊢ with hd he he hr hold
  · rw [receiveFin_rcvNxt hs, hd]
    exact (BitVec.add_zero _).symm
  · rw [receiveFin_rcvNxt hs]
    exact (BitVec.add_zero _).symm
  · rcases hs with hn | hn <;> cases hn
  · exact receiveFin_rcvNxt hs
  · rw [receiveFin_rcvNxt hs]
    exact (BitVec.add_zero _).symm
  · rw [receiveFin_rcvNxt hs]
    exact (BitVec.add_zero _).symm

section

variable (p : s.Phase iss syn taken acks)
include p

theorem Phase.receiveRest (h : TcpHeader) (seqn : BitVec 32) (data : List (BitVec 8)) :
    Phase iss syn (taken + if h.seqNumber = seqn then data.length else 0) acks
      (s.receiveRest h seqn data).1 := by
  have hn := s.receiveRest_rcvNxt h seqn data
  rcases s.receiveRest_cases h seqn data with ⟨he, -⟩ | ⟨ha, ht⟩
  · rw [he]
    exact .closed rfl
  generalize (s.receiveRest h seqn data).1 = s' at hn ha ht ⊢
  generalize (if h.seqNumber = seqn then data.length else 0) = more at hn ⊢
  have hwa (hw : s.Waiting iss) : s'.Waiting iss := by
    obtain ⟨seg, hq, hse⟩ := hw
    exact ⟨seg, ha.queue.trans hq, ha.sndNxt ▸ hse⟩
  have hy (hs : s.Synced syn taken)
      (hs' : s'.block.state = .synReceived ∨ s'.block.state = .established) :
      s'.Synced syn (taken + more) := by
    obtain ⟨isn, hi, hr⟩ := hs
    refine ⟨isn, hi, ?_⟩
    rw [hn hs', hr, BitVec.ofNat_add, BitVec.add_assoc]
  have hk {state : TcpState} (hs : s.block.state = state) (hf : finNext state = state) :
      s'.block.state = state := by
    rw [ht, hs, hf, ite_self]
  cases p with
  | synSent state waiting => exact .synSent (hk state rfl) (hwa waiting)
  | synReceived state waiting synced =>
    have hs' := hk state rfl
    exact .synReceived hs' (hwa waiting) (hy synced (.inl hs'))
  | established state queue synced acked =>
    rw [state] at ht
    split_ifs at ht
    · exact .closeWait ht (ha.queue.trans queue) synced.isSome acked
    · exact .established ht (ha.queue.trans queue) (hy synced (.inr ht)) acked
  | closeWait state queue hsyn acked =>
    exact .closeWait (hk state rfl) (ha.queue.trans queue) hsyn acked
  | closed state => exact .closed (hk state rfl)

theorem Phase.ne_listen : s.block.state ≠ .listen := by
  cases p with
  | synSent state | synReceived state | established state | closeWait state | closed state =>
    rw [state]
    nofun

theorem Phase.waiting_of_synSent (hs : s.block.state = .synSent) : s.Waiting iss := by
  cases p with
  | synSent state waiting | synReceived state waiting => exact waiting
  | established state | closeWait state | closed state => cases hs.symm.trans state

theorem Phase.options (mss : ℕ) :
    Phase iss syn taken acks (s.withMss mss) := by
  cases p with
  | synSent state waiting => exact .synSent state waiting
  | synReceived state waiting synced => exact .synReceived state waiting synced
  | established state queue synced acked => exact .established state queue synced acked
  | closeWait state queue hs acked => exact .closeWait state queue hs acked
  | closed state => exact .closed state

theorem Phase.mono {acks' : List (BitVec 32)} (hl : acks ⊆ acks') :
    s.Phase iss syn taken acks' := by
  cases p with
  | synSent state waiting => exact .synSent state waiting
  | synReceived state waiting synced => exact .synReceived state waiting synced
  | established state queue synced acked => exact .established state queue synced (hl acked)
  | closeWait state queue hs acked => exact .closeWait state queue hs (hl acked)
  | closed state => exact .closed state

theorem Phase.packetReceivedOpen (hop : s.block.state ≠ .closed) {buf : List (BitVec 8)}
    (hw : ¬ s.TakesSyn (parse buf))
    (ha : hasFlag (parse buf).bitvalues tcpAck → (parse buf).ackNumber ∈ acks)
    (hea : ¬ Opening.EarlyAck s (parse buf)) :
    Phase iss syn (taken + carried buf s.block.rcvNxt) acks (s.packetReceivedOpen buf).1 := by
  rw [TcpSocket.packetReceivedOpen, carried]
  generalize parse buf = h at hw ha hea ⊢
  obtain ⟨mss, ho, -⟩ := s.receiveOptions_eq buf h.hdrLen
  rw [ho]
  by_cases hr : hasFlag h.bitvalues tcpRst
  · rw [if_pos hr, if_neg fun hno => hno.1 hr]
    rcases receiveRst_cases (s.withMss mss) h s.block.rcvNxt
      with he | he
    · rw [he]
      exact .closed rfl
    · rw [he]
      exact p.options mss
  have hn : ¬ (hasFlag h.bitvalues tcpSyn ∧ s.block.state = .synSent) :=
    fun hs => hw ⟨hr, hs⟩
  rw [if_neg hr, receiveSegment, receiveSyn, if_neg hn]
  dsimp only
  simp only [hr, Bool.false_eq_true, not_false_eq_true, true_and]
  have hl : s.block.state = .synSent → hasFlag h.bitvalues tcpAck →
      h.ackNumber ≠ s.block.sndNxt := fun ht hf he =>
    hea ⟨ht, hf, fun hs => hn ⟨hs, ht⟩, hr, he⟩
  obtain ⟨a, sent, he, hc⟩ | ⟨a, he, hp⟩ := (p.options mss).receiveAck hop ha hl
  · rw [he]
    exact .closed hc
  · rw [he]
    exact hp.receiveRest h s.block.rcvNxt (buf.drop h.hdrLen)

end

theorem receiveAfterSyn_phase (hw : s.Waiting iss) (hs : s.Synced syn taken)
    {buf : List (BitVec 8)} (hr : ¬ hasFlag (parse buf).bitvalues tcpRst)
    (ha : hasFlag (parse buf).bitvalues tcpAck →
      (parse buf).ackNumber ∈ acks) (seqn : BitVec 32) :
    Phase iss syn (taken + carried buf seqn) acks
      (s.receiveAfterSyn buf seqn).1 := by
  have hp : Phase iss syn taken acks { s with block := { s.block with state := .synReceived } } :=
    .synReceived rfl hw hs
  rw [receiveAfterSyn, carried]
  generalize parse buf = h at hr ha ⊢
  simp only [hr, Bool.false_eq_true, not_false_eq_true, true_and]
  obtain ⟨a, sent, he, hc⟩ | ⟨a, he, hp⟩ := hp.receiveAck nofun ha nofun
  · rw [he]
    exact .closed hc
  · rw [he]
    exact hp.receiveRest h seqn (buf.drop h.hdrLen)

end Phases

end TcpSocket

/-! ## Runs -/

namespace Opening

variable {iss : BitVec 32} {o o' : Opening}

/-- A SYN that is half handled. -/
structure Half (o : Opening) (half : List (BitVec 8) × BitVec 32) : Prop where
  state : o.socket.block.state = .synSent
  synced : o.socket.Synced o.syn o.taken
  rst : ¬ hasFlag (TcpHeader.parse half.1).bitvalues tcpRst
  ack : hasFlag (TcpHeader.parse half.1).bitvalues tcpAck →
    (TcpHeader.parse half.1).ackNumber ∈ o.acks

/-- What holds in every state of a run. -/
structure Sound (iss : BitVec 32) (o : Opening) : Prop where
  phase : o.socket.Phase iss o.syn o.taken o.acks
  half : o.halves = [] ∨ ∃ half, o.halves = [half] ∧ o.Half half

theorem subset_acksWith (o : Opening) (h : TcpHeader) : o.acks ⊆ o.acksWith h := by
  rw [acksWith]
  split_ifs
  · exact subset_append_left _ _
  · exact Subset.refl _

theorem mem_acksWith (o : Opening) {h : TcpHeader} (ha : hasFlag h.bitvalues tcpAck) :
    h.ackNumber ∈ o.acksWith h := by
  rw [acksWith, if_pos ha]
  exact mem_append_right _ (mem_singleton_self _)

variable {buf : List (BitVec 8)}

theorem Sound.takeSyn (h : o.Sound iss) (hh : o.halves = [])
    (ht : o.socket.TakesSyn (parse buf)) :
    Sound iss { o with
      socket := o.socket.takeSyn buf
      halves := o.halves ++ [(buf, o.socket.block.rcvNxt)]
      syn := some (parse buf).seqNumber
      taken := 0
      acks := o.acksWith (parse buf) } := by
  obtain ⟨hr, -, hs⟩ := ht
  obtain ⟨mss, hop, -⟩ :=
    o.socket.receiveOptions_eq buf (parse buf).hdrLen
  rw [TcpSocket.takeSyn, hop, hh]
  refine ⟨.synSent hs (h.phase.waiting_of_synSent hs), .inr ⟨_, rfl, hs, ?_, hr, o.mem_acksWith⟩⟩
  exact ⟨_, rfl, (BitVec.add_zero _).symm⟩

variable {srcPort port : BitVec 16} {src addr : IPv4Addr}

theorem Sound.receive (h : o.Sound iss) (ha : o.halves = []) (uptime : ℕ)
    (hh : o.socket.Handles src srcPort) (hw : ¬ o.socket.TakesSyn (parse buf))
    (he : ¬ EarlyAck o.socket (parse buf)) :
    Sound iss { o with
      socket := (o.socket.packetReceived src srcPort buf uptime).1
      taken := o.taken + carried buf o.socket.block.rcvNxt
      acks := o.acksWith (parse buf) } := by
  obtain ⟨hf, hop⟩ := hh
  refine ⟨?_, .inl ha⟩
  rw [packetReceived, if_neg fun hn => hf hn.2, if_neg hop, if_neg h.phase.ne_listen]
  exact (h.phase.mono (o.subset_acksWith _)).packetReceivedOpen hop hw o.mem_acksWith he

variable {s s₀ : TcpSocket}

theorem packetReceived_of_not_handles (h : ¬ s.Handles src srcPort) (hl : s.block.state ≠ .listen)
    (buf : List (BitVec 8)) (uptime : ℕ) :
    (s.packetReceived src srcPort buf uptime).1 = s := by
  rw [packetReceived]
  split_ifs with hf hc
  · rfl
  · rfl
  · exact absurd ⟨fun hn => hf ⟨hl, hn⟩, hc⟩ h

theorem Sound.step {a : OpeningAction} (h : o.Sound iss) (hu : o.InTurn a)
    (hs : o.step a = .ok o') : o'.Sound iss := by
  cases a with
  | receive src srcPort buf uptime =>
    rw [Opening.step] at hs
    split_ifs at hs with ha hta
    · cases hs
      exact h.takeSyn (hu ha).1 hta
    · cases hs
      obtain ⟨hha, he⟩ := hu ha
      exact h.receive hha uptime ha hta he
    · cases hs
      rw [packetReceived_of_not_handles ha h.phase.ne_listen]
      exact h
  | resume thread =>
    rw [Opening.step] at hs
    split at hs
    · exact Except.ok.inj hs ▸ h
    next buf seqn ht =>
      cases hs
      rcases h.half with hn | ⟨half, ho, hh⟩
      · rw [hn] at ht
        cases ht
      -- there is one half only, and it is the one that goes on
      rw [ho, getElem?_singleton] at ht
      split_ifs at ht with hz
      cases ht
      refine ⟨?_, .inl ?_⟩
      · exact receiveAfterSyn_phase (h.phase.waiting_of_synSent hh.state)
          hh.synced hh.rst hh.ack seqn
      · rw [ho, hz]
        rfl

theorem sound_connect {uptime : ℕ} {sent : List Packet}
    (h : s.connect addr port uptime = .ok (s₀, sent)) :
    Sound (initialSeq uptime) { socket := s₀ } := by
  rw [connect] at h
  split_ifs at h
  cases h
  exact ⟨.synSent rfl ⟨_, rfl, rfl, rfl, rfl, rfl⟩, .inl rfl⟩

theorem Sound.law (h : o.Sound iss) : o.Law iss := by
  cases h.phase with
  | synSent state waiting | synReceived state waiting =>
    obtain ⟨seg, hq, hf, he, -⟩ := waiting
    refine ⟨?_, ?_, fun _ => ⟨seg, hq ▸ mem_singleton_self seg, by rw [hf]; decide, he⟩⟩
    · rw [state]
      exact fun hn => hn.elim nofun nofun
    · rw [state]
      nofun
  | established state queue synced acked =>
    refine ⟨fun _ => ⟨synced.isSome, acked⟩, fun _ => synced, ?_⟩
    rw [state]
    exact fun hn => hn.elim nofun nofun
  | closeWait state queue hs acked =>
    refine ⟨fun _ => ⟨hs, acked⟩, ?_, ?_⟩
    · rw [state]
      nofun
    · rw [state]
      exact fun hn => hn.elim nofun nofun
  | closed state =>
    refine ⟨?_, ?_, ?_⟩ <;> rw [state]
    · exact fun hn => hn.elim nofun nofun
    · nofun
    · exact fun hn => hn.elim nofun nofun

/-- **The handshake of an active open.** In every run whose segments are handled whole and
acknowledge the SYN only when the peer's SYN has come or comes with it, the connection is open only
after the peer's SYN and the acknowledgement of its own. -/
theorem law_of_reach {s s₀ : TcpSocket} {addr : IPv4Addr} {port : BitVec 16} {uptime : ℕ}
    {sent : List Packet} (hconnect : s.connect addr port uptime = .ok (s₀, sent)) {o : Opening}
    (hrun : Reach Opening.step InTurn { socket := s₀ } o) : o.Law (initialSeq uptime) :=
  (hrun.invariant (P := Sound (initialSeq uptime)) (sound_connect hconnect)
    fun _ _ _ h htu hst => h.step htu hst).law

/-- A segment of the peer of `unconnected` after its `connect`. -/
def peerSegment (seqn ackn : BitVec 32) (flags : ℕ) : OpeningAction :=
  .receive 2 80 (TcpHeader.encode
    { sourcePort := 80, destinationPort := 49152, seqNumber := seqn, ackNumber := ackn,
      bitvalues := 0x5000 ||| flags, window := 1000, checksum := 0, urgentPointer := 0 }) 0

/-- A socket in front of its `connect`. -/
def unconnected : TcpSocket := { deviceAddress := 1, sourcePort := 49152 }

theorem law_of_reach_synAck : ∃ s₀ sent o, unconnected.connect 2 80 0 = .ok (s₀, sent) ∧
    Reach Opening.step InTurn { socket := s₀ } o ∧ o.socket.block.state = .established ∧
    o.socket.block.rcvNxt = 501 ∧ o.Law 2137 := by
  obtain ⟨⟨s₀, sent⟩, hr, o, ho, hst, hrc⟩ : ∃ r ∈ (unconnected.connect 2 80 0).toOption,
      ∃ o ∈ execute Opening.step InTurn { socket := r.1 }
        [peerSegment 500 2138 (tcpSyn ||| tcpAck), .resume 0],
      o.socket.block.state = .established ∧ o.socket.block.rcvNxt = 501 := by
    decide
  have hco := toOption_eq_some.mp hr
  have hrun := Reach.refl.execute ho
  exact ⟨s₀, sent, o, hco, hrun, hst, hrc, law_of_reach hco hrun⟩

theorem not_law_earlyAck : ∃ s₀ sent, unconnected.connect 2 80 0 = .ok (s₀, sent) ∧
    (∃ o, Reach Opening.step (fun _ _ => True) { socket := s₀ } o ∧ o.halves = [] ∧
      o.socket.block.state = .synSent ∧ o.socket.retransmissionQueue = [] ∧ ¬ o.Law 2137) ∧
    ∃ o, Reach Opening.step (fun _ _ => True) { socket := s₀ } o ∧ o.halves = [] ∧
      o.socket.block.state = .synReceived ∧ o.socket.retransmissionQueue = [] ∧ ¬ o.Law 2137 := by
  obtain ⟨⟨s₀, sent⟩, hr, ⟨o, ho, hha, hst, hqu⟩, o', ho', hha', hst', hqu'⟩ :
      ∃ r ∈ (unconnected.connect 2 80 0).toOption,
      (∃ o ∈ execute Opening.step (fun _ _ => True) { socket := r.1 } [peerSegment 500 2138 tcpAck],
        o.halves = [] ∧ o.socket.block.state = .synSent ∧ o.socket.retransmissionQueue = []) ∧
      ∃ o ∈ execute Opening.step (fun _ _ => True) { socket := r.1 }
        [peerSegment 500 0 tcpSyn, peerSegment 501 0 tcpRst, .resume 0],
        o.halves = [] ∧ o.socket.block.state = .synReceived ∧ o.socket.retransmissionQueue = [] := by
    decide
  have hlo {o : Opening} (hst : o.socket.block.state = .synSent ∨
      o.socket.block.state = .synReceived) (hqu : o.socket.retransmissionQueue = []) :
      ¬ o.Law 2137 := by
    intro hla
    obtain ⟨seg, hse, -⟩ := hla.queued hst
    rw [hqu] at hse
    cases hse
  exact ⟨s₀, sent, toOption_eq_some.mp hr,
    ⟨o, Reach.refl.execute ho, hha, hst, hqu, hlo (.inl hst) hqu⟩,
    o', Reach.refl.execute ho', hha', hst', hqu', hlo (.inr hst') hqu'⟩

end Opening

end AexKernel.Net
