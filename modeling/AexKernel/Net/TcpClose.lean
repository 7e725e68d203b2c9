import AexKernel.Net.TcpConnection
import AexKernel.Net.TcpSending

/-! # The orderly close of a connection

Two ends of an open connection that are shut down, in any order, over a network that delays,
reorders, duplicates and loses segments. -/

namespace AexKernel.Net

open Library Mem TcpSocket Bool Or TcpThreads

/-! ## Ends -/

/-- One end of the connection. -/
structure ClosingEnd where
  threads : TcpThreads
  /-- `shutdown` has sent the FIN. -/
  finSent : Bool := false
  finTaken : Bool := false

/-- A step of an end that does not receive. -/
inductive CloseCall
  | sendPass (rest : List (BitVec 8))
  | receivePass (call : ReceiveCall)
  | timer (uptime : ℕ)
  | shutdown (how : ℕ)
  | shutdownPass (uptime : ℕ)
  | close

def CloseCall.action : CloseCall → ThreadAction
  | .sendPass rest => .sendPass rest
  | .receivePass call => .receivePass call
  | .timer uptime => .timer uptime
  | .shutdown how => .shutdown how
  | .shutdownPass uptime => .shutdownPass uptime
  | .close => .close

def CloseCall.sendsFin : CloseCall → ShutdownPosition → Bool
  | .shutdownPass _, .finishing => true
  | _, _ => false

/-- A packet that the socket looks at, with a FIN that is next in order. -/
def TcpSocket.ReceivesFin (s : TcpSocket) (p : Packet) : Prop :=
  s.Open ∧ (p.src = s.destinationAddress ∨ p.header.sourcePort = s.destinationPort) ∧
    ¬ hasFlag p.header.bitvalues tcpRst ∧ s.TakesFin p.header
deriving Decidable

namespace ClosingEnd

def call (e : ClosingEnd) (a : CloseCall) : Except Fault (ClosingEnd × List Packet) := do
  let (t, sent) ← e.threads.send a.action
  return ({ e with threads := t, finSent := e.finSent || a.sendsFin e.threads.shutting }, sent)

def receive (e : ClosingEnd) (p : Packet) (uptime : ℕ) : ClosingEnd × List Packet :=
  let (s, sent, _) := e.threads.socket.packetReceived p.src p.header.sourcePort p.buffer uptime
  ({ e with
      threads := e.threads.withSocket s
      finTaken := e.finTaken || e.threads.socket.ReceivesFin p }, sent)

end ClosingEnd

def Side.peer : Side → Side
  | .client => .server
  | .server => .client

/-- Two ends and the packets that are under way to each of them. -/
structure ClosingPair where
  ends : Side → ClosingEnd
  wire : Side → List Packet

/-- A step of the two ends and the network. -/
inductive CloseAction
  | call (side : Side) (a : CloseCall)
  | deliver (side : Side) (index : ℕ) (uptime : ℕ)
  | duplicate (side : Side) (index : ℕ)
  | drop (side : Side) (index : ℕ)

namespace ClosingPair

def update (c : ClosingPair) (side : Side) (r : ClosingEnd × List Packet) : ClosingPair where
  ends := Function.update c.ends side r.1
  wire := Function.update c.wire side.peer (c.wire side.peer ++ r.2)

def rewire (c : ClosingPair) (side : Side) (packets : List Packet) : ClosingPair :=
  { c with wire := Function.update c.wire side packets }

def step (c : ClosingPair) : CloseAction → Except Fault ClosingPair
  | .call side a => do
    let r ← (c.ends side).call a
    return c.update side r
  | .deliver side index uptime =>
    match (c.wire side)[index]? with
    | none => .ok c
    | some p => .ok ((c.rewire side ((c.wire side).eraseIdx index)).update side
        ((c.ends side).receive p uptime))
  | .duplicate side index =>
    match (c.wire side)[index]? with
    | none => .ok c
    | some p => .ok (c.rewire side (c.wire side ++ [p]))
  | .drop side index => .ok (c.rewire side ((c.wire side).eraseIdx index))

end ClosingPair

/-! ## What keeps the close in order -/

/-- A FIN comes in time: not in FIN_WAIT_2, and not together with the acknowledgement that leads
there. -/
def TcpSocket.FinInTime (s : TcpSocket) (p : Packet) : Prop :=
  s.ReceivesFin p → s.block.state ≠ .finWait2 ∧
    (s.block.state = .finWait1 → hasFlag p.header.bitvalues tcpAck →
      ∀ seg ∈ s.retransmissionQueue, hasFlag seg.flags tcpFin →
        ¬ isBeforeOrEqual seg.ackWith p.header.ackNumber)
deriving Decidable

/-- Every FIN comes in time, and `close()` is not called in CLOSE_WAIT. -/
def ClosingPair.InTime (c : ClosingPair) : CloseAction → Prop
  | .deliver side index _ => ∀ p ∈ (c.wire side)[index]?, (c.ends side).threads.socket.FinInTime p
  | .call side .close => (c.ends side).threads.socket.block.state ≠ .closeWait
  | _ => True

instance (c : ClosingPair) : (a : CloseAction) → Decidable (c.InTime a)
  | .deliver side index _ => inferInstanceAs
      (Decidable (∀ p ∈ (c.wire side)[index]?, (c.ends side).threads.socket.FinInTime p))
  | .call _ .close => inferInstanceAs (Decidable (_ ≠ _))
  | .call _ (.sendPass _) | .call _ (.receivePass _) | .call _ (.timer _) | .call _ (.shutdown _)
  | .call _ (.shutdownPass _) | .duplicate _ _ | .drop _ _ => .isTrue trivial

namespace ClosingEnd

def state (e : ClosingEnd) : TcpState := e.threads.socket.block.state

/-- **What holds of an end that closes in order**: which states go with which part of its own
`shutdown` and with the FIN of the peer, and that the FIN it has sent is queued until it is
acknowledged. -/
structure Orderly (e : ClosingEnd) : Prop where
  taken : e.finTaken →
    e.state = .closeWait ∨ e.state = .closing ∨ e.state = .lastAck ∨ e.state = .closed
  talking : e.finSent = false → e.threads.shutting ≠ .finishing →
    e.state = .established ∨ e.state = .closeWait ∨ e.state = .closed
  finishing : e.threads.shutting = .finishing → e.finSent = false ∧
    (e.state = .finWait1 ∨ e.state = .closing ∨ e.state = .lastAck ∨ e.state = .closed)
  sent : e.finSent → e.threads.shutting ≠ .draining ∧
    (e.state = .finWait1 ∨ e.state = .finWait2 ∨ e.state = .closing ∨ e.state = .lastAck ∨
      e.state = .closed)
  unsent : e.finSent = false → e.state ≠ .closed → ¬ HasFin e.threads.socket.retransmissionQueue
  queued : e.finSent → e.state = .finWait1 ∨ e.state = .closing ∨ e.state = .lastAck →
    HasFin e.threads.socket.retransmissionQueue
  shut : e.finSent ∨ e.threads.shutting ≠ .idle → e.state ≠ .closed →
    e.threads.socket.block.sendShut = true

/-- A connection that has been opened and not been shut. -/
structure Connected (e : ClosingEnd) : Prop where
  state : e.state = .established
  shutting : e.threads.shutting = .idle
  queue : ¬ HasFin e.threads.socket.retransmissionQueue
  finSent : e.finSent = false
  finTaken : e.finTaken = false

variable {e e' : ClosingEnd}

theorem Connected.orderly (h : e.Connected) : e.Orderly where
  taken := fun ht => by rw [h.finTaken] at ht; cases ht
  talking := fun _ _ => inl h.state
  finishing := fun hp => by rw [h.shutting] at hp; cases hp
  sent := fun hs => by rw [h.finSent] at hs; cases hs
  unsent := fun _ _ => h.queue
  queued := fun hs => by rw [h.finSent] at hs; cases hs
  shut := by
    rintro (hs | hp)
    · rw [h.finSent] at hs
      cases hs
    · exact absurd h.shutting hp

theorem orderly_closed (hc : e.state = .closed)
    (hp : e.threads.shutting = .finishing ∨ e.threads.shutting = .draining → e.finSent = false) :
    e.Orderly where
  taken := fun _ => inr (inr (inr hc))
  talking := fun _ _ => inr (inr hc)
  finishing := fun hf => ⟨hp (inl hf), inr (inr (inr hc))⟩
  sent := fun hs => by
    refine ⟨fun hd => ?_, inr (inr (inr (inr hc)))⟩
    rw [hp (inr hd)] at hs
    cases hs
  unsent := fun _ hopen => absurd hc hopen
  queued := by
    rintro _ (h | h | h) <;> rw [hc] at h <;> cases h
  shut := fun _ hopen => absurd hc hopen

theorem Orderly.positions (h : e.Orderly)
    (hp : e.threads.shutting = .finishing ∨ e.threads.shutting = .draining) :
    e.finSent = false := by
  rcases hp with hp | hp
  · exact (h.finishing hp).1
  · exact eq_false_iff.mpr fun hs => (h.sent hs).1 hp

theorem Orderly.congr (h : e.Orderly) (hs : e'.state = e.state)
    (hq : HasFin e'.threads.socket.retransmissionQueue ↔ HasFin
      e.threads.socket.retransmissionQueue)
    (hh : e'.threads.socket.block.sendShut = e.threads.socket.block.sendShut)
    (hp : e'.threads.shutting = e.threads.shutting) (he : e'.finSent = e.finSent)
    (ht : e'.finTaken = e.finTaken) : e'.Orderly := by
  constructor
  · rw [ht, hs]
    exact h.taken
  · rw [he, hp, hs]
    exact h.talking
  · rw [hp, he, hs]
    exact h.finishing
  · rw [he, hp, hs]
    exact h.sent
  · rw [he, hs, hq]
    exact h.unsent
  · rw [he, hs, hq]
    exact h.queued
  · rw [he, hp, hs, hh]
    exact h.shut

theorem Orderly.closed (h : e.Orderly) (he : e.finSent) (ht : e.finTaken)
    (ha : ¬ HasFin e.threads.socket.retransmissionQueue) : e.state = .closed := by
  rcases h.taken ht with hs | hs | hs | hs
  · rcases (h.sent he).2 with h' | h' | h' | h' | h' <;> rw [hs] at h' <;> cases h'
  · exact absurd (h.queued he (inr (inl hs))) ha
  · exact absurd (h.queued he (inr (inr hs))) ha
  · exact hs

/-! ## Receiving -/

theorem Orderly.states (h : e.Orderly) : e.state = .closed ∨ e.threads.socket.Synchronized := by
  cases hs : e.finSent with
  | true =>
    rcases (h.sent hs).2 with h | h | h | h | h
    · exact inr (inr (inl h))
    · exact inr (inr (inr (inl h)))
    · exact inr (inr (inr (inr (inr (inl h)))))
    · exact inr (inr (inr (inr (inr (inr h)))))
    · exact inl h
  | false =>
    by_cases hp : e.threads.shutting = .finishing
    · rcases (h.finishing hp).2 with h | h | h | h
      · exact inr (inr (inl h))
      · exact inr (inr (inr (inr (inr (inl h)))))
      · exact inr (inr (inr (inr (inr (inr h)))))
      · exact inl h
    rcases h.talking hs hp with h | h | h
    · exact inr (inl h)
    · exact inr (inr (inr (inr (inl h))))
    · exact inl h

section Acked

variable (h : e.Orderly) (hopen : e.state ≠ .closed)
include h hopen

/-- **A segment that does not close the connection keeps an end in order**. -/
theorem Orderly.acked {p : Packet} (hti : e.threads.socket.FinInTime p) {a s' : TcpSocket}
    (ha : Acked e.threads.socket p.header a) (hi : SameSending a s')
    (hst : s'.block.state = finState e.threads.socket p.header a.block.state) :
    Orderly { e with
      threads := e.threads.withSocket s'
      finTaken := e.finTaken || e.threads.socket.ReceivesFin p } := by
  have hy : e.threads.socket.Synchronized := h.states.resolve_left hopen
  have hsyn : e.state ≠ .synSent ∧ e.state ≠ .synReceived := by
    rcases hy with hs | hs | hs | hs | hs | hs <;> rw [state, hs] <;> decide
  obtain ⟨hb, hc⟩ := acked_fin ha hsyn.1 hsyn.2
  -- a FIN is acknowledged only where one is queued
  have hsa : ¬ HasFin e.threads.socket.retransmissionQueue → a.block.state = e.state := by
    intro ho
    rcases hc with ⟨hq, -⟩ | ⟨-, -, -, seg, hmem, hf, -⟩
    · exact hq
    · exact absurd ⟨seg, hmem, hf⟩ ho
  have hn : s'.block.state = a.block.state ∨ s'.block.state = finNext a.block.state := by
    rw [hst, finState]
    split_ifs
    · exact inr rfl
    · exact inl rfl
  constructor
  · intro ht
    simp only [state, TcpThreads.withSocket]
    rcases or_eq_true _ _ ▸ ht with ht | hf
    · -- the FIN has been received before: the state does not move
      have hm : a.block.state = e.state := by
        rcases hc with ⟨hq, -⟩ | ⟨h1, -⟩
        · exact hq
        · rcases h.taken ht with hs | hs | hs | hs <;> rw [state, h1] at hs <;> cases hs
      rcases h.taken ht with hs | hs | hs | hs <;> rw [hm, hs] at hn <;>
        rcases hn with hn | hn <;> rw [hn] <;> decide
    have hf := of_decide_eq_true hf
    obtain ⟨hw, hfi⟩ := hti hf
    have hm : a.block.state = e.state := by
      rcases hc with ⟨hq, -⟩ | ⟨h1, -, hk, seg, hmem, hse, hbe⟩
      · exact hq
      · exact absurd hbe (hfi h1 hk seg hmem hse)
    rw [hst, finState, if_pos hf.2.2, hm]
    change e.state ≠ _ at hw
    rcases hy with hs | hs | hs | hs | hs | hs
    · rw [show e.state = _ from hs]; decide
    · rw [show e.state = _ from hs]; decide
    · exact absurd hs hw
    · rw [show e.state = _ from hs]; decide
    · rw [show e.state = _ from hs]; decide
    · rw [show e.state = _ from hs]; decide
  · intro he hp
    simp only [state, TcpThreads.withSocket]
    have hm := hsa (h.unsent he hopen)
    rcases h.talking he hp with hs | hs | hs
    · rw [hm, hs] at hn
      rcases hn with hn | hn <;> rw [hn] <;> decide
    · rw [hm, hs] at hn
      rcases hn with hn | hn <;> rw [hn] <;> decide
    · exact absurd hs hopen
  · intro hp
    obtain ⟨he, hs⟩ := h.finishing hp
    refine ⟨he, ?_⟩
    simp only [state, TcpThreads.withSocket]
    have hm := hsa (h.unsent he hopen)
    rcases hs with hs | hs | hs | hs <;> rw [hm, hs] at hn <;>
      rcases hn with hn | hn <;> rw [hn] <;> decide
  · intro he
    obtain ⟨hp, hs⟩ := h.sent he
    refine ⟨hp, ?_⟩
    simp only [state, TcpThreads.withSocket]
    rcases hc with ⟨hm, -⟩ | ⟨-, hm, -⟩
    · change a.block.state = e.state at hm
      rcases hs with hs | hs | hs | hs | hs <;> rw [hm, hs] at hn <;>
        rcases hn with hn | hn <;> rw [hn] <;> decide
    · rw [hm] at hn
      rcases hn with hn | hn <;> rw [hn] <;> decide
  · intro he _ hf
    change HasFin s'.retransmissionQueue at hf
    rw [hi.queue] at hf
    exact h.unsent he hopen (hb hf)
  · intro he hs'
    simp only [state, TcpThreads.withSocket] at hs'
    change HasFin s'.retransmissionQueue
    rw [hi.queue]
    rcases hc with ⟨hm, hke⟩ | ⟨-, hm, -⟩
    · have hs : e.state = .finWait1 ∨ e.state = .closing ∨ e.state = .lastAck := by
        change a.block.state = e.state at hm
        rcases (h.sent he).2 with hs | hs | hs | hs | hs
        · exact inl hs
        · rw [hm, hs] at hn
          rcases hn with hn | hn <;> rw [hn] at hs' <;> exact absurd hs' (by decide)
        · exact inr (inl hs)
        · exact inr (inr hs)
        · exact absurd hs hopen
      exact hke hs (h.queued he hs)
    · rw [hm] at hn
      rcases hn with hn | hn <;> rw [hn] at hs' <;> exact absurd hs' (by decide)
  · intro hr _
    change s'.block.sendShut = true
    rw [hi.sendShut, ha.sendShut]
    exact h.shut hr hopen

end Acked

theorem Orderly.receive (h : e.Orderly) {p : Packet} (ht : e.threads.socket.FinInTime p)
    (uptime : ℕ) : (e.receive p uptime).1.Orderly := by
  have hsa (hn : ¬ e.threads.socket.ReceivesFin p) : Orderly { e with
      threads := e.threads.withSocket e.threads.socket
      finTaken := e.finTaken || e.threads.socket.ReceivesFin p } :=
    h.congr rfl Iff.rfl rfl rfl rfl (by rw [decide_eq_false hn, Bool.or_false])
  rw [ClosingEnd.receive, packetReceived]
  split_ifs with ho hc hl
  · refine hsa fun hf => ?_
    rcases hf.2.1 with ha | hpo
    · exact ho.2.1 ha
    · exact ho.2.2 hpo
  · exact hsa fun hf => hf.1.1 hc
  · rcases h.states with hs | hs
    · exact absurd hs hc
    · exact absurd hl hs.isOpen.2
  · rcases e.threads.socket.packetReceivedOpen_cases p.buffer with hd | ⟨a, hk, hi, hst⟩
    · exact orderly_closed hd fun hp => h.positions hp
    · exact h.acked hc ht hk hi hst

/-! ## Calls -/

variable {sent : List Packet} {t t' : TcpThreads} {uptime : ℕ}

theorem shutting_stepTimer (h : t.stepTimer uptime = .ok (t', sent)) :
    t'.shutting = t.shutting := by
  rw [stepTimer] at h
  split at h
  · split_ifs at h <;> obtain ⟨rfl, rfl⟩ := Prod.mk.inj (Except.ok.inj h) <;> rfl
  · split_ifs at h <;> obtain ⟨rfl, rfl⟩ := Prod.mk.inj (Except.ok.inj h) <;> rfl
  · obtain ⟨r, -, h⟩ := bind_eq_ok.mp h
    cases h
    rfl
  · obtain ⟨r, -, h⟩ := bind_eq_ok.mp h
    cases h
    rfl

section Calls

variable (h : e.Orderly)
include h

theorem Orderly.timer (hs : e.threads.stepTimer uptime = .ok (t', sent)) :
    Orderly { e with threads := t' } := by
  have hp := shutting_stepTimer hs
  have hc := sendStep_of_send (a := .timer uptime) hs
  obtain ⟨s', hs'⟩ : ∃ s', s' = t'.socket := ⟨_, rfl⟩
  rw [← hs'] at hc
  cases hc with
  | shut hl =>
    refine orderly_closed (by rw [state, ← hs', hl]) fun hh => h.positions ?_
    rwa [← hp]
  | keeps hi ht =>
    rw [hs'] at hi ht
    exact h.congr ht (by rw [hi.queue]) hi.sendShut hp rfl rfl
  | packages start _ _ =>
    refine h.congr (by rw [state, ← hs']; rfl) ?_ (by rw [← hs']; rfl) hp rfl rfl
    rw [← hs']
    change HasFin (e.threads.socket.retransmissionQueue ++ [_]) ↔ _
    rw [hasFin_append, or_iff_left]
    change ¬ hasFlag (tcpPsh ||| tcpAck) tcpFin
    decide
  | requeues hr =>
    refine h.congr (by rw [state, ← hs']; rfl) ?_ (by rw [← hs']) hp rfl rfl
    change HasFin t'.socket.retransmissionQueue ↔ _
    rw [← hs']
    exact hasFin_of_resent hr

theorem Orderly.shutdown (ho : ℕ) : Orderly { e with threads := e.threads.stepShutdown ho } := by
  rw [stepShutdown]
  split
  · exact h
  next s goesOn hh =>
  obtain ⟨receiveShut, rfl, hopen, hf⟩ := shutdown_eq_ok hh
  cases goesOn with
  | false => exact h.congr rfl Iff.rfl (or_false _) rfl rfl rfl
  | true =>
    -- only the first call goes on
    have hi : ¬ (e.finSent = true ∨ e.threads.shutting ≠ .idle) := fun hr => by
      rw [h.shut hr hopen] at hf
      exact absurd (hf rfl) (by decide)
    have hs : e.finSent = false := eq_false_iff.mpr fun hs => hi (inl hs)
    have hp : e.threads.shutting = .idle := not_not.mp fun hp => hi (inr hp)
    constructor
    · exact h.taken
    · exact fun _ _ => h.talking hs (by rw [hp]; decide)
    · exact fun hn => by cases hn
    · intro hy
      rw [show _ = e.finSent from rfl, hs] at hy
      cases hy
    · exact h.unsent
    · exact h.queued
    · exact fun _ _ => or_true _

theorem Orderly.shutdownPass (uptime : ℕ) : Orderly { e with
    threads := (e.threads.stepShutdownPass uptime).1
    finSent := e.finSent || (CloseCall.shutdownPass uptime).sendsFin e.threads.shutting } := by
  rw [stepShutdownPass]
  split
  · next hp =>
    rw [hp]
    exact h.congr rfl Iff.rfl rfl rfl (Bool.or_false _) rfl
  · next hp =>
    rw [hp]
    have hse := h.positions (inr hp)
    by_cases hd : e.threads.socket.Drained
    · -- from ESTABLISHED to FIN_WAIT_1, from CLOSE_WAIT to LAST_ACK
      rw [if_pos hd, shutdownState_eq, hse]
      have ht := h.talking hse (by rw [hp]; decide)
      have hopen (he : shutdownNext e.state ≠ .closed) : e.state ≠ .closed := fun hc => by
        rw [hc] at he
        exact he rfl
      constructor
      · intro ha
        change shutdownNext e.state = _ ∨ shutdownNext e.state = _ ∨ shutdownNext e.state = _ ∨
          shutdownNext e.state = _
        rcases h.taken ha with hs | hs | hs | hs <;> rw [hs] <;> decide
      · exact fun _ hn => absurd rfl hn
      · refine fun _ => ⟨rfl, ?_⟩
        change shutdownNext e.state = _ ∨ shutdownNext e.state = _ ∨ shutdownNext e.state = _ ∨
          shutdownNext e.state = _
        rcases ht with hs | hs | hs <;> rw [hs] <;> decide
      · exact fun hn => by cases hn
      · exact fun _ he => h.unsent hse (hopen he)
      · exact fun hn => by cases hn
      · exact fun _ he => h.shut (inr (by rw [hp]; decide)) (hopen he)
    · rw [if_neg hd]
      exact h.congr rfl Iff.rfl rfl rfl (Bool.or_false _) rfl
  · next hp =>
    rw [hp]
    obtain ⟨hse, hst⟩ := h.finishing hp
    have hl : hasFlag (tcpFin ||| tcpAck) tcpFin := by decide
    have hf : HasFin (e.threads.socket.retransmissionQueue ++
        [e.threads.socket.finSegment uptime]) := hasFin_append.mpr (inr hl)
    constructor
    · exact h.taken
    · intro hn
      rw [show CloseCall.sendsFin _ _ = true from rfl, Bool.or_true] at hn
      cases hn
    · exact fun hn => by cases hn
    · refine fun _ => ⟨(fun hn => by cases hn), ?_⟩
      rcases hst with hs | hs | hs | hs
      · exact inl hs
      · exact inr (inr (inl hs))
      · exact inr (inr (inr (inl hs)))
      · exact inr (inr (inr (inr hs)))
    · intro hn
      rw [show CloseCall.sendsFin _ _ = true from rfl, Bool.or_true] at hn
      cases hn
    · exact fun _ _ => hf
    · exact fun _ hopen => h.shut (inr (by rw [hp]; decide)) hopen
  · next hp =>
    rw [hp]
    split_ifs with hc
    · exact orderly_closed hc fun hn => by rcases hn with hn | hn <;> cases hn
    · exact h.congr rfl Iff.rfl rfl rfl (Bool.or_false _) rfl

theorem Orderly.call {a : CloseCall} (ht : e.call a = .ok (e', sent)) : e'.Orderly := by
  obtain ⟨⟨t', sent'⟩, hs, ht⟩ := bind_eq_ok.mp ht
  cases ht
  cases a with
  | sendPass rest =>
    cases hs
    obtain ⟨tx, he⟩ := e.threads.socket.sendToPass_eq rest
    rw [he]
    exact h.congr rfl Iff.rfl rfl rfl (Bool.or_false _) rfl
  | receivePass call =>
    cases hs
    obtain ⟨hi, hst, -⟩ := e.threads.socket.receiveFromPass_spec call
    refine h.congr hst ?_ hi.sendShut rfl (Bool.or_false _) rfl
    change HasFin (e.threads.socket.receiveFromPass call).1.retransmissionQueue ↔ _
    rw [hi.queue]
  | timer uptime =>
    exact (h.timer hs).congr rfl Iff.rfl rfl rfl (Bool.or_false _) rfl
  | shutdown ho =>
    cases hs
    exact (h.shutdown ho).congr rfl Iff.rfl rfl rfl (Bool.or_false _) rfl
  | shutdownPass uptime =>
    have he : (e.threads.stepShutdownPass uptime).1 = t' := congrArg Prod.fst (Except.ok.inj hs)
    rw [← he]
    exact h.shutdownPass uptime
  | close =>
    obtain ⟨⟨s, more⟩, hc, hs⟩ := bind_eq_ok.mp hs
    cases hs
    rw [TcpSocket.close] at hc
    split_ifs at hc
    · cases hc
      exact h.congr rfl Iff.rfl rfl rfl (Bool.or_false _) rfl
    cases hc
    refine orderly_closed rfl fun hp => ?_
    exact (Bool.or_false _).trans (h.positions hp)

end Calls

end ClosingEnd

/-! ## The pair -/

namespace ClosingPair

/-- Both ends have closed: each has sent its FIN, received that of the peer and had its own
acknowledged, and nothing is under way. -/
def Finished (c : ClosingPair) : Prop :=
  ∀ side, (c.ends side).finSent ∧ (c.ends side).finTaken ∧
    ¬ HasFin (c.ends side).threads.socket.retransmissionQueue ∧ c.wire side = []

instance {P : Side → Prop} [DecidablePred P] : Decidable (∀ side, P side) :=
  decidable_of_iff (P .client ∧ P .server) ⟨fun h side => side.casesOn h.1 h.2, fun h => ⟨h _, h _⟩⟩

instance (c : ClosingPair) : Decidable c.Finished := inferInstanceAs (Decidable (∀ _, _))

/-- The law of the close: two ends that have closed are CLOSED, and no `close()` that is allowed hangs
in its own lock. -/
structure CloseLaw (allowed : ClosingPair → CloseAction → Prop) (c : ClosingPair) : Prop where
  closed : c.Finished → ∀ side, (c.ends side).state = .closed ∨ (c.ends side).state = .timeWait
  returns : ∀ side, allowed c (.call side .close) → c.step (.call side .close) ≠ .error .divergence

variable {c c' : ClosingPair} {side : Side}

section

variable (h : ∀ side, (c.ends side).Orderly)
include h

theorem orderly_update {r : ClosingEnd × List Packet} (hr : r.1.Orderly) (other : Side) :
    ((c.update side r).ends other).Orderly := by
  change (Function.update c.ends side r.1 other).Orderly
  by_cases he : other = side
  · rw [he, Function.update_self]
    exact hr
  · rw [Function.update_of_ne he]
    exact h other

theorem orderly_step {a : CloseAction} (ht : c.InTime a) (hs : c.step a = .ok c') :
    ∀ side, (c'.ends side).Orderly := by
  cases a with
  | call side a =>
    obtain ⟨r, hr, hs⟩ := bind_eq_ok.mp hs
    cases hs
    exact orderly_update h ((h side).call hr)
  | deliver side index uptime =>
    rw [step] at hs
    split at hs
    · exact Except.ok.inj hs ▸ h
    next p hp =>
    cases hs
    exact orderly_update h ((h side).receive (ht p hp) uptime)
  | duplicate side index =>
    rw [step] at hs
    split at hs <;> exact Except.ok.inj hs ▸ h
  | drop side index => exact Except.ok.inj hs ▸ h

end

theorem close_ne_divergence (h : (c.ends side).state ≠ .closeWait) :
    c.step (.call side .close) ≠ .error .divergence := by
  intro hs
  rcases bind_eq_error.mp hs with ha | ⟨_, _, hn⟩
  · rcases bind_eq_error.mp ha with he | ⟨_, _, hn⟩
    · rcases bind_eq_error.mp he with hc | ⟨_, _, hn⟩
      · rw [TcpSocket.close] at hc
        split_ifs at hc with hw
        exact h hw
      · cases hn
    · cases hn
  · cases hn

/-- **The orderly close comes to its end**, whichever side begins, when every FIN comes in time. -/
theorem close_law {c₀ c : ClosingPair} (start : ∀ side, (c₀.ends side).Connected)
    (run : Reach step InTime c₀ c) : CloseLaw InTime c := by
  have hor : ∀ side, (c.ends side).Orderly :=
    run.invariant (P := fun c => ∀ side, (c.ends side).Orderly) (fun side => (start side).orderly)
      fun _ _ _ h hti hst => orderly_step h hti hst
  refine ⟨fun hfin side => inl ?_, fun side hti => close_ne_divergence hti⟩
  obtain ⟨hse, hta, hack, -⟩ := hfin side
  exact (hor side).closed hse hta hack

def connected : ClosingPair where
  ends
    | .client => { threads := { socket :=
        { deviceAddress := 1, sourcePort := 49152, destinationAddress := 2, destinationPort := 80,
          block := { state := .established, sndUna := 100, sndNxt := 100, sndWnd := 1000,
                     sndMss := 256, rcvNxt := 500 } } } }
    | .server => { threads := { socket :=
        { deviceAddress := 2, sourcePort := 80, destinationAddress := 1, destinationPort := 49152,
          block := { state := .established, sndUna := 500, sndNxt := 500, sndWnd := 1000,
                     sndMss := 256, rcvNxt := 100 } } } }
  wire := fun _ => []

theorem connected_connected (side : Side) : (connected.ends side).Connected := by
  cases side <;> exact ⟨rfl, rfl, by decide, rfl, rfl⟩

/-- A `shutdown` up to its FIN. -/
def shutdownCalls (side : Side) : List CloseAction :=
  [.call side (.shutdown shutWr), .call side (.shutdownPass 0), .call side (.shutdownPass 0)]

def tickCalls (side : Side) : List CloseAction :=
  [.call side (.timer 0), .call side (.timer 0), .call side (.timer 0)]

theorem close_law_simultaneous : ∃ c, Reach step InTime connected c ∧ c.Finished ∧
    (∀ side, (c.ends side).state = .closed) ∧ CloseLaw InTime c := by
  exact exists_reach_both (shutdownCalls .client ++ shutdownCalls .server ++
    [.deliver .server 0 0, .deliver .client 0 0] ++ tickCalls .client ++ tickCalls .server ++
    [.deliver .server 0 0, .deliver .client 0 0]) (by decide)
    fun c run => close_law connected_connected run

theorem not_closeLaw_sequential : ¬ ∀ c₀ c, (∀ side, (c₀.ends side).Connected) →
    Reach step (fun _ _ => True) c₀ c → CloseLaw (fun _ _ => True) c := by
  intro h
  obtain ⟨c, hc, hfin, hst⟩ : ∃ c ∈ execute step (fun _ _ => True) connected
      (shutdownCalls .client ++ [.deliver .server 0 0] ++ tickCalls .server ++
        [.deliver .client 0 0] ++ shutdownCalls .server ++ [.deliver .client 0 0] ++
        tickCalls .client ++ [.deliver .server 0 0]),
      c.Finished ∧ (c.ends .client).state = .finWait2 := by
    decide
  have hla := h connected c connected_connected (Reach.refl.execute hc)
  rcases hla.closed hfin .client with hclo | hclo <;> rw [hst] at hclo <;>
    cases hclo

end ClosingPair

end AexKernel.Net
