import AexKernel.Net.TcpEndpoint

/-! # Packaging

`package` empties the transmit buffer whatever the peer's window is. -/

namespace AexKernel.Net

open Library Mem List CircularBuffer Or TcpSocket Endpoint
open TcpHeader (parse)

namespace TcpSocket

/-! ## A pass of the loop -/

theorem segmentSize_le (s : TcpSocket) : s.segmentSize ≤ s.txBuffer.readAvailable :=
  (min_le_left _ _).trans (min_le_left _ _)

theorem segmentSize_le_sndWnd (s : TcpSocket) : s.segmentSize ≤ s.block.sndWnd :=
  (min_le_left _ _).trans (min_le_right _ _)

variable {s t u : TcpSocket}

theorem segmentSize_pos (ha : s.txBuffer.readAvailable ≠ 0) (hwnd : s.block.sndWnd ≠ 0)
    (hmss : s.block.sndMss ≠ 0) : 0 < s.segmentSize := by
  rw [segmentSize]
  omega

theorem contents_afterSegment (s : TcpSocket) (now : ℕ) :
    (s.afterSegment now).txBuffer.contents = s.txBuffer.contents.drop s.segmentSize :=
  s.txBuffer.contents_read s.segmentSize_le

theorem readAvailable_afterSegment (s : TcpSocket) (now : ℕ) :
    (s.afterSegment now).txBuffer.readAvailable =
      s.txBuffer.readAvailable - s.segmentSize := by
  rw [← length_contents, contents_afterSegment, length_drop, length_contents]

theorem data_nextSegment (s : TcpSocket) (now : ℕ) :
    (s.nextSegment now).data = s.txBuffer.contents.take s.segmentSize :=
  s.txBuffer.read_eq_take s.segmentSize_le

theorem sndWnd_afterSegment (hwnd : s.block.sndWnd < 65536) (now : ℕ) :
    (s.afterSegment now).block.sndWnd = s.block.sndWnd - s.segmentSize := by
  have hl := s.segmentSize_le_sndWnd
  change (s.block.sndWnd + 65536 - s.segmentSize) % 65536 = _
  omega

/-! ## The loop -/

variable {sent : List Packet} {P R : TcpSocket → Prop} {Q : Packet → Prop}

variable {now fuel : ℕ}

theorem packageLoop_invariant
    (pass : ∀ u, P u → u.txBuffer.readAvailable ≠ 0 → u.block.sndWnd ≠ 0 →
      P (u.afterSegment now) ∧ Q ((u.afterSegment now).sendSegment (u.nextSegment now)))
    (start : P s) (h : packageLoop now fuel s = .ok (t, sent)) : P t ∧ ∀ p ∈ sent, Q p := by
  induction fuel generalizing s sent with
  | zero =>
    rw [packageLoop] at h
    cases h
    exact ⟨start, fun p hp => absurd hp not_mem_nil⟩
  | succ fuel ih =>
    rw [packageLoop] at h
    split_ifs at h with ha hwnd
    · cases h
      exact ⟨start, fun p hp => absurd hp not_mem_nil⟩
    obtain ⟨⟨last, more⟩, hr, h⟩ := bind_eq_ok.mp h
    cases h
    obtain ⟨hne, hf⟩ := pass s start ha hwnd
    obtain ⟨hn, hm⟩ := ih hne hr
    refine ⟨hn, fun p hp => ?_⟩
    rcases mem_cons.mp hp with rfl | hp
    · exact hf
    · exact hm p hp

section Window

variable (now : ℕ) (hfuel : s.txBuffer.readAvailable ≤ fuel) (hmss : s.block.sndMss ≠ 0)
  (hwnd : s.block.sndWnd < 65536)
include hfuel hmss hwnd

theorem packageLoop_ok (hf : s.txBuffer.readAvailable ≤ s.block.sndWnd) :
    ∃ t sent, packageLoop now fuel s = .ok (t, sent) ∧ t.txBuffer.contents = [] ∧
      t.block.sndWnd = s.block.sndWnd - s.txBuffer.readAvailable ∧
      t.block.sndNxt = s.block.sndNxt + BitVec.ofNat 32 s.txBuffer.readAvailable := by
  induction fuel generalizing s with
  | zero =>
    have hz : s.txBuffer.readAvailable = 0 := Nat.le_zero.mp hfuel
    refine ⟨s, [], rfl, ?_, by omega, by rw [hz]; simp⟩
    rw [← length_eq_zero_iff, length_contents, hz]
  | succ fuel ih =>
    rw [packageLoop]
    by_cases ha : s.txBuffer.readAvailable = 0
    · refine ⟨s, [], if_pos ha, ?_, by omega, by rw [ha]; simp⟩
      rw [← length_eq_zero_iff, length_contents, ha]
    have hp := segmentSize_pos ha (by omega) hmss
    have hle := s.segmentSize_le
    have hl := s.readAvailable_afterSegment now
    have hw' := sndWnd_afterSegment hwnd now
    obtain ⟨t, sent, hr, hm, hn, hx⟩ := ih (s := s.afterSegment now) (by omega) hmss
      (by omega) (by omega)
    refine ⟨t, (s.afterSegment now).sendSegment (s.nextSegment now) :: sent, ?_, hm,
      by omega, ?_⟩
    · rw [if_neg ha, if_neg (by omega), hr]
      rfl
    rw [hx, hl]
    change s.block.sndNxt + BitVec.ofNat 32 s.segmentSize +
      BitVec.ofNat 32 (s.txBuffer.readAvailable - s.segmentSize) = _
    rw [BitVec.add_assoc, ← BitVec.ofNat_add, Nat.add_sub_cancel' hle]

end Window

/-! ## The timer -/

def Resent (seg seg' : Segment) : Prop :=
  ∃ retries retransmitAt, seg' = { seg with retries := retries, retransmitAt := retransmitAt }

theorem Resent.refl (seg : Segment) : Resent seg seg := ⟨_, _, rfl⟩

theorem exists_resent {q queue' : List Segment} (h : List.Forall₂ Resent q queue')
    {seg' : Segment} (hm : seg' ∈ queue') : ∃ seg ∈ q, Resent seg seg' := by
  induction h with
  | nil => cases hm
  | cons hf _ ih =>
    rcases mem_cons.mp hm with rfl | hm
    · exact ⟨_, mem_cons_self, hf⟩
    obtain ⟨seg, hs, hr⟩ := ih hm
    exact ⟨seg, .tail _ hs, hr⟩

theorem retransmitLoop_cases (s : TcpSocket) (now : ℕ) (passed q : List Segment) :
    ((s.retransmitLoop now passed q).1 = s.reset.1 ∨
      ∃ queue', List.Forall₂ Resent q queue' ∧
        (s.retransmitLoop now passed q).1 =
          { s with retransmissionQueue := passed ++ queue' }) ∧
    ∀ p ∈ (s.retransmitLoop now passed q).2,
      p = s.reset.1.rst ∨ ∃ seg ∈ q, ∃ seg', Resent seg seg' ∧ p = s.sendSegment seg' := by
  induction q generalizing passed with
  | nil =>
    refine ⟨inr ⟨[], .nil, ?_⟩, forall_mem_nil _⟩
    rw [append_nil]
    rfl
  | cons seg rest ih =>
    -- the segment is passed as `seg'`, and the loop goes on behind it
    have hn (seg' : Segment) (hs : Resent seg seg') :
        ((s.retransmitLoop now (passed ++ [seg']) rest).1 = s.reset.1 ∨
          ∃ queue', List.Forall₂ Resent (seg :: rest) queue' ∧
            (s.retransmitLoop now (passed ++ [seg']) rest).1 =
              { s with retransmissionQueue := passed ++ queue' }) := by
      refine (ih (passed ++ [seg'])).1.imp id fun ⟨queue', ha, hq⟩ => ?_
      exact ⟨seg' :: queue', .cons hs ha, by rw [hq, append_assoc]; rfl⟩
    have hl {passed' : List Segment} {p : Packet}
        (hp : p ∈ (s.retransmitLoop now passed' rest).2) :
        p = s.reset.1.rst ∨ ∃ seg₀ ∈ seg :: rest, ∃ seg', Resent seg₀ seg' ∧
          p = s.sendSegment seg' :=
      ((ih passed').2 p hp).imp id fun ⟨x, hx, h⟩ => ⟨x, .tail _ hx, h⟩
    rw [retransmitLoop]
    split_ifs
    · exact ⟨hn seg (.refl seg), fun p hp => hl hp⟩
    · exact ⟨inl rfl, fun p hp => inl (mem_resetRst hp)⟩
    refine ⟨hn _ ⟨_, _, rfl⟩, fun p hp => ?_⟩
    rcases mem_cons.mp hp with rfl | hp
    · exact inr ⟨seg, mem_cons_self, _, ⟨_, _, rfl⟩, rfl⟩
    · exact hl hp

/-- **The rule for `tick`**. -/
theorem tick_invariant
    (pass : ∀ u, P u → u.txBuffer.readAvailable ≠ 0 → u.block.sndWnd ≠ 0 →
      P (u.afterSegment now) ∧ Q ((u.afterSegment now).sendSegment (u.nextSegment now)))
    (ack : ∀ u, P u → u.block.sendingCompAck → P { u with block := { u.block with sendingCompAck :=
      false } } ∧ Q (u.ackManual u.block.rcvNxt))
    (resend : ∀ u, P u → ∀ seg ∈ u.retransmissionQueue, ∀ seg', Resent seg seg' →
      Q (u.sendSegment seg'))
    (requeue : ∀ u, P u → ∀ queue, List.Forall₂ Resent u.retransmissionQueue queue →
      R { u with retransmissionQueue := queue })
    (giveUp : ∀ u, P u → R u.reset.1 ∧ Q u.reset.1.rst) (closed : s.block.state = .closed → R s)
    (start : s.block.state ≠ .closed → P s) (h : s.tick now = .ok (t, sent)) :
    R t ∧ ∀ p ∈ sent, Q p := by
  rw [tick] at h
  split at h
  · next hcl =>
    cases h
    exact ⟨closed hcl, forall_mem_nil _⟩
  next hop =>
  obtain ⟨⟨u, first⟩, ha, h⟩ := bind_eq_ok.mp h
  cases h
  have hu : P u ∧ ∀ p ∈ first, Q p := by
    rw [package] at ha
    obtain ⟨⟨v, data⟩, ho, ha⟩ := bind_eq_ok.mp ha
    obtain ⟨hv, hd⟩ := packageLoop_invariant pass (start hop) ho
    dsimp only at ha
    split_ifs at ha with hc
    · cases ha
      refine ⟨(ack v hv hc).1, fun p hp => ?_⟩
      rcases mem_append.mp hp with hp | hp
      · exact hd p hp
      · exact mem_singleton.mp hp ▸ (ack v hv hc).2
    · cases ha
      exact ⟨hv, hd⟩
  obtain ⟨hn, hs⟩ := u.retransmitLoop_cases now [] u.retransmissionQueue
  refine ⟨?_, fun p hp => ?_⟩
  · rcases hn with hq | ⟨queue, hl, hq⟩
    · exact hq ▸ (giveUp u hu.1).1
    · exact hq ▸ requeue u hu.1 queue hl
  rcases mem_append.mp hp with hp | hp
  · exact hu.2 p hp
  rcases hs p hp with rfl | ⟨seg, hse, seg', hr, rfl⟩
  · exact (giveUp u hu.1).2
  · exact resend u hu.1 seg hse seg' hr

/-! ## What receiving leaves to the sender -/

theorem window_parse_lt (buf : List (BitVec 8)) : (parse buf).window < 65536 :=
  readBE_lt buf 14 2

/-- What every phase of `packetReceived` keeps of the sending half of a socket. -/
structure KeepsSending (s t : TcpSocket) : Prop where
  txBuffer : t.txBuffer = s.txBuffer
  sndMss : t.block.sndMss = s.block.sndMss ∨ tcpMinMss ≤ t.block.sndMss
  sndWnd : s.block.sndWnd < 65536 → t.block.sndWnd < 65536
  listenQueue : t.listenQueue = s.listenQueue ∨ t.listenQueue = none

theorem KeepsSending.refl (s : TcpSocket) : KeepsSending s s :=
  ⟨rfl, inl rfl, id, inl rfl⟩

theorem KeepsSending.trans (h : KeepsSending s t) (h' : KeepsSending t u) :
    KeepsSending s u where
  txBuffer := h'.txBuffer.trans h.txBuffer
  sndMss := by
    rcases h'.sndMss with hq | hl
    · exact h.sndMss.imp hq.trans hq.symm.le.trans'
    · exact inr hl
  sndWnd := h'.sndWnd ∘ h.sndWnd
  listenQueue := by
    rcases h'.listenQueue with hq | hn
    · exact h.listenQueue.imp hq.trans hq.trans
    · exact inr hn

theorem keepsSending_reset (s : TcpSocket) : KeepsSending s s.reset.1 :=
  ⟨rfl, inl rfl, id, inr rfl⟩

theorem keepsSending_receiveAck {h : TcpHeader} (hw : h.window < 65536) :
    (∀ t sent, s.receiveAck h = .done t sent → KeepsSending s t) ∧
      ∀ t sent, s.receiveAck h = .goOn t sent → KeepsSending s t := by
  have hu : KeepsSending s (s.updateWindow h) := by
    rw [updateWindow]
    split
    · exact ⟨rfl, inl rfl, fun _ => hw, inl rfl⟩
    · exact .refl s
  rw [receiveAck]
  dsimp only
  constructor <;> intro t sent he <;> split_ifs at he <;> injection he with ht <;> rw [← ht]
  · exact hu.trans ⟨rfl, inl rfl, id, inr rfl⟩
  · exact hu.trans ⟨rfl, inl rfl, id, inr rfl⟩
  · exact hu.trans ⟨rfl, inl rfl, id, inl rfl⟩
  · exact .refl s

theorem keepsSending_receiveRest (s : TcpSocket) (h : TcpHeader) (seqn : BitVec 32)
    (data : List (BitVec 8)) : KeepsSending s (s.receiveRest h seqn data).1 := by
  have hf (u : TcpSocket) : KeepsSending u (u.receiveFin h seqn) := by
    rw [receiveFin]
    split
    · dsimp only
      split <;> exact ⟨rfl, inl rfl, id, inl rfl⟩
    · exact .refl u
  rw [receiveRest, receiveData]
  split_ifs
  · exact hf s
  · exact s.keepsSending_reset
  · have ht : KeepsSending s (s.takeData data) := ⟨rfl, inl rfl, id, inl rfl⟩
    exact ht.trans (hf (s.takeData data))
  · exact hf s
  · exact hf s

theorem keepsSending_packetReceivedOpen (s : TcpSocket) (buf : List (BitVec 8)) :
    KeepsSending s (s.packetReceivedOpen buf).1 := by
  have hw := window_parse_lt buf
  have hop : KeepsSending s (s.receiveOptions buf (parse buf).hdrLen) := by
    obtain ⟨mss, hq, hmss⟩ := readOptions_eq s.block buf (parse buf).hdrLen
    rw [receiveOptions, hq]
    exact ⟨rfl, hmss, id, inl rfl⟩
  rw [packetReceivedOpen]
  generalize parse buf = h at hw hop ⊢
  refine hop.trans ?_
  generalize s.receiveOptions buf h.hdrLen = u
  split
  · rw [receiveRst]
    split_ifs
    · exact u.keepsSending_reset
    · exact u.keepsSending_reset
    · exact .refl u
  have hs : KeepsSending u (u.receiveSyn h).1 := by
    rw [receiveSyn]
    split
    · exact ⟨rfl, inl rfl, id, inl rfl⟩
    · exact .refl u
  rw [receiveSegment]
  dsimp only
  split
  · next ha => exact hs.trans ((keepsSending_receiveAck hw).1 _ _ ha)
  next ha =>
  exact (hs.trans ((keepsSending_receiveAck hw).2 _ _ ha)).trans (keepsSending_receiveRest ..)

/-- The socket has a maximum segment size, or nothing to send. -/
def Armed (s : TcpSocket) : Prop :=
  tcpMinMss ≤ s.block.sndMss ∨
    (s.block.state = .closed ∨ s.block.state = .listen) ∧ s.txBuffer.readAvailable = 0

end TcpSocket

namespace Endpoint

/-- What every endpoint of a run has. -/
structure SendReady (e : Endpoint) : Prop where
  sndWnd : e.socket.block.sndWnd < 65536
  armed : e.socket.Armed
  sending : e.sending ≠ [] → tcpMinMss ≤ e.socket.block.sndMss
  entries : ∀ entry ∈ e.socket.entries,
    entry.block.sndWnd < 65536 ∧ tcpMinMss ≤ entry.block.sndMss

variable {e' : Endpoint} {e : Endpoint}

theorem SendReady.keep {t : TcpSocket} (he : e.SendReady) (h : KeepsSending e.socket t)
    (ht : t.block.state = e.socket.block.state ∨ t.block.state = .closed ∨
      tcpMinMss ≤ e.socket.block.sndMss)
    (hs : e'.socket = t) (hse : e'.sending = e.sending) : e'.SendReady := by
  have hmss : tcpMinMss ≤ e.socket.block.sndMss → tcpMinMss ≤ t.block.sndMss := fun hl =>
    h.sndMss.elim (fun hq => hq ▸ hl) id
  constructor
  · rw [hs]
    exact h.sndWnd he.sndWnd
  · rw [hs]
    rcases he.armed with hl | ⟨hi, hm⟩
    · exact inl (hmss hl)
    rcases ht with ha | hc | hl
    · exact inr ⟨ha ▸ hi, h.txBuffer ▸ hm⟩
    · exact inr ⟨inl hc, h.txBuffer ▸ hm⟩
    · exact inl (hmss hl)
  · rw [hs, hse]
    exact fun hne => hmss (he.sending hne)
  rw [hs, TcpSocket.entries]
  rcases h.listenQueue with ha | hn
  · rw [ha]
    exact he.entries
  · rw [hn]
    exact forall_mem_nil _

section Steps

variable (he : e.SendReady)
include he

variable {sent : List Packet}

end Steps

def run (e : Endpoint) : List EndpointAction → Except Fault Endpoint
  | [] => .ok e
  | a :: rest => do
    let e ← e.step a
    e.run rest

theorem Reachable.run {actions : List EndpointAction} (h : Reachable e)
    (hr : e.run actions = .ok e') : Reachable e' := by
  induction actions generalizing e with
  | nil =>
    cases hr
    exact h
  | cons a rest ih =>
    obtain ⟨next, ht, hs⟩ := bind_eq_ok.mp hr
    exact ih (h.step a ht) hs

end Endpoint

end AexKernel.Net
