import AexKernel.Net.TcpWindow

/-! # Reading after the peer's FIN

Threads read from a socket while segments arrive. -/

namespace AexKernel.Net

open Library Mem List Function

/-- A `receiveFrom` call when it gets the lock. -/
structure ReadStart where
  len : ℕ
  state : TcpState
  front : List (BitVec 8)
  shut : Bool
  deriving DecidableEq, Repr

/-- A thread in the loop of `receiveFrom`. -/
structure Reader where
  start : ReadStart
  call : TcpSocket.ReceiveCall
  bytes : List (BitVec 8) := []
  deriving DecidableEq, Repr

/-- A call that has returned, with the bytes that were left in the buffer and `receive_shut` then.
-/
structure ReadReturn where
  start : ReadStart
  result : Except NetError (List (BitVec 8))
  left : List (BitVec 8)
  shut : Bool

/-- A socket and the threads that read from it. -/
structure Readers (ι : Type) where
  socket : TcpSocket
  active : ι → Option Reader := fun _ => none
  returned : List ReadReturn := []
  read : List (BitVec 8) := []

/-- What happens to the socket. -/
inductive ReadAction (ι : Type)
  | arrive (src : IPv4Addr) (srcPort : BitVec 16) (buffer : List (BitVec 8)) (uptime : ℕ)
  /-- `receiveFrom(buffer, len, flags, nullptr)`, to the end of the first pass. -/
  | receiveFrom (thread : ι) (len : ℕ) (waitAll : Bool)
  | pass (thread : ι)

namespace Readers

variable {ι : Type} [DecidableEq ι]

def advance (s : Readers ι) (thread : ι) (reader : Reader) : Readers ι :=
  let (socket, bytes, _, next) := s.socket.receiveFromPass reader.call
  match next with
  | some call => { s with
      socket := socket
      read := s.read ++ bytes
      active := Function.update s.active thread
        (some { reader with call := call, bytes := reader.bytes ++ bytes }) }
  | none => { s with
      socket := socket
      read := s.read ++ bytes
      active := Function.update s.active thread none
      returned := s.returned ++ [⟨reader.start, .ok (reader.bytes ++ bytes),
        socket.rxBuffer.contents, socket.block.receiveShut⟩] }

def found (s : Readers ι) (len : ℕ) : ReadStart :=
  ⟨len, s.socket.block.state, s.socket.rxBuffer.contents, s.socket.block.receiveShut⟩

def step (s : Readers ι) : ReadAction ι → Except Fault (Readers ι)
  | .arrive src srcPort buffer uptime =>
    .ok { s with socket := (s.socket.packetReceived src srcPort buffer uptime).1 }
  | .receiveFrom thread len waitAll =>
    if (s.active thread).isSome then .ok s
    else
      match s.socket.receiveFromCheck len none with
      | .error error => .ok { s with
          returned := s.returned ++ [⟨s.found len, .error error, s.socket.rxBuffer.contents,
            s.socket.block.receiveShut⟩] }
      | .ok () => .ok (s.advance thread ⟨s.found len, { len := len, waitAll := waitAll }, []⟩)
  | .pass thread =>
    match s.active thread with
    | none => .ok s
    | some reader => .ok (s.advance thread reader)

end Readers

/-- What a call should do. -/
structure ReadReturn.Law (r : ReadReturn) : Prop where
  data : r.start.front ≠ [] → ∃ bytes, r.result = .ok bytes ∧ bytes ≠ [] ∧
    r.start.front.take r.start.len <+: bytes
  afterFin : r.start.shut → (r.result = .ok [] ↔ r.start.front = [])
  none : r.result = .ok [] → r.left = [] ∧ r.shut

/-! ## One pass -/

theorem TcpSocket.receiveFromPass_contents (s : TcpSocket) (call : ReceiveCall) :
    (s.receiveFromPass call).2.1 = s.rxBuffer.contents.take call.len ∧
      (s.receiveFromPass call).1.rxBuffer.contents = s.rxBuffer.contents.drop call.len ∧
      (s.receiveFromPass call).1.rxLog = s.rxLog ∧
      (s.receiveFromPass call).1.block.receiveShut = s.block.receiveShut ∧
      (s.receiveFromPass call).2.2.2 =
        if call.len = 0 ∨ s.rxBuffer.contents = [] ∧
          (call.waitAll = false ∧ 0 < call.read ∨ s.block.receiveShut) then none
        else some { call with
          len := call.len - (s.rxBuffer.contents.take call.len).length
          read := call.read + (s.rxBuffer.contents.take call.len).length } := by
  have he := s.rxBuffer.length_contents
  rw [receiveFromPass]
  by_cases hl : call.len = 0
  · rw [if_pos hl, if_pos (.inl hl), hl]
    exact ⟨rfl, rfl, rfl, rfl, rfl⟩
  rw [if_neg hl]
  by_cases ho : s.rxBuffer.readAvailable = 0
  · have hn : s.rxBuffer.contents = [] := length_eq_zero_iff.mp (he.trans ho)
    rw [if_pos ho, hn, take_nil, drop_nil]
    by_cases hv : call.waitAll = false ∧ 0 < call.read ∨ s.block.receiveShut
    · rw [if_pos (by simpa using hv), if_pos (.inr ⟨rfl, hv⟩)]
      exact ⟨rfl, hn, rfl, rfl, rfl⟩
    · rw [if_neg (by simpa using hv), if_neg (by simp [hl, hv])]
      exact ⟨rfl, hn, rfl, rfl, rfl⟩
  have hne : s.rxBuffer.contents ≠ [] := fun hn => ho (by rw [← he, hn]; rfl)
  have ht : min s.rxBuffer.readAvailable call.len ≤ s.rxBuffer.readAvailable :=
    Nat.min_le_left _ _
  have hb := s.rxBuffer.read_eq_take ht
  have hr := s.rxBuffer.contents_read ht
  have ha : s.rxBuffer.contents.take (min s.rxBuffer.readAvailable call.len) =
      s.rxBuffer.contents.take call.len := take_eq_take_iff.mpr (by omega)
  have hd : s.rxBuffer.contents.drop (min s.rxBuffer.readAvailable call.len) =
      s.rxBuffer.contents.drop call.len := drop_eq_drop_iff.mpr (by omega)
  have hc : (s.rxBuffer.contents.take call.len).length =
      min s.rxBuffer.readAvailable call.len := by rw [length_take, he, Nat.min_comm]
  have hg : ¬ (call.len = 0 ∨ s.rxBuffer.contents = [] ∧
      (call.waitAll = false ∧ 0 < call.read ∨ s.block.receiveShut)) :=
    not_or.mpr ⟨hl, fun h => hne h.1⟩
  rw [if_neg ho, if_neg hg, hc]
  dsimp only
  split_ifs
  · exact ⟨hb.trans ha, hr.trans hd, rfl, rfl, rfl⟩
  · exact ⟨hb.trans ha, hr.trans hd, rfl, rfl, rfl⟩

/-! ## Calls -/

/-- A thread in the loop: what was buffered when it made its call comes first of what it returns. -/
structure Reader.Going (r : Reader) : Prop where
  state : r.start.state = .established
  pos : 0 < r.start.len
  len : r.call.len + r.bytes.length = r.start.len
  read : r.call.read = r.bytes.length
  front : r.start.front.take r.start.len <+: r.bytes
  shut : r.start.shut → r.start.front ≠ []

/-- A thread in front of a pass. -/
structure Reader.Ready (s : TcpSocket) (r : Reader) : Prop where
  state : r.start.state = .established
  pos : 0 < r.start.len
  len : r.call.len + r.bytes.length = r.start.len
  read : r.call.read = r.bytes.length
  front : (r.start.front.take r.start.len <+: r.bytes ∧ (r.start.shut → r.start.front ≠ [])) ∨
    r.bytes = [] ∧ r.start.front = s.rxBuffer.contents ∧ r.start.shut = s.block.receiveShut

variable {r : Reader}

theorem Reader.Going.ready (h : r.Going) (s : TcpSocket) : r.Ready s :=
  ⟨h.state, h.pos, h.len, h.read, .inl ⟨h.front, h.shut⟩⟩

section Pass

variable {s : TcpSocket}

theorem Reader.Ready.front_pass (h : r.Ready s) :
    r.start.front.take r.start.len <+: r.bytes ++ s.rxBuffer.contents.take r.call.len := by
  rcases h.front with ⟨hf, -⟩ | ⟨hb, hf, -⟩
  · exact hf.trans (prefix_append _ _)
  have hl := h.len
  rw [hb, length_nil, Nat.add_zero] at hl
  rw [hb, nil_append, hf, hl]

theorem Reader.Ready.going (h : r.Ready s) {call : TcpSocket.ReceiveCall}
    (he : (s.receiveFromPass r.call).2.2.2 = some call) :
    Reader.Going { r with call := call, bytes := r.bytes ++ (s.receiveFromPass r.call).2.1 } := by
  obtain ⟨hb, -, -, -, ho⟩ := s.receiveFromPass_contents r.call
  rw [he] at ho
  split_ifs at ho with hc
  cases ho
  have hl := h.len
  have hr := h.read
  have ht := length_take_le r.call.len s.rxBuffer.contents
  refine ⟨h.state, h.pos, ?_, ?_, ?_, fun hs hn => hc (.inr ?_)⟩
  · rw [hb, length_append]
    dsimp only
    omega
  · rw [hb, length_append]
    dsimp only
    omega
  · rw [hb]
    exact h.front_pass
  · -- a call that finds nothing after the FIN is over at once
    rcases h.front with ⟨-, hne⟩ | ⟨-, hf, ha⟩
    · exact absurd hn (hne hs)
    · exact ⟨hf.symm.trans hn, .inr (ha.symm.trans hs)⟩

theorem take_ne_nil {l : List (BitVec 8)} {n : ℕ} (hn : 0 < n) (hl : l ≠ []) : l.take n ≠ [] := by
  rw [ne_eq, take_eq_nil_iff]
  exact not_or.mpr ⟨hn.ne', hl⟩

theorem Reader.Ready.law (h : r.Ready s) (hx : (s.receiveFromPass r.call).2.2.2 = none) :
    ReadReturn.Law ⟨r.start, .ok (r.bytes ++ (s.receiveFromPass r.call).2.1),
      (s.receiveFromPass r.call).1.rxBuffer.contents,
      (s.receiveFromPass r.call).1.block.receiveShut⟩ := by
  obtain ⟨hb, hr, -, hs, hv⟩ := s.receiveFromPass_contents r.call
  rw [hx] at hv
  split_ifs at hv with hc
  have hf := h.front_pass
  rw [hb, hr, hs]
  have hm : r.bytes ++ s.rxBuffer.contents.take r.call.len = [] → r.start.front = [] := by
    intro hn
    rw [hn, prefix_nil] at hf
    exact not_not.mp fun he => take_ne_nil h.pos he hf
  refine ⟨fun he => ⟨_, rfl, mt hm he, hf⟩, fun hs => ⟨fun hn => ?_, fun hn => ?_⟩,
    fun hn => ?_⟩
  · exact hm (Except.ok.inj hn)
  · rcases h.front with ⟨-, he⟩ | ⟨ho, ha, -⟩
    · exact absurd hn (he hs)
    rw [ho, ← ha, show r.start.front = [] from hn, take_nil]
    rfl
  obtain ⟨ho, -⟩ := append_eq_nil_iff.mp (Except.ok.inj hn)
  have hl := h.len
  have hre := h.read
  have hp := h.pos
  rw [ho, length_nil] at hl hre
  rcases hc with hz | ⟨hco, ⟨-, hso⟩ | hs⟩
  · omega
  · omega
  · exact ⟨by rw [hco, drop_nil], hs⟩

end Pass

variable {error : NetError}

theorem ReadReturn.law_of_error {r : ReadReturn} (hr : r.result = .error error) :
    r.Law ↔ r.start.front = [] ∧ r.start.shut = false := by
  refine ⟨fun h => ?_, fun ⟨hf, hh⟩ => ⟨fun hn => absurd hf hn, fun hs => ?_, ?_⟩⟩
  · have hf : r.start.front = [] := by
      by_contra hn
      obtain ⟨bytes, ho, -⟩ := h.data hn
      cases hr.symm.trans ho
    refine ⟨hf, Bool.eq_false_iff.mpr fun hs => ?_⟩
    cases hr.symm.trans ((h.afterFin hs).mpr hf)
  · cases hh.symm.trans hs
  · intro ho
    cases hr.symm.trans ho

/-! ## Runs -/

namespace Readers

variable {ι : Type} [DecidableEq ι]

section Advance

variable (s : Readers ι) (i : ι) (r : Reader)

theorem advance_of_some {call : TcpSocket.ReceiveCall}
    (hn : (s.socket.receiveFromPass r.call).2.2.2 = some call) :
    s.advance i r = { s with
      socket := (s.socket.receiveFromPass r.call).1
      read := s.read ++ (s.socket.receiveFromPass r.call).2.1
      active := update s.active i
        (some { r with call := call, bytes := r.bytes ++ (s.socket.receiveFromPass r.call).2.1 }) } := by
  rw [advance]
  dsimp only
  rw [hn]

theorem advance_of_none (hn : (s.socket.receiveFromPass r.call).2.2.2 = none) :
    s.advance i r = { s with
      socket := (s.socket.receiveFromPass r.call).1
      read := s.read ++ (s.socket.receiveFromPass r.call).2.1
      active := update s.active i none
      returned := s.returned ++ [⟨r.start, .ok (r.bytes ++ (s.socket.receiveFromPass r.call).2.1),
        (s.socket.receiveFromPass r.call).1.rxBuffer.contents,
        (s.socket.receiveFromPass r.call).1.block.receiveShut⟩] } := by
  rw [advance]
  dsimp only
  rw [hn]

theorem advance_socket : (s.advance i r).socket = (s.socket.receiveFromPass r.call).1 ∧
    (s.advance i r).read = s.read ++ (s.socket.receiveFromPass r.call).2.1 := by
  cases hn : (s.socket.receiveFromPass r.call).2.2.2 with
  | some call =>
    rw [advance_of_some s i r hn]
    exact ⟨rfl, rfl⟩
  | none =>
    rw [advance_of_none s i r hn]
    exact ⟨rfl, rfl⟩

end Advance

/-- The bytes that the socket held and has accepted are those read and those that it holds. -/
def Kept (s₀ : TcpSocket) (s : Readers ι) : Prop :=
  ∃ accepted, s.socket.rxLog = s₀.rxLog ++ accepted ∧
    s₀.rxBuffer.contents ++ accepted = s.read ++ s.socket.rxBuffer.contents

/-- What holds in every state of a run. -/
structure Sound (s₀ : TcpSocket) (s : Readers ι) : Prop where
  active : ∀ i r, s.active i = some r → r.Going
  returned : ∀ r ∈ s.returned, 0 < r.start.len →
    (r.Law ↔ r.start.state = .established ∨ r.start.front = [] ∧ r.start.shut = false)
  kept : s.Kept s₀

variable {s₀ : TcpSocket} {s : Readers ι}

theorem Kept.advance (h : s.Kept s₀) (i : ι) (r : Reader) : (s.advance i r).Kept s₀ := by
  obtain ⟨accepted, hl, hk⟩ := h
  obtain ⟨hb, hr, ha, -⟩ := s.socket.receiveFromPass_contents r.call
  obtain ⟨hs, he⟩ := s.advance_socket i r
  refine ⟨accepted, ?_, ?_⟩
  · rw [hs, ha, hl]
  · rw [hs, he, hb, hr, append_assoc, take_append_drop, hk]

theorem Sound.active_update (h : s.Sound s₀) {i : ι} {next : Option Reader}
    (hn : ∀ r, next = some r → r.Going) (j : ι) (r : Reader)
    (hr : update s.active i next j = some r) : r.Going := by
  by_cases hj : j = i
  · rw [hj, update_self] at hr
    exact hn r hr
  · rw [update_of_ne hj] at hr
    exact h.active j r hr

theorem Sound.advance (h : s.Sound s₀) (i : ι) (hr : r.Ready s.socket) :
    (s.advance i r).Sound s₀ := by
  have hk := h.kept.advance i r
  cases hn : (s.socket.receiveFromPass r.call).2.2.2 with
  | some call =>
    rw [advance_of_some s i r hn] at hk ⊢
    refine ⟨h.active_update fun r' hr' => ?_, h.returned, hk⟩
    cases hr'
    exact hr.going hn
  | none =>
    rw [advance_of_none s i r hn] at hk ⊢
    refine ⟨h.active_update nofun, fun r' hr' hp => ?_, hk⟩
    rcases mem_append.mp hr' with hold | he
    · exact h.returned r' hold hp
    obtain rfl := mem_singleton.mp he
    exact iff_of_true (hr.law hn) (.inl hr.state)

section

omit [DecidableEq ι]

theorem Kept.arrive (h : s.Kept s₀) (src : IPv4Addr) (srcPort : BitVec 16)
    (buffer : List (BitVec 8)) (uptime : ℕ) :
    Kept s₀ { s with socket := (s.socket.packetReceived src srcPort buffer uptime).1 } := by
  obtain ⟨accepted, hl, hk⟩ := h
  obtain ⟨u, taken, counted, hb, hs, -, ha⟩ :=
    s.socket.packetReceived_arrival src srcPort buffer uptime
  refine ⟨accepted ++ taken, ?_, ?_⟩
  · rw [ha.rxLog, hs, hl, append_assoc]
  rw [ha.rxBuffer, u.rxBuffer.contents_write ha.room, hb, ← append_assoc, hk, append_assoc]

theorem ready_of_check {len : ℕ} (waitAll : Bool) (hc : s.socket.receiveFromCheck len none = .ok ()) :
    Reader.Ready s.socket ⟨s.found len, { len := len, waitAll := waitAll }, []⟩ := by
  rw [TcpSocket.receiveFromCheck] at hc
  split_ifs at hc with hl _ hs
  exact ⟨not_not.mp hs, Nat.pos_of_ne_zero hl, rfl, rfl, .inr ⟨rfl, rfl, rfl⟩⟩

theorem state_of_check {len : ℕ} (hl : 0 < len)
    (hc : s.socket.receiveFromCheck len none = .error error) :
    s.socket.block.state ≠ .established := by
  intro hs
  rw [TcpSocket.receiveFromCheck, if_neg hl.ne', if_neg nofun, if_neg (not_not.mpr hs)] at hc
  cases hc

end

variable {s' : Readers ι}

section

variable (h : s.Sound s₀)
include h

theorem Sound.step {a : ReadAction ι} (hs : s.step a = .ok s') : s'.Sound s₀ := by
  cases a with
  | arrive src srcPort buffer uptime =>
    cases hs
    exact ⟨h.active, h.returned, h.kept.arrive src srcPort buffer uptime⟩
  | receiveFrom i len waitAll =>
    rw [Readers.step] at hs
    split_ifs at hs
    · exact Except.ok.inj hs ▸ h
    cases hc : s.socket.receiveFromCheck len none with
    | ok =>
      rw [hc] at hs
      exact Except.ok.inj hs ▸ h.advance i (ready_of_check waitAll hc)
    | error error =>
      rw [hc] at hs
      cases hs
      refine ⟨h.active, fun r hr hp => ?_, h.kept⟩
      rcases mem_append.mp hr with hold | hn
      · exact h.returned r hold hp
      obtain rfl := mem_singleton.mp hn
      rw [ReadReturn.law_of_error rfl, or_iff_right]
      exact state_of_check hp hc
  | pass i =>
    rw [Readers.step] at hs
    split at hs
    · exact Except.ok.inj hs ▸ h
    next r hr => exact Except.ok.inj hs ▸ h.advance i ((h.active i r hr).ready s.socket)

theorem Sound.progress {i : ι} (hr : s.active i = some r) (hb : r.bytes ≠ [])
    (hw : r.call.waitAll = false ∨ s.socket.block.receiveShut) :
    (s.advance i r).active i = none ∨ ∃ r', (s.advance i r).active i = some r' ∧
      r'.bytes ≠ [] ∧ r'.call.len < r.call.len ∧ r'.call.waitAll = r.call.waitAll := by
  have he := (h.active i r hr).read
  obtain ⟨-, -, -, -, ho⟩ := s.socket.receiveFromPass_contents r.call
  have hp : 0 < r.call.read := he ▸ length_pos_iff.mpr hb
  split_ifs at ho with hc
  · rw [advance_of_none s i r ho]
    exact .inl (update_self ..)
  rw [advance_of_some s i r ho]
  refine .inr ⟨_, update_self .., fun hn => hb (append_eq_nil_iff.mp hn).1, ?_, rfl⟩
  obtain ⟨hl, hm⟩ := not_or.mp hc
  have hne : s.socket.rxBuffer.contents ≠ [] := fun hn =>
    hm ⟨hn, hw.imp_left fun ha => ⟨ha, hp⟩⟩
  have ht := length_pos_iff.mpr (take_ne_nil (Nat.pos_of_ne_zero hl) hne)
  dsimp only
  omega

theorem Sound.of_reach (hr : Reach Readers.step (fun _ _ => True) s s') : s'.Sound s₀ :=
  hr.invariant h fun _ _ _ hs _ ht => hs.step ht

end

omit [DecidableEq ι] in
theorem sound_start (s₀ : TcpSocket) : Sound s₀ ({ socket := s₀ } : Readers ι) :=
  ⟨nofun, nofun, ⟨[], (append_nil _).symm, by simp⟩⟩

/-- **Reading, up to the FIN and after it.** In every run of segments and `receiveFrom` calls no
byte is lost or read twice, and a call does what it should exactly when it is made in ESTABLISHED,
or when there is nothing to read and no FIN has come. -/
theorem law_iff {s₀ : TcpSocket} {s : Readers ι}
    (hrun : Reach Readers.step (fun _ _ => True) { socket := s₀ } s) :
    (∀ r ∈ s.returned, 0 < r.start.len →
      (r.Law ↔ r.start.state = .established ∨ r.start.front = [] ∧ r.start.shut = false)) ∧
    s.Kept s₀ ∧
    ∀ i r, s.active i = some r → (r.start.front ≠ [] → r.bytes ≠ []) ∧
      (r.bytes ≠ [] → r.call.waitAll = false ∨ s.socket.block.receiveShut →
        (s.advance i r).active i = none ∨ ∃ r', (s.advance i r).active i = some r' ∧
          r'.bytes ≠ [] ∧ r'.call.len < r.call.len ∧ r'.call.waitAll = r.call.waitAll) := by
  have h : s.Sound s₀ := (sound_start s₀).of_reach hrun
  refine ⟨h.returned, h.kept, fun i r hr => ⟨fun hfr hnil => ?_, h.progress hr⟩⟩
  have hgo := h.active i r hr
  have hpre := hgo.front
  rw [hnil, prefix_nil] at hpre
  exact take_ne_nil hgo.pos hfr hpre

/-- The last segment of the peer of `TcpThreads.opened`. -/
def lastBytes : ReadAction (Fin 2) :=
  .arrive 2 80 (TcpHeader.encode
    { sourcePort := 80, destinationPort := 49152, seqNumber := 500, ackNumber := 100,
      bitvalues := 0x5019, window := 1000, checksum := 0, urgentPointer := 0 } ++ [1, 2, 3]) 0

theorem law_iff_waiting : ∃ s : Readers (Fin 2), ∃ r ∈ s.returned,
    Reach Readers.step (fun _ _ => True) { socket := TcpThreads.opened } s ∧
    r.result = .ok [1, 2, 3] ∧ s.socket.block.state = .closeWait ∧ r.Law := by
  obtain ⟨s, hs, hstat, hre⟩ :
      ∃ s ∈ execute Readers.step (fun _ _ => True) { socket := TcpThreads.opened }
      [.receiveFrom 0 8 false, lastBytes, .pass 0, .pass 0],
      s.socket.block.state = .closeWait ∧ s.returned.map (fun r => (r.start, r.result)) =
        [(⟨8, .established, [], false⟩, .ok [1, 2, 3])] := by
    decide
  have hrun := Reach.refl.execute hs
  obtain ⟨r, hr, heq⟩ := map_eq_singleton_iff.mp hre
  obtain ⟨hst, hres⟩ := Prod.mk.inj heq
  have hmem : r ∈ s.returned := hr ▸ mem_singleton_self r
  refine ⟨s, r, hmem, hrun, hres, hstat, ((law_iff hrun).1 r hmem ?_).mpr (.inl ?_)⟩
  · rw [hst]
    decide
  · rw [hst]

theorem not_law_afterFin : ∃ s : Readers (Fin 2), ∃ r ∈ s.returned,
    Reach Readers.step (fun _ _ => True) { socket := TcpThreads.opened } s ∧
    r.start = ⟨8, .closeWait, [1, 2, 3], true⟩ ∧ r.result = .error .enotconn ∧ ¬ r.Law := by
  obtain ⟨s, hs, hre⟩ : ∃ s ∈ execute Readers.step (fun _ _ => True) { socket := TcpThreads.opened }
      [lastBytes, .receiveFrom 0 8 false],
      s.returned.map (fun r => (r.start, r.result)) =
        [(⟨8, .closeWait, [1, 2, 3], true⟩, .error .enotconn)] := by
    decide
  obtain ⟨r, hr, heq⟩ := map_eq_singleton_iff.mp hre
  obtain ⟨hst, hres⟩ := Prod.mk.inj heq
  refine ⟨s, r, hr ▸ mem_singleton_self r, Reach.refl.execute hs, hst, hres, fun hla => ?_⟩
  have hfr := ((ReadReturn.law_of_error hres).mp hla).1
  rw [hst] at hfr
  cases hfr

end Readers

end AexKernel.Net
