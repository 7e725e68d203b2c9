import AexKernel.Net.TcpReceive

/-! # RST segments (`packetReceived`)

A connection should believe an RST that acknowledges its SYN, or one whose sequence number it
expects. -/

namespace AexKernel.Net

open Library TcpHeader

theorem inWindow_iff (seqn expected : BitVec 32) {window : ℕ} (hw : window < 2 ^ 31) :
    (isAfterOrEqual seqn expected ∧ isBefore seqn (expected + BitVec.ofNat 32 window)) ↔
      (seqn - expected).toNat < window := by
  simp only [isAfterOrEqual, isBefore]
  split_ifs <;> simp <;> bv_omega

namespace TcpSocket

/-! ## Options -/

/-- The maximum segment size that the options from byte `i` on announce. -/
def announcedMssFrom (buffer : List (BitVec 8)) (hdrLen : ℕ) : ℕ → ℕ → Option ℕ
  | 0, _ => none
  | fuel + 1, i =>
    if i < hdrLen then
      let len := max 2 (buffer.getD (i + 1) 0#8).toNat
      match (buffer.getD i 0#8).toNat with
      | 0 => announcedMssFrom buffer hdrLen fuel (65536 + len)
      | 1 => none
      | 2 => some ((announcedMssFrom buffer hdrLen fuel (i + len)).getD
          (max (min (readBE buffer (i + 2) 2) 1460) tcpMinMss))
      | _ => announcedMssFrom buffer hdrLen fuel (i + len)
    else none

def announcedMss (buffer : List (BitVec 8)) : Option ℕ :=
  announcedMssFrom buffer (TcpHeader.parse buffer).hdrLen (TcpHeader.parse buffer).hdrLen 20

theorem readOptionsLoop_announced (buf : List (BitVec 8)) (hdrLen fuel i : ℕ) (block : TcpBlock) :
    readOptionsLoop buf hdrLen fuel block i =
      { block with sndMss := (announcedMssFrom buf hdrLen fuel i).getD block.sndMss } := by
  induction fuel generalizing block i with
  | zero => rfl
  | succ fuel ih =>
    by_cases hi : i < hdrLen
    · match hk : (buf.getD i 0#8).toNat with
      | 0 | 1 | 2 | _ + 3 =>
        simp only [readOptionsLoop, announcedMssFrom, if_pos hi, hk, ih, Option.getD_some,
          Option.getD_none]
    · rw [readOptionsLoop, announcedMssFrom, if_neg hi, if_neg hi, Option.getD_none]

theorem receiveOptions_announced (s : TcpSocket) (buf : List (BitVec 8)) :
    s.receiveOptions buf (parse buf).hdrLen =
      { s with block := { s.block with sndMss := (announcedMss buf).getD s.block.sndMss } } := by
  rw [receiveOptions, readOptions, readOptionsLoop_announced]
  rfl

/-! ## Validation -/

def InWindow (s : TcpSocket) (seqn : BitVec 32) : Prop := (seqn - s.block.rcvNxt).toNat < s.getWindow
deriving Decidable

/-- The segment acknowledges the SYN that the socket has sent. -/
def AcknowledgesSyn (s : TcpSocket) (h : TcpHeader) : Prop :=
  hasFlag h.bitvalues tcpAck ∧ h.ackNumber = s.block.sndNxt
deriving Decidable

def Believable (s : TcpSocket) (h : TcpHeader) : Prop :=
  if s.block.state = .synSent then s.AcknowledgesSyn h
  else s.InWindow h.seqNumber ∨ s.getWindow = 0 ∧ h.seqNumber = s.block.rcvNxt
deriving Decidable

/-- What becomes of a segment. -/
def ValidatesRst (s : TcpSocket) (src : IPv4Addr) (srcPort : BitVec 16) (buffer : List (BitVec 8))
    (uptime : ℕ) : Prop :=
  ((s.packetReceived src srcPort buffer uptime).1.block.state = .closed ↔
    s.Believable (TcpHeader.parse buffer)) ∧
  (¬ s.Believable (TcpHeader.parse buffer) → (s.packetReceived src srcPort buffer uptime).1 = s)

/-- A segment that is treated as it should be. -/
def RstHandled (s : TcpSocket) (buffer : List (BitVec 8)) : Prop :=
  if s.Believable (TcpHeader.parse buffer) then s.block.state = .synSent ∨ s.getWindow ≠ 0
  else ¬ (s.block.state = .synSent ∧ s.InWindow (TcpHeader.parse buffer).seqNumber) ∧
    (announcedMss buffer).getD s.block.sndMss = s.block.sndMss
deriving Decidable

variable {s : TcpSocket} {buffer : List (BitVec 8)}

theorem getWindow_lt (s : TcpSocket) : s.getWindow < 2 ^ 31 := by
  rw [getWindow_eq]
  omega

theorem state_reset (s : TcpSocket) : s.reset.1.block.state = .closed := rfl

theorem packetReceived_rst {src : IPv4Addr} {port : BitVec 16} (now : ℕ)
    (hl : s.block.state ≠ .listen) (hc : s.block.state ≠ .closed)
    (hp : src = s.destinationAddress ∨ port = s.destinationPort)
    (hr : hasFlag (parse buffer).bitvalues tcpRst) :
    (s.packetReceived src port buffer now).1 =
      (s.receiveOptions buffer (parse buffer).hdrLen).receiveRst (parse buffer)
        s.block.rcvNxt := by
  have ht : ¬ (s.block.state ≠ .listen ∧ src ≠ s.destinationAddress ∧
      port ≠ s.destinationPort) := by
    rintro ⟨-, hs, ho⟩
    exact hp.elim hs ho
  rw [packetReceived, if_neg ht, if_neg hc, if_neg hl, packetReceivedOpen, if_pos hr]

def Resets (s : TcpSocket) (h : TcpHeader) : Prop :=
  (s.block.state = .synSent ∧ s.AcknowledgesSyn h) ∨ s.InWindow h.seqNumber
deriving Decidable

theorem receiveRst_eq (s : TcpSocket) (h : TcpHeader) (mss : ℕ) :
    let t := s.withMss mss
    t.receiveRst h s.block.rcvNxt = if s.Resets h then t.reset.1 else t := by
  intro t
  have hw := inWindow_iff h.seqNumber s.block.rcvNxt s.getWindow_lt
  by_cases hs : s.block.state = .synSent ∧ s.AcknowledgesSyn h
  · exact (if_pos hs).trans (if_pos (Or.inl hs)).symm
  by_cases hi : s.InWindow h.seqNumber
  · exact ((if_neg hs).trans (if_pos (hw.mpr hi))).trans (if_pos (Or.inr hi)).symm
  exact ((if_neg hs).trans (if_neg (mt hw.mp hi))).trans (if_neg (not_or.mpr ⟨hs, hi⟩)).symm

variable {h : TcpHeader}

theorem resets_iff_of_believable (hb : s.Believable h) :
    s.Resets h ↔ s.block.state = .synSent ∨ s.getWindow ≠ 0 := by
  rw [Believable] at hb
  split_ifs at hb with hs
  · exact iff_of_true (.inl ⟨hs, hb⟩) (.inl hs)
  rcases hb with hi | ⟨hz, -⟩
  · exact iff_of_true (.inr hi) (.inr (Nat.ne_zero_of_lt hi))
  refine iff_of_false ?_ (not_or.mpr ⟨hs, not_not.mpr hz⟩)
  rintro (⟨hy, -⟩ | hi)
  · exact hs hy
  rw [InWindow, hz] at hi
  exact Nat.not_lt_zero _ hi

theorem resets_iff_of_not_believable (hb : ¬ s.Believable h) :
    s.Resets h ↔ s.block.state = .synSent ∧ s.InWindow h.seqNumber := by
  rw [Believable] at hb
  split_ifs at hb with ht
  · constructor
    · rintro (⟨-, hs⟩ | hi)
      · exact absurd hs hb
      · exact ⟨ht, hi⟩
    · rintro ⟨-, hi⟩
      exact .inr hi
  refine iff_of_false ?_ fun h => ht h.1
  rintro (⟨hs, -⟩ | hi)
  · exact ht hs
  · exact hb (.inl hi)

/-- **RST validation.** For every connection and every RST segment for it: the connection is reset
if and only if the segment is to be believed and nothing changes otherwise, exactly when the segment
is one of those that are handled. -/
theorem validatesRst_iff (s : TcpSocket) (src : IPv4Addr) (srcPort : BitVec 16)
    (buffer : List (BitVec 8)) (uptime : ℕ) (hlisten : s.block.state ≠ .listen)
    (hclosed : s.block.state ≠ .closed)
    (hpeer : src = s.destinationAddress ∨ srcPort = s.destinationPort)
    (hrst : hasFlag (TcpHeader.parse buffer).bitvalues tcpRst) :
    s.ValidatesRst src srcPort buffer uptime ↔ s.RstHandled buffer := by
  rw [ValidatesRst, packetReceived_rst uptime hlisten hclosed hpeer hrst, receiveOptions_announced,
    receiveRst_eq, RstHandled]
  generalize parse buffer = h
  generalize (announcedMss buffer).getD s.block.sndMss = mss
  by_cases hbe : s.Believable h
  · have hrese := resets_iff_of_believable hbe
    rw [if_pos hbe, ← hrese]
    by_cases hres : s.Resets h
    · rw [if_pos hres]
      exact iff_of_true ⟨iff_of_true (state_reset _) hbe, absurd hbe⟩ hres
    · rw [if_neg hres]
      exact iff_of_false (fun hval => hclosed (hval.1.mpr hbe)) hres
  have hrese := resets_iff_of_not_believable hbe
  rw [if_neg hbe, ← hrese]
  by_cases hres : s.Resets h
  · rw [if_pos hres]
    exact iff_of_false (fun hval => hbe (hval.1.mp (state_reset _))) fun hha => hha.1 hres
  rw [if_neg hres]
  constructor
  · rintro ⟨-, hsa⟩
    exact ⟨hres, congrArg (·.block.sndMss) (hsa hbe)⟩
  · rintro ⟨-, rfl⟩
    exact ⟨iff_of_false hclosed hbe, fun _ => rfl⟩

/-- A socket of the host 10.0.0.1 with a connection to port 80 of 10.0.0.2. -/
def connected (state : TcpState) (rcvNxt sndNxt : BitVec 32) : TcpSocket where
  deviceAddress := 0x0A000001
  sourcePort := 49152
  destinationAddress := 0x0A000002
  destinationPort := 80
  block := { state := state, rcvNxt := rcvNxt, sndNxt := sndNxt, sndMss := tcpMinMss }

def rstSegment (seqn : BitVec 32) : List (BitVec 8) :=
  TcpHeader.encode
    { sourcePort := 80
      destinationPort := 49152
      seqNumber := seqn
      ackNumber := 0
      bitvalues := 0x5000 ||| tcpRst
      window := 0
      checksum := 0
      urgentPointer := 0 }

theorem validatesRst_iff_established :
    (connected .established 1000 2000).ValidatesRst 0x0A000002 80 (rstSegment 1005) 0 ∧
      (connected .established 1000 2000).ValidatesRst 0x0A000002 80 (rstSegment 9191) 0 :=
  ⟨(validatesRst_iff (connected .established 1000 2000) 0x0A000002 80 (rstSegment 1005) 0 nofun nofun
      (.inl rfl) (by decide)).mpr (by decide),
    (validatesRst_iff (connected .established 1000 2000) 0x0A000002 80 (rstSegment 9191) 0 nofun nofun
      (.inl rfl) (by decide)).mpr (by decide)⟩

theorem not_validatesRst_synSent :
    ((connected .synSent 0 2000).packetReceived 0x0A000002 80 (rstSegment 0) 0).1.block.state =
        .closed ∧
      ¬ (connected .synSent 0 2000).Believable (TcpHeader.parse (rstSegment 0)) ∧
      ¬ (connected .synSent 0 2000).ValidatesRst 0x0A000002 80 (rstSegment 0) 0 := by
  have hcl : ((connected .synSent 0 2000).packetReceived 0x0A000002 80 (rstSegment 0)
      0).1.block.state = .closed := by decide
  have hnot : ¬ (connected .synSent 0 2000).Believable (parse (rstSegment 0)) := by
    decide
  exact ⟨hcl, hnot, fun hval => hnot (hval.1.mp hcl)⟩

end TcpSocket

end AexKernel.Net
