import AexKernel.Net.TcpPorts
import AexKernel.Net.UdpSocket

/-! # UDP ports (`protocol/inet/udp.cpp`, `socket/inet/udp.cpp`)

The bitmap is the one of TCP over again; `bind` takes the new port before it frees the old one. -/

namespace AexKernel.Net

open Library List Ports

/-- The ports and `UDPProtocol::sockets`. -/
structure UdpPorts where
  ports : Ports := {}
  sockets : List UdpSocket := []

/-- What can happen to sockets, by their index in `sockets`. -/
inductive UdpCall
  | createSocket
  /-- `bind(addr)`, where `inet` says that the domain is `AF_INET`. -/
  | bind (i : ℕ) (inet : Bool) (addr : IPv4Addr) (port : BitVec 16)
  /-- `~UDPSocket()`. -/
  | destroy (i : ℕ)

namespace UdpPorts

/-- What `bind` and `~UDPSocket()` do with `source_port`. -/
def giveBack (p : Ports) (port : BitVec 16) : Ports :=
  if port ≠ 0 then p.freePort port.toNat else p

def step (s : UdpPorts) : UdpCall → Except Fault UdpPorts
  | .createSocket => do
    let (port, ports) ← s.ports.allocateDynamicPort
    if port = 0 then return { s with ports := ports }
    else return ⟨ports, s.sockets ++ [{ sourcePort := BitVec.ofNat 16 port }]⟩
  | .bind i inet addr port =>
    match s.sockets[i]? with
    | some socket =>
      let r := s.ports.allocatePort port.toNat
      .ok (if inet ∧ r.1 then ⟨giveBack r.2 socket.sourcePort,
        s.sockets.set i { socket with sourceAddress := addr, sourcePort := port }⟩ else s)
    | none => .ok s
  | .destroy i =>
    match s.sockets[i]? with
    | some socket => .ok ⟨giveBack s.ports socket.sourcePort, s.sockets.eraseIdx i⟩
    | none => .ok s

/-- A dynamic port is free from the first tried on, and sockets are bound to ports other than 0. -/
def Finds (s : UdpPorts) : UdpCall → Prop
  | .createSocket =>
    ∃ port, s.ports.firstTried ≤ port ∧ port < 65536 ∧ bitAt s.ports.words port = false
  | .bind _ _ _ port => port ≠ 0
  | .destroy _ => True

/-- The ports of the sockets. -/
def taken (s : UdpPorts) : List (BitVec 16) := s.sockets.map UdpSocket.sourcePort

/-- Every port has one owner, and every datagram at most one receiver. -/
structure Law (s : UdpPorts) : Prop where
  bit : ∀ port ≠ 0, bitAt s.ports.words port.toNat ↔ s.taken.count port = 1
  nodup : s.taken.Nodup
  receiver : ∀ src srcPort dst dstPort buffer, ∀ i j : ℕ,
    let after := UdpProtocol.packetReceived s.sockets src srcPort dst dstPort buffer
    after[i]? ≠ s.sockets[i]? → after[j]? ≠ s.sockets[j]? → i = j

/-- The sockets that own the bits of the bitmap. -/
structure Owned (p : Ports) (l : List (BitVec 16)) : Prop where
  inRange : p.InRange
  bit : ∀ port, bitAt p.words port.toNat ↔ port ∈ l
  zero : 0 ∉ l
  nodup : l.Nodup

variable {p p' : Ports} {l l' : List (BitVec 16)} {port : BitVec 16} {s s' : UdpPorts}

theorem Owned.perm (h : Owned p l) (hp : l ~ l') : Owned p l' where
  inRange := h.inRange
  bit port := (h.bit port).trans hp.mem_iff
  zero := mt hp.mem_iff.mpr h.zero
  nodup := hp.nodup_iff.mp h.nodup

theorem Owned.take (h : Owned p l) (hr : p'.InRange) (hz : port ≠ 0)
    (hc : bitAt p.words port.toNat = false)
    (hb : ∀ j, bitAt p'.words j = if j = port.toNat then true else bitAt p.words j) :
    Owned p' (port :: l) where
  inRange := hr
  bit q := by
    rw [hb, mem_cons, ← h.bit q]
    by_cases hq : q = port <;> simp [hq, BitVec.toNat_inj]
  zero hi := (mem_cons.mp hi).elim hz.symm h.zero
  nodup := nodup_cons.mpr ⟨fun hi => by simp [(h.bit port).mpr hi] at hc, h.nodup⟩

theorem Owned.giveBack (h : Owned p (port :: l)) : Owned (giveBack p port) l := by
  obtain ⟨hn, ho⟩ := nodup_cons.mp h.nodup
  rw [UdpPorts.giveBack, if_pos fun hz : port = 0 => h.zero (hz ▸ mem_cons_self)]
  refine ⟨h.inRange, fun q => ?_, fun hi => h.zero (mem_cons_of_mem _ hi), ho⟩
  rw [Ports.freePort, bitAt_put port.isLt]
  by_cases hq : q = port
  · simp [hq, hn]
  · simp [hq, BitVec.toNat_inj, h.bit q]

theorem perm_eraseIdx {i : ℕ} {socket : UdpSocket} (h : s.sockets[i]? = some socket) :
    i < s.taken.length ∧ s.taken ~ socket.sourcePort :: s.taken.eraseIdx i := by
  have hg : s.taken[i]? = some socket.sourcePort := by
    rw [taken, getElem?_map, h, Option.map_some]
  obtain ⟨hl, he⟩ := List.getElem?_eq_some_iff.mp hg
  exact ⟨hl, he ▸ (getElem_cons_eraseIdx_perm hl).symm⟩

theorem Owned.step {call : UdpCall} (h : Owned s.ports s.taken) (hf : s.Finds call)
    (hs : s.step call = .ok s') : Owned s'.ports s'.taken := by
  cases call with
  | createSocket =>
    obtain ⟨⟨port, ports⟩, hl, hs'⟩ := bind_eq_ok.mp hs
    have ha := allocateDynamicPort_spec h.inRange hl
    dsimp only at hs'
    split_ifs at hs' with hz
    · cases hs'
      exact ⟨ha.inRange, ha.none hz ▸ h.bit, h.zero, h.nodup⟩
    cases hs'
    obtain ⟨ht, hc, hb⟩ := ha.some hz
    have hp : (BitVec.ofNat 16 port).toNat = port := Nat.mod_eq_of_lt ht
    rw [taken, map_append]
    refine (h.take ha.inRange ?_ (hp.symm ▸ hc) (hp.symm ▸ hb)).perm
      (perm_append_singleton _ _).symm
    intro hq
    exact hz (hp.symm.trans (congrArg BitVec.toNat hq))
  | bind i inet addr port =>
    rw [UdpPorts.step] at hs
    split at hs
    · next socket ho =>
      cases hs
      by_cases he : bitAt s.ports.words port.toNat
      · simp [Ports.allocatePort, he, h]
      simp only [Ports.allocatePort, if_neg he]
      split_ifs
      · -- the port is taken first, so the old one is still there to be given back
        have hta : Owned (s.ports.put port.toNat true) (port :: s.taken) :=
          h.take h.inRange hf (Bool.eq_false_iff.mpr he) (bitAt_put port.isLt true)
        obtain ⟨ht, hpe⟩ := perm_eraseIdx ho
        rw [taken, map_set]
        exact ((hta.perm ((hpe.cons port).trans (.swap ..))).giveBack).perm
          (set_perm_cons_eraseIdx ht port).symm
      · exact h
    · exact Except.ok.inj hs ▸ h
  | destroy i =>
    rw [UdpPorts.step] at hs
    split at hs
    · next socket ho =>
      cases hs
      rw [taken, ← eraseIdx_map]
      exact (h.perm (perm_eraseIdx ho).2).giveBack
    · exact Except.ok.inj hs ▸ h

theorem getElem?_taken {src dst : IPv4Addr} {srcPort dstPort : BitVec 16}
    {buffer : List (BitVec 8)} {i : ℕ}
    (h : (UdpProtocol.packetReceived s.sockets src srcPort dst dstPort buffer)[i]? ≠
      s.sockets[i]?) : s.taken[i]? = some dstPort := by
  rw [UdpProtocol.packetReceived] at h
  split_ifs at h
  · exact absurd rfl h
  rw [getElem?_map] at h
  rw [taken, getElem?_map]
  cases hs : s.sockets[i]? with
  | none => simp [hs] at h
  | some socket =>
    by_contra hn
    refine h ?_
    rw [hs, Option.map_some, if_pos fun he => hn (congrArg some he.symm)]

theorem Owned.law (h : Owned s.ports s.taken) : Law s where
  bit port _ := by
    rw [h.bit port, h.nodup.count]
    simp
  nodup := h.nodup
  receiver src srcPort dst dstPort buffer i j hi hj := by
    have hg := getElem?_taken hi
    exact (getElem?_inj (List.getElem?_eq_some_iff.mp hg).1 h.nodup).mp
      (hg.trans (getElem?_taken hj).symm)

theorem owned_empty : Owned {} [] where
  inRange := ⟨le_rfl, by decide⟩
  bit port := by
    rw [Ports.bitAt_empty]
    exact iff_of_false Bool.false_ne_true not_mem_nil
  zero := not_mem_nil
  nodup := nodup_nil

/-- **UDP ports have one owner.** -/
theorem law_of_finds (hreach : Reach step Finds {} s) : Law s := by
  have how : Owned s.ports s.taken := hreach.invariant (P := fun s => Owned s.ports s.taken)
    owned_empty fun _ _ _ h hfi hst => h.step hfi hst
  exact how.law

theorem law_of_finds_created : ∃ s, Reach step Finds {} s ∧ s.taken = [49152] ∧ Law s := by
  have hta : (step {} .createSocket).toOption.map taken = some [49152] := by decide +kernel
  cases hst : step {} .createSocket with
  | error _ =>
    rw [hst] at hta
    cases hta
  | ok s =>
    have hre : Reach step Finds {} s :=
      .step .createSocket .refl ⟨49152, by decide, by decide, by decide +kernel⟩ hst
    rw [hst] at hta
    exact ⟨s, hre, Option.some.inj hta, law_of_finds hre⟩

end UdpPorts

end AexKernel.Net
