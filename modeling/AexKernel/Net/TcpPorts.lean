import AexKernel.Basic
import AexKernel.Library.Run
import AexKernel.Library.WordBitmap

/-! # TCP ports (`protocol/inet/tcp.cpp`, `socket/inet/tcp.cpp`)

A bitmap says which ports are in use. -/

namespace AexKernel.Net

open Library List Function

/-- `m_port_bitmap`, of 65536 bits, and `m_port_dynamic_last`. -/
structure Ports where
  words : List (BitVec 32) := List.replicate 2048 0#32
  dynamicLast : ℕ := 49151
  size : words.length = 2048 := by exact List.length_replicate

namespace Ports

def put (p : Ports) (port : ℕ) (v : Bool) : Ports where
  words := p.words.set (port / 32) (putBit (p.words.getD (port / 32) 0#32) (port % 32) v)
  dynamicLast := p.dynamicLast
  size := List.length_set.trans p.size

/-- `allocatePort(port)`. -/
def allocatePort (p : Ports) (port : ℕ) : Bool × Ports :=
  if bitAt p.words port then (false, p) else (true, p.put port true)

/-- `freePort(port)`. -/
def freePort (p : Ports) (port : ℕ) : Ports := p.put port false

/-- The first clear bit of a word from `ib` on. -/
def firstClear (word : BitVec 32) (ib : ℕ) : Option ℕ :=
  (List.range 32).find? fun b => ib ≤ b ∧ ¬ word.getLsbD b

/-- The loop of `allocateDynamicPort`, for `n` words from bit `ib` of word `ii` on. -/
def dynamicLoop (p : Ports) : ℕ → ℕ → ℕ → Except Fault (ℕ × Ports)
  | 0, _, _ => .ok (0, p)
  | n + 1, ii, ib =>
    match p.words[ii]? with
    | none => .error .outOfBounds
    | some word =>
      match firstClear word ib with
      | some b =>
        let port := (ii * 32 + b) % 65536
        .ok (port, { p.put (ii * 32 + b) true with dynamicLast := port })
      | none => dynamicLoop p n (if 8192 ≤ ii + 1 then 49152 / 4 else ii + 1) 0

/-- `allocateDynamicPort()`. -/
def allocateDynamicPort (p : Ports) : Except Fault (ℕ × Ports) :=
  let last := (p.dynamicLast + 1) % 65536
  let last := if last = 0 then 49152 else last
  dynamicLoop { p with dynamicLast := last } (65536 - 49152 + 1) (last / 32) (last % 32)

variable {p p' : Ports} {port : ℕ}

theorem bitAt_put (hp : port < 65536) (v : Bool) (j : ℕ) :
    bitAt (p.put port v).words j = if j = port then v else bitAt p.words j := by
  have hw : p.words[port / 32]? = some (p.words.getD (port / 32) 0#32) := by
    have hl : port / 32 < p.words.length := by
      rw [p.size]
      omega
    rw [getD_eq_getElem?_getD, getElem?_eq_getElem hl, Option.getD_some]
  rw [put, bitAt_set_putBit v (Nat.mod_lt _ (by decide)) hw, Nat.div_add_mod]

theorem bitAt_empty (j : ℕ) : bitAt ({} : Ports).words j = false := by
  rw [bitAt, getD_eq_getElem?_getD, getElem?_replicate]
  split_ifs <;> simp

theorem firstClear_eq_some {word : BitVec 32} {ib b : ℕ} (h : firstClear word ib = some b) :
    b < 32 ∧ ib ≤ b ∧ word.getLsbD b = false := by
  rw [firstClear] at h
  have hf := find?_some h
  rw [decide_eq_true_eq] at hf
  exact ⟨mem_range.mp (mem_of_find?_eq_some h), hf.1, Bool.eq_false_of_not_eq_true hf.2⟩

/-- `m_port_dynamic_last` is the port before the first dynamic port, or a dynamic port. -/
def InRange (p : Ports) : Prop := 49151 ≤ p.dynamicLast ∧ p.dynamicLast < 65536

/-- What `allocateDynamicPort` does when it returns. -/
structure Allocated (p : Ports) (port : ℕ) (p' : Ports) : Prop where
  inRange : p'.InRange
  none : port = 0 → p'.words = p.words
  some : port ≠ 0 → port < 65536 ∧ bitAt p.words port = false ∧
    ∀ j, bitAt p'.words j = if j = port then true else bitAt p.words j

/-- The loop stops at the first clear bit, or behind the bitmap when there is none. -/
theorem dynamicLoop_cases {n ii ib : ℕ} (hib : ib < 32) (hii : ii ≤ 2048) (hn : 2048 < n + ii) :
    (∃ port, 32 * ii + ib ≤ port ∧ port < 65536 ∧ bitAt p.words port = false ∧
      p.dynamicLoop n ii ib = .ok (port, { p.put port true with dynamicLast := port })) ∨
    (∀ port, 32 * ii + ib ≤ port → port < 65536 → bitAt p.words port) ∧
      p.dynamicLoop n ii ib = .error .outOfBounds := by
  induction n generalizing ii ib with
  | zero => omega
  | succ n ih =>
    rw [dynamicLoop]
    cases hw : p.words[ii]? with
    | none =>
      have hl := p.size ▸ getElem?_eq_none_iff.mp hw
      exact .inr ⟨fun port _ _ => by omega, rfl⟩
    | some word =>
      have ht : ii < 2048 := p.size ▸ (List.getElem?_eq_some_iff.mp hw).1
      have hi {b : ℕ} (hb : b < 32) : bitAt p.words (32 * ii + b) = word.getLsbD b := by
        have hd : (32 * ii + b) / 32 = ii := by omega
        have hm : (32 * ii + b) % 32 = b := by omega
        rw [bitAt_of_getElem? (hd.symm ▸ hw), hm]
      dsimp only
      cases hf : firstClear word ib with
      | some b =>
        obtain ⟨hb, hl, hc⟩ := firstClear_eq_some hf
        refine .inl ⟨32 * ii + b, by omega, by omega, (hi hb).trans hc, ?_⟩
        dsimp only
        rw [Nat.mul_comm ii, Nat.mod_eq_of_lt (by omega)]
      | none =>
        rw [if_neg (by omega)]
        -- the bits of this word are set, and those of the words behind it are for the next round
        have hs (port : ℕ) (hl : 32 * ii + ib ≤ port) (hp : port < 32 * (ii + 1)) :
            bitAt p.words port := by
          have ho := find?_eq_none.mp hf (port - 32 * ii) (mem_range.mpr (by omega))
          rw [show port = 32 * ii + (port - 32 * ii) by omega, hi (by omega)]
          simpa [show ib ≤ port - 32 * ii by omega] using ho
        obtain ⟨port, hl, hp, hc, he⟩ | ⟨ha, he⟩ :=
          ih (by decide : 0 < 32) (by omega : ii + 1 ≤ 2048) (by omega)
        · exact .inl ⟨port, by omega, hp, hc, he⟩
        · refine .inr ⟨fun port hl hp => ?_, he⟩
          by_cases hin : port < 32 * (ii + 1)
          · exact hs port hl hin
          · exact ha port (by omega) hp

/-- The port that `allocateDynamicPort` looks at first. -/
def firstTried (p : Ports) : ℕ :=
  if (p.dynamicLast + 1) % 65536 = 0 then 49152 else (p.dynamicLast + 1) % 65536

section

variable (hra : p.InRange)
include hra

theorem firstTried_bounds : 49152 ≤ p.firstTried ∧ p.firstTried < 65536 := by
  obtain ⟨hl, hh⟩ := hra
  rw [firstTried]
  split_ifs <;> omega

theorem allocateDynamicPort_cases :
    (∃ port, p.firstTried ≤ port ∧ port < 65536 ∧ bitAt p.words port = false ∧
      p.allocateDynamicPort = .ok (port, { p.put port true with dynamicLast := port })) ∨
    (∀ port, p.firstTried ≤ port → port < 65536 → bitAt p.words port) ∧
      p.allocateDynamicPort = .error .outOfBounds := by
  obtain ⟨hl, hh⟩ := firstTried_bounds hra
  have hc := dynamicLoop_cases (p := { p with dynamicLast := p.firstTried }) (n := 16385)
    (Nat.mod_lt p.firstTried (by decide : 0 < 32)) (by omega : p.firstTried / 32 ≤ 2048) (by omega)
  rw [Nat.div_add_mod] at hc
  exact hc

theorem allocateDynamicPort_spec (h : p.allocateDynamicPort = .ok (port, p')) :
    Allocated p port p' := by
  have ho := (firstTried_bounds hra).1
  obtain ⟨q, hle, hl, hc, he⟩ | ⟨-, he⟩ := allocateDynamicPort_cases hra
  · obtain ⟨rfl, rfl⟩ := Prod.mk.inj (Except.ok.inj (he.symm.trans h))
    refine ⟨⟨by dsimp only; omega, hl⟩, fun hz => by omega, fun _ => ⟨hl, hc, ?_⟩⟩
    exact bitAt_put hl true
  · cases he.symm.trans h

end

/-- What `allocateDynamicPort` is for: it takes a dynamic port that is free, and 0 stands for none. -/
def Allocates (p : Ports) : Prop :=
  ∃ port p', p.allocateDynamicPort = .ok (port, p') ∧
    (port = 0 ∧ p'.words = p.words ∧
        (∀ q, 49152 ≤ q → q < 65536 → bitAt p.words q) ∨
      49152 ≤ port ∧ port < 65536 ∧ bitAt p.words port = false ∧
        ∀ j, bitAt p'.words j = if j = port then true else bitAt p.words j)

/-- **Dynamic ports** are handed out as long as one is free from the first tried on. -/
theorem allocates_iff (hra : p.InRange) :
    p.Allocates ↔ ∃ port, p.firstTried ≤ port ∧ port < 65536 ∧ bitAt p.words port = false := by
  have hlow := (firstTried_bounds hra).1
  constructor
  · rintro ⟨port, p', hall, -⟩
    obtain ⟨q, hle, hlt, hcl, -⟩ | ⟨-, heq⟩ := allocateDynamicPort_cases hra
    · exact ⟨q, hle, hlt, hcl⟩
    · cases heq.symm.trans hall
  · rintro ⟨port, hle, hlt, hcl⟩
    obtain ⟨q, hle', hlt', hcl', heq⟩ | ⟨hall, -⟩ := allocateDynamicPort_cases hra
    · exact ⟨q, _, heq, .inr ⟨by omega, hlt', hcl', bitAt_put hlt' true⟩⟩
    · rw [hall port hle hlt] at hcl
      cases hcl

theorem allocates_iff_empty : ({} : Ports).InRange ∧ ({} : Ports).Allocates := by
  have hra : ({} : Ports).InRange := ⟨le_rfl, by decide⟩
  exact ⟨hra, (allocates_iff hra).mpr ⟨49152, by decide, by decide, by decide +kernel⟩⟩

theorem not_allocates_last : ∃ p : Ports, p.InRange ∧ bitAt p.words 49152 = false ∧
    p.allocateDynamicPort.toOption.isNone :=
  ⟨{ words := replicate 1536 0#32 ++ 0xFFFFFFFE#32 :: replicate 511 (BitVec.allOnes 32)
     dynamicLast := 65534
     size := by rw [length_append, length_cons, length_replicate, length_replicate] },
    ⟨by decide, by decide⟩, by decide +kernel, by decide +kernel⟩

end Ports

/-! ## Sockets -/

/-- What ports are about, of a `TCPSocket`. -/
structure PortSocket where
  /-- `source_port`. -/
  port : ℕ
  listening : Bool := false
  deriving DecidableEq, Repr

/-- The ports and the sockets that exist. -/
structure PortTable (ι : Type) where
  ports : Ports := {}
  sockets : ι → Option PortSocket := fun _ => none

/-- What can happen to sockets. -/
inductive PortCall (ι : Type)
  /-- `TCPProtocol::createSocket` makes a socket. -/
  | createSocket (i : ι)
  | bind (i : ι) (port : Fin 65536)
  | listen (i : ι)
  | accepted (parent i : ι)
  /-- `~TCPSocket()`. -/
  | destroy (i : ι)

namespace PortTable

variable {ι : Type} [DecidableEq ι]

def setSocket (s : PortTable ι) (i : ι) (socket : Option PortSocket) : PortTable ι :=
  { s with sockets := Function.update s.sockets i socket }

/-- The table after a call. A new socket takes a name that no other has. -/
def step (s : PortTable ι) : PortCall ι → Except Fault (PortTable ι)
  | .createSocket i =>
    match s.sockets i with
    | some _ => .ok s
    | none => do
      let (port, ports) ← s.ports.allocateDynamicPort
      if port = 0 then return { s with ports := ports }
      else return { s.setSocket i (some { port := port }) with ports := ports }
  | .bind i port =>
    match s.sockets i with
    | some socket => .ok (s.setSocket i (some { socket with port := port }))
    | none => .ok s
  | .listen i =>
    match s.sockets i with
    | some socket => .ok (s.setSocket i (some { socket with listening := true }))
    | none => .ok s
  | .accepted parent i =>
    match s.sockets parent, s.sockets i with
    | some socket, none =>
      .ok (if socket.listening then s.setSocket i (some { port := socket.port }) else s)
    | _, _ => .ok s
  | .destroy i =>
    match s.sockets i with
    | some socket => .ok { s.setSocket i none with
        ports := if socket.port ≠ 0 then s.ports.freePort socket.port else s.ports }
    | none => .ok s

/-- Sockets are bound to the port that they have, and destroyed when no other has their port. -/
def Sole (s : PortTable ι) : PortCall ι → Prop
  | .bind i port => ∀ socket ∈ s.sockets i, (port : ℕ) = socket.port
  | .destroy i => ∀ j, j ≠ i → ∀ socket ∈ s.sockets i, ∀ other ∈ s.sockets j,
      other.port ≠ socket.port
  | _ => True

instance [Fintype ι] (s : PortTable ι) (call : PortCall ι) : Decidable (s.Sole call) :=
  match call with
  | .bind i port => inferInstanceAs (Decidable (∀ socket ∈ s.sockets i, (port : ℕ) = socket.port))
  | .destroy i => inferInstanceAs (Decidable (∀ j, j ≠ i → ∀ socket ∈ s.sockets i,
      ∀ other ∈ s.sockets j, other.port ≠ socket.port))
  | .createSocket _ | .listen _ | .accepted .. => .isTrue trivial

def InUse (s : PortTable ι) (port : ℕ) : Prop := ∃ i, ∃ socket ∈ s.sockets i, socket.port = port

/-- The bitmap is right: a bit is set when a socket has the port, and ports are handed out when no
socket has them. -/
structure Law (s : PortTable ι) : Prop where
  bit : ∀ port < 65536, bitAt s.ports.words port = true ↔ s.InUse port
  allocatePort : ∀ port < 65536, (s.ports.allocatePort port).1 = true ↔ ¬ s.InUse port
  allocateDynamicPort : ∀ port ports, s.ports.allocateDynamicPort = .ok (port, ports) → port ≠ 0 →
    ¬ s.InUse port

/-- What runs preserve. -/
structure Sound (s : PortTable ι) : Prop where
  inRange : s.ports.InRange
  bit : ∀ port < 65536, bitAt s.ports.words port = true ↔ s.InUse port
  port : ∀ i, ∀ socket ∈ s.sockets i, socket.port < 65536 ∧ socket.port ≠ 0

variable {s s' : PortTable ι} {i : ι}

omit [DecidableEq ι] in
theorem Sound.law (h : Sound s) : Law s where
  bit := h.bit
  allocatePort port hp := by
    rw [← h.bit port hp, Ports.allocatePort]
    split_ifs with hb
    · simp [hb]
    · simp [hb]
  allocateDynamicPort port ports ha hp := by
    obtain ⟨hl, hc, -⟩ := (Ports.allocateDynamicPort_spec h.inRange ha).some hp
    rw [← h.bit port hl, hc]
    exact Bool.false_ne_true

theorem inUse_setSocket (o : Option PortSocket) (ports : Ports) (port : ℕ) :
    InUse { s.setSocket i o with ports := ports } port ↔ (∃ socket ∈ o, socket.port = port) ∨
      ∃ j ≠ i, ∃ other ∈ s.sockets j, other.port = port := by
  constructor
  · rintro ⟨j, other, ho, rfl⟩
    change update s.sockets i o j = _ at ho
    by_cases hj : j = i
    · rw [hj, update_self] at ho
      exact .inl ⟨other, ho, rfl⟩
    · rw [update_of_ne hj] at ho
      exact .inr ⟨j, hj, other, ho, rfl⟩
  rintro (⟨socket, hs, rfl⟩ | ⟨j, hj, other, ho, rfl⟩)
  · exact ⟨i, socket, (update_self ..).trans hs, rfl⟩
  · exact ⟨j, other, (update_of_ne hj ..).trans ho, rfl⟩

theorem inUse_iff (i : ι) (port : ℕ) : s.InUse port ↔
    (∃ socket ∈ s.sockets i, socket.port = port) ∨
      ∃ j ≠ i, ∃ other ∈ s.sockets j, other.port = port := by
  rw [← inUse_setSocket (s.sockets i) s.ports, setSocket, update_eq_self]

variable {socket new : PortSocket}

section

variable (h : Sound s)
include h

theorem port_setSocket (ports : Ports) (hs : socket.port < 65536 ∧ socket.port ≠ 0) :
    ∀ j, ∀ other ∈ ({ s.setSocket i (some socket) with ports := ports } : PortTable ι).sockets j,
      other.port < 65536 ∧ other.port ≠ 0 := by
  intro j other ho
  change update s.sockets i (some socket) j = _ at ho
  by_cases hj : j = i
  · subst hj
    rw [update_self] at ho
    exact Option.some.inj ho ▸ hs
  · rw [update_of_ne hj] at ho
    exact h.port j other ho

theorem Sound.keepPort (hs : s.sockets i = some socket) (hp : new.port = socket.port) :
    Sound (s.setSocket i (some new)) where
  inRange := h.inRange
  bit port hl := by
    refine (h.bit port hl).trans (Iff.trans ?_ (inUse_setSocket _ s.ports port).symm)
    simp [inUse_iff i, hs, hp]
  port := port_setSocket h s.ports (hp ▸ h.port i socket hs)

theorem Sound.createSocket (hn : s.sockets i = none) {port : ℕ} {ports : Ports}
    (hl : s.ports.allocateDynamicPort = .ok (port, ports)) (ho : port ≠ 0) :
    Sound { s.setSocket i (some { port := port }) with ports := ports } := by
  have ha := Ports.allocateDynamicPort_spec h.inRange hl
  obtain ⟨ht, -, hb⟩ := ha.some ho
  refine ⟨ha.inRange, fun q hq => ?_, port_setSocket h ports ⟨ht, ho⟩⟩
  have hu := (h.bit q hq).trans (inUse_iff i q)
  rw [inUse_setSocket, hb q]
  by_cases hp : q = port
  · simp [hp]
  · simp [hp, Ne.symm hp, hu, hn]

theorem Sound.accepted {parent : ι} (hp : s.sockets parent = some socket)
    (hn : s.sockets i = none) : Sound (s.setSocket i (some { port := socket.port })) := by
  refine ⟨h.inRange, fun q hq => ?_, port_setSocket h s.ports (h.port parent socket hp)⟩
  refine (h.bit q hq).trans (Iff.trans ?_ (inUse_setSocket _ s.ports q).symm)
  rw [inUse_iff i, hn]
  refine ⟨fun ho => .inr (ho.resolve_left nofun), ?_⟩
  rintro (⟨_, ⟨⟩, rfl⟩ | ht)
  · exact .inr ⟨parent, fun he => by simp [he, hn] at hp, socket, hp, rfl⟩
  · exact .inr ht

theorem Sound.destroy (hso : s.sockets i = some socket)
    (hs : ∀ j, j ≠ i → ∀ other ∈ s.sockets j, other.port ≠ socket.port) :
    Sound { s.setSocket i none with ports := s.ports.freePort socket.port } := by
  refine ⟨h.inRange, fun q hq => ?_, fun j other ho => ?_⟩
  · have hu := (h.bit q hq).trans (inUse_iff i q)
    rw [inUse_setSocket]
    change bitAt (s.ports.put socket.port false).words q = true ↔ _
    rw [Ports.bitAt_put (h.port i socket hso).1]
    by_cases hp : q = socket.port
    · rw [if_pos hp]
      refine iff_of_false Bool.false_ne_true (not_or.mpr ⟨nofun, ?_⟩)
      rintro ⟨j, hj, other, ho, rfl⟩
      exact hs j hj other ho hp
    · simp [hp, Ne.symm hp, hu, hso]
  · change update s.sockets i none j = _ at ho
    by_cases hj : j = i
    · rw [hj, update_self] at ho
      cases ho
    · exact h.port j other ((update_of_ne hj ..).symm.trans ho)

theorem Sound.step {call : PortCall ι} (hl : s.Sole call) (hs : s.step call = .ok s') :
    Sound s' := by
  cases call with
  | createSocket i =>
    rw [PortTable.step] at hs
    split at hs
    · exact Except.ok.inj hs ▸ h
    next hn =>
    obtain ⟨⟨port, ports⟩, hall, hs'⟩ := bind_eq_ok.mp hs
    dsimp only at hs'
    split_ifs at hs' with hz
    · have ha := Ports.allocateDynamicPort_spec h.inRange hall
      refine Except.ok.inj hs' ▸ ⟨ha.inRange, fun q hq => ?_, h.port⟩
      rw [ha.none hz]
      exact h.bit q hq
    · exact Except.ok.inj hs' ▸ h.createSocket hn hall hz
  | bind i port =>
    rw [PortTable.step] at hs
    split at hs
    · next socket ho =>
      exact Except.ok.inj hs ▸ h.keepPort ho (hl socket ho)
    · exact Except.ok.inj hs ▸ h
  | listen i =>
    rw [PortTable.step] at hs
    split at hs
    · next socket ho => exact Except.ok.inj hs ▸ h.keepPort ho rfl
    · exact Except.ok.inj hs ▸ h
  | accepted parent i =>
    rw [PortTable.step] at hs
    split at hs
    · next socket hp hn =>
      split_ifs at hs
      · exact Except.ok.inj hs ▸ h.accepted hp hn
      · exact Except.ok.inj hs ▸ h
    · exact Except.ok.inj hs ▸ h
  | destroy i =>
    rw [PortTable.step] at hs
    split at hs
    · next socket ho =>
      rw [if_pos (h.port i socket ho).2] at hs
      exact Except.ok.inj hs ▸ h.destroy ho fun j hj => hl j hj socket ho
    · exact Except.ok.inj hs ▸ h

end

omit [DecidableEq ι] in
theorem sound_empty : Sound ({} : PortTable ι) where
  inRange := ⟨le_rfl, by change (49151 : ℕ) < 65536; omega⟩
  bit port hp := by
    rw [Ports.bitAt_empty]
    refine iff_of_false Bool.false_ne_true ?_
    rintro ⟨i, socket, hs, -⟩
    cases hs
  port i socket hs := nomatch hs

end PortTable

end AexKernel.Net
