import AexKernel.Library.Refinement
import AexKernel.Net.TcpReceive

/-! # Listening sockets (`socket/inet/tcp.cpp`)

A listening socket keeps its half-open connections in `m_listen_queue`, the sockets that wait for
`accept` in `m_accept_queue` and the room that is left for them in `m_listen_backlog`. -/

namespace AexKernel.Net

open Library List TcpSocket
open TcpHeader (parse)

namespace TcpSocket

/-- The second part of `packetReceivedListen`, which a segment without a SYN begins with. -/
def listenEntry (s : TcpSocket) (src : IPv4Addr) (srcPort : BitVec 16) (buffer : List (BitVec 8)) :
    TcpSocket × Option TcpSocket :=
  match s.getListenEntry src srcPort with
  | none => (s, none)
  | some entry =>
    let h := TcpHeader.parse buffer
    let entry := { entry with block := readOptions entry.block buffer h.hdrLen }
    (s.setListenEntry entry).listenAck src srcPort entry h

theorem packetReceivedListen_eq (s : TcpSocket) (src : IPv4Addr) (port : BitVec 16)
    (buf : List (BitVec 8)) (now : ℕ) :
    s.packetReceivedListen src port buf now = let h := parse buf
      if hasFlag h.bitvalues tcpRst then (s, [], none)
      else
        let first :=
          if hasFlag h.bitvalues tcpSyn then s.listenSyn src port h now else (s, [])
        let second := first.1.listenEntry src port buf
        (second.1, first.2, second.2) := by
  rw [packetReceivedListen]
  dsimp only
  generalize (if hasFlag (parse buf).bitvalues tcpSyn then
    s.listenSyn src port (parse buf) now else (s, [])) = first
  obtain ⟨s1, sent⟩ := first
  rw [listenEntry]
  cases s1.getListenEntry src port <;> rfl

/-- A pass of the loop of `accept`. -/
def acceptPass (s : TcpSocket) : TcpSocket × Option TcpListenEntry :=
  match s.acceptQueue with
  | some (entry :: rest) =>
    ({ s with acceptQueue := some rest, listenBacklog := s.listenBacklog + 1 }, some entry)
  | _ => (s, none)

end TcpSocket

/-! ## Listeners -/

/-- A segment from a peer. -/
structure PeerSegment where
  src : IPv4Addr
  srcPort : BitVec 16
  buffer : List (BitVec 8)
  deriving DecidableEq

/-- A listening socket and the threads that use it. -/
structure Listener where
  socket : TcpSocket
  sending : List PeerSegment := []
  children : List TcpSocket := []
  /-- The sockets that `accept` has returned, named by their entries, oldest first. -/
  returned : List TcpListenEntry := []

/-- What happens to a listener. -/
inductive ListenCall
  /-- The first part of `packetReceivedListen`. -/
  | receive (seg : PeerSegment) (uptime : ℕ)
  | resume (seg : PeerSegment)
  | accept

namespace Listener

/-- The second part of `packetReceivedListen`. -/
def finish (l : Listener) (seg : PeerSegment) : Listener :=
  let (socket, spawned) := l.socket.listenEntry seg.src seg.srcPort seg.buffer
  { l with socket := socket, children := l.children ++ spawned.toList }

def step (l : Listener) : ListenCall → Except Fault Listener
  | .receive seg uptime =>
    let h := TcpHeader.parse seg.buffer
    if hasFlag h.bitvalues tcpRst then .ok l
    else if hasFlag h.bitvalues tcpSyn then
      let (socket, _) := l.socket.listenSyn seg.src seg.srcPort h uptime
      .ok { l with socket := socket, sending := l.sending ++ [seg] }
    else .ok (l.finish seg)
  | .resume seg => .ok ({ l with sending := l.sending.erase seg }.finish seg)
  | .accept =>
    let (socket, entry) := l.socket.acceptPass
    .ok { l with socket := socket, returned := l.returned ++ entry.toList }

end Listener

/-! ## Handshakes -/

/-- A handshake: its number, its peer and the acknowledgement that completes it. -/
structure Handshake where
  number : ℕ
  addr : IPv4Addr
  port : BitVec 16
  ack : BitVec 32
  deriving DecidableEq, Repr

/-- The handshakes of a listener. -/
structure Handshakes where
  opened : ℕ := 0
  half : List Handshake := []
  done : List Handshake := []
  accepted : ℕ := 0
  deriving DecidableEq, Repr

namespace Handshakes

def isWith (addr : IPv4Addr) (port : BitVec 16) (h : Handshake) : Bool :=
  h.addr == addr && h.port == port

/-- A SYN opens a handshake, unless one is half open with its peer. -/
def syn (t : Handshakes) (seg : PeerSegment) (uptime : ℕ) : Handshakes :=
  if t.half.any (isWith seg.src seg.srcPort) then t
  else { t with
    opened := t.opened + 1
    half := t.half ++ [⟨t.opened, seg.src, seg.srcPort, TcpSocket.initialSeq uptime + 1⟩] }

/-- An acknowledgement completes the handshake with its peer while fewer than `limit` sockets wait
for `accept`. -/
def acknowledge (limit : ℤ) (t : Handshakes) (seg : PeerSegment) : Handshakes :=
  match t.half.find? (isWith seg.src seg.srcPort) with
  | none => t
  | some handshake =>
    let h := TcpHeader.parse seg.buffer
    if hasFlag h.bitvalues tcpAck ∧ isAfterOrEqual h.ackNumber handshake.ack ∧
        (t.done.length : ℤ) - t.accepted < limit then
      { t with
        half := t.half.filter fun h => !isWith seg.src seg.srcPort h
        done := t.done ++ [handshake] }
    else t

def step (limit : ℤ) (t : Handshakes) : ListenCall → Handshakes
  | .receive seg uptime =>
    let h := TcpHeader.parse seg.buffer
    if hasFlag h.bitvalues tcpRst then t
    else if hasFlag h.bitvalues tcpSyn then t.syn seg uptime
    else t.acknowledge limit seg
  | .resume seg => t.acknowledge limit seg
  | .accept => if t.accepted < t.done.length then { t with accepted := t.accepted + 1 } else t

/-- What holds of the handshakes of every listener. -/
structure Sound (limit : ℤ) (t : Handshakes) : Prop where
  peers : (t.half.map fun h => (h.addr, h.port)).Nodup
  numbers : ((t.half ++ t.done).map Handshake.number).Nodup
  below : ∀ h ∈ t.half ++ t.done, h.number < t.opened
  accepted : t.accepted ≤ t.done.length
  room : (t.done.length : ℤ) - t.accepted ≤ limit

section

variable {limit : ℤ} {t : Handshakes} {seg : PeerSegment}

theorem isWith_iff {addr : IPv4Addr} {port : BitVec 16} {h : Handshake} :
    isWith addr port h = true ↔ (h.addr, h.port) = (addr, port) := by
  rw [isWith, Bool.and_eq_true, beq_iff_eq, beq_iff_eq, Prod.mk.injEq]

section

variable (h : t.Sound limit)
include h

theorem Sound.syn (seg : PeerSegment) (now : ℕ) : (t.syn seg now).Sound limit := by
  rw [Handshakes.syn]
  split_ifs with han
  · exact h
  have hn : ∀ a ∈ t.half, (a.addr, a.port) ≠ (seg.src, seg.srcPort) := fun a ha he =>
    han (any_eq_true.mpr ⟨a, ha, isWith_iff.mpr he⟩)
  have hpe : Perm ((t.half ++ [⟨t.opened, seg.src, seg.srcPort, initialSeq now + 1⟩]) ++ t.done)
      (⟨t.opened, seg.src, seg.srcPort, initialSeq now + 1⟩ :: (t.half ++ t.done)) := by
    rw [append_assoc]
    exact perm_middle
  refine ⟨?_, ?_, fun a ha => ?_, h.accepted, h.room⟩
  · rw [map_append, map_singleton]
    refine nodup_append.mpr ⟨h.peers, nodup_singleton _, fun p hp q hq he => ?_⟩
    obtain ⟨a, ha, rfl⟩ := mem_map.mp hp
    exact hn a ha (he.trans (mem_singleton.mp hq))
  · rw [(hpe.map _).nodup_iff, map_cons, nodup_cons]
    refine ⟨fun hm => ?_, h.numbers⟩
    obtain ⟨a, ha, he⟩ := mem_map.mp hm
    exact absurd he (h.below a ha).ne
  · obtain rfl | ha := mem_cons.mp (hpe.mem_iff.mp ha)
    · exact Nat.lt_succ_self _
    · exact (h.below a ha).trans (Nat.lt_succ_self _)

theorem Sound.acknowledge (seg : PeerSegment) : (t.acknowledge limit seg).Sound limit := by
  rw [Handshakes.acknowledge]
  split
  · exact h
  next handshake hf =>
    dsimp only
    split_ifs with hc
    · -- the handshake goes over from the half-open ones to the completed ones
      have he := mem_of_find?_eq_some hf
      have hw : isWith seg.src seg.srcPort handshake = true := find?_some hf
      have hu : Sublist ((t.half.filter fun a => !isWith seg.src seg.srcPort a) ++ [handshake])
          ((t.half.filter fun a => !isWith seg.src seg.srcPort a) ++
            t.half.filter (isWith seg.src seg.srcPort)) :=
        (singleton_sublist.mpr (mem_filter.mpr ⟨he, hw⟩)).append_left _
      have hp : Perm ((t.half.filter fun a => !isWith seg.src seg.srcPort a) ++
          t.half.filter (isWith seg.src seg.srcPort)) t.half :=
        perm_append_comm.trans (filter_append_perm _ _)
      have ho : Subperm
          ((t.half.filter fun a => !isWith seg.src seg.srcPort a) ++ (t.done ++ [handshake]))
          (t.half ++ t.done) := by
        have hco : Perm
            ((t.half.filter fun a => !isWith seg.src seg.srcPort a) ++ (t.done ++ [handshake]))
            (((t.half.filter fun a => !isWith seg.src seg.srcPort a) ++ [handshake]) ++ t.done) := by
          rw [append_assoc]
          exact perm_append_comm.append_left _
        exact hco.subperm.trans
          ((hu.append_right t.done).subperm.trans (hp.append_right t.done).subperm)
      refine ⟨h.peers.sublist (filter_sublist.map _), ?_, fun a ha => ?_, ?_, ?_⟩
      · obtain ⟨m, hm, hs⟩ := ho
        exact (hm.map _).nodup_iff.mp (h.numbers.sublist (hs.map _))
      · exact h.below a (ho.subset ha)
      · rw [length_append]
        exact h.accepted.trans (Nat.le_add_right _ _)
      · rw [length_append, length_singleton]
        push_cast
        omega
    · exact h

theorem Sound.step (call : ListenCall) : (t.step limit call).Sound limit := by
  cases call with
  | receive seg uptime =>
    simp only [Handshakes.step]
    split_ifs
    · exact h
    · exact h.syn seg uptime
    · exact h.acknowledge seg
  | resume seg => exact h.acknowledge seg
  | accept =>
    simp only [Handshakes.step]
    split_ifs with hl
    · refine ⟨h.peers, h.numbers, h.below, hl, ?_⟩
      have hr := h.room
      push_cast
      omega
    · exact h

end

end

end Handshakes

/-! ## Bookkeeping -/

/-- The peer of a half-open connection, with the acknowledgement that completes it. -/
def TcpListenEntry.key (e : TcpListenEntry) : IPv4Addr × BitVec 16 × BitVec 32 :=
  (e.sourceAddress, e.sourcePort, e.block.sndNxt)

@[inherit_doc TcpListenEntry.key]
def Handshake.key (h : Handshake) : IPv4Addr × BitVec 16 × BitVec 32 := (h.addr, h.port, h.ack)

/-- The peer of a handshake. -/
def TcpListenEntry.peer (e : TcpListenEntry) : IPv4Addr × BitVec 16 :=
  (e.sourceAddress, e.sourcePort)

@[inherit_doc TcpListenEntry.peer]
def Handshake.peer (h : Handshake) : IPv4Addr × BitVec 16 := (h.addr, h.port)

def TcpSocket.peer (s : TcpSocket) : IPv4Addr × BitVec 16 := (s.destinationAddress, s.destinationPort)

/-- The half-open connections of a queue are the half-open handshakes. -/
structure QueueOf (queue : List TcpListenEntry) (half : List Handshake) : Prop where
  keys : queue.map TcpListenEntry.key = half.map Handshake.key
  state : ∀ e ∈ queue, e.block.state = .synReceived

section Queue

variable {queue : List TcpListenEntry} {half : List Handshake}

theorem map_replaceF {α β : Type} {f : α → Option α} {g : α → β} {l : List α}
    (h : ∀ x ∈ l, ∀ y, f x = some y → g y = g x) : (l.replaceF f).map g = l.map g := by
  induction l with
  | nil => rfl
  | cons x rest ih =>
    rw [replaceF]
    cases hx : f x with
    | none => exact congrArg (g x :: ·) (ih fun y hy => h y (mem_cons_of_mem x hy))
    | some y => exact congrArg (· :: rest.map g) (h x mem_cons_self y hx)

section

variable (h : QueueOf queue half)
include h

theorem QueueOf.peers : queue.map TcpListenEntry.peer = half.map Handshake.peer := by
  have hk := congrArg (map fun k : IPv4Addr × BitVec 16 × BitVec 32 => (k.1, k.2.1)) h.keys
  rw [map_map, map_map] at hk
  exact hk

theorem QueueOf.find? (addr : IPv4Addr) (port : BitVec 16) :
    (queue.find? fun e => e.sourceAddress == addr && e.sourcePort == port).map TcpListenEntry.key =
      (half.find? (Handshakes.isWith addr port)).map Handshake.key := by
  have hf := congrArg (List.find? fun k => k.1 == addr && k.2.1 == port) h.keys
  rw [find?_map, find?_map] at hf
  exact hf

theorem QueueOf.filter (addr : IPv4Addr) (port : BitVec 16) :
    QueueOf (queue.filter fun e => e.sourceAddress != addr || e.sourcePort != port)
      (half.filter fun h => !Handshakes.isWith addr port h) := by
  refine ⟨?_, fun e he => h.state e (mem_of_mem_filter he)⟩
  have hf := congrArg (List.filter fun k => !(k.1 == addr && k.2.1 == port)) h.keys
  rw [filter_map, filter_map] at hf
  have hs : ∀ e : TcpListenEntry, (e.sourceAddress != addr || e.sourcePort != port) =
      !(e.sourceAddress == addr && e.sourcePort == port) := fun e => by
    rw [Bool.not_and, bne, bne]
  simp only [hs]
  exact hf

theorem QueueOf.setListenEntry (hp : (half.map Handshake.peer).Nodup) {entry : TcpListenEntry}
    (hn : entry ∈ queue) (mss : ℕ) :
    QueueOf (queue.replaceF fun e =>
      if e.sourceAddress == entry.sourceAddress && e.sourcePort == entry.sourcePort
      then some { entry with block := { entry.block with sndMss := mss } } else none) half := by
  have ho : (queue.map TcpListenEntry.peer).Nodup := h.peers ▸ hp
  refine ⟨(map_replaceF fun x hx y hy => ?_).trans h.keys, fun e he => ?_⟩
  · split_ifs at hy with hs
    cases hy
    rw [Bool.and_eq_true, beq_iff_eq, beq_iff_eq] at hs
    obtain rfl : x = entry :=
      inj_on_of_nodup_map ho hx hn (Prod.ext hs.1 hs.2)
    rfl
  obtain he | ⟨x, -, hx⟩ := mem_replaceF he
  · exact h.state e he
  split_ifs at hx
  cases hx
  exact h.state entry hn

end

end Queue

namespace Listener

/-- A listener does what its handshakes say. -/
structure Tracks (limit : ℤ) (l : Listener) (t : Handshakes) : Prop where
  sound : t.Sound limit
  queue : ∃ queue, l.socket.listenQueue = some queue ∧ QueueOf queue t.half
  waiting : ∃ waiting, l.socket.acceptQueue = some waiting ∧
    waiting.map TcpListenEntry.peer = (t.done.drop t.accepted).map Handshake.peer
  backlog : l.socket.listenBacklog = limit - ((t.done.length : ℤ) - t.accepted)
  returned : l.returned.map TcpListenEntry.peer = (t.done.take t.accepted).map Handshake.peer
  children : l.children.map TcpSocket.peer = t.done.map Handshake.peer

section

variable {limit : ℤ} {l : Listener} {t : Handshakes} {seg : PeerSegment}

theorem Tracks.sending (h : l.Tracks limit t) (sending : List PeerSegment) :
    { l with sending := sending }.Tracks limit t :=
  ⟨h.sound, h.queue, h.waiting, h.backlog, h.returned, h.children⟩

theorem Tracks.syn (h : l.Tracks limit t) (seg : PeerSegment) (hd : TcpHeader) (now : ℕ) :
    { l with socket := (l.socket.listenSyn seg.src seg.srcPort hd now).1 }.Tracks limit
      (t.syn seg now) := by
  obtain ⟨queue, hq, ho⟩ := h.queue
  have hf := ho.find? seg.src seg.srcPort
  have hs := h.sound.syn seg now
  rw [Handshakes.syn] at hs ⊢
  rw [listenSyn, getListenEntry, hq, Option.getD_some]
  cases hh : t.half.find? (Handshakes.isWith seg.src seg.srcPort) with
  | some handshake =>
    have hn : t.half.any (Handshakes.isWith seg.src seg.srcPort) = true :=
      any_eq_true.mpr ⟨handshake, mem_of_find?_eq_some hh, find?_some hh⟩
    rw [hh] at hf
    obtain ⟨entry, hen, -⟩ := Option.map_eq_some_iff.mp hf
    rw [if_pos hn, hen]
    exact h
  | none =>
    have hn : ¬ t.half.any (Handshakes.isWith seg.src seg.srcPort) = true := by
      rintro hn
      obtain ⟨a, ha, hw⟩ := any_eq_true.mp hn
      exact find?_eq_none.mp hh a ha hw
    rw [hh, Option.map_none, Option.map_eq_none_iff] at hf
    rw [if_neg hn] at hs ⊢
    rw [hf]
    refine ⟨hs, ⟨_, rfl, ?_, fun e he => ?_⟩, h.waiting, h.backlog, h.returned, h.children⟩
    · rw [map_append, map_append, ho.keys]
      rfl
    obtain he | he := mem_append.mp he
    · exact ho.state e he
    obtain rfl := mem_singleton.mp he
    rfl

theorem listenEntry_of_find? (seg : PeerSegment) {s : TcpSocket} {q waiting : List TcpListenEntry}
    {entry : TcpListenEntry} (hq : s.listenQueue = some q)
    (hw : s.acceptQueue = some waiting) (hs : entry.block.state = .synReceived)
    (hf : (q.find? fun e => e.sourceAddress == seg.src && e.sourcePort == seg.srcPort) =
      some entry) :
    ∃ mss, ∃ queue' : List TcpListenEntry, (queue' = q.replaceF fun e =>
        if e.sourceAddress == entry.sourceAddress && e.sourcePort == entry.sourcePort
        then some { entry with block := { entry.block with sndMss := mss } } else none) ∧
      s.listenEntry seg.src seg.srcPort seg.buffer =
        if hasFlag (parse seg.buffer).bitvalues tcpAck ∧
            isAfterOrEqual (parse seg.buffer).ackNumber entry.block.sndNxt ∧
            0 < s.listenBacklog then
          ({ s with
            listenQueue := some (queue'.filter fun e =>
              e.sourceAddress != seg.src || e.sourcePort != seg.srcPort)
            acceptQueue := some (waiting ++
              [{ entry with block := { entry.block with sndMss := mss, state := .established } }])
            listenBacklog := s.listenBacklog - 1 },
            some (s.ofListenEntry
              { entry with block := { entry.block with sndMss := mss, state := .established } }))
        else ({ s with listenQueue := some queue' }, none) := by
  obtain ⟨mss, hm, -⟩ :=
    readOptions_eq entry.block seg.buffer (parse seg.buffer).hdrLen
  refine ⟨mss, _, rfl, ?_⟩
  rw [listenEntry, getListenEntry, hq, Option.getD_some, hf]
  dsimp only
  rw [hm, setListenEntry, hq, Option.map_some, listenAck]
  rw [hs, hw]
  simp only [true_and, removeEntry, Option.map_some]
  rfl

section

variable (h : l.Tracks limit t)
include h

theorem Tracks.finish (seg : PeerSegment) :
    (l.finish seg).Tracks limit (t.acknowledge limit seg) := by
  obtain ⟨queue, hq, ho⟩ := h.queue
  obtain ⟨waiting, hw, hpe⟩ := h.waiting
  have hf := ho.find? seg.src seg.srcPort
  have hs := h.sound.acknowledge seg
  rw [Handshakes.acknowledge] at hs ⊢
  cases hh : t.half.find? (Handshakes.isWith seg.src seg.srcPort) with
  | none =>
    rw [hh, Option.map_none, Option.map_eq_none_iff] at hf
    rw [Listener.finish, listenEntry, getListenEntry, hq, Option.getD_some, hf]
    exact ⟨h.sound, ⟨queue, hq, ho⟩, h.waiting, h.backlog, h.returned,
      (congrArg (map _) (append_nil _)).trans h.children⟩
  | some handshake =>
    rw [hh] at hf hs
    obtain ⟨entry, he, hk⟩ := Option.map_eq_some_iff.mp hf
    have hm := mem_of_find?_eq_some he
    obtain ⟨mss, queue', hq', hl⟩ :=
      listenEntry_of_find? seg hq hw (ho.state entry hm) he
    have ho' : QueueOf queue' t.half := hq' ▸ ho.setListenEntry h.sound.peers hm mss
    have ha : entry.block.sndNxt = handshake.ack := congrArg (·.2.2) hk
    have hp : entry.peer = handshake.peer := congrArg (fun k => (k.1, k.2.1)) hk
    have hr : 0 < l.socket.listenBacklog ↔ (t.done.length : ℤ) - t.accepted < limit := by
      rw [h.backlog]
      omega
    rw [Listener.finish, hl]
    simp only [ha, hr] at hs ⊢
    split_ifs at hs ⊢ with hc
    · refine ⟨hs, ⟨_, rfl, ho'.filter seg.src seg.srcPort⟩, ⟨_, rfl, ?_⟩, ?_, ?_, ?_⟩
      · rw [map_append, hpe, drop_append_of_le_length h.sound.accepted, map_append]
        exact congrArg (_ ++ [·]) hp
      · rw [h.backlog, length_append, length_singleton]
        push_cast
        omega
      · rw [take_append_of_le_length h.sound.accepted]
        exact h.returned
      · rw [map_append, map_append, h.children]
        exact congrArg (_ ++ [·]) hp
    · exact ⟨hs, ⟨queue', rfl, ho'⟩, h.waiting, h.backlog, h.returned,
        (congrArg (map _) (append_nil _)).trans h.children⟩

theorem Tracks.accept :
    { l with
      socket := l.socket.acceptPass.1
      returned := l.returned ++ l.socket.acceptPass.2.toList }.Tracks limit (t.step limit .accept) := by
  obtain ⟨waiting, hw, hp⟩ := h.waiting
  have hs := h.sound.step .accept
  rw [Handshakes.step] at hs ⊢
  rw [acceptPass, hw]
  cases waiting with
  | nil =>
    have hn : t.done.drop t.accepted = [] := map_eq_nil_iff.mp hp.symm
    have hl : ¬ t.accepted < t.done.length := Nat.not_lt.mpr (drop_eq_nil_iff.mp hn)
    rw [if_neg hl]
    exact ⟨h.sound, h.queue, ⟨[], hw, hp⟩, h.backlog,
      (congrArg (map _) (append_nil _)).trans h.returned, h.children⟩
  | cons entry rest =>
    have hl : t.accepted < t.done.length := by
      by_contra hg
      rw [drop_of_length_le (Nat.not_lt.mp hg)] at hp
      cases hp
    rw [if_pos hl] at hs ⊢
    rw [drop_eq_getElem_cons hl, map_cons, map_cons, cons.injEq] at hp
    refine ⟨hs, h.queue, ⟨rest, rfl, hp.2⟩, ?_, ?_, h.children⟩
    · rw [h.backlog]
      push_cast
      omega
    rw [take_succ_eq_append_getElem hl, map_append, map_append, h.returned]
    exact congrArg (_ ++ [·]) hp.1

theorem Tracks.step {call : ListenCall} {l' : Listener} (hs : l.step call = .ok l') :
    l'.Tracks limit (t.step limit call) := by
  cases call with
  | receive seg uptime =>
    simp only [Listener.step, Handshakes.step] at hs ⊢
    split_ifs at hs ⊢ with hr hy
    · cases hs
      exact h
    · cases hs
      exact (h.syn seg _ uptime).sending _
    · cases hs
      exact h.finish seg
  | resume seg =>
    cases hs
    exact (h.sending _).finish seg
  | accept =>
    cases hs
    exact h.accept

end

end

/-- A thread comes back to a segment whose SYN-ACK it was sending. -/
def Allowed (state : Listener × Handshakes) : ListenCall → Prop
  | .resume seg => seg ∈ state.1.sending
  | _ => True

instance (state : Listener × Handshakes) : DecidablePred (Allowed state)
  | .resume seg => inferInstanceAs (Decidable (seg ∈ state.1.sending))
  | .receive .. => inferInstanceAs (Decidable True)
  | .accept => inferInstanceAs (Decidable True)

theorem Tracks.listen {s socket : TcpSocket} {n : ℤ} (h : s.listen n = .ok socket) :
    Tracks (max (min n 128) 0) { socket := socket } {} := by
  rw [TcpSocket.listen] at h
  split_ifs at h
  cases h
  refine ⟨⟨nodup_nil, nodup_nil, fun a ha => (nomatch ha), le_rfl, ?_⟩,
    ⟨[], rfl, rfl, fun e he => (nomatch he)⟩, ⟨[], rfl, rfl⟩, ?_, rfl, rfl⟩
  · show (0 : ℤ) - 0 ≤ _
    omega
  · show max (min n 128) 0 = max (min n 128) 0 - (0 - 0)
    omega

/-- **The bookkeeping of a listener.** In every state of a run the room that is left and the sockets
that wait make up the backlog, no peer has two half-open connections, and each completed handshake
has given one socket, which waits for `accept` or has been returned by it, in the order of the
completions. -/
theorem bookkeeping {s socket : TcpSocket} {backlog : ℤ} (hlisten : s.listen backlog = .ok socket)
    {l : Listener} {t : Handshakes}
    (hrun : Reach (alongside step (Handshakes.step (max (min backlog 128) 0))) Allowed
      ({ socket := socket }, {}) (l, t)) :
    ∃ queue waiting, l.socket.listenQueue = some queue ∧ l.socket.acceptQueue = some waiting ∧
      l.socket.listenBacklog + waiting.length = max (min backlog 128) 0 ∧
      0 ≤ l.socket.listenBacklog ∧ (queue.map TcpListenEntry.peer).Nodup ∧
      queue.map TcpListenEntry.peer = t.half.map Handshake.peer ∧
      (t.done.map Handshake.number).Nodup ∧
      l.children.map TcpSocket.peer = t.done.map Handshake.peer ∧
      (l.returned ++ waiting).map TcpListenEntry.peer = t.done.map Handshake.peer := by
  have h : l.Tracks (max (min backlog 128) 0) t := by
    refine hrun.alongside (R := Tracks (max (min backlog 128) 0)) (.listen hlisten) ?_
    intro l t call l' h _ hst
    exact h.step hst
  obtain ⟨queue, hqu, hof⟩ := h.queue
  obtain ⟨waiting, hwa, hpe⟩ := h.waiting
  have hlen : waiting.length = t.done.length - t.accepted := by
    rw [← length_map TcpListenEntry.peer, hpe, length_map, length_drop]
  have hac := h.sound.accepted
  have hro := h.sound.room
  have hba := h.backlog
  refine ⟨queue, waiting, hqu, hwa, by omega, by omega, hof.peers ▸ h.sound.peers, hof.peers,
    ?_, h.children, ?_⟩
  · have hnu := h.sound.numbers
    rw [map_append] at hnu
    exact (nodup_append.mp hnu).2.1
  · rw [map_append, h.returned, hpe, ← map_append, take_append_drop]

/-- A segment from port `port` of the host 10.0.0.1, with its flags and its acknowledgement. -/
def segmentFrom (port : BitVec 16) (flags : ℕ) (ack : BitVec 32) : PeerSegment where
  src := 0x0A000001
  srcPort := port
  buffer := TcpHeader.encode
    { sourcePort := port, destinationPort := 80, seqNumber := 7, ackNumber := ack
      bitvalues := (5 <<< 12) ||| flags, window := 1024, checksum := 0, urgentPointer := 0 }

theorem bookkeeping_twoPeers :
    ∃ socket, (TcpSocket.listen { deviceAddress := 0x0A000002, sourcePort := 80 } 1 = .ok socket) ∧
      ∃ state ∈ execute (alongside step (Handshakes.step 1)) Allowed ({ socket := socket }, {})
        [.receive (segmentFrom 1 tcpSyn 0) 0, .receive (segmentFrom 2 tcpSyn 0) 0,
          .resume (segmentFrom 2 tcpSyn 0), .receive (segmentFrom 2 tcpAck 2138) 0,
          .resume (segmentFrom 1 tcpSyn 0), .receive (segmentFrom 1 tcpAck 2138) 0, .accept,
          .receive (segmentFrom 1 tcpAck 2138) 0],
        state.2.done.map Handshake.port = [2, 1] ∧
          state.1.children.map TcpSocket.peer = state.2.done.map Handshake.peer := by
  have hli : listen { deviceAddress := 0x0A000002, sourcePort := 80 } 1 = .ok _ := rfl
  refine ⟨_, hli, exists_execute_and (by decide) fun state hs => ?_⟩
  obtain ⟨-, -, -, -, -, -, -, -, -, hch, -⟩ := bookkeeping hli hs
  exact hch

end Listener

end AexKernel.Net
