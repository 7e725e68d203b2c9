import AexKernel.Net.TcpSocket

/-! # What a segment does to a socket

The packets that `sendSegment` makes are seen through their header and payload
(`header_sendSegmentTo`, `payload_sendSegmentTo`), and each phase of `packetReceived` has a lemma
that says what it changes. -/

namespace AexKernel.Net

open Library Mem List TcpHeader Option Or

/-! ## Packets -/

def Packet.header (p : Packet) : TcpHeader := TcpHeader.parse p.buffer

def Packet.payload (p : Packet) : List (BitVec 8) := p.buffer.drop p.header.hdrLen

/-- The segments of this code. -/
structure Segment.WellFormed (seg : Segment) : Prop where
  headerLen : seg.headerLen = 20 ∨ seg.headerLen = 24 ∧ seg.data.length = 4
  flags_lt : seg.flags < 4096

def Segment.body (seg : Segment) : List (BitVec 8) := seg.data.drop (seg.headerLen - 20)

namespace TcpSocket

theorem getWindow_eq (s : TcpSocket) : s.getWindow = 8191 - s.rxBuffer.readAvailable := by
  rw [getWindow, tcpRxBufferSize, tcpProbeSlack]
  omega

theorem header_sendSegmentTo (s : TcpSocket) {seg : Segment} (hseg : seg.WellFormed)
    (addr : IPv4Addr) (port : BitVec 16) :
    ∃ sum, (s.sendSegmentTo seg addr port).header =
      { sourcePort := s.sourcePort
        destinationPort := port
        seqNumber := seg.seq
        ackNumber := seg.ack
        bitvalues := ((seg.headerLen / 4) <<< 12) ||| seg.flags
        window := s.getWindow
        checksum := sum
        urgentPointer := 0 } := by
  refine ⟨_, parse_encode _ _ ?_ ?_ (toChecksum_lt _) (Nat.zero_lt_succ _)⟩
  · refine bitvalues_lt ?_ hseg.flags_lt
    rcases hseg.headerLen with h | ⟨h, -⟩ <;> rw [h] <;> decide
  change s.getWindow < 65536
  rw [getWindow_eq]
  omega

section Packets

variable (s : TcpSocket) {seg : Segment} (hseg : seg.WellFormed) (addr : IPv4Addr)
  (port : BitVec 16)
include hseg

theorem seqNumber_sendSegmentTo : (s.sendSegmentTo seg addr port).header.seqNumber = seg.seq := by
  obtain ⟨sum, h⟩ := s.header_sendSegmentTo hseg addr port
  rw [h]

theorem ackNumber_sendSegmentTo : (s.sendSegmentTo seg addr port).header.ackNumber = seg.ack := by
  obtain ⟨sum, h⟩ := s.header_sendSegmentTo hseg addr port
  rw [h]

theorem window_sendSegmentTo : (s.sendSegmentTo seg addr port).header.window = s.getWindow := by
  obtain ⟨sum, h⟩ := s.header_sendSegmentTo hseg addr port
  rw [h]

theorem sourcePort_sendSegmentTo :
    (s.sendSegmentTo seg addr port).header.sourcePort = s.sourcePort := by
  obtain ⟨sum, h⟩ := s.header_sendSegmentTo hseg addr port
  rw [h]

theorem hasFlag_sendSegmentTo {flag : ℕ} (hf : flag < 4096) :
    hasFlag (s.sendSegmentTo seg addr port).header.bitvalues flag = hasFlag seg.flags flag := by
  obtain ⟨sum, h⟩ := s.header_sendSegmentTo hseg addr port
  rw [h]
  exact hasFlag_bitvalues hf

theorem payload_sendSegmentTo : (s.sendSegmentTo seg addr port).payload = seg.body := by
  obtain ⟨sum, h⟩ := s.header_sendSegmentTo hseg addr port
  have hl : (s.sendSegmentTo seg addr port).header.hdrLen = seg.headerLen := by
    rw [h, hdrLen, shiftRight_bitvalues hseg.flags_lt]
    rcases hseg.headerLen with h | ⟨h, -⟩ <;> rw [h]
  rw [Packet.payload, hl, sendSegmentTo, Segment.body]
  rcases hseg.headerLen with h | ⟨h, -⟩ <;> rw [h, drop_append, length_encode] <;>
    rw [drop_of_length_le (by simp), nil_append]

end Packets

/-! ## The phases -/

theorem readOptionsLoop_eq (buf : List (BitVec 8)) (hdrLen fuel : ℕ) (block : TcpBlock) (i : ℕ) :
    ∃ mss, readOptionsLoop buf hdrLen fuel block i = { block with sndMss := mss } ∧
      (mss = block.sndMss ∨ tcpMinMss ≤ mss) := by
  induction fuel generalizing block i with
  | zero => exact ⟨block.sndMss, rfl, inl rfl⟩
  | succ fuel ih =>
    rw [readOptionsLoop]
    split
    · split
      · exact ih _ _
      · exact ⟨block.sndMss, rfl, inl rfl⟩
      · obtain ⟨mss, he, hm⟩ := ih
          { block with sndMss := max (min (readBE buf (i + 2) 2) 1460) tcpMinMss }
          (i + max 2 (buf.getD (i + 1) 0#8).toNat)
        refine ⟨mss, he, inr ?_⟩
        rcases hm with rfl | hm
        · exact le_max_right _ _
        · exact hm
      · exact ih _ _
    · exact ⟨block.sndMss, rfl, inl rfl⟩

theorem readOptions_eq (block : TcpBlock) (buf : List (BitVec 8)) (hdrLen : ℕ) :
    ∃ mss, readOptions block buf hdrLen = { block with sndMss := mss } ∧
      (mss = block.sndMss ∨ tcpMinMss ≤ mss) :=
  readOptionsLoop_eq buf hdrLen hdrLen block 20

theorem ackScan_sublist (ackn : BitVec 32) (state : TcpState) (queue : List Segment) :
    (ackScan ackn state queue).2.1.Sublist queue := by
  induction queue generalizing state with
  | nil => exact List.Sublist.slnil
  | cons seg rest ih =>
    rw [ackScan]
    split_ifs
    · exact (ih _).cons _
    · exact List.Sublist.refl _
    · exact (ih _).cons _
    · exact (ih _).cons _
    · exact (ih _).cons _
    · exact (ih _).cons_cons _

/-! ## Listening -/

def entries (s : TcpSocket) : List TcpListenEntry := s.listenQueue.getD []

/-- What a segment does to a listener whose half-open connections satisfy `P`. -/
structure Listened (P : TcpListenEntry → Prop) (s : TcpSocket) (src : IPv4Addr)
    (srcPort : BitVec 16) (h : TcpHeader) (r : TcpSocket × List Packet × Option TcpSocket) :
    Prop where
  socket : ∃ queue accepted backlog, r.1 = { s with
    listenQueue := queue, acceptQueue := accepted, listenBacklog := backlog }
  entries : ∀ entry ∈ r.1.entries, P entry
  answers : ∀ p ∈ r.2.1, ∃ entry, P entry ∧ p = s.sendSegmentTo (synAck entry) src srcPort
  queue : s.listenQueue.isSome → r.1.listenQueue.isSome
  waiting : s.listenQueue.isSome → r.2.2 = none → s.entries ≠ [] ∨ r.2.1 ≠ [] → r.1.entries ≠ []
  spawned : ∀ child, r.2.2 = some child → hasFlag h.bitvalues tcpAck ∧ ∃ entry, P entry ∧
    child = s.ofListenEntry { entry with block := { entry.block with state := .established } }

theorem mem_replaceF {α : Type} {f : α → Option α} {l : List α} {x : α} (h : x ∈ l.replaceF f) :
    x ∈ l ∨ ∃ y ∈ l, f y = some x := by
  induction l with
  | nil => exact inl h
  | cons a l ih =>
    rw [replaceF] at h
    cases ha : f a with
    | none =>
      rw [ha] at h
      rcases mem_cons.mp h with rfl | hm
      · exact inl mem_cons_self
      · exact (ih hm).imp (mem_cons_of_mem a) fun ⟨y, hy, hf⟩ => ⟨y, .tail a hy, hf⟩
    | some b =>
      rw [ha] at h
      rcases mem_cons.mp h with rfl | hm
      · exact inr ⟨a, mem_cons_self, ha⟩
      · exact inl (.tail a hm)

variable {entry x : TcpListenEntry} {s a : TcpSocket}

theorem entries_map {f : List TcpListenEntry → List TcpListenEntry} (hf : f [] = []) :
    { s with listenQueue := s.listenQueue.map f }.entries = f s.entries := by
  unfold entries
  cases s.listenQueue with
  | none => exact hf.symm
  | some queue => rfl

theorem mem_entries_setListenEntry (h : x ∈ (s.setListenEntry entry).entries) :
    x = entry ∨ x ∈ s.entries := by
  rw [setListenEntry, entries_map rfl] at h
  rcases mem_replaceF h with hm | ⟨y, -, hy⟩
  · exact inr hm
  split at hy
  · exact inl (Option.some.inj hy).symm
  · cases hy

variable {port : BitVec 16} {addr : IPv4Addr}

theorem mem_entries_removeEntry (h : x ∈ (s.removeEntry addr port).entries) : x ∈ s.entries := by
  rw [removeEntry, entries_map rfl] at h
  exact (mem_filter.mp h).1

theorem entries_setListenEntry_ne_nil (e : TcpListenEntry) (h : s.entries ≠ []) :
    (s.setListenEntry e).entries ≠ [] := by
  rw [setListenEntry, entries_map rfl]
  refine fun hn => h (length_eq_zero_iff.mp ?_)
  exact (length_replaceF).symm.trans (congrArg length hn)

theorem mem_of_getListenEntry (h : s.getListenEntry addr port = some entry) : entry ∈ s.entries :=
  mem_of_find?_eq_some h

section Rule

variable {P : TcpListenEntry → Prop} (src : IPv4Addr) (srcPort : BitVec 16)

theorem notSpawned {Q : TcpSocket → Prop} : ∀ child, none = some child → Q child :=
  fun child h => absurd h.symm (some_ne_none child)

theorem Listened.same {h : TcpHeader} (hold : ∀ entry ∈ s.entries, P entry) :
    Listened P s src srcPort h (s, [], none) :=
  ⟨⟨_, _, _, rfl⟩, hold, forall_mem_nil _, id, fun _ _ ho => ho.resolve_right fun h => h rfl,
    notSpawned⟩

theorem listened_listenSyn {h : TcpHeader} {uptime : ℕ} (hold : ∀ entry ∈ s.entries, P entry)
    (hn : s.getListenEntry src srcPort = none →
      P { sourceAddress := src, sourcePort := srcPort, block := halfOpen h uptime }) :
    Listened P s src srcPort h ((s.listenSyn src srcPort h uptime).1,
      (s.listenSyn src srcPort h uptime).2, none) := by
  rw [listenSyn]
  cases he : s.getListenEntry src srcPort with
  | some entry =>
    have hm := mem_of_getListenEntry he
    refine ⟨⟨_, _, _, rfl⟩, hold, fun p hp => ?_, id, fun _ _ _ => ne_nil_of_mem hm, notSpawned⟩
    exact ⟨entry, hold entry hm, mem_singleton.mp hp⟩
  | none =>
    refine ⟨⟨_, _, _, rfl⟩, fun entry hm => ?_, fun p hp => ?_, fun hq => ?_,
      fun hq _ _ => ?_, notSpawned⟩
    · rw [entries] at hm
      cases hq : s.listenQueue with
      | none =>
        rw [hq] at hm
        cases hm
      | some queue =>
        rw [hq] at hm
        rcases mem_append.mp hm with hm | hm
        · exact hold entry (by rw [entries, hq]; exact hm)
        rw [mem_singleton.mp hm]
        exact hn he
    · exact ⟨_, hn he, mem_singleton.mp hp⟩
    · rwa [isSome_map]
    · obtain ⟨queue, hq⟩ := isSome_iff_exists.mp hq
      rw [entries, hq]
      exact append_ne_nil_of_right_ne_nil queue (cons_ne_nil _ _)

theorem listened_listenAck (h : TcpHeader) (hold : ∀ entry ∈ s.entries, P entry) (he : P entry) :
    Listened P s src srcPort h ((s.listenAck src srcPort entry h).1, [],
      (s.listenAck src srcPort entry h).2) := by
  rw [listenAck]
  split
  · next hd =>
    refine ⟨⟨_, _, _, rfl⟩, fun x hm => ?_, forall_mem_nil _, fun hq => ?_,
      fun _ hn => absurd hn (some_ne_none _), fun child hc => ?_⟩
    · change x ∈ (s.removeEntry src srcPort).entries at hm
      exact hold x (mem_entries_removeEntry hm)
    · change (s.removeEntry src srcPort).listenQueue.isSome
      rwa [removeEntry, isSome_map]
    · exact ⟨hd.1, entry, he, (some.inj hc).symm⟩
  · exact .same src srcPort hold

theorem listened_packetReceivedListen (buf : List (BitVec 8)) (uptime : ℕ)
    (hold : ∀ entry ∈ s.entries, P entry)
    (hn : hasFlag (parse buf).bitvalues tcpSyn →
      s.getListenEntry src srcPort = none →
      P { sourceAddress := src, sourcePort := srcPort,
          block := halfOpen (parse buf) uptime })
    (hop : ∀ (entry : TcpListenEntry) mss,
      mss = entry.block.sndMss ∨ tcpMinMss ≤ mss → P entry →
      P { entry with block := { entry.block with sndMss := mss } }) :
    Listened P s src srcPort (parse buf)
      (s.packetReceivedListen src srcPort buf uptime) := by
  rw [packetReceivedListen]
  generalize parse buf = h at hn ⊢
  dsimp only
  split
  · exact .same src srcPort hold
  -- the socket and the answers after the SYN part
  · generalize hr : (if hasFlag h.bitvalues tcpSyn then s.listenSyn src srcPort h uptime
      else (s, [])) = r
    have hy : Listened P s src srcPort h (r.1, r.2, none) := by
      rw [← hr]
      split
      · next hf => exact listened_listenSyn src srcPort hold (hn hf)
      · exact .same src srcPort hold
    obtain ⟨⟨queue, accepted, backlog, ho⟩, hen, ha, hs, hw, -⟩ := hy
    split
    · exact ⟨⟨queue, accepted, backlog, ho⟩, hen, ha, hs, hw, notSpawned⟩
    next entry hi =>
    obtain ⟨mss, hm, hb⟩ := readOptions_eq entry.block buf h.hdrLen
    rw [hm]
    have he := hop entry mss hb (hen entry (mem_of_getListenEntry hi))
    have ht : ∀ x ∈ (r.1.setListenEntry
        { entry with block := { entry.block with sndMss := mss } }).entries, P x := fun x hx =>
      (mem_entries_setListenEntry hx).elim (fun heq => heq ▸ he) (hen x)
    have hs' (hq : s.listenQueue.isSome) : (r.1.setListenEntry
        { entry with block := { entry.block with sndMss := mss } }).listenQueue.isSome := by
      rw [setListenEntry, isSome_map]
      exact hs hq
    obtain ⟨⟨queue', accepted', backlog', ho'⟩, he', -, hk, hst, hp⟩ :=
      listened_listenAck src srcPort h ht he
    refine ⟨⟨queue', accepted', backlog', ?_⟩, he', ha,
      fun hq => hk (hs' hq), fun hq hno hs => hst (hs' hq) hno
        (inl (entries_setListenEntry_ne_nil _ (hw hq rfl hs))),
      fun child hc => ?_⟩
    · exact ho'.trans (by rw [setListenEntry]; dsimp only; rw [ho])
    obtain ⟨hf, x, hx, heq⟩ := hp child hc
    refine ⟨hf, x, hx, heq.trans ?_⟩
    rw [setListenEntry, ofListenEntry, ofListenEntry]
    rw [ho]

end Rule

/-! ## Segments of a connection without FIN -/

theorem ackScan_established (ackn : BitVec 32) {q : List Segment}
    (hf : ∀ seg ∈ q, ¬ hasFlag seg.flags tcpFin) :
    ∃ rest, ackScan ackn .established q = (.established, rest, false) := by
  induction q with
  | nil => exact ⟨[], rfl⟩
  | cons seg q ih =>
    obtain ⟨rest, ih⟩ := ih fun x hx => hf x (.tail _ hx)
    rw [ackScan, if_neg (hf seg mem_cons_self)]
    by_cases ha : isBeforeOrEqual seg.ackWith ackn
    · rw [if_pos ha, if_neg fun hs => absurd hs.2 (by decide), ih]
      exact ⟨rest, rfl⟩
    · rw [if_neg ha, ih]
      exact ⟨seg :: rest, rfl⟩

/-- The socket after the acknowledgement in a segment. -/
structure Acknowledged (s : TcpSocket) (h : TcpHeader) (a : TcpSocket) : Prop where
  shape : ∃ mss una wnd queue, a = { s with
    block := { s.block with sndMss := mss, sndUna := una, sndWnd := wnd }
    retransmissionQueue := queue }
  queue : a.retransmissionQueue.Sublist s.retransmissionQueue
  window : a.block.sndWnd = s.block.sndWnd ∨ hasFlag h.bitvalues tcpAck ∧
    isAfterOrEqual h.ackNumber s.block.sndUna ∧ a.block.sndWnd = h.window

theorem acknowledged_receiveOptions (s : TcpSocket) (h : TcpHeader) (buf : List (BitVec 8))
    (hdrLen : ℕ) : Acknowledged s h (s.receiveOptions buf hdrLen) := by
  obtain ⟨mss, he, -⟩ := readOptions_eq s.block buf hdrLen
  rw [receiveOptions, he]
  exact ⟨⟨_, _, _, _, rfl⟩, List.Sublist.refl _, inl rfl⟩

theorem updateWindow_eq (s : TcpSocket) (h : TcpHeader) : ∃ una wnd, s.updateWindow h =
    { s with block := { s.block with sndUna := una, sndWnd := wnd } } ∧
      (wnd = s.block.sndWnd ∨ isAfterOrEqual h.ackNumber s.block.sndUna ∧ wnd = h.window) := by
  rw [updateWindow]
  split
  · next ha => exact ⟨_, _, rfl, inr ⟨ha, rfl⟩⟩
  · exact ⟨_, _, rfl, inl rfl⟩

variable {h : TcpHeader}

theorem receiveAck_established (ht : s.block.state = .established)
    (hf : ∀ seg ∈ s.retransmissionQueue, ¬ hasFlag seg.flags tcpFin) :
    ∃ a, Acknowledged s h a ∧ s.receiveAck h = .goOn a [] := by
  rw [receiveAck]
  split_ifs with ha
  · obtain ⟨una, wnd, he, hn⟩ := s.updateWindow_eq h
    obtain ⟨rest, hc⟩ := ackScan_established h.ackNumber hf
    have hs := ackScan_sublist h.ackNumber .established s.retransmissionQueue
    rw [hc] at hs
    rw [← ht] at hc
    refine ⟨{ s with
      block := { s.block with sndUna := una, sndWnd := wnd }
      retransmissionQueue := rest }, ⟨⟨_, _, _, _, rfl⟩, hs, hn.imp id fun hw => ⟨ha, hw⟩⟩, ?_⟩
    rw [he]
    rw [if_neg (by rw [ht]; simp), hc]
    rfl
  · exact ⟨s, ⟨⟨_, _, _, _, rfl⟩, List.Sublist.refl _, inl rfl⟩, rfl⟩

/-- What a segment does to an established connection, when there is no FIN. -/
inductive Received (s : TcpSocket) (h : TcpHeader) (data : List (BitVec 8)) :
    TcpSocket × List Packet → Prop
  | reset {a : TcpSocket} {sent : List Packet} (ack : Acknowledged s h a)
      (told : ∀ p ∈ sent, p = a.reset.1.rst) : Received s h data (a.reset.1, sent)
  | nothing {a : TcpSocket} (ack : Acknowledged s h a) : Received s h data (a, [])
  | again {a : TcpSocket} (ack : Acknowledged s h a) (nonempty : data ≠ [])
      (old : isBeforeOrEqual (h.seqNumber + BitVec.ofNat 32 data.length) s.block.rcvNxt) :
      Received s h data (a, [a.ackManual (h.seqNumber + BitVec.ofNat 32 data.length)])
  | taken {a : TcpSocket} (ack : Acknowledged s h a) (nonempty : data ≠ [])
      (next : h.seqNumber = s.block.rcvNxt) (room : data.length ≤ s.rxBuffer.writeAvailable) :
      Received s h data (a.takeData data, [])

theorem mem_resetRst {p : Packet} (hp : p ∈ s.resetRst.2) : p = s.reset.1.rst := by
  rw [resetRst] at hp
  split at hp
  · exact mem_singleton.mp hp
  · exact absurd hp not_mem_nil

theorem receiveFin_of_not (hf : ¬ hasFlag h.bitvalues tcpFin) (seqn : BitVec 32) :
    s.receiveFin h seqn = s :=
  if_neg fun hn => hf hn.1

theorem received_receiveRest (ack : Acknowledged s h a) (hf : ¬ hasFlag h.bitvalues tcpFin)
    (data : List (BitVec 8)) : Received s h data (a.receiveRest h s.block.rcvNxt data) := by
  obtain ⟨⟨mss, una, wnd, queue, rfl⟩, -⟩ := id ack
  rw [receiveRest, receiveData]
  split_ifs with hd hs hr hold
  · dsimp only
    rw [receiveFin_of_not hf]
    exact .nothing ack
  · exact .reset ack fun p hp => mem_resetRst hp
  · dsimp only
    rw [receiveFin_of_not hf]
    exact .taken ack hd hs (not_lt.mp hr)
  · dsimp only
    rw [receiveFin_of_not hf]
    exact .again ack hd hold
  · dsimp only
    rw [receiveFin_of_not hf]
    exact .nothing ack

theorem received_of_established (hs : s.block.state = .established)
    (hq : ∀ seg ∈ s.retransmissionQueue, ¬ hasFlag seg.flags tcpFin) (buf : List (BitVec 8))
    (hf : ¬ hasFlag (parse buf).bitvalues tcpFin) :
    Received s (parse buf) (buf.drop (parse buf).hdrLen)
      (s.packetReceivedOpen buf) := by
  rw [packetReceivedOpen]
  generalize parse buf = h at hf ⊢
  generalize buf.drop h.hdrLen = data
  obtain ⟨mss, hop, -⟩ := readOptions_eq s.block buf h.hdrLen
  have ht : s.receiveOptions buf h.hdrLen =
      (s.withMss mss) := by rw [receiveOptions, hop]
  have ack := s.acknowledged_receiveOptions h buf h.hdrLen
  rw [ht] at ack ⊢
  split
  · rw [receiveRst]
    split_ifs
    · exact .reset ack (forall_mem_nil _)
    · exact .reset ack (forall_mem_nil _)
    · exact .nothing ack
  rw [receiveSegment, receiveSyn, if_neg fun hy => absurd (hs.symm.trans hy.2) (by decide)]
  obtain ⟨a, ha, he⟩ := receiveAck_established (h := h)
    (s := s.withMss mss) hs hq
  dsimp only
  rw [he]
  obtain ⟨⟨mss', una, wnd, queue, rfl⟩, hu, hw⟩ := ha
  exact received_receiveRest (s := s) ⟨⟨mss', una, wnd, queue, rfl⟩, hu, hw⟩ hf data

theorem packetReceivedOpen_synAck (ht : s.block.state = .synSent) {seg : Segment}
    (hq : s.retransmissionQueue = [seg]) (hl : seg.flags = tcpSyn)
    (hw : seg.ackWith = s.block.sndNxt) (buf : List (BitVec 8))
    (hr : ¬ hasFlag (parse buf).bitvalues tcpRst)
    (hs : hasFlag (parse buf).bitvalues tcpSyn)
    (hc : hasFlag (parse buf).bitvalues tcpAck)
    (hf : ¬ hasFlag (parse buf).bitvalues tcpFin)
    (ha : (parse buf).ackNumber = s.block.sndNxt)
    (hd : buf.drop (parse buf).hdrLen = []) :
    ∃ mss una wnd, s.packetReceivedOpen buf =
      ({ s with
          block := { s.block with
            state := .established, rcvNxt := (parse buf).seqNumber + 1,
            sndMss := mss, sndUna := una, sndWnd := wnd }
          retransmissionQueue := [] },
        [s.ackManual ((parse buf).seqNumber + 1)]) ∧
      (wnd = s.block.sndWnd ∨ wnd = (parse buf).window) := by
  rw [packetReceivedOpen, hd]
  generalize parse buf = h at *
  obtain ⟨mss, hop, -⟩ := readOptions_eq s.block buf h.hdrLen
  rw [if_neg hr, receiveOptions, hop, receiveSegment, receiveSyn, if_pos ⟨hs, ht⟩]
  dsimp only
  have hsc : ackScan h.ackNumber .synReceived s.retransmissionQueue =
      (.established, [], false) := by
    rw [hq, ackScan, hw, ha, if_pos (by rw [isBeforeOrEqual, if_pos rfl]), hl]
    rfl
  generalize hu : TcpSocket.mk .. = u
  obtain ⟨una, wnd, hp, hn⟩ := u.updateWindow_eq h
  rw [receiveAck, if_pos hc, hp]
  subst hu
  rw [if_neg fun ho => ho.2 ha, hsc]
  dsimp only
  rw [if_neg Bool.false_ne_true]
  dsimp only
  rw [receiveRest, receiveData, if_pos rfl]
  dsimp only
  rw [receiveFin_of_not hf]
  exact ⟨mss, una, wnd, rfl, hn.imp id And.right⟩

end TcpSocket
end AexKernel.Net
