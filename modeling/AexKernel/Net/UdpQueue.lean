import AexKernel.Library.LinkedQueue
import AexKernel.Library.Run
import AexKernel.Net.UdpSocket

/-! # The receive queue of a UDP socket

`packetReceived` makes a datagram on the heap and links it behind the last one, under the lock. -/

namespace AexKernel.Net

open Library List Function Prod

/-- The arguments of a `receiveFrom` call. -/
structure UdpReceive where
  len : ℕ
  wantsSource : Bool
  deriving DecidableEq, Repr

/-- What `receiveFrom` returns and writes. -/
structure UdpReceived where
  result : ℕ
  buffer : List (BitVec 8)
  source : Option (IPv4Addr × BitVec 16)
  deriving DecidableEq, Repr

/-- What `receiveFrom` makes of a datagram. -/
def Datagram.received (d : Datagram) (call : UdpReceive) : UdpReceived where
  result := d.buffer.length
  buffer := d.buffer.take (min d.buffer.length call.len)
  source := if call.wantsSource then some (d.sourceAddress, d.sourcePort) else none

/-- Where a thread is in `receiveFrom`. -/
inductive ReceivePlace (α : Type)
  | outside
  | loop (call : UdpReceive)
  /-- Behind `m_lock.release()`, with the address of the datagram; its number is a history variable.
-/
  | took (call : UdpReceive) (dgram : α) (number : ℕ)
  /-- In front of `Heap::free(dgram)`. -/
  | copied (call : UdpReceive) (dgram : α) (number : ℕ) (received : UdpReceived)
  deriving DecidableEq

namespace ReceivePlace

def held {α : Type} : ReceivePlace α → Option (α × ℕ)
  | outside | loop _ => none
  | took _ dgram number | copied _ dgram number _ => some (dgram, number)

end ReceivePlace

/-- A call of `receiveFrom` that has returned. -/
structure UdpReturn where
  number : ℕ
  call : UdpReceive
  received : UdpReceived
  deriving DecidableEq, Repr

/-- The queue of a `UDPSocket`, the datagrams on the heap and the threads. -/
structure UdpQueue (ι α : Type) where
  cells : α → Option (Cell α Datagram) := fun _ => none
  /-- `m_first_datagram`. -/
  first : Option α := none
  /-- `m_last_datagram`. -/
  last : Option α := none
  /-- `m_buffered_size`. -/
  bufferedSize : ℕ := 0
  /-- The datagram that a thread in `packetReceived` has made. -/
  sending : ι → Option (α × Datagram) := fun _ => none
  receiving : ι → ReceivePlace α := fun _ => .outside
  accepted : List Datagram := []
  taken : ℕ := 0
  returned : List UdpReturn := []

/-- A step of a thread. -/
inductive UdpAction (ι α : Type)
  /-- `packetReceived(src, src_port, buffer, len)` up to `m_lock.acquire()`; `dgram` is what
  `Heap::malloc` returns. -/
  | packetReceived (thread : ι) (dgram : α) (src : IPv4Addr) (srcPort : BitVec 16)
      (buffer : List (BitVec 8))
  | append (thread : ι)
  | receiveFrom (thread : ι) (call : UdpReceive)
  /-- A pass of the loop of `receiveFrom`, from `acquire` to `release`. -/
  | pass (thread : ι)
  | copy (thread : ι)
  | free (thread : ι)

namespace UdpQueue

variable {ι α : Type} [DecidableEq ι] [DecidableEq α]

/-- A thread in `receiveFrom` gets to another place. -/
def setPlace (s : UdpQueue ι α) (thread : ι) (place : ReceivePlace α) : UdpQueue ι α :=
  { s with receiving := Function.update s.receiving thread place }

/-- `packetReceived` up to the lock. -/
def packetReceived (s : UdpQueue ι α) (thread : ι) (dgram : α) (d : Datagram) : UdpQueue ι α :=
  if (s.sending thread).isSome ∨ (s.cells dgram).isSome then s
  else if s.bufferedSize + d.buffer.length > udpSocketBufferSize then s
  else { s with
    cells := Function.update s.cells dgram (some ⟨none, d⟩)
    sending := Function.update s.sending thread (some (dgram, d)) }

/-- `packetReceived` under the lock. -/
def append (s : UdpQueue ι α) (thread : ι) : Except Fault (UdpQueue ι α) :=
  match s.sending thread with
  | none => .ok s
  | some (dgram, d) =>
    let s := { s with
      sending := Function.update s.sending thread none
      accepted := s.accepted ++ [d] }
    match s.last with
    | some last =>
      match s.cells last with
      | none => .error .outOfBounds
      | some cell => .ok { s with
          cells := Function.update s.cells last (some { cell with next := some dgram })
          last := some dgram }
    | none => .ok { s with first := some dgram, last := some dgram }

/-- A pass of the loop of `receiveFrom`. A thread that finds nothing waits. -/
def pass (s : UdpQueue ι α) (thread : ι) : Except Fault (UdpQueue ι α) :=
  match s.receiving thread, s.first with
  | .loop call, some dgram =>
    match s.cells dgram with
    | none => .error .outOfBounds
    | some cell => .ok ({ s with
        first := cell.next
        last := if cell.next.isNone then none else s.last
        taken := s.taken + 1 }.setPlace thread (.took call dgram s.taken))
  | _, _ => .ok s

def copy (s : UdpQueue ι α) (thread : ι) : Except Fault (UdpQueue ι α) :=
  match s.receiving thread with
  | .took call dgram number =>
    match s.cells dgram with
    | none => .error .outOfBounds
    | some cell => .ok (s.setPlace thread (.copied call dgram number (cell.value.received call)))
  | _ => .ok s

def free (s : UdpQueue ι α) (thread : ι) : Except Fault (UdpQueue ι α) :=
  match s.receiving thread with
  | .copied call dgram number received =>
    if (s.cells dgram).isNone then .error (.kpanic "heap: free() sanity check failed")
    else .ok ({ s with
      cells := Function.update s.cells dgram none
      returned := s.returned ++ [UdpReturn.mk number call received] }.setPlace thread .outside)
  | _ => .ok s

def step (s : UdpQueue ι α) : UdpAction ι α → Except Fault (UdpQueue ι α)
  | .packetReceived thread dgram src srcPort buffer =>
    .ok (s.packetReceived thread dgram ⟨src, srcPort, buffer⟩)
  | .append thread => s.append thread
  | .receiveFrom thread call =>
    if s.receiving thread = .outside then .ok (s.setPlace thread (.loop call)) else .ok s
  | .pass thread => s.pass thread
  | .copy thread => s.copy thread
  | .free thread => s.free thread

def waiting (s : UdpQueue ι α) : List Datagram := s.accepted.drop s.taken

/-- The datagram with a number has been taken by a call that has not returned. -/
def Holds (s : UdpQueue ι α) (number : ℕ) : Prop :=
  ∃ thread dgram, (s.receiving thread).held = some (dgram, number)

/-- The queue is first in, first out. -/
structure Fifo (s : UdpQueue ι α) : Prop where
  linked : ∃ l, Library.Linked s.cells s.first l ∧ l.map Prod.snd = s.waiting ∧
    s.last = (l.map Prod.fst).getLast?
  null : s.last = none ↔ s.first = none
  returned : ∀ r ∈ s.returned, ∃ d, s.accepted[r.number]? = some d ∧ r.received = d.received r.call
  once : (s.returned.map UdpReturn.number).Nodup
  numbers : ∀ n, n < s.taken ↔ n ∈ s.returned.map UdpReturn.number ∨ s.Holds n
  apart : ∀ n, s.Holds n → n ∉ s.returned.map UdpReturn.number
  one : ∀ i j a b n, (s.receiving i).held = some (a, n) → (s.receiving j).held = some (b, n) → i = j
  next : ∀ i call, s.receiving i = .loop call → s.waiting ≠ [] →
    ∃ s' dgram, s.step (.pass i) = .ok s' ∧ s'.receiving i = .took call dgram s.taken
  steps : ∀ a, ∃ s', s.step a = .ok s'

/-! ## The invariant -/

/-- Who has an address. -/
inductive Owner (ι : Type)
  | queue
  | sender (thread : ι)
  | receiver (thread : ι)

/-- The addresses of an owner. -/
def Owns (s : UdpQueue ι α) (l : List (α × Datagram)) : Owner ι → α → Prop
  | .queue, a => a ∈ l.map Prod.fst
  | .sender thread, a => ∃ d, s.sending thread = some (a, d)
  | .receiver thread, a => ∃ n, (s.receiving thread).held = some (a, n)

/-- The addresses have one owner each, and the cells are what their owners take them for. -/
structure Memory (s : UdpQueue ι α) (l : List (α × Datagram)) : Prop where
  queue : Queue s.cells s.first s.last l
  values : l.map Prod.snd = s.waiting
  taken_le : s.taken ≤ s.accepted.length
  owner : ∀ o o' a, s.Owns l o a → s.Owns l o' a → o = o'
  sender : ∀ i a d, s.sending i = some (a, d) → s.cells a = some ⟨none, d⟩
  receiver : ∀ i a n, (s.receiving i).held = some (a, n) →
    ∃ next d, s.cells a = some ⟨next, d⟩ ∧ s.accepted[n]? = some d

/-- The numbers of the calls. -/
structure Numbers (s : UdpQueue ι α) : Prop where
  copied : ∀ i call a n r, s.receiving i = .copied call a n r →
    ∃ d, s.accepted[n]? = some d ∧ r = d.received call
  returned : ∀ r ∈ s.returned, ∃ d, s.accepted[r.number]? = some d ∧ r.received = d.received r.call
  once : (s.returned.map UdpReturn.number).Nodup
  numbers : ∀ n, n < s.taken ↔ n ∈ s.returned.map UdpReturn.number ∨ s.Holds n
  apart : ∀ n, s.Holds n → n ∉ s.returned.map UdpReturn.number
  one : ∀ i j a b n, (s.receiving i).held = some (a, n) → (s.receiving j).held = some (b, n) → i = j

section Steps

variable {s s' : UdpQueue ι α} {l l' : List (α × Datagram)} {a : α}

omit [DecidableEq ι] [DecidableEq α] in
theorem Memory.live (m : s.Memory l) {o : Owner ι} (ho : s.Owns l o a) : (s.cells a).isSome := by
  cases o with
  | queue =>
    obtain ⟨⟨b, d⟩, hm, rfl⟩ := mem_map.mp ho
    obtain ⟨next, hc⟩ := m.queue.linked.value_of_mem hm
    rw [hc]
    rfl
  | sender i =>
    obtain ⟨d, hd⟩ := ho
    rw [m.sender i a d hd]
    rfl
  | receiver i =>
    obtain ⟨n, hn⟩ := ho
    obtain ⟨next, d, hc, -⟩ := m.receiver i a n hn
    rw [hc]
    rfl

omit [DecidableEq ι] [DecidableEq α] in
theorem owner_of_moved (hold : ∀ o o' b, s.Owns l o b → s.Owns l o' b → o = o') (new : Owner ι)
    (hm : ∀ o b, s'.Owns l' o b → b = a ∧ o = new ∨ b ≠ a ∧ s.Owns l o b) :
    ∀ o o' b, s'.Owns l' o b → s'.Owns l' o' b → o = o' := by
  intro o o' b ho ho'
  rcases hm o b ho with ⟨hb, rfl⟩ | ⟨hb, hw⟩
  · rcases hm o' b ho' with ⟨-, rfl⟩ | ⟨hb', -⟩
    · rfl
    · exact absurd hb hb'
  · rcases hm o' b ho' with ⟨hb', -⟩ | ⟨-, hw'⟩
    · exact absurd hb' hb
    · exact hold o o' b hw hw'

theorem Memory.packetReceived (m : s.Memory l) (i : ι) (dgram : α) (d : Datagram) :
    (s.packetReceived i dgram d).Memory l := by
  rw [UdpQueue.packetReceived]
  split_ifs with hb hu
  · exact m
  · exact m
  obtain ⟨-, hf⟩ := not_or.mp hb
  have hn {o : Owner ι} {b : α} (ho : s.Owns l o b) : b ≠ dgram := by
    rintro rfl
    exact hf (m.live ho)
  refine ⟨m.queue.update (fun hm => hn (o := .queue) hm rfl) _, m.values, m.taken_le,
    owner_of_moved (a := dgram) m.owner (.sender i) fun o b ho => ?_, fun j b e hj => ?_,
    fun j b n hj => ?_⟩
  · cases o with
    | queue => exact .inr ⟨hn (o := .queue) ho, ho⟩
    | sender j =>
      obtain ⟨e, he⟩ := ho
      by_cases hi : j = i
      · rw [hi] at he ⊢
        dsimp only at he
        rw [update_self] at he
        exact .inl ⟨(Prod.mk.inj (Option.some.inj he)).1.symm, rfl⟩
      · dsimp only at he
        rw [update_of_ne hi] at he
        exact .inr ⟨hn (o := .sender j) ⟨e, he⟩, e, he⟩
    | receiver j => exact .inr ⟨hn (o := .receiver j) ho, ho⟩
  · dsimp only at hj ⊢
    by_cases hi : j = i
    · rw [hi, update_self] at hj
      cases hj
      exact update_self ..
    · rw [update_of_ne hi] at hj
      rw [update_of_ne (hn (o := .sender j) ⟨e, hj⟩)]
      exact m.sender j b e hj
  · dsimp only at hj ⊢
    rw [update_of_ne (hn (o := .receiver j) ⟨n, hj⟩)]
    exact m.receiver j b n hj

variable {i j : ι} {d : Datagram}

variable {dgram : α}

theorem Memory.append_eq (m : s.Memory l) (hi : s.sending i = some (dgram, d)) :
    ∃ cells first, s.append i = .ok { s with
        cells := cells
        first := first
        last := some dgram
        sending := update s.sending i none
        accepted := s.accepted ++ [d] } ∧
      Queue cells first (some dgram) (l ++ [(dgram, d)]) ∧
      ∀ b, b ∉ l.map fst → cells b = s.cells b := by
  have hn := m.sender i dgram d hi
  have hq := m.queue
  unfold append
  rw [hi]
  cases ha : s.last with
  | none =>
    rw [ha] at hq
    obtain ⟨rfl, hl⟩ := hq.link_empty hn
    exact ⟨s.cells, some dgram, rfl, hl, fun _ _ => rfl⟩
  | some x =>
    rw [ha] at hq
    have ho : dgram ∉ l.map fst := fun hm =>
      nomatch m.owner .queue (.sender i) dgram hm ⟨d, hi⟩
    obtain ⟨c, hc, hl⟩ := hq.link hn ho
    dsimp only
    rw [hc]
    refine ⟨_, s.first, rfl, hl, fun b hb => update_of_ne ?_ _ _⟩
    rintro rfl
    exact hb (mem_of_mem_getLast? hq.last.symm)

theorem Memory.append_datagrams (m : s.Memory l) (hi : s.sending i = some (dgram, d))
    (hf : d.buffer.length ≤ udpSocketBufferSize) (u : UdpSocket) : ∃ s', s.append i = .ok s' ∧
      { u with datagrams := s'.waiting } = UdpSocket.packetReceived { u with datagrams := s.waiting }
        d.sourceAddress d.sourcePort d.buffer := by
  obtain ⟨cells, first, he, -⟩ := m.append_eq hi
  have hr : ¬ UdpSocket.bufferedSize { u with datagrams := s.waiting } + d.buffer.length >
      udpSocketBufferSize := by
    rw [UdpSocket.bufferedSize, Nat.zero_add]
    exact hf.not_gt
  refine ⟨_, he, ?_⟩
  rw [UdpSocket.packetReceived, if_neg hr, waiting, waiting, drop_append_of_le_length m.taken_le]

theorem Memory.append (m : s.Memory l) (i : ι) : ∃ s' l', s.append i = .ok s' ∧ s'.Memory l' := by
  cases hi : s.sending i with
  | none =>
    unfold UdpQueue.append
    rw [hi]
    exact ⟨s, l, rfl, m⟩
  | some made =>
    obtain ⟨dgram, d⟩ := made
    obtain ⟨cells, first, hq, hqu, hs⟩ := m.append_eq hi
    have hn {o : Owner ι} {b : α} (ho : s.Owns l o b) (ht : o ≠ .sender i) : b ≠ dgram := by
      rintro rfl
      exact ht (m.owner o (.sender i) b ho ⟨d, hi⟩)
    have hu {o : Owner ι} {b : α} (ho : s.Owns l o b) (ht : o ≠ .queue) : cells b = s.cells b :=
      hs b fun hm => ht (m.owner o .queue b ho hm)
    refine ⟨_, l ++ [(dgram, d)], hq, hqu, ?_, ?_,
      owner_of_moved (a := dgram) m.owner .queue fun o b ho => ?_, fun j b e hj => ?_,
      fun j b n hj => ?_⟩
    · rw [map_append, m.values, waiting, waiting, drop_append_of_le_length m.taken_le]
      rfl
    · exact m.taken_le.trans (by rw [length_append]; omega)
    · cases o with
      | queue =>
        have hm : b ∈ (l ++ [(dgram, d)]).map fst := ho
        rw [map_append, mem_append] at hm
        rcases hm with hm | hm
        · exact .inr ⟨hn (o := .queue) hm nofun, hm⟩
        · exact .inl ⟨mem_singleton.mp hm, rfl⟩
      | sender j =>
        obtain ⟨e, he⟩ := ho
        dsimp only at he
        by_cases hji : j = i
        · rw [hji, update_self] at he
          cases he
        · rw [update_of_ne hji] at he
          exact .inr ⟨hn (o := .sender j) ⟨e, he⟩ fun h => hji (Owner.sender.inj h), e, he⟩
      | receiver j => exact .inr ⟨hn (o := .receiver j) ho nofun, ho⟩
    · dsimp only at hj ⊢
      by_cases hji : j = i
      · rw [hji, update_self] at hj
        cases hj
      rw [update_of_ne hji] at hj
      rw [hu (o := .sender j) ⟨e, hj⟩ nofun]
      exact m.sender j b e hj
    · obtain ⟨next, e, hc, hnt⟩ := m.receiver j b n hj
      refine ⟨next, e, (hu (o := .receiver j) ⟨n, hj⟩ nofun).trans hc, ?_⟩
      exact List.getElem?_append_left (List.getElem?_eq_some_iff.mp hnt).1 ▸ hnt

section

omit [DecidableEq α]

theorem receiving_setPlace_self (s : UdpQueue ι α) (i : ι) (place : ReceivePlace α) :
    (s.setPlace i place).receiving i = place := update_self ..

theorem receiving_setPlace_of_ne (s : UdpQueue ι α) (place : ReceivePlace α) (hj : j ≠ i) :
    (s.setPlace i place).receiving j = s.receiving j := update_of_ne hj _ _

variable {place : ReceivePlace α}

theorem held_setPlace (hh : place.held = (s.receiving i).held) (j : ι) :
    ((s.setPlace i place).receiving j).held = (s.receiving j).held := by
  by_cases hj : j = i
  · rw [hj, receiving_setPlace_self, hh]
  · rw [receiving_setPlace_of_ne s place hj]

theorem Memory.setPlace (m : s.Memory l) (hh : place.held = (s.receiving i).held) :
    (s.setPlace i place).Memory l := by
  have hs := held_setPlace hh
  have hw {o : Owner ι} {b : α} (ho : (s.setPlace i place).Owns l o b) : s.Owns l o b := by
    cases o with
    | queue | sender j => exact ho
    | receiver j =>
      obtain ⟨n, hn⟩ := ho
      exact ⟨n, hs j ▸ hn⟩
  refine ⟨m.queue, m.values, m.taken_le, fun o o' b ho ho' => m.owner o o' b (hw ho) (hw ho'),
    m.sender, fun j b n hj => ?_⟩
  rw [hs] at hj
  exact m.receiver j b n hj

theorem Memory.pass_eq (m : s.Memory l) {call : UdpReceive} (hi : s.receiving i = .loop call)
    (hf : s.first = some a) : ∃ c rest, s.cells a = some c ∧ l = (a, c.value) :: rest ∧
      a ∉ rest.map fst ∧ Queue s.cells c.next (if c.next.isNone then none else s.last) rest ∧
      s.pass i = .ok ({ s with
        first := c.next
        last := if c.next.isNone then none else s.last
        taken := s.taken + 1 }.setPlace i (.took call a s.taken)) := by
  have hq := m.queue
  rw [hf] at hq
  obtain ⟨c, rest, hc, hl, hn, hr⟩ := hq.unlink
  refine ⟨c, rest, hc, hl, hn, hr, ?_⟩
  unfold pass
  rw [hi, hf]
  dsimp only
  rw [hc]

end

omit [DecidableEq ι] [DecidableEq α] in
theorem Memory.accepted_taken {rest : List (α × Datagram)} (m : s.Memory l)
    (hl : l = (a, d) :: rest) : s.taken < s.accepted.length ∧ s.accepted[s.taken]? = some d ∧
      rest.map snd = s.accepted.drop (s.taken + 1) := by
  have hv := m.values
  rw [hl, map_cons, waiting] at hv
  have ht : s.taken < s.accepted.length := by
    by_contra hg
    rw [drop_of_length_le (not_lt.mp hg)] at hv
    cases hv
  rw [drop_eq_getElem_cons ht] at hv
  obtain ⟨hh, ha⟩ := cons.inj hv
  refine ⟨ht, ?_, ha⟩
  rw [getElem?_eq_getElem ht, ← hh]

omit [DecidableEq α] in
theorem Memory.pass (m : s.Memory l) (i : ι) : ∃ s' l', s.pass i = .ok s' ∧ s'.Memory l' := by
  have hs (h : s.pass i = .ok s) : ∃ s' l', s.pass i = .ok s' ∧ s'.Memory l' := ⟨s, l, h, m⟩
  cases hi : s.receiving i with
  | outside =>
    refine hs ?_
    unfold UdpQueue.pass
    rw [hi]
  | took | copied =>
    refine hs ?_
    unfold UdpQueue.pass
    rw [hi]
  | loop call =>
    cases hf : s.first with
    | none =>
      refine hs ?_
      unfold UdpQueue.pass
      rw [hi, hf]
    | some a =>
      obtain ⟨c, rest, hc, hl, ht, hq, heq⟩ := m.pass_eq hi hf
      obtain ⟨hlt, hnt, hv⟩ := m.accepted_taken hl
      have ha : s.Owns l .queue a := by
        rw [hl]
        exact mem_cons_self
      have he {o : Owner ι} {b : α} (ho : s.Owns l o b) (hot : o ≠ .queue) : b ≠ a := by
        rintro rfl
        exact hot (m.owner o .queue b ho ha)
      refine ⟨_, rest, heq, hq, hv, hlt,
        owner_of_moved (a := a) m.owner (.receiver i) fun o b ho => ?_, m.sender, fun j b n hj => ?_⟩
      · cases o with
        | queue =>
          have hm : b ∈ rest.map fst := ho
          refine .inr ⟨fun hb => ht (hb ▸ hm), ?_⟩
          rw [hl]
          exact mem_cons_of_mem _ hm
        | sender j => exact .inr ⟨he (o := .sender j) ho nofun, ho⟩
        | receiver j =>
          obtain ⟨n, hn⟩ := ho
          by_cases hji : j = i
          · rw [hji, receiving_setPlace_self] at hn
            cases hn
            exact .inl ⟨rfl, by rw [hji]⟩
          · rw [receiving_setPlace_of_ne _ _ hji] at hn
            exact .inr ⟨he (o := .receiver j) ⟨n, hn⟩ nofun, n, hn⟩
      · by_cases hji : j = i
        · rw [hji, receiving_setPlace_self] at hj
          cases hj
          exact ⟨c.next, c.value, hc, hnt⟩
        · rw [receiving_setPlace_of_ne _ _ hji] at hj
          exact m.receiver j b n hj

omit [DecidableEq α] in
theorem Memory.copy (m : s.Memory l) (i : ι) : ∃ s', s.copy i = .ok s' ∧ s'.Memory l := by
  unfold UdpQueue.copy
  cases hi : s.receiving i with
  | outside | loop | copied => exact ⟨s, rfl, m⟩
  | took call dgram n =>
    obtain ⟨next, d, hc, -⟩ := m.receiver i dgram n (by rw [hi]; rfl)
    dsimp only
    rw [hc]
    exact ⟨_, rfl, m.setPlace (by rw [hi]; rfl)⟩

theorem Memory.free (m : s.Memory l) (i : ι) : ∃ s', s.free i = .ok s' ∧ s'.Memory l := by
  unfold UdpQueue.free
  cases hi : s.receiving i with
  | outside | loop | took => exact ⟨s, rfl, m⟩
  | copied call dgram n received =>
    have hh : (s.receiving i).held = some (dgram, n) := by
      rw [hi]
      rfl
    obtain ⟨next, d, hc, -⟩ := m.receiver i dgram n hh
    dsimp only
    rw [hc]
    -- nobody else has the address, and afterwards nobody has it
    have hn {o : Owner ι} {b : α} (ho : s.Owns l o b) (hot : o ≠ .receiver i) : b ≠ dgram := by
      rintro rfl
      exact hot (m.owner o (.receiver i) b ho ⟨n, hh⟩)
    have ht {j : ι} {b : α} {k : ℕ} (hj : (update s.receiving i .outside j).held =
        some (b, k)) : j ≠ i ∧ (s.receiving j).held = some (b, k) := by
      by_cases hji : j = i
      · rw [hji, update_self] at hj
        cases hj
      · rw [update_of_ne hji] at hj
        exact ⟨hji, hj⟩
    have hs {o : Owner ι} {b : α} (ho : UdpQueue.Owns { s with
        receiving := update s.receiving i .outside } l o b) : s.Owns l o b := by
      cases o with
      | queue | sender j => exact ho
      | receiver j =>
        obtain ⟨k, hk⟩ := ho
        exact ⟨k, (ht hk).2⟩
    refine ⟨_, rfl, m.queue.update (fun hm => hn (o := .queue) hm nofun rfl) none, m.values,
      m.taken_le, fun o o' b ho ho' => m.owner o o' b (hs ho) (hs ho'), fun j b e hj => ?_,
      fun j b k hj => ?_⟩
    · exact (update_of_ne (hn (o := .sender j) ⟨e, hj⟩ nofun) _ _).trans (m.sender j b e hj)
    obtain ⟨hji, hj⟩ := ht hj
    obtain ⟨next', d', hc', hnt⟩ := m.receiver j b k hj
    have hb : b ≠ dgram := hn (o := .receiver j) ⟨k, hj⟩ fun h => hji (Owner.receiver.inj h)
    exact ⟨next', d', (update_of_ne hb _ _).trans hc', hnt⟩

/-! ### Numbers -/

omit [DecidableEq ι] [DecidableEq α] in
theorem Numbers.mono (n : s.Numbers) (he : s'.receiving = s.receiving)
    (hre : s'.returned = s.returned) (ht : s'.taken = s.taken)
    (ha : s.accepted <+: s'.accepted) : s'.Numbers := by
  have hn {k : ℕ} {d : Datagram} (hk : s.accepted[k]? = some d) : s'.accepted[k]? = some d := by
    obtain ⟨more, hm⟩ := ha
    rw [← hm, List.getElem?_append_left (List.getElem?_eq_some_iff.mp hk).1]
    exact hk
  have hh {k : ℕ} : s'.Holds k ↔ s.Holds k := by
    rw [Holds, Holds, he]
  refine ⟨fun i call a k r hi => ?_, fun r hr => ?_, ?_, fun k => ?_, fun k hk => ?_,
    fun i j a b k hi hj => ?_⟩
  · rw [he] at hi
    obtain ⟨d, hd, hc⟩ := n.copied i call a k r hi
    exact ⟨d, hn hd, hc⟩
  · rw [hre] at hr
    obtain ⟨d, hd, hc⟩ := n.returned r hr
    exact ⟨d, hn hd, hc⟩
  · rw [hre]
    exact n.once
  · rw [ht, hre, hh]
    exact n.numbers k
  · rw [hre]
    exact n.apart k (hh.mp hk)
  · rw [he] at hi hj
    exact n.one i j a b k hi hj

section

omit [DecidableEq α]

theorem Numbers.setPlace (n : s.Numbers) {place : ReceivePlace α}
    (he : place.held = (s.receiving i).held)
    (hc : ∀ call a k r, place = .copied call a k r → ∃ d, s.accepted[k]? = some d ∧ r =
      d.received call) :
    (s.setPlace i place).Numbers := by
  have hs := held_setPlace he
  have hh {k : ℕ} : (s.setPlace i place).Holds k ↔ s.Holds k := by
    simp only [Holds, hs]
  refine ⟨fun j call a k r hj => ?_, n.returned, n.once, fun k => ?_, fun k hk => ?_,
    fun j j' a b k hj hj' => ?_⟩
  · by_cases hi : j = i
    · rw [hi, receiving_setPlace_self] at hj
      exact hc call a k r hj
    · rw [receiving_setPlace_of_ne s place hi] at hj
      exact n.copied j call a k r hj
  · rw [hh]
    exact n.numbers k
  · exact n.apart k (hh.mp hk)
  · rw [hs] at hj hj'
    exact n.one j j' a b k hj hj'

variable {call : UdpReceive}

theorem Numbers.take (n : s.Numbers) (hi : s.receiving i = .loop call) (a : α)
    (first last : Option α) :
    ({ s with first := first, last := last, taken := s.taken + 1 }.setPlace i
      (.took call a s.taken)).Numbers := by
  set s' := { s with first := first, last := last, taken := s.taken + 1 }.setPlace i
    (.took call a s.taken) with hs'
  have hs : s'.receiving i = .took call a s.taken := receiving_setPlace_self ..
  have ho {j : ι} (hji : j ≠ i) : s'.receiving j = s.receiving j := receiving_setPlace_of_ne _ _ hji
  have hf {j : ι} {b : α} {k : ℕ} (hj : (s.receiving j).held = some (b, k)) : j ≠ i := by
    rintro rfl
    rw [hi] at hj
    cases hj
  have hl {k : ℕ} (hk : s.Holds k) : k < s.taken := (n.numbers k).mpr (.inr hk)
  have hh {k : ℕ} : s'.Holds k ↔ k = s.taken ∨ s.Holds k := by
    constructor
    · rintro ⟨j, b, hj⟩
      by_cases hji : j = i
      · rw [hji, hs] at hj
        exact .inl (Prod.mk.inj (Option.some.inj hj)).2.symm
      · rw [ho hji] at hj
        exact .inr ⟨j, b, hj⟩
    · rintro (rfl | ⟨j, b, hj⟩)
      · exact ⟨i, a, by rw [hs]; rfl⟩
      · exact ⟨j, b, by rw [ho (hf hj)]; exact hj⟩
  refine ⟨fun j call' b k r hj => ?_, n.returned, n.once, fun k => ?_, fun k hk hm => ?_,
    fun j j' b b' k hj hj' => ?_⟩
  · by_cases hji : j = i
    · rw [hji, hs] at hj
      cases hj
    · rw [ho hji] at hj
      exact n.copied j call' b k r hj
  · have hn := n.numbers k
    rw [hh, or_left_comm]
    change k < s.taken + 1 ↔ k = s.taken ∨ k ∈ s.returned.map UdpReturn.number ∨ s.Holds k
    rw [← hn]
    omega
  · rcases hh.mp hk with rfl | hold
    · exact lt_irrefl _ ((n.numbers s.taken).mpr (.inl hm))
    · exact n.apart k hold hm
  -- the new number is the number of no other call
  by_cases hji : j = i
  · by_cases hi' : j' = i
    · rw [hji, hi']
    rw [hji, hs] at hj
    rw [ho hi'] at hj'
    cases hj
    exact absurd (hl ⟨j', b', hj'⟩) (lt_irrefl _)
  by_cases hi' : j' = i
  · rw [hi', hs] at hj'
    rw [ho hji] at hj
    cases hj'
    exact absurd (hl ⟨j, b, hj⟩) (lt_irrefl _)
  · rw [ho hji] at hj
    rw [ho hi'] at hj'
    exact n.one j j' b b' k hj hj'

theorem Numbers.giveBack (n : s.Numbers) {number : ℕ} {received : UdpReceived}
    (hi : s.receiving i = .copied call a number received) (cells : α → Option (Cell α Datagram)) :
    ({ s with
      cells := cells
      returned := s.returned ++ [UdpReturn.mk number call received] }.setPlace i
        .outside).Numbers := by
  set s' := { s with
    cells := cells
    returned := s.returned ++ [UdpReturn.mk number call received] }.setPlace i .outside with hs'
  have hh : (s.receiving i).held = some (a, number) := by
    rw [hi]
    rfl
  have ho {j : ι} (hji : j ≠ i) : s'.receiving j = s.receiving j := receiving_setPlace_of_ne _ _ hji
  have hb {j : ι} {b : α} {k : ℕ} (hj : (s'.receiving j).held = some (b, k)) :
      j ≠ i ∧ (s.receiving j).held = some (b, k) := by
    by_cases hji : j = i
    · rw [hji, hs', receiving_setPlace_self] at hj
      cases hj
    · rw [ho hji] at hj
      exact ⟨hji, hj⟩
  have hm : s'.returned.map UdpReturn.number = s.returned.map UdpReturn.number ++ [number] :=
    map_append
  have hho {k : ℕ} : s.Holds k ↔ k = number ∨ s'.Holds k := by
    constructor
    · rintro ⟨j, b, hj⟩
      by_cases hji : j = i
      · rw [hji, hh] at hj
        exact .inl (Prod.mk.inj (Option.some.inj hj)).2.symm
      · exact .inr ⟨j, b, by rw [ho hji]; exact hj⟩
    · rintro (rfl | ⟨j, b, hj⟩)
      · exact ⟨i, a, hh⟩
      · exact ⟨j, b, (hb hj).2⟩
  refine ⟨fun j call' b k r hj => ?_, fun r hr => ?_, ?_, fun k => ?_, fun k hk => ?_,
    fun j j' b b' k hj hj' => ?_⟩
  · have hji : j ≠ i := by
      rintro rfl
      rw [hs', receiving_setPlace_self] at hj
      cases hj
    rw [ho hji] at hj
    exact n.copied j call' b k r hj
  · rcases mem_append.mp hr with hold | hn
    · exact n.returned r hold
    obtain rfl := mem_singleton.mp hn
    exact n.copied i call a number received hi
  · rw [hm, ← concat_eq_append, nodup_concat]
    exact ⟨n.apart number ⟨i, a, hh⟩, n.once⟩
  · rw [hm, mem_append, mem_singleton, or_assoc, ← hho]
    exact n.numbers k
  · rw [hm, mem_append, mem_singleton]
    rintro (hold | rfl)
    · exact n.apart k (hho.mpr (.inr hk)) hold
    obtain ⟨j, b, hj⟩ := hk
    obtain ⟨hji, hj⟩ := hb hj
    exact hji (n.one j i b a k hj hh)
  · exact n.one j j' b b' k (hb hj).2 (hb hj').2

end

/-! ### Steps and runs -/

def Sound (s : UdpQueue ι α) : Prop := (∃ l, s.Memory l) ∧ s.Numbers

theorem Sound.append (h : s.Sound) (i : ι) : ∃ s', s.append i = .ok s' ∧ s'.Sound := by
  obtain ⟨⟨l, m⟩, n⟩ := h
  obtain ⟨s', l', he, m'⟩ := m.append i
  refine ⟨s', he, ⟨l', m'⟩, ?_⟩
  cases hi : s.sending i with
  | none =>
    unfold UdpQueue.append at he
    rw [hi] at he
    exact Except.ok.inj he ▸ n
  | some made =>
    obtain ⟨dgram, d⟩ := made
    obtain ⟨cells, first, he', -⟩ := m.append_eq hi
    obtain rfl := Except.ok.inj (he'.symm.trans he)
    exact n.mono rfl rfl rfl (prefix_append _ _)

omit [DecidableEq α] in
theorem Sound.pass (h : s.Sound) (i : ι) : ∃ s', s.pass i = .ok s' ∧ s'.Sound := by
  obtain ⟨⟨l, m⟩, n⟩ := h
  obtain ⟨s', l', he, m'⟩ := m.pass i
  refine ⟨s', he, ⟨l', m'⟩, ?_⟩
  unfold UdpQueue.pass at he
  split at he
  · next call dgram hi hf =>
    split at he
    · cases he
    cases he
    exact n.take hi dgram _ _
  · exact Except.ok.inj he ▸ n

omit [DecidableEq α] in
theorem Sound.copy (h : s.Sound) (i : ι) : ∃ s', s.copy i = .ok s' ∧ s'.Sound := by
  obtain ⟨⟨l, m⟩, n⟩ := h
  obtain ⟨s', he, m'⟩ := m.copy i
  refine ⟨s', he, ⟨l, m'⟩, ?_⟩
  unfold UdpQueue.copy at he
  split at he
  · next call dgram number hi =>
    have hh : (s.receiving i).held = some (dgram, number) := by
      rw [hi]
      rfl
    obtain ⟨next, d, hc, hn⟩ := m.receiver i dgram number hh
    rw [hc] at he
    cases he
    refine n.setPlace hh.symm fun call' a k r hp => ?_
    obtain ⟨rfl, rfl, rfl, rfl⟩ := ReceivePlace.copied.inj hp
    exact ⟨d, hn, rfl⟩
  · exact Except.ok.inj he ▸ n

theorem Sound.free (h : s.Sound) (i : ι) : ∃ s', s.free i = .ok s' ∧ s'.Sound := by
  obtain ⟨⟨l, m⟩, n⟩ := h
  obtain ⟨s', he, m'⟩ := m.free i
  refine ⟨s', he, ⟨l, m'⟩, ?_⟩
  unfold UdpQueue.free at he
  split at he
  · next call dgram number received hi =>
    split_ifs at he
    cases he
    exact n.giveBack hi _
  · exact Except.ok.inj he ▸ n

theorem Sound.step (h : s.Sound) (a : UdpAction ι α) : ∃ s', s.step a = .ok s' ∧ s'.Sound := by
  cases a with
  | packetReceived i dgram src srcPort buffer =>
    obtain ⟨⟨l, m⟩, n⟩ := h
    refine ⟨_, rfl, ⟨l, m.packetReceived i dgram _⟩, ?_⟩
    rw [UdpQueue.packetReceived]
    split_ifs
    · exact n
    · exact n
    · exact n.mono rfl rfl rfl (prefix_refl _)
  | append i => exact h.append i
  | receiveFrom i call =>
    rw [UdpQueue.step]
    split_ifs with hi
    · obtain ⟨⟨l, m⟩, n⟩ := h
      exact ⟨_, rfl, ⟨l, m.setPlace (by rw [hi]; rfl)⟩, n.setPlace (by rw [hi]; rfl) nofun⟩
    · exact ⟨s, rfl, h⟩
  | pass i => exact h.pass i
  | copy i => exact h.copy i
  | free i => exact h.free i

theorem Sound.next (h : s.Sound) {call : UdpReceive} (hi : s.receiving i = .loop call)
    (he : s.waiting ≠ []) :
    ∃ s' dgram, s.step (.pass i) = .ok s' ∧ s'.receiving i = .took call dgram s.taken := by
  obtain ⟨⟨l, m⟩, -⟩ := h
  cases hf : s.first with
  | none =>
    have hh := m.queue.linked.head_eq
    rw [hf] at hh
    have hn := map_eq_nil_iff.mp (head?_eq_none_iff.mp hh.symm)
    exact absurd (m.values ▸ hn ▸ rfl) he
  | some dgram =>
    obtain ⟨c, rest, -, -, -, -, hq⟩ := m.pass_eq hi hf
    exact ⟨_, dgram, hq, receiving_setPlace_self ..⟩

theorem Sound.fifo (h : s.Sound) : s.Fifo := by
  obtain ⟨⟨l, m⟩, n⟩ := id h
  refine ⟨⟨l, m.queue.linked, m.values, m.queue.last⟩, m.queue.last_eq_none_iff, n.returned, n.once,
    n.numbers, n.apart, n.one, fun i call hi hn => h.next hi hn, fun a => ?_⟩
  obtain ⟨s', he, -⟩ := h.step a
  exact ⟨s', he⟩

end Steps

omit [DecidableEq ι] [DecidableEq α] in
theorem sound_new : ({} : UdpQueue ι α).Sound := by
  refine ⟨⟨[], .empty _, rfl, le_rfl, fun o o' a ho => ?_, nofun, nofun⟩, nofun, nofun, nodup_nil,
    fun n => ⟨nofun, ?_⟩, nofun, nofun⟩
  · cases o with
    | queue => cases ho
    | sender i => exact nomatch ho
    | receiver i => exact nomatch ho
  · rintro (hm | ⟨i, a, hi⟩)
    · cases hm
    · cases hi

variable {s s' : UdpQueue ι α}

theorem sound_of_reach (hr : Reach UdpQueue.step (fun _ _ => True) {} s) : s.Sound := by
  refine hr.invariant (P := Sound) sound_new fun s a s' h _ hs => ?_
  obtain ⟨next, hn, ho⟩ := h.step a
  obtain rfl := Except.ok.inj (hn.symm.trans hs)
  exact ho

/-- The payload bytes of the datagrams of a queue. -/
def payloadBytes (l : List Datagram) : ℕ := (l.map fun d => d.buffer.length).sum

/-- `m_buffered_size` is the number of payload bytes between `m_first_datagram` and
`m_last_datagram`, and no larger than `UDP_SOCKET_BUFFER_SIZE`. -/
def Accounted (s : UdpQueue ι α) : Prop :=
  ∀ l, Library.Linked s.cells s.first l →
    s.bufferedSize = payloadBytes (l.map Prod.snd) ∧
      payloadBytes (l.map Prod.snd) ≤ udpSocketBufferSize

theorem bufferedSize_step {a : UdpAction ι α} (hs : s.step a = .ok s') :
    s'.bufferedSize = s.bufferedSize := by
  cases a with
  | packetReceived i dgram src srcPort buffer =>
    cases hs
    rw [packetReceived]
    split_ifs <;> rfl
  | append i =>
    rw [step, append] at hs
    split at hs
    · cases hs
      rfl
    dsimp only at hs
    split at hs
    · split at hs <;> cases hs
      rfl
    · cases hs
      rfl
  | receiveFrom i call =>
    rw [step] at hs
    split_ifs at hs <;> cases hs <;> rfl
  | pass i =>
    rw [step, pass] at hs
    split at hs
    · split at hs <;> cases hs
      rfl
    · cases hs
      rfl
  | copy i =>
    rw [step, copy] at hs
    split at hs
    · split at hs <;> cases hs
      rfl
    · cases hs
      rfl
  | free i =>
    rw [step, free] at hs
    split at hs
    · split_ifs at hs
      cases hs
      rfl
    · cases hs
      rfl

theorem bufferedSize_of_reach (hr : Reach UdpQueue.step (fun _ _ => True) {} s) :
    s.bufferedSize = 0 :=
  hr.invariant (P := fun s => s.bufferedSize = 0) rfl
    fun _ _ _ h _ hs => (bufferedSize_step hs).trans h

theorem payloadBytes_eq_zero_iff {l : List Datagram} :
    payloadBytes l = 0 ↔ ∀ d ∈ l, d.buffer = [] := by
  simp [payloadBytes, sum_eq_zero_iff]

/-- The accounting of a socket is right exactly when no datagram that waits has a payload. -/
theorem accounted_iff_of_reach {s : UdpQueue ι α}
    (hrun : Reach UdpQueue.step (fun _ _ => True) {} s) :
    s.Accounted ↔ ∀ d ∈ s.waiting, d.buffer = [] := by
  obtain ⟨⟨l, m⟩, -⟩ := sound_of_reach hrun
  have hze := bufferedSize_of_reach hrun
  rw [← payloadBytes_eq_zero_iff, ← m.values]
  constructor
  · intro h
    exact (h l m.queue.linked).1.symm.trans hze
  intro h l' hli
  rw [hli.unique m.queue.linked, h, hze]
  exact ⟨rfl, Nat.zero_le _⟩

theorem accounted_iff_of_reach_oneByte : ∃ s : UdpQueue (Fin 1) (Fin 1),
    Reach UdpQueue.step (fun _ _ => True) {} s ∧ s.waiting = [⟨1, 53, [7]⟩] ∧ ¬ s.Accounted := by
  obtain ⟨s, hs, hwa⟩ : ∃ s ∈ execute (UdpQueue.step (ι := Fin 1) (α := Fin 1)) (fun _ _ => True) {}
      [.packetReceived 0 0 1 53 [7], .append 0], s.waiting = [⟨1, 53, [7]⟩] := by
    decide
  have hrun := Reach.refl.execute hs
  refine ⟨s, hrun, hwa, fun h => ?_⟩
  have hall := (accounted_iff_of_reach hrun).mp h
  rw [hwa] at hall
  exact absurd (hall _ mem_cons_self) (by decide)

theorem exists_waiting_replicate {d : Datagram} (hd : d.buffer.length ≤ udpSocketBufferSize) (n : ℕ) :
    ∃ s : UdpQueue Unit ℕ, Reach UdpQueue.step (fun _ _ => True) {} s ∧
      s.accepted = replicate n d ∧ s.taken = 0 ∧ s.sending () = none ∧
      ∀ a, n ≤ a → s.cells a = none := by
  induction n with
  | zero => exact ⟨{}, .refl, rfl, rfl, rfl, fun _ _ => rfl⟩
  | succ n ih =>
    obtain ⟨s, hr, hac, ht, hn, hf⟩ := ih
    have ho : ¬ s.bufferedSize + d.buffer.length > udpSocketBufferSize := by
      rw [bufferedSize_of_reach hr, Nat.zero_add]
      exact hd.not_gt
    have hb : ¬ ((s.sending ()).isSome ∨ (s.cells n).isSome) := by
      rw [hn, hf n le_rfl]
      decide
    have hma : s.packetReceived () n d = { s with
        cells := update s.cells n (some ⟨none, d⟩)
        sending := update s.sending () (some (n, d)) } := by
      rw [packetReceived, if_neg hb, if_neg ho]
    have hrun1 := hr.step (.packetReceived () n d.sourceAddress d.sourcePort d.buffer) trivial
      (show s.step _ = .ok (s.packetReceived () n d) from rfl)
    obtain ⟨⟨l, m⟩, -⟩ := sound_of_reach hrun1
    rw [hma] at m hrun1
    obtain ⟨cells, first, he, -, hs⟩ := m.append_eq (i := ()) (d := d)
      (show update s.sending () (some (n, d)) () = some (n, d) from update_self ..)
    refine ⟨_, hrun1.step (.append ()) trivial he, ?_, ht, ?_, fun a ha => ?_⟩
    · rw [hac, replicate_succ']
    · exact update_self () none (update s.sending () (some (n, d)))
    -- an address of the queue is in use, and this one is not
    have hc : update s.cells n (some ⟨none, d⟩) a = none := by
      rw [update_of_ne (by omega)]
      exact hf a (by omega)
    refine (hs a fun hm => ?_).trans hc
    have hl := m.live (o := .queue) hm
    dsimp only at hl
    rw [hc] at hl
    cases hl

theorem not_accounted_flood : ∃ s : UdpQueue Unit ℕ,
    Reach UdpQueue.step (fun _ _ => True) {} s ∧ s.bufferedSize = 0 ∧
      udpSocketBufferSize < payloadBytes s.waiting ∧ ¬ s.Accounted := by
  obtain ⟨s, hrun, hac, hta, -⟩ :=
    exists_waiting_replicate (d := ⟨1, 53, replicate 65507 7⟩)
      (length_replicate.trans_le (by decide)) 17
  obtain ⟨⟨l, m⟩, -⟩ := sound_of_reach hrun
  have hby : udpSocketBufferSize < payloadBytes s.waiting := by
    rw [waiting, hac, hta, drop_zero, payloadBytes, map_replicate, sum_replicate, length_replicate]
    decide
  refine ⟨s, hrun, bufferedSize_of_reach hrun, hby, fun h => ?_⟩
  have hle := (h l m.queue.linked).2
  rw [m.values] at hle
  exact absurd hle hby.not_ge

/-! ## The queue and the socket -/

/-- What a thread is about to append has passed the check of its size. -/
theorem sending_le_of_reach (hr : Reach UdpQueue.step (fun _ _ => True) {} s) (i : ι)
    (p : α × Datagram) (hi : s.sending i = some p) : p.2.buffer.length ≤ udpSocketBufferSize := by
  refine hr.invariant (P := fun s => ∀ i p, s.sending i = some p →
    p.2.buffer.length ≤ udpSocketBufferSize) (by rintro _ _ ⟨⟩) ?_ i p hi
  intro s a s' h _ hs i p hi
  cases a with
  | packetReceived j n src port buf =>
    cases hs
    rw [packetReceived] at hi
    split_ifs at hi with _ hf
    · exact h i p hi
    · exact h i p hi
    dsimp only at hi hf
    rw [update_apply] at hi
    split_ifs at hi
    · cases hi
      dsimp only
      omega
    · exact h i p hi
  | append j =>
    have hu : s'.sending = s.sending ∨ s'.sending = update s.sending j none := by
      grind [step, append]
    rcases hu with hu | hu
    · exact h i p (hu ▸ hi)
    · rw [hu, update_apply] at hi
      split_ifs at hi
      exact h i p hi
  | _ =>
    have hu : s'.sending = s.sending := by grind [step, pass, copy, free, setPlace]
    exact h i p (hu ▸ hi)

/-- **The queue refines the socket.** In every state of every run, the step of a thread under the
lock does to the datagrams that wait what `packetReceived` does to those of a socket. -/
theorem append_refines {s : UdpQueue ι α} (hrun : Reach UdpQueue.step (fun _ _ => True) {} s)
    {i : ι} {dgram : α} {d : Datagram} (hi : s.sending i = some (dgram, d)) (u : UdpSocket) :
    ∃ s', UdpQueue.step s (.append i) = .ok s' ∧ { u with datagrams := s'.waiting } =
      UdpSocket.packetReceived { u with datagrams := s.waiting } d.sourceAddress d.sourcePort
        d.buffer := by
  obtain ⟨⟨l, m⟩, -⟩ := sound_of_reach hrun
  exact m.append_datagrams hi (sending_le_of_reach hrun i _ hi) u

theorem append_refines_oneByte : ∃ s s' : UdpQueue (Fin 1) (Fin 1),
    Reach UdpQueue.step (fun _ _ => True) {} s ∧ UdpQueue.step s (.append 0) = .ok s' ∧
      s'.waiting = s.waiting ++ [⟨1, 53, [7]⟩] := by
  obtain ⟨s, hs, hse⟩ : ∃ s ∈ execute (UdpQueue.step (ι := Fin 1) (α := Fin 1)) (fun _ _ => True) {}
      [.packetReceived 0 0 1 53 [7]], s.sending 0 = some (0, ⟨1, 53, [7]⟩) := by
    decide
  have hrun := Reach.refl.execute hs
  obtain ⟨s', ha, he⟩ := append_refines hrun hse {}
  exact ⟨s, s', hrun, ha, congrArg UdpSocket.datagrams he⟩

end UdpQueue

end AexKernel.Net
