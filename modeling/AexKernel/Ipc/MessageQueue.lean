import AexKernel.Basic
import AexKernel.Library.BigEndian
import AexKernel.Library.Run
import AexKernel.Mem.CircularBuffer

/-! # Message queues (`ipc/messagequeue.cpp`)

A `MessageQueue` keeps messages in a circular buffer, each behind a header with its length, and
counts in `m_free` the bytes that are left. -/

namespace AexKernel.Ipc

open Library Mem List

/-- `MAX_WAITING_SIZE`. -/
def maxWaitingSize : ℕ := 65535

/-- `sizeof(message_header)`: the process and the length. -/
def messageHeaderSize : ℕ := 8

/-- The bytes of a `message_header`. -/
def messageHeader (pid len : ℕ) : List (BitVec 8) := (toBE 4 pid).reverse ++ (toBE 4 len).reverse

/-- `header.len`, an `int`. -/
def headerLen (header : List (BitVec 8)) : ℤ := toInt32 (fromBE (header.drop 4).reverse)

/-- `MessageQueue`; a call holds its lock but while it waits. -/
structure MessageQueue where
  buffer : CircularBuffer
  /-- `m_free`. -/
  free : ℤ

namespace MessageQueue

def new : MessageQueue := ⟨CircularBuffer.new (maxWaitingSize + 1) (by decide), maxWaitingSize⟩

/-- `m_circ_buffer.read(ptr, len)`. -/
def bufferRead (q : CircularBuffer) (len : ℕ) : Except Fault (CircularBuffer × List (BitVec 8)) :=
  if (q.read len).2.length = len then .ok (q.read len) else .error .divergence

/-- `m_circ_buffer.write(ptr, len)`. -/
def bufferWrite (q : CircularBuffer) (data : List (BitVec 8)) : Except Fault CircularBuffer :=
  if (q.write data).2 = [] then .ok (q.write data).1 else .error .divergence

/-- The loop of `readMessage` that skips the bytes for which the reader has no room, 32 at a time. -/
def skipLoop : ℕ → CircularBuffer → ℤ → Except Fault CircularBuffer
  | 0, q, _ => .ok q
  | fuel + 1, q, left =>
    if left ≤ 0 then .ok q
    else do
      let (q, _) ← bufferRead q (min left 32).toNat
      skipLoop fuel q (left - min left 32)

/-- `readMessage(ptr, len)`: the result and the bytes stored, or nothing where the thread waits. -/
def readMessage (s : MessageQueue) (len : ℕ) :
    Except Fault (Option (MessageQueue × ℤ × List (BitVec 8))) :=
  let totalLen := toInt32 (len + messageHeaderSize)
  if (maxWaitingSize : ℤ) < totalLen then .ok (some (s, 0, []))
  else if maxWaitingSize - s.free < totalLen then .ok none
  else do
    let (q, header) ← bufferRead s.buffer messageHeaderSize
    let (q, bytes) ← bufferRead q len
    let left := headerLen header - len
    let q ← skipLoop left.toNat q left
    return some (⟨q, s.free + totalLen⟩, min (headerLen header) len, bytes)

/-- `writeMessage(ptr, len)` of a process, or nothing where the thread waits. -/
def writeMessage (s : MessageQueue) (pid : ℕ) (data : List (BitVec 8)) :
    Except Fault (Option (MessageQueue × Bool)) :=
  let totalLen := toInt32 (data.length + messageHeaderSize)
  if (maxWaitingSize : ℤ) < totalLen then .ok (some (s, false))
  else if s.free < totalLen then .ok none
  else do
    let q ← bufferWrite s.buffer (messageHeader pid data.length)
    let q ← bufferWrite q data
    return some (⟨q, s.free - totalLen⟩, true)

end MessageQueue

/-! ## Runs -/

/-- A message with the process that wrote it. -/
structure Message where
  pid : ℕ
  data : List (BitVec 8)

/-- A completed `readMessage`. -/
structure MessageRead where
  len : ℕ
  result : ℤ
  bytes : List (BitVec 8)

/-- A queue with the messages written and the reads completed, in order. -/
structure QueueHistory where
  queue : MessageQueue
  written : List Message := []
  reads : List MessageRead := []

/-- A call. One that has to wait is made again later. -/
inductive QueueCall
  | readMessage (len : ℕ)
  | writeMessage (pid : ℕ) (data : List (BitVec 8))

namespace QueueHistory

def afterRead (s : QueueHistory) (len : ℕ) :
    Option (MessageQueue × ℤ × List (BitVec 8)) → QueueHistory
  | none => s
  | some (queue, result, bytes) =>
    { s with queue := queue, reads := s.reads ++ [⟨len, result, bytes⟩] }

def afterWrite (s : QueueHistory) (m : Message) : Option (MessageQueue × Bool) → QueueHistory
  | none => s
  | some (queue, true) => { s with queue := queue, written := s.written ++ [m] }
  | some (queue, false) => { s with queue := queue }

def step (s : QueueHistory) : QueueCall → Except Fault QueueHistory
  | .readMessage len => do
    let result ← s.queue.readMessage len
    return s.afterRead len result
  | .writeMessage pid data => do
    let result ← s.queue.writeMessage pid data
    return s.afterWrite ⟨pid, data⟩ result

def Fits (_ : QueueHistory) : QueueCall → Prop
  | .readMessage len => len + messageHeaderSize ≤ maxWaitingSize
  | .writeMessage _ _ => True

/-- Framing and accounting: the `k`-th read returned the beginning of the `k`-th message, as far as
it had room, and `m_free` is what the buffer leaves. -/
structure Framed (s : QueueHistory) : Prop where
  reads : ∀ (k : ℕ) (read : MessageRead), s.reads[k]? = some read →
    ∃ m : Message, s.written[k]? = some m ∧ read.result = min m.data.length read.len ∧
      read.bytes.take (min m.data.length read.len) = m.data.take (min m.data.length read.len)
  free : s.queue.free = maxWaitingSize - s.queue.buffer.readAvailable

def Exact (s : QueueHistory) : QueueCall → Prop
  | .readMessage len => ∀ m : Message, s.written[s.reads.length]? = some m → len = m.data.length
  | .writeMessage _ _ => True

end QueueHistory

/-! ## Exact reads -/

namespace MessageQueue

def frame (m : Message) : List (BitVec 8) := messageHeader m.pid m.data.length ++ m.data

@[simp] theorem length_messageHeader (pid len : ℕ) :
    (messageHeader pid len).length = messageHeaderSize := by
  simp [messageHeader, messageHeaderSize]

theorem length_frame (m : Message) : (frame m).length = messageHeaderSize + m.data.length := by
  rw [frame, length_append, length_messageHeader]

theorem headerLen_messageHeader (pid : ℕ) {len : ℕ} (h : len < 2 ^ 31) :
    headerLen (messageHeader pid len) = len := by
  have hd : (messageHeader pid len).drop 4 = (toBE 4 len).reverse := by
    rw [messageHeader, drop_left' (by simp)]
  rw [headerLen, hd, reverse_reverse, fromBE_toBE, toInt32_of_range (by omega) (by omega)]
  omega

variable {q q' : CircularBuffer} {data bytes rest : List (BitVec 8)}

theorem bufferWrite_contents (h : bufferWrite q data = .ok q') :
    q'.contents = q.contents ++ data ∧ q'.size = q.size := by
  rw [bufferWrite] at h
  split_ifs at h with hd
  cases h
  exact ⟨q.contents_write_of_done hd, q.size_write data⟩

theorem bufferRead_contents (h : q.contents = bytes ++ rest) :
    ∃ q', bufferRead q bytes.length = .ok (q', bytes) ∧ q'.contents = rest ∧ q'.size = q.size := by
  have ht : bytes.length ≤ q.readAvailable := by
    rw [← q.length_contents, h, length_append]
    omega
  have hb : (q.read bytes.length).2 = bytes := by
    rw [q.read_eq_take ht, h, take_left' rfl]
  refine ⟨(q.read bytes.length).1, ?_, ?_, q.size_read _⟩
  · rw [bufferRead, if_pos (by rw [hb])]
    exact congrArg Except.ok (Prod.ext rfl hb)
  · rw [q.contents_read ht, h, drop_left' rfl]

end MessageQueue

namespace QueueHistory

open MessageQueue

/-- The buffer holds the messages that have been written and not yet read. -/
structure Accounted (s : QueueHistory) : Prop where
  contents : s.queue.buffer.contents = (s.written.drop s.reads.length).flatMap frame
  size : s.queue.buffer.size = maxWaitingSize + 1
  framed : Framed s

variable {s s' : QueueHistory}

theorem Accounted.free (h : Accounted s) :
    s.queue.free = maxWaitingSize - s.queue.buffer.contents.length := by
  rw [h.framed.free, CircularBuffer.length_contents]

theorem Framed.count (h : Framed s) : s.reads.length ≤ s.written.length := by
  rcases Nat.eq_zero_or_pos s.reads.length with hz | hp
  · omega
  obtain ⟨m, hm, -⟩ := h.reads (s.reads.length - 1) _ (getElem?_eq_getElem (by omega))
  have := (List.getElem?_eq_some_iff.mp hm).1
  omega

section

variable (h : Accounted s)
include h

theorem Accounted.written {m : Message} {q : CircularBuffer} {free : ℤ}
    (hc : q.contents = s.queue.buffer.contents ++ frame m) (hs : q.size = s.queue.buffer.size)
    (hf : free = s.queue.free - (m.data.length + messageHeaderSize : ℕ)) :
    Accounted { s with queue := ⟨q, free⟩, written := s.written ++ [m] } := by
  refine ⟨?_, hs.trans h.size, ⟨fun k read he => ?_, ?_⟩⟩
  · rw [hc, h.contents, drop_append_of_le_length h.framed.count, flatMap_append, flatMap_singleton]
  · obtain ⟨m', hm', hr⟩ := h.framed.reads k read he
    refine ⟨m', ?_, hr⟩
    rw [List.getElem?_append_left (List.getElem?_eq_some_iff.mp hm').1, hm']
  · change free = (maxWaitingSize : ℤ) - q.readAvailable
    rw [hf, h.free, ← CircularBuffer.length_contents, hc, length_append, length_frame]
    omega

theorem Accounted.writeMessage {pid : ℕ} {data : List (BitVec 8)}
    (ha : step s (.writeMessage pid data) = .ok s') : Accounted s' := by
  obtain ⟨result, hw, hp⟩ := bind_eq_ok.mp ha
  cases hp
  rw [MessageQueue.writeMessage] at hw
  split_ifs at hw
  · cases hw
    exact h
  · cases hw
    exact h
  obtain ⟨q1, hh, hr⟩ := bind_eq_ok.mp hw
  obtain ⟨q2, hd, he⟩ := bind_eq_ok.mp hr
  cases he
  obtain ⟨hco1, hsi1⟩ := bufferWrite_contents hh
  obtain ⟨hco2, hsi2⟩ := bufferWrite_contents hd
  have hc : q2.contents = s.queue.buffer.contents ++ frame ⟨pid, data⟩ := by
    rw [hco2, hco1, append_assoc, frame]
  have hs : q2.size = s.queue.buffer.size := hsi2.trans hsi1
  -- the message is in the buffer, so it is short
  have hsh : data.length + messageHeaderSize ≤ maxWaitingSize := by
    have hl := q2.readAvailable_lt
    rw [← CircularBuffer.length_contents, hc, length_append, length_frame, hs, h.size] at hl
    dsimp only at hl
    omega
  refine h.written hc hs ?_
  rw [toInt32_of_range (by omega) (by rw [maxWaitingSize] at hsh; omega)]
  push_cast
  rfl

theorem Accounted.readMessage {len : ℕ} (hf : Fits s (.readMessage len))
    (hex : Exact s (.readMessage len)) (ha : step s (.readMessage len) = .ok s') :
    Accounted s' := by
  have he : len + 8 ≤ 65535 := hf
  have ht : toInt32 (len + messageHeaderSize) = len + messageHeaderSize :=
    toInt32_of_range (by omega) (by rw [messageHeaderSize]; omega)
  obtain ⟨result, hr, hp⟩ := bind_eq_ok.mp ha
  cases hp
  rw [MessageQueue.readMessage, ht] at hr
  rw [if_neg (by rw [maxWaitingSize, messageHeaderSize]; omega)] at hr
  cases hn : s.written[s.reads.length]? with
  | none =>
    -- nothing is there to be read
    have hi : s.queue.buffer.contents = [] := by
      rw [h.contents, drop_of_length_le (getElem?_eq_none_iff.mp hn), flatMap_nil]
    rw [h.free, hi, if_pos (by rw [messageHeaderSize, length_nil]; omega)] at hr
    cases hr
    exact h
  | some m =>
    obtain rfl := hex m hn
    have hd : s.written.drop s.reads.length = m :: s.written.drop (s.reads.length + 1) := by
      obtain ⟨hl, hm⟩ := List.getElem?_eq_some_iff.mp hn
      rw [drop_eq_getElem_cons hl, hm]
    have hc : s.queue.buffer.contents = messageHeader m.pid m.data.length ++
        (m.data ++ (s.written.drop (s.reads.length + 1)).flatMap frame) := by
      rw [h.contents, hd, flatMap_cons, frame, append_assoc]
    obtain ⟨q1, hh, hco1, hsi1⟩ := bufferRead_contents hc
    obtain ⟨q2, hda, hco2, hsi2⟩ := bufferRead_contents hco1
    rw [length_messageHeader] at hh
    have ho : ¬ (maxWaitingSize - s.queue.free < m.data.length + messageHeaderSize) := by
      rw [h.free, hc, length_append, length_append, length_messageHeader]
      push_cast
      omega
    rw [if_neg ho, hh, ok_bind] at hr
    dsimp only at hr
    rw [hda, ok_bind] at hr
    rw [headerLen_messageHeader m.pid (by omega), Int.sub_self] at hr
    cases hr
    refine ⟨?_, (hsi2.trans hsi1).trans h.size, ⟨fun k read hg => ?_, ?_⟩⟩
    · change q2.contents = (s.written.drop (s.reads ++ [_]).length).flatMap frame
      rw [hco2, length_append, length_singleton]
    · change (s.reads ++ [_])[k]? = some read at hg
      rcases Nat.lt_or_ge k s.reads.length with hl | hge
      · rw [getElem?_append_left hl] at hg
        exact h.framed.reads k read hg
      rw [getElem?_append_right hge] at hg
      obtain ⟨hk, rfl⟩ := List.getElem?_eq_some_iff.mp hg
      obtain rfl : k = s.reads.length := by
        rw [length_singleton] at hk
        omega
      simp only [Nat.sub_self, getElem_cons_zero]
      exact ⟨m, hn, by simp, rfl⟩
    · change s.queue.free + _ = (maxWaitingSize : ℤ) - q2.readAvailable
      rw [h.free, ← CircularBuffer.length_contents, hco2, hc, length_append,
        length_append, length_messageHeader]
      push_cast
      omega

theorem Accounted.step {call : QueueCall} (hf : Fits s call) (hex : Exact s call)
    (hc : step s call = .ok s') : Accounted s' := by
  cases call with
  | readMessage len => exact h.readMessage hf hex hc
  | writeMessage pid data => exact h.writeMessage hc

end

/-- **The framing and the account are kept when reads are exact**: in every run of writes of any
messages and reads that pass the length of the message they get, the `k`-th read returns the `k`-th
message, and `m_free` is what the buffer leaves. -/
theorem framed_of_exact
    (run : Reach QueueHistory.step (fun s call => Fits s call ∧ Exact s call) { queue := .new } s) :
    Framed s := by
  have hst : Accounted { queue := .new } :=
    ⟨CircularBuffer.contents_new _ _, rfl, ⟨fun _ _ h => absurd h (by simp), rfl⟩⟩
  exact (run.invariant (P := Accounted) hst
    fun s call s' h hall hca => h.step hall.1 hall.2 hca).framed

instance (s : QueueHistory) : (call : QueueCall) → Decidable (Fits s call)
  | .readMessage len => inferInstanceAs (Decidable (len + messageHeaderSize ≤ maxWaitingSize))
  | .writeMessage _ _ => .isTrue trivial

instance (s : QueueHistory) : (call : QueueCall) → Decidable (Exact s call)
  | .readMessage len => inferInstanceAs (Decidable
      (∀ m ∈ s.written[s.reads.length]?, len = m.data.length))
  | .writeMessage _ _ => .isTrue trivial

theorem framed_of_exact_two :
    ∃ s ∈ execute step (fun s call => Fits s call ∧ Exact s call) { queue := .new }
        [.writeMessage 1 [10, 20], .writeMessage 2 [30], .readMessage 2, .readMessage 1],
      s.reads.map MessageRead.bytes = [[10, 20], [30]] ∧ Framed s := by
  exact exists_execute_and (by decide) fun s hs => framed_of_exact hs

theorem not_framed_otherLength :
    (∃ s ∈ execute step Fits { queue := .new }
        [.writeMessage 1 [0, 1, 2, 3, 4, 5, 6, 7, 8, 9], .readMessage 4],
      s.queue.free = 65529 ∧ s.queue.buffer.readAvailable = 0 ∧ ¬ Framed s) ∧
    (∃ s ∈ execute step Fits { queue := .new }
        [.writeMessage 1 [1, 2, 3, 4], .writeMessage 1 [0, 0, 0, 0, 5, 6, 7, 8], .readMessage 8,
          .readMessage 4],
      s.reads.map MessageRead.result = [4, 0] ∧ ¬ Framed s) := by
  constructor
  · refine exists_execute (P := fun s => s.queue.free = 65529 ∧ s.queue.buffer.readAvailable = 0)
      (by decide) ?_
    rintro s - ⟨hfre, hav⟩
    refine ⟨hfre, hav, fun hfr => ?_⟩
    have := hfr.free
    rw [hfre, hav, maxWaitingSize] at this
    omega
  refine exists_execute (P := fun s => s.reads.map MessageRead.result = [4, 0] ∧ s.reads.map
    MessageRead.len = [8, 4] ∧ s.written.map (fun m => m.data.length) = [4, 8]) (by decide) ?_
  rintro s - ⟨hres, hlen, hwr⟩
  refine ⟨hres, fun hfr => ?_⟩
  have hget : ∀ {α β : Type} {f : α → β} {l : List α} {x y : β}, l.map f = [x, y] →
      ∃ a, l[1]? = some a ∧ f a = y := by
    intro α β f l x y h
    match l, h with
    | [a, b], h => exact ⟨b, rfl, (cons.inj (cons.inj h).2).1⟩
  obtain ⟨read, hre, hze⟩ := hget hres
  obtain ⟨read', hre', hfo⟩ := hget hlen
  obtain ⟨m, hm, height⟩ := hget hwr
  obtain rfl := Option.some.inj (hre.symm.trans hre')
  obtain ⟨m', hm', hmin, -⟩ := hfr.reads 1 read hre
  obtain rfl := Option.some.inj (hm.symm.trans hm')
  rw [hze, hfo, height] at hmin
  omega

end QueueHistory

end AexKernel.Ipc
