import AexKernel.Basic
import AexKernel.Library.Run
import AexKernel.Mem.CircularBuffer

/-! # Circular buffers under threads (`mem/circularbuffer.cpp`)

The methods of `CircularBuffer` as the code has them. -/

namespace AexKernel.Mem

open Library List Int CircularBuffer

/-- The fields of `CircularBuffer`. -/
structure RawBuffer where
  /-- `m_size`. -/
  size : ℤ
  /-- `m_readPos`. -/
  readPos : ℤ := 0
  /-- `m_writePos`. -/
  writePos : ℤ := 0
  /-- The bytes of `m_buffer`, which `new` leaves as they are. -/
  bytes : Memory

namespace RawBuffer

/-- `findDistance(a, b)`. -/
def findDistance (b : RawBuffer) (x y : ℤ) : ℤ :=
  let x := if x < 0 then x + b.size else x
  let y := if y < 0 then y + b.size else y
  let c := y - x
  if c < 0 then c + b.size else c

/-- `readAvailable()`. -/
def readAvailable (b : RawBuffer) : ℤ := min b.size (b.findDistance b.readPos b.writePos)

/-- `writeAvailable()`. -/
def writeAvailable (b : RawBuffer) : ℤ := min b.size (b.findDistance b.writePos (b.readPos - 1))

/-- `readAvailableCut()`. -/
def readAvailableCut (b : RawBuffer) : ℤ :=
  min (min b.size (b.size - b.readPos)) (b.findDistance b.readPos b.writePos)

/-- `writeAvailableCut()`. -/
def writeAvailableCut (b : RawBuffer) : ℤ :=
  min (min b.size (b.size - b.writePos)) (b.findDistance b.writePos (b.readPos - 1))

/-- A position that has come to the end of the memory goes back to its start. -/
def wrap (b : RawBuffer) (pos : ℤ) : ℤ := if pos = b.size then 0 else pos

/-- `memcpy` of `clen` bytes from `m_buffer + m_readPos`. -/
def memcpyOut (b : RawBuffer) (clen : ℤ) : Except Fault (List (BitVec 8)) :=
  if 0 ≤ clen ∧ 0 ≤ b.readPos ∧ b.readPos + clen ≤ b.size then
    .ok ((List.range clen.toNat).map fun k => b.bytes (b.readPos.toNat + k))
  else .error .outOfBounds

/-- `memcpy` of `clen` bytes of the data to `m_buffer + m_writePos`. -/
def memcpyIn (b : RawBuffer) (data : List (BitVec 8)) (clen : ℤ) : Except Fault Memory :=
  if 0 ≤ clen ∧ 0 ≤ b.writePos ∧ b.writePos + clen ≤ b.size then
    .ok (b.bytes.overlay b.writePos.toNat clen.toNat fun x => data.getD (x - b.writePos.toNat) 0#8)
  else .error .outOfBounds

/-- A place of the memory whose byte has been written and not yet read. -/
def Unread (b : RawBuffer) (x : ℤ) : Prop :=
  0 ≤ x ∧ x < b.size ∧ b.findDistance b.readPos x < b.findDistance b.readPos b.writePos

end RawBuffer

/-- A call under way: what is left to do, and the bytes done. -/
inductive BufferCall
  | read (len quota offset : ℤ)
  /-- `write`, or `writeAtomic`. -/
  | write (atomic : Bool) (data : List (BitVec 8)) (offset : ℤ)

/-- What a pass of a loop does. -/
inductive PassResult
  | copied (b : RawBuffer) (next : BufferCall) (bytesIn bytesOut : List (BitVec 8))
  | waits
  | returns (offset : ℤ)

namespace BufferCall

/-- A pass of the loop of `read`. -/
def readPass (b : RawBuffer) (len quota offset : ℤ) (interrupted : Bool) : Except Fault PassResult :=
  if len ≤ 0 then .ok (.returns offset)
  else
    let clen := min len b.readAvailableCut
    if clen = 0 then
      if (b.writeAvailable < len ∧ interrupted) ∨
          (b.readAvailable ≤ len ∧ quota ≠ -1 ∧ quota ≤ offset) then .ok (.returns offset)
      else .ok .waits
    else do
      let chunk ← b.memcpyOut clen
      return .copied { b with readPos := b.wrap (b.readPos + clen) }
        (.read (len - clen) quota (offset + clen)) [] chunk

/-- A pass of the loops of `write` and `writeAtomic`, which differ in when a thread has to wait. -/
def writePass (b : RawBuffer) (atomic : Bool) (data : List (BitVec 8)) (offset : ℤ)
    (interrupted : Bool) : Except Fault PassResult :=
  if data.length ≤ 0 then .ok (.returns offset)
  else
    let clen := min (data.length : ℤ) b.writeAvailableCut
    if (if atomic then clen < data.length else clen = 0) then
      if b.writeAvailable < data.length ∧ interrupted then .ok (.returns offset) else .ok .waits
    else do
      let bytes ← b.memcpyIn data clen
      return .copied { b with bytes := bytes, writePos := b.wrap (b.writePos + clen) }
        (.write atomic (data.drop clen.toNat) (offset + clen)) (data.take clen.toNat) []

def pass (b : RawBuffer) : BufferCall → Bool → Except Fault PassResult
  | .read len quota offset, interrupted => readPass b len quota offset interrupted
  | .write atomic data offset, interrupted => writePass b atomic data offset interrupted

end BufferCall

/-! ## A pass is a step of the queue -/

/-- The fields of a buffer whose positions are inside its memory. -/
def CircularBuffer.raw (q : CircularBuffer) : RawBuffer where
  size := q.size
  readPos := q.readPos
  writePos := q.writePos
  bytes := q.bytes

namespace CircularBuffer

variable (q : CircularBuffer)

theorem findDistance_raw (x y : ℤ) : q.raw.findDistance x y = q.findDistance x y := rfl

theorem readAvailable_raw : q.raw.readAvailable = q.readAvailable := by
  have hl := q.readAvailable_lt
  change min (q.size : ℤ) (q.findDistance q.readPos q.writePos) = _
  rw [findDistance_read]
  omega

theorem writeAvailable_raw : q.raw.writeAvailable = q.writeAvailable := by
  have hl := q.readAvailable_lt
  rw [RawBuffer.writeAvailable, findDistance_raw, writeAvailable_eq]
  change min (q.size : ℤ) (q.findDistance q.writePos (q.readPos - 1)) = _
  rw [findDistance_write]
  omega

theorem readAvailableCut_raw : q.raw.readAvailableCut = q.readAvailableCut := by
  have hp := q.read_lt
  rw [RawBuffer.readAvailableCut, findDistance_raw, readAvailableCut_eq]
  change min (min (q.size : ℤ) (q.size - q.readPos)) (q.findDistance q.readPos q.writePos) = _
  rw [findDistance_read]
  omega

theorem writeAvailableCut_raw : q.raw.writeAvailableCut = q.writeAvailableCut := by
  have hl := q.readAvailable_lt
  have hp := q.write_lt
  rw [RawBuffer.writeAvailableCut, findDistance_raw, writeAvailableCut_eq, writeAvailable_eq]
  change min (min (q.size : ℤ) (q.size - q.writePos))
    (q.findDistance q.writePos (q.readPos - 1)) = _
  rw [findDistance_write]
  omega

variable {pos n : ℕ}

theorem wrap_raw (h : pos + n ≤ q.size) : q.raw.wrap (pos + n) = q.advance pos n := by
  change (if (pos : ℤ) + n = q.size then 0 else (pos : ℤ) + n) = _
  rw [advance]
  split_ifs <;> omega

theorem memcpyOut_raw (h : n ≤ q.readAvailableCut) :
    q.raw.memcpyOut n = .ok (q.readChunk n).2 ∧
      { q.raw with readPos := q.raw.wrap (q.raw.readPos + n) } = (q.readChunk n).1.raw := by
  have he : q.readPos + n ≤ q.size := by
    have := q.readAvailableCut_eq
    have := q.read_lt
    omega
  constructor
  · refine if_pos ⟨natCast_nonneg n, natCast_nonneg q.readPos, ?_⟩
    change (q.readPos : ℤ) + n ≤ q.size
    exact_mod_cast he
  · change ({ q.raw with readPos := q.raw.wrap (q.readPos + n) } : RawBuffer) = _
    rw [q.wrap_raw he]
    rfl

theorem memcpyIn_raw {data : List (BitVec 8)} (hd : n ≤ data.length) (h : n ≤ q.writeAvailableCut)
      :
    ∃ bytes, q.raw.memcpyIn data n = .ok bytes ∧
      { q.raw with bytes := bytes, writePos := q.raw.wrap (q.raw.writePos + n) } =
        (q.writeChunk (data.take n)).raw := by
  have he : q.writePos + n ≤ q.size := by
    have := q.writeAvailableCut_eq
    have := q.write_lt
    omega
  have hl : (data.take n).length = n := length_take_of_le hd
  have hi : 0 ≤ (n : ℤ) ∧ 0 ≤ q.raw.writePos ∧ q.raw.writePos + n ≤ q.raw.size := by
    refine ⟨natCast_nonneg n, natCast_nonneg q.writePos, ?_⟩
    change (q.writePos : ℤ) + n ≤ q.size
    exact_mod_cast he
  refine ⟨_, if_pos hi, (RawBuffer.mk.injEq ..).mpr ⟨rfl, rfl, ?_, ?_⟩⟩
  · change q.raw.wrap (q.writePos + n) = q.advance q.writePos (data.take n).length
    rw [q.wrap_raw he, hl]
  change q.bytes.overlay q.writePos n (fun x => data.getD (x - q.writePos) 0#8) =
    q.bytes.overlay q.writePos (data.take n).length fun x => (data.take n).getD (x - q.writePos) 0#8
  funext x
  rw [hl, Memory.overlay, Memory.overlay]
  split_ifs with hx
  · rw [getD_eq_getElem?_getD, getD_eq_getElem?_getD, getElem?_take_of_lt (by omega)]
  · rfl

end CircularBuffer

/-- A pass does nothing to the buffer, or copies bytes as a queue does. -/
inductive QueueStep (q : CircularBuffer) : Except Fault PassResult → Prop
  | waits : QueueStep q (.ok .waits)
  | returns (offset : ℤ) : QueueStep q (.ok (.returns offset))
  | copied (q' : CircularBuffer) (next : BufferCall) (bytesIn bytesOut : List (BitVec 8))
      (size : q'.size = q.size) (order : q.contents ++ bytesIn = bytesOut ++ q'.contents) :
      QueueStep q (.ok (.copied q'.raw next bytesIn bytesOut))

namespace BufferCall

variable (q : CircularBuffer) {len quota offset : ℤ} {atomic interrupted : Bool}
  {data : List (BitVec 8)}

/-- A pass of `read` that finds bytes copies them. -/
theorem readPass_copies (hl : 0 < len) (hcl : min len (q.readAvailableCut : ℤ) ≠ 0) :
    ∃ n : ℕ, n ≤ q.readAvailableCut ∧ readPass q.raw len quota offset interrupted =
      .ok (.copied (q.readChunk n).1.raw (.read (len - n) quota (offset + n)) []
        (q.readChunk n).2) := by
  obtain ⟨n, hn⟩ : ∃ n : ℕ, min len (q.readAvailableCut : ℤ) = n :=
    ⟨(min len (q.readAvailableCut : ℤ)).toNat, by omega⟩
  have hc : n ≤ q.readAvailableCut := by omega
  obtain ⟨ho, he⟩ := q.memcpyOut_raw hc
  refine ⟨n, hc, ?_⟩
  rw [readPass, if_neg (by omega), q.readAvailableCut_raw]
  rw [if_neg hcl, hn, ho, ok_bind, pure_eq_ok, he]

/-- The test of the loops of `write` and `writeAtomic` that makes a thread wait. -/
def Waits (atomic : Bool) (data : List (BitVec 8)) : Prop :=
  if atomic then min (data.length : ℤ) q.writeAvailableCut < data.length
  else min (data.length : ℤ) q.writeAvailableCut = 0

theorem writePass_copies (hl : data ≠ []) (hw : ¬ Waits q atomic data) :
    ∃ n : ℕ, (n : ℤ) = min (data.length : ℤ) q.writeAvailableCut ∧
      writePass q.raw atomic data offset interrupted =
        .ok (.copied (q.writeChunk (data.take n)).raw (.write atomic (data.drop n) (offset + n))
          (data.take n) []) := by
  obtain ⟨n, hn⟩ : ∃ n : ℕ, min (data.length : ℤ) (q.writeAvailableCut : ℤ) = n :=
    ⟨(min (data.length : ℤ) (q.writeAvailableCut : ℤ)).toNat, by omega⟩
  have hp := length_pos_iff.mpr hl
  have he : n ≤ data.length := by omega
  obtain ⟨bytes, hc, hne⟩ := q.memcpyIn_raw he (by omega)
  refine ⟨n, hn.symm, ?_⟩
  rw [Waits] at hw
  rw [writePass, if_neg (by omega), q.writeAvailableCut_raw]
  rw [if_neg hw, hn, hc, ok_bind, pure_eq_ok, hne, toNat_natCast]

theorem readPass_raw : QueueStep q (readPass q.raw len quota offset interrupted) := by
  by_cases hl : 0 < len
  · by_cases hcl : min len (q.readAvailableCut : ℤ) = 0
    · rw [readPass, if_neg (by omega), q.readAvailableCut_raw]
      dsimp only
      split_ifs
      · exact .returns offset
      · exact .waits
    obtain ⟨n, hc, hp⟩ := readPass_copies q hl hcl
    obtain ⟨hb, hr⟩ := q.contents_readChunk hc
    rw [hp]
    refine .copied _ _ _ _ rfl ?_
    rw [hb, hr, append_nil, take_append_drop]
  · rw [readPass, if_pos (by omega)]
    exact .returns offset

/-- A thread that has to wait returns when it is interrupted and there is less room than it needs. -/
theorem writePass_waits (hl : data ≠ []) (hw : Waits q atomic data) :
    writePass q.raw atomic data offset interrupted =
      if q.writeAvailable < data.length ∧ interrupted then .ok (.returns offset)
      else .ok .waits := by
  have hp := length_pos_iff.mpr hl
  rw [Waits] at hw
  rw [writePass, if_neg (by omega), q.writeAvailableCut_raw, q.writeAvailable_raw]
  rw [if_pos hw]
  simp only [Nat.cast_lt]

theorem writePass_raw : QueueStep q (writePass q.raw atomic data offset interrupted) := by
  by_cases hl : data = []
  · rw [writePass, if_pos (by rw [hl]; rfl)]
    exact .returns offset
  by_cases hw : Waits q atomic data
  · rw [writePass_waits q hl hw]
    split_ifs
    · exact .returns offset
    · exact .waits
  obtain ⟨n, hn, hp⟩ := writePass_copies q hl hw
  rw [hp]
  refine .copied _ _ _ _ rfl ?_
  rw [q.contents_writeChunk (by rw [length_take_of_le (by omega)]; omega), nil_append]

theorem pass_raw (call : BufferCall) (interrupted : Bool) :
    QueueStep q (call.pass q.raw interrupted) := by
  cases call with
  | read len quota offset => exact readPass_raw q
  | write atomic data offset => exact writePass_raw q

/-- `writeAtomic` copies all of its data at once. -/
def CopiesAll (b : RawBuffer) (data : List (BitVec 8)) : Prop :=
  data = [] ∨ ∀ offset interrupted, ∃ b', writePass b true data offset interrupted =
    .ok (.copied b' (.write true [] (offset + data.length)) data [])

/-- Data for which there is room is copied at once exactly when the room is not cut by the end of
the memory. -/
theorem copiesAll_iff (data : List (BitVec 8)) (hroom : data.length ≤ q.raw.writeAvailable) :
    CopiesAll q.raw data ↔ q.writePos + data.length ≤ q.size := by
  have hcut := q.writeAvailableCut_eq
  have hin := q.write_lt
  rw [q.writeAvailable_raw] at hroom
  constructor
  · rintro (rfl | hall)
    · exact hin.le
    by_contra hend
    obtain ⟨b', hpa⟩ := hall 0 false
    have hlen : data ≠ [] := by
      rintro rfl
      exact hend hin.le
    rw [writePass_waits q hlen (show Waits q true data by rw [Waits, if_pos rfl]; omega),
      if_neg (fun hno => Bool.false_ne_true hno.2)] at hpa
    cases hpa
  intro hend
  refine or_iff_not_imp_left.mpr fun hlen offset interrupted => ?_
  have hwa : ¬ Waits q true data := by
    rw [Waits, if_pos rfl]
    omega
  obtain ⟨n, hn, hpa⟩ := writePass_copies q hlen hwa
  obtain rfl : n = data.length := by omega
  rw [take_length, drop_length] at hpa
  exact ⟨_, hpa⟩

theorem copiesAll_iff_new : CopiesAll (CircularBuffer.new 4 (by decide)).raw [1, 2, 3] :=
  (copiesAll_iff (.new 4 (by decide)) [1, 2, 3] (by decide)).mpr (by decide)

/-- The bytes left to copy. -/
def remaining : BufferCall → ℤ
  | .read len _ _ => len
  | .write _ data _ => data.length

/-- The bytes copied. -/
def done : BufferCall → ℤ
  | .read _ _ offset | .write _ _ offset => offset

/-- A `read` asks for at least the size of the buffer or has its quota, and a `writeAtomic` has less
room than it needs, cut or not. -/
def Released (q : CircularBuffer) : BufferCall → Prop
  | .read len quota offset => q.size ≤ len ∨ quota ≠ -1 ∧ quota ≤ offset
  | .write atomic data _ => atomic → q.writeAvailable < data.length

/-- An interrupted call that can copy nothing returns exactly when it is released. -/
theorem returns_iff (call : BufferCall) (hlen : 0 < call.remaining)
    (hstuck : ∀ b next bytesIn bytesOut,
      call.pass q.raw true ≠ .ok (.copied b next bytesIn bytesOut)) :
    call.pass q.raw true = .ok (.returns call.done) ↔ call.Released q := by
  have hlt := q.readAvailable_lt
  cases call with
  | read len quota offset =>
    change 0 < len at hlen
    have hcl : min len (q.readAvailableCut : ℤ) = 0 := by
      by_contra hcl
      obtain ⟨n, -, hpa⟩ := readPass_copies q hlen hcl
      exact hstuck _ _ _ _ hpa
    have hem : q.readAvailable = 0 := by
      have := q.readAvailableCut_eq
      have := q.read_lt
      omega
    have hw := q.writeAvailable_eq
    rw [pass, readPass, if_neg (not_le.mpr hlen), q.readAvailableCut_raw, q.writeAvailable_raw,
      q.readAvailable_raw]
    rw [if_pos hcl]
    split_ifs with hex
    · refine iff_of_true rfl (hex.imp (fun h => ?_) fun h => h.2)
      omega
    refine iff_of_false (fun h => by cases h) fun hno =>
      hex (hno.imp (fun h => ⟨?_, rfl⟩) fun h => ⟨?_, h⟩)
    · omega
    · omega
  | write atomic data offset =>
    have hne : data ≠ [] := by
      rintro rfl
      exact absurd hlen (lt_irrefl (0 : ℤ))
    have hwa : Waits q atomic data := by
      by_contra hwa
      obtain ⟨n, -, hpa⟩ := writePass_copies q hne hwa
      exact hstuck _ _ _ _ hpa
    rw [pass, writePass_waits q hne hwa]
    split_ifs with hex
    · exact iff_of_true rfl fun _ => hex.1
    refine iff_of_false (fun h => by cases h) fun hno => hex ⟨?_, rfl⟩
    cases atomic with
    | true => exact hno rfl
    | false =>
      have := q.writeAvailableCut_eq
      have := q.write_lt
      have := length_pos_iff.mpr hne
      rw [Waits, if_neg (by decide)] at hwa
      omega

/-- A `read` of four bytes from an empty buffer of four. -/
theorem returns_iff_read :
    (read 4 1 0).pass (CircularBuffer.new 4 (by decide)).raw true = .ok (.returns 0) :=
  (returns_iff (.new 4 (by decide)) (.read 4 1 0) (by decide) fun _ _ _ _ h => by cases h).mpr
    (.inl (by decide))

/-- A `read` of one byte from an empty buffer waits again, interrupted or not. -/
theorem not_returns_shortRead :
    (read 1 1 0).pass (CircularBuffer.new 4 (by decide)).raw true = .ok .waits := rfl

end BufferCall

/-! ## Threads -/

/-- Where a thread is. -/
inductive BufferPhase
  | idle
  | outside (call : BufferCall)
  | inside (call : BufferCall)

/-- A buffer and the threads that use it, with the bytes that have been copied in and out, in the
order of the copies. -/
structure BufferThreads (ι : Type) where
  buffer : RawBuffer
  lock : Option ι := none
  threads : ι → BufferPhase := fun _ => .idle
  copiedIn : List (BitVec 8) := []
  copiedOut : List (BitVec 8) := []

/-- A step of a thread. -/
inductive BufferAction (ι : Type)
  /-- `read(buffer, len, quota)`. -/
  | read (t : ι) (len quota : ℤ)
  /-- `write(buffer, len)`, or `writeAtomic(buffer, len)`. -/
  | write (t : ι) (atomic : Bool) (data : List (BitVec 8))
  | acquire (t : ι)
  | pass (t : ι) (interrupted : Bool)

namespace BufferThreads

variable {ι : Type} [DecidableEq ι]

def setThread (s : BufferThreads ι) (t : ι) (phase : BufferPhase) : BufferThreads ι :=
  { s with threads := Function.update s.threads t phase }

def call (s : BufferThreads ι) (t : ι) (len : ℤ) (call : BufferCall) : BufferThreads ι :=
  match s.threads t with
  | .idle => if len ≤ 0 then s else s.setThread t (.outside call)
  | _ => s

def acquire (s : BufferThreads ι) (t : ι) : BufferThreads ι :=
  match s.threads t, s.lock with
  | .outside call, none => { s.setThread t (.inside call) with lock := some t }
  | _, _ => s

def afterPass (s : BufferThreads ι) (t : ι) (call : BufferCall) : PassResult → BufferThreads ι
  | .copied b next bytesIn bytesOut =>
    { s.setThread t (.inside next) with
      buffer := b
      copiedIn := s.copiedIn ++ bytesIn
      copiedOut := s.copiedOut ++ bytesOut }
  | .waits => { s.setThread t (.outside call) with lock := none }
  | .returns _ => { s.setThread t .idle with lock := none }

/-- The state after a step. Steps that a thread cannot take do nothing. -/
def step (s : BufferThreads ι) : BufferAction ι → Except Fault (BufferThreads ι)
  | .read t len quota => .ok (s.call t len (.read len quota 0))
  | .write t atomic data => .ok (s.call t data.length (.write atomic data 0))
  | .acquire t => .ok (s.acquire t)
  | .pass t interrupted =>
    match s.threads t with
    | .inside call => do
      let result ← call.pass s.buffer interrupted
      return s.afterPass t call result
    | _ => .ok s

/-- The state at the start: the constructor leaves the memory as it is. -/
def start (size : ℤ) (bytes : Memory) : BufferThreads ι where
  buffer := { size := size, bytes := bytes }

/-- The buffer is a FIFO. -/
structure Fifo (s : BufferThreads ι) : Prop where
  readPos : 0 ≤ s.buffer.readPos ∧ s.buffer.readPos < s.buffer.size
  writePos : 0 ≤ s.buffer.writePos ∧ s.buffer.writePos < s.buffer.size
  available : s.buffer.readAvailable + s.buffer.writeAvailable = s.buffer.size - 1
  /-- No `memcpy` leaves the memory. -/
  memcpy : ∀ a, step s a ≠ .error .outOfBounds
  /-- A pass of a `write` touches no unread byte. -/
  unread : ∀ t atomic data offset, s.threads t = .inside (.write atomic data offset) →
    ∀ x, s.buffer.writePos ≤ x →
      x < s.buffer.writePos + min (data.length : ℤ) s.buffer.writeAvailableCut →
      ¬ s.buffer.Unread x
  order : s.copiedOut <+: s.copiedIn

/-- The state is that of a queue which holds the bytes that have been copied in and not yet out. -/
structure Queued (size : ℕ) (s : BufferThreads ι) (q : CircularBuffer) : Prop where
  buffer : s.buffer = q.raw
  size : q.size = size
  order : s.copiedIn = s.copiedOut ++ q.contents

variable {s s' : BufferThreads ι} {size : ℕ} {q : CircularBuffer}

omit [DecidableEq ι] in
theorem Queued.same (h : Queued size s q) (hb : s'.buffer = s.buffer)
    (hi : s'.copiedIn = s.copiedIn) (ho : s'.copiedOut = s.copiedOut) : Queued size s' q :=
  ⟨hb.trans h.buffer, h.size, by rw [hi, ho, h.order]⟩

theorem Queued.call (h : Queued size s q) (t : ι) (len : ℤ) (c : BufferCall) :
    Queued size (s.call t len c) q := by
  rw [BufferThreads.call]
  split
  · split_ifs
    · exact h
    · exact h.same rfl rfl rfl
  · exact h

theorem Queued.acquire (h : Queued size s q) (t : ι) : Queued size (s.acquire t) q := by
  rw [BufferThreads.acquire]
  split
  · exact h.same rfl rfl rfl
  · exact h

theorem Queued.step (h : Queued size s q) (a : BufferAction ι) :
    ∃ s' q', step s a = .ok s' ∧ Queued size s' q' := by
  cases a with
  | read t len quota => exact ⟨_, q, rfl, h.call t len _⟩
  | write t atomic data => exact ⟨_, q, rfl, h.call t data.length _⟩
  | acquire t => exact ⟨_, q, rfl, h.acquire t⟩
  | pass t interrupted =>
    rw [BufferThreads.step]
    split
    · next call _ =>
      rw [h.buffer]
      have hp := BufferCall.pass_raw q call interrupted
      generalize call.pass q.raw interrupted = result at hp
      cases hp with
      | waits => exact ⟨_, q, rfl, h.same rfl rfl rfl⟩
      | returns offset => exact ⟨_, q, rfl, h.same rfl rfl rfl⟩
      | copied q' next bytesIn bytesOut hs ho =>
        refine ⟨_, q', rfl, rfl, hs.trans h.size, ?_⟩
        change s.copiedIn ++ bytesIn = s.copiedOut ++ bytesOut ++ q'.contents
        rw [h.order, append_assoc, ho, append_assoc]
    · exact ⟨s, q, rfl, h⟩

omit [DecidableEq ι] in
theorem not_unread (q : CircularBuffer) {x : ℤ} (ho : q.raw.writePos ≤ x)
    (hh : x < q.raw.writePos + q.raw.writeAvailableCut) : ¬ q.raw.Unread x := by
  rintro ⟨-, -, hl⟩
  have hr := q.read_lt
  have hw := q.write_lt
  rw [q.writeAvailableCut_raw, q.writeAvailableCut_eq, q.writeAvailable_eq, q.readAvailable_eq] at hh
  change (q.writePos : ℤ) ≤ x at ho
  change x < (q.writePos : ℤ) + _ at hh
  change q.findDistance q.readPos x < q.findDistance q.readPos q.writePos at hl
  simp only [findDistance] at hl
  split_ifs at hl hh <;> omega

theorem Queued.fifo (h : Queued size s q) : Fifo s := by
  have hr := q.read_lt
  have hw := q.write_lt
  have ht := q.readAvailable_lt
  constructor
  · rw [h.buffer]
    exact ⟨natCast_nonneg _, ofNat_lt.mpr hr⟩
  · rw [h.buffer]
    exact ⟨natCast_nonneg _, ofNat_lt.mpr hw⟩
  · rw [h.buffer, q.readAvailable_raw, q.writeAvailable_raw, q.writeAvailable_eq]
    change _ = (q.size : ℤ) - 1
    omega
  · intro a he
    obtain ⟨s', q', hs, -⟩ := h.step a
    cases hs.symm.trans he
  · intro t atomic data offset _ x hl hh
    rw [h.buffer] at hl hh ⊢
    exact not_unread q hl (by omega)
  · rw [h.order]
    exact prefix_append _ _

/-- **A circular buffer is a FIFO** for every size of two at least and every interleaving of its
threads: positions stay inside the memory, no unread byte is overwritten, and the bytes copied out
are a prefix of the bytes copied in. -/
theorem fifo_of_reach {size : ℤ} (hsize : 2 ≤ size) (bytes : Memory)
    (run : Reach step (fun _ _ => True) (start size bytes) s) : Fifo s := by
  obtain ⟨n, rfl⟩ := eq_ofNat_of_zero_le (show 0 ≤ size by omega)
  have hst : ∃ q, Queued n (start (ι := ι) n bytes) q :=
    ⟨⟨n, 0, 0, bytes, by omega, by omega⟩, rfl, rfl, (contents_eq_nil _ rfl).symm⟩
  obtain ⟨q, hq⟩ := run.invariant (P := fun s => ∃ q, Queued n s q) hst
    fun s a s' ⟨q, hq⟩ _ hste => by
      obtain ⟨s'', q', hst', hq'⟩ := hq.step a
      obtain rfl := Except.ok.inj (hst'.symm.trans hste)
      exact ⟨q', hq'⟩
  exact hq.fifo

theorem fifo_of_reach_twoThreads :
    ∃ s ∈ execute step (fun _ _ => True) (start (ι := Bool) 4 fun _ => 0)
        [.write false false [1, 2, 3, 4], .acquire false, .pass false false, .pass false false,
          .read true 2 (-1), .acquire true, .pass true false, .pass true false, .acquire false,
          .pass false false],
      s.copiedIn = [1, 2, 3, 4] ∧ s.copiedOut = [1, 2] ∧ Fifo s := by
  exact exists_execute_both (by decide) fun s hs => fifo_of_reach (by decide) _ hs

/-- Three bytes are written and read; there is room for three again, but two do not go in at once. -/
theorem not_copiesAll_wrapped :
    ∃ s ∈ execute step (fun _ _ => True) (start (ι := Unit) 4 fun _ => 0)
        [.write () false [1, 2, 3], .acquire (), .pass () false, .pass () false,
          .read () 3 1, .acquire (), .pass () false, .pass () false],
      s.buffer.readAvailable = 0 ∧ 2 ≤ s.buffer.writeAvailable ∧
        ¬ BufferCall.CopiesAll s.buffer [8, 9] := by
  refine ⟨_, rfl, by decide, by decide, ?_⟩
  rintro (hno | hall)
  · cases hno
  obtain ⟨b', hpa⟩ := hall 0 false
  cases hpa

end BufferThreads

end AexKernel.Mem
