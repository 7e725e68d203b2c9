import AexKernel.Library.ByteMemory

/-! # Circular buffers (`mem/circularbuffer.cpp`)

A `CircularBuffer` of `size` bytes holds at most `size - 1` of them, between `m_readPos` and
`m_writePos`. -/

namespace AexKernel.Mem

open Library List Nat

/-- `CircularBuffer`: its memory and the two positions, which are always inside it. -/
structure CircularBuffer where
  /-- `m_size`. -/
  size : ℕ
  /-- `m_readPos`. -/
  readPos : ℕ
  /-- `m_writePos`. -/
  writePos : ℕ
  /-- The bytes of `m_buffer`. -/
  bytes : Memory
  read_lt : readPos < size
  write_lt : writePos < size

namespace CircularBuffer

def new (size : ℕ) (h : 0 < size) : CircularBuffer where
  size := size
  readPos := 0
  writePos := 0
  bytes := fun _ => 0#8
  read_lt := h
  write_lt := h

/-- `findDistance(a, b)`. -/
def findDistance (q : CircularBuffer) (a b : ℤ) : ℤ :=
  let a := if a < 0 then a + q.size else a
  let b := if b < 0 then b + q.size else b
  let c := b - a
  if c < 0 then c + q.size else c

/-- `readAvailable()`. -/
def readAvailable (q : CircularBuffer) : ℕ :=
  (min (q.size : ℤ) (q.findDistance q.readPos q.writePos)).toNat

/-- `writeAvailable()`. -/
def writeAvailable (q : CircularBuffer) : ℕ :=
  (min (q.size : ℤ) (q.findDistance q.writePos (q.readPos - 1))).toNat

/-- `readAvailableCut()`: what can be read up to the end of the memory. -/
def readAvailableCut (q : CircularBuffer) : ℕ :=
  (min (min (q.size : ℤ) (q.size - q.readPos)) (q.findDistance q.readPos q.writePos)).toNat

/-- `writeAvailableCut()`: what can be written up to the end of the memory. -/
def writeAvailableCut (q : CircularBuffer) : ℕ :=
  (min (min (q.size : ℤ) (q.size - q.writePos))
    (q.findDistance q.writePos (q.readPos - 1))).toNat

/-- A position after `n` more bytes. -/
def advance (q : CircularBuffer) (pos n : ℕ) : ℕ := if pos + n < q.size then pos + n else 0

variable (q : CircularBuffer)

theorem advance_lt (pos n : ℕ) : q.advance pos n < q.size := by
  have := q.read_lt
  rw [advance]
  split <;> omega

/-- One pass of the loop of `write`. -/
def writeChunk (q : CircularBuffer) (chunk : List (BitVec 8)) : CircularBuffer where
  size := q.size
  readPos := q.readPos
  writePos := q.advance q.writePos chunk.length
  bytes := q.bytes.overlay q.writePos chunk.length fun x => chunk.getD (x - q.writePos) 0#8
  read_lt := q.read_lt
  write_lt := q.advance_lt _ _

/-- One pass of the loop of `read`. -/
def readChunk (q : CircularBuffer) (n : ℕ) : CircularBuffer × List (BitVec 8) :=
  ({ size := q.size
     readPos := q.advance q.readPos n
     writePos := q.writePos
     bytes := q.bytes
     read_lt := q.advance_lt _ _
     write_lt := q.write_lt },
   (List.range n).map fun k => q.bytes (q.readPos + k))

/-- The loop of `write`. -/
def writeLoop : ℕ → CircularBuffer → List (BitVec 8) → CircularBuffer × List (BitVec 8)
  | 0, q, data => (q, data)
  | fuel + 1, q, data =>
    let clen := min data.length q.writeAvailableCut
    if clen = 0 then (q, data)
    else writeLoop fuel (q.writeChunk (data.take clen)) (data.drop clen)

/-- `write(buffer, len)`. -/
def write (q : CircularBuffer) (data : List (BitVec 8)) : CircularBuffer × List (BitVec 8) :=
  writeLoop data.length q data

/-- The loop of `read`. It stops where the thread would have to wait for a writer. -/
def readLoop : ℕ → CircularBuffer → ℕ → List (BitVec 8) → CircularBuffer × List (BitVec 8)
  | 0, q, _, done => (q, done)
  | fuel + 1, q, len, done =>
    let clen := min len q.readAvailableCut
    if clen = 0 then (q, done)
    else readLoop fuel (q.readChunk clen).1 (len - clen) (done ++ (q.readChunk clen).2)

/-- `read(buffer, len)`: the buffer after it and the bytes read. -/
def read (q : CircularBuffer) (len : ℕ) : CircularBuffer × List (BitVec 8) := readLoop len q len []

/-- `resize(new_size)`: the buffer is emptied. -/
def resize (q : CircularBuffer) : CircularBuffer where
  size := q.size
  readPos := 0
  writePos := 0
  bytes := q.bytes
  read_lt := Nat.zero_lt_of_lt q.read_lt
  write_lt := Nat.zero_lt_of_lt q.read_lt

def contents (q : CircularBuffer) : List (BitVec 8) :=
  (List.range q.readAvailable).map fun k => q.bytes ((q.readPos + k) % q.size)

/-! ## Counting -/

theorem readAvailable_eq :
    q.readAvailable = if q.readPos ≤ q.writePos then q.writePos - q.readPos
      else q.writePos + q.size - q.readPos := by
  have h2 := q.write_lt
  rw [readAvailable, findDistance]
  simp only [Int.natCast_nonneg, not_lt_of_ge, if_false]
  by_cases h : q.readPos ≤ q.writePos
  · rw [if_pos h, if_neg (by omega)]
    omega
  · rw [if_neg h, if_pos (by omega)]
    omega

theorem findDistance_write :
    q.findDistance q.writePos (q.readPos - 1) = q.size - 1 - q.readAvailable := by
  have h1 := q.read_lt
  have h2 := q.write_lt
  rw [readAvailable_eq, findDistance]
  simp only [Int.natCast_nonneg, not_lt_of_ge, if_false]
  by_cases hz : q.readPos = 0
  · rw [if_pos (show (q.readPos : ℤ) - 1 < 0 by omega), if_neg (by omega), if_pos (by omega)]
    omega
  rw [if_neg (show ¬ (q.readPos : ℤ) - 1 < 0 by omega)]
  by_cases h : q.readPos ≤ q.writePos
  · rw [if_pos h, if_pos (by omega)]
    omega
  · rw [if_neg h, if_neg (by omega)]
    omega

theorem findDistance_read : q.findDistance q.readPos q.writePos = q.readAvailable := by
  have h1 := q.read_lt
  rw [readAvailable_eq, findDistance]
  simp only [Int.natCast_nonneg, not_lt_of_ge, if_false]
  by_cases h : q.readPos ≤ q.writePos
  · rw [if_pos h, if_neg (by omega)]
    omega
  · rw [if_neg h, if_pos (by omega)]
    omega

theorem readAvailable_lt : q.readAvailable < q.size := by
  have h2 := q.write_lt
  rw [readAvailable_eq]
  split <;> omega

theorem writeAvailable_eq : q.writeAvailable = q.size - 1 - q.readAvailable := by
  rw [writeAvailable, findDistance_write]
  omega

theorem writeAvailableCut_eq :
    q.writeAvailableCut = min (q.size - q.writePos) q.writeAvailable := by
  rw [writeAvailable_eq, writeAvailableCut, findDistance_write]
  omega

theorem readAvailableCut_eq : q.readAvailableCut = min (q.size - q.readPos) q.readAvailable := by
  rw [readAvailableCut, findDistance_read]
  omega

@[simp] theorem length_contents : q.contents.length = q.readAvailable := by
  rw [contents, length_map, length_range]

theorem contents_eq_nil (q : CircularBuffer) (h : q.readPos = q.writePos) : q.contents = [] := by
  have hz : q.readAvailable = 0 := by rw [readAvailable_eq, if_pos h.le, h, Nat.sub_self]
  rw [contents, hz]
  rfl

@[simp] theorem contents_resize : q.resize.contents = [] :=
  contents_eq_nil _ rfl

@[simp] theorem contents_new (size : ℕ) (h : 0 < size) : (new size h).contents = [] :=
  contents_eq_nil _ rfl

/-! ## First in, first out -/

theorem advance_eq (q : CircularBuffer) {pos n : ℕ} (h : pos + n ≤ q.size) :
    q.advance pos n = (pos + n) % q.size := by
  have := q.read_lt
  rw [advance]
  by_cases hl : pos + n < q.size
  · rw [if_pos hl, mod_eq_of_lt hl]
  · rw [if_neg hl, show pos + n = q.size by omega, mod_self]

variable {chunk data : List (BitVec 8)}

section

variable (h : chunk.length ≤ q.writeAvailableCut)
include h

theorem readAvailable_writeChunk :
    (q.writeChunk chunk).readAvailable = q.readAvailable + chunk.length := by
  have h1 := q.read_lt
  have h2 := q.write_lt
  rw [writeAvailableCut_eq, writeAvailable_eq] at h
  rw [readAvailable_eq] at h
  rw [readAvailable_eq, readAvailable_eq]
  simp only [writeChunk, advance]
  split_ifs at * <;> omega

/-- **A chunk that fits is appended to the unread bytes.** -/
theorem contents_writeChunk : (q.writeChunk chunk).contents = q.contents ++ chunk := by
  have h1 := q.read_lt
  have hc := q.readAvailable_writeChunk h
  rw [writeAvailableCut_eq, writeAvailable_eq] at h
  have hr := q.readAvailable_eq
  have hl := q.readAvailable_lt
  refine ext_getElem (by simp [hc]) fun k hk hk' => ?_
  rw [length_contents, hc] at hk
  rw [getElem_append]
  simp only [contents, getElem_map, getElem_range, length_map, length_range]
  simp only [writeChunk]
  by_cases hold : k < q.readAvailable
  · -- an old byte: its index is not in the chunk
    rw [dif_pos hold, Memory.overlay_of_not_mem]
    by_cases hw : q.readPos + k < q.size
    · rw [mod_eq_of_lt hw]
      split_ifs at hr <;> omega
    · rw [mod_eq_sub_mod (by omega), mod_eq_of_lt (by omega)]
      split_ifs at hr <;> omega
  rw [dif_neg hold]
  have hi : (q.readPos + k) % q.size = q.writePos + (k - q.readAvailable) := by
    by_cases hw : q.readPos + k < q.size
    · rw [mod_eq_of_lt hw]
      split_ifs at hr <;> omega
    · rw [mod_eq_sub_mod (by omega), mod_eq_of_lt (by split_ifs at hr <;> omega)]
      split_ifs at hr <;> omega
  rw [hi, Memory.overlay_of_mem (by omega) (by omega), Nat.add_sub_cancel_left,
    getD_eq_getElem _ _ (by omega)]

end

variable {n len : ℕ}

theorem readAvailable_readChunk (h : n ≤ q.readAvailableCut) :
    (q.readChunk n).1.readAvailable = q.readAvailable - n := by
  have h1 := q.read_lt
  have h2 := q.write_lt
  rw [readAvailableCut_eq, readAvailable_eq] at h
  rw [readAvailable_eq, readAvailable_eq]
  simp only [readChunk, advance]
  split_ifs at * <;> omega

/-- **A chunk that is there is taken from the unread bytes.** -/
theorem contents_readChunk (h : n ≤ q.readAvailableCut) :
    (q.readChunk n).2 = q.contents.take n ∧ (q.readChunk n).1.contents = q.contents.drop n := by
  have h1 := q.read_lt
  have hc := q.readAvailable_readChunk h
  rw [readAvailableCut_eq] at h
  constructor
  · refine ext_getElem (by simp [readChunk]; omega) fun k hk hk' => ?_
    have hk : k < n := by simpa [readChunk] using hk
    simp only [readChunk, contents, getElem_take, getElem_map, getElem_range]
    rw [mod_eq_of_lt (by omega)]
  refine ext_getElem (by simp [hc]) fun k hk hk' => ?_
  rw [length_contents, hc] at hk
  simp only [contents, getElem_drop, getElem_map, getElem_range]
  simp only [readChunk]
  rw [advance_eq q (by omega), mod_add_mod, Nat.add_assoc]

variable (fuel : ℕ)

theorem size_writeLoop (q : CircularBuffer) (data : List (BitVec 8)) :
    (writeLoop fuel q data).1.size = q.size := by
  induction fuel generalizing q data with
  | zero => rfl
  | succ fuel ih =>
    rw [writeLoop]
    split
    · rfl
    · exact ih _ _

theorem size_readLoop (q : CircularBuffer) (len : ℕ) (done : List (BitVec 8)) :
    (readLoop fuel q len done).1.size = q.size := by
  induction fuel generalizing q len done with
  | zero => rfl
  | succ fuel ih =>
    rw [readLoop]
    split
    · rfl
    · exact ih _ _ _

theorem writeLoop_spec (q : CircularBuffer) (data : List (BitVec 8)) (hf : data.length ≤ fuel)
    (hi : data.length ≤ q.writeAvailable) :
    (writeLoop fuel q data).2 = [] ∧
      (writeLoop fuel q data).1.contents = q.contents ++ data := by
  induction fuel generalizing q data with
  | zero =>
    obtain rfl := length_eq_zero_iff.mp (le_zero.mp hf)
    simp [writeLoop]
  | succ fuel ih =>
    have hp := q.write_lt
    have hu := q.writeAvailableCut_eq
    rw [writeLoop]
    by_cases hd : min data.length q.writeAvailableCut = 0
    · obtain rfl := length_eq_zero_iff.mp (show data.length = 0 by omega)
      simp
    simp only [if_neg hd]
    generalize hcl : min data.length q.writeAvailableCut = clen at *
    have hl : (data.take clen).length = clen := by
      rw [length_take]
      omega
    have hc : (data.take clen).length ≤ q.writeAvailableCut := by omega
    have ho := q.readAvailable_writeChunk hc
    have hs : (q.writeChunk (data.take clen)).size = q.size := rfl
    have he := (q.writeChunk (data.take clen)).writeAvailable_eq
    have ha := q.writeAvailable_eq
    obtain ⟨h1, h2⟩ := ih (q.writeChunk (data.take clen)) (data.drop clen)
      (by rw [length_drop]; omega) (by rw [length_drop]; omega)
    refine ⟨h1, ?_⟩
    rw [h2, q.contents_writeChunk hc, append_assoc, take_append_drop]

theorem writeLoop_split (q : CircularBuffer) (data : List (BitVec 8)) :
    ∃ n, (writeLoop fuel q data).1.contents = q.contents ++ data.take n ∧
      (writeLoop fuel q data).2 = data.drop n := by
  induction fuel generalizing q data with
  | zero => exact ⟨0, by simp [writeLoop], rfl⟩
  | succ fuel ih =>
    rw [writeLoop]
    split
    · exact ⟨0, by simp, rfl⟩
    have hc : (data.take (min data.length q.writeAvailableCut)).length ≤ q.writeAvailableCut := by
      rw [length_take]
      omega
    obtain ⟨n, ho, hr⟩ := ih (q.writeChunk (data.take (min data.length
      q.writeAvailableCut))) (data.drop (min data.length q.writeAvailableCut))
    refine ⟨min data.length q.writeAvailableCut + n, ?_, ?_⟩
    · rw [ho, q.contents_writeChunk hc, append_assoc, ← take_add]
    · rw [hr, drop_drop]

/-- **A write that leaves nothing** has appended all of its data. -/
theorem contents_write_of_done (h : (q.write data).2 = []) :
    (q.write data).1.contents = q.contents ++ data := by
  obtain ⟨n, hc, hr⟩ := writeLoop_split data.length q data
  rw [write, hr] at h
  rw [write, hc, take_of_length_le (drop_eq_nil_iff.mp h)]

theorem contents_write (hf : data.length ≤ q.writeAvailable) :
    (q.write data).1.contents = q.contents ++ data :=
  (writeLoop_spec _ q data le_rfl hf).2

@[simp] theorem size_write (data : List (BitVec 8)) : (q.write data).1.size = q.size :=
  size_writeLoop _ q data

theorem readLoop_spec (fuel : ℕ) (q : CircularBuffer) (len : ℕ) (done : List (BitVec 8))
    (hf : len ≤ fuel) (ht : len ≤ q.readAvailable) :
    (readLoop fuel q len done).2 = done ++ q.contents.take len ∧
      (readLoop fuel q len done).1.contents = q.contents.drop len := by
  induction fuel generalizing q len done with
  | zero =>
    obtain rfl := le_zero.mp hf
    simp [readLoop]
  | succ fuel ih =>
    have hp := q.read_lt
    have hu := q.readAvailableCut_eq
    rw [readLoop]
    by_cases hd : min len q.readAvailableCut = 0
    · obtain rfl : len = 0 := by omega
      simp
    simp only [if_neg hd]
    generalize hl : min len q.readAvailableCut = clen at *
    have hc : clen ≤ q.readAvailableCut := by omega
    have ho := q.readAvailable_readChunk hc
    obtain ⟨hb, hr⟩ := q.contents_readChunk hc
    obtain ⟨h1, h2⟩ := ih (q.readChunk clen).1 (len - clen) (done ++ (q.readChunk clen).2)
      (by omega) (by omega)
    have hs : clen + (len - clen) = len := by omega
    refine ⟨?_, ?_⟩
    · rw [h1, hb, hr, append_assoc, ← take_add, hs]
    · rw [h2, hr, drop_drop, hs]

/-- **A read of bytes that are there** returns the oldest ones. -/
theorem read_eq_take (ht : len ≤ q.readAvailable) : (q.read len).2 = q.contents.take len := by
  rw [read, (readLoop_spec len q len [] le_rfl ht).1, nil_append]

theorem contents_read (ht : len ≤ q.readAvailable) :
    (q.read len).1.contents = q.contents.drop len :=
  (readLoop_spec len q len [] le_rfl ht).2

@[simp] theorem size_read (len : ℕ) : (q.read len).1.size = q.size :=
  size_readLoop len q len []

end CircularBuffer

end AexKernel.Mem
