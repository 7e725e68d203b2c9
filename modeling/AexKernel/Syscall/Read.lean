import AexKernel.Library.ByteMemory
import AexKernel.Syscall.Credentials

/-! # The `read` system call (`syscall/fs.cpp`)

`read` goes through a buffer of 1024 bytes on the kernel stack. -/

namespace AexKernel.Syscall

open Library List Memory

/-- `EINTR`. -/
def eintr : Errno := .file 26

/-- What `file->read(buffer, len)` comes to, as an `optional<ssize_t>`. -/
inductive ReadTry
  | failed (errorCode : Errno)
  /-- The value is the number of bytes that were stored at the start of `buffer`. -/
  | got (bytes : List (BitVec 8)) (errorCode : Errno)
  deriving DecidableEq, Repr

/-- An open file object: `read` stores at most `len` bytes. -/
structure FileOps (φ : Type) where
  read : φ → ℕ → ReadTry × φ
  length_le : ∀ file len bytes code, (read file len).1 = .got bytes code → bytes.length ≤ len

/-- `sizeof(buffer)`. -/
def bufferSize : ℕ := 1024

/-- The variables of `read` that its loop changes, and user memory. -/
structure Reading (φ : Type) where
  file : φ
  /-- The bytes of `buffer`. -/
  buffer : Memory
  memory : Memory
  read : ℤ := 0

/-- What `read` returns and leaves. -/
structure ReadResult where
  ret : ℤ
  errno : Option Errno
  memory : Memory

/-- `k2u_memcpy(dst, src, len)`. -/
def k2uMemcpy (memory : Memory) (dst : ℕ) (src : Memory) (len : ℕ) : Memory :=
  memory.overlay dst len fun x => src (x - dst)

section Loop

variable {φ : Type} (ops : FileOps φ) (usrBuf count : ℕ)

/-- The loop of `read`, for at most so many rounds, from `i` on. -/
def readLoop : ℕ → ℕ → Reading φ → ReadResult
  | 0, _, s => ⟨s.read, none, s.memory⟩
  | rounds + 1, i, s =>
    if i < count then
      let len := min (count - i) bufferSize
      match ops.read s.file len with
      | (.failed _, _) => ⟨-1, some .einval, s.memory⟩
      | (.got bytes errorCode, file) =>
        let buffer := s.buffer.store 0 bytes
        let memory := k2uMemcpy s.memory (usrBuf + i) buffer len
        let read := s.read + bytes.length
        if errorCode ≠ eintr then ⟨read, none, memory⟩
        else readLoop rounds (i + bufferSize) ⟨file, buffer, memory, read⟩
    else ⟨s.read, none, s.memory⟩

/-- `read(fd, usr_buf, count)`, with what `get_file(fd)` comes to and the bytes that are on the
stack where `buffer` is. -/
def read (file : Except Errno φ) (stack memory : Memory) : ReadResult :=
  match file with
  | .error errorCode => ⟨-1, some errorCode, memory⟩
  | .ok file => readLoop ops usrBuf count count 0 { file := file, buffer := stack, memory := memory }

/-- The reads that the loop makes. -/
def readTries : ℕ → ℕ → φ → List (ℕ × ReadTry)
  | 0, _, _ => []
  | rounds + 1, i, file =>
    if i < count then
      let len := min (count - i) bufferSize
      match ops.read file len with
      | (.failed errorCode, _) => [(len, .failed errorCode)]
      | (.got bytes errorCode, file) =>
        (len, .got bytes errorCode) ::
          if errorCode ≠ eintr then [] else readTries rounds (i + bufferSize) file
    else []

theorem readLoop_enough {n i : ℕ} (h : count ≤ i + n) (s : Reading φ) :
    readLoop ops usrBuf count (n + 1) i s = readLoop ops usrBuf count n i s := by
  induction n generalizing i s with
  | zero =>
    rw [Nat.add_zero] at h
    exact if_neg (Nat.not_lt.mpr h)
  | succ n ih =>
    have hn := fun s => ih (i := i + bufferSize) (by rw [bufferSize]; omega) s
    rw [readLoop]
    conv_rhs => rw [readLoop]
    simp only [hn]

end Loop

/-! ## What the user gets -/

def ReadTry.bytes : ReadTry → List (BitVec 8)
  | .failed _ => []
  | .got bytes _ => bytes

def ReadTry.isFailed : ReadTry → Bool
  | .failed _ => true
  | .got _ _ => false

/-- A read has returned all the bytes that it was asked for. -/
def ReadTry.Full (len : ℕ) : ReadTry → Prop
  | .failed _ => False
  | .got bytes _ => bytes.length = len

variable {len a n x : ℕ}

theorem ReadTry.Full.not_isFailed {t : ReadTry} (h : t.Full len) : ¬ t.isFailed := by
  cases t with
  | failed code => exact h.elim
  | got bytes code => exact Bool.false_ne_true

def returned (tries : List (ℕ × ReadTry)) : List (BitVec 8) := tries.flatMap (·.2.bytes)

def copied (tries : List (ℕ × ReadTry)) : ℕ :=
  (tries.map fun t => match t.2 with | .failed _ => 0 | .got _ _ => t.1).sum

/-- Every read returns all that it was asked for, or the first one fails. -/
def Filled (tries : List (ℕ × ReadTry)) : Prop :=
  (∀ t ∈ tries, t.2.Full t.1) ∨ ∃ len errorCode, tries = [(len, .failed errorCode)]

/-- Whatever was on the stack and in user memory. -/
structure OnlyFileData {φ : Type} (ops : FileOps φ) (usrBuf count : ℕ) (file : φ) : Prop where
  kept : ∀ stack memory x, (x < usrBuf ∨ usrBuf + (read ops usrBuf count (.ok file) stack memory).ret ≤ x) →
    (read ops usrBuf count (.ok file) stack memory).memory x = memory x
  bytes : ∀ stack memory (k : ℕ), k < (read ops usrBuf count (.ok file) stack memory).ret →
    (returned (readTries ops count count 0 file))[k]? =
      some ((read ops usrBuf count (.ok file) stack memory).memory (usrBuf + k))
  independent : ∀ stack stack' memory, (read ops usrBuf count (.ok file) stack memory).memory =
    (read ops usrBuf count (.ok file) stack' memory).memory

section Proofs

variable {φ : Type} {ops : FileOps φ} {usrBuf count n i : ℕ} {s : Reading φ}

theorem readTries_succ (hi : i < count) (file : φ) :
    readTries ops count (n + 1) i file =
      match ops.read file (min (count - i) bufferSize) with
      | (.failed code, _) => [(min (count - i) bufferSize, .failed code)]
      | (.got bytes code, file) =>
        (min (count - i) bufferSize, .got bytes code) ::
          if code ≠ eintr then [] else readTries ops count n (i + bufferSize) file :=
  if_pos hi

theorem readTries_next (file : φ) (h : readTries ops count n (i + bufferSize) file ≠ []) :
    min (count - i) bufferSize = bufferSize := by
  cases n with
  | zero => exact absurd rfl h
  | succ n =>
    by_cases hi : i + bufferSize < count
    · omega
    · exact absurd (if_neg hi) h

variable {file : φ}

theorem readTries_spec {t : ℕ × ReadTry} (h : t ∈ readTries ops count n i file) :
    0 < t.1 ∧ t.2.bytes.length ≤ t.1 := by
  induction n generalizing i file with
  | zero => cases h
  | succ n ih =>
    by_cases hi : i < count
    · rw [readTries_succ hi] at h
      have hl : 0 < min (count - i) bufferSize := by rw [bufferSize]; omega
      split at h
      · next he =>
        obtain rfl := mem_singleton.mp h
        exact ⟨hl, Nat.zero_le _⟩
      next bytes code file' he =>
      rcases mem_cons.mp h with rfl | hr
      · exact ⟨hl, ops.length_le file _ bytes code (congrArg Prod.fst he)⟩
      split_ifs at hr with hc
      · cases hr
      · exact ih hr
    · rw [readTries, if_neg hi] at h
      cases h

theorem copied_got (len : ℕ) (bytes : List (BitVec 8)) (code : Errno)
    (rest : List (ℕ × ReadTry)) : copied ((len, .got bytes code) :: rest) = len + copied rest := by
  rw [copied, map_cons, sum_cons]
  rfl

variable (c c' memory : Memory)

theorem overlay_chunk (file : φ) : ∃ d : Memory, ∀ m : Memory,
    (m.overlay (usrBuf + i) (min (count - i) bufferSize) c).overlay (usrBuf + (i + bufferSize))
        (copied (readTries ops count n (i + bufferSize) file)) c' =
      m.overlay (usrBuf + i) (min (count - i) bufferSize +
        copied (readTries ops count n (i + bufferSize) file)) d := by
  by_cases hr : readTries ops count n (i + bufferSize) file = []
  · refine ⟨c, fun m => ?_⟩
    rw [hr]
    exact overlay_zero _ _ _
  · rw [readTries_next file hr, ← Nat.add_assoc]
    exact ⟨_, fun m => overlay_overlay m c c' _ _ _⟩

theorem readLoop_memory (ops : FileOps φ) (usrBuf count n i : ℕ) (s : Reading φ) : ∃ c : Memory, ∀ memory : Memory,
    (readLoop ops usrBuf count n i { s with memory := memory }).memory =
      memory.overlay (usrBuf + i) (copied (readTries ops count n i s.file)) c := by
  induction n generalizing i s with
  | zero => exact ⟨s.memory, fun memory => (overlay_zero _ _ _).symm⟩
  | succ n ih =>
    by_cases hi : i < count
    · rcases hr : ops.read s.file (min (count - i) bufferSize) with ⟨_ | ⟨bytes, code⟩, file⟩
      · refine ⟨s.memory, fun memory => ?_⟩
        simp only [readLoop, readTries, if_pos hi, hr]
        exact (overlay_zero _ _ _).symm
      simp only [readLoop, readTries, if_pos hi, hr, copied_got, k2uMemcpy]
      by_cases ho : code = eintr
      · obtain ⟨c, hc⟩ := ih (i + bufferSize)
          ⟨file, s.buffer.store 0 bytes, s.memory, s.read + bytes.length⟩
        simp only [ho, ne_eq, not_true_eq_false, if_false, hc]
        exact overlay_chunk _ c file
      · simp only [ne_eq, ho, not_false_eq_true, if_true]
        exact ⟨_, fun memory => rfl⟩
    · refine ⟨s.memory, fun memory => ?_⟩
      rw [readLoop, readTries, if_neg hi, if_neg hi]
      exact (overlay_zero _ _ _).symm

theorem readLoop_ret (n i : ℕ) (s : Reading φ) :
    (readLoop ops usrBuf count n i s).ret =
      if (readTries ops count n i s.file).any (·.2.isFailed) then -1
      else s.read + (returned (readTries ops count n i s.file)).length := by
  induction n generalizing i s with
  | zero => simp [readLoop, readTries, returned]
  | succ n ih =>
    by_cases hi : i < count
    · rcases hr : ops.read s.file (min (count - i) bufferSize) with ⟨_ | ⟨bytes, code⟩, file⟩
      · simp [readLoop, readTries, hi, hr, ReadTry.isFailed]
      by_cases hc : code = eintr
      · have hl : readLoop ops usrBuf count (n + 1) i s = readLoop ops usrBuf count n
            (i + bufferSize) ⟨file, s.buffer.store 0 bytes, k2uMemcpy s.memory (usrBuf + i)
              (s.buffer.store 0 bytes) (min (count - i) bufferSize), s.read + bytes.length⟩ := by
          simp [readLoop, hi, hr, hc]
        have ht : readTries ops count (n + 1) i s.file =
            (min (count - i) bufferSize, .got bytes code) ::
              readTries ops count n (i + bufferSize) file := by
          simp [readTries, hi, hr, hc]
        rw [hl, ih, ht, any_cons, returned, returned, flatMap_cons,
          length_append, Nat.cast_add, ← Int.add_assoc]
        rfl
      · simp [readLoop, readTries, hi, hr, hc, returned, ReadTry.bytes, ReadTry.isFailed]
    · simp [readLoop, readTries, hi, returned]

theorem k2uMemcpy_full (dst : ℕ) (buffer : Memory) {bytes : List (BitVec 8)}
    (h : bytes.length = len) :
    k2uMemcpy memory dst (buffer.store 0 bytes) len = memory.store dst bytes := by
  funext x
  rcases Nat.lt_or_ge x dst with hl | hl
  · rw [k2uMemcpy, overlay_of_not_mem (.inl hl), store_of_not_mem (.inl hl)]
  obtain ⟨k, rfl⟩ := Nat.exists_eq_add_of_le hl
  rcases Nat.lt_or_ge k len with hk | hk
  · have hb := store_add (m := buffer) (a := 0) (h ▸ hk)
    rw [Nat.zero_add] at hb
    rw [k2uMemcpy, overlay_of_mem hl (by omega), Nat.add_sub_cancel_left, hb, store_add (h ▸ hk)]
  · rw [k2uMemcpy, overlay_of_not_mem (by omega), store_of_not_mem (by omega)]

theorem store_chunk {bytes : List (BitVec 8)} (hl : bytes.length = min (count - i) bufferSize) :
    (memory.store (usrBuf + i) bytes).store (usrBuf + (i + bufferSize))
        (returned (readTries ops count n (i + bufferSize) file)) =
      memory.store (usrBuf + i)
        (bytes ++ returned (readTries ops count n (i + bufferSize) file)) := by
  by_cases hr : readTries ops count n (i + bufferSize) file = []
  · rw [hr, returned, flatMap_nil, store_nil, append_nil]
  · rw [← store_append, hl, readTries_next file hr, Nat.add_assoc]

theorem readLoop_full (n i : ℕ) (s : Reading φ)
    (hf : ∀ t ∈ readTries ops count n i s.file, t.2.Full t.1) :
    (readLoop ops usrBuf count n i s).memory =
      s.memory.store (usrBuf + i) (returned (readTries ops count n i s.file)) := by
  induction n generalizing i s with
  | zero => exact (store_nil _ _).symm
  | succ n ih =>
    by_cases hi : i < count
    · rcases he : ops.read s.file (min (count - i) bufferSize) with ⟨_ | ⟨bytes, code⟩, file⟩
      · simp only [readTries, if_pos hi, he, forall_mem_singleton] at hf
        exact hf.elim
      simp only [readTries, if_pos hi, he, forall_mem_cons] at hf
      obtain ⟨hl, hr⟩ := hf
      have hh := k2uMemcpy_full s.memory (usrBuf + i) s.buffer hl
      simp only [readLoop, readTries, if_pos hi, he, hh, returned, flatMap_cons]
      by_cases hc : code = eintr
      · simp only [hc, ne_eq, not_true_eq_false, if_false] at hr ⊢
        rw [ih _ ⟨file, _, _, _⟩ hr]
        exact store_chunk s.memory hl
      · simp only [ne_eq, hc, not_false_eq_true, if_true, flatMap_nil, append_nil]
        rfl
    · rw [readLoop, readTries, if_neg hi, if_neg hi]
      exact (store_nil _ _).symm

/-! ## What is disclosed -/

theorem returned_got (len : ℕ) (bytes : List (BitVec 8)) (code : Errno)
    (rest : List (ℕ × ReadTry)) :
    returned ((len, .got bytes code) :: rest) = bytes ++ returned rest := by
  rw [returned, flatMap_cons]
  rfl

section

variable {tries : List (ℕ × ReadTry)} (hfit : ∀ t ∈ tries, t.2.bytes.length ≤ t.1)
include hfit

theorem length_returned_le : (returned tries).length ≤ copied tries := by
  induction tries with
  | nil => exact le_rfl
  | cons t rest ih =>
    obtain ⟨hf, hr⟩ := forall_mem_cons.mp hfit
    obtain ⟨len, _ | ⟨bytes, code⟩⟩ := t
    · exact (ih hr).trans (Nat.le_of_eq (Nat.zero_add _).symm)
    rw [returned_got, copied_got, length_append]
    exact Nat.add_le_add hf (ih hr)

theorem full_of_copied_le (ho : tries.any (·.2.isFailed) = false)
    (h : copied tries ≤ (returned tries).length) : ∀ t ∈ tries, t.2.Full t.1 := by
  induction tries with
  | nil => exact nofun
  | cons t rest ih =>
    obtain ⟨hf, hr⟩ := forall_mem_cons.mp hfit
    rw [any_cons, Bool.or_eq_false_iff] at ho
    obtain ⟨len, _ | ⟨bytes, code⟩⟩ := t
    · exact absurd ho.1 nofun
    rw [returned_got, copied_got, length_append] at h
    have hl := length_returned_le hr
    have hb : bytes.length ≤ len := hf
    refine forall_mem_cons.mpr ⟨?_, ih hr ho.2 (by omega)⟩
    exact (by omega : bytes.length = len)

end

theorem failed_of_copied_eq_zero
    (hf : (readTries ops count n i file).any (·.2.isFailed) = true)
    (h : copied (readTries ops count n i file) = 0) :
    ∃ len code, readTries ops count n i file = [(len, .failed code)] := by
  cases n with
  | zero => exact absurd hf nofun
  | succ n =>
    by_cases hi : i < count
    · rw [readTries_succ hi] at hf h ⊢
      split at h
      · exact ⟨_, _, rfl⟩
      rw [copied_got, bufferSize] at h
      omega
    · rw [readTries, if_neg hi] at hf
      cases hf

theorem exists_overlay_ne {c : Memory} (hl : a ≤ x) (hh : x < a + n) :
    ∃ m : Memory, m.overlay a n c x ≠ m x := by
  refine ⟨fun _ => ~~~ c x, ?_⟩
  rw [overlay_of_mem hl hh]
  intro h
  have hb := congrArg (·.getLsbD 0) h
  simp at hb

theorem filled_of_onlyFileData (h : OnlyFileData ops usrBuf count file) :
    Filled (readTries ops count count 0 file) := by
  -- what the call leaves of any user memory, for an empty stack
  obtain ⟨c, hc⟩ := readLoop_memory ops usrBuf count count 0 ⟨file, fun _ => 0, fun _ => 0, 0⟩
  have hk := h.kept fun _ => 0
  simp only [read, readLoop_ret, hc, Nat.add_zero, Int.zero_add] at hk
  by_cases hf : (readTries ops count count 0 file).any (·.2.isFailed) = true
  · refine .inr (failed_of_copied_eq_zero hf (Nat.eq_zero_of_not_pos fun hp => ?_))
    obtain ⟨m, hm⟩ := exists_overlay_ne (c := c) (le_refl usrBuf) (Nat.lt_add_of_pos_right hp)
    simp only [hf, if_true] at hk
    exact hm (hk m usrBuf (.inr (by omega)))
  refine .inl (full_of_copied_le (fun t ht => (readTries_spec ht).2) (by simpa using hf) ?_)
  by_contra hs
  -- the last byte that is copied lies behind those that are returned
  obtain ⟨m, hm⟩ := exists_overlay_ne (c := c) (a := usrBuf)
    (n := copied (readTries ops count count 0 file))
    (x := usrBuf + (copied (readTries ops count count 0 file) - 1)) (by omega) (by omega)
  simp only [hf, if_false, Bool.false_eq_true] at hk
  exact hm (hk m _ (.inr (by push_cast; omega)))

theorem onlyFileData_of_filled (h : Filled (readTries ops count count 0 file)) :
    OnlyFileData ops usrBuf count file := by
  rcases h with hf | ⟨len, code, ha⟩
  · have ho : (readTries ops count count 0 file).any (·.2.isFailed) = false :=
      any_eq_false.mpr fun t ht => (hf t ht).not_isFailed
    have hr : ∀ stack memory, (read ops usrBuf count (.ok file) stack memory).ret =
        (returned (readTries ops count count 0 file)).length := by
      intro stack memory
      rw [read, readLoop_ret, ho, if_neg Bool.false_ne_true, Int.zero_add]
    have hm : ∀ stack memory, (read ops usrBuf count (.ok file) stack memory).memory =
        memory.store usrBuf (returned (readTries ops count count 0 file)) :=
      fun stack memory => readLoop_full count 0 _ hf
    refine ⟨fun stack memory x hx => ?_, fun stack memory k hk => ?_, fun stack stack' memory => ?_⟩
    · rw [hr] at hx
      rw [hm, store_of_not_mem (by omega)]
    · rw [hr, Nat.cast_lt] at hk
      rw [hm, store_add hk, getD_eq_getElem _ _ hk, getElem?_eq_getElem hk]
    · rw [hm, hm]
  have hr : ∀ stack memory, (read ops usrBuf count (.ok file) stack memory).ret = -1 := by
    intro stack memory
    rw [read, readLoop_ret, ha]
    rfl
  have hm : ∀ stack memory, (read ops usrBuf count (.ok file) stack memory).memory = memory := by
    intro stack memory
    obtain ⟨c, hc⟩ := readLoop_memory ops usrBuf count count 0 ⟨file, stack, memory, 0⟩
    rw [read, hc, ha]
    exact overlay_zero _ _ _
  refine ⟨fun stack memory x _ => ?_, fun stack memory k hk => ?_, fun stack stack' memory => ?_⟩
  · rw [hm]
  · rw [hr] at hk
    omega
  · rw [hm, hm]

/-- **`read` discloses only file data** exactly when every read of the file returns all the bytes
that it is asked for, or the first one fails. -/
theorem onlyFileData_iff (ops : FileOps φ) (usrBuf count : ℕ) (file : φ) :
    OnlyFileData ops usrBuf count file ↔ Filled (readTries ops count count 0 file) :=
  ⟨filled_of_onlyFileData, onlyFileData_of_filled⟩

def listFile : FileOps (List (BitVec 8)) where
  read file len := (.got (file.take len) .none, file.drop len)
  length_le := by
    intro file len bytes code h
    obtain ⟨rfl, -⟩ := ReadTry.got.inj h
    exact List.length_take_le len file

theorem onlyFileData_iff_threeBytes : OnlyFileData listFile 4096 3 [1, 2, 3, 4] :=
  (onlyFileData_iff listFile 4096 3 [1, 2, 3, 4]).mpr
    (.inl (by simp [readTries, listFile, bufferSize, ReadTry.Full]))

theorem not_onlyFileData_endOfFile :
    (read listFile 4096 1 (.ok []) (fun _ => 0xA5) (fun _ => 0)).ret = 0 ∧
      (read listFile 4096 1 (.ok []) (fun _ => 0xA5) (fun _ => 0)).memory 4096 = 0xA5 ∧
      ¬ OnlyFileData listFile 4096 1 [] :=
  ⟨by decide, by decide, fun h => absurd (h.kept (fun _ => 0xA5) (fun _ => 0) 4096) (by decide)⟩

end Proofs

end AexKernel.Syscall
