import AexKernel.Basic
import AexKernel.Library.Run

/-! # Reader/writer locks (`kernel/rwspinlock.cpp`, `kernel/rwmutex.cpp`)

`RWSpinlock` and `RWMutex` have the same code, up to the counter of the thread that they raise while
the lock is held. -/

namespace AexKernel.Sync

open Library List

/-- The counters of a `RWSpinlock` or a `RWMutex`. -/
structure RWLock where
  /-- `m_read`. -/
  read : ℤ := 0
  /-- `m_write`. -/
  write : ℤ := 0

namespace RWLock

/-- A section of `acquire_read` under `m_lock`, or nothing where it goes round again. -/
def acquireRead (l : RWLock) : Option RWLock :=
  if l.write ≠ 0 then none else some { l with read := l.read + 1 }

/-- A section of `acquire_write` under `m_lock`. -/
def acquireWrite (l : RWLock) : Option RWLock :=
  if l.write ≠ 0 then none else some { l with write := l.write + 1 }

/-- `tryAcquire_read()`, which returns `false` where `acquire_read` goes round again. -/
def tryAcquireRead (l : RWLock) : Option RWLock := l.acquireRead

/-- `tryAcquire_write()`. -/
def tryAcquireWrite (l : RWLock) : Option RWLock := l.acquireWrite

/-- A section of `upgrade` under `m_lock`. -/
def upgrade (l : RWLock) : Option RWLock :=
  if l.write ≠ 0 then none else some { read := l.read - 1, write := l.write + 1 }

/-- `downgrade()`. -/
def downgrade (l : RWLock) : RWLock := { read := l.read + 1, write := l.write - 1 }

/-- `release_read()`. -/
def releaseRead (l : RWLock) : Except Fault RWLock :=
  if 0 < l.read then .ok { l with read := l.read - 1 }
  else .error (.assertion "Mem::atomic_read(&m_read) > 0")

/-- `release_write()`. -/
def releaseWrite (l : RWLock) : Except Fault RWLock :=
  if 0 < l.write then .ok { l with write := l.write - 1 }
  else .error (.assertion "Mem::atomic_read(&m_write) > 0")

end RWLock

/-! ## Threads -/

/-- A lock and the threads that hold it, each as often as it has acquired it. -/
structure RWThreads (ι : Type) where
  lock : RWLock := {}
  readers : List ι := []
  writers : List ι := []

/-- A step of a thread. -/
inductive RWOp (ι : Type)
  | acquireRead (t : ι)
  | acquireWrite (t : ι)
  | tryAcquireRead (t : ι)
  | tryAcquireWrite (t : ι)
  | upgrade (t : ι)
  | downgrade (t : ι)
  | releaseRead (t : ι)
  | releaseWrite (t : ι)

namespace RWThreads

variable {ι : Type} [DecidableEq ι]

/-- A thread that has become a reader, unless it has to wait. -/
def enterRead (s : RWThreads ι) (t : ι) : Option RWLock → RWThreads ι
  | none => s
  | some l => { s with lock := l, readers := t :: s.readers }

/-- A thread that has become a writer, unless it has to wait. -/
def enterWrite (s : RWThreads ι) (t : ι) : Option RWLock → RWThreads ι
  | none => s
  | some l => { s with lock := l, writers := t :: s.writers }

def step (s : RWThreads ι) : RWOp ι → Except Fault (RWThreads ι)
  | .acquireRead t => .ok (s.enterRead t s.lock.acquireRead)
  | .acquireWrite t => .ok (s.enterWrite t s.lock.acquireWrite)
  | .tryAcquireRead t => .ok (s.enterRead t s.lock.tryAcquireRead)
  | .tryAcquireWrite t => .ok (s.enterWrite t s.lock.tryAcquireWrite)
  | .upgrade t =>
    match s.lock.upgrade with
    | none => .ok s
    | some l => .ok { lock := l, readers := s.readers.erase t, writers := t :: s.writers }
  | .downgrade t =>
    .ok { lock := s.lock.downgrade, readers := t :: s.readers, writers := s.writers.erase t }
  | .releaseRead t => do
    let l ← s.lock.releaseRead
    return { s with lock := l, readers := s.readers.erase t }
  | .releaseWrite t => do
    let l ← s.lock.releaseWrite
    return { s with lock := l, writers := s.writers.erase t }

def Held (s : RWThreads ι) : RWOp ι → Prop
  | .upgrade t | .releaseRead t => t ∈ s.readers
  | .downgrade t | .releaseWrite t => t ∈ s.writers
  | _ => True

/-- A thread becomes a writer only when no other thread is a reader. -/
def Alone (s : RWThreads ι) : RWOp ι → Prop
  | .acquireWrite t | .tryAcquireWrite t | .upgrade t => s.lock.write = 0 → ∀ u ∈ s.readers, u = t
  | _ => True

/-- There is at most one writer, and while there is one, no other thread is a reader. -/
structure Exclusive (s : RWThreads ι) : Prop where
  writers : s.writers.length ≤ 1
  readers : ∀ t ∈ s.writers, ∀ u ∈ s.readers, u = t

/-- The counters count. -/
structure Counted (s : RWThreads ι) : Prop where
  read : s.lock.read = s.readers.length
  write : s.lock.write = s.writers.length

variable {s s' : RWThreads ι} {t : ι}

omit [DecidableEq ι] in
theorem enterRead_acquireRead (s : RWThreads ι) (t : ι) :
    s.enterRead t s.lock.acquireRead = if s.lock.write = 0 then
      { s with lock := ⟨s.lock.read + 1, s.lock.write⟩, readers := t :: s.readers } else s := by
  rw [RWLock.acquireRead]
  by_cases hw : s.lock.write = 0
  · rw [if_neg (not_not.mpr hw), if_pos hw]
    rfl
  · rw [if_pos hw, if_neg hw]
    rfl

omit [DecidableEq ι] in
theorem enterWrite_acquireWrite (s : RWThreads ι) (t : ι) :
    s.enterWrite t s.lock.acquireWrite = if s.lock.write = 0 then
      { s with lock := ⟨s.lock.read, s.lock.write + 1⟩, writers := t :: s.writers } else s := by
  rw [RWLock.acquireWrite]
  by_cases hw : s.lock.write = 0
  · rw [if_neg (not_not.mpr hw), if_pos hw]
    rfl
  · rw [if_pos hw, if_neg hw]
    rfl

theorem step_upgrade (s : RWThreads ι) (t : ι) :
    step s (.upgrade t) = .ok (if s.lock.write = 0 then
      ⟨⟨s.lock.read - 1, s.lock.write + 1⟩, s.readers.erase t, t :: s.writers⟩ else s) := by
  rw [step, RWLock.upgrade]
  by_cases hw : s.lock.write = 0
  · rw [if_neg (not_not.mpr hw), if_pos hw]
  · rw [if_pos hw, if_neg hw]

theorem step_releaseRead (h : step s (.releaseRead t) = .ok s') :
    s' = { s with lock := ⟨s.lock.read - 1, s.lock.write⟩, readers := s.readers.erase t } := by
  obtain ⟨l, hl, hp⟩ := bind_eq_ok.mp h
  rw [RWLock.releaseRead] at hl
  split_ifs at hl
  cases hl
  exact (Except.ok.inj hp).symm

theorem step_releaseWrite (h : step s (.releaseWrite t) = .ok s') :
    s' = { s with lock := ⟨s.lock.read, s.lock.write - 1⟩, writers := s.writers.erase t } := by
  obtain ⟨l, hl, hp⟩ := bind_eq_ok.mp h
  rw [RWLock.releaseWrite] at hl
  split_ifs at hl
  cases hl
  exact (Except.ok.inj hp).symm

/-! ## Counting -/

theorem length_erase {l : List ι} (h : t ∈ l) : ((l.erase t).length : ℤ) = l.length - 1 := by
  have := length_pos_of_mem h
  rw [length_erase_of_mem h]
  omega

variable {a : RWOp ι}

theorem Counted.step (h : Counted s) (hh : Held s a) (hs : step s a = .ok s') : Counted s' := by
  obtain ⟨hr, hw⟩ := h
  cases a with
  | acquireRead t | tryAcquireRead t =>
    obtain rfl := (s.enterRead_acquireRead t).symm.trans (Except.ok.inj hs)
    split_ifs
    · exact ⟨by simp [hr], hw⟩
    · exact ⟨hr, hw⟩
  | acquireWrite t | tryAcquireWrite t =>
    obtain rfl := (s.enterWrite_acquireWrite t).symm.trans (Except.ok.inj hs)
    split_ifs
    · exact ⟨hr, by simp [hw]⟩
    · exact ⟨hr, hw⟩
  | upgrade t =>
    obtain rfl := Except.ok.inj ((step_upgrade s t).symm.trans hs)
    split_ifs
    · exact ⟨by rw [hr]; exact (length_erase hh).symm, by simp [hw]⟩
    · exact ⟨hr, hw⟩
  | downgrade t =>
    cases hs
    refine ⟨by simp [RWLock.downgrade, hr], ?_⟩
    change s.lock.write - 1 = _
    rw [hw]
    exact (length_erase hh).symm
  | releaseRead t =>
    rw [step_releaseRead hs]
    exact ⟨by rw [hr]; exact (length_erase hh).symm, hw⟩
  | releaseWrite t =>
    rw [step_releaseWrite hs]
    exact ⟨hr, by rw [hw]; exact (length_erase hh).symm⟩

theorem Counted.returns (h : Counted s) (hh : Held s a) : ∃ s', RWThreads.step s a = .ok s' := by
  cases a with
  | acquireRead t | tryAcquireRead t | acquireWrite t | tryAcquireWrite t | downgrade t =>
    exact ⟨_, rfl⟩
  | upgrade t => exact ⟨_, step_upgrade s t⟩
  | releaseRead t =>
    have hp : 0 < s.lock.read := by
      have := length_pos_of_mem hh
      rw [h.read]
      omega
    exact ⟨_, by rw [RWThreads.step, RWLock.releaseRead, if_pos hp, ok_bind, pure_eq_ok]⟩
  | releaseWrite t =>
    have hp : 0 < s.lock.write := by
      have := length_pos_of_mem hh
      rw [h.write]
      omega
    exact ⟨_, by rw [RWThreads.step, RWLock.releaseWrite, if_pos hp, ok_bind, pure_eq_ok]⟩

/-! ## Exclusion -/

omit [DecidableEq ι] in
theorem Counted.no_writers (h : Counted s) (hf : s.lock.write = 0) : s.writers = [] := by
  rw [h.write] at hf
  exact length_eq_zero_iff.mp (by omega)

theorem Exclusive.step (h : Exclusive s) (hc : Counted s) (hh : Held s a) (ha : Alone s a)
    (hs : step s a = .ok s') : Exclusive s' := by
  cases a with
  | acquireRead t | tryAcquireRead t =>
    obtain rfl := (s.enterRead_acquireRead t).symm.trans (Except.ok.inj hs)
    split_ifs with hf
    · have hn := hc.no_writers hf
      exact ⟨h.writers, fun w hw => by rw [hn] at hw; cases hw⟩
    · exact h
  | acquireWrite t | tryAcquireWrite t =>
    obtain rfl := (s.enterWrite_acquireWrite t).symm.trans (Except.ok.inj hs)
    split_ifs with hf
    · have hn := hc.no_writers hf
      refine ⟨by simp [hn], fun w hw u hu => ?_⟩
      rw [hn, mem_singleton] at hw
      rw [hw]
      exact ha hf u hu
    · exact h
  | upgrade t =>
    obtain rfl := Except.ok.inj ((step_upgrade s t).symm.trans hs)
    split_ifs with hf
    · have hn := hc.no_writers hf
      refine ⟨by simp [hn], fun w hw u hu => ?_⟩
      rw [hn, mem_singleton] at hw
      rw [hw]
      exact ha hf u (mem_of_mem_erase hu)
    · exact h
  | downgrade t =>
    cases hs
    have hl := length_erase_of_mem hh
    have hn : s.writers.erase t = [] := by
      have := h.writers
      exact length_eq_zero_iff.mp (by omega)
    exact ⟨by simp [hn], fun w hw => by simp [hn] at hw⟩
  | releaseRead t =>
    rw [step_releaseRead hs]
    exact ⟨h.writers, fun w hw u hu => h.readers w hw u (mem_of_mem_erase hu)⟩
  | releaseWrite t =>
    rw [step_releaseWrite hs]
    refine ⟨?_, fun w hw u hu => h.readers w (mem_of_mem_erase hw) u hu⟩
    have := length_erase_of_mem hh
    have := h.writers
    change (s.writers.erase t).length ≤ 1
    omega

/-- **Exclusion holds when writers come alone**: in every run of threads that give up only what they
hold and become writers only when no other thread is a reader, there is never more than one writer,
nor a reader besides it. -/
theorem exclusive_of_alone
    (run : Reach RWThreads.step (fun s a => Held s a ∧ Alone s a) ({} : RWThreads ι) s) :
    Exclusive s := by
  refine (run.invariant (P := fun s => Counted s ∧ Exclusive s) ⟨⟨rfl, rfl⟩, ?_⟩ ?_).2
  · exact ⟨Nat.zero_le 1, fun t ht => by cases ht⟩
  intro s a s' ⟨hco, hex⟩ ⟨hhe, hal⟩ hst
  exact ⟨hco.step hhe hst, hex.step hco hhe hal hst⟩

instance (s : RWThreads ι) : (a : RWOp ι) → Decidable (Held s a)
  | .upgrade t | .releaseRead t => inferInstanceAs (Decidable (t ∈ s.readers))
  | .downgrade t | .releaseWrite t => inferInstanceAs (Decidable (t ∈ s.writers))
  | .acquireRead _ | .acquireWrite _ | .tryAcquireRead _ | .tryAcquireWrite _ => .isTrue trivial

instance (s : RWThreads ι) : (a : RWOp ι) → Decidable (Alone s a)
  | .acquireWrite t | .tryAcquireWrite t | .upgrade t =>
    inferInstanceAs (Decidable (s.lock.write = 0 → ∀ u ∈ s.readers, u = t))
  | .acquireRead _ | .tryAcquireRead _ | .downgrade _ | .releaseRead _ | .releaseWrite _ =>
    .isTrue trivial

theorem exclusive_of_alone_upgrade :
    ∃ s ∈ execute RWThreads.step (fun s a => Held s a ∧ Alone s a) ({} : RWThreads Bool)
        [.acquireRead false, .upgrade false, .acquireWrite true, .downgrade false,
          .releaseRead false, .acquireWrite true],
      s.writers = [true] ∧ Exclusive s := by
  exact exists_execute_and (by decide) fun s hs => exclusive_of_alone hs

/-- **No assertion fails** in a run of threads that give up only what they hold: the lock counts its
readers and writers, whatever the threads wait for, and each of them can go on. -/
theorem returns_of_held (run : Reach RWThreads.step Held ({} : RWThreads ι) s) :
    Counted s ∧ ∀ a, Held s a → ∃ s', RWThreads.step s a = .ok s' := by
  have hc : Counted s := run.invariant ⟨rfl, rfl⟩ fun _ _ _ h hh hs => h.step hh hs
  exact ⟨hc, fun _ hh => hc.returns hh⟩

theorem returns_of_held_twoReaders :
    ∃ s, Reach RWThreads.step Held ({} : RWThreads Bool) s ∧ s.lock.read = 2 ∧
      (Counted s ∧ ∀ a, Held s a → ∃ s', RWThreads.step s a = .ok s') :=
  exists_reach [.acquireRead false, .acquireRead true] (by decide) fun _ hr => returns_of_held hr

theorem not_exclusive_acquireWrite :
    ∃ s ∈ execute RWThreads.step Held ({} : RWThreads Bool) [.acquireRead false, .acquireWrite true],
      ¬ Exclusive s := by
  refine exists_execute (P := fun s => false ∈ s.readers ∧ true ∈ s.writers) (by decide) ?_
  rintro s - ⟨hre, hwr⟩ h
  exact Bool.false_ne_true (h.readers true hwr false hre)

end RWThreads

end AexKernel.Sync
