import AexKernel.Library.Run
import AexKernel.Mem.LazyVector
import AexKernel.Syscall.Credentials

/-! # File descriptors (`syscall/fs.cpp`, `syscall/ipc.cpp`)

`open`, `dup` and `pipe` hand out the smallest descriptors that are not in use, and `dup2` takes the
one it is told. -/

namespace AexKernel.Syscall

open Library Mem

/-- The descriptors of a process, and `errno` of the thread that makes its calls. -/
structure Descriptors (φ : Type) where
  descs : LazyVector φ := {}
  errno : Errno := .none
  deriving DecidableEq, Repr

namespace Descriptors

variable {φ : Type}

/-- `get_file(fd)`. -/
def getFile (s : Descriptors φ) (fd : ℤ) : Except Errno φ :=
  match s.descs.get? fd with
  | none => .error .ebadf
  | some file => .ok file

/-- `pop_file(fd)`. -/
def popFile (s : Descriptors φ) (fd : ℤ) : Except Fault (Except Errno φ × Descriptors φ) :=
  match s.descs.get? fd with
  | none => .ok (.error .ebadf, s)
  | some file => do return (.ok file, { s with descs := ← s.descs.erase fd })

/-- A call ends with an error. -/
def fail (s : Descriptors φ) (error : Errno) : ℤ × Descriptors φ :=
  (-1, { s with errno := error })

/-- `descs.push(file)`, under `descs_lock`. -/
def pushFile (s : Descriptors φ) (file : φ) : Except Fault (ℤ × Descriptors φ) := do
  let (fd, descs) ← s.descs.push file
  return (fd, { s with descs := descs })

/-- `open(usr_path, mode)`, with what comes of copying the path and of `File::open`. -/
def openPath (s : Descriptors φ) (file : Except Errno φ) : Except Fault (ℤ × Descriptors φ) :=
  match file with
  | .error error => .ok (s.fail error)
  | .ok file => s.pushFile file

/-- `dup(fd)`, with the `dup()` of files. -/
def dup (s : Descriptors φ) (fd : ℤ) (dupFile : φ → Except Errno φ) :
    Except Fault (ℤ × Descriptors φ) :=
  match s.getFile fd >>= dupFile with
  | .error error => .ok (s.fail error)
  | .ok dupd => s.pushFile dupd

/-- `dup2(srcfd, dstfd)`. -/
def dup2 (s : Descriptors φ) (srcfd dstfd : ℤ) (dupFile : φ → Except Errno φ) :
    Except Fault (ℤ × Descriptors φ) :=
  match s.getFile srcfd >>= dupFile with
  | .error error => .ok (s.fail error)
  | .ok dupd => do return (dstfd, { s with descs := ← s.descs.set dstfd dupd })

/-- `pipe(rp, wp)`: the numbers that it stores in `*rp` and `*wp`. `Pipe::create` does not fail. -/
def pipe (s : Descriptors φ) (rsp wsp : φ) : Except Fault ((ℤ × ℤ) × Descriptors φ) := do
  let (rfd, s) ← s.pushFile rsp
  let (wfd, s) ← s.pushFile wsp
  return ((rfd, wfd), s)

/-- `close(fd)`, with what the `close()` of the file returns. -/
def close (s : Descriptors φ) (fd : ℤ) (closed : Errno) : ℤ × Descriptors φ :=
  match s.getFile fd with
  | .error error => s.fail error
  | .ok _ => (0, if closed = .none then s else { s with errno := closed })

/-- A descriptor is usable: `get_file(fd)` succeeds. -/
def Usable (s : Descriptors φ) (fd : ℤ) : Prop := (s.descs.get? fd).isSome
deriving Decidable

def unused (s : Descriptors φ) : Set ℤ := {fd | 0 ≤ fd ∧ ¬ s.Usable fd}

variable {s s' : Descriptors φ} {fd : ℤ}

theorem usable_of_get? {file : φ}
    (hg : ∀ j, s'.descs.get? j = if j = fd then some file else s.descs.get? j) (j : ℤ) :
    s'.Usable j ↔ j = fd ∨ s.Usable j := by
  rw [Usable, hg, Usable]
  by_cases hj : j = fd
  · rw [if_pos hj]
    exact iff_of_true rfl (.inl hj)
  · rw [if_neg hj]
    exact (or_iff_right hj).symm

section

variable (h : s.descs.Sound)
include h

theorem pushFile_spec (file : φ) :
    ∃ fd s', s.pushFile file = .ok (fd, s') ∧ s'.descs.Sound ∧ IsLeast s.unused fd ∧
      ∀ j, s'.Usable j ↔ j = fd ∨ s.Usable j := by
  obtain ⟨fd, descs, hp, ho, hl, hg⟩ := LazyVector.push_spec h file
  refine ⟨fd, { s with descs := descs }, ?_, ho, ?_, fun j => ?_⟩
  · rw [pushFile, hp]
    rfl
  · have hs : s.unused = {j : ℤ | 0 ≤ j ∧ s.descs.get? j = none} := by
      ext j
      exact and_congr_right fun _ => Option.not_isSome_iff_eq_none
    rw [hs]
    exact hl
  · exact usable_of_get? hg j

theorem pipe_spec (rsp wsp : φ) :
    ∃ rfd wfd s', s.pipe rsp wsp = .ok ((rfd, wfd), s') ∧ s'.descs.Sound ∧
      IsLeast s.unused rfd ∧ IsLeast (s.unused \ {rfd}) wfd ∧
      ∀ j, s'.Usable j ↔ j = wfd ∨ j = rfd ∨ s.Usable j := by
  obtain ⟨rfd, s1, hr, hso1, hl, hu⟩ := pushFile_spec h rsp
  obtain ⟨wfd, s2, hw, hso2, hwl, hwu⟩ := pushFile_spec hso1 wsp
  refine ⟨rfd, wfd, s2, ?_, hso2, hl, ?_, fun j => ?_⟩
  · rw [pipe, hr, ok_bind]
    dsimp only
    rw [hw, ok_bind, pure_eq_ok]
  · have hs : s1.unused = s.unused \ {rfd} := by
      ext j
      simp only [unused, Set.mem_ofPred_eq, Set.mem_sdiff, Set.mem_singleton_iff, hu, not_or]
      tauto
    rw [← hs]
    exact hwl
  · rw [hwu, hu]

theorem dup2_spec {dupFile : φ → Except Errno φ} {srcfd dstfd : ℤ} {dupd : φ}
    (hu : s.getFile srcfd >>= dupFile = .ok dupd) (hd : 0 ≤ dstfd) (hm : dstfd + 1 < 2 ^ 31) :
    ∃ s', s.dup2 srcfd dstfd dupFile = .ok (dstfd, s') ∧ s'.descs.Sound ∧
      ∀ j, s'.Usable j ↔ j = dstfd ∨ s.Usable j := by
  obtain ⟨descs, hs, ho, hg⟩ := LazyVector.set_spec h hd hm dupd
  refine ⟨{ s with descs := descs }, ?_, ho, fun j => ?_⟩
  · rw [dup2, hu]
    dsimp only
    rw [hs]
    rfl
  · exact usable_of_get? hg j

end

theorem getFile_of_not_usable (h : ¬ s.Usable fd) : s.getFile fd = .error .ebadf := by
  rw [getFile, Option.not_isSome_iff_eq_none.mp h]

theorem close_of_not_usable (h : ¬ s.Usable fd) (closed : Errno) :
    s.close fd closed = (-1, { s with errno := .ebadf }) := by
  rw [close, getFile_of_not_usable h]
  rfl

end Descriptors

/-! ## Runs -/

/-- A system call on descriptors. -/
inductive DescCall (φ : Type)
  | openPath (file : Except Errno φ)
  | dup (fd : ℤ) (dupFile : φ → Except Errno φ)
  | dup2 (srcfd dstfd : ℤ) (dupFile : φ → Except Errno φ)
  | pipe (rsp wsp : φ)
  | close (fd : ℤ) (closed : Errno)

/-- Descriptors, and what the calls of their process returned so far, the latest first. -/
structure DescriptorLog (φ : Type) where
  table : Descriptors φ := {}
  /-- Descriptors that a call returned or was told to take (`true`), or closed (`false`). -/
  log : List (ℤ × Bool) := []

namespace DescriptorLog

variable {φ : Type}

/-- A call returned a descriptor, or `-1`. -/
def gain (s : DescriptorLog φ) (result : ℤ × Descriptors φ) : DescriptorLog φ :=
  ⟨result.2, if result.1 = -1 then s.log else (result.1, true) :: s.log⟩

def step (s : DescriptorLog φ) : DescCall φ → Except Fault (DescriptorLog φ)
  | .openPath file => do return s.gain (← s.table.openPath file)
  | .dup fd dupFile => do return s.gain (← s.table.dup fd dupFile)
  | .dup2 srcfd dstfd dupFile => do return s.gain (← s.table.dup2 srcfd dstfd dupFile)
  | .pipe rsp wsp => do
    let ((rfd, wfd), table) ← s.table.pipe rsp wsp
    return ⟨table, (wfd, true) :: (rfd, true) :: s.log⟩
  | .close fd closed =>
    let result := s.table.close fd closed
    .ok ⟨result.2, if result.1 = -1 then s.log else (fd, false) :: s.log⟩

/-- A descriptor was returned, or was the destination of `dup2`, and has not been closed since. -/
def Held (s : DescriptorLog φ) (fd : ℤ) : Prop := s.log.lookup fd = some true
deriving Decidable

/-- No usable descriptor is closed, and `dup2` is told a descriptor that a table can have. -/
def Kept (s : DescriptorLog φ) : DescCall φ → Prop
  | .close fd _ => ¬ s.table.Usable fd
  | .dup2 _ dstfd _ => 0 ≤ dstfd ∧ dstfd + 1 < 2 ^ 31
  | _ => True

instance (s : DescriptorLog φ) (call : DescCall φ) : Decidable (s.Kept call) :=
  match call with
  | .close fd _ => inferInstanceAs (Decidable (¬ s.table.Usable fd))
  | .dup2 _ dstfd _ => inferInstanceAs (Decidable (0 ≤ dstfd ∧ dstfd + 1 < 2 ^ 31))
  | .openPath _ | .dup .. | .pipe .. => .isTrue trivial

/-- The usable descriptors are those that are held, and every call treats them so. -/
structure Law (s : DescriptorLog φ) : Prop where
  usable : ∀ fd, s.table.Usable fd ↔ s.Held fd
  openPath : ∀ file, ∃ fd s', s.table.openPath (.ok file) = .ok (fd, s') ∧ IsLeast s.table.unused fd
  dup : ∀ fd dupFile dupd, s.table.getFile fd >>= dupFile = .ok dupd →
    ∃ fd2 s', s.table.dup fd dupFile = .ok (fd2, s') ∧ IsLeast s.table.unused fd2
  pipe : ∀ rsp wsp, ∃ rfd wfd s', s.table.pipe rsp wsp = .ok ((rfd, wfd), s') ∧
    IsLeast s.table.unused rfd ∧ IsLeast (s.table.unused \ {rfd}) wfd
  close : ∀ fd closed, ¬ s.table.Usable fd →
    s.table.close fd closed = (-1, { s.table with errno := .ebadf })

/-- What runs preserve: the counters of the table, and the first part of the law. -/
structure Sound (s : DescriptorLog φ) : Prop where
  descs : s.table.descs.Sound
  usable : ∀ fd, s.table.Usable fd ↔ s.Held fd

variable {s s' : DescriptorLog φ}

theorem Sound.law (h : Sound s) : Law s where
  usable := h.usable
  openPath file := by
    obtain ⟨fd, table, hp, -, hl, -⟩ := Descriptors.pushFile_spec h.descs file
    exact ⟨fd, table, hp, hl⟩
  dup fd dupFile dupd hd := by
    obtain ⟨fd2, table, hp, -, hl, -⟩ := Descriptors.pushFile_spec h.descs dupd
    exact ⟨fd2, table, by rw [Descriptors.dup, hd]; exact hp, hl⟩
  pipe rsp wsp := by
    obtain ⟨rfd, wfd, table, hi, -, hr, hw, -⟩ :=
      Descriptors.pipe_spec h.descs rsp wsp
    exact ⟨rfd, wfd, table, hi, hr, hw⟩
  close fd closed hf := Descriptors.close_of_not_usable hf closed

variable {table : Descriptors φ}

theorem held_cons {log : List (ℤ × Bool)} {fd j : ℤ} :
    Held ⟨table, (fd, true) :: log⟩ j ↔ j = fd ∨ Held ⟨s.table, log⟩ j := by
  rw [Held, Held, List.lookup_cons]
  by_cases hj : j = fd
  · simp [hj]
  · simp [hj, beq_false_of_ne hj]

section

variable (h : Sound s)
include h

theorem Sound.fail (error : Errno) : Sound (s.gain (s.table.fail error)) :=
  ⟨h.descs, h.usable⟩

theorem Sound.gain {fd : ℤ} (hf : 0 ≤ fd) (hd : table.descs.Sound)
    (hu : ∀ j, table.Usable j ↔ j = fd ∨ s.table.Usable j) : Sound (s.gain (fd, table)) := by
  refine ⟨hd, fun j => ?_⟩
  change table.Usable j ↔ _
  rw [hu, DescriptorLog.gain, if_neg (by omega), held_cons (s := s), h.usable]

theorem Sound.pushFile (file : φ) {result : ℤ × Descriptors φ}
    (hp : s.table.pushFile file = .ok result) : Sound (s.gain result) := by
  obtain ⟨fd, table, hp', hd, hl, hu⟩ := Descriptors.pushFile_spec h.descs file
  obtain rfl := Except.ok.inj (hp.symm.trans hp')
  exact h.gain hl.1.1 hd hu

theorem Sound.step {call : DescCall φ} (hk : s.Kept call) (hs : s.step call = .ok s') :
    Sound s' := by
  cases call with
  | openPath file =>
    obtain ⟨result, hop, hs'⟩ := bind_eq_ok.mp hs
    cases hs'
    cases file with
    | error error =>
      cases hop
      exact h.fail error
    | ok file => exact h.pushFile file hop
  | dup fd dupFile =>
    obtain ⟨result, hd, hs'⟩ := bind_eq_ok.mp hs
    cases hs'
    rw [Descriptors.dup] at hd
    cases hf : s.table.getFile fd >>= dupFile with
    | error error =>
      rw [hf] at hd
      cases hd
      exact h.fail error
    | ok dupd =>
      rw [hf] at hd
      exact h.pushFile dupd hd
  | dup2 srcfd dstfd dupFile =>
    obtain ⟨result, hd, hs'⟩ := bind_eq_ok.mp hs
    cases hs'
    cases hf : s.table.getFile srcfd >>= dupFile with
    | error error =>
      rw [Descriptors.dup2, hf] at hd
      cases hd
      exact h.fail error
    | ok dupd =>
      obtain ⟨table, hd', he, hu⟩ :=
        Descriptors.dup2_spec h.descs hf hk.1 hk.2
      obtain rfl := Except.ok.inj (hd.symm.trans hd')
      exact h.gain hk.1 he hu
  | pipe rsp wsp =>
    obtain ⟨rfd, wfd, table, hp, he, -, -, hu⟩ := Descriptors.pipe_spec h.descs rsp wsp
    rw [DescriptorLog.step, hp, ok_bind] at hs
    cases hs
    refine ⟨he, fun j => ?_⟩
    rw [held_cons (s := s), held_cons (s := s), ← h.usable]
    exact hu j
  | close fd closed =>
    rw [DescriptorLog.step, Descriptors.close_of_not_usable hk] at hs
    cases hs
    exact ⟨h.descs, h.usable⟩

end

theorem sound_empty : Sound ({} : DescriptorLog φ) where
  descs := rfl
  usable fd := by
    have hg : ({} : Descriptors φ).descs.get? fd = none := by
      rw [LazyVector.get?]
      split_ifs <;> rfl
    rw [Descriptors.Usable, hg, Held]
    simp

end DescriptorLog

end AexKernel.Syscall
