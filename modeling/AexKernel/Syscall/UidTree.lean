import AexKernel.Syscall.Credentials

/-! # User ids of a tree of processes (`syscall/proc.cpp`, `syscall/sec.cpp`)

`fork` makes the child with `new Process(..)`. -/

namespace AexKernel.Syscall

/-- What the calls on user ids read and write of a `Process`. -/
structure UidProcess where
  pid : ℕ
  parentPid : ℕ
  credentials : Credentials
  deriving DecidableEq, Repr

/-- The constructor `Process(image_path, parent_pid, pagemap, name)`, and `add_process`, which gives
the pid. -/
def UidProcess.construct (pid parentPid : ℕ) : UidProcess where
  pid := pid
  parentPid := parentPid
  credentials := { realUid := 0, effUid := 0, savedUid := 0 }

/-- A process and its descendants, in the order in which they were made, and the next pid. -/
structure UidTree where
  processes : List UidProcess
  counter : ℕ
  deriving DecidableEq, Repr

/-- A system call of a process. -/
inductive IdCall
  | set (call : UidCall)
  | fork
  deriving DecidableEq, Repr

namespace UidTree

def start (root : UidProcess) (counter : ℕ) : UidTree := ⟨[root], counter⟩

/-- The process that makes a call, `Process::current()`. -/
def current (t : UidTree) (pid : ℕ) : Option UidProcess := t.processes.find? (·.pid = pid)

/-- A call that sets the ids of the process `pid`. -/
def setIds (t : UidTree) (pid : ℕ) (call : UidCall) : UidTree :=
  { t with processes := t.processes.map fun p =>
      if p.pid = pid then { p with credentials := (call.run p.credentials).2 } else p }

/-- `fork()` of the process `pid`. -/
def fork (t : UidTree) (pid : ℕ) : UidTree :=
  ⟨t.processes ++ [UidProcess.construct t.counter pid], t.counter + 1⟩

/-- A call of the process `pid`, if there is one. -/
def call (t : UidTree) (pid : ℕ) (c : IdCall) : UidTree :=
  match t.current pid with
  | none => t
  | some _ =>
    match c with
    | .set call => t.setIds pid call
    | .fork => t.fork pid

/-! ## Confinement -/

def NoRoot (t : UidTree) : Prop := ∀ p ∈ t.processes, 0 ∉ p.credentials.ids

instance (t : UidTree) : Decidable t.NoRoot := List.decidableBAll _ _

/-- After a `fork` of the process `pid` the new process has the ids that its parent had. -/
def Inherits (t : UidTree) (pid : ℕ) : Prop :=
  ∀ parent ∈ t.current pid, ∀ child ∈ (t.fork pid).processes.getLast?,
    child.credentials.ids = parent.credentials.ids
deriving Decidable

/-- Every call of the sequence is made by a process that is in the tree at that time. -/
def MadeWithin : UidTree → List (ℕ × IdCall) → Prop
  | _, [] => True
  | t, (pid, c) :: rest => (t.current pid).isSome ∧ MadeWithin (t.call pid c) rest

/-- Along a sequence of calls there is never an id of root, and every child has the ids of its
parent. -/
def Confined : UidTree → List (ℕ × IdCall) → Prop
  | t, [] => t.NoRoot
  | t, (pid, c) :: rest => t.NoRoot ∧ (c = .fork → t.Inherits pid) ∧ Confined (t.call pid c) rest

variable {t : UidTree}

variable {calls : List (ℕ × IdCall)}

theorem Confined.noRoot (h : Confined t calls) : t.NoRoot := by
  cases calls with
  | nil => exact h
  | cons a rest => exact h.1

theorem NoRoot.setIds (h : t.NoRoot) (pid : ℕ) (c : UidCall) : (t.setIds pid c).NoRoot := by
  intro p hp
  obtain ⟨p₀, hp₀, rfl⟩ := List.mem_map.mp hp
  split_ifs
  · exact Credentials.zero_not_mem_of_subset (h p₀ hp₀) (Credentials.run_ids_subset (h p₀ hp₀) c)
  · exact h p₀ hp₀

theorem not_noRoot_fork (t : UidTree) (pid : ℕ) : ¬ (t.fork pid).NoRoot := by
  intro h
  have hc : UidProcess.construct t.counter pid ∈ (t.fork pid).processes :=
    List.mem_append_right _ List.mem_cons_self
  exact h _ hc List.mem_cons_self

theorem call_of_current {pid : ℕ} (h : (t.current pid).isSome) (c : IdCall) :
    t.call pid c = match c with | .set call => t.setIds pid call | .fork => t.fork pid := by
  obtain ⟨p, hp⟩ := Option.isSome_iff_exists.mp h
  unfold call
  rw [hp]

theorem NoRoot.confined (h : t.NoRoot) (hm : MadeWithin t calls) (hs : ∀ a ∈ calls,
      a.2 ≠ .fork) :
    Confined t calls := by
  induction calls generalizing t with
  | nil => exact h
  | cons a rest ih =>
    obtain ⟨pid, c⟩ := a
    obtain ⟨hp, hm⟩ := hm
    have hr : ∀ a ∈ rest, a.2 ≠ .fork := fun a ha => hs a (List.mem_cons_of_mem _ ha)
    cases c with
    | set c =>
      have hn : (t.call pid (.set c)).NoRoot := by
        rw [call_of_current hp]
        exact h.setIds pid c
      exact ⟨h, nofun, ih hn hm hr⟩
    | fork => exact absurd rfl (hs (pid, .fork) List.mem_cons_self)

theorem Confined.ne_fork (h : Confined t calls) (hm : MadeWithin t calls) :
    ∀ a ∈ calls, a.2 ≠ .fork := by
  induction calls generalizing t with
  | nil => exact nofun
  | cons a rest ih =>
    obtain ⟨pid, c⟩ := a
    obtain ⟨-, -, hr⟩ := h
    obtain ⟨hp, hm⟩ := hm
    refine List.forall_mem_cons.mpr ⟨?_, ih hr hm⟩
    rintro rfl
    have hn := hr.noRoot
    rw [call_of_current hp] at hn
    exact not_noRoot_fork t pid hn

/-- **Confinement over the process tree.** From a process without an id of root, and for every
sequence of calls by it and its descendants, no process ever has an id of root and every child has
the ids of its parent, exactly when no call of the sequence is a `fork`. -/
theorem confined_iff (root : UidProcess) (counter : ℕ) (hroot : 0 ∉ root.credentials.ids)
    (calls : List (ℕ × IdCall)) (hmade : MadeWithin (start root counter) calls) :
    Confined (start root counter) calls ↔ ∀ a ∈ calls, a.2 ≠ .fork := by
  have hst : (start root counter).NoRoot := by
    intro p hp
    rw [List.mem_singleton.mp hp]
    exact hroot
  exact ⟨fun h => h.ne_fork hmade, hst.confined hmade⟩

theorem confined_iff_saved :
    Confined (start ⟨7, 1, ⟨1000, 1000, 1001, .none⟩⟩ 8)
      [(7, .set (.seteuid 1001)), (7, .set (.setuid 0)), (7, .set (.setreuid 1001 1000))] :=
  (confined_iff ⟨7, 1, ⟨1000, 1000, 1001, .none⟩⟩ 8 (by decide)
    [(7, .set (.seteuid 1001)), (7, .set (.setuid 0)), (7, .set (.setreuid 1001 1000))]
    ⟨by decide, by decide, by decide, trivial⟩).mpr (by decide)

theorem not_confined_fork :
    0 ∉ (Credentials.mk 1000 1000 1000 .none).ids ∧
      MadeWithin (start ⟨7, 1, ⟨1000, 1000, 1000, .none⟩⟩ 8) [(7, .fork)] ∧
      (start ⟨7, 1, ⟨1000, 1000, 1000, .none⟩⟩ 8 |>.call 7 .fork).processes =
        [⟨7, 1, ⟨1000, 1000, 1000, .none⟩⟩, ⟨8, 7, ⟨0, 0, 0, .none⟩⟩] ∧
      ¬ Inherits (start ⟨7, 1, ⟨1000, 1000, 1000, .none⟩⟩ 8) 7 ∧
      ¬ Confined (start ⟨7, 1, ⟨1000, 1000, 1000, .none⟩⟩ 8) [(7, .fork)] :=
  ⟨by decide, ⟨by decide, trivial⟩, by decide, by decide,
    fun h => h.ne_fork ⟨by decide, trivial⟩ _ List.mem_cons_self rfl⟩

end UidTree

end AexKernel.Syscall
