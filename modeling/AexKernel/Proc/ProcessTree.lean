import AexKernel.Library.Run
import AexKernel.Proc.Thread

/-! # The process list and its tree (`proc/proc.cpp`, `proc/process.cpp`)

Every process has the pid of a parent. -/

namespace AexKernel.Proc

open Library List Function

/-- What the process list is about, of a `Process`. -/
structure ProcessEntry where
  pid : ℕ
  parentPid : ℕ
  status : Status := .fresh
  retCode : ℤ := 0
  /-- `m_exiting`. -/
  exiting : Bool := false
  threadCounter : ℕ := 0
  deriving DecidableEq, Repr

/-- The process list and the counter of pids. -/
structure ProcessList where
  list : List ProcessEntry
  counter : ℕ
  deriving DecidableEq, Repr

/-- Why `try_get` finds no child. -/
inductive WaitError
  | echild | eagain
  deriving DecidableEq, Repr

namespace ProcessList

/-- `get_process(pid)`. -/
def getProcess (s : ProcessList) (pid : ℕ) : Option ProcessEntry := s.list.find? (·.pid = pid)

/-- `add_process`, with the entry that the constructor of `Process` makes. -/
def addProcess (s : ProcessList) (parentPid : ℕ) : ProcessList :=
  ⟨s.list ++ [{ pid := s.counter, parentPid := parentPid }], s.counter + 1⟩

/-- `remove_process`. -/
def removeProcess (s : ProcessList) (pid : ℕ) : ProcessList :=
  { s with list := s.list.filter (·.pid ≠ pid) }

def modify (s : ProcessList) (pid : ℕ) (f : ProcessEntry → ProcessEntry) : ProcessList :=
  { s with list := s.list.map fun e => if e.pid = pid then f e else e }

/-- The loop of `exit_threaded` over the list. -/
def reparent (s : ProcessList) (pid parentPid : ℕ) : ProcessList :=
  { s with list := s.list.map fun e =>
      if e.parentPid = pid then { e with parentPid := parentPid } else e }

/-- The part of `exit_threaded` under `processes_lock`, up to `get_process`. -/
def die (s : ProcessList) (process : ProcessEntry) : ProcessList :=
  (s.modify process.pid fun e => { e with status := .dead }).reparent process.pid process.parentPid

/-- The loop of `try_get`. -/
def tryGetFrom (pid : ℕ) : List ProcessEntry → WaitError → Except WaitError ProcessEntry
  | [], error => .error error
  | process :: rest, error =>
    if process.parentPid ≠ pid then tryGetFrom pid rest error
    else if process.status ≠ .dead then tryGetFrom pid rest .eagain
    else .ok process

/-- `try_get(pid)`: the child that it deletes. -/
def tryGet (s : ProcessList) (pid : ℕ) : Except WaitError ProcessEntry :=
  tryGetFrom pid s.list .echild

/-! ## The list -/

variable {s s' : ProcessList} {pid : ℕ} {e proc : ProcessEntry}

theorem mem_modify {f : ProcessEntry → ProcessEntry} :
    e ∈ (s.modify pid f).list ↔ ∃ e0 ∈ s.list, (if e0.pid = pid then f e0 else e0) = e :=
  mem_map

theorem mem_reparent {parentPid : ℕ} :
    e ∈ (s.reparent pid parentPid).list ↔ ∃ e0 ∈ s.list,
      (if e0.parentPid = pid then { e0 with parentPid := parentPid } else e0) = e :=
  mem_map

theorem mem_removeProcess : e ∈ (s.removeProcess pid).list ↔ e ∈ s.list ∧ e.pid ≠ pid := by
  rw [removeProcess, mem_filter, decide_eq_true_eq]

theorem mem_of_getProcess (h : s.getProcess pid = some e) : e ∈ s.list ∧ e.pid = pid := by
  have hf := find?_some h
  exact ⟨mem_of_find?_eq_some h, of_decide_eq_true hf⟩

theorem getProcess_isSome (h : e ∈ s.list) (hp : e.pid = pid) : (s.getProcess pid).isSome := by
  rw [getProcess, find?_isSome]
  exact ⟨e, h, decide_eq_true hp⟩

theorem mem_die : e ∈ (s.die proc).list ↔ ∃ e0 ∈ s.list,
    e.pid = e0.pid ∧ e.status = (if e0.pid = proc.pid then .dead else e0.status) ∧
    e.parentPid = (if e0.parentPid = proc.pid then proc.parentPid else e0.parentPid) ∧
    e.retCode = e0.retCode ∧ e.exiting = e0.exiting ∧ e.threadCounter = e0.threadCounter := by
  rw [die, mem_reparent]
  constructor
  · rintro ⟨e1, h1, rfl⟩
    obtain ⟨e0, h0, rfl⟩ := mem_modify.mp h1
    refine ⟨e0, h0, ?_⟩
    split_ifs <;> exact ⟨rfl, rfl, rfl, rfl, rfl, rfl⟩
  rintro ⟨e0, h0, hp, hs, ha, hr, hex, hc⟩
  refine ⟨_, mem_modify.mpr ⟨e0, h0, rfl⟩, ?_⟩
  obtain ⟨pid, parentPid, status, retCode, exiting, threadCounter⟩ := e
  dsimp only at hp hs ha hr hex hc
  subst hp hs ha hr hex hc
  split_ifs <;> rfl

theorem tryGet_eq_ok (h : s.tryGet pid = .ok e) :
    e ∈ s.list ∧ e.parentPid = pid ∧ e.status = .dead := by
  rw [tryGet] at h
  generalize WaitError.echild = error at h
  generalize s.list = l at h ⊢
  induction l generalizing error with
  | nil => cases h
  | cons first rest ih =>
    rw [tryGetFrom] at h
    split_ifs at h with hp hs
    · exact ⟨mem_cons_of_mem _ (ih error h).1, (ih error h).2⟩
    · exact ⟨mem_cons_of_mem _ (ih _ h).1, (ih _ h).2⟩
    cases h
    exact ⟨mem_cons_self, not_ne_iff.mp hp, not_ne_iff.mp hs⟩

theorem tryGet_ne_error {error : WaitError} (h : e ∈ s.list) (hp : e.parentPid = pid)
    (hd : e.status = .dead) : s.tryGet pid ≠ .error error := by
  rw [tryGet]
  generalize WaitError.echild = start
  revert h
  generalize s.list = l
  intro h
  induction l generalizing start with
  | nil => cases h
  | cons first rest ih =>
    rw [tryGetFrom]
    split_ifs with hf hs
    · refine ih start ((mem_cons.mp h).resolve_left ?_)
      rintro rfl
      exact hf hp
    · refine ih _ ((mem_cons.mp h).resolve_left ?_)
      rintro rfl
      exact hs hd
    · exact fun he => by cases he

end ProcessList

/-! ## Runs -/

/-- A step of the processes. -/
inductive TreeCall
  /-- `fork`, or `exec` of a new process, by a thread of a process: the constructor of `Process`. -/
  | create (parent : ℕ)
  /-- `Process::ready()`. -/
  | ready (p : ℕ)
  /-- `exec` does not find an executor, and deletes the process that it created. -/
  | discard (p : ℕ)
  | startThread (p : ℕ)
  | endThread (p : ℕ)
  /-- `Process::exit(status)`. -/
  | exit (p : ℕ) (status : ℤ)
  | exitThreaded (p : ℕ)
  /-- A `wait` of a process gets as far as `try_get`. -/
  | wait (p : ℕ)
  deriving DecidableEq, Repr

namespace ProcessList

/-- Processes that can run: they are ready, and have threads. -/
def Running (e : ProcessEntry) : Prop := e.status = .runnable ∧ 0 < e.threadCounter
deriving Decidable

/-- The list after a step. -/
def step (s : ProcessList) : TreeCall → Except Fault ProcessList
  | .create parent =>
    match s.getProcess parent with
    | some e => .ok (if Running e then s.addProcess parent else s)
    | none => .ok s
  | .ready p => .ok (s.modify p fun e => if e.status = .fresh then { e with status := .runnable } else e)
  | .discard p =>
    match s.getProcess p with
    | some e => .ok (if e.status = .fresh then s.removeProcess p else s)
    | none => .ok s
  | .startThread p => .ok (s.modify p fun e =>
      if Running e ∨ e.status = .fresh then { e with threadCounter := e.threadCounter + 1 } else e)
  | .endThread p => .ok (s.modify p fun e => { e with threadCounter := e.threadCounter - 1 })
  | .exit p status => .ok (s.modify p fun e =>
      if p = 0 ∨ e.exiting ∨ e.status = .fresh then e
      else { e with exiting := true, retCode := status })
  | .exitThreaded p =>
    match s.getProcess p with
    | some process =>
      if process.exiting ∧ process.threadCounter = 0 ∧ process.status ≠ .dead then
        match (s.die process).getProcess process.parentPid with
        | some _ => .ok (s.die process)
        | none => .error .outOfBounds
      else .ok s
    | none => .ok s
  | .wait p =>
    match s.tryGet p with
    | .ok process => .ok (s.removeProcess process.pid)
    | .error _ => .ok s

/-- The processes that `init` makes, idle and kernel. -/
def boot (threads : ℕ) : ProcessList where
  list := [{ pid := 0, parentPid := 0, status := .runnable },
    { pid := 1, parentPid := 0, status := .runnable, threadCounter := threads }]
  counter := 2

/-- The tree of processes. -/
structure Tree (s : ProcessList) : Prop where
  nodup : (s.list.map ProcessEntry.pid).Nodup
  lt : ∀ e ∈ s.list, e.pid < s.counter
  older : ∀ e ∈ s.list, e.pid ≠ 0 → e.parentPid < e.pid
  idle : ∀ e ∈ s.list, e.pid = 0 → e.parentPid = 0 ∧ e.exiting = false
  parent : ∀ e ∈ s.list, ∃ parent ∈ s.list,
    parent.pid = e.parentPid ∧ parent.status = .runnable

namespace Tree

variable {s s' : ProcessList} {p : ℕ} {e proc : ProcessEntry}

section

variable (h : Tree s)
include h

theorem modify (f : ProcessEntry → ProcessEntry)
    (hk : ∀ e ∈ s.list, e.pid = p → (f e).pid = e.pid ∧ (f e).parentPid = e.parentPid ∧
      (e.status = .runnable → (f e).status = .runnable) ∧ (p = 0 → (f e).exiting = e.exiting)) :
    Tree (s.modify p f) := by
  have hn : ∀ e ∈ (s.modify p f).list, ∃ e0 ∈ s.list, e.pid = e0.pid ∧
      e.parentPid = e0.parentPid ∧ (e0.pid = 0 → e.exiting = e0.exiting) := by
    intro e he
    obtain ⟨e0, h0, rfl⟩ := mem_modify.mp he
    refine ⟨e0, h0, ?_⟩
    split_ifs with hp
    · obtain ⟨hi, hpa, -, hex⟩ := hk e0 h0 hp
      exact ⟨hi, hpa, fun hz => hex (hp ▸ hz)⟩
    · exact ⟨rfl, rfl, fun _ => rfl⟩
  have hd : (s.modify p f).list.map ProcessEntry.pid = s.list.map ProcessEntry.pid := by
    rw [ProcessList.modify, map_map]
    refine map_congr_left fun e he => ?_
    change (if e.pid = p then f e else e).pid = e.pid
    split_ifs with hp
    · exact (hk e he hp).1
    · rfl
  refine ⟨hd ▸ h.nodup, fun e he => ?_, fun e he => ?_, fun e he => ?_, fun e he => ?_⟩
  all_goals obtain ⟨e0, h0, hi, hpa, hex⟩ := hn e he
  · rw [hi]
    exact h.lt e0 h0
  · rw [hi, hpa]
    exact h.older e0 h0
  · rw [hi, hpa]
    intro hz
    rw [hex hz]
    exact h.idle e0 h0 hz
  obtain ⟨parent, hmem, ha, hr⟩ := h.parent e0 h0
  refine ⟨_, mem_modify.mpr ⟨parent, hmem, rfl⟩, ?_⟩
  rw [hpa]
  split_ifs with hp
  · obtain ⟨hp', -, hs, -⟩ := hk parent hmem hp
    exact ⟨hp'.trans ha, hs hr⟩
  · exact ⟨ha, hr⟩

theorem removeProcess (ha : ∀ e ∈ s.list, e.pid = p → e.status ≠ .runnable) :
    Tree (s.removeProcess p) where
  nodup := h.nodup.sublist (filter_sublist.map _)
  lt e he := h.lt e (mem_removeProcess.mp he).1
  older e he := h.older e (mem_removeProcess.mp he).1
  idle e he := h.idle e (mem_removeProcess.mp he).1
  parent e he := by
    obtain ⟨parent, hmem, hi, hr⟩ := h.parent e (mem_removeProcess.mp he).1
    refine ⟨parent, mem_removeProcess.mpr ⟨hmem, fun hp => ?_⟩, hi, hr⟩
    exact ha parent hmem hp hr

theorem addProcess (hmem : e ∈ s.list) (hr : e.status = .runnable) :
    Tree (s.addProcess e.pid) := by
  have hc := h.lt e hmem
  have he : ∀ x ∈ (s.addProcess e.pid).list,
      x ∈ s.list ∨ x = { pid := s.counter, parentPid := e.pid } := by
    intro x hx
    exact (mem_append.mp hx).imp_right mem_singleton.mp
  have hold : ∀ x ∈ s.list, x ∈ (s.addProcess e.pid).list :=
    fun x hx => mem_append.mpr (.inl hx)
  refine ⟨?_, fun x hx => ?_, fun x hx => ?_, fun x hx => ?_, fun x hx => ?_⟩
  · rw [ProcessList.addProcess, map_append, map_singleton]
    refine List.Nodup.append h.nodup (nodup_singleton _) ?_
    intro pid hp hn
    obtain ⟨x, hx, rfl⟩ := mem_map.mp hp
    have hl := h.lt x hx
    rw [mem_singleton.mp hn] at hl
    exact lt_irrefl _ hl
  all_goals rcases he x hx with hx | rfl
  · exact Nat.lt_succ_of_lt (h.lt x hx)
  · exact Nat.lt_succ_self _
  · exact h.older x hx
  · exact fun _ => hc
  · exact h.idle x hx
  · intro hz
    change s.counter = 0 at hz
    omega
  · obtain ⟨parent, ha, hp, hs⟩ := h.parent x hx
    exact ⟨parent, hold parent ha, hp, hs⟩
  · exact ⟨e, hold e hmem, rfl, hr⟩

section

variable (hmem : proc ∈ s.list)
include hmem

section

variable (hex : proc.exiting)
include hex

theorem parent_die :
    ∃ parent ∈ (s.die proc).list, parent.pid = proc.parentPid ∧ parent.status = .runnable := by
  obtain ⟨parent, ha, hp, hr⟩ := h.parent proc hmem
  have hz : proc.pid ≠ 0 := by
    intro hz
    rw [(h.idle proc hmem hz).2] at hex
    cases hex
  have hn : parent.pid ≠ proc.pid := by
    rw [hp]
    exact (h.older proc hmem hz).ne
  refine ⟨_, mem_reparent.mpr ⟨_, mem_modify.mpr ⟨parent, ha, rfl⟩, rfl⟩, ?_⟩
  rw [if_neg hn]
  split_ifs
  · exact ⟨hp, hr⟩
  · exact ⟨hp, hr⟩

theorem die : Tree (s.die proc) := by
  have hz : proc.pid ≠ 0 := by
    intro hz
    rw [(h.idle proc hmem hz).2] at hex
    cases hex
  have hi : (s.die proc).list.map ProcessEntry.pid = s.list.map ProcessEntry.pid := by
    rw [ProcessList.die, ProcessList.reparent, ProcessList.modify, map_map, map_map]
    refine map_congr_left fun e _ => ?_
    dsimp only [comp]
    split_ifs <;> rfl
  refine ⟨hi ▸ h.nodup, fun e he => ?_, fun e he => ?_, fun e he => ?_, fun e he => ?_⟩
  all_goals obtain ⟨e0, h0, hp, -, hpa, -, hx, -⟩ := mem_die.mp he
  · rw [hp]
    exact h.lt e0 h0
  · rw [hp, hpa]
    intro hn
    have holder := h.older e0 h0 hn
    split_ifs with hc
    · have := h.older proc hmem hz
      omega
    · exact holder
  · rw [hp, hpa, hx]
    intro hd
    obtain ⟨hidleParent, hid⟩ := h.idle e0 h0 hd
    rw [hidleParent, if_neg hz.symm]
    exact ⟨rfl, hid⟩
  rw [hpa]
  split_ifs with hc
  · exact h.parent_die hmem hex
  obtain ⟨parent, ha, hparentPid, hr⟩ := h.parent e0 h0
  have hn : parent.pid ≠ proc.pid := by
    rw [hparentPid]
    exact hc
  refine ⟨_, mem_reparent.mpr ⟨_, mem_modify.mpr ⟨parent, ha, rfl⟩, rfl⟩, ?_⟩
  rw [if_neg hn]
  split_ifs
  · exact ⟨hparentPid, hr⟩
  · exact ⟨hparentPid, hr⟩

theorem getProcess_die : ((s.die proc).getProcess proc.parentPid).isSome := by
  obtain ⟨parent, ha, hp, -⟩ := h.parent_die hmem hex
  exact getProcess_isSome ha hp

end

end

theorem step {a : TreeCall} (hs : s.step a = .ok s') : Tree s' := by
  cases a with
  | create parent =>
    rw [ProcessList.step] at hs
    split at hs
    · next e he =>
      obtain ⟨hmem, rfl⟩ := mem_of_getProcess he
      split_ifs at hs with hr
      · exact Except.ok.inj hs ▸ h.addProcess hmem hr.1
      · exact Except.ok.inj hs ▸ h
    · exact Except.ok.inj hs ▸ h
  | ready p =>
    refine Except.ok.inj hs ▸ h.modify _ fun e _ _ => ?_
    split_ifs with hf
    · exact ⟨rfl, rfl, fun _ => rfl, fun _ => rfl⟩
    · exact ⟨rfl, rfl, id, fun _ => rfl⟩
  | discard p =>
    rw [ProcessList.step] at hs
    split at hs
    · next e he =>
      obtain ⟨hmem, rfl⟩ := mem_of_getProcess he
      split_ifs at hs with hf
      · refine Except.ok.inj hs ▸ h.removeProcess fun x hx hp => ?_
        obtain rfl := inj_on_of_nodup_map h.nodup hx hmem hp
        rw [hf]
        exact Status.noConfusion
      · exact Except.ok.inj hs ▸ h
    · exact Except.ok.inj hs ▸ h
  | startThread p =>
    refine Except.ok.inj hs ▸ h.modify _ fun e _ _ => ?_
    split_ifs
    · exact ⟨rfl, rfl, id, fun _ => rfl⟩
    · exact ⟨rfl, rfl, id, fun _ => rfl⟩
  | endThread p =>
    exact Except.ok.inj hs ▸ h.modify _ fun e _ _ => ⟨rfl, rfl, id, fun _ => rfl⟩
  | exit p status =>
    refine Except.ok.inj hs ▸ h.modify _ fun e _ _ => ?_
    split_ifs with hc
    · exact ⟨rfl, rfl, id, fun _ => rfl⟩
    · exact ⟨rfl, rfl, id, fun hz => absurd (.inl hz) hc⟩
  | exitThreaded p =>
    rw [ProcessList.step] at hs
    split at hs
    · next proc hpr =>
      split_ifs at hs with hc
      · split at hs
        · exact Except.ok.inj hs ▸ h.die (mem_of_getProcess hpr).1 hc.1
        · cases hs
      · exact Except.ok.inj hs ▸ h
    · exact Except.ok.inj hs ▸ h
  | wait p =>
    rw [ProcessList.step] at hs
    split at hs
    · next proc hpr =>
      obtain ⟨hmem, -, hd⟩ := tryGet_eq_ok hpr
      refine Except.ok.inj hs ▸ h.removeProcess fun x hx hp => ?_
      obtain rfl := inj_on_of_nodup_map h.nodup hx hmem hp
      rw [hd]
      exact Status.noConfusion
    · exact Except.ok.inj hs ▸ h

end

end Tree

theorem tree_boot (threads : ℕ) : Tree (boot threads) where
  nodup := by simp [boot]
  lt := by simp [boot]
  older := by simp [boot]
  idle := by simp [boot]
  parent := by simp [boot]

/-- **The process tree.** In every run from the start of the kernel, the parent of every process is in
the list and, but for idle and kernel, not dead; and `get_process(process->parent_pid)` in
`exit_threaded` is not null. -/
theorem tree_of_reach {threads : ℕ} {s : ProcessList}
    (hreach : Reach step (fun _ _ => True) (boot threads) s) :
    (∀ e ∈ s.list, ∃ parent ∈ s.list, parent.pid = e.parentPid ∧
      (e.pid ≠ 0 → e.pid ≠ 1 → parent.status ≠ .dead)) ∧
    ∀ p process, s.getProcess p = some process → process.exiting →
      ((s.die process).getProcess process.parentPid).isSome := by
  have htr : Tree s := hreach.invariant (P := Tree) (tree_boot threads)
    fun _ _ _ h _ hst => h.step hst
  refine ⟨fun e he => ?_, fun p process hpr hex => ?_⟩
  · obtain ⟨parent, hmem, hpid, hrun⟩ := htr.parent e he
    refine ⟨parent, hmem, hpid, fun _ _ => ?_⟩
    rw [hrun]
    exact Status.noConfusion
  · exact htr.getProcess_die (mem_of_getProcess hpr).1 hex

theorem tree_of_reach_fork :
    ∃ s ∈ execute step (fun _ _ => True) (boot 1) [.create 1, .startThread 2, .ready 2, .create 2,
        .startThread 3, .ready 3, .create 2, .exit 3 7, .endThread 3, .exitThreaded 3, .exit 2 0,
        .endThread 2, .exitThreaded 2, .wait 1],
      s.list.map (fun e => (e.pid, e.parentPid)) = [(0, 0), (1, 0), (3, 1), (4, 1)] ∧
      ∀ e ∈ s.list, ∃ parent ∈ s.list, parent.pid = e.parentPid ∧
        (e.pid ≠ 0 → e.pid ≠ 1 → parent.status ≠ .dead) := by
  exact exists_execute_and (by decide) fun s hs => (tree_of_reach hs).1

end ProcessList

end AexKernel.Proc
