import AexKernel.Ipc.Event
import AexKernel.Proc.ProcessTree

/-! # Waiting for children (`Process::wait`, `exit_threaded`)

`wait` looks for a dead child under `processes_lock`, and registers for the `child_event` of its
process before it gives the lock back. -/

namespace AexKernel.Proc

open Library Ipc List Function Except ProcessList ProcessEntry

namespace ProcessList

def dead (s : ProcessList) : List (ℕ × ℤ) :=
  (s.list.filter (·.status = .dead)).map fun e => (e.pid, e.retCode)

/-- Steps in which no process dies, and none is taken out of the list by `wait`. -/
structure Quiet (s s' : ProcessList) : Prop where
  dead : s'.dead = s.dead
  counter : s.counter ≤ s'.counter
  entries : ∀ e ∈ s'.list, (∃ e₀ ∈ s.list, e.pid = e₀.pid ∧ e.parentPid = e₀.parentPid ∧
      e.retCode = e₀.retCode ∧ e.exiting = e₀.exiting ∧ (e.status = .dead ↔ e₀.status = .dead)) ∨
    s.counter ≤ e.pid ∧ e.status ≠ .dead ∧ e.exiting = false

variable {s s' : ProcessList} {p : ℕ} {proc : ProcessEntry}

theorem Quiet.refl : Quiet s s :=
  ⟨rfl, le_rfl, fun e he => .inl ⟨e, he, rfl, rfl, rfl, rfl, Iff.rfl⟩⟩

variable (f : ProcessEntry → ProcessEntry)

theorem dead_modify
    (hk : ∀ e ∈ s.list, e.pid = p → (f e).pid = e.pid ∧ ((f e).status = .dead ↔ e.status =
      .dead) ∧ (e.status = .dead → (f e).retCode = e.retCode)) :
    (s.modify p f).dead = s.dead := by
  rw [dead, dead, modify]
  generalize hl : s.list = l at hk ⊢
  clear hl
  induction l with
  | nil => rfl
  | cons e rest ih =>
    have hr := ih fun e he => hk e (mem_cons_of_mem _ he)
    have hn : (if e.pid = p then f e else e).pid = e.pid ∧
        ((if e.pid = p then f e else e).status = .dead ↔ e.status = .dead) ∧
        (e.status = .dead → (if e.pid = p then f e else e).retCode = e.retCode) := by
      split_ifs with hp
      · exact hk e mem_cons_self hp
      · exact ⟨rfl, Iff.rfl, fun _ => rfl⟩
    obtain ⟨hi, hd, hre⟩ := hn
    rw [map_cons, filter_cons, filter_cons]
    by_cases he : e.status = .dead
    · rw [if_pos (decide_eq_true (hd.mpr he)), if_pos (decide_eq_true he), map_cons,
        map_cons, hr, hi, hre he]
    · rw [if_neg (by simpa using fun h => he (hd.mp h)), if_neg (by simpa using he), hr]

theorem Quiet.modify
    (hk : ∀ e ∈ s.list, e.pid = p → (f e).pid = e.pid ∧ (f e).parentPid = e.parentPid ∧
      (f e).retCode = e.retCode ∧ (f e).exiting = e.exiting ∧ ((f e).status = .dead ↔ e.status =
      .dead)) :
    Quiet s (s.modify p f) where
  dead := dead_modify f fun e he hp =>
    ⟨(hk e he hp).1, (hk e he hp).2.2.2.2, fun _ => (hk e he hp).2.2.1⟩
  counter := le_rfl
  entries e he := by
    obtain ⟨e0, h0, rfl⟩ := mem_modify.mp he
    refine .inl ⟨e0, h0, ?_⟩
    split_ifs with hp
    · exact hk e0 h0 hp
    · exact ⟨rfl, rfl, rfl, rfl, Iff.rfl⟩

theorem Quiet.addProcess {parentPid : ℕ} : Quiet s (s.addProcess parentPid) where
  dead := by
    rw [ProcessList.dead, ProcessList.addProcess, filter_append]
    exact congrArg _ (append_nil _)
  counter := Nat.le_succ _
  entries e he := by
    rcases mem_append.mp he with he | he
    · exact .inl ⟨e, he, rfl, rfl, rfl, rfl, Iff.rfl⟩
    obtain rfl := mem_singleton.mp he
    exact .inr ⟨le_rfl, Status.noConfusion, rfl⟩

theorem Quiet.removeProcess (ha : ∀ e ∈ s.list, e.pid = p → e.status ≠ .dead) :
    Quiet s (s.removeProcess p) where
  dead := by
    rw [ProcessList.dead, ProcessList.dead, ProcessList.removeProcess, filter_filter]
    refine congrArg _ (filter_congr fun e he => ?_)
    by_cases hd : e.status = .dead
    · have hp : e.pid ≠ p := fun hp => ha e he hp hd
      simp [hd, hp]
    · simp [hd]
  counter := le_rfl
  entries e he := .inl ⟨e, (mem_removeProcess.mp he).1, rfl, rfl, rfl, rfl, Iff.rfl⟩

theorem exists_split (ho : (s.list.map pid).Nodup) (hm : proc ∈ s.list) :
    ∃ l1 l2, s.list = l1 ++ proc :: l2 ∧ (∀ e ∈ l1, e.pid ≠ proc.pid) ∧
      ∀ e ∈ l2, e.pid ≠ proc.pid := by
  obtain ⟨l1, l2, hl⟩ := append_of_mem hm
  rw [hl, map_append, map_cons, nodup_append, nodup_cons] at ho
  obtain ⟨-, ⟨hn, -⟩, hd⟩ := ho
  refine ⟨l1, l2, hl, fun e he => ?_, fun e he hp => ?_⟩
  · exact hd _ (mem_map_of_mem he) _ mem_cons_self
  · exact hn (hp ▸ mem_map_of_mem he)

theorem dead_die (hn : (s.list.map pid).Nodup) (hm : proc ∈ s.list)
    (ha : proc.status ≠ .dead) :
    (s.die proc).dead.Perm ((proc.pid, proc.retCode) :: s.dead) := by
  obtain ⟨l1, l2, hi, h1, h2⟩ := exists_split hn hm
  -- the entries of other processes keep their status, pid and exit code
  have ho : ∀ l : List ProcessEntry, (∀ e ∈ l, e.pid ≠ proc.pid) →
      (((l.map fun e => if e.pid = proc.pid then { e with status := .dead } else e).map fun e =>
        if e.parentPid = proc.pid then { e with parentPid := proc.parentPid } else e).filter
          (·.status = .dead)).map (fun e => (e.pid, e.retCode)) =
        (l.filter (·.status = .dead)).map fun e => (e.pid, e.retCode) := by
    intro l hl
    induction l with
    | nil => rfl
    | cons e rest ih =>
      have hr := ih fun e he => hl e (mem_cons_of_mem _ he)
      rw [map_cons, map_cons, if_neg (hl e mem_cons_self), filter_cons, filter_cons]
      split_ifs <;> simp_all
  have hs : (s.die proc).dead =
      (l1.filter (·.status = .dead)).map (fun e => (e.pid, e.retCode)) ++
        (proc.pid, proc.retCode) ::
        (l2.filter (·.status = .dead)).map (fun e => (e.pid, e.retCode)) := by
    rw [dead, die, reparent, modify, hi]
    rw [map_append, map_append, filter_append, map_append, ho l1 h1,
      map_cons, map_cons, if_pos rfl, ← ho l2 h2]
    split_ifs <;> simp
  have hb : s.dead = (l1.filter (·.status = .dead)).map (fun e => (e.pid, e.retCode)) ++
      (l2.filter (·.status = .dead)).map (fun e => (e.pid, e.retCode)) := by
    rw [dead, hi, filter_append, filter_cons, if_neg (by simpa using ha), map_append]
  rw [hs, hb]
  exact perm_middle

theorem dead_removeProcess (hn : (s.list.map pid).Nodup) (hm : proc ∈ s.list)
    (hd : proc.status = .dead) :
    s.dead.Perm ((proc.pid, proc.retCode) :: (s.removeProcess proc.pid).dead) := by
  obtain ⟨l1, l2, hl, h1, h2⟩ := exists_split hn hm
  have hr : (s.removeProcess proc.pid).list = l1 ++ l2 := by
    rw [removeProcess, hl, filter_append, filter_cons, if_neg (by simp),
      filter_eq_self.mpr (fun e he => decide_eq_true (h1 e he)),
      filter_eq_self.mpr (fun e he => decide_eq_true (h2 e he))]
  rw [dead, dead, hr, hl, filter_append, filter_append,
    filter_cons, if_pos (decide_eq_true hd), map_append, map_append, map_cons]
  exact perm_middle

end ProcessList

/-! ## Accounts of exits -/

/-- The calls by which the process list changes without a death. -/
def TreeCall.IsQuiet : TreeCall → Prop
  | .create _ | .ready _ | .discard _ | .startThread _ | .endThread _ => True
  | _ => False

instance (a : TreeCall) : Decidable a.IsQuiet :=
  match a with
  | .create _ | .ready _ | .discard _ | .startThread _ | .endThread _ => .isTrue trivial
  | .exit .. | .exitThreaded _ | .wait _ => .isFalse id

theorem ProcessList.quiet_step {s s' : ProcessList} (ht : Tree s) {a : TreeCall} (ha : a.IsQuiet)
    (hs : s.step a = .ok s') : Quiet s s' := by
  cases a with
  | create parent =>
    rw [step] at hs
    split at hs
    · split_ifs at hs
      · exact ok.inj hs ▸ Quiet.addProcess
      · exact ok.inj hs ▸ Quiet.refl
    · exact ok.inj hs ▸ Quiet.refl
  | ready p =>
    refine ok.inj hs ▸ Quiet.modify _ fun e _ _ => ?_
    split_ifs with hf
    · exact ⟨rfl, rfl, rfl, rfl, by simp [hf]⟩
    · exact ⟨rfl, rfl, rfl, rfl, Iff.rfl⟩
  | discard p =>
    rw [step] at hs
    split at hs
    · next e he =>
      obtain ⟨hm, rfl⟩ := mem_of_getProcess he
      split_ifs at hs with hf
      · refine ok.inj hs ▸ Quiet.removeProcess fun x hx hp => ?_
        obtain rfl := inj_on_of_nodup_map ht.nodup hx hm hp
        rw [hf]
        exact Status.noConfusion
      · exact ok.inj hs ▸ Quiet.refl
    · exact ok.inj hs ▸ Quiet.refl
  | startThread p =>
    refine ok.inj hs ▸ Quiet.modify _ fun e _ _ => ?_
    split_ifs
    · exact ⟨rfl, rfl, rfl, rfl, Iff.rfl⟩
    · exact ⟨rfl, rfl, rfl, rfl, Iff.rfl⟩
  | endThread p =>
    exact ok.inj hs ▸ Quiet.modify _ fun e _ _ => ⟨rfl, rfl, rfl, rfl, Iff.rfl⟩
  | exit p status => exact ha.elim
  | exitThreaded p => exact ha.elim
  | wait p => exact ha.elim

/-- The process list, and a record of exits, deaths and successful waits, the latest first. -/
structure Accounts (ι : Type) where
  processes : ProcessList
  /-- The first `exit` of every process, with its status. -/
  exits : List (ℕ × ℤ) := []
  /-- The processes that `exit_threaded` has marked as dead, with their `ret_code`. -/
  died : List (ℕ × ℤ) := []
  /-- What `wait` returned, and in which thread. -/
  reaped : List (ι × ℕ × ℤ) := []

namespace Accounts

variable {ι : Type}

/-- `Process::exit(status)`. -/
def exit (s : Accounts ι) (p : ℕ) (status : ℤ) : Accounts ι :=
  match s.processes.getProcess p with
  | none => s
  | some e =>
    if p = 0 ∨ e.exiting ∨ e.status = .fresh then s
    else { s with
      processes := s.processes.modify p fun e => { e with exiting := true, retCode := status }
      exits := (p, status) :: s.exits }

/-- `exit_threaded` marks a process as dead. -/
def die (s : Accounts ι) (process : ProcessEntry) : Accounts ι :=
  { s with
    processes := s.processes.die process
    died := (process.pid, process.retCode) :: s.died }

/-- `try_get` deletes a child, and `wait` returns. -/
def reap (s : Accounts ι) (t : ι) (child : ProcessEntry) : Accounts ι :=
  { s with
    processes := s.processes.removeProcess child.pid
    reaped := (t, child.pid, child.retCode) :: s.reaped }

/-- The accounts are right. -/
structure Balanced (s : Accounts ι) : Prop where
  tree : s.processes.Tree
  /-- A pid that was returned by `wait` is not used again. -/
  gone : ∀ r ∈ s.reaped, r.2.1 < s.processes.counter ∧ ∀ e ∈ s.processes.list, e.pid ≠ r.2.1
  nodup : (s.reaped.map fun r => r.2.1).Nodup
  /-- Who died is in the list, or was returned by `wait`. -/
  perm : s.died.Perm (s.processes.dead ++ s.reaped.map Prod.snd)
  exiting : ∀ e ∈ s.processes.list, e.exiting → (e.pid, e.retCode) ∈ s.exits
  dead : ∀ e ∈ s.processes.list, e.status = .dead → e.exiting
  exits : ∀ x ∈ s.exits, x.1 < s.processes.counter ∧
    ∀ e ∈ s.processes.list, e.pid = x.1 → e.exiting
  exitsNodup : (s.exits.map Prod.fst).Nodup
  /-- Who died did so with the status of its `exit`. -/
  died : ∀ x ∈ s.died, x ∈ s.exits

namespace Balanced

variable {s : Accounts ι}

theorem quiet (h : Balanced s) {processes : ProcessList} (ht : processes.Tree)
    (hq : s.processes.Quiet processes) : Balanced { s with processes := processes } where
  tree := ht
  gone r hr := by
    obtain ⟨hl, hp⟩ := h.gone r hr
    refine ⟨hl.trans_le hq.counter, fun e he => ?_⟩
    rcases hq.entries e he with ⟨e0, h0, hpid0, -⟩ | ⟨hn, -⟩
    · rw [hpid0]
      exact hp e0 h0
    · omega
  nodup := h.nodup
  perm := by
    rw [hq.dead]
    exact h.perm
  exiting e he hex := by
    rcases hq.entries e he with ⟨e0, h0, hp, -, hre, hi, -⟩ | ⟨-, -, ho⟩
    · rw [hp, hre]
      exact h.exiting e0 h0 (hi ▸ hex)
    · rw [ho] at hex
      cases hex
  dead e he hd := by
    rcases hq.entries e he with ⟨e0, h0, -, -, -, hi, hde0⟩ | ⟨-, ha, -⟩
    · rw [hi]
      exact h.dead e0 h0 (hde0.mp hd)
    · exact absurd hd ha
  exits x hx := by
    obtain ⟨hl, hex⟩ := h.exits x hx
    refine ⟨hl.trans_le hq.counter, fun e he hp => ?_⟩
    rcases hq.entries e he with ⟨e0, h0, hpid0, -, -, hi, -⟩ | ⟨hn, -⟩
    · rw [hi]
      exact hex e0 h0 (hpid0 ▸ hp)
    · omega
  exitsNodup := h.exitsNodup
  died := h.died

theorem exit (h : Balanced s) (p : ℕ) (st : ℤ) : Balanced (s.exit p st) := by
  rw [Accounts.exit]
  split
  · exact h
  next proc hpr =>
  split_ifs with hc
  · exact h
  obtain ⟨hm, rfl⟩ := mem_of_getProcess hpr
  push Not at hc
  obtain ⟨hz, hexi, hf⟩ := hc
  -- only the entry of this proc has its pid
  have hu {e : ProcessEntry} (he : e ∈ s.processes.list) (hi : e.pid = proc.pid) :
      e = proc := inj_on_of_nodup_map h.tree.nodup he hm hi
  have ha : proc.status ≠ .dead := fun hd => hexi (h.dead proc hm hd)
  have hn : ∀ x ∈ s.exits, x.1 ≠ proc.pid := fun x hx hi =>
    hexi ((h.exits x hx).2 proc hm hi.symm)
  refine ⟨?_, fun r hr => ⟨(h.gone r hr).1, fun e he => ?_⟩, h.nodup, ?_, fun e he hex => ?_,
    fun e he hd => ?_, fun x hx => ?_, ?_, fun x hx => mem_cons_of_mem _ (h.died x hx)⟩
  · exact h.tree.modify _ fun e _ hp => ⟨rfl, rfl, id, fun hp0 => absurd hp0 hz⟩
  · obtain ⟨e0, h0, rfl⟩ := mem_modify.mp he
    split_ifs
    · exact (h.gone r hr).2 e0 h0
    · exact (h.gone r hr).2 e0 h0
  · rw [dead_modify]
    · exact h.perm
    intro e he hp
    obtain rfl := hu he hp
    exact ⟨rfl, Iff.rfl, fun hd => absurd hd ha⟩
  · obtain ⟨e0, h0, rfl⟩ := mem_modify.mp he
    split_ifs at hex ⊢ with hp
    · rw [hp]
      exact mem_cons_self
    · exact mem_cons_of_mem _ (h.exiting e0 h0 hex)
  · obtain ⟨e0, h0, rfl⟩ := mem_modify.mp he
    split_ifs at hd ⊢
    · rfl
    · exact h.dead e0 h0 hd
  · have ht : ∀ e ∈ s.processes.list, e.pid = x.1 →
        (if e.pid = proc.pid then { e with exiting := true, retCode := st } else e).exiting := by
      intro e he hi
      split_ifs with hp
      · rfl
      rcases mem_cons.mp hx with rfl | hx
      · exact absurd hi hp
      · exact (h.exits x hx).2 e he hi
    refine ⟨?_, fun e he hi => ?_⟩
    · rcases mem_cons.mp hx with rfl | hx
      · exact h.tree.lt proc hm
      · exact (h.exits x hx).1
    obtain ⟨e0, h0, rfl⟩ := mem_modify.mp he
    refine ht e0 h0 ?_
    split_ifs at hi
    · exact hi
    · exact hi
  · refine nodup_cons.mpr ⟨fun hp => ?_, h.exitsNodup⟩
    obtain ⟨x, hx, hi⟩ := mem_map.mp hp
    exact hn x hx hi

theorem die (h : Balanced s) {proc : ProcessEntry} (hm : proc ∈ s.processes.list)
    (hexi : proc.exiting) (ha : proc.status ≠ .dead) : Balanced (s.die proc) where
  tree := h.tree.die hm hexi
  gone r hr := by
    refine ⟨(h.gone r hr).1, fun e he => ?_⟩
    obtain ⟨e0, h0, hp, -⟩ := mem_die.mp he
    rw [hp]
    exact (h.gone r hr).2 e0 h0
  nodup := h.nodup
  perm := by
    have hd := dead_die h.tree.nodup hm ha
    exact (h.perm.cons _).trans (hd.symm.append_right _)
  exiting e he hex := by
    obtain ⟨e0, h0, hp, -, -, hre, hi, -⟩ := mem_die.mp he
    rw [hp, hre]
    exact h.exiting e0 h0 (hi ▸ hex)
  dead e he hd := by
    obtain ⟨e0, h0, -, hs, -, -, hi, -⟩ := mem_die.mp he
    rw [hi]
    rw [hs] at hd
    split_ifs at hd with hp
    · obtain rfl := inj_on_of_nodup_map h.tree.nodup h0 hm hp
      exact hexi
    · exact h.dead e0 h0 hd
  exits x hx := by
    refine ⟨(h.exits x hx).1, fun e he hp => ?_⟩
    obtain ⟨e0, h0, hpid0, -, -, -, hi, -⟩ := mem_die.mp he
    rw [hi]
    exact (h.exits x hx).2 e0 h0 (hpid0 ▸ hp)
  exitsNodup := h.exitsNodup
  died x hx := by
    rcases mem_cons.mp hx with rfl | hx
    · exact h.exiting proc hm hexi
    · exact h.died x hx

theorem reap (h : Balanced s) (t : ι) {ch : ProcessEntry} (hm : ch ∈ s.processes.list)
    (hd : ch.status = .dead) : Balanced (s.reap t ch) where
  tree := by
    refine h.tree.removeProcess fun x hx hi => ?_
    obtain rfl := inj_on_of_nodup_map h.tree.nodup hx hm hi
    rw [hd]
    exact Status.noConfusion
  gone r hr := by
    have hl {e : ProcessEntry} (he : e ∈ (s.processes.removeProcess ch.pid).list) :=
      mem_removeProcess.mp he
    rcases mem_cons.mp hr with rfl | hr
    · exact ⟨h.tree.lt ch hm, fun e he => (hl he).2⟩
    · exact ⟨(h.gone r hr).1, fun e he => (h.gone r hr).2 e (hl he).1⟩
  nodup := by
    refine nodup_cons.mpr ⟨fun hp => ?_, h.nodup⟩
    obtain ⟨r, hr, hi⟩ := mem_map.mp hp
    exact (h.gone r hr).2 ch hm hi.symm
  perm := by
    have hre := dead_removeProcess h.tree.nodup hm hd
    exact (h.perm.trans (hre.append_right _)).trans perm_middle.symm
  exiting e he := h.exiting e (mem_removeProcess.mp he).1
  dead e he := h.dead e (mem_removeProcess.mp he).1
  exits x hx := ⟨(h.exits x hx).1, fun e he =>
    (h.exits x hx).2 e (mem_removeProcess.mp he).1⟩
  exitsNodup := h.exitsNodup
  died := h.died

end Balanced

end Accounts

/-! ## Threads that wait -/

/-- How far a thread is in `wait`. -/
inductive WaitPosition
  | outside
  | starting
  /-- `try_get` has returned `EAGAIN`, and the thread holds `processes_lock`. -/
  | holding
  | registered
  /-- It has given `processes_lock` back. -/
  | released
  | yielded
  deriving DecidableEq, Repr

/-- Who holds `processes_lock` for longer than a step. -/
inductive Holder (ι : Type)
  | waiter (t : ι)
  /-- `exit_threaded` of a process, which is marked as dead, and the event not yet raised. -/
  | exiter (process : ProcessEntry)

/-- Processes, and threads that wait for children of theirs. -/
structure WaitSystem (ι : Type) where
  accounts : Accounts ι
  /-- The threads, and the `child_event` of every process. -/
  events : EventThreads ι ℕ
  process : ι → ℕ
  holder : Option (Holder ι) := none
  locks : ℕ → Option ι := fun _ => none
  position : ι → WaitPosition := fun _ => .outside

/-- A step of the system. -/
inductive WaitCall (ι : Type)
  /-- A thread calls `wait`. -/
  | call (t : ι)
  /-- It takes `processes_lock` and calls `try_get`. -/
  | check (t : ι)
  /-- It takes the lock of its process and calls `child_event.wait()`. -/
  | register (t : ι)
  | releaseList (t : ι)
  | releaseOwn (t : ι)
  /-- It runs again after its `yield`. -/
  | resume (t : ι)
  | exit (p : ℕ) (status : ℤ)
  /-- `exit_threaded` takes `processes_lock`, marks the process as dead, and reparents its children. -/
  | die (p : ℕ)
  /-- `exit_threaded` raises the event of the parent and gives the lock back. -/
  | raise
  | tree (a : TreeCall)
  | interrupt (t : ι) (aborting : Bool) (pending : List SigInfo) (inSignal : Bool)
  | wake (t : ι)
  /-- A thread that is not in `wait` does something else. -/
  | other (t : ι) (thread : Thread ι)

/-- Calls that take `processes_lock`. -/
def TreeCall.TakesLock : TreeCall → Bool
  | .create _ | .discard _ => true
  | _ => false

namespace WaitSystem

variable {ι : Type} [DecidableEq ι]

def moveTo (s : WaitSystem ι) (t : ι) (position : WaitPosition) : WaitSystem ι :=
  { s with position := Function.update s.position t position }

def step (s : WaitSystem ι) : WaitCall ι → Except Fault (WaitSystem ι)
  | .call t => .ok (if s.position t = .outside then s.moveTo t .starting else s)
  | .check t =>
    if s.position t = .starting ∧ s.holder.isNone then
      match s.accounts.processes.tryGet (s.process t) with
      | .ok child => .ok { s.moveTo t .outside with accounts := s.accounts.reap t child }
      | .error .echild => .ok (s.moveTo t .outside)
      | .error .eagain => .ok { s.moveTo t .holding with holder := some (.waiter t) }
    else .ok s
  | .register t =>
    if s.position t = .holding ∧ (s.locks (s.process t)).isNone then
      .ok { s.moveTo t .registered with
        locks := Function.update s.locks (s.process t) (some t)
        events := s.events.wait t (s.process t) 0 0 }
    else .ok s
  | .releaseList t =>
    if s.position t = .registered then .ok { s.moveTo t .released with holder := none } else .ok s
  | .releaseOwn t =>
    if s.position t = .released then
      .ok { s.moveTo t .yielded with locks := Function.update s.locks (s.process t) none }
    else .ok s
  | .resume t =>
    if s.position t = .yielded ∧
        ((s.events.threads t).status = .runnable ∨ (s.events.threads t).interrupted) then
      -- an interrupted thread returns `EINTR`
      .ok { s.moveTo t (if (s.events.threads t).interrupted then .outside else .starting) with
        events := s.events.schedule t 0 }
    else .ok s
  | .exit p status => .ok { s with accounts := s.accounts.exit p status }
  | .die p =>
    match s.accounts.processes.getProcess p with
    | none => .ok s
    | some process =>
      if s.holder.isNone ∧ process.exiting ∧ process.threadCounter = 0 ∧ process.status ≠ .dead then
        .ok { s with accounts := s.accounts.die process, holder := some (.exiter process) }
      else .ok s
  | .raise =>
    match s.holder with
    | some (.exiter process) =>
      match s.accounts.processes.getProcess process.parentPid with
      | none => .error .outOfBounds
      | some parent =>
        if (s.locks parent.pid).isNone then do
          return { s with events := ← s.events.clear parent.pid false, holder := none }
        else .ok s
    | _ => .ok s
  | .tree a =>
    if a.IsQuiet ∧ (a.TakesLock → s.holder.isNone) then do
      return { s with accounts := { s.accounts with processes := ← s.accounts.processes.step a } }
    else .ok s
  | .interrupt t aborting pending inSignal => .ok { s with events := s.events.modify t fun x =>
      { x with aborting := aborting, pendingSignals := pending, inSignal := inSignal } }
  | .wake t => .ok (if s.position t = .outside then s
      else { s with events := s.events.modify t fun x => { x with status := .runnable } })
  | .other t thread => .ok (if s.position t = .outside
      then { s with events := s.events.modify t fun _ => thread } else s)

theorem position_moveTo (s : WaitSystem ι) (t u : ι) (pos : WaitPosition) :
    (s.moveTo t pos).position u = if u = t then pos else s.position u :=
  update_apply ..

def NoDead (s : WaitSystem ι) (p : ℕ) : Prop :=
  ∀ e ∈ s.accounts.processes.list, e.parentPid = p → e.status ≠ .dead

/-- A `raise` of the event of a process is about to come. -/
def Pending (s : WaitSystem ι) (p : ℕ) : Prop :=
  ∃ process, s.holder = some (.exiter process) ∧ process.parentPid = p

/-- The thread has registered, and has not come back from its `yield`. -/
def Parked : WaitPosition → Prop
  | .registered | .released | .yielded => True
  | _ => False

/-- What holds of threads in `wait`. -/
structure Waiting (s : WaitSystem ι) : Prop where
  lock : ∀ t, s.position t = .holding ∨ s.position t = .registered → s.holder = some (.waiter t)
  holding : ∀ t, s.position t = .holding → s.NoDead (s.process t)
  blocked : ∀ t, Parked (s.position t) → (s.events.threads t).status = .blocked →
    t ∈ (s.events.events (s.process t)).tiddies ∧
      (s.NoDead (s.process t) ∨ s.Pending (s.process t))
  defunct : ∀ p, (s.events.events p).defunct = false

namespace Waiting

variable {s s' : WaitSystem ι} {t : ι} {position : WaitPosition}

omit [DecidableEq ι] in
theorem free (h : Waiting s) (hh : ∀ u, s.holder ≠ some (.waiter u)) (u : ι) :
    ¬ (s.position u = .holding ∨ s.position u = .registered) := fun hu => hh u (h.lock u hu)

theorem moveTo (h : Waiting s) (ho : position = .outside ∨ position = .starting) :
    Waiting (s.moveTo t position) := by
  have hs : ¬ (position = .holding ∨ position = .registered) ∧ ¬ Parked position := by
    rcases ho with rfl | rfl
    · exact ⟨by decide, id⟩
    · exact ⟨by decide, id⟩
  refine ⟨fun u hu => ?_, fun u hu => ?_, fun u hu => ?_, h.defunct⟩
  all_goals rw [position_moveTo] at hu; split_ifs at hu
  · exact absurd hu hs.1
  · exact h.lock u hu
  · exact absurd (.inl hu) hs.1
  · exact h.holding u hu
  · exact absurd hu hs.2
  · exact h.blocked u hu

omit [DecidableEq ι] in
theorem accounts (h : Waiting s) {accounts : Accounts ι}
    (hd : ∀ e ∈ accounts.processes.list, e.status = .dead →
      ∃ e0 ∈ s.accounts.processes.list, e0.parentPid = e.parentPid ∧ e0.status = .dead) :
    Waiting { s with accounts := accounts } := by
  have hnoD {p : ℕ} (hn : s.NoDead p) : NoDead { s with accounts := accounts } p := by
    intro e he ha hs
    obtain ⟨e0, h0, hpa0, hst0⟩ := hd e he hs
    exact hn e0 h0 (hpa0.trans ha) hst0
  exact ⟨h.lock, fun t ht => hnoD (h.holding t ht),
    fun t hp hs => (h.blocked t hp hs).imp_right (.imp_left hnoD), h.defunct⟩

theorem modify (h : Waiting s) (f : Thread ι → Thread ι)
    (hf : Parked (s.position t) → (f (s.events.threads t)).status = .blocked →
      (s.events.threads t).status = .blocked) :
    Waiting { s with events := s.events.modify t f } := by
  refine ⟨h.lock, h.holding, fun u hp hs => h.blocked u hp ?_, h.defunct⟩
  by_cases hu : u = t
  · subst hu
    refine hf hp ?_
    change (update s.events.threads u (f (s.events.threads u)) u).status = _ at hs
    rwa [update_self] at hs
  · exact (EventThreads.status_modify f hu).symm.trans hs

omit [DecidableEq ι] in
theorem noDead (h : Waiting s) (hh : ∀ proc, s.holder ≠ some (.exiter proc))
    (hp : Parked (s.position t)) (hs : (s.events.threads t).status = .blocked) :
    s.NoDead (s.process t) := by
  obtain ⟨-, hn | ⟨proc, hex, -⟩⟩ := h.blocked t hp hs
  · exact hn
  · exact absurd hex (hh proc)

theorem hold (h : Waiting s) (hh : s.holder = none) (hn : s.NoDead (s.process t)) :
    Waiting { s.moveTo t .holding with holder := some (.waiter t) } := by
  have hf := h.free fun u hu => nomatch hh.symm.trans hu
  refine ⟨fun u hu => ?_, fun u hu => ?_, fun u hu hs => ?_, h.defunct⟩
  · rw [position_moveTo] at hu
    split_ifs at hu with ht
    · rw [ht]
    · exact absurd hu (hf u)
  · rw [position_moveTo] at hu
    split_ifs at hu with ht
    · subst ht
      exact hn
    · exact absurd (.inl hu) (hf u)
  rw [position_moveTo] at hu
  split_ifs at hu with ht
  · exact hu.elim
  refine ⟨(h.blocked u hu hs).1, .inl (h.noDead (fun proc => ?_) hu hs)⟩
  rw [hh]
  exact (Option.some_ne_none _).symm

variable {locks : ℕ → Option ι}

theorem register (h : Waiting s) (hp : s.position t = .holding) :
    Waiting { s.moveTo t .registered with
      locks := locks, events := s.events.wait t (s.process t) 0 0 } := by
  have hl := h.lock t (.inl hp)
  refine ⟨fun u hu => ?_, fun u hu => ?_, fun u hu hs => ?_, fun p => ?_⟩
  · change (s.moveTo t .registered).position u = _ ∨ (s.moveTo t .registered).position u = _ at hu
    rw [position_moveTo] at hu
    split_ifs at hu with ht
    · rw [ht]
      exact hl
    · exact h.lock u hu
  · change (s.moveTo t .registered).position u = _ at hu
    rw [position_moveTo] at hu
    split_ifs at hu with ht
    exact h.holding u hu
  · have hm : u ∈ ((s.events.wait t (s.process t) 0 0).events (s.process u)).tiddies ↔
        u ∈ (s.events.events (s.process u)).tiddies ∨ u = t ∧ s.process u = s.process t :=
      EventThreads.mem_wait (h.defunct (s.process t))
    change Parked ((s.moveTo t .registered).position u) at hu
    rw [position_moveTo] at hu
    split_ifs at hu with ht
    · subst ht
      exact ⟨hm.mpr (.inr ⟨rfl, rfl⟩), .inl (h.holding u hp)⟩
    · have hb := h.blocked u hu ((EventThreads.status_wait ht).symm.trans hs)
      exact ⟨hm.mpr (.inl hb.1), hb.2⟩
  · exact EventThreads.defunct_wait.trans (h.defunct p)

theorem release (h : Waiting s) {holder : Option (Holder ι)} (ha : Parked (s.position t))
    (hp : position = .released ∨ position = .yielded)
    (hh : holder = s.holder ∨ s.position t = .registered) :
    Waiting { s.moveTo t position with holder := holder, locks := locks } := by
  have hs : ¬ (position = .holding ∨ position = .registered) := by
    rcases hp with rfl | rfl <;> decide
  -- another thread that relies on the lock has it
  have hk {u : ι} (ht : u ≠ t) (hu : s.position u = .holding ∨ s.position u = .registered) :
      holder = some (.waiter u) := by
    have hl := h.lock u hu
    rcases hh with rfl | hr
    · exact hl
    have hsa := (h.lock t (.inr hr)).symm.trans hl
    exact absurd (Holder.waiter.inj (Option.some.inj hsa)).symm ht
  refine ⟨fun u hu => ?_, fun u hu => ?_, fun u hu hst => ?_, h.defunct⟩
  · change (s.moveTo t position).position u = _ ∨ (s.moveTo t position).position u = _ at hu
    rw [position_moveTo] at hu
    split_ifs at hu with ht
    · exact absurd hu hs
    · exact hk ht hu
  · change (s.moveTo t position).position u = _ at hu
    rw [position_moveTo] at hu
    split_ifs at hu with ht
    · exact absurd (.inl hu) hs
    · exact h.holding u hu
  have hu0 : Parked (s.position u) := by
    change Parked ((s.moveTo t position).position u) at hu
    rw [position_moveTo] at hu
    split_ifs at hu with ht
    · exact ht ▸ ha
    · exact hu
  have hb := h.blocked u hu0 hst
  refine ⟨hb.1, ?_⟩
  rcases hh with rfl | hr
  · exact hb.2
  refine .inl (h.noDead (fun proc => ?_) hu0 hst)
  rw [h.lock t (.inr hr)]
  exact fun he => nomatch Option.some.inj he

theorem resume (h : Waiting s) (ho : position = .outside ∨ position = .starting) :
    Waiting { s.moveTo t position with events := s.events.schedule t 0 } := by
  have hm := h.moveTo (t := t) ho
  refine ⟨hm.lock, hm.holding, fun u hu hs => ?_, fun p => ?_⟩
  · by_cases ht : u = t
    · subst ht
      have he : (s.moveTo u position).position u = position := update_self ..
      change Parked ((s.moveTo u position).position u) at hu
      rw [he] at hu
      rcases ho with rfl | rfl <;> exact hu.elim
    · have hb := hm.blocked u hu ((EventThreads.status_schedule ht).symm.trans hs)
      refine ⟨?_, hb.2⟩
      rw [EventThreads.events_schedule]
      exact hb.1
  · rw [EventThreads.events_schedule]
    exact h.defunct p

omit [DecidableEq ι] in
theorem die (h : Waiting s) (hn : (s.accounts.processes.list.map pid).Nodup)
    {proc : ProcessEntry} (hm : proc ∈ s.accounts.processes.list)
    (hh : s.holder = none) :
    Waiting { s with accounts := s.accounts.die proc, holder := some (.exiter proc) } := by
  have hf := h.free fun u hu => nomatch hh.symm.trans hu
  refine ⟨fun u hu => absurd hu (hf u), fun u hu => absurd (.inl hu) (hf u),
    fun u hu hs => ⟨(h.blocked u hu hs).1, ?_⟩, h.defunct⟩
  by_cases hp : proc.parentPid = s.process u
  · exact .inr ⟨proc, rfl, hp⟩
  have ho := h.noDead (fun _ => hh.trans_ne (Option.some_ne_none _).symm) hu hs
  refine .inl fun e he heP heD => ?_
  obtain ⟨e0, h0, -, hd, hpa0, -⟩ := mem_die.mp he
  rw [hpa0] at heP
  split_ifs at heP with hc
  · exact hp heP
  rw [hd] at heD
  split_ifs at heD with hse
  · obtain rfl := inj_on_of_nodup_map hn h0 hm hse
    exact hp heP
  · exact ho e0 h0 heP heD

theorem raise (h : Waiting s) {proc : ProcessEntry} {events : EventThreads ι ℕ}
    (hh : s.holder = some (.exiter proc))
    (hc : s.events.clear proc.parentPid false = .ok events) :
    Waiting { s with events := events, holder := none } := by
  obtain ⟨-, ho, hd, hw, hth⟩ := EventThreads.clear_eq_ok hc
  have hf := h.free fun u hu => nomatch hh.symm.trans hu
  refine ⟨fun u hu => absurd hu (hf u), fun u hu => absurd (.inl hu) (hf u),
    fun u hu hs => ?_, fun p => ?_⟩
  · -- a thread that is still blocked was in no list that was raised
    change (events.threads u).status = .blocked at hs
    have hn : u ∉ (s.events.events proc.parentPid).tiddies := by
      intro hm
      rw [hw u hm] at hs
      cases hs
    rw [hth u hn] at hs
    obtain ⟨hm, ha⟩ := h.blocked u hu hs
    have ht : s.process u ≠ proc.parentPid := by
      intro he
      exact hn (he ▸ hm)
    refine ⟨?_, .inl (ha.resolve_right ?_)⟩
    · rw [ho _ ht]
      exact hm
    rintro ⟨process', hex, hpa⟩
    rw [hh] at hex
    obtain rfl := Holder.exiter.inj (Option.some.inj hex)
    exact ht hpa.symm
  · by_cases hp : p = proc.parentPid
    · rw [hp, hd, h.defunct]
      rfl
    · rw [ho p hp]
      exact h.defunct p

end Waiting

/-! ## Results -/

/-- What holds of all runs. -/
structure Sound (s : WaitSystem ι) : Prop where
  balanced : s.accounts.Balanced
  waiting : s.Waiting

variable {s s' : WaitSystem ι}

theorem Sound.step (h : Sound s) {a : WaitCall ι} (ht : s.step a = .ok s') : Sound s' := by
  obtain ⟨hb, hw⟩ := h
  have ha (hs : (.ok s : Except Fault (WaitSystem ι)) = .ok s') : Sound s' :=
    ok.inj hs ▸ ⟨hb, hw⟩
  cases a with
  | call t =>
    cases ht
    split_ifs
    · exact ⟨hb, hw.moveTo (.inr rfl)⟩
    · exact ⟨hb, hw⟩
  | check t =>
    rw [WaitSystem.step] at ht
    split_ifs at ht with hc
    · split at ht
      · next child hh =>
        obtain ⟨hm, -, hd⟩ := tryGet_eq_ok hh
        cases ht
        refine ⟨hb.reap t hm hd, (hw.moveTo (t := t) (.inl rfl)).accounts fun e he heD => ?_⟩
        exact ⟨e, (mem_removeProcess.mp he).1, rfl, heD⟩
      · exact ok.inj ht ▸ ⟨hb, hw.moveTo (.inl rfl)⟩
      · next hn =>
        refine ok.inj ht ▸ ⟨hb, hw.hold (Option.isNone_iff_eq_none.mp hc.2) ?_⟩
        intro e he hpa hd
        exact tryGet_ne_error he hpa hd hn
    · exact ha ht
  | register t =>
    rw [WaitSystem.step] at ht
    split_ifs at ht with hc
    · exact ok.inj ht ▸ ⟨hb, hw.register hc.1⟩
    · exact ha ht
  | releaseList t =>
    rw [WaitSystem.step] at ht
    split_ifs at ht with hc
    · refine ok.inj ht ▸ ⟨hb, ?_⟩
      exact hw.release (by rw [hc]; trivial) (.inl rfl) (.inr hc)
    · exact ha ht
  | releaseOwn t =>
    rw [WaitSystem.step] at ht
    split_ifs at ht with hc
    · refine ok.inj ht ▸ ⟨hb, ?_⟩
      exact hw.release (by rw [hc]; trivial) (.inr rfl) (.inl rfl)
    · exact ha ht
  | resume t =>
    rw [WaitSystem.step] at ht
    split_ifs at ht with hc hint
    · exact ok.inj ht ▸ ⟨hb, hw.resume (.inl rfl)⟩
    · exact ok.inj ht ▸ ⟨hb, hw.resume (.inr rfl)⟩
    · exact ha ht
  | exit p status =>
    refine ok.inj ht ▸ ⟨hb.exit p status, hw.accounts fun e he heD => ?_⟩
    rw [Accounts.exit] at he
    split at he
    · exact ⟨e, he, rfl, heD⟩
    split_ifs at he
    · exact ⟨e, he, rfl, heD⟩
    obtain ⟨e0, h0, rfl⟩ := mem_modify.mp he
    refine ⟨e0, h0, ?_⟩
    split_ifs at heD ⊢
    · exact ⟨rfl, heD⟩
    · exact ⟨rfl, heD⟩
  | die p =>
    rw [WaitSystem.step] at ht
    split at ht
    · exact ha ht
    next proc hpr =>
    split_ifs at ht with hc
    · obtain ⟨hm, -⟩ := mem_of_getProcess hpr
      refine ok.inj ht ▸ ⟨hb.die hm hc.2.1 hc.2.2.2, ?_⟩
      exact hw.die hb.tree.nodup hm (Option.isNone_iff_eq_none.mp hc.1)
    · exact ha ht
  | raise =>
    rw [WaitSystem.step] at ht
    split at ht
    · next proc hho =>
      split at ht
      · cases ht
      next parent hpa =>
      split_ifs at ht
      · obtain ⟨events, hl, hs'⟩ := bind_eq_ok.mp ht
        rw [(mem_of_getProcess hpa).2] at hl
        exact ok.inj hs' ▸ ⟨hb, hw.raise hho hl⟩
      · exact ha ht
    · exact ha ht
  | tree a =>
    rw [WaitSystem.step] at ht
    split_ifs at ht with hc
    · obtain ⟨processes, hp, hs'⟩ := bind_eq_ok.mp ht
      have hq := quiet_step hb.tree hc.1 hp
      refine ok.inj hs' ▸ ⟨hb.quiet (hb.tree.step hp) hq, hw.accounts fun e he heD => ?_⟩
      rcases hq.entries e he with ⟨e0, h0, -, hpa, -, -, hd⟩ | ⟨-, hal, -⟩
      · exact ⟨e0, h0, hpa.symm, hd.mp heD⟩
      · exact absurd heD hal
    · exact ha ht
  | interrupt t aborting pending inSignal =>
    refine ok.inj ht ▸ ⟨hb, hw.modify (fun x =>
      { x with aborting := aborting, pendingSignals := pending, inSignal := inSignal }) fun _ => id⟩
  | wake t =>
    cases ht
    split_ifs
    · exact ⟨hb, hw⟩
    exact ⟨hb, hw.modify (fun x => { x with status := .runnable })
      fun _ hbl => Status.noConfusion hbl⟩
  | other t thread =>
    cases ht
    split_ifs with ho
    · exact ⟨hb, hw.modify _ fun hr _ => by rw [ho] at hr; exact hr.elim⟩
    · exact ⟨hb, hw⟩

/-- No exit of a child is lost. -/
structure NoLostExit (s : WaitSystem ι) : Prop where
  nodup : (s.accounts.died.map Prod.fst).Nodup
  /-- Who died is in the list, or was returned by one `wait`. -/
  perm : s.accounts.died.Perm (s.accounts.processes.dead ++ s.accounts.reaped.map Prod.snd)
  /-- It died with the status of its `exit`. -/
  code : ∀ x ∈ s.accounts.died, x ∈ s.accounts.exits
  exits : (s.accounts.exits.map Prod.fst).Nodup
  /-- A `wait` that looks for a dead child finds one if there is one. -/
  found : ∀ t, ¬ s.NoDead (s.process t) →
    ∃ child, s.accounts.processes.tryGet (s.process t) = .ok child
  /-- A thread that is blocked after its `yield` has registered, and it has no dead child unless a
  `raise` is about to come. -/
  awake : ∀ t, s.position t = .yielded → (s.events.threads t).status = .blocked →
    t ∈ (s.events.events (s.process t)).tiddies ∧
      (s.NoDead (s.process t) ∨ s.Pending (s.process t))

omit [DecidableEq ι] in
theorem Sound.nodup_died (h : Sound s) : (s.accounts.died.map Prod.fst).Nodup := by
  refine ((h.balanced.perm.map Prod.fst).nodup_iff).mpr ?_
  rw [map_append, map_map]
  refine List.Nodup.append ?_ h.balanced.nodup ?_
  · rw [dead, map_map]
    exact h.balanced.tree.nodup.sublist (filter_sublist.map _)
  intro p hd hre
  obtain ⟨x, hx, rfl⟩ := mem_map.mp hd
  obtain ⟨e, he, rfl⟩ := mem_map.mp hx
  obtain ⟨r, hr, hp⟩ := mem_map.mp hre
  exact (h.balanced.gone r hr).2 e (mem_filter.mp he).1 hp.symm

omit [DecidableEq ι] in
theorem Sound.noLostExit (h : Sound s) : NoLostExit s where
  nodup := h.nodup_died
  perm := h.balanced.perm
  code := h.balanced.died
  exits := h.balanced.exitsNodup
  found t hd := by
    cases ht : s.accounts.processes.tryGet (s.process t) with
    | ok child => exact ⟨child, rfl⟩
    | error error =>
      refine absurd (fun e he ha hs => ?_) hd
      exact tryGet_ne_error he ha hs ht
  awake t hp := h.waiting.blocked t (by rw [hp]; trivial)

def start (kernelThreads : ℕ) (threads : ι → Thread ι) (process : ι → ℕ) : WaitSystem ι where
  accounts := { processes := ProcessList.boot kernelThreads }
  events := { threads := threads, events := fun _ => {} }
  process := process

omit [DecidableEq ι] in
theorem sound_start {n : ℕ} {threads : ι → Thread ι} {proc : ι → ℕ} :
    Sound (start n threads proc) where
  balanced := {
    tree := tree_boot n
    gone := fun r hr => nomatch hr
    nodup := nodup_nil
    perm := by simp [start, ProcessList.dead, boot]
    exiting := by simp [start, boot]
    dead := by simp [start, boot]
    exits := fun x hx => nomatch hx
    exitsNodup := nodup_nil
    died := fun x hx => nomatch hx }
  waiting := {
    lock := fun t ht => by rcases ht with ht | ht <;> cases ht
    holding := fun t ht => nomatch ht
    blocked := fun t ht => ht.elim
    defunct := fun _ => rfl }

/-- **No lost child exit.** In every run of `wait` and `exit_threaded`, every process that dies is in
the list or was returned, with its own exit code, by exactly one `wait`; and no thread is left blocked
after its `yield` while it has a dead child, unless the event is about to be raised. -/
theorem no_lost_exit {n : ℕ} {threads : ι → Thread ι} {process : ι → ℕ}
    (hreach : Reach step (fun _ _ => True) (start n threads process) s) : NoLostExit s := by
  have hso : Sound s := hreach.invariant (P := Sound) sound_start fun _ _ _ h _ hst => h.step hst
  exact hso.noLostExit

theorem no_lost_exit_twoThreads :
    ∃ s ∈ execute step (fun _ _ => True) (start 1 (fun _ : Bool => {}) fun _ => 2)
        [.tree (.create 1), .tree (.startThread 2), .tree (.ready 2), .tree (.create 2),
          .tree (.ready 3), .call true, .call false, .check true, .register true,
          .releaseList true, .check false, .register false, .releaseOwn true, .register false,
          .releaseList false, .exit 3 7, .die 3, .releaseOwn false, .raise, .resume false,
          .check false, .resume true, .check true],
      s.accounts.reaped = [(false, 3, 7)] ∧ s.position true = .outside ∧ NoLostExit s := by
  exact exists_execute_both (by decide) fun s hs => no_lost_exit hs

end WaitSystem

end AexKernel.Proc
