import AexKernel.Basic

/-! # Threads and their calls (`proc/thread.cpp`, `ipc/thread.cpp`)

The functions by which threads end, wait for one another and take signals, over the threads and
processes of the kernel. -/

namespace AexKernel.Proc

open Library

/-- `status_t`. -/
inductive Status
  | fresh | runnable | sleeping | blocked | dead
  deriving DecidableEq, Repr

/-- `error_t`, as far as the calls of threads return it. -/
inductive ErrorCode
  | none | einval | edeadlk | eintr
  deriving DecidableEq, Repr

/-- `sig_action_t`. -/
inductive SigAction
  | term | ign | core | stop | cont | dfl | user
  deriving DecidableEq, Repr

/-- The number of a signal and the value that it brings to the handler, of a `siginfo_t`. -/
structure SigInfo where
  signo : ℤ
  value : ℤ := 0
  deriving DecidableEq, Repr

/-- `Thread::state`. -/
structure ThreadState where
  busy : ℕ
  critical : ℕ
  status : Status
  deriving DecidableEq, Repr

/-- `Thread`. -/
structure Thread (ι : Type) where
  lock : Bool := false
  status : Status := .runnable
  wakeupAt : ℤ := 0
  schedCounter : ℤ := 0
  heldMutexes : ℤ := 0
  /-- `m_busy`: how many calls under way the thread must not be killed in. -/
  busy : ℕ := 0
  /-- `m_critical`. -/
  critical : ℕ := 0
  /-- `m_detached`. -/
  detached : Bool := false
  /-- `m_aborting`. -/
  aborting : Bool := false
  /-- `m_joiner`. -/
  joiner : Option ι := none
  /-- `m_pending_signals`. -/
  pendingSignals : List SigInfo := []
  inSignal : Bool := false
  deriving DecidableEq

namespace Thread

variable {ι : Type}

/-- `interrupted()`. -/
def interrupted (x : Thread ι) : Bool := x.aborting || (!x.pendingSignals.isEmpty && !x.inSignal)

/-- `addBusy()`. -/
def addBusy (x : Thread ι) : Thread ι := { x with busy := x.busy + 1 }

/-- `addCritical()`. -/
def addCritical (x : Thread ι) : Thread ι :=
  { x with busy := x.busy + 1, critical := x.critical + 1 }

/-- `subCritical()`, up to a `yield` that is due. -/
def subCritical (x : Thread ι) : Thread ι :=
  { x with busy := x.busy - 1, critical := x.critical - 1 }

/-- `saveState()`. -/
def saveState (x : Thread ι) : ThreadState := ⟨x.busy, x.critical, x.status⟩

/-- `loadState(state)`. -/
def loadState (x : Thread ι) (state : ThreadState) : Thread ι :=
  { x with busy := state.busy, critical := state.critical, status := state.status }

end Thread

/-- How far `exit_threaded` has come for a process. -/
inductive ExitStage
  | none | started | waiting | done
  deriving DecidableEq, Repr

/-- `Process`, as far as its threads use it. -/
structure Process (ι : Type) where
  threadCounter : ℤ
  threads : List ι
  /-- `threads_lock`. -/
  threadsLock : Bool := false
  status : Status := .runnable
  retCode : ℤ := 0
  /-- `m_exiting`. -/
  exiting : Bool := false
  exitStage : ExitStage := .none
  /-- The `action` of each entry of `m_signals`. -/
  sigaction : ℤ → SigAction := fun _ => .term

/-- What the broker is asked to do. -/
inductive Request (ι κ : Type)
  /-- `broker_cleanup(thread)`. -/
  | cleanup (t : ι)
  /-- `exit_threaded_broker(process)`. -/
  | exitThreaded (p : κ)
  /-- `signal_enter(data)`, with the thread that waits for it. -/
  | signalEnter (t : ι) (info : SigInfo) (waiter : Option ι)
  /-- `signal_exit(thread)`. -/
  | signalExit (t : ι)
  deriving DecidableEq

/-- Where a thread is. -/
inductive Position (ι : Type)
  | running
  /-- In the `yield` of `join`. -/
  | joining (t : ι) (state : ThreadState)
  /-- In the loop of `enterSignal`. -/
  | entering
  /-- In the loop of `exitSignal`. -/
  | returning
  /-- In the loop of `Process::exit`, until it is aborted. -/
  | leaving
  deriving DecidableEq

/-- The threads and the processes. -/
structure Kernel (ι κ : Type) where
  threads : ι → Thread ι
  /-- `Thread::parent`. -/
  parent : ι → κ
  processes : κ → Process ι
  requests : List (Request ι κ) := []
  position : ι → Position ι := fun _ => .running
  /-- Every thread for which `finish` was called, in order. -/
  finished : List ι := []

namespace Kernel

variable {ι κ : Type} [DecidableEq ι] [DecidableEq κ]

def modify (s : Kernel ι κ) (t : ι) (f : Thread ι → Thread ι) : Kernel ι κ :=
  { s with threads := Function.update s.threads t (f (s.threads t)) }

/-- The kernel with a changed current thread. -/
def onCurrent (s : Kernel ι κ) (cur : Option ι) (f : Thread ι → Thread ι) : Kernel ι κ :=
  match cur with
  | none => s
  | some c => s.modify c f

def modifyProcess (s : Kernel ι κ) (p : κ) (f : Process ι → Process ι) : Kernel ι κ :=
  { s with processes := Function.update s.processes p (f (s.processes p)) }

def moveTo (s : Kernel ι κ) (cur : Option ι) (position : Position ι) : Kernel ι κ :=
  match cur with
  | none => s
  | some c => { s with position := Function.update s.position c position }

/-- `broker(func, arg)`. -/
def broker (s : Kernel ι κ) (request : Request ι κ) : Kernel ι κ :=
  { s with requests := s.requests ++ [request] }

def process (s : Kernel ι κ) (t : ι) : Process ι := s.processes (s.parent t)

/-! ## Locks -/

/-- `lock.acquire()` of a thread. -/
def acquire (s : Kernel ι κ) (cur : Option ι) (t : ι) : Except Fault (Kernel ι κ) :=
  if (s.threads t).lock then .error .divergence
  else .ok ((s.onCurrent cur Thread.addCritical).modify t fun x => { x with lock := true })

/-- `lock.release()` of a thread. -/
def release (s : Kernel ι κ) (cur : Option ι) (t : ι) : Except Fault (Kernel ι κ) :=
  if (s.threads t).lock then
    .ok ((s.modify t fun x => { x with lock := false }).onCurrent cur Thread.subCritical)
  else .error (.kpanic "spinlock: Too many releases")

def run (s : Kernel ι κ) (t : ι) (call : Kernel ι κ → Except Fault (Kernel ι κ)) :
    Except Fault (Kernel ι κ) := do
  let s ← call (s.modify t fun x => { x with lock := true })
  return s.modify t fun x => { x with lock := false }

/-! ## Ending -/

/-- `setStatus(status)`. -/
def setStatus (s : Kernel ι κ) (t : ι) (status : Status) : Except Fault (Kernel ι κ) :=
  if status = .dead ∧ 1 < (s.threads t).busy then .error (.assertion "getBusy() <= 1")
  else .ok (s.modify t fun x => { x with status := status })

/-- The loop at the end of `Process::exit`. -/
def yieldUntilAborting (s : Kernel ι κ) (c : ι) : Except Fault (Kernel ι κ) :=
  if (s.threads c).aborting then .ok s
  else if (s.threads c).critical ≠ 0 then .error (.assertion "!thread->isCritical()")
  else .ok (s.moveTo (some c) .leaving)

/-- `Process::exit(status)`. -/
def exitProcess (s : Kernel ι κ) (cur : Option ι) (p : κ) (status : ℤ) :
    Except Fault (Kernel ι κ) :=
  if (s.processes p).exiting then .ok s
  else
    let s := (s.modifyProcess p fun x => { x with exiting := true, retCode := status }).broker
      (.exitThreaded p)
    match cur with
    | none => .ok s
    | some c => if s.parent c = p then s.yieldUntilAborting c else .ok s

/-- `parent->unassoc(thread)`. -/
def unassoc (s : Kernel ι κ) (t : ι) : Except Fault (Kernel ι κ) :=
  if (s.process t).threadsLock then .error .divergence
  else .ok (s.modifyProcess (s.parent t) fun x => { x with threads := x.threads.erase t })

/-- The assertion of `remove_thread(thread)`. -/
def removeThread (s : Kernel ι κ) (t : ι) : Except Fault (Kernel ι κ) :=
  if (s.threads t).heldMutexes = 0 then .ok s
  else .error (.assertion "thread->held_mutexes == 0")

def exitLast (s : Kernel ι κ) (cur : Option ι) (t : ι) : Except Fault (Kernel ι κ) :=
  if (s.process t).threadCounter = 1 then s.exitProcess cur (s.parent t) 0 else .ok s

/-- `finish()`. -/
def finish (s : Kernel ι κ) (cur : Option ι) (t : ι) : Except Fault (Kernel ι κ) := do
  let s := { s with finished := s.finished ++ [t] }.onCurrent cur Thread.addCritical
  if (s.threads t).status = .dead then
    let s ← s.unassoc t
    let s ← s.removeThread t
    let s ← s.exitLast cur t
    return (s.broker (.cleanup t)).onCurrent cur Thread.subCritical
  else .error (.assertion "this->status == TS_DEAD")

/-- A thread that has ended, or is about to, wakes its joiner. -/
def wakeJoiner (s : Kernel ι κ) (cur : Option ι) (j : ι) : Except Fault (Kernel ι κ) := do
  let s ← s.acquire cur j
  let s ← s.setStatus j .runnable
  s.release cur j

/-- What `exit` does with a dead thread. -/
def handOver (s : Kernel ι κ) (t : ι) : Except Fault (Kernel ι κ) :=
  match (s.threads t).joiner with
  | some j => s.wakeJoiner (some t) j
  | none =>
    if (s.threads t).detached || (s.process t).threadCounter = 1 then s.finish (some t) t
    else .ok s

/-- `Thread::exit()`. -/
def exit (s : Kernel ι κ) (t : ι) : Except Fault (Kernel ι κ) :=
  if ¬ (s.threads t).lock then .error (.assertion "!thread->lock.tryAcquire()")
  else if (s.threads t).pendingSignals ≠ [] then
    .error (.assertion "thread->m_pending_signals.count() == 0")
  else if (s.threads t).busy ≠ 0 then .ok (s.modify t fun x => { x with aborting := true })
  else do
    let s ← (s.modify t Thread.addCritical).setStatus t .dead
    let s ← s.handOver t
    return s.modify t Thread.subCritical

/-! ## Signals -/

/-- `enterSignal(info)`. -/
def enterSignal (s : Kernel ι κ) (cur : Option ι) (t : ι) (info : SigInfo) :
    Except Fault (Kernel ι κ) :=
  let s := (s.modify t fun x => { x with inSignal := true }).broker (.signalEnter t info cur)
  match cur with
  | none => .error .divergence
  | some c =>
    if (s.threads c).critical ≠ 0 then .error (.assertion "!thread->isCritical()")
    else .ok (s.moveTo cur .entering)

/-- The handler of a signal is entered, or the signal waits. -/
def enterOrPend (s : Kernel ι κ) (cur : Option ι) (t : ι) (info : SigInfo) :
    Except Fault (Kernel ι κ) :=
  if (s.threads t).busy = 0 ∧ ¬ (s.threads t).inSignal then s.enterSignal cur t info
  else .ok (s.modify t fun x => { x with pendingSignals := x.pendingSignals ++ [info] })

/-- `handleSignal(info)`. -/
def handleSignal (s : Kernel ι κ) (cur : Option ι) (t : ι) (info : SigInfo) :
    Except Fault (Kernel ι κ) :=
  match (s.process t).sigaction info.signo with
  | .core => s.exitProcess cur (s.parent t) (Int.lor info.signo 0x80)
  | .term => s.exitProcess cur (s.parent t) info.signo
  | .stop | .cont => .error (.kpanic "Not implemented")
  | .user =>
    if cur = some t then s.enterOrPend cur t info
    else do
      let s ← s.acquire cur t
      let s ← s.enterOrPend cur t info
      s.release cur t
  | .ign | .dfl => .ok s

/-- The signal that `subBusy` handles when the thread is no longer busy. -/
def handlePending (s : Kernel ι κ) (cur : Option ι) (t : ι) : Except Fault (Kernel ι κ) :=
  match (s.threads t).pendingSignals.getLast? with
  | none => .ok s
  | some info =>
    (s.modify t fun x => { x with pendingSignals := x.pendingSignals.dropLast }).handleSignal cur t
      info

/-- `subBusy()`. -/
def subBusy (s : Kernel ι κ) (cur : Option ι) (t : ι) : Except Fault (Kernel ι κ) :=
  let s := s.modify t fun x => { x with busy := x.busy - 1 }
  if (s.threads t).busy ≠ 0 then .ok s
  else if cur = some t ∧ (s.threads t).aborting then s.exit t
  else s.handlePending cur t

/-- `_signal(info)`. -/
def signalLocked (s : Kernel ι κ) (cur : Option ι) (t : ι) (info : SigInfo) :
    Except Fault (Kernel ι κ) :=
  if (s.threads t).busy ≠ 0 then
    .ok (s.modify t fun x => { x with pendingSignals := x.pendingSignals ++ [info] })
  else s.handleSignal cur t info

/-- `signal(info)`. -/
def signal (s : Kernel ι κ) (c t : ι) (info : SigInfo) :
    Except Fault (Kernel ι κ × ErrorCode) :=
  if ¬ (1 ≤ info.signo ∧ info.signo ≤ 31) then .ok (s, .einval)
  else if c = t then do
    let s ← (s.modify t Thread.addCritical).signalLocked (some c) t info
    return (s.modify t Thread.subCritical, .none)
  else do
    let s ← s.acquire (some c) t
    let s ← s.signalLocked (some c) t info
    let s ← s.release (some c) t
    return (s, .none)

/-- `sigret()`, up to the loop of `exitSignal`. -/
def sigret (s : Kernel ι κ) (t : ι) : Kernel ι κ × ErrorCode :=
  if (s.threads t).inSignal then ((s.broker (.signalExit t)).moveTo (some t) .returning, .none)
  else (s, .einval)

/-- `signal_enter(data)`, after which the thread goes on in its handler and `enterSignal` returns. -/
def signalEnter (s : Kernel ι κ) (t : ι) (waiter : Option ι) : Except Fault (Kernel ι κ) := do
  let s ← s.acquire none t
  let s := s.modify t fun x => { x with status := .runnable }
  let s ← s.release none t
  return s.moveTo waiter .running

/-- `signal_exit(thread)`, after which the thread goes on where the signal met it. -/
def signalExit (s : Kernel ι κ) (t : ι) : Except Fault (Kernel ι κ) := do
  let s ← s.acquire none t
  let s ← s.subBusy none t
  let s := s.modify t fun x => { x with inSignal := false }
  let s ← s.release none t
  return s.moveTo (some t) .running

/-! ## Joining, detaching and aborting -/

/-- The first half of `join()`. -/
def join (s : Kernel ι κ) (c t : ι) : Except Fault (Kernel ι κ × Option ErrorCode) := do
  let s ← s.acquire (some c) t
  if (s.threads t).detached ∨ (s.threads t).joiner ≠ none then
    return (← s.release (some c) t, some .einval)
  else if t = c ∨ (s.threads c).joiner = some t then
    return (← s.release (some c) t, some .edeadlk)
  else
    let s := s.modify c Thread.addBusy
    if (s.threads t).status = .dead then
      let s ← s.finish (some c) t
      let s ← s.subBusy (some c) c
      return (← s.release (some c) t, some .none)
    else
      let state := (s.threads c).saveState
      let s := s.modify t fun x => { x with joiner := some c }
      let s ← s.setStatus c .blocked
      let s ← s.release (some c) t
      return (s.moveTo (some c) (.joining t state), none)

/-- What an interrupted `join` does with the thread that it waited for. -/
def giveUp (s : Kernel ι κ) (c t : ι) : Except Fault (Kernel ι κ) :=
  let s := s.modify t fun x => { x with joiner := none }
  if (s.threads t).status = .dead then s.finish (some c) t
  else if (s.threads c).aborting then .ok (s.modify t fun x => { x with detached := true })
  else .ok s

/-- What a `join` does with the thread that has ended. -/
def finishJoined (s : Kernel ι κ) (c t : ι) : Except Fault (Kernel ι κ) :=
  if (s.threads t).detached then .error (.assertion "!this->m_detached")
  else if (s.threads c).status ≠ .runnable then
    .error (.assertion "Thread::current()->status == TS_RUNNABLE")
  else s.finish (some c) t

/-- The second half of `join()`, after its `yield`. -/
def joinReturn (s : Kernel ι κ) (c t : ι) (state : ThreadState) :
    Except Fault (Kernel ι κ × ErrorCode) := do
  let s ← s.acquire (some c) t
  let interrupted := (s.threads c).interrupted
  let s ← if interrupted then s.giveUp c t else s.finishJoined c t
  let s ← (s.modify c (Thread.loadState · state)).subBusy (some c) c
  let s ← s.release (some c) t
  return (s.moveTo (some c) .running, if interrupted then .eintr else .none)

/-- `detach()`. -/
def detach (s : Kernel ι κ) (c t : ι) : Except Fault (Kernel ι κ × ErrorCode) := do
  let s ← s.acquire (some c) t
  if (s.threads t).detached ∨ (s.threads t).joiner ≠ none then
    return (← s.release (some c) t, .einval)
  else
    let s ← if (s.threads t).status = .dead then s.finish (some c) t else pure s
    let s := s.modify t fun x => { x with detached := true }
    return (← s.release (some c) t, .none)

/-- What `_abort` does with a thread that is not busy. -/
def kill (s : Kernel ι κ) (c t : ι) : Except Fault (Kernel ι κ) :=
  match (s.threads t).joiner with
  | some j => s.wakeJoiner (some c) j
  | none =>
    if (s.threads t).detached then do
      let s ← (s.modify c Thread.addBusy).setStatus t .dead
      let s ← s.finish (some c) t
      s.subBusy (some c) c
    else .ok s

/-- `_abort(force)`. -/
def abortLocked (s : Kernel ι κ) (c t : ι) (force : Bool) : Except Fault (Kernel ι κ) :=
  let s := s.modify t fun x => { x with aborting := true, detached := x.detached || force }
  if (s.threads t).busy ≠ 0 then .ok s else s.kill c t

/-- `abort(force)`. -/
def abort (s : Kernel ι κ) (c t : ι) (force : Bool) : Except Fault (Kernel ι κ) := do
  let s ← s.acquire (some c) t
  let s ← s.abortLocked c t force
  s.release (some c) t

/-! ## The broker and the end of a process -/

/-- `broker_cleanup(thread)`: the destructor of the thread. -/
def cleanup (s : Kernel ι κ) (t : ι) : Except Fault (Kernel ι κ) := do
  if (s.process t).threadsLock then .error .divergence
  else
    let s ← s.acquire none t
    let s := s.modifyProcess (s.parent t) fun x => { x with threadCounter := x.threadCounter - 1 }
    s.release none t

/-- `exit_threaded_broker(process)`. -/
def exitThreadedBroker (s : Kernel ι κ) (p : κ) : Kernel ι κ :=
  s.modifyProcess p fun x => { x with exitStage := .started }

/-- A turn of `broker_loop`. -/
def brokerLoop (s : Kernel ι κ) : Except Fault (Kernel ι κ) :=
  match s.requests with
  | [] => .ok s
  | request :: rest =>
    let s := { s with requests := rest }
    match request with
    | .cleanup t => s.cleanup t
    | .exitThreaded p => .ok (s.exitThreadedBroker p)
    | .signalEnter t _ waiter => s.signalEnter t waiter
    | .signalExit t => s.signalExit t

/-- The first loop of `exit_threaded(process)`, which the thread `c` runs. -/
def abortThreads (s : Kernel ι κ) (c : ι) (p : κ) : Except Fault (Kernel ι κ) := do
  let s := s.modifyProcess p fun x => { x with threadsLock := true }
  let s ← (s.processes p).threads.foldlM (fun s t => s.abort c t true) s
  return s.modifyProcess p fun x => { x with threadsLock := false, exitStage := .waiting }

/-- The rest of `exit_threaded(process)`, once no thread is left. -/
def exitThreadedEnd (s : Kernel ι κ) (p : κ) : Kernel ι κ :=
  if (s.processes p).threadCounter = 0 then
    s.modifyProcess p fun x => { x with status := .dead, exitStage := .done }
  else s

end Kernel

end AexKernel.Proc
