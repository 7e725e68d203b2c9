import AexKernel.Ipc.Event

/-! # Events with one waiter (`SimpleEvent` of `ipc/event.cpp`)

A `SimpleEvent` has room for one waiter, and `wait` asserts that there is none yet. -/

namespace AexKernel.Ipc

open Library Proc EventThreads Function

/-- `SimpleEvent`. -/
structure SimpleEvent (ι : Type) where
  /-- `m_tiddie`. -/
  tiddie : Option ι := none
  /-- `m_defunct`. -/
  defunct : Bool := false
  deriving DecidableEq

namespace SimpleEvent

variable {ι : Type} [DecidableEq ι]

/-- `SimpleEvent::wait(timeout)`, for a critical thread. -/
def wait (e : SimpleEvent ι) (current : ι) (x : Thread ι) (timeout uptime : ℤ) :
    Except Fault (SimpleEvent ι × Thread ι) :=
  if e.defunct then .ok (e, x)
  else if e.tiddie.isSome then .error (.assertion "!m_tiddie")
  else .ok ({ e with tiddie := some current }, EventThreads.waitStatus timeout uptime x)

/-- What `raise` and `defunct` do to the threads. -/
def wake (e : SimpleEvent ι) (threads : ι → Thread ι) : ι → Thread ι :=
  match e.tiddie with
  | some t => Function.update threads t { threads t with status := .runnable }
  | none => threads

end SimpleEvent

/-- Where a thread is in the loop of `receiveFrom`. -/
inductive LoopPlace
  | outside
  /-- In front of `m_lock.acquire()`. -/
  | acquire
  /-- Behind `m_lock.release()`. -/
  | released
  /-- In `Thread::yield()`. -/
  | yielded
  deriving DecidableEq, Repr

/-- The threads that call `receiveFrom` on a socket. -/
structure Receivers (ι : Type) where
  threads : ι → Thread ι
  event : SimpleEvent ι := {}
  onCpu : ι → Bool := fun _ => false
  place : ι → LoopPlace := fun _ => .outside
  datagrams : ℕ := 0

/-- A step of a thread, of the scheduler, or of whoever raises the event. -/
inductive ReceiverCall (ι : Type)
  | receiveFrom (t : ι)
  /-- A pass of the loop, from `acquire` to `release`. -/
  | pass (t : ι) (timeout uptime : ℤ)
  | yield (t : ι)
  | preempt (t : ι)
  | schedule (t : ι) (uptime : ℤ)
  | packetReceived
  | raise
  | defunct
  | signals (t : ι) (pending : List SigInfo) (inSignal : Bool)
  | abort (t : ι) (force : Bool)
  | count (t : ι) (busy : ℕ) (joiner : Option ι)
  | other (t : ι) (status : Status) (wakeupAt : ℤ)

namespace Receivers

variable {ι : Type} [DecidableEq ι]

def modify (s : Receivers ι) (t : ι) (f : Thread ι → Thread ι) : Receivers ι :=
  { s with threads := Function.update s.threads t (f (s.threads t)) }

def setPlace (s : Receivers ι) (t : ι) (place : LoopPlace) : Receivers ι :=
  { s with place := Function.update s.place t place }

def setCpu (s : Receivers ι) (t : ι) (onCpu : Bool) : Receivers ι :=
  { s with onCpu := Function.update s.onCpu t onCpu }

/-- A pass of the loop. A thread that finds a datagram returns with it. -/
def pass (s : Receivers ι) (t : ι) (timeout uptime : ℤ) : Except Fault (Receivers ι) :=
  if s.datagrams = 0 then do
    let (event, x) ← s.event.wait t (s.threads t) timeout uptime
    return ({ s with event := event }.modify t fun _ => x).setPlace t .released
  else .ok ({ s with datagrams := s.datagrams - 1 }.setPlace t .outside)

/-- `SimpleEvent::raise()` and `SimpleEvent::defunct()`, which also marks the event. -/
def clear (s : Receivers ι) (defunct : Bool) : Receivers ι :=
  { s with
    threads := s.event.wake s.threads
    event := { tiddie := none, defunct := s.event.defunct || defunct } }

/-- A thread gets a CPU. One that has yielded returns from `yield`. -/
def select (s : Receivers ι) (t : ι) : Receivers ι :=
  (s.setPlace t (if s.place t = .yielded then .acquire else s.place t)).setCpu t true

/-- `schedule()` selects a thread, if it can run. -/
def schedule (s : Receivers ι) (t : ι) (uptime : ℤ) : Receivers ι :=
  match (s.threads t).status with
  | .runnable => s.select t
  | .blocked => if (s.threads t).interrupted then s.select t else s
  | .sleeping =>
    if uptime < (s.threads t).wakeupAt ∧ ¬ (s.threads t).interrupted then s
    else (s.modify t fun x => { x with status := .runnable }).select t
  | .fresh | .dead => s

/-- `_abort(force)`. -/
def aborted (force : Bool) (x : Thread ι) : Thread ι :=
  let x := { x with aborting := true, detached := x.detached || force }
  if x.busy = 0 ∧ x.joiner = none ∧ x.detached then { x with status := .dead } else x

/-- The state after a step. -/
def step (s : Receivers ι) : ReceiverCall ι → Except Fault (Receivers ι)
  | .receiveFrom t =>
    if s.onCpu t ∧ s.place t = .outside then .ok (s.setPlace t .acquire) else .ok s
  | .pass t timeout uptime =>
    if s.onCpu t ∧ s.place t = .acquire then s.pass t timeout uptime else .ok s
  | .yield t =>
    if s.onCpu t ∧ s.place t = .released then .ok ((s.setPlace t .yielded).setCpu t false) else .ok s
  | .preempt t => .ok (s.setCpu t false)
  | .schedule t uptime => if s.onCpu t then .ok s else .ok (s.schedule t uptime)
  | .packetReceived => .ok ({ s with datagrams := s.datagrams + 1 }.clear false)
  | .raise => .ok (s.clear false)
  | .defunct => .ok (s.clear true)
  | .signals t pending inSignal =>
    .ok (s.modify t fun x => { x with pendingSignals := pending, inSignal := inSignal })
  | .abort t force => if s.onCpu t then .ok s else .ok (s.modify t (aborted force))
  | .count t busy joiner => .ok (s.modify t fun x => { x with busy := busy, joiner := joiner })
  | .other t status wakeupAt =>
    if s.place t = .outside then
      .ok (s.modify t fun x => { x with status := status, wakeupAt := wakeupAt })
    else .ok s

/-- A thread waits: it has called `wait`, has not come back from the `yield` behind it, and lives.
-/
def Waiting (s : Receivers ι) (t : ι) : Prop :=
  (s.place t = .released ∨ s.place t = .yielded) ∧ (s.threads t).status ≠ .dead
deriving Decidable

def Alone (s : Receivers ι) : ReceiverCall ι → Prop
  | .pass t _ _ => s.datagrams = 0 → ∀ u, s.Waiting u → u = t
  | _ => True

/-- Waits end by `raise` and `defunct` alone. -/
def Raised (s : Receivers ι) : ReceiverCall ι → Prop
  | .schedule t uptime => s.Waiting t → (s.threads t).status = .runnable ∨
      (s.threads t).interrupted = false ∧
        ((s.threads t).status = .sleeping → uptime < (s.threads t).wakeupAt)
  | .abort t _ => s.Waiting t → (s.threads t).status = .runnable
  | _ => True

section Decidable

variable [Fintype ι] (s : Receivers ι)

instance : (a : ReceiverCall ι) → Decidable (s.Alone a)
  | .pass .. => inferInstanceAs (Decidable (_ → _))
  | .receiveFrom _ | .yield _ | .preempt _ | .schedule .. | .packetReceived | .raise | .defunct
  | .signals .. | .abort .. | .count .. | .other .. => .isTrue trivial

omit [Fintype ι] in
instance : (a : ReceiverCall ι) → Decidable (s.Raised a)
  | .schedule .. => inferInstanceAs (Decidable (_ → _))
  | .abort .. => inferInstanceAs (Decidable (_ → _))
  | .receiveFrom _ | .pass .. | .yield _ | .preempt _ | .packetReceived | .raise | .defunct
  | .signals .. | .count .. | .other .. => .isTrue trivial

end Decidable

/-- The waiter is a thread that waits, and the assertion holds in every pass of a thread that would
wait alone. -/
structure Safe (s : Receivers ι) : Prop where
  waiter : ∀ t, s.event.tiddie = some t → s.Waiting t
  pass : ∀ t timeout uptime, s.Alone (.pass t timeout uptime) →
    ∃ s', s.step (.pass t timeout uptime) = .ok s'

section Frame

variable (s : Receivers ι) {t u : ι}

theorem threads_modify_self (t : ι) (f : Thread ι → Thread ι) :
    (s.modify t f).threads t = f (s.threads t) := update_self ..

theorem threads_modify_of_ne (f : Thread ι → Thread ι) (hu : u ≠ t) :
    (s.modify t f).threads u = s.threads u := update_of_ne hu _ _

theorem place_setPlace_self (t : ι) (place : LoopPlace) : (s.setPlace t place).place t = place :=
  update_self ..

theorem place_setPlace_of_ne (place : LoopPlace) (hu : u ≠ t) :
    (s.setPlace t place).place u = s.place u := update_of_ne hu _ _

end Frame

/-! ## The invariant -/

/-- The waiter is behind its `wait` and has not been woken. -/
def Sound (s : Receivers ι) : Prop :=
  ∀ t, s.event.tiddie = some t → (s.place t = .released ∨ s.place t = .yielded) ∧
    ((s.threads t).status = .blocked ∨ (s.threads t).status = .sleeping)

variable {s s' : Receivers ι} {t : ι}

section

omit [DecidableEq ι]

section

variable (h : s.Sound)
include h

theorem Sound.waiting (ht : s.event.tiddie = some t) : s.Waiting t := by
  obtain ⟨hp, hs⟩ := h t ht
  refine ⟨hp, ?_⟩
  rcases hs with hs | hs <;> rw [hs] <;> nofun

theorem Sound.not_runnable (ht : s.event.tiddie = some t) : (s.threads t).status ≠ .runnable := by
  rcases (h t ht).2 with hs | hs <;> rw [hs] <;> nofun

theorem Sound.ne_of_place (hp : s.place t = .acquire ∨ s.place t = .outside) :
    s.event.tiddie ≠ some t := by
  intro ht
  rcases (h t ht).1 with hw | hw <;> rw [hw] at hp <;> rcases hp with hn | hn <;>
    cases hn

theorem Sound.of_others (he : s'.event = s.event) (ht : s.event.tiddie ≠ some t)
    (ho : ∀ u, u ≠ t → s'.place u = s.place u ∧ s'.threads u = s.threads u) : s'.Sound := by
  intro u hu
  rw [he] at hu
  have hut : u ≠ t := by
    rintro rfl
    exact ht hu
  rw [(ho u hut).1, (ho u hut).2]
  exact h u hu

end

end

theorem Sound.modify (h : s.Sound) (t : ι) {f : Thread ι → Thread ι}
    (hf : ∀ x, (f x).status = x.status) : (s.modify t f).Sound := by
  intro u hu
  have hs : ((s.modify t f).threads u).status = (s.threads u).status := by
    by_cases ht : u = t
    · rw [ht, threads_modify_self, hf]
    · rw [threads_modify_of_ne s f ht]
  rw [hs]
  exact h u hu

theorem Sound.modify_other (h : s.Sound) (ht : s.event.tiddie ≠ some t) (f : Thread ι → Thread ι) :
    (s.modify t f).Sound :=
  h.of_others rfl ht fun _ hu => ⟨rfl, threads_modify_of_ne s f hu⟩

theorem Sound.setPlace_other (h : s.Sound) (ht : s.event.tiddie ≠ some t) (place : LoopPlace) :
    (s.setPlace t place).Sound :=
  h.of_others rfl ht fun _ hu => ⟨place_setPlace_of_ne s place hu, rfl⟩

theorem sound_clear (s : Receivers ι) (defunct : Bool) : (s.clear defunct).Sound := nofun

theorem Sound.yield (h : s.Sound) (t : ι) : (s.setPlace t .yielded).Sound := by
  intro u hu
  obtain ⟨hp, hs⟩ := h u hu
  refine ⟨?_, hs⟩
  by_cases ht : u = t
  · rw [ht, place_setPlace_self]
    exact .inr rfl
  · rw [place_setPlace_of_ne s _ ht]
    exact hp

omit [DecidableEq ι] in
theorem Sound.tiddie_eq_none (h : s.Sound) (hp : s.place t = .acquire)
    (ha : ∀ u, s.Waiting u → u = t) : s.event.tiddie = none := by
  cases ht : s.event.tiddie with
  | none => rfl
  | some u =>
    have hu := ha u (h.waiting ht)
    exact absurd (hu ▸ ht) (h.ne_of_place (.inl hp))

omit [DecidableEq ι] in
theorem status_waitStatus (timeout uptime : ℤ) (x : Thread ι) :
    (waitStatus timeout uptime x).status = .blocked ∨
      (waitStatus timeout uptime x).status = .sleeping := by
  rw [waitStatus]
  split_ifs
  · exact .inl rfl
  · exact .inr rfl

section

variable (h : s.Sound)
include h

variable {timeout uptime : ℤ}

theorem Sound.pass (hp : s.place t = .acquire) (ha : s.datagrams = 0 → ∀ u, s.Waiting u → u = t) :
    ∃ s', s.pass t timeout uptime = .ok s' ∧ s'.Sound := by
  have hn := h.ne_of_place (.inl hp)
  rw [Receivers.pass]
  split_ifs with he
  · have ho := h.tiddie_eq_none hp (ha he)
    rw [SimpleEvent.wait]
    split_ifs with hd ht
    · exact ⟨_, rfl, (h.modify_other hn _).setPlace_other hn _⟩
    · rw [ho] at ht
      cases ht
    refine ⟨_, rfl, fun u hu => ?_⟩
    obtain rfl : t = u := Option.some.inj hu
    refine ⟨.inl (place_setPlace_self _ t .released), ?_⟩
    exact (congrArg (fun x => x.status = .blocked ∨ x.status = .sleeping)
      (threads_modify_self s t _)).mpr (status_waitStatus timeout uptime (s.threads t))
  · exact ⟨_, rfl, h.setPlace_other (s := { s with datagrams := s.datagrams - 1 }) hn _⟩

theorem Sound.select_other (ht : s.event.tiddie ≠ some t) : (s.select t).Sound :=
  h.setPlace_other ht _

theorem Sound.schedule_other (ht : s.event.tiddie ≠ some t) (uptime : ℤ) :
    (s.schedule t uptime).Sound := by
  rw [Receivers.schedule]
  split
  · exact h.select_other ht
  · split_ifs
    · exact h.select_other ht
    · exact h
  · split_ifs
    · exact h
    · exact (h.modify_other ht _).select_other ht
  · exact h
  · exact h

theorem schedule_waiter (ht : s.event.tiddie = some t) (hr : s.Raised (.schedule t uptime)) :
    s.schedule t uptime = s := by
  obtain ⟨hc, hl⟩ := (hr (h.waiting ht)).resolve_left (h.not_runnable ht)
  rw [Receivers.schedule]
  rcases (h t ht).2 with hs | hs
  · rw [hs, hc]
    rfl
  · rw [hs, hc]
    exact if_pos ⟨hl hs, nofun⟩

theorem Sound.step {a : ReceiverCall ι} (ha : s.Alone a) (hr : s.Raised a) :
    ∃ s', s.step a = .ok s' ∧ s'.Sound := by
  cases a with
  | receiveFrom t =>
    rw [Receivers.step]
    split_ifs with hp
    · exact ⟨_, rfl, h.setPlace_other (h.ne_of_place (.inr hp.2)) _⟩
    · exact ⟨_, rfl, h⟩
  | pass t timeout uptime =>
    rw [Receivers.step]
    split_ifs with hp
    · exact h.pass hp.2 ha
    · exact ⟨_, rfl, h⟩
  | yield t =>
    rw [Receivers.step]
    split_ifs
    · exact ⟨_, rfl, h.yield t⟩
    · exact ⟨_, rfl, h⟩
  | preempt t => exact ⟨_, rfl, h⟩
  | schedule t uptime =>
    rw [Receivers.step]
    split_ifs
    · exact ⟨_, rfl, h⟩
    refine ⟨_, rfl, ?_⟩
    by_cases ht : s.event.tiddie = some t
    · rw [schedule_waiter h ht hr]
      exact h
    · exact h.schedule_other ht uptime
  | packetReceived => exact ⟨_, rfl, sound_clear _ _⟩
  | raise => exact ⟨_, rfl, sound_clear _ _⟩
  | defunct => exact ⟨_, rfl, sound_clear _ _⟩
  | signals t pending inSignal => exact ⟨_, rfl, h.modify t fun _ => rfl⟩
  | abort t force =>
    rw [Receivers.step]
    split_ifs
    · exact ⟨_, rfl, h⟩
    refine ⟨_, rfl, h.modify_other (fun ht => ?_) _⟩
    exact h.not_runnable ht (hr (h.waiting ht))
  | count t busy joiner => exact ⟨_, rfl, h.modify t fun _ => rfl⟩
  | other t status wakeupAt =>
    rw [Receivers.step]
    split_ifs with hp
    · exact ⟨_, rfl, h.modify_other (h.ne_of_place (.inr hp)) _⟩
    · exact ⟨_, rfl, h⟩

theorem Sound.safe : s.Safe := by
  refine ⟨fun t => h.waiting, fun t timeout uptime ha => ?_⟩
  obtain ⟨s', hs, -⟩ := h.step ha (a := .pass t timeout uptime) trivial
  exact ⟨s', hs⟩

end

/-- **Waits that end by `raise` and `defunct` are safe.** In every run in which one thread waits at
a time and no wait is ended by an interruption, a deadline or an abort, the assertion of `wait`
never fails and the waiter of the event waits. -/
theorem safe_of_raised {s₀ : Receivers ι} (hnew : s₀.event.tiddie = none)
    (hrun : Reach Receivers.step (fun s a => s.Alone a ∧ s.Raised a) s₀ s) : s.Safe := by
  have hst : s₀.Sound := fun t ht => nomatch hnew.symm.trans ht
  refine (hrun.invariant (P := Sound) hst fun s a s' h hall hste => ?_).safe
  obtain ⟨next, hne, hso⟩ := h.step hall.1 hall.2
  obtain rfl := Except.ok.inj (hne.symm.trans hste)
  exact hso

def running : Receivers (Fin 2) where
  threads _ := { busy := 1 }
  onCpu _ := true

theorem safe_of_raised_again :
    ∃ s ∈ execute Receivers.step (fun s a => s.Alone a ∧ s.Raised a) running
        [.receiveFrom 0, .pass 0 0 0, .yield 0, .schedule 0 1, .raise, .schedule 0 2, .pass 0 0 2],
      s.event.tiddie = some 0 ∧ s.place 0 = .released ∧ s.Safe := by
  exact exists_execute_both (by decide) fun s hs => safe_of_raised rfl hs

theorem not_safe_signal :
    ∃ s ∈ execute Receivers.step (fun s a => s.Alone a) running
        [.receiveFrom 0, .pass 0 0 0, .yield 0, .signals 0 [⟨15, 0⟩] false, .schedule 0 1],
      s.Alone (.pass 0 0 1) ∧ s.event.tiddie = some 0 ∧ ¬ s.Waiting 0 ∧
        failure (s.step (.pass 0 0 1)) = some (.assertion "!m_tiddie") := by
  decide

end Receivers

end AexKernel.Ipc
