import AexKernel.Library.Ensures
import AexKernel.Library.Run
import AexKernel.Proc.Thread

/-! # Events (`ipc/event.cpp`)

A thread that waits for an event is in the event's list until `raise` or `defunct` clears it. -/

namespace AexKernel.Ipc

open Library Proc List Function

/-- `Event`. -/
structure Event (ι : Type) where
  /-- `m_tiddies`. -/
  tiddies : List ι := []
  /-- `m_defunct`. -/
  defunct : Bool := false

/-- Threads and the events that they wait for. -/
structure EventThreads (ι ε : Type) where
  threads : ι → Thread ι
  events : ε → Event ι
  onCpu : ι → Bool := fun _ => false
  /-- The event whose `wait` a thread has called and not yet come back from. -/
  waiting : ι → Option ε := fun _ => none

/-- A step of a thread, of the scheduler, or of whoever raises an event. -/
inductive EventCall (ι ε : Type)
  | wait (t : ι) (e : ε) (timeout uptime : ℤ)
  | raise (e : ε)
  | defunct (e : ε)
  | yield (t : ι)
  | schedule (t : ι) (uptime : ℤ)
  | usleep (t : ι) (wakeupAt : ℤ)
  /-- A thread blocks in `join`. -/
  | block (t : ι)
  /-- A thread that is blocked in `join` is woken. -/
  | unblock (t : ι)
  | interrupt (t : ι) (aborting : Bool) (pending : List SigInfo) (inSignal : Bool)
  | count (t : ι) (busy critical : ℕ)
  | exit (t : ι)
  | abort (t : ι)

namespace EventThreads

variable {ι ε : Type} [DecidableEq ι] [DecidableEq ε]

def modify (s : EventThreads ι ε) (t : ι) (f : Thread ι → Thread ι) : EventThreads ι ε :=
  { s with threads := Function.update s.threads t (f (s.threads t)) }

def setEvent (s : EventThreads ι ε) (e : ε) (event : Event ι) : EventThreads ι ε :=
  { s with events := Function.update s.events e event }

def setCpu (s : EventThreads ι ε) (t : ι) (onCpu : Bool) : EventThreads ι ε :=
  { s with onCpu := Function.update s.onCpu t onCpu }

def setWaiting (s : EventThreads ι ε) (t : ι) (waiting : Option ε) : EventThreads ι ε :=
  { s with waiting := Function.update s.waiting t waiting }

def waitStatus (timeout uptime : ℤ) (x : Thread ι) : Thread ι :=
  if timeout = 0 then { x with status := .blocked }
  else { x with status := .sleeping, wakeupAt := uptime + timeout * 1000000 }

/-- `Event::wait(timeout)`. A critical thread does not yield. -/
def wait (s : EventThreads ι ε) (t : ι) (e : ε) (timeout uptime : ℤ) : EventThreads ι ε :=
  if (s.events e).defunct then s
  else
    let tiddies :=
      if t ∈ (s.events e).tiddies then (s.events e).tiddies else (s.events e).tiddies ++ [t]
    let s := (s.setEvent e { s.events e with tiddies := tiddies }).modify t
      (waitStatus timeout uptime)
    (s.setWaiting t (some e)).setCpu t ((s.threads t).critical ≠ 0)

/-- The loop of `raise` and `defunct`. -/
def wake (threads : ι → Thread ι) : List ι → Except Fault (ι → Thread ι)
  | [] => .ok threads
  | t :: rest =>
    if (threads t).status = .dead then .error (.assertion "m_tiddies.at(i)->status != TS_DEAD")
    else wake (Function.update threads t { threads t with status := .runnable }) rest

/-- `Event::raise()` and `Event::defunct()`, which also marks the event. -/
def clear (s : EventThreads ι ε) (e : ε) (defunct : Bool) : Except Fault (EventThreads ι ε) := do
  let threads ← wake s.threads (s.events e).tiddies
  return { s with threads := threads }.setEvent e ⟨[], (s.events e).defunct || defunct⟩

/-- `schedule()` selects a thread, if it can run. -/
def schedule (s : EventThreads ι ε) (t : ι) (uptime : ℤ) : EventThreads ι ε :=
  match (s.threads t).status with
  | .runnable => (s.setWaiting t none).setCpu t true
  | .blocked =>
    if (s.threads t).interrupted then (s.setWaiting t none).setCpu t true else s
  | .sleeping =>
    if uptime < (s.threads t).wakeupAt ∧ ¬ (s.threads t).interrupted then s
    else ((s.modify t fun x => { x with status := .runnable }).setWaiting t none).setCpu t true
  | .fresh | .dead => s

/-- The state after a step. A thread acts while it is on a CPU. -/
def step (s : EventThreads ι ε) : EventCall ι ε → Except Fault (EventThreads ι ε)
  | .wait t e timeout uptime => if s.onCpu t then .ok (s.wait t e timeout uptime) else .ok s
  | .raise e => s.clear e false
  | .defunct e => s.clear e true
  | .yield t => .ok (s.setCpu t false)
  | .schedule t uptime => if s.onCpu t then .ok s else .ok (s.schedule t uptime)
  | .usleep t wakeupAt =>
    if s.onCpu t then
      .ok ((s.modify t fun x => { x with status := .sleeping, wakeupAt := wakeupAt }).setCpu t false)
    else .ok s
  | .block t =>
    if s.onCpu t then .ok ((s.modify t fun x => { x with status := .blocked }).setCpu t false)
    else .ok s
  | .unblock t =>
    if s.waiting t = none ∧ (s.threads t).status = .blocked then
      .ok (s.modify t fun x => { x with status := .runnable })
    else .ok s
  | .interrupt t aborting pending inSignal => .ok (s.modify t fun x =>
      { x with aborting := aborting, pendingSignals := pending, inSignal := inSignal })
  | .count t busy critical => .ok (s.modify t fun x => { x with busy := busy, critical := critical })
  | .exit t =>
    if s.onCpu t then .ok ((s.modify t fun x => { x with status := .dead }).setCpu t false)
    else .ok s
  | .abort t =>
    if ¬ s.onCpu t ∧ (s.threads t).busy = 0 then
      .ok (s.modify t fun x => { x with status := .dead })
    else .ok s

/-- A thread is in no wait that has not been ended by `raise` or `defunct`. -/
def Free (s : EventThreads ι ε) (t : ι) : Prop :=
  s.waiting t = none ∨ (s.threads t).status = .runnable
deriving Decidable

/-- Waits end by `raise` and `defunct` alone. -/
def Raised (s : EventThreads ι ε) : EventCall ι ε → Prop
  | .schedule t uptime => Free s t ∨ (s.threads t).interrupted = false ∧
      ((s.threads t).status = .sleeping → uptime < (s.threads t).wakeupAt)
  | .wait t _ _ _ | .usleep t _ | .block t | .exit t | .abort t => Free s t
  | _ => True

instance (s : EventThreads ι ε) (a : EventCall ι ε) : Decidable (Raised s a) :=
  match a with
  | .schedule t uptime => inferInstanceAs (Decidable (Free s t ∨
      (s.threads t).interrupted = false ∧
        ((s.threads t).status = .sleeping → uptime < (s.threads t).wakeupAt)))
  | .wait t _ _ _ | .usleep t _ | .block t | .exit t | .abort t =>
    inferInstanceAs (Decidable (Free s t))
  | .raise _ | .defunct _ | .yield _ | .unblock _ | .interrupt .. | .count .. => .isTrue trivial

/-- The threads in the list of an event are alive and wait for it. -/
def Consistent (s : EventThreads ι ε) : Prop :=
  ∀ e, ∀ t ∈ (s.events e).tiddies, (s.threads t).status ≠ .dead ∧ s.waiting t = some e

/-- `raise` or `defunct` returns, and changes the status only of threads that wait for the event. -/
def WakesOwn (s : EventThreads ι ε) (e : ε) (defunct : Bool) : Prop :=
  ∃ s', s.clear e defunct = .ok s' ∧
    ∀ t, (s'.threads t).status ≠ (s.threads t).status → s.waiting t = some e

/-! ## What the operations change -/

section Frame

variable {s : EventThreads ι ε} {t u : ι} {e e' : ε} {timeout uptime : ℤ}

omit [DecidableEq ε] in
theorem status_modify (f : Thread ι → Thread ι) (hu : u ≠ t) :
    ((s.modify t f).threads u).status = (s.threads u).status := by
  change (update s.threads t (f (s.threads t)) u).status = _
  rw [update_of_ne hu]

theorem status_wait (hu : u ≠ t) :
    ((s.wait t e timeout uptime).threads u).status = (s.threads u).status := by
  rw [wait]
  split_ifs
  · rfl
  · exact status_modify _ hu
  · exact status_modify _ hu

theorem defunct_wait : ((s.wait t e timeout uptime).events e').defunct = (s.events e').defunct := by
  rw [wait]
  by_cases hd : (s.events e).defunct
  · rw [if_pos hd]
  rw [if_neg hd]
  change (update s.events e _ e').defunct = _
  by_cases he : e' = e
  · subst he
    rw [update_self]
  · rw [update_of_ne he]

theorem mem_wait (hd : (s.events e).defunct = false) :
    u ∈ ((s.wait t e timeout uptime).events e').tiddies ↔
      u ∈ (s.events e').tiddies ∨ u = t ∧ e' = e := by
  rw [wait, if_neg (by rw [hd]; exact Bool.false_ne_true)]
  change u ∈ (update s.events e _ e').tiddies ↔ _
  by_cases he : e' = e
  · subst he
    rw [update_self]
    split_ifs with hm
    · refine ⟨.inl, fun h => h.elim id ?_⟩
      rintro ⟨rfl, -⟩
      exact hm
    · rw [mem_append, mem_singleton]
      simp
  · rw [update_of_ne he]
    exact ⟨.inl, fun h => h.resolve_right fun hn => he hn.2⟩

omit [DecidableEq ε] in
theorem status_schedule (hu : u ≠ t) :
    ((s.schedule t uptime).threads u).status = (s.threads u).status := by
  rw [schedule]
  cases (s.threads t).status with
  | runnable => rfl
  | blocked =>
    split_ifs <;> rfl
  | sleeping =>
    dsimp only
    split_ifs
    · rfl
    · exact status_modify (s := s) (fun x => { x with status := .runnable }) hu
  | fresh | dead => rfl

omit [DecidableEq ε] in
theorem events_schedule : (s.schedule t uptime).events = s.events := by
  rw [schedule]
  cases (s.threads t).status with
  | runnable => rfl
  | blocked =>
    split_ifs <;> rfl
  | sleeping =>
    split_ifs <;> rfl
  | fresh | dead => rfl

end Frame

/-! ## The invariant -/

/-- The threads in the list of an event wait for it, blocked or asleep. -/
def Queued (s : EventThreads ι ε) : Prop :=
  ∀ e, ∀ t ∈ (s.events e).tiddies, s.waiting t = some e ∧
    ((s.threads t).status = .blocked ∨ (s.threads t).status = .sleeping)

variable {s s' : EventThreads ι ε} {t u : ι} {e : ε}

section

omit [DecidableEq ι] [DecidableEq ε]

theorem Queued.consistent (h : Queued s) : Consistent s := by
  intro e t ht
  obtain ⟨hw, hs⟩ := h e t ht
  refine ⟨?_, hw⟩
  rcases hs with hs | hs <;> rw [hs] <;> decide

theorem Queued.not_mem (h : Queued s) (hf : Free s t) (e : ε) : t ∉ (s.events e).tiddies := by
  intro ht
  obtain ⟨hw, hs⟩ := h e t ht
  rcases hf with hn | hr
  · rw [hn] at hw
    cases hw
  · rw [hr] at hs
    rcases hs with hs | hs <;> cases hs

theorem Queued.of_others (h : Queued s) (he : s'.events = s.events)
    (ho : ∀ u, u ≠ t → s'.waiting u = s.waiting u ∧ (s'.threads u).status = (s.threads u).status)
    (hm : ∀ e, t ∉ (s.events e).tiddies) : Queued s' := by
  intro e u hu
  rw [he] at hu
  have ht : u ≠ t := by
    rintro rfl
    exact hm e hu
  rw [(ho u ht).1, (ho u ht).2]
  exact h e u hu

end

section

omit [DecidableEq ε]

theorem Queued.setCpu {onCpu : Bool} (h : Queued s) : Queued (s.setCpu t onCpu) :=
  h

theorem Queued.modify (h : Queued s) (f : Thread ι → Thread ι)
    (hf : ∀ x, (f x).status = x.status) : Queued (s.modify t f) := by
  intro e u hu
  have hs : ((s.modify t f).threads u).status = (s.threads u).status := by
    by_cases ht : u = t
    · subst ht
      change (update s.threads u (f (s.threads u)) u).status = _
      rw [update_self, hf]
    · exact status_modify f ht
  rw [hs]
  exact h e u hu

theorem Queued.modify_free (h : Queued s) (hf : Free s t) (f : Thread ι → Thread ι) :
    Queued (s.modify t f) :=
  h.of_others rfl (fun _ hu => ⟨rfl, status_modify f hu⟩) (h.not_mem hf)

end

variable {timeout uptime : ℤ}

theorem Queued.wait (h : Queued s) (hf : Free s t) : Queued (s.wait t e timeout uptime) := by
  rw [EventThreads.wait]
  by_cases hd : (s.events e).defunct
  · rw [if_pos hd]
    exact h
  have hn := h.not_mem hf
  rw [if_neg hd, if_neg (hn e)]
  intro e' u hu
  change u ∈ (update s.events e _ e').tiddies at hu
  change update s.waiting t (some e) u = some e' ∧
    ((update s.threads t _ u).status = _ ∨ (update s.threads t _ u).status = _)
  by_cases ht : u = t
  · subst ht
    have he : e' = e := by
      by_contra hne
      rw [update_of_ne hne] at hu
      exact hn e' hu
    subst he
    rw [update_self, update_self, waitStatus]
    refine ⟨rfl, ?_⟩
    split_ifs
    · exact .inl rfl
    · exact .inr rfl
  rw [update_of_ne ht, update_of_ne ht]
  refine h e' u ?_
  by_cases he : e' = e
  · subst he
    rw [update_self] at hu
    exact (mem_append.mp hu).resolve_right fun hl => ht (mem_singleton.mp hl)
  · rwa [update_of_ne he] at hu

variable {threads threads' : ι → Thread ι} {l : List ι}

theorem wake_eq_ok (h : wake threads l = .ok threads') :
    (∀ u ∈ l, (threads' u).status = .runnable) ∧ ∀ u, u ∉ l → threads' u = threads u := by
  induction l generalizing threads with
  | nil =>
    cases h
    exact ⟨fun u hu => absurd hu not_mem_nil, fun _ _ => rfl⟩
  | cons t rest ih =>
    rw [wake] at h
    split_ifs at h with hd
    obtain ⟨hw, ho⟩ := ih h
    refine ⟨fun u hu => ?_, fun u hu => ?_⟩
    · by_cases hr : u ∈ rest
      · exact hw u hr
      obtain rfl := (mem_cons.mp hu).resolve_right hr
      rw [ho u hr, update_self]
    rw [ho u fun hm => hu (mem_cons_of_mem t hm)]
    refine update_of_ne ?_ ..
    rintro rfl
    exact hu mem_cons_self

theorem clear_eq_ok {defunct : Bool} (h : s.clear e defunct = .ok s') :
    (s'.events e).tiddies = [] ∧ (∀ e', e' ≠ e → s'.events e' = s.events e') ∧
      (s'.events e).defunct = ((s.events e).defunct || defunct) ∧
      (∀ u ∈ (s.events e).tiddies, (s'.threads u).status = .runnable) ∧
      ∀ u, u ∉ (s.events e).tiddies → s'.threads u = s.threads u := by
  obtain ⟨threads, hw, hs'⟩ := bind_eq_ok.mp h
  cases hs'
  obtain ⟨ho, ht⟩ := wake_eq_ok hw
  refine ⟨?_, fun e' he => update_of_ne he .., ?_, ho, ht⟩
  · exact congrArg Event.tiddies (update_self e _ s.events)
  · exact congrArg Event.defunct (update_self e _ s.events)

theorem wake_returns (ha : ∀ t ∈ l, (threads t).status ≠ .dead) :
    ∃ threads', wake threads l = .ok threads' := by
  induction l generalizing threads with
  | nil => exact ⟨threads, rfl⟩
  | cons t rest ih =>
    have hr : ∀ u ∈ rest, (update threads t
        { threads t with status := .runnable } u).status ≠ .dead := by
      intro u hu
      by_cases ht : u = t
      · subst ht
        rw [update_self]
        exact Status.noConfusion
      · rw [update_of_ne ht]
        exact ha u (mem_cons_of_mem t hu)
    obtain ⟨threads', hw⟩ := ih hr
    exact ⟨threads', by rw [wake, if_neg (ha t mem_cons_self), hw]⟩

theorem Queued.clear (h : Queued s) (e : ε) (defunct : Bool) :
    ∃ s', s.clear e defunct = .ok s' ∧ Queued s' ∧
      ∀ t, (s'.threads t).status ≠ (s.threads t).status → s.waiting t = some e := by
  obtain ⟨threads', hw⟩ := wake_returns fun t ht => (h.consistent e t ht).1
  obtain ⟨s', hc⟩ : ∃ s', s.clear e defunct = .ok s' :=
    ⟨_, by rw [EventThreads.clear, hw, ok_bind, pure_eq_ok]⟩
  obtain ⟨hem, hv, -, -, ho⟩ := clear_eq_ok hc
  have ha : s'.waiting = s.waiting := by
    obtain ⟨threads, -, hs'⟩ := bind_eq_ok.mp hc
    cases hs'
    rfl
  refine ⟨s', hc, fun e' u hu => ?_, fun t hne => ?_⟩
  · by_cases he : e' = e
    · subst he
      rw [hem] at hu
      cases hu
    rw [hv e' he] at hu
    have hm : u ∉ (s.events e).tiddies := fun hu' =>
      he (Option.some.inj ((h e' u hu).1.symm.trans (h e u hu').1))
    rw [ho u hm, ha]
    exact h e' u hu
  · by_contra hn
    exact hne (congrArg Thread.status (ho t fun ht => hn (h e t ht).1))

omit [DecidableEq ε] in
theorem Queued.schedule_free (h : Queued s) (hf : Free s t) (uptime : ℤ) :
    Queued (s.schedule t uptime) := by
  have hs (f : Thread ι → Thread ι) :
      Queued (((s.modify t f).setWaiting t none).setCpu t true) :=
    h.of_others rfl (fun u hu => ⟨update_of_ne hu .., status_modify f hu⟩)
      (h.not_mem hf)
  have hk : Queued ((s.setWaiting t none).setCpu t true) :=
    h.of_others rfl (fun u hu => ⟨update_of_ne hu .., rfl⟩) (h.not_mem hf)
  rw [EventThreads.schedule]
  cases (s.threads t).status with
  | runnable => exact hk
  | blocked =>
    dsimp only
    split_ifs
    · exact hk
    · exact h
  | sleeping =>
    dsimp only
    split_ifs
    · exact h
    · exact hs _
  | fresh | dead => exact h

omit [DecidableEq ε] in
theorem Queued.schedule (h : Queued s) (ha : Raised s (.schedule t uptime)) :
    Queued (s.schedule t uptime) := by
  obtain hf | ⟨hint, hd⟩ := ha
  · exact h.schedule_free hf uptime
  by_cases hr : (s.threads t).status = .runnable
  · exact h.schedule_free (.inr hr) uptime
  -- the thread stays where it is
  have hk : s.schedule t uptime = s := by
    rw [EventThreads.schedule]
    cases hs : (s.threads t).status with
    | runnable => exact absurd hs hr
    | blocked => simp only [hint, Bool.false_eq_true, if_false]
    | sleeping =>
      simp only [hint, Bool.false_eq_true, not_false_eq_true, and_true, if_pos (hd hs)]
    | fresh | dead => rfl
  rw [hk]
  exact h

/-- **One step** in which no wait ends but by `raise` and `defunct`. -/
theorem Queued.step (h : Queued s) {a : EventCall ι ε} (hr : Raised s a)
    (ht : EventThreads.step s a = .ok s') : Queued s' := by
  have hit {c : Prop} [Decidable c] {s1 : EventThreads ι ε}
      (hs : (if c then .ok s1 else .ok s : Except Fault (EventThreads ι ε)) = .ok s')
      (hc : c → Queued s1) : Queued s' := by
    split_ifs at hs with ho
    · exact Except.ok.inj hs ▸ hc ho
    · exact Except.ok.inj hs ▸ h
  cases a with
  | wait t e timeout uptime => exact hit ht fun _ => h.wait hr
  | raise e =>
    obtain ⟨s1, hl, hq, -⟩ := h.clear e false
    exact Except.ok.inj (hl.symm.trans ht) ▸ hq
  | defunct e =>
    obtain ⟨s1, hl, hq, -⟩ := h.clear e true
    exact Except.ok.inj (hl.symm.trans ht) ▸ hq
  | yield t => exact Except.ok.inj ht ▸ h
  | schedule t uptime =>
    rw [EventThreads.step] at ht
    split_ifs at ht
    · exact Except.ok.inj ht ▸ h
    · exact Except.ok.inj ht ▸ h.schedule hr
  | usleep t wakeupAt => exact hit ht fun _ => (h.modify_free hr _).setCpu
  | block t => exact hit ht fun _ => (h.modify_free hr _).setCpu
  | unblock t => exact hit ht fun ho => h.modify_free (.inl ho.1) _
  | interrupt t aborting pending inSignal =>
    exact Except.ok.inj ht ▸ h.modify (fun x =>
      { x with aborting := aborting, pendingSignals := pending, inSignal := inSignal }) fun _ => rfl
  | count t busy critical =>
    exact Except.ok.inj ht ▸ h.modify (fun x =>
      { x with busy := busy, critical := critical }) fun _ => rfl
  | exit t => exact hit ht fun _ => (h.modify_free hr _).setCpu
  | abort t => exact hit ht fun _ => h.modify_free hr _

/-! ## Results -/

/-- **Consistent lists.** As long as waits end by `raise` and `defunct` alone, the threads in the list
of an event are alive and wait for it, so `raise` and `defunct` return, and wake nobody else. -/
theorem consistent_of_raised {s₀ : EventThreads ι ε} (hstart : ∀ e, (s₀.events e).tiddies = [])
    (hreach : Reach step Raised s₀ s) :
    Consistent s ∧ ∀ e defunct, WakesOwn s e defunct := by
  have hqu : Queued s := hreach.invariant (P := Queued)
    (fun e t ht => by rw [hstart] at ht; cases ht) fun _ _ _ h hra hst => h.step hra hst
  refine ⟨hqu.consistent, fun e defunct => ?_⟩
  obtain ⟨s', hcl, -, hown⟩ := hqu.clear e defunct
  exact ⟨s', hcl, hown⟩

def idle : EventThreads Bool Bool where
  threads _ := { status := .runnable }
  events _ := {}

theorem consistent_of_raised_twoThreads :
    ∃ s ∈ execute step Raised idle [.schedule false 0, .schedule true 0, .wait false false 1 0,
        .wait true true 0 0, .schedule false 5, .raise false, .schedule false 9,
        .wait false true 0 9],
      (s.events true).tiddies = [true, false] ∧
        Consistent s ∧ ∀ e defunct, WakesOwn s e defunct := by
  exact exists_execute_and (by decide) fun s hs => consistent_of_raised (fun _ => rfl) hs

theorem not_consistent_deadline :
    (∃ s ∈ execute step (fun _ _ => True) idle
        [.schedule false 0, .wait false false 1 0, .schedule false 1000000, .wait false true 0 1000000],
      (s.events false).tiddies = [false] ∧ s.waiting false = some true ∧
      (s.threads false).status = .blocked ∧
        ∃ s' ∈ (s.clear false false).toOption, (s'.threads false).status = .runnable) ∧
    ∃ s ∈ execute step (fun _ _ => True) idle
        [.schedule false 0, .wait false false 1 0, .schedule false 1000000, .exit false],
      (s.events false).tiddies = [false] ∧ (s.threads false).status = .dead ∧
        failure (s.clear false false) =
          some (.assertion "m_tiddies.at(i)->status != TS_DEAD") := by
  decide

end EventThreads

end AexKernel.Ipc
