import AexKernel.Library.LinkedRing
import AexKernel.Library.Run
import AexKernel.Proc.Thread

/-! # The scheduler (`proc/scheduler.cpp`, `proc/proc.cpp`)

`schedule` gives back the thread that a processor runs and takes the next one of the ring which is
ready and whose lock is free, or the idle thread of the processor. -/

namespace AexKernel.Proc

open Library List Function Option

namespace Thread

variable {ι : Type}

/-- The `switch` of `schedule`. -/
def rouse (x : Thread ι) (uptime : ℤ) : Option (Thread ι) :=
  match x.status with
  | .runnable => some x
  | .blocked => if x.interrupted then some x else none
  | .sleeping =>
    if uptime < x.wakeupAt ∧ ¬ x.interrupted then none else some { x with status := .runnable }
  | .fresh | .dead => none

/-- A thread that need not wait. -/
def Ready (x : Thread ι) (uptime : ℤ) : Prop :=
  x.status = .runnable ∨ x.status = .sleeping ∧ x.wakeupAt ≤ uptime ∨
    (x.status = .sleeping ∨ x.status = .blocked) ∧ x.interrupted

/-- What the loop of `schedule` may have done to a thread that it does not take. -/
def Roused (uptime : ℤ) (x y : Thread ι) : Prop :=
  y = x ∨ x.Ready uptime ∧ y = { x with status := .runnable }

variable {uptime : ℤ} {x y z : Thread ι}

theorem Roused.lock (h : x.Roused uptime y) : y.lock = x.lock := by
  obtain rfl | ⟨-, rfl⟩ := h <;> rfl

theorem Roused.ready (h : x.Roused uptime y) (hy : y.Ready uptime) : x.Ready uptime := by
  obtain rfl | ⟨hx, -⟩ := h
  · exact hy
  · exact hx

theorem Roused.trans (h : x.Roused uptime y) (h' : y.Roused uptime z) : x.Roused uptime z := by
  obtain rfl | ⟨hx, rfl⟩ := h
  · exact h'
  · obtain rfl | ⟨-, rfl⟩ := h' <;> exact .inr ⟨hx, rfl⟩

theorem rouse_eq_some (h : x.rouse uptime = some y) : x.Ready uptime ∧ x.Roused uptime y := by
  rw [rouse] at h
  cases hs : x.status with
  | runnable =>
    rw [hs] at h
    exact ⟨.inl hs, .inl (some.inj h).symm⟩
  | blocked =>
    rw [hs] at h
    dsimp only at h
    split_ifs at h with hint
    exact ⟨.inr (.inr ⟨.inr hs, hint⟩), .inl (some.inj h).symm⟩
  | sleeping =>
    rw [hs] at h
    dsimp only at h
    split_ifs at h with hw
    have hr : x.Ready uptime := by
      by_cases hint : x.interrupted = true
      · exact .inr (.inr ⟨.inl hs, hint⟩)
      · exact .inr (.inl ⟨hs, not_lt.mp fun hl => hw ⟨hl, hint⟩⟩)
    exact ⟨hr, .inr ⟨hr, (some.inj h).symm⟩⟩
  | fresh => rw [hs] at h; cases h
  | dead => rw [hs] at h; cases h

end Thread

/-- `affinity::masked(id)`. -/
def masked (mask : BitVec 32) (id : ℕ) : Bool := mask.getLsbD (id % 32)

/-- What a pass adds to `sched_counter`. -/
def credit (nice : ℤ) : ℤ :=
  if nice < 0 then 1000000 + 50000 * -nice else 1000000 - 25000 * nice

/-- The threads, the ring and the processors. -/
structure Scheduler (ι κ : Type) (n : ℕ) where
  threads : ι → Thread ι
  /-- `Thread::parent`. -/
  parent : ι → κ
  /-- `Process::nice`. -/
  nice : κ → ℤ
  /-- The mask of `Process::cpu_affinity`. -/
  affinity : κ → BitVec 32
  /-- `next` and `prev` of every thread, `thread_list_head` and `thread_list_tail`. -/
  links : LinkedRing ι
  /-- `thread_list_size`. -/
  size : ℕ
  /-- `current_thread` of each processor. -/
  current : Fin n → ι
  /-- `idle_threads`. -/
  idle : Fin n → ι
  shouldYield : Fin n → Bool := fun _ => false

namespace Scheduler

variable {ι κ : Type} {n : ℕ}

def ring (s : Scheduler ι κ n) : List ι := s.links.follow s.size s.links.head

variable [DecidableEq ι]

def setThread (s : Scheduler ι κ n) (t : ι) (x : Thread ι) : Scheduler ι κ n :=
  { s with threads := Function.update s.threads t x }

theorem setThread_self (s : Scheduler ι κ n) (t : ι) (x : Thread ι) :
    (s.setThread t x).threads t = x := update_self ..

theorem setThread_of_ne {s : Scheduler ι κ n} {t u : ι} {x : Thread ι} (h : u ≠ t) :
    (s.setThread t x).threads u = s.threads u := update_of_ne h ..

theorem setThread_threads (s : Scheduler ι κ n) (t : ι) : s.setThread t (s.threads t) = s := by
  rw [setThread, update_eq_self]

def tooManyReleases : Fault := .kpanic "spinlock: Too many releases"

/-- `lock.releaseRaw()` of a thread. -/
def releaseRaw (s : Scheduler ι κ n) (t : ι) : Except Fault (Scheduler ι κ n) :=
  if (s.threads t).lock then .ok (s.setThread t { s.threads t with lock := false })
  else .error tooManyReleases

def creditAssertion : Fault := .assertion "thread->sched_counter < 25000000"

/-- Whether the loop of `schedule` passes over a thread that is ready. -/
def passesOver (s : Scheduler ι κ n) (c : Fin n) (t : ι) (x : Thread ι) : Bool :=
  masked (s.affinity (s.parent t)) c || x.schedCounter + credit (s.nice (s.parent t)) < 1000000 ||
    x.lock

/-- The loop of `schedule`, so many rounds from a thread on. -/
def scan (c : Fin n) (uptime : ℤ) :
    ℕ → Scheduler ι κ n → ι → Except Fault (Scheduler ι κ n × ι × Bool)
  | 0, s, t => .ok (s, t, false)
  | k + 1, s, t =>
    match s.links.next t with
    | none => .error .outOfBounds
    | some u =>
      match (s.threads u).rouse uptime with
      | none => scan c uptime k s u
      | some x =>
        let counter := x.schedCounter + credit (s.nice (s.parent u))
        if s.passesOver c u x then scan c uptime k (s.setThread u x) u
        else if counter - 1000000 < 25000000 then
          .ok (s.setThread u { x with lock := true, schedCounter := counter - 1000000 }, u, true)
        else .error creditAssertion

/-- The processor takes its idle thread, which goes on in the ring from where the loop has ended. -/
def runIdle (s : Scheduler ι κ n) (c : Fin n) (t : ι) : Scheduler ι κ n :=
  let idle := s.idle c
  let t := if t = idle then s.links.head else t
  { s.setThread idle { s.threads idle with lock := true } with
    current := Function.update s.current c idle
    links := { s.links with next := Function.update s.links.next idle (some t) } }

/-- What `schedule` does under `sched_lock`. -/
def pass (s : Scheduler ι κ n) (c : Fin n) (uptime : ℤ) : Except Fault (Scheduler ι κ n) := do
  let t := s.current c
  let next := s.links.next t
  let s ← s.releaseRaw t
  let (s, t, taken) ← scan c uptime (s.size + 1) s (if next = none then s.links.head else t)
  return if taken then { s with current := Function.update s.current c t } else s.runIdle c t

/-- `schedule()` on a processor. `contended` says that another one holds `sched_lock`. -/
def schedule (s : Scheduler ι κ n) (c : Fin n) (uptime : ℤ) (contended : Bool) :
    Except Fault (Scheduler ι κ n) :=
  let t := s.current c
  let x := s.threads t
  if x.critical ≠ 0 then .ok { s with shouldYield := Function.update s.shouldYield c true }
  else if 1000000 ≤ x.schedCounter then
    let s := s.setThread t { x with schedCounter := x.schedCounter - 1000000 }
    if x.status = .runnable then .ok s else s.pass c uptime
  else if contended ∧ x.status = .runnable then .ok s
  else s.pass c uptime

/-- `add_thread(thread)`. -/
def addThread (s : Scheduler ι κ n) (t : ι) : Except Fault (Scheduler ι κ n) :=
  if 0 < s.size then .ok { s with size := s.size + 1, links := s.links.pushTail t }
  else .error (.assertion "thread_list_size > 0")

/-- The loop of `remove_thread`. -/
def redirect (idle : Fin n → ι) (t : ι) (next : ι → Option ι) (cs : List (Fin n)) :
    ι → Option ι :=
  cs.foldl (fun next c =>
    if next (idle c) = some t then Function.update next (idle c) (next t) else next) next

/-- `remove_thread(thread)`. -/
def removeThread (s : Scheduler ι κ n) (t : ι) : Except Fault (Scheduler ι κ n) :=
  if (s.threads t).heldMutexes ≠ 0 then .error (.assertion "thread->held_mutexes == 0")
  else if s.size = 0 then .error (.assertion "thread_list_size > 0")
  else
    match { s.links with next := redirect s.idle t s.links.next (List.finRange n) }.unlink t with
    | none => .error .outOfBounds
    | some links =>
      .ok { s with
        size := s.size - 1, links := { links with next := Function.update links.next t none } }

/-- `setup_cores(bsp_thread)`. -/
def setupCores (s : Scheduler ι κ n) (void : Fin n → ι) (bsp : ι) : Scheduler ι κ n :=
  { s with
    threads := fun t =>
      if t = bsp then { s.threads t with lock := true }
      else if ∃ c, c.val ≠ 0 ∧ void c = t then { s.threads t with lock := true, status := .dead }
      else s.threads t
    links := { s.links with
      next := fun t => if ∃ c, c.val ≠ 0 ∧ void c = t then some s.links.head else s.links.next t }
    current := fun c => if c.val = 0 then bsp else void c }

/-! ## Runs -/

/-- What happens to the threads. -/
inductive Action (ι κ : Type) (n : ℕ)
  | schedule (c : Fin n) (uptime : ℤ) (contended : Bool)
  | addThread (t : ι)
  | removeThread (t : ι)
  | work (t : ι) (x : Thread ι)
  | acquire (t : ι)
  | release (t : ι)
  | setNice (p : κ) (nice : ℤ)
  | setAffinity (p : κ) (mask : BitVec 32)

def step [DecidableEq κ] (s : Scheduler ι κ n) :
    Action ι κ n → Except Fault (Scheduler ι κ n)
  | .schedule c uptime contended => s.schedule c uptime contended
  | .addThread t => s.addThread t
  | .removeThread t => s.removeThread t
  | .work t x => .ok (s.setThread t { x with lock := (s.threads t).lock })
  | .acquire t => .ok (s.setThread t { s.threads t with lock := true })
  | .release t => s.releaseRaw t
  | .setNice p nice => .ok { s with nice := Function.update s.nice p nice }
  | .setAffinity p mask => .ok { s with affinity := Function.update s.affinity p mask }

/-- What the other code keeps to. -/
def Allowed (s : Scheduler ι κ n) : Action ι κ n → Prop
  | .addThread t => s.links.next t = none ∧ ∀ c, s.idle c ≠ t
  | .removeThread t => t ∈ s.ring ∧ 1 < s.size ∧
      ∀ c, s.current c ∉ s.ring → s.current c ≠ s.idle c → s.links.next (s.current c) ≠ some t
  | .acquire t => (s.threads t).lock = false ∧ ∀ c, s.idle c ≠ t
  | .release t => (∀ c, s.current c ≠ t) ∧ ∀ c, s.idle c ≠ t
  | _ => True

instance (s : Scheduler ι κ n) : DecidablePred s.Allowed
  | .schedule .. | .work .. | .setNice .. | .setAffinity .. => .isTrue trivial
  | .addThread t => inferInstanceAs (Decidable (s.links.next t = none ∧ ∀ c, s.idle c ≠ t))
  | .removeThread t => inferInstanceAs (Decidable (t ∈ s.ring ∧ 1 < s.size ∧
      ∀ c, s.current c ∉ s.ring → s.current c ≠ s.idle c → s.links.next (s.current c) ≠ some t))
  | .acquire t =>
    inferInstanceAs (Decidable ((s.threads t).lock = false ∧ ∀ c, s.idle c ≠ t))
  | .release t => inferInstanceAs (Decidable ((∀ c, s.current c ≠ t) ∧ ∀ c, s.idle c ≠ t))

/-! ## The loop -/

variable {s s' : Scheduler ι κ n} {c : Fin n} {t u : ι} {uptime : ℤ}

/-- Where the loop ends: at a thread of the ring, which it takes if it was ready and its lock free.
-/
inductive Scanned (s : Scheduler ι κ n) (uptime : ℤ) : Scheduler ι κ n × ι × Bool → Prop
  | taken {threads : ι → Thread ι} {u : ι} {x : Thread ι}
      (roused : ∀ v, (s.threads v).Roused uptime (threads v)) (mem : u ∈ s.ring)
      (free : (s.threads u).lock = false) (ready : (s.threads u).Ready uptime)
      (held : x.lock = true) :
      Scanned s uptime ({ s with threads := Function.update threads u x }, u, true)
  | missed {threads : ι → Thread ι} {u : ι}
      (roused : ∀ v, (s.threads v).Roused uptime (threads v)) (mem : u ∈ s.ring) :
      Scanned s uptime ({ s with threads := threads }, u, false)

variable {r : Scheduler ι κ n × ι × Bool}

theorem Scanned.of_setThread {x : Thread ι} (hx : (s.threads u).Roused uptime x)
    (h : Scanned (s.setThread u x) uptime r) : Scanned s uptime r := by
  have hr : ∀ v, (s.threads v).Roused uptime ((s.setThread u x).threads v) := by
    intro v
    by_cases hv : v = u
    · subst hv
      rw [setThread_self]
      exact hx
    · rw [setThread_of_ne hv]
      exact .inl rfl
  cases h with
  | taken roused mem free ready held =>
    exact .taken (fun v => (hr v).trans (roused v)) mem ((hr _).lock ▸ free)
      ((hr _).ready ready) held
  | missed roused mem => exact .missed (fun v => (hr v).trans (roused v)) mem

theorem scan_succ {k : ℕ} (hn : s.links.next t = some u) :
    scan c uptime (k + 1) s t = .error creditAssertion ∨
    (∃ x, (s.threads u).lock = false ∧ (s.threads u).Ready uptime ∧ x.lock = true ∧
      scan c uptime (k + 1) s t = .ok (s.setThread u x, u, true)) ∨
    ∃ x, (s.threads u).Roused uptime x ∧
      scan c uptime (k + 1) s t = scan c uptime k (s.setThread u x) u := by
  rw [scan, hn]
  dsimp only
  cases ho : (s.threads u).rouse uptime with
  | none =>
    refine .inr (.inr ⟨s.threads u, .inl rfl, ?_⟩)
    rw [setThread_threads]
  | some x =>
    obtain ⟨he, hr⟩ := Thread.rouse_eq_some ho
    dsimp only
    by_cases hp : s.passesOver c u x = true
    · exact .inr (.inr ⟨x, hr, if_pos hp⟩)
    rw [if_neg hp]
    have hf : x.lock = false := by
      rw [passesOver] at hp
      simp_all
    split_ifs
    · exact .inr (.inl ⟨_, hr.lock ▸ hf, he, rfl, rfl⟩)
    · exact .inl rfl

theorem scan_spec {k : ℕ} (hi : s.links.Holds s.ring) (hn : s.links.next t = some u)
    (hu : u ∈ s.ring) :
    scan c uptime (k + 1) s t = .error creditAssertion ∨
      ∃ r, scan c uptime (k + 1) s t = .ok r ∧ Scanned s uptime r := by
  induction k generalizing s t u
  all_goals
    obtain he | ⟨x, hf, hre, hh, ho⟩ | ⟨x, hro, ho⟩ := scan_succ (c := c) hn
    · exact .inl he
    · exact .inr ⟨_, ho, .taken (fun v => .inl rfl) hu hf hre hh⟩
  case zero => exact .inr ⟨_, ho, .of_setThread hro (.missed (fun v => .inl rfl) hu)⟩
  case succ k ih =>
    obtain ⟨v, hv, ha⟩ := hi.exists_next hu
    rw [ho]
    obtain he | ⟨r, hr, hs⟩ := ih (s := s.setThread u x) hi ha.1 hv
    · exact .inl he
    · exact .inr ⟨r, hr, .of_setThread hro hs⟩

/-! ## One pass -/

/-- **What holds between the steps.** Every processor holds the lock of the thread that it runs, no
two run the same one, and the idle threads are each for one processor and outside of the ring. -/
structure Scheduled (s : Scheduler ι κ n) : Prop where
  ring : s.links.Holds s.ring
  size : s.ring.length = s.size
  idle_notMem : ∀ c, s.idle c ∉ s.ring
  idle_injective : Function.Injective s.idle
  idle_current : ∀ c d, s.current c = s.idle d → c = d
  injective : Function.Injective s.current
  held : ∀ c, (s.threads (s.current c)).lock = true
  next_mem : ∀ c t, s.links.next (s.current c) = some t → t ∈ s.ring

omit [DecidableEq ι] in
theorem Scheduled.of_ring {l : List ι} (hr : s.links.Holds l) (hs : l.length = s.size)
    (idle_notMem : ∀ c, s.idle c ∉ l) (idle_injective : Injective s.idle)
    (idle_current : ∀ c d, s.current c = s.idle d → c = d)
    (injective : Injective s.current)
    (held : ∀ c, (s.threads (s.current c)).lock = true)
    (next_mem : ∀ c t, s.links.next (s.current c) = some t → t ∈ l) : s.Scheduled := by
  obtain rfl : s.ring = l := by rw [Scheduler.ring, ← hs]; exact hr.follow
  exact ⟨hr, hs, idle_notMem, idle_injective, idle_current, injective, held, next_mem⟩

omit [DecidableEq ι] in
theorem Scheduled.congr (h : s.Scheduled) (hl : s'.links = s.links) (hs : s'.size = s.size)
    (hc : s'.current = s.current) (hi : s'.idle = s.idle)
    (hh : ∀ c, (s'.threads (s.current c)).lock = true) : s'.Scheduled := by
  have hr : s'.ring = s.ring := by rw [Scheduler.ring, Scheduler.ring, hl, hs]
  constructor
  · rw [hr, hl]; exact h.ring
  · rw [hr, hs]; exact h.size
  · rw [hr, hi]; exact h.idle_notMem
  · rw [hi]; exact h.idle_injective
  · rw [hc, hi]; exact h.idle_current
  · rw [hc]; exact h.injective
  · rw [hc]; exact hh
  · rw [hr, hc, hl]; exact h.next_mem

/-- The outcome of a pass: the processor runs a thread of the ring that was ready, and that no other
processor ran, or its idle thread. -/
inductive PassStep (s : Scheduler ι κ n) (c : Fin n) (uptime : ℤ) : Scheduler ι κ n → Prop
  | take {threads : ι → Thread ι} {u : ι} (mem : u ∈ s.ring) (ready : (s.threads u).Ready uptime)
      (free : u ≠ s.current c → (s.threads u).lock = false) (held : (threads u).lock = true)
      (locks : ∀ v, v ≠ s.current c → v ≠ u → (threads v).lock = (s.threads v).lock) :
      PassStep s c uptime
        { s with threads := threads, current := Function.update s.current c u }
  | idle {threads : ι → Thread ι} {u : ι} (mem : u ∈ s.ring)
      (held : (threads (s.idle c)).lock = true)
      (locks : ∀ v, v ≠ s.current c → v ≠ s.idle c → (threads v).lock = (s.threads v).lock) :
      PassStep s c uptime
        { s with
          threads := threads, current := Function.update s.current c (s.idle c),
          links := { s.links with next := Function.update s.links.next (s.idle c) (some u) } }

/-- The scheduler with the lock of the thread that a processor runs given back. -/
def released (s : Scheduler ι κ n) (c : Fin n) : Scheduler ι κ n :=
  s.setThread (s.current c) { s.threads (s.current c) with lock := false }

theorem released_of_ne (h : t ≠ s.current c) : (s.released c).threads t = s.threads t :=
  setThread_of_ne h

theorem ready_released : ((s.released c).threads t).Ready uptime ↔ (s.threads t).Ready uptime := by
  by_cases ht : t = s.current c
  · rw [released, ht, setThread_self]; rfl
  · rw [released_of_ne ht]

theorem Scanned.passStep (hi : s.idle c ∉ s.ring) (h : Scanned (s.released c) uptime r) :
    PassStep s c uptime (if r.2.2 then { r.1 with current := update r.1.current c r.2.1 }
      else r.1.runIdle c r.2.1) := by
  cases h with
  | @taken threads u x roused mem free ready held =>
    have hh : (update threads u x u).lock = true := by
      rw [update_self]
      exact held
    refine .take mem (ready_released.mp ready) (fun hu => released_of_ne hu ▸ free) hh ?_
    intro v hv hvu
    change (update threads u x v).lock = _
    rw [update_of_ne hvu, (roused v).lock, released_of_ne hv]
  | @missed threads u roused mem =>
    have hu : u ≠ s.idle c := fun he => hi (he ▸ mem)
    have hr : ({ s.released c with threads := threads } : Scheduler ι κ n).runIdle c u
        = { s with
            threads := update threads (s.idle c) { threads (s.idle c) with lock := true }
            current := update s.current c (s.idle c)
            links := { s.links with
              next := update s.links.next (s.idle c) (some u) } } := by
      change ({ s with
        threads := update threads (s.idle c) { threads (s.idle c) with lock := true }
        current := update s.current c (s.idle c)
        links := { s.links with
          next := update s.links.next (s.idle c)
            (some (if u = s.idle c then s.links.head else u)) } } : Scheduler ι κ n) = _
      rw [if_neg hu]
    rw [hr]
    refine .idle mem ?_ ?_
    · rw [update_self]
    intro v hv hvi
    rw [update_of_ne hvi, (roused v).lock, released_of_ne hv]

theorem pass_spec (h : s.Scheduled) (c : Fin n) (now : ℤ) :
    s.pass c now = .error creditAssertion ∨
      ∃ s', s.pass c now = .ok s' ∧ PassStep s c now s' := by
  have he : s.releaseRaw (s.current c) = .ok (s.released c) := if_pos (h.held c)
  -- the loop begins before a thread of the ring
  obtain ⟨u, hu, hn⟩ : ∃ u ∈ s.ring, s.links.next
      (if s.links.next (s.current c) = none then s.links.head else s.current c) = some u := by
    cases hc : s.links.next (s.current c) with
    | none =>
      obtain ⟨u, hu, ha⟩ := h.ring.exists_next h.ring.head_mem
      exact ⟨u, hu, by rw [if_pos rfl]; exact ha.1⟩
    | some u => exact ⟨u, h.next_mem c u hc, by rw [if_neg (nofun)]; exact hc⟩
  have hp : s.pass c now = (scan c now ((s.released c).size + 1) (s.released c)
      (if s.links.next (s.current c) = none then s.links.head else s.current c) >>= fun r =>
        pure (if r.2.2 then { r.1 with current := update r.1.current c r.2.1 }
          else r.1.runIdle c r.2.1)) := by
    rw [pass, he]
    rfl
  rw [hp]
  rcases scan_spec (k := s.size) (s := s.released c) h.ring hn hu with her | ⟨r, hr, hs⟩
  · left
    exact bind_eq_error.mpr (.inl her)
  · right
    exact ⟨_, bind_eq_ok.mpr ⟨r, hr, rfl⟩, hs.passStep (h.idle_notMem c)⟩

omit [DecidableEq ι] in
theorem Scheduled.switch (h : s.Scheduled) {threads : ι → Thread ι} {links : LinkedRing ι}
    (hr : links.Holds s.ring)
    (hn : ∀ d, d ≠ c → links.next (s.current d) = s.links.next (s.current d))
    (hm : ∀ v, links.next u = some v → v ∈ s.ring) (ho : ∀ d, d ≠ c → s.current d ≠ u)
    (hi : ∀ d, u = s.idle d → c = d) (hh : (threads u).lock = true)
    (hl : ∀ v, v ≠ s.current c → v ≠ u → (threads v).lock = (s.threads v).lock) :
    Scheduled { s with
      threads := threads, links := links, current := update s.current c u } := by
  have hc : ∀ d, update s.current c u d = if d = c then u else s.current d :=
    fun d => update_apply ..
  refine .of_ring hr h.size h.idle_notMem h.idle_injective ?_ ?_ ?_ ?_
  · intro d e hde
    dsimp only at hde
    rw [hc] at hde
    by_cases hd : d = c
    · rw [if_pos hd] at hde
      exact hd.trans (hi e hde)
    · rw [if_neg hd] at hde
      exact h.idle_current d e hde
  · intro d e hde
    dsimp only at hde
    rw [hc, hc] at hde
    by_cases hd : d = c <;> by_cases he : e = c
    · exact hd.trans he.symm
    · rw [if_pos hd, if_neg he] at hde
      exact absurd hde.symm (ho e he)
    · rw [if_neg hd, if_pos he] at hde
      exact absurd hde (ho d hd)
    · rw [if_neg hd, if_neg he] at hde
      exact h.injective hde
  · intro d
    dsimp only
    rw [hc]
    by_cases hd : d = c
    · rw [if_pos hd]
      exact hh
    · rw [if_neg hd, hl _ (fun hq => hd (h.injective hq)) (ho d hd)]
      exact h.held d
  · intro d v hv
    dsimp only at hv
    rw [hc] at hv
    by_cases hd : d = c
    · rw [if_pos hd] at hv
      exact hm v hv
    · rw [if_neg hd, hn d hd] at hv
      exact h.next_mem d v hv

theorem Scheduled.passStep (h : s.Scheduled) (hs : PassStep s c uptime s') : s'.Scheduled := by
  cases hs with
  | @take threads u mem ready free held locks =>
    -- the lock of `u` was free, so that no other processor ran it
    have ho : ∀ d, d ≠ c → s.current d ≠ u := by
      intro d hd he
      have hn : u ≠ s.current c := fun hc => hd (h.injective (he.trans hc))
      have hh := h.held d
      rw [he, free hn] at hh
      exact Bool.noConfusion hh
    have hi : ∀ d, u = s.idle d → c = d := fun d he => absurd (he ▸ mem) (h.idle_notMem d)
    exact h.switch h.ring (fun _ _ => rfl) (fun v hv => h.ring.next_mem mem hv) ho hi held locks
  | @idle threads u mem held locks =>
    have ho : ∀ d, d ≠ c → s.current d ≠ s.idle c := fun d hd he =>
      hd (h.idle_current d c he)
    have hr : LinkedRing.Holds
        { s.links with next := update s.links.next (s.idle c) (some u) } s.ring :=
      h.ring.congr (fun v hv => update_of_ne
        (fun he : v = s.idle c => h.idle_notMem c (he ▸ hv)) ..) (fun _ _ => rfl) rfl rfl
    refine h.switch hr (fun d hd => update_of_ne (ho d hd) ..) (fun v hv => ?_)
      ho (fun d he => h.idle_injective he) held locks
    dsimp only at hv
    rw [update_self] at hv
    exact some.inj hv ▸ mem

/-- The scheduler after `schedule` has taken credit from the thread that a processor runs. -/
def spend (s : Scheduler ι κ n) (c : Fin n) : Scheduler ι κ n :=
  s.setThread (s.current c)
    { s.threads (s.current c) with
      schedCounter := (s.threads (s.current c)).schedCounter - 1000000 }

theorem spend_lock (t : ι) : ((s.spend c).threads t).lock = (s.threads t).lock := by
  by_cases ht : t = s.current c
  · rw [spend, ht, setThread_self]
  · rw [spend, setThread_of_ne ht]

theorem spend_ready (t : ι) :
    ((s.spend c).threads t).Ready uptime ↔ (s.threads t).Ready uptime := by
  by_cases ht : t = s.current c
  · rw [spend, ht, setThread_self]; rfl
  · rw [spend, setThread_of_ne ht]

theorem Scheduled.spend (h : s.Scheduled) (c : Fin n) : (s.spend c).Scheduled :=
  h.congr rfl rfl rfl rfl fun d => (spend_lock _).trans (h.held d)

theorem PassStep.of_spend (h : PassStep (s.spend c) c uptime s') : PassStep s c uptime s' := by
  cases h with
  | take mem ready free held locks =>
    exact .take mem ((spend_ready _).mp ready) (fun hu => spend_lock (s := s) _ ▸ free hu) held
      fun v hv hvu => (locks v hv hvu).trans (spend_lock v)
  | idle mem held locks =>
    exact .idle mem held fun v hv hi => (locks v hv hi).trans (spend_lock v)

/-- Whether `schedule` comes to the pass. -/
def switches (s : Scheduler ι κ n) (c : Fin n) (contended : Bool) : Bool :=
  let x := s.threads (s.current c)
  x.critical = 0 && (x.status ≠ .runnable || (x.schedCounter < 1000000 && !contended))

theorem schedule_spec (h : s.Scheduled) (c : Fin n) (now : ℤ) (contended : Bool) :
    s.schedule c now contended = .error creditAssertion ∨
    ∃ s', s.schedule c now contended = .ok s' ∧
      (s.switches c contended = true ∧ PassStep s c now s' ∨
        s.switches c contended = false ∧ s'.current = s.current ∧ s'.Scheduled) := by
  rw [schedule, switches]
  generalize hx : s.threads (s.current c) = x
  by_cases hc : x.critical ≠ 0
  · rw [if_pos hc]
    exact .inr ⟨_, rfl, .inr ⟨by simp [hc], rfl, h.congr rfl rfl rfl rfl h.held⟩⟩
  rw [if_neg hc]
  have hc : x.critical = 0 := not_not.mp hc
  by_cases hr : 1000000 ≤ x.schedCounter
  · have hp : s.setThread (s.current c)
        { x with schedCounter := x.schedCounter - 1000000 } = s.spend c := by rw [← hx]; rfl
    rw [if_pos hr, hp]
    by_cases hst : x.status = .runnable
    · rw [if_pos hst]
      exact .inr ⟨_, rfl, .inr ⟨by simp [hst, hr], rfl, h.spend c⟩⟩
    rw [if_neg hst]
    obtain he | ⟨s', hs', ht⟩ := pass_spec (h.spend c) c now
    · exact .inl he
    · exact .inr ⟨s', hs', .inl ⟨by simp [hc, hst], ht.of_spend⟩⟩
  · rw [if_neg hr]
    by_cases hs : contended = true ∧ x.status = .runnable
    · rw [if_pos hs]
      exact .inr ⟨s, rfl, .inr ⟨by simp [hs.1, hs.2], rfl, h⟩⟩
    rw [if_neg hs]
    obtain he | ⟨s', hs', ht⟩ := pass_spec h c now
    · exact .inl he
    refine .inr ⟨s', hs', .inl ⟨?_, ht⟩⟩
    cases contended <;> simp_all

/-! ## The ring -/

section Redirect

variable {idle : Fin n → ι} {next : ι → Option ι} {cs : List (Fin n)} {v : ι}

theorem redirect_of_ne (hu : ∀ c, idle c ≠ u) : redirect idle t next cs u = next u := by
  induction cs generalizing next with
  | nil => rfl
  | cons c cs ih =>
    rw [redirect, foldl_cons, ← redirect, ih]
    split_ifs
    · exact update_of_ne (Ne.symm (hu c)) ..
    · rfl

theorem redirect_eq_some (ht : ∀ c, idle c ≠ t) (h : redirect idle t next cs u = some v) :
    next u = some v ∨ next t = some v := by
  induction cs generalizing next with
  | nil => exact .inl h
  | cons c cs ih =>
    rw [redirect, foldl_cons, ← redirect] at h
    have hn := ih h
    split_ifs at hn with hc
    · rw [update_of_ne (Ne.symm (ht c)), update_apply] at hn
      split_ifs at hn with hu
      · exact .inr (hn.elim id id)
      · exact hn
    · exact hn

theorem redirect_ne (ht : ∀ c, idle c ≠ t) (hn : next t ≠ some t) {c : Fin n} (hc : c ∈ cs) :
    redirect idle t next cs (idle c) ≠ some t := by
  induction cs generalizing next with
  | nil => cases hc
  | cons d cs ih =>
    rw [redirect, foldl_cons, ← redirect]
    -- what the round for the processor `d` leaves
    generalize hne1 : (if next (idle d) = some t then update next (idle d) (next t)
      else next) = next1
    have ht1 : next1 t ≠ some t := by
      rw [← hne1]
      split_ifs
      · rw [update_of_ne (Ne.symm (ht d))]
        exact hn
      · exact hn
    obtain rfl | hc := mem_cons.mp hc
    · have hi : next1 (idle c) ≠ some t := by
        rw [← hne1]
        split_ifs with hf
        · rw [update_self]
          exact hn
        · exact hf
      exact fun h => (redirect_eq_some ht h).elim hi ht1
    · exact ih ht1 hc

end Redirect

theorem Scheduled.addThread (h : s.Scheduled) (hn : s.links.next t = none)
    (hi : ∀ c, s.idle c ≠ t) (hs' : s.addThread t = .ok s') : s'.Scheduled := by
  rw [Scheduler.addThread] at hs'
  split_ifs at hs'
  cases hs'
  have ht : t ∉ s.ring := by
    intro hm
    obtain ⟨u, -, ha⟩ := h.ring.exists_next hm
    exact nomatch hn.symm.trans ha.1
  refine .of_ring (h.ring.pushTail ht) ?_ ?_ h.idle_injective h.idle_current h.injective h.held ?_
  · rw [length_append, h.size]
    rfl
  · intro c hm
    obtain hm | hm := mem_append.mp hm
    · exact h.idle_notMem c hm
    · exact hi c (mem_singleton.mp hm)
  intro c u hu
  rw [LinkedRing.pushTail_next] at hu
  split_ifs at hu
  · exact mem_append_left _ (some.inj hu ▸ h.ring.head_mem)
  · exact mem_append_right _ (mem_singleton.mpr (some.inj hu).symm)
  · exact mem_append_left _ (h.next_mem c u hu)

theorem removeThread_spec {l1 l2 : List ι} (hi : s.links.Holds (l1 ++ t :: l2))
    (hd : ∀ c, s.idle c ∉ l1 ++ t :: l2) (hne : l1 ++ l2 ≠ []) (hs' : s.removeThread t = .ok s') :
    ∃ links : LinkedRing ι, s' = { s with size := s.size - 1, links := links } ∧
      links.Holds (l1 ++ l2) ∧ links.next t = none ∧
      (∀ u ∉ l1 ++ t :: l2, links.next u = redirect s.idle t s.links.next (finRange n) u) ∧
      ∃ v ∈ l1 ++ l2, s.links.next t = some v := by
  have hn : ∀ u ∈ l1 ++ t :: l2, ∀ c, s.idle c ≠ u := fun u hu c he => hd c (he ▸ hu)
  have ht : t ∈ l1 ++ t :: l2 := mem_append_right _ mem_cons_self
  -- the ring after the idle threads are redirected, and without `t`
  have hr : LinkedRing.Holds { s.links with next := redirect s.idle t s.links.next (finRange n) }
      (l1 ++ t :: l2) :=
    hi.congr (fun u hu => redirect_of_ne (hn u hu)) (fun _ _ => rfl) rfl rfl
  obtain ⟨links, hun, hl, hf, v, hv, htv⟩ := hr.unlink hne
  dsimp only at hf htv
  rw [redirect_of_ne (hn t ht)] at htv
  have ho : t ∉ l1 ++ l2 := by
    have ho := hr.nodup
    rw [nodup_middle] at ho
    exact (nodup_cons.mp ho).1
  rw [Scheduler.removeThread, hun] at hs'
  split_ifs at hs'
  cases hs'
  refine ⟨_, rfl, ?_, update_self .., ?_, v, hv, htv⟩
  · exact hl.congr (fun u hu => update_of_ne
      (fun he : u = t => ho (he ▸ hu)) ..) (fun _ _ => rfl) rfl rfl
  · intro u hu
    exact (update_of_ne (fun he : u = t => hu (he ▸ ht)) ..).trans (hf u hu)

theorem redirect_idle_mem {l1 l2 : List ι} (hi : ∀ c, s.idle c ∉ l1 ++ t :: l2)
    (ho : (l1 ++ t :: l2).Nodup) {v : ι} (hv : v ∈ l1 ++ l2) (ht : s.links.next t = some v)
    {c : Fin n} (hc : ∀ u, s.links.next (s.idle c) = some u → u ∈ l1 ++ t :: l2)
    (hu : redirect s.idle t s.links.next (finRange n) (s.idle c) = some u) :
    u ∈ l1 ++ l2 := by
  have hn : ∀ c, s.idle c ≠ t := fun c he =>
    hi c (he ▸ mem_append_right _ mem_cons_self)
  rw [nodup_middle] at ho
  have hs : s.links.next t ≠ some t := fun he =>
    (nodup_cons.mp ho).1 (some.inj (ht.symm.trans he) ▸ hv)
  have hut : u ≠ t := fun he => redirect_ne hn hs (mem_finRange c) (he ▸ hu)
  obtain hu | hu := redirect_eq_some hn hu
  · have hm := hc u hu
    simp only [mem_append, mem_cons] at hm ⊢
    tauto
  · exact some.inj (ht.symm.trans hu) ▸ hv

theorem Scheduled.removeThread (h : s.Scheduled) (ha : s.Allowed (.removeThread t))
    (hs' : s.removeThread t = .ok s') : s'.Scheduled := by
  obtain ⟨hm, hs, hvo⟩ := ha
  obtain ⟨l1, l2, hr⟩ := append_of_mem hm
  have hl := h.size
  rw [hr, length_append, length_cons] at hl
  have hd : ∀ c, s.idle c ∉ l1 ++ t :: l2 := hr ▸ h.idle_notMem
  have hno : (l1 ++ t :: l2).Nodup := hr ▸ h.ring.nodup
  have hne : l1 ++ l2 ≠ [] := by
    intro he
    have := congrArg length he
    rw [length_append, length_nil] at this
    omega
  obtain ⟨links, rfl, hli, hn, hf, v, hv, htv⟩ :=
    removeThread_spec (hr ▸ h.ring) hd hne hs'
  have ho : ∀ u ∈ l1 ++ t :: l2, u ≠ t → u ∈ l1 ++ l2 := by
    intro u hu ht
    simp only [mem_append, mem_cons] at hu ⊢
    tauto
  refine .of_ring (l := l1 ++ l2) hli ?_ ?_ h.idle_injective h.idle_current h.injective h.held ?_
  · dsimp only
    rw [length_append]
    omega
  · intro c hc
    refine hd c ?_
    simp only [mem_append, mem_cons] at hc ⊢
    tauto
  intro c u hu
  by_cases hct : s.current c = t
  · rw [hct, hn] at hu
    cases hu
  by_cases hcm : s.current c ∈ s.ring
  · exact hli.next_mem (ho _ (hr ▸ hcm) hct) hu
  -- a thread outside of the ring: an idle thread is redirected, no other one goes on with `t`
  rw [hf _ (hr ▸ hcm)] at hu
  by_cases hi : s.current c = s.idle c
  · rw [hi] at hu
    exact redirect_idle_mem hd hno hv htv (fun w hw => hr ▸ h.next_mem c w (hi ▸ hw)) hu
  have hp : ∀ d, s.idle d ≠ s.current c := fun d he =>
    hi (h.idle_current c d he.symm ▸ he.symm)
  rw [redirect_of_ne hp] at hu
  have ht : u ≠ t := fun he => hvo c hcm hi (he ▸ hu)
  exact ho u (hr ▸ h.next_mem c u hu) ht

/-! ## Runs -/

variable [DecidableEq κ]

theorem Scheduled.step {a : Action ι κ n} (h : s.Scheduled) (ha : s.Allowed a)
    (hs' : s.step a = .ok s') : s'.Scheduled := by
  cases a with
  | schedule c uptime contended =>
    obtain he | ⟨s1, hs1, hs⟩ := schedule_spec h c uptime contended
    · exact nomatch he.symm.trans hs'
    obtain rfl := Except.ok.inj (hs1.symm.trans hs')
    obtain ⟨-, hp⟩ | ⟨-, -, hk⟩ := hs
    · exact h.passStep hp
    · exact hk
  | addThread t => exact h.addThread ha.1 ha.2 hs'
  | removeThread t => exact h.removeThread ha hs'
  | work t x =>
    cases hs'
    refine h.congr rfl rfl rfl rfl fun c => ?_
    by_cases hc : s.current c = t
    · rw [hc, setThread_self]
      exact hc ▸ h.held c
    · rw [setThread_of_ne hc]
      exact h.held c
  | acquire t =>
    cases hs'
    refine h.congr rfl rfl rfl rfl fun c => ?_
    by_cases hc : s.current c = t
    · rw [hc, setThread_self]
    rw [setThread_of_ne hc]
    exact h.held c
  | release t =>
    change s.releaseRaw t = .ok s' at hs'
    rw [releaseRaw] at hs'
    split_ifs at hs'
    cases hs'
    refine h.congr rfl rfl rfl rfl fun c => ?_
    rw [setThread_of_ne (ha.1 c)]
    exact h.held c
  | setNice p nice =>
    cases hs'
    exact h.congr rfl rfl rfl rfl h.held
  | setAffinity p mask =>
    cases hs'
    exact h.congr rfl rfl rfl rfl h.held

theorem Scheduled.reach {s₀ : Scheduler ι κ n} (h₀ : s₀.Scheduled)
    (hr : Reach Scheduler.step Allowed s₀ s) : s.Scheduled :=
  Reach.invariant (P := Scheduled) h₀ (fun _ _ _ h ha hs' => h.step ha hs') hr

omit [DecidableEq κ] in
theorem setupCores_scheduled {void : Fin n → ι} {bsp : ι} (hr : s.links.Holds s.ring)
    (hs : s.ring.length = s.size) (hb : bsp ∈ s.ring) (hi : ∀ c, s.idle c ∉ s.ring)
    (hidle_injective : Injective s.idle) (hv : ∀ c, void c ∉ s.ring)
    (hvoid_injective : Injective void) (hvoid_idle : ∀ c d, void c ≠ s.idle d) :
    (s.setupCores void bsp).Scheduled := by
  have hvoid_ring : ∀ t ∈ s.ring, ¬ ∃ c : Fin n, c.val ≠ 0 ∧ void c = t :=
    fun t ht ⟨c, _, hc⟩ => hv c (hc ▸ ht)
  have hu : ∀ c, (s.setupCores void bsp).current c = if c.val = 0 then bsp else void c :=
    fun _ => rfl
  refine .of_ring (hr.congr (fun t ht => if_neg (hvoid_ring t ht)) (fun _ _ => rfl) rfl rfl)
    hs hi hidle_injective ?_ ?_ ?_ ?_
  · intro c d hcd
    rw [hu] at hcd
    split_ifs at hcd with hc
    · exact absurd (hcd ▸ hb) (hi d)
    · exact absurd hcd (hvoid_idle c d)
  · intro c d hcd
    rw [hu, hu] at hcd
    split_ifs at hcd with hc hd hd
    · exact Fin.ext (hc.trans hd.symm)
    · exact absurd (hcd ▸ hb) (hv d)
    · exact absurd (hcd ▸ hb) (hv c)
    · exact hvoid_injective hcd
  · intro c
    change Thread.lock (if (s.setupCores void bsp).current c = bsp then _ else _) = true
    by_cases hb' : (s.setupCores void bsp).current c = bsp
    · rw [if_pos hb']
    have hc : c.val ≠ 0 := fun hc => hb' ((hu c).trans (if_pos hc))
    rw [if_neg hb', if_pos ⟨c, hc, ((hu c).trans (if_neg hc)).symm⟩]
  · intro c t ht
    change (if ∃ d : Fin n, d.val ≠ 0 ∧ void d = (s.setupCores void bsp).current c
      then some s.links.head else s.links.next ((s.setupCores void bsp).current c)) = some t at ht
    by_cases hc : c.val = 0
    · rw [hu, if_pos hc, if_neg (hvoid_ring bsp hb)] at ht
      exact hr.next_mem hb ht
    · rw [hu, if_neg hc, if_pos ⟨c, hc, rfl⟩] at ht
      exact some.inj ht ▸ hr.head_mem

/-- Two threads in the ring, and the idle threads of two processors. -/
def ringOfTwo : Scheduler (Fin 6) Unit 2 where
  threads := fun _ => {}
  parent := fun _ => ()
  nice := fun _ => 0
  affinity := fun _ => 0
  links := {
    next := ![some 1, some 0, none, none, none, none]
    prev := ![some 1, some 0, none, none, none, none]
    head := 0
    tail := 1 }
  size := 2
  current := ![0, 0]
  idle := ![2, 3]

theorem ringOfTwo_holds : ringOfTwo.links.Holds ringOfTwo.ring where
  nodup := by decide
  head := rfl
  tail := rfl
  cycle := by
    refine ⟨isChain_cons_cons.mpr ⟨⟨rfl, rfl⟩, .singleton _⟩, fun x hx y hy => ?_⟩
    obtain rfl : 1 = x := some.inj hx
    obtain rfl : 0 = y := some.inj hy
    exact ⟨rfl, rfl⟩

/-- `ringOfTwo` after `setup_cores`. -/
def booted : Scheduler (Fin 6) Unit 2 := ringOfTwo.setupCores ![4, 5] 0

/-- **A thread runs on at most one processor.** In every state of a run the processors run different
threads and hold their locks, `schedule` never gives back a lock that is not held, and a processor
goes over to nothing but its own idle thread or a thread of the ring that is ready. -/
theorem one_processor {s₀ : Scheduler ι κ n} (h₀ : s₀.Scheduled)
    (hrun : Reach Scheduler.step Allowed s₀ s) :
    Function.Injective s.current ∧ (∀ c, (s.threads (s.current c)).lock = true) ∧
    ∀ c uptime contended, s.schedule c uptime contended ≠ .error tooManyReleases ∧
      ∀ s', s.schedule c uptime contended = .ok s' →
        (s.switches c contended = false → s'.current = s.current) ∧
        (s.switches c contended = true →
          (s'.current c = s.idle c ∨
            s'.current c ∈ s.ring ∧ (s.threads (s'.current c)).Ready uptime) ∧
          ∀ d, d ≠ c → s'.current d = s.current d) := by
  have h := h₀.reach hrun
  refine ⟨h.injective, h.held, fun c uptime contended => ?_⟩
  obtain her | ⟨s', hs', hst⟩ := schedule_spec h c uptime contended
  · rw [her]
    exact ⟨fun heq => absurd (Except.error.inj heq) (by decide), fun s' hs' => nomatch hs'⟩
  rw [hs']
  refine ⟨nofun, fun s'' hs'' => ?_⟩
  cases hs''
  obtain ⟨hsw, hpa⟩ | ⟨hsw, hcu, -⟩ := hst
  · refine ⟨fun hno => absurd hsw (hno ▸ Bool.false_ne_true), fun _ => ?_⟩
    cases hpa with
    | take mem ready free held locks =>
      dsimp only
      rw [update_self]
      exact ⟨.inr ⟨mem, ready⟩, fun d hd => update_of_ne hd ..⟩
    | idle mem held locks =>
      dsimp only
      rw [update_self]
      exact ⟨.inl rfl, fun d hd => update_of_ne hd ..⟩
  · exact ⟨fun _ => hcu, fun hye => absurd hye (hsw ▸ Bool.false_ne_true)⟩

theorem one_processor_idle : ∃ s ∈ execute step Allowed booted
    [.schedule 1 0 false, .work 1 { status := .sleeping, wakeupAt := 5 }, .schedule 1 0 false],
    s.current = ![0, 3] ∧ Function.Injective s.current ∧
      s.schedule 0 0 false ≠ .error tooManyReleases := by
  have hbo : booted.Scheduled := setupCores_scheduled ringOfTwo_holds rfl (by decide)
    (by decide) (by decide) (by decide) (by decide) (by decide)
  refine exists_execute_and (by decide) fun s hs => ?_
  obtain ⟨hinj, -, hsc⟩ := one_processor hbo hs
  exact ⟨hinj, (hsc 0 0 false).1⟩

end Scheduler

end AexKernel.Proc
