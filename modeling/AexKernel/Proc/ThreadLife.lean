import AexKernel.Library.Ensures
import AexKernel.Library.Run
import AexKernel.Proc.Lives

/-! # The life of a thread

Threads run, exit, and join, detach and abort one another. -/

namespace AexKernel.Proc

open Library List Function

/-- The thread that a thread waits for in `join`. -/
def Position.target {ι : Type} : Position ι → Option ι
  | .joining t _ => some t
  | _ => none

namespace Kernel

variable {ι κ : Type} [DecidableEq ι]

def lives (s : Kernel ι κ) : Lives ι where
  status t := (s.threads t).status
  joiner t := (s.threads t).joiner
  detached t := (s.threads t).detached
  joining t := (s.position t).target
  linked t := decide (t ∈ (s.process t).threads)
  finished := s.finished

/-- The assertions of `join` and `finish`. -/
def lifeAssertions : List Fault :=
  [.assertion "!this->m_detached", .assertion "Thread::current()->status == TS_RUNNABLE",
    .assertion "this->status == TS_DEAD"]

/-- A computation that fails none of the assertions of `join` and `finish`. -/
abbrev Lasts (x : Except Fault (Kernel ι κ)) (P : Kernel ι κ → Prop) : Prop :=
  Ensures (· ∈ lifeAssertions) x P

/-- What the current thread `c` has done since the state `s`. -/
structure Changes (c : ι) (n : ℕ) (v : Lives ι) (s s' : Kernel ι κ) : Prop where
  lives : s'.lives = v
  own : (s'.threads c).busy = n
  busy : ∀ t, t ≠ c → (s'.threads t).busy = (s.threads t).busy
  position : ∀ t, t ≠ c → s'.position t = s.position t
  threads : ∀ p, (s'.processes p).threads.Sublist (s.processes p).threads
  parent : s'.parent = s.parent

variable {s s1 : Kernel ι κ} {c j t : ι} {n : ℕ} {v : Lives ι} {f : Thread ι → Thread ι}

theorem modify_self : (s.modify t f).threads t = f (s.threads t) := update_self ..

theorem modify_of_ne {u : ι} (h : u ≠ t) : (s.modify t f).threads u = s.threads u :=
  update_of_ne h ..

theorem lives_modify (s : Kernel ι κ) (t : ι) (f : Thread ι → Thread ι) :
    (s.modify t f).lives = ((s.lives.setStatus t (f (s.threads t)).status).setJoiner t
      (f (s.threads t)).joiner).setDetached t (f (s.threads t)).detached := by
  have hf {β : Type} (g : Thread ι → β) : (fun u => g ((s.modify t f).threads u)) =
      update (fun u => g (s.threads u)) t (g (f (s.threads t))) := by
    funext u
    by_cases hu : u = t
    · subst hu
      rw [modify_self, update_self]
    · rw [modify_of_ne hu, update_of_ne hu]
  exact Lives.ext (hf Thread.status) (hf Thread.joiner) (hf Thread.detached) rfl rfl rfl

/-- What does not change the life of a thread. -/
structure Quiet (f : Thread ι → Thread ι) : Prop where
  status : ∀ x, (f x).status = x.status
  joiner : ∀ x, (f x).joiner = x.joiner
  detached : ∀ x, (f x).detached = x.detached

section

omit [DecidableEq ι]

theorem quiet_addCritical : Quiet (ι := ι) Thread.addCritical :=
  ⟨fun _ => rfl, fun _ => rfl, fun _ => rfl⟩

theorem quiet_subCritical : Quiet (ι := ι) Thread.subCritical :=
  ⟨fun _ => rfl, fun _ => rfl, fun _ => rfl⟩

theorem quiet_addBusy : Quiet (ι := ι) Thread.addBusy :=
  ⟨fun _ => rfl, fun _ => rfl, fun _ => rfl⟩

theorem quiet_lock (lock : Bool) : Quiet (ι := ι) fun x => { x with lock := lock } :=
  ⟨fun _ => rfl, fun _ => rfl, fun _ => rfl⟩

end

theorem lives_modify_quiet (hf : Quiet f) : (s.modify t f).lives = s.lives := by
  rw [lives_modify, hf.status, hf.joiner, hf.detached]
  exact (congrArg (fun v => (Lives.setJoiner v t _).setDetached t _)
    (s.lives.setStatus_self t)).trans ((congrArg (fun v => Lives.setDetached v t _)
      (s.lives.setJoiner_self t)).trans (s.lives.setDetached_self t))

section Processes

variable [DecidableEq κ] {g : Process ι → Process ι} {p : κ}

omit [DecidableEq ι] in
theorem threads_modifyProcess (hg : ∀ x, (g x).threads = x.threads) (q : κ) :
    ((s.modifyProcess p g).processes q).threads = (s.processes q).threads := by
  change (update s.processes p (g (s.processes p)) q).threads = _
  by_cases hq : q = p
  · subst hq
    rw [update_self, hg]
  · rw [update_of_ne hq]

theorem lives_modifyProcess (hg : ∀ x, (g x).threads = x.threads) :
    (s.modifyProcess p g).lives = s.lives :=
  Lives.ext rfl rfl rfl rfl
    (funext fun u => congrArg (fun l => decide (u ∈ l)) (threads_modifyProcess hg _)) rfl

end Processes

namespace Changes

theorem refl (c : ι) (s : Kernel ι κ) : Changes c (s.threads c).busy s.lives s s where
  lives := rfl
  own := rfl
  busy _ _ := rfl
  position _ _ := rfl
  threads _ := List.Sublist.refl _
  parent := rfl

section

variable (h : Changes c n v s s1)
include h

theorem modify (hb : ∀ x, (f x).busy = x.busy) :
    Changes c n (((v.setStatus t (f (s1.threads t)).status).setJoiner t
      (f (s1.threads t)).joiner).setDetached t (f (s1.threads t)).detached) s (s1.modify t f) := by
  have hk (u : ι) : ((s1.modify t f).threads u).busy = (s1.threads u).busy := by
    by_cases ht : u = t
    · subst ht
      rw [modify_self, hb]
    · rw [modify_of_ne ht]
  refine ⟨?_, (hk c).trans h.own, fun u hu => (hk u).trans (h.busy u hu), h.position,
    h.threads, h.parent⟩
  rw [lives_modify, h.lives]

theorem quiet (hf : Quiet f) (hb : ∀ x, (f x).busy = x.busy) :
    Changes c n v s (s1.modify t f) := by
  have hm := h.modify (t := t) hb
  exact ⟨(lives_modify_quiet hf).trans h.lives, hm.own, hm.busy, hm.position, hm.threads,
    hm.parent⟩

theorem count (hf : Quiet f) {m : ℕ} (hm : (f (s1.threads c)).busy = m) :
    Changes c m v s (s1.modify c f) where
  lives := (lives_modify_quiet hf).trans h.lives
  own := by rw [modify_self, hm]
  busy t ht := by rw [modify_of_ne ht, h.busy t ht]
  position := h.position
  threads := h.threads
  parent := h.parent

theorem addCritical : Changes c (n + 1) v s (s1.modify c Thread.addCritical) :=
  h.count quiet_addCritical (congrArg (· + 1) h.own)

theorem subCritical : Changes c (n - 1) v s (s1.modify c Thread.subCritical) :=
  h.count quiet_subCritical (congrArg (· - 1) h.own)

theorem addBusy : Changes c (n + 1) v s (s1.modify c Thread.addBusy) :=
  h.count quiet_addBusy (congrArg (· + 1) h.own)

theorem acquire : Lasts (s1.acquire (some c) t) (Changes c (n + 1) v s) := by
  refine .ite (fun _ => .error (by decide)) fun _ => .ok ?_
  exact h.addCritical.quiet (quiet_lock true) fun _ => rfl

theorem release : Lasts (s1.release (some c) t) (Changes c (n - 1) v s) := by
  refine .ite (fun _ => .ok ?_) fun _ => .error (by decide)
  exact (h.quiet (quiet_lock false) fun _ => rfl).subCritical

theorem setStatus {status : Status} :
    Lasts (s1.setStatus t status) (Changes c n (v.setStatus t status) s) := by
  refine .ite (fun _ => .error (by decide)) fun _ => .ok ?_
  have hm := h.modify (t := t) (f := fun x => { x with status := status }) fun _ => rfl
  have hl : ((v.setStatus t status).setJoiner t (s1.threads t).joiner).setDetached t
      (s1.threads t).detached = v.setStatus t status := by
    obtain rfl := h.lives
    exact (congrArg (Lives.setDetached · t _) ((s1.lives.setStatus t status).setJoiner_self t)).trans
      ((s1.lives.setStatus t status).setDetached_self t)
  rwa [hl] at hm

theorem loadState {state : ThreadState} :
    Changes c state.busy (v.setStatus c state.status) s
      (s1.modify c (Thread.loadState · state)) := by
  refine ⟨?_, ?_, fun t ht => ?_, h.position, h.threads, h.parent⟩
  · obtain rfl := h.lives
    rw [lives_modify]
    exact (congrArg (Lives.setDetached · c _)
      ((s1.lives.setStatus c state.status).setJoiner_self c)).trans
        ((s1.lives.setStatus c state.status).setDetached_self c)
  · rw [modify_self]
    rfl
  · rw [modify_of_ne ht, h.busy t ht]

theorem setJoiner (joiner : Option ι) :
    Changes c n (v.setJoiner t joiner) s (s1.modify t fun x => { x with joiner := joiner }) := by
  have hm := h.modify (t := t) (f := fun x => { x with joiner := joiner }) fun _ => rfl
  have hl : ((v.setStatus t (s1.threads t).status).setJoiner t joiner).setDetached t
      (s1.threads t).detached = v.setJoiner t joiner := by
    obtain rfl := h.lives
    exact (congrArg (fun w => (Lives.setJoiner w t joiner).setDetached t _)
      (s1.lives.setStatus_self t)).trans ((s1.lives.setJoiner t joiner).setDetached_self t)
  rwa [hl] at hm

theorem setDetached {detached : Bool} (hd : (f (s1.threads t)).detached = detached)
    (hf : ∀ x, (f x).status = x.status ∧ (f x).joiner = x.joiner ∧ (f x).busy = x.busy) :
    Changes c n (v.setDetached t detached) s (s1.modify t f) := by
  have hm := h.modify (t := t) (f := f) fun x => (hf x).2.2
  have hl : ((v.setStatus t (f (s1.threads t)).status).setJoiner t
      (f (s1.threads t)).joiner).setDetached t (f (s1.threads t)).detached =
        v.setDetached t detached := by
    obtain rfl := h.lives
    rw [(hf _).1, (hf _).2.1, hd]
    exact congrArg (Lives.setDetached · t detached) ((congrArg (Lives.setJoiner · t _)
      (s1.lives.setStatus_self t)).trans (s1.lives.setJoiner_self t))
  rwa [hl] at hm

theorem wakeJoiner : Lasts (s1.wakeJoiner (some c) j) (Changes c n (v.setStatus j .runnable) s) :=
  h.acquire.bind fun _ h1 => h1.setStatus.bind fun _ h2 => h2.release

theorem broker (request : Request ι κ) :
    Changes c n v s (s1.broker request) := ⟨h.lives, h.own, h.busy, h.position, h.threads, h.parent⟩

theorem moveTo (pos : Position ι) :
    Changes c n (v.setJoining c pos.target) s (s1.moveTo (some c) pos) := by
  refine ⟨?_, h.own, h.busy, fun t ht => ?_, h.threads, h.parent⟩
  · rw [← h.lives]
    refine Lives.ext rfl rfl rfl (funext fun u => ?_) rfl rfl
    change (update s1.position c pos u).target =
      update (fun u => (s1.position u).target) c pos.target u
    by_cases hu : u = c
    · subst hu
      rw [update_self, update_self]
    · rw [update_of_ne hu, update_of_ne hu]
  · exact (update_of_ne ht ..).trans (h.position t ht)

theorem decrement : Changes c (n - 1) v s (s1.modify c fun x => { x with busy := x.busy - 1 }) :=
  h.count (f := fun x => { x with busy := x.busy - 1 })
    ⟨fun _ => rfl, fun _ => rfl, fun _ => rfl⟩ (congrArg (· - 1) h.own)

theorem yieldUntilAborting (hf : (s1.threads c).critical ≠ 0 ∨ v.joining c = none) :
    Lasts (s1.yieldUntilAborting c) (Changes c n v s) := by
  refine .ite (fun _ => .ok h) fun _ => .ite (fun _ => .error (by decide)) fun hc => .ok ?_
  have hj := hf.resolve_left hc
  have hm := h.moveTo .leaving
  change Changes c n (v.setJoining c none) s _ at hm
  rwa [← hj, Lives.setJoining_self] at hm

theorem enterSignal (hf : v.joining c = none) {info : SigInfo} :
    Lasts (s1.enterSignal (some c) t info) (Changes c n v s) := by
  refine .ite (fun _ => .error (by decide)) fun _ => .ok ?_
  have hm := ((h.quiet (t := t) (f := fun x => { x with inSignal := true })
    ⟨fun _ => rfl, fun _ => rfl, fun _ => rfl⟩ fun _ => rfl).broker
      (.signalEnter t info (some c))).moveTo .entering
  change Changes c n (v.setJoining c none) s _ at hm
  rwa [← hf, Lives.setJoining_self] at hm

end

variable [DecidableEq κ]

section

variable (h : Changes c n v s s1)
include h

theorem modifyProcess {p : κ} {g : Process ι → Process ι} (hg : ∀ x, (g x).threads = x.threads) :
    Changes c n v s (s1.modifyProcess p g) := by
  refine ⟨(lives_modifyProcess hg).trans h.lives, h.own, h.busy, h.position, fun q => ?_, h.parent⟩
  rw [threads_modifyProcess hg]
  exact h.threads q

theorem exitProcess (hf : (s1.threads c).critical ≠ 0 ∨ v.joining c = none) {p : κ} {st : ℤ} :
    Lasts (s1.exitProcess (some c) p st) (Changes c n v s) := by
  refine .ite (fun _ => .ok h) fun _ => ?_
  have hex := (h.modifyProcess (p := p)
    (g := fun x => { x with exiting := true, retCode := st }) fun _ => rfl).broker
      (.exitThreaded p)
  exact .ite (fun _ => hex.yieldUntilAborting hf) fun _ => .ok hex

section

variable (hno : ∀ p, (s.processes p).threads.Nodup)
include hno

theorem unassoc :
    Lasts (s1.unassoc t) fun s2 =>
      Changes c n { v with linked := update v.linked t false } s s2 ∧
        s2.threads = s1.threads := by
  refine .ite (fun _ => .error (by decide)) fun _ => .ok ⟨?_, rfl⟩
  have hl (p : κ) : ((s1.modifyProcess (s1.parent t) fun x =>
      { x with threads := x.threads.erase t }).processes p).threads =
        if p = s1.parent t then (s1.processes p).threads.erase t else (s1.processes p).threads := by
    change (update s1.processes (s1.parent t) _ p).threads = _
    by_cases hp : p = s1.parent t
    · subst hp
      rw [update_self, if_pos rfl]
    · rw [update_of_ne hp, if_neg hp]
  refine ⟨?_, h.own, h.busy, h.position, fun p => ?_, h.parent⟩
  · rw [← h.lives]
    refine Lives.ext rfl rfl rfl rfl (funext fun u => ?_) rfl
    change decide (u ∈ ((s1.modifyProcess _ _).processes (s1.parent u)).threads) =
      update s1.lives.linked t false u
    rw [hl]
    by_cases hu : u = t
    · subst hu
      rw [if_pos rfl, update_self, decide_eq_false_iff_not]
      exact ((hno _).sublist (h.threads _)).not_mem_erase
    rw [update_of_ne hu]
    split_ifs
    · exact decide_eq_decide.mpr (mem_erase_of_ne hu)
    · rfl
  · rw [hl]
    split_ifs
    · exact erase_sublist.trans (h.threads p)
    · exact h.threads p

theorem finish (hd : v.status t = .dead) :
    Lasts (s1.finish (some c) t) (Changes c n (v.finish t) s) := by
  have ha : Changes c n { v with finished := v.finished ++ [t] } s
      { s1 with finished := s1.finished ++ [t] } := by
    refine ⟨?_, h.own, h.busy, h.position, h.threads, h.parent⟩
    rw [← h.lives]
    rfl
  have hc := ha.addCritical
  have hs : (({ s1 with finished := s1.finished ++ [t] }.modify c
      Thread.addCritical).threads t).status = .dead :=
    (congrArg (Lives.status · t) hc.lives).trans hd
  refine .ite (fun _ => ?_) fun hn => absurd hs hn
  refine (hc.unassoc hno).bind fun s2 ⟨h2, ht⟩ => ?_
  have hn : (s2.threads c).critical ≠ 0 := by
    rw [ht, modify_self]
    exact Nat.succ_ne_zero _
  refine .bind (P := (· = s2)) (Ensures.ite (fun _ => .ok rfl) fun _ =>
    Ensures.error (by decide)) ?_
  rintro s2 rfl
  refine .bind (P := Changes c (n + 1) (v.finish t) s)
    (Ensures.ite (fun _ => h2.exitProcess (.inl hn)) fun _ => .ok h2) fun s3 h3 => ?_
  exact (h3.broker (.cleanup t)).subCritical

end

end

end Changes

/-- What a thread has done has kept the lives sound, and it is not in `join`. -/
def Ends (c : ι) (s s' : Kernel ι κ) : Prop :=
  ∃ n v, Changes c n v s s' ∧ v.Sound ∧ v.joining c = none

variable [DecidableEq κ]

section

variable (h : Changes c n v s s1)
include h

section

variable (hno : ∀ p, (s.processes p).threads.Nodup)
include hno

theorem Changes.handOver (hv : v.Sound) (hf : v.joining c = none) (hl : v.linked c = true)
    (hd : v.status c = .dead) : Lasts (s1.handOver c) (Ends c s) := by
  have ho : (s1.threads c).joiner = v.joiner c := congrArg (Lives.joiner · c) h.lives
  rw [Kernel.handOver]
  cases hj : (s1.threads c).joiner with
  | some j =>
    exact h.wakeJoiner.mono fun s2 h2 =>
      ⟨n, _, h2, hv.wake (ho.symm.trans hj) hl hd, hf⟩
  | none =>
    refine .ite (fun _ => ?_) fun _ => .ok ⟨n, v, h, hv, hf⟩
    exact (h.finish hno hd).mono fun s2 h2 =>
      ⟨n, _, h2, hv.finish hl hd (hv.unjoined (ho.symm.trans hj)), hf⟩

theorem Changes.exit (hv : v.Sound) (hf : v.joining c = none) (hs : v.status c ≠ .dead) :
    Lasts (s1.exit c) (Ends c s) := by
  refine .ite (fun _ => .error (by decide)) fun _ => .ite
    (fun _ => .error (by decide)) fun _ => .ite (fun _ => .ok ?_) fun _ => ?_
  · exact ⟨n, v, h.quiet ⟨fun _ => rfl, fun _ => rfl, fun _ => rfl⟩ fun _ => rfl, hv, hf⟩
  have hl := hv.linked_of_status hs
  refine .bind (P := Changes c (n + 1) (v.setStatus c .dead) s) h.addCritical.setStatus
    fun s2 h2 => ?_
  have hd : (v.setStatus c .dead).Sound := hv.setStatus hf hl fun _ _ => .inr rfl
  refine (h2.handOver hno hd hf hl (update_self ..)).bind ?_
  rintro s3 ⟨m, w, h3, hw, hwf⟩
  exact ⟨m - 1, w, h3.subCritical, hw, hwf⟩

end

theorem Changes.handlePending (hf : v.joining c = none) :
    Lasts (s1.handlePending (some c) c) (Changes c n v s) := by
  rw [Kernel.handlePending]
  cases (s1.threads c).pendingSignals.getLast? with
  | none => exact .ok h
  | some info =>
    have hp : Changes c n v s (s1.modify c fun x =>
        { x with pendingSignals := x.pendingSignals.dropLast }) :=
      h.quiet ⟨fun _ => rfl, fun _ => rfl, fun _ => rfl⟩ fun _ => rfl
    change Lasts (Kernel.handleSignal _ _ _ _) _
    generalize s1.modify c _ = s2 at hp ⊢
    rw [Kernel.handleSignal]
    cases (s2.process c).sigaction info.signo with
    | core | term => exact hp.exitProcess (.inr hf)
    | stop | cont => exact .error (by decide)
    | ign | dfl => exact .ok hp
    | user =>
      refine .ite (fun _ => .ite (fun _ => hp.enterSignal hf) fun _ => ?_)
        fun hn => absurd rfl hn
      exact .ok (hp.quiet ⟨fun _ => rfl, fun _ => rfl, fun _ => rfl⟩ fun _ => rfl)

theorem Changes.subBusy_busy (hn : 2 ≤ n) :
    Lasts (s1.subBusy (some c) c) (Changes c (n - 1) v s) := by
  refine .ite (fun _ => .ok h.decrement) fun hz => absurd h.decrement.own ?_
  rw [not_not.mp hz]
  omega

theorem Changes.subBusy (hno : ∀ p, (s.processes p).threads.Nodup) (hv : v.Sound)
    (hf : v.joining c = none) (hs : v.status c ≠ .dead) :
    Lasts (s1.subBusy (some c) c) (Ends c s) := by
  refine .ite (fun _ => .ok ⟨_, v, h.decrement, hv, hf⟩) fun _ => .ite
    (fun _ => h.decrement.exit hno hv hf hs) fun _ => ?_
  exact (h.decrement.handlePending hf).mono fun s2 h2 => ⟨_, v, h2, hv, hf⟩

end

/-! ## Runs -/

/-- A step of the threads. -/
inductive LifeCall (ι κ : Type)
  | exit (t : ι)
  | join (c t : ι)
  | joinReturn (c : ι)
  | detach (c t : ι)
  | abort (c t : ι) (force : Bool)
  | addBusy (t : ι)
  | subBusy (t : ι)
  /-- A thread goes on after another wait than that of `join`. -/
  | resume (t : ι)
  /-- A thread sleeps, blocks or is woken outside of `join`. -/
  | setStatus (t : ι) (status : Status)
  | setSignals (t : ι) (pending : List SigInfo) (inSignal : Bool)
  | setMutexes (t : ι) (held : ℤ)
  | setCounter (p : κ) (counter : ℤ)

def Runs (s : Kernel ι κ) (t : ι) : Prop :=
  s.position t = .running ∧ (s.threads t).status ≠ .dead

instance (s : Kernel ι κ) (t : ι) : Decidable (s.Runs t) := inferInstanceAs (Decidable (_ ∧ _))

/-- The scheduler lets a joiner run again when it was woken or interrupted. -/
def returnFromJoin (s : Kernel ι κ) (c : ι) : Except Fault (Kernel ι κ) :=
  match s.position c with
  | .joining t state =>
    if (s.threads c).status = .runnable ∨ (s.threads c).interrupted then
      s.run c fun s => (s.joinReturn c t state).map Prod.fst
    else .ok s
  | _ => .ok s

def lifeStep (s : Kernel ι κ) : LifeCall ι κ → Except Fault (Kernel ι κ)
  | .exit t => if s.Runs t then s.run t (·.exit t) else .ok s
  | .join c t => if s.Runs c then s.run c fun s => (s.join c t).map Prod.fst else .ok s
  | .joinReturn c => s.returnFromJoin c
  | .detach c t => if s.Runs c then s.run c fun s => (s.detach c t).map Prod.fst else .ok s
  | .abort c t force => if s.Runs c then s.run c (·.abort c t force) else .ok s
  | .addBusy t => if s.Runs t then .ok (s.modify t Thread.addBusy) else .ok s
  | .subBusy t =>
    if s.Runs t ∧ (s.threads t).busy ≠ 0 then s.run t (·.subBusy (some t) t) else .ok s
  | .resume t => if (s.position t).target = none then .ok (s.moveTo (some t) .running) else .ok s
  | .setStatus t status =>
    if s.Runs t ∧ status ≠ .dead then .ok (s.modify t fun x => { x with status := status })
    else .ok s
  | .setSignals t pending inSignal =>
    .ok (s.modify t fun x => { x with pendingSignals := pending, inSignal := inSignal })
  | .setMutexes t held => .ok (s.modify t fun x => { x with heldMutexes := held })
  | .setCounter p counter => .ok (s.modifyProcess p fun x => { x with threadCounter := counter })

/-- Nobody works on a thread that is finished already, and nobody aborts a thread that another one
waits for, unless it is dead or will end by itself and stays attached. -/
def Careful (s : Kernel ι κ) : LifeCall ι κ → Prop
  | .join _ t | .detach _ t => t ∈ (s.process t).threads
  | .abort _ t force => t ∈ (s.process t).threads ∧ ((s.threads t).joiner = none ∨
      force = false ∧ ((s.threads t).busy ≠ 0 ∨ (s.threads t).status = .dead))
  | _ => True

/-- The invariant: the lives are sound, and a thread in `join` is in a call of its own besides it. -/
structure Orderly (s : Kernel ι κ) : Prop where
  sound : s.lives.Sound
  nodup : ∀ p, (s.processes p).threads.Nodup
  held : ∀ j t state, s.position j = .joining t state → 2 ≤ state.busy ∧ (s.threads j).busy ≠ 0

def Keeps (c : ι) (s s' : Kernel ι κ) : Prop :=
  ∃ n v, Changes c n v s s' ∧ v.Sound ∧
    ∀ t state, s'.position c = .joining t state → 2 ≤ state.busy ∧ n ≠ 0

section

omit [DecidableEq κ]

theorem Ends.keeps (h : Ends c s s1) : Keeps c s s1 := by
  obtain ⟨n, v, hc, hv, hf⟩ := h
  refine ⟨n, v, hc, hv, fun t state hj => ?_⟩
  have ht : (s1.position c).target = v.joining c := congrArg (Lives.joining · c) hc.lives
  rw [hj, hf] at ht
  cases ht

theorem Keeps.unlock (h : Keeps c s s1) :
    Keeps c s (s1.modify c fun x => { x with lock := false }) := by
  obtain ⟨n, v, hc, hv, ho⟩ := h
  exact ⟨n, v, hc.quiet (quiet_lock false) fun _ => rfl, hv, ho⟩

theorem Orderly.keeps (h : Orderly s) (hk : Keeps c s s1) : Orderly s1 := by
  obtain ⟨n, v, hc, hv, ho⟩ := hk
  refine ⟨hc.lives ▸ hv, fun p => (h.nodup p).sublist (hc.threads p), fun j t state hj => ?_⟩
  by_cases hjc : j = c
  · subst hjc
    rw [hc.own]
    exact ho t state hj
  · rw [hc.position j hjc] at hj
    rw [hc.busy j hjc]
    exact h.held j t state hj

theorem Orderly.run (h : Orderly s) {p : Prop} [Decidable p]
    {call : Kernel ι κ → Except Fault (Kernel ι κ)} (hc : p → ∀ s1,
      Changes c (s.threads c).busy s.lives s s1 → Lasts (call s1) (Keeps c s)) :
    Lasts (if p then s.run c call else .ok s) Orderly := by
  refine .ite (fun hp => ?_) fun _ => Ensures.ok h
  refine .mono (P := Keeps c s) ?_ fun s2 => h.keeps
  exact (hc hp _ ((Changes.refl c s).quiet (quiet_lock true) fun _ => rfl)).bind fun _ hk =>
    Ensures.ok hk.unlock

theorem Runs.joining (h : s.Runs c) : s.lives.joining c = none := congrArg Position.target h.1

end

theorem Changes.join (h : Changes c n s.lives s s1) (hs : Orderly s) (hr : s.Runs c)
    (hl : t ∈ (s.process t).threads) :
    Ensures (· ∈ lifeAssertions) (s1.join c t) fun r => Keeps c s r.1 := by
  have hre {s2 : Kernel ι κ} {m : ℕ} (h2 : Changes c m s.lives s s2) (e : Option ErrorCode) :
      Ensures (· ∈ lifeAssertions) (do return (← s2.release (some c) t, e))
        fun r => Keeps c s r.1 :=
    h2.release.bind fun s3 h3 => .ok (Ends.keeps ⟨_, _, h3, hs.sound, hr.joining⟩)
  refine h.acquire.bind fun s2 h2 => ?_
  refine .ite (fun _ => hre h2 _) fun hf => .ite (fun _ => hre h2 _) fun ho => ?_
  have hj : s.lives.joiner t = none := by
    rw [← h2.lives]
    exact not_not.mp fun hn => hf (.inr hn)
  have ht : s.lives.detached t = false := by
    rw [← h2.lives]
    exact Bool.eq_false_iff.mpr fun hd => hf (.inl hd)
  refine .ite (fun he => ?_) fun ha => ?_
  · have he : s.lives.status t = .dead :=
      (congrArg (Lives.status · t) h2.addBusy.lives).symm.trans he
    refine (h2.addBusy.finish hs.nodup he).bind fun s3 h3 => ?_
    refine (h3.subBusy_busy (by omega)).bind fun s4 h4 => h4.release.bind fun s5 h5 => ?_
    exact .ok (Ends.keeps ⟨_, _, h5, hs.sound.finish (decide_eq_true hl) he
      (hs.sound.unjoined hj), hr.joining⟩)
  have ha : s.lives.status t ≠ .dead := fun he =>
    ha ((congrArg (Lives.status · t) h2.addBusy.lives).trans he)
  have hc : t ≠ c := fun hq => ho (.inl hq)
  refine (h2.addBusy.setJoiner (t := t) (some c)).setStatus.bind fun s3 h3 =>
    h3.release.bind fun s4 h4 => .ok ?_
  refine ⟨_, _, h4.moveTo _, hs.sound.enter hr.joining hc hr.2 hj ht ha, ?_⟩
  intro u state hp
  change update s4.position c _ c = _ at hp
  rw [update_self] at hp
  obtain ⟨-, rfl⟩ := Position.joining.inj hp
  have hst : ((s2.modify c Thread.addBusy).threads c).saveState.busy = n + 1 + 1 :=
    h2.addBusy.own
  exact ⟨by omega, by omega⟩

theorem Changes.giveUp (h : Changes c n v s s1) (hno : ∀ p, (s.processes p).threads.Nodup)
    (hv : v.Sound) (hc : v.joining c = some t) (st : Status) :
    Lasts (s1.giveUp c t) fun s2 => ∃ w, Changes c n w s s2 ∧
      ((w.setStatus c st).setJoining c none).Sound := by
  have hl := hv.leave hc st
  have hu := hl.unjoined (t := t) (update_self ..)
  have hs (s2 : Kernel ι κ) (h2 : Changes c n (v.setJoiner t none) s s2) :
      (s2.threads t).status = v.status t := congrArg (Lives.status · t) h2.lives
  have h2 := h.setJoiner (t := t) none
  refine .ite (fun hd => ?_) fun _ => .ite (fun _ => .ok ?_) fun _ =>
    Ensures.ok ⟨_, h2, hl⟩
  · have hd := (hs _ h2).symm.trans hd
    have ht : t ≠ c := by
      rintro rfl
      exact hv.status_ne hc hd
    exact (h2.finish hno hd).mono fun s3 h3 => ⟨_, h3, hl.finish (hv.linked c t hc)
      ((update_of_ne ht ..).trans hd) hu⟩
  · exact ⟨_, h2.setDetached rfl fun _ => ⟨rfl, rfl, rfl⟩, hl.detach hu⟩

theorem Changes.finishJoined (h : Changes c n v s s1)
    (hno : ∀ p, (s.processes p).threads.Nodup) (hv : v.Sound) (hc : v.joining c = some t)
    (hw : v.status c = .runnable) (st : Status) :
    Lasts (s1.finishJoined c t) fun s2 => ∃ w, Changes c n w s s2 ∧
      ((w.setStatus c st).setJoining c none).Sound := by
  have he : v.status t = .dead := by
    rcases hv.waiting c t hc with hb | ⟨-, hd⟩
    · rw [hw] at hb
      cases hb
    · exact hd
  have ha : (s1.threads t).detached = false :=
    (congrArg (Lives.detached · t) h.lives).trans (hv.attached c t hc)
  have hr : (s1.threads c).status = .runnable :=
    (congrArg (Lives.status · c) h.lives).trans hw
  refine .ite (fun hd => ?_) fun _ => .ite (fun hn => absurd hr hn) fun _ => ?_
  · rw [ha] at hd
    cases hd
  · exact (h.finish hno he).mono fun s2 h2 => ⟨_, h2, hv.finishJoined hc he st⟩

omit [DecidableEq κ] in
theorem interrupted_modify (hf : ∀ x, (f x).interrupted = x.interrupted) :
    ((s.modify t f).threads c).interrupted = (s.threads c).interrupted := by
  by_cases hc : c = t
  · subst hc
    rw [modify_self, hf]
  · rw [modify_of_ne hc]

omit [DecidableEq κ] in
theorem acquire_interrupted : Lasts (s.acquire (some j) t) fun s2 =>
    (s2.threads c).interrupted = (s.threads c).interrupted := by
  refine .ite (fun _ => .error (by decide)) fun _ => .ok ?_
  exact (interrupted_modify (f := fun x => { x with lock := true }) fun _ => rfl).trans
    (interrupted_modify (f := Thread.addCritical) fun _ => rfl)

theorem Changes.joinReturn (h : Changes c n s.lives s s1) (hs : Orderly s) {state : ThreadState}
    (hp : s.position c = .joining t state)
    (hr : (s.threads c).status = .runnable ∨ (s1.threads c).interrupted) :
    Ensures (· ∈ lifeAssertions) (s1.joinReturn c t state) fun r => Keeps c s r.1 := by
  have hc : s.lives.joining c = some t := congrArg Position.target hp
  refine (h.acquire.and (acquire_interrupted (c := c))).bind fun s2 ⟨h2, hint⟩ => ?_
  have he {s3 : Kernel ι κ} (e : ErrorCode) (h3 : ∃ w, Changes c (n + 1) w s s3 ∧
      ((w.setStatus c state.status).setJoining c none).Sound) :
      Ensures (· ∈ lifeAssertions) (do
        let s ← (s3.modify c (Thread.loadState · state)).subBusy (some c) c
        let s ← s.release (some c) t
        return (s.moveTo (some c) .running, e)) fun r => Keeps c s r.1 := by
    obtain ⟨w, h3, hw⟩ := h3
    refine (h3.loadState.subBusy_busy (hs.held c t state hp).1).bind fun s4 h4 =>
      h4.release.bind fun s5 h5 => .ok (Ends.keeps ⟨_, _, h5.moveTo .running, hw, ?_⟩)
    exact update_self ..
  refine .ite (fun _ => ?_) fun hn => ?_
  · exact (h2.giveUp hs.nodup hs.sound hc _).bind fun s3 h3 => he _ h3
  rw [hint] at hn
  exact (h2.finishJoined hs.nodup hs.sound hc (hr.resolve_right hn) _).bind fun s3 h3 =>
    he _ h3

theorem Changes.detach (h : Changes c n s.lives s s1) (hs : Orderly s) (hr : s.Runs c)
    (hl : t ∈ (s.process t).threads) :
    Ensures (· ∈ lifeAssertions) (s1.detach c t) fun r => Keeps c s r.1 := by
  refine h.acquire.bind fun s2 h2 => ?_
  refine .ite (fun _ => h2.release.bind fun s3 h3 => .ok (Ends.keeps
    ⟨_, _, h3, hs.sound, hr.joining⟩)) fun hf => ?_
  have hj : s.lives.joiner t = none := by
    rw [← h2.lives]
    exact not_not.mp fun hn => hf (.inr hn)
  have he {s3 : Kernel ι κ} {w : Lives ι} (h3 : Changes c (n + 1) w s s3) (hw : w.Sound)
      (hu : ∀ j, w.joining j ≠ some t) (hwf : w.joining c = none) :
      Ensures (· ∈ lifeAssertions) (do
        return (← (s3.modify t fun x => { x with detached := true }).release (some c) t,
          ErrorCode.none)) fun r => Keeps c s r.1 :=
    (h3.setDetached (t := t) (f := fun x => { x with detached := true }) rfl
      fun _ => ⟨rfl, rfl, rfl⟩).release.bind fun s4 h4 =>
        Ensures.ok (Ends.keeps ⟨_, _, h4, hw.detach hu, hwf⟩)
  refine .ite (fun hd => ?_) fun _ =>
    he h2 hs.sound (hs.sound.unjoined hj) hr.joining
  have hd : s.lives.status t = .dead := (congrArg (Lives.status · t) h2.lives).symm.trans hd
  exact (h2.finish hs.nodup hd).bind fun s3 h3 =>
    he h3 (hs.sound.finish (decide_eq_true hl) hd (hs.sound.unjoined hj))
      (hs.sound.unjoined hj) hr.joining

theorem Changes.kill (h : Changes c n v s s1) (hno : ∀ p, (s.processes p).threads.Nodup)
    (hv : v.Sound) (hf : v.joining c = none) (hn : n ≠ 0) (hl : v.linked t = true)
    (hw : v.joining t = none)
    (hjo : ∀ j, v.joiner t = some j → v.status t = .dead) :
    Lasts (s1.kill c t) fun s2 => ∃ w, Changes c n w s s2 ∧ w.Sound ∧ w.joining c = none := by
  have ho : (s1.threads t).joiner = v.joiner t := congrArg (Lives.joiner · t) h.lives
  rw [Kernel.kill]
  cases hj : (s1.threads t).joiner with
  | some j =>
    have hj := ho.symm.trans hj
    exact h.wakeJoiner.mono fun s2 h2 => ⟨_, h2, hv.wake hj hl (hjo j hj), hf⟩
  | none =>
    refine .ite (fun _ => ?_) fun _ => .ok ⟨v, h, hv, hf⟩
    have hu := hv.unjoined (ho.symm.trans hj)
    have hi : (v.setStatus t .dead).Sound := hv.setStatus hw hl fun _ _ => .inr rfl
    have hd : (v.setStatus t .dead).status t = .dead := update_self ..
    refine .bind (P := Changes c (n + 1) (v.setStatus t .dead) s) h.addBusy.setStatus
      fun s2 h2 => (h2.finish hno hd).bind fun s3 h3 => ?_
    exact (h3.subBusy_busy (by omega)).mono fun s4 h4 =>
      ⟨_, h4, hi.finish hl hd hu, hf⟩

theorem Changes.abort (h : Changes c n s.lives s s1) (hs : Orderly s) (hr : s.Runs c)
    {force : Bool} (hc : Careful s (.abort c t force)) :
    Lasts (s1.abort c t force) (Keeps c s) := by
  obtain ⟨hl, ha⟩ := hc
  refine h.acquire.bind fun s2 h2 => ?_
  -- a forced abort detaches a thread that nobody waits for; any other keeps the flag
  have hm : Changes c (n + 1) (s.lives.setDetached t (s.lives.detached t || force)) s
      (s2.modify t fun x => { x with aborting := true, detached := x.detached || force }) :=
    h2.setDetached (congrArg (· || force) (congrArg (Lives.detached · t) h2.lives))
      fun _ => ⟨rfl, rfl, rfl⟩
  have ho : (s.lives.setDetached t (s.lives.detached t || force)).Sound := by
    cases force with
    | false =>
      rw [Bool.or_false, Lives.setDetached_self]
      exact hs.sound
    | true =>
      rw [Bool.or_true]
      refine hs.sound.detach (hs.sound.unjoined ?_)
      exact ha.resolve_right fun hf => Bool.noConfusion hf.1
  refine .bind (P := fun s3 => ∃ w, Changes c (n + 1) w s s3 ∧ w.Sound ∧
    w.joining c = none) (Ensures.ite (fun _ => .ok ⟨_, hm, ho, hr.joining⟩) fun hb => ?_) ?_
  · have hb := not_not.mp hb
    have ht : t ≠ c := by
      rintro rfl
      rw [hm.own] at hb
      cases hb
    rw [hm.busy t ht] at hb
    refine hm.kill hs.nodup ho hr.joining (Nat.succ_ne_zero n) (decide_eq_true hl)
      ?_ fun j hj => ?_
    · change (s.position t).target = none
      cases hp : s.position t with
      | joining u state => exact absurd hb (hs.held t u state hp).2
      | running | entering | returning | leaving => rfl
    have hjo : (s.threads t).joiner = some j := hj
    rcases ha with hn | ⟨-, he | hd⟩
    · rw [hn] at hjo
      cases hjo
    · exact absurd hb he
    · exact hd
  · rintro s3 ⟨w, h3, hw, hwf⟩
    exact h3.release.mono fun s4 h4 => Ends.keeps ⟨_, w, h4, hw, hwf⟩

omit [DecidableEq κ] in
theorem Changes.keeps (h : Changes c n s.lives s s1) (hs : Orderly s)
    (hp : s1.position c = s.position c)
    (hn : (s.threads c).busy ≠ 0 → n ≠ 0) : Keeps c s s1 :=
  ⟨n, _, h, hs.sound, fun t state hj =>
    (hs.held c t state (hp ▸ hj)).imp_right hn⟩

omit [DecidableEq κ] in
theorem Orderly.quiet (hs : Orderly s) (hf : Quiet f) (hb : ∀ x, (f x).busy = x.busy) :
    Orderly (s.modify t f) :=
  hs.keeps (((Changes.refl t s).quiet hf hb).keeps hs rfl id)

/-- **One step.** A careful step keeps the invariant. -/
theorem Orderly.step (hs : Orderly s) {a : LifeCall ι κ} (hc : Careful s a) :
    Lasts (lifeStep s a) Orderly := by
  have hi : Lasts (.ok s : Except Fault (Kernel ι κ)) Orderly := Ensures.ok hs
  cases a with
  | exit t =>
    refine hs.run fun hr s1 h1 => ?_
    exact (h1.exit hs.nodup hs.sound hr.joining hr.2).mono fun _ => Ends.keeps
  | join c t =>
    refine hs.run fun hr s1 h1 => ?_
    exact (h1.join hs hr hc).map
  | joinReturn c =>
    rw [lifeStep, returnFromJoin]
    cases hp : s.position c with
    | running | entering | returning | leaving => exact hi
    | joining t state =>
      refine .ite (fun hu => ?_) fun _ => hi
      refine .mono (P := Keeps c s) (Ensures.bind (P := Keeps c s) ?_ fun s2 h2 =>
        Ensures.ok h2.unlock) fun s2 => hs.keeps
      refine (Changes.joinReturn ((Changes.refl c s).quiet (quiet_lock true) fun _ => rfl) hs
        hp ?_).map
      rwa [interrupted_modify (f := fun x => { x with lock := true }) fun _ => rfl]
  | detach c t =>
    refine hs.run fun hr s1 h1 => ?_
    exact (h1.detach hs hr hc).map
  | abort c t force =>
    refine hs.run fun hr s1 h1 => ?_
    exact h1.abort hs hr hc
  | addBusy t =>
    refine .ite (fun hr => .ok ?_) fun _ => hi
    exact hs.keeps ((Changes.refl t s).addBusy.keeps hs rfl fun _ => Nat.succ_ne_zero _)
  | subBusy t =>
    refine hs.run fun hr s1 h1 => ?_
    exact (h1.subBusy hs.nodup hs.sound hr.1.joining hr.1.2).mono fun _ => Ends.keeps
  | resume t =>
    refine .ite (fun hf => .ok ?_) fun _ => hi
    have hm := (Changes.refl t s).moveTo .running
    refine hs.keeps (Ends.keeps ⟨_, _, hm, ?_, update_self ..⟩)
    change (s.lives.setJoining t none).Sound
    rw [← show s.lives.joining t = none from hf, Lives.setJoining_self]
    exact hs.sound
  | setStatus t status =>
    refine .ite (fun hr => .ok ?_) fun _ => hi
    have he := (Changes.refl t s).setStatus.of_ok
      (show s.setStatus t status = _ from if_neg fun h => hr.2 h.1)
    refine hs.keeps (Ends.keeps ⟨_, _, he, ?_, hr.1.joining⟩)
    exact hs.sound.setStatus hr.1.joining (hs.sound.linked_of_status hr.1.2)
      fun j hj => .inl (hs.sound.blocked hj hr.1.2)
  | setSignals t pending inSignal =>
    exact .ok (hs.quiet (f := fun x =>
      { x with pendingSignals := pending, inSignal := inSignal })
        ⟨fun _ => rfl, fun _ => rfl, fun _ => rfl⟩ fun _ => rfl)
  | setMutexes t held =>
    exact .ok (hs.quiet (f := fun x => { x with heldMutexes := held })
      ⟨fun _ => rfl, fun _ => rfl, fun _ => rfl⟩ fun _ => rfl)
  | setCounter p counter =>
    have hk : ∀ x : Process ι, { x with threadCounter := counter }.threads = x.threads :=
      fun _ => rfl
    refine .ok ⟨?_, fun q => ?_, hs.held⟩
    · rw [lives_modifyProcess hk]
      exact hs.sound
    · rw [threads_modifyProcess hk]
      exact hs.nodup q

/-- A state in which no thread has ended or waits for another. -/
structure Fresh (s : Kernel ι κ) : Prop where
  running : ∀ t, s.position t = .running
  joiner : ∀ t, (s.threads t).joiner = none
  alive : ∀ t, (s.threads t).status ≠ .dead
  linked : ∀ t, t ∈ (s.process t).threads
  nodup : ∀ p, (s.processes p).threads.Nodup
  finished : s.finished = []

omit [DecidableEq κ] in
theorem Fresh.orderly (h : Fresh s) : Orderly s := by
  have hf (j : ι) : s.lives.joining j = none := congrArg Position.target (h.running j)
  have hl (t : ι) : s.lives.linked t = true := decide_eq_true (h.linked t)
  have hn {j t : ι} {P : Prop} (hj : s.lives.joining j = some t) : P := by
    rw [hf j] at hj
    cases hj
  refine ⟨⟨fun j t hj => hn hj, fun j t hj => hn hj, fun j t hj => hn hj,
    fun j t hj => hn hj, fun t j hj => ?_, ?_, fun t => ?_, fun t ht => ?_⟩, h.nodup,
    fun j t state hj => ?_⟩
  · rw [show s.lives.joiner t = none from h.joiner t] at hj
    cases hj
  · rw [show s.lives.finished = [] from h.finished]
    exact nodup_nil
  · rw [show s.lives.finished = [] from h.finished, hl t]
    simp
  · rw [hl t] at ht
    cases ht
  · rw [h.running j] at hj
    cases hj

/-- **A thread is finished once**: in every run of careful steps, `finish` is called at most once for
a thread, and only when it is dead, and no assertion of `join` and `finish` fails. -/
theorem once_of_careful {s₀ : Kernel ι κ} (start : Fresh s₀) (run : Reach lifeStep Careful s₀ s) :
    (∀ t, s.finished.count t ≤ 1) ∧ (∀ t ∈ s.finished, (s.threads t).status = .dead) ∧
      ∀ a, Careful s a → ∀ e ∈ lifeAssertions, lifeStep s a ≠ .error e := by
  have hs : Orderly s := run.invariant start.orderly fun s a s' hs hca hst =>
    (hs.step hca).of_ok hst
  refine ⟨fun t => ?_, fun t ht => ?_, fun a hca e he => (hs.step hca).ne_error he⟩
  · exact nodup_iff_count_le_one.mp hs.sound.nodup t
  · exact hs.sound.dead t ((hs.sound.finished t).mp ht)

instance (s : Kernel ι κ) : (a : LifeCall ι κ) → Decidable (Careful s a)
  | .join _ t | .detach _ t => inferInstanceAs (Decidable (t ∈ (s.process t).threads))
  | .abort _ t force => inferInstanceAs (Decidable (t ∈ (s.process t).threads ∧
      ((s.threads t).joiner = none ∨
        force = false ∧ ((s.threads t).busy ≠ 0 ∨ (s.threads t).status = .dead))))
  | .exit _ | .joinReturn _ | .addBusy _ | .subBusy _ | .resume _ | .setStatus _ _
  | .setSignals _ _ _ | .setMutexes _ _ | .setCounter _ _ => .isTrue trivial

section

local instance : NeZero 3 := ⟨by decide⟩

def threeThreads : Kernel (Fin 3) Unit where
  threads _ := {}
  parent _ := ()
  processes _ := { threadCounter := 3, threads := [0, 1, 2] }

end

theorem fresh_threeThreads : Fresh threeThreads where
  running _ := rfl
  joiner _ := rfl
  alive := by decide
  linked := by decide
  nodup := by decide
  finished := rfl

theorem once_of_careful_abort :
    Fresh threeThreads ∧ ∃ s ∈ execute lifeStep Careful threeThreads
        [.addBusy 0, .join 1 0, .abort 2 0 false, .subBusy 0, .joinReturn 1],
      s.finished = [0] ∧ (∀ t, s.finished.count t ≤ 1) ∧
        ∀ t ∈ s.finished, (s.threads t).status = .dead := by
  refine ⟨fresh_threeThreads, exists_execute_and (by decide) fun s hs => ?_⟩
  have hrun := once_of_careful fresh_threeThreads hs
  exact ⟨hrun.1, hrun.2.1⟩

theorem not_once_abort :
    (∃ s ∈ execute lifeStep (fun _ _ => True) threeThreads [.join 1 0, .abort 2 0 false],
      lifeStep s (.joinReturn 1) = .error (.assertion "this->status == TS_DEAD")) ∧
    ∃ s ∈ execute lifeStep (fun _ _ => True) threeThreads [.exit 0, .join 1 0, .join 2 0],
      s.finished.count 0 = 2 := by
  decide

end Kernel

end AexKernel.Proc
