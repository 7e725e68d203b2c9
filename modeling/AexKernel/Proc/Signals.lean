import AexKernel.Proc.SignalEffects

/-! # The delivery of signals by the kernel (`ipc/thread.cpp`)

Runs in which threads send signals, enter calls and leave them, and return from handlers, while the
broker makes them enter and leave the handlers. -/

namespace AexKernel.Proc

open Library List Function Kernel

variable {ι κ : Type}

/-- The kernel, with what has become of the signals. -/
structure Signals (ι κ : Type) where
  kernel : Kernel ι κ
  /-- The signals with a handler for which `signal` has returned `ENONE`. -/
  accepted : List (ι × SigInfo) := []
  entered : List (ι × SigInfo) := []
  active : ι → ℕ := fun _ => 0

/-- A step. -/
inductive SignalCall (ι : Type)
  /-- The thread `c` calls `signal` for the thread `t`. -/
  | signal (c t : ι) (info : SigInfo)
  | addBusy (t : ι)
  | subBusy (t : ι)
  /-- A thread calls `sigret`. -/
  | sigret (t : ι)
  | broker

/-- Whether the broker is about to let a struck thread return from a handler. -/
def Kernel.brokerSafe (k : Kernel ι κ) : Bool :=
  match k.requests with
  | .signalExit t :: _ => ¬ k.Struck t
  | _ => true

namespace Signals

variable [DecidableEq ι] [DecidableEq κ]

/-- `signal(info)`, called by a thread that runs. -/
def signal (s : Signals ι κ) (c t : ι) (info : SigInfo) : Except Fault (Signals ι κ) := do
  let (kernel, err) ← (s.kernel.modify c fun x => { x with lock := true }).signal c t info
  return { s with
    kernel := kernel.modify c fun x => { x with lock := false }
    accepted := if err = .none ∧ kernel.user t info then s.accepted ++ [(t, info)]
      else s.accepted }

def record (s : Signals ι κ) (kernel : Kernel ι κ) : Signals ι κ :=
  match s.kernel.requests with
  | .signalEnter t info _ :: _ =>
    { s with
      kernel := kernel
      entered := s.entered ++ [(t, info)]
      active := Function.update s.active t (s.active t + 1) }
  | .signalExit t :: _ =>
    { s with kernel := kernel, active := Function.update s.active t (s.active t - 1) }
  | _ => { s with kernel := kernel }

/-- The state after a step. A thread can do something when it runs; `sigret` is a system call. -/
def step (s : Signals ι κ) : SignalCall ι → Except Fault (Signals ι κ)
  | .signal c t info => if s.kernel.Runs c then s.signal c t info else .ok s
  | .addBusy t =>
    if s.kernel.Runs t then .ok { s with kernel := s.kernel.modify t Thread.addBusy } else .ok s
  | .subBusy t =>
    if s.kernel.Runs t ∧ (s.kernel.threads t).busy ≠ 0 then do
      let kernel ← s.kernel.run t (·.subBusy (some t) t)
      return { s with kernel := kernel }
    else .ok s
  | .sigret t =>
    if s.kernel.Runs t ∧ (s.kernel.threads t).busy ≠ 0 then
      .ok { s with kernel := (s.kernel.sigret t).1 }
    else .ok s
  | .broker => do
    let kernel ← s.kernel.brokerLoop
    return s.record kernel

/-- Nobody sends a signal that has a handler to another thread outside of calls, and the broker lets
no struck thread return from a handler. -/
def Safe (s : Signals ι κ) : SignalCall ι → Prop
  | .signal c t info => ¬ (s.kernel.Runs c ∧ c ≠ t ∧ (1 ≤ info.signo ∧ info.signo ≤ 31) ∧
      (s.kernel.threads t).busy = 0 ∧ s.kernel.user t info)
  | .broker => s.kernel.brokerSafe = true
  | _ => True

instance (s : Signals ι κ) : DecidablePred s.Safe
  | .signal c t info => inferInstanceAs (Decidable (¬ (s.kernel.Runs c ∧ c ≠ t ∧
      (1 ≤ info.signo ∧ info.signo ≤ 31) ∧ (s.kernel.threads t).busy = 0 ∧
      s.kernel.user t info)))
  | .broker => inferInstanceAs (Decidable (s.kernel.brokerSafe = true))
  | .addBusy _ | .subBusy _ | .sigret _ => .isTrue trivial

/-! ## Steps -/

variable {s s' : Signals ι κ}

def delivery (s : Signals ι κ) : Delivery ι SigInfo :=
  s.kernel.delivery s.accepted s.entered s.active

/-- Between the steps no lock is held, no thread is being aborted, and the broker has proper
requests. -/
structure Quiet (s : Signals ι κ) : Prop where
  unlocked : ∀ t, (s.kernel.threads t).lock = false
  alive : ∀ t, (s.kernel.threads t).aborting = false
  proper : ∀ r ∈ s.kernel.requests, r.Proper

/-- What a step does that returns. -/
structure Fine (s s' : Signals ι κ) : Prop where
  quiet : s'.Quiet
  user : s'.kernel.user = s.kernel.user
  leads : Delivery.Leads s.kernel.user s.delivery s'.delivery

omit [DecidableEq ι] [DecidableEq κ] in
theorem Quiet.frame (h : s.Quiet) (hf : Frame s.kernel s'.kernel) : s'.Quiet where
  unlocked t := (hf.lock t).trans (h.unlocked t)
  alive t := (hf.aborting t).trans (h.alive t)
  proper r hr := (hf.requests r hr).elim (h.proper r) id

omit [DecidableEq κ] in
theorem Fine.refl (h : s.Quiet) : Fine s s := ⟨h, rfl, .refl⟩

variable {c t : ι}

theorem fine_signal (h : s.Quiet) {info : SigInfo} (hr : s.kernel.Runs c)
    (hs : s.Safe (.signal c t info)) : Ensures (· = .divergence) (s.signal c t info) (Fine s) := by
  rw [signal]
  generalize hk0 : (s.kernel.modify c fun x => { x with lock := true }) = k0
  have hd (a e : List (ι × SigInfo)) (n : ι → ℕ) :
      k0.delivery a e n = s.kernel.delivery a e n := by
    rw [← hk0]
    exact delivery_lock true
  have ht (hc : c ≠ t) : k0.threads t = s.kernel.threads t := by
    rw [← hk0, modify_of_ne hc.symm]
  have hu : k0.user = s.kernel.user := by rw [← hk0]; rfl
  have hse : Ensures (· = .divergence) (k0.signal c t info) (Sent k0 t info) := by
    refine sent_of_safe ?_ (fun hc => ?_) fun ⟨hc, ha, hb, hi⟩ => ?_
    · rw [← hk0]
      exact hr.1
    · rw [ht hc]
      exact h.unlocked t
    rw [ht hc] at hb
    rw [hu] at hi
    exact hs ⟨hr, hc, ha, hb, hi⟩
  refine hse.bind fun ⟨k', err⟩ ⟨hf, ho⟩ => .ok ?_
  have hf' : Frame s.kernel (k'.modify c fun x => { x with lock := false }) :=
    .unlock (h.unlocked c) (hk0 ▸ hf)
  have hu' : k'.user = s.kernel.user := hf.user.trans hu
  refine ⟨h.frame hf', hf'.user, ?_⟩
  rw [delivery, delivery, delivery_lock]
  obtain ⟨he, hp⟩ | ⟨hn, hl⟩ := ho
  · change err = .none at he
    have hpe : (k0.threads t).pendingSignals = (s.kernel.threads t).pendingSignals :=
      congrFun (congrArg Delivery.pending (hd s.accepted s.entered s.active)) t
    rw [hp, hd, hpe]
    refine .single ?_
    by_cases hi : s.kernel.user t info
    · rw [if_pos ⟨he, hu' ▸ hi⟩]
      exact .accept t info
    · rw [if_neg fun h => hi (hu' ▸ h.2)]
      exact .pend t info hi
  · have hl' := hl s.accepted s.entered s.active
    rw [hu, hd] at hl'
    rw [if_neg fun h => hn ⟨h.1, hf.user ▸ h.2⟩]
    exact hl'

theorem fine_subBusy (h : s.Quiet) (hr : s.kernel.Runs t) :
    Ensures (· = .divergence) (s.kernel.run t (·.subBusy (some t) t)) fun kernel =>
      Fine s { s with kernel := kernel } := by
  have hp : (s.kernel.modify t fun x => { x with lock := true }).position t = .running :=
    hr.1
  have ha : ((s.kernel.modify t fun x => { x with lock := true }).threads t).aborting =
      false := by
    rw [modify_self]
    exact h.alive t
  refine (follows_subBusy hp ha).bind fun k' hf => .ok ?_
  have hfr : Frame s.kernel (k'.modify t fun x => { x with lock := false }) :=
    .unlock (h.unlocked t) hf.frame
  refine ⟨h.frame hfr, hfr.user, ?_⟩
  have hl := hf.leads s.accepted s.entered s.active
  rw [delivery_lock] at hl
  rw [delivery, delivery, delivery_lock]
  exact hl

omit [DecidableEq κ] in
theorem fine_sigret (h : s.Quiet) (hu : s.kernel.Runs t) :
    Fine s { s with kernel := (s.kernel.sigret t).1 } := by
  rw [sigret]
  split_ifs
  · have hf : Frame s.kernel (s.kernel.broker (.signalExit t)) := by
      refine ⟨fun _ => rfl, fun _ => rfl, rfl, fun r hr => ?_⟩
      obtain hr | hr := mem_append.mp hr
      · exact .inl hr
      · exact .inr (mem_singleton.mp hr ▸ trivial)
    refine ⟨h.frame (hf.moveTo .returning), rfl, .single ?_⟩
    rw [delivery, delivery, delivery_moveTo, delivery_broker_turn rfl]
    exact .sigret t (congrArg Position.phase hu.1)
  · exact .refl h

theorem fine_broker (h : s.Quiet) (ha : s.Safe .broker) :
    Ensures (· = .divergence) s.kernel.brokerLoop fun kernel => Fine s (s.record kernel) := by
  have hp := h.proper
  have ha : s.kernel.brokerSafe = true := ha
  rw [brokerSafe] at ha
  rw [brokerLoop]
  cases he : s.kernel.requests with
  | nil =>
    have hc : s.record s.kernel = s := by rw [record, he]
    exact .ok (hc.symm ▸ .refl h)
  | cons request rest =>
    rw [he] at hp ha
    have hf : Frame s.kernel { s.kernel with requests := rest } :=
      ⟨fun _ => rfl, fun _ => rfl, rfl, fun r hr => .inl (he ▸ mem_cons_of_mem _ hr)⟩
    have hq : s.delivery.queue = (request :: rest).filterMap Request.turn := by
      rw [← he]
      rfl
    cases request with
    | cleanup t => exact absurd (hp _ mem_cons_self) id
    | exitThreaded p =>
      refine .ok ?_
      rw [record, he]
      have hex : Frame { s.kernel with requests := rest }
          (exitThreadedBroker { s.kernel with requests := rest } p) :=
        ⟨fun _ => rfl, fun _ => rfl, user_modifyProcess fun _ => rfl, fun _ => .inl⟩
      have hf' := hf.trans hex
      refine ⟨h.frame hf', hf'.user, ?_⟩
      have hs : s.delivery = (exitThreadedBroker { s.kernel with requests := rest }
          p).delivery s.accepted s.entered s.active := Delivery.ext rfl rfl rfl rfl rfl rfl hq
      exact hs ▸ .refl
    | signalEnter t info waiter =>
      obtain rfl : waiter = some t := hp _ mem_cons_self
      obtain ⟨k', hk', hn, hd⟩ :=
        signalEnter_spec (k := { s.kernel with requests := rest }) (h.unlocked t)
      have hf' := hf.trans hn
      dsimp only
      rw [hk']
      refine .ok ?_
      rw [record, he]
      refine ⟨h.frame hf', hf'.user, .single ?_⟩
      rw [delivery, delivery, hd]
      exact .enter t info (rest.filterMap Request.turn) hq
    | signalExit t =>
      have ht : ¬ Struck { s.kernel with requests := rest } t := of_decide_eq_true ha
      have hex := signalExit_spec (k := { s.kernel with requests := rest }) (h.unlocked t) ht
      refine hex.mono fun k' ⟨hl, l, hre, hd⟩ => ?_
      rw [record, he]
      have hf' := hf.trans hl
      refine ⟨h.frame hf', hf'.user, ?_⟩
      rw [delivery, delivery, hd]
      refine .head (.exit t (rest.filterMap Request.turn) hq) ?_
      obtain rfl | ⟨info, hla, hi⟩ := hre
      · have hs : update s.delivery.pending t (s.kernel.threads t).pendingSignals =
            s.delivery.pending := update_eq_self t s.delivery.pending
        change Delivery.Leads _ _ { s.delivery with
          active := update s.active t (s.active t - 1)
          pending := update s.delivery.pending t (s.kernel.threads t).pendingSignals
          inSignal := update s.delivery.inSignal t false
          phase := update s.delivery.phase t .running
          queue := rest.filterMap Request.turn }
        rw [hs]
        exact .refl
      · exact .single (.discard t l info hla hi)

variable {a : SignalCall ι}

theorem fine_step (h : s.Quiet) (hs : s.Safe a) :
    Ensures (· = .divergence) (s.step a) (Fine s) := by
  cases a with
  | signal c t info =>
    exact .ite (fun hr => fine_signal h hr hs) fun _ => .ok (.refl h)
  | addBusy t =>
    refine .ite (fun _ => .ok ⟨h.frame (.modify rfl rfl), rfl, ?_⟩) fun _ => .ok (.refl h)
    rw [delivery, delivery, delivery_quiet rfl rfl]
    exact .refl
  | subBusy t =>
    refine .ite (fun hr => ?_) fun _ => .ok (.refl h)
    exact (fine_subBusy h hr.1).bind fun kernel hf => .ok hf
  | sigret t => exact .ite (fun hr => .ok (fine_sigret h hr.1)) fun _ => .ok (.refl h)
  | broker => exact (fine_broker h hs).bind fun kernel hf => .ok hf

/-- The start of a run: no thread is in a call of the kernel that waits, and the broker has nothing
to do. -/
structure Start (s : Signals ι κ) : Prop where
  quiet : s.Quiet
  running : ∀ t, s.kernel.position t = .running
  idle : s.kernel.requests = []
  active : ∀ t, s.active t = (s.kernel.threads t).inSignal.toNat
  account : ∀ t info, s.kernel.user t info → s.accepted.count (t, info) =
    (s.kernel.threads t).pendingSignals.count info + s.entered.count (t, info)

omit [DecidableEq κ] in
theorem Start.sound (h : s.Start) : s.delivery.Sound s.kernel.user := by
  have hq : s.delivery.queue = [] := by
    rw [delivery, Kernel.delivery]
    rw [h.idle, filterMap_nil]
  refine ⟨fun t info hi => ?_, fun t => ?_, fun t ht => ?_, fun t => ?_⟩
  · rw [hq, count_nil]
    exact h.account t info hi
  · rw [hq, countP_nil, Nat.zero_add]
    exact h.active t
  · rw [hq] at ht
    exact absurd rfl ht
  · rw [hq]
    exact (congrArg (Phase.exits ∘ Position.phase) (h.running t)).symm

theorem reach_sound {s0 : Signals ι κ} (h0 : s0.Start) (hr : Reach step Safe s0 s) :
    s.Quiet ∧ s.delivery.Sound s.kernel.user := by
  refine Reach.invariant (P := fun s => s.Quiet ∧ s.delivery.Sound s.kernel.user)
    ⟨h0.quiet, h0.sound⟩ (fun s a s' hs ha ht => ?_) hr
  have hf := (fine_step hs.1 ha).of_ok ht
  exact ⟨hf.quiet, hf.user ▸ hs.2.leads hf.leads⟩

theorem step_divergence (h : s.Quiet) (hn : ¬ s.Safe a) : s.step a = .error .divergence := by
  cases a with
  | signal c t info =>
    obtain ⟨hr, hc, ha, hb, hi⟩ := not_not.mp hn
    have ht : (s.kernel.modify c fun x => { x with lock := true }).threads t =
        s.kernel.threads t := modify_of_ne hc.symm
    have hd : (s.kernel.modify c fun x => { x with lock := true }).signal c t info =
        .error .divergence :=
      signal_divergence ha hc (ht.symm ▸ h.unlocked t) (ht.symm ▸ hb) hi
    rw [step, if_pos hr, signal, hd, error_bind]
  | addBusy t => exact absurd trivial hn
  | subBusy t => exact absurd trivial hn
  | sigret t => exact absurd trivial hn
  | broker =>
    rw [Safe, brokerSafe] at hn
    rw [step, brokerLoop]
    cases he : s.kernel.requests with
    | nil => rw [he] at hn; exact absurd rfl hn
    | cons request rest =>
      rw [he] at hn
      cases request with
      | signalExit t =>
        have hs : s.kernel.Struck t := by simpa using hn
        dsimp only
        rw [signalExit_divergence (k := { s.kernel with requests := rest }) (h.unlocked t)
          hs, error_bind]
      | cleanup t => exact absurd rfl hn
      | exitThreaded p => exact absurd rfl hn
      | signalEnter t info waiter => exact absurd rfl hn

/-- **The delivery of signals.** In every run of safe steps, each signal that was accepted and has a
handler waits, is about to enter its handler or has entered it, as often as it was accepted, and a
thread is in one handler at most. -/
theorem delivered {s₀ : Signals ι κ} (h₀ : s₀.Start) (hrun : Reach step Safe s₀ s) :
    (∀ a, s.step a = .error .divergence ↔ ¬ s.Safe a) ∧
    (∀ t info, s.kernel.user t info → s.accepted.count (t, info) =
      (s.kernel.threads t).pendingSignals.count info + s.delivery.queue.count (.enter t info) +
        s.entered.count (t, info)) ∧
    ∀ t, s.active t ≤ 1 := by
  obtain ⟨hqu, hso⟩ := reach_sound h₀ hrun
  refine ⟨fun a => ⟨fun hdiv hsa => ?_, step_divergence hqu⟩, hso.account, hso.active_le_one⟩
  exact (fine_step hqu hsa).ne_error rfl hdiv

/-- Two threads of a process that has handlers for all signals. -/
def twoThreads : Signals (Fin 2) Unit where
  kernel := {
    threads := fun _ => {}
    parent := fun _ => ()
    processes := fun _ => { threadCounter := 2, threads := [0, 1], sigaction := fun _ => .user } }

theorem twoThreads_start : twoThreads.Start where
  quiet := ⟨fun _ => rfl, fun _ => rfl, fun _ hr => nomatch hr⟩
  running _ := rfl
  idle := rfl
  active _ := rfl
  account _ _ _ := rfl

theorem delivered_once : ∃ s ∈ execute step Safe twoThreads
    [.addBusy 1, .signal 0 1 ⟨10, 7⟩, .subBusy 1, .broker, .addBusy 1, .sigret 1, .broker],
    s.accepted = [(1, ⟨10, 7⟩)] ∧ s.entered = [(1, ⟨10, 7⟩)] ∧
      (s.kernel.threads 1).inSignal = false ∧ ∀ t, s.active t ≤ 1 := by
  refine exists_execute (P := fun s => s.accepted = [(1, ⟨10, 7⟩)] ∧ s.entered = [(1, ⟨10, 7⟩)] ∧
    (s.kernel.threads 1).inSignal = false) (by decide) ?_
  rintro s hs ⟨hac, hen, hout⟩
  exact ⟨hac, hen, hout, (delivered twoThreads_start hs).2.2⟩

theorem not_delivered_deadlock :
    twoThreads.step (.signal 0 1 ⟨10, 7⟩) = .error .divergence ∧
    ∃ s ∈ execute step (fun _ _ => True) twoThreads
      [.addBusy 1, .signal 0 1 ⟨10, 7⟩, .subBusy 1, .broker, .addBusy 1, .signal 0 1 ⟨12, 8⟩,
        .sigret 1],
      s.accepted = [(1, ⟨10, 7⟩), (1, ⟨12, 8⟩)] ∧ s.step .broker = .error .divergence := by
  decide

end Signals

end AexKernel.Proc
