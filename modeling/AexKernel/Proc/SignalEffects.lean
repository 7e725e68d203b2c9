import AexKernel.Proc.Delivery
import AexKernel.Proc.ThreadLife

/-! # The functions for signals, as steps of the delivery (`ipc/thread.cpp`)

What the kernel knows of the delivery of signals (`Kernel.delivery`), and for each function that
works on signals what it does to it. -/

namespace AexKernel.Proc

open Library List Function Thread

variable {ι κ : Type}

def Position.phase : Position ι → Phase
  | .running => .running
  | .entering => .entering
  | .returning => .returning
  | .joining _ _ | .leaving => .away

def Request.turn : Request ι κ → Option (Turn ι SigInfo)
  | .signalEnter t info _ => some (.enter t info)
  | .signalExit t => some (.exit t)
  | .cleanup _ | .exitThreaded _ => none

/-- A thread waits for its own handler only, and no thread is cleaned up. -/
def Request.Proper : Request ι κ → Prop
  | .signalEnter t _ waiter => waiter = some t
  | .signalExit _ | .exitThreaded _ => True
  | .cleanup _ => False

namespace Kernel

def user (k : Kernel ι κ) (t : ι) (info : SigInfo) : Prop :=
  (k.process t).sigaction info.signo = .user
deriving Decidable

/-- Whether a signal with a handler waits for a thread that leaves its last call. -/
def Struck (k : Kernel ι κ) (t : ι) : Prop :=
  (k.threads t).busy ≤ 1 ∧ ∃ info ∈ (k.threads t).pendingSignals.getLast?, k.user t info
deriving Decidable

/-! ## What the kernel knows of the delivery -/

/-- What the kernel knows of the delivery, with what is recorded besides. -/
def delivery (k : Kernel ι κ) (accepted entered : List (ι × SigInfo)) (active : ι → ℕ) :
    Delivery ι SigInfo where
  accepted := accepted
  entered := entered
  active := active
  pending t := (k.threads t).pendingSignals
  inSignal t := (k.threads t).inSignal
  phase t := (k.position t).phase
  queue := k.requests.filterMap Request.turn

variable [DecidableEq ι] {k k' : Kernel ι κ} {t c : ι} {f : Thread ι → Thread ι}
  {a e : List (ι × SigInfo)} {n : ι → ℕ} {cur : Option ι} {info : SigInfo}

def setPending (k : Kernel ι κ) (t : ι) (l : List SigInfo) : Kernel ι κ :=
  k.modify t fun x => { x with pendingSignals := l }

variable {g : Thread ι → Thread ι}

theorem modify_congr (h : f (k.threads t) = g (k.threads t)) : k.modify t f = k.modify t g := by
  rw [modify, modify, h]

theorem modify_modify : (k.modify t f).modify t g = k.modify t fun x => g (f x) := by
  rw [modify, modify_self, modify, modify, update_idem]

theorem threads_modify_congr (h : k'.threads = k.threads) :
    (k'.modify t f).threads = (k.modify t f).threads := by
  rw [modify, modify, h]

theorem modify_comm (h : c ≠ t) : (k.modify c f).modify t g = (k.modify t g).modify c f := by
  rw [modify, modify_of_ne h.symm, modify, modify, modify_of_ne h, modify, update_comm h.symm]

theorem modify_eq_self (h : f (k.threads t) = k.threads t) : k.modify t f = k := by
  rw [modify, h, update_eq_self]

theorem delivery_modify :
    (k.modify t f).delivery a e n =
      { k.delivery a e n with
        pending := update (k.delivery a e n).pending t
          (f (k.threads t)).pendingSignals
        inSignal := update (k.delivery a e n).inSignal t
          (f (k.threads t)).inSignal } := by
  refine Delivery.ext rfl rfl rfl (funext fun u => ?_) (funext fun u => ?_) rfl rfl
  · change ((k.modify t f).threads u).pendingSignals =
      update (fun u => (k.threads u).pendingSignals) t _ u
    by_cases hu : u = t
    · subst hu
      rw [modify_self, update_self]
    · rw [modify_of_ne hu, update_of_ne hu]
  change ((k.modify t f).threads u).inSignal = update (fun u => (k.threads u).inSignal) t _ u
  by_cases hu : u = t
  · subst hu
    rw [modify_self, update_self]
  · rw [modify_of_ne hu, update_of_ne hu]

theorem delivery_pending (hi : (f (k.threads t)).inSignal = (k.threads t).inSignal) :
    (k.modify t f).delivery a e n =
      { k.delivery a e n with
        pending := update (k.delivery a e n).pending t (f (k.threads t)).pendingSignals } := by
  rw [delivery_modify, hi]
  exact Delivery.ext rfl rfl rfl rfl (update_eq_self t _) rfl rfl

theorem delivery_inSignal (inSignal : Bool) :
    (k.modify t fun x => { x with inSignal := inSignal }).delivery a e n =
      { k.delivery a e n with inSignal := update (k.delivery a e n).inSignal t inSignal } := by
  rw [delivery_modify]
  exact Delivery.ext rfl rfl rfl (update_eq_self t _) rfl rfl rfl

theorem delivery_setPending (l : List SigInfo) :
    (k.setPending t l).delivery a e n =
      { k.delivery a e n with pending := update (k.delivery a e n).pending t l } :=
  delivery_pending rfl

theorem delivery_quiet (hp : (f (k.threads t)).pendingSignals = (k.threads t).pendingSignals)
    (hi : (f (k.threads t)).inSignal = (k.threads t).inSignal) :
    (k.modify t f).delivery a e n = k.delivery a e n := by
  rw [delivery_pending hi, hp]
  exact Delivery.ext rfl rfl rfl (update_eq_self t _) rfl rfl rfl

theorem delivery_lock (lock : Bool) :
    (k.modify t fun x => { x with lock := lock }).delivery a e n = k.delivery a e n :=
  delivery_quiet rfl rfl

/-- What the functions for signals leave as it is. -/
structure Frame (k k' : Kernel ι κ) : Prop where
  lock : ∀ u, (k'.threads u).lock = (k.threads u).lock
  aborting : ∀ u, (k'.threads u).aborting = (k.threads u).aborting
  user : k'.user = k.user
  requests : ∀ r ∈ k'.requests, r ∈ k.requests ∨ r.Proper

omit [DecidableEq ι] in
theorem Frame.refl (k : Kernel ι κ) : Frame k k := ⟨fun _ => rfl, fun _ => rfl, rfl, fun _ => .inl⟩

variable {k'' k1 : Kernel ι κ}

omit [DecidableEq ι] in
theorem Frame.trans (h : Frame k k') (h' : Frame k' k'') : Frame k k'' where
  lock u := (h'.lock u).trans (h.lock u)
  aborting u := (h'.aborting u).trans (h.aborting u)
  user := h'.user.trans h.user
  requests r hr := (h'.requests r hr).elim (h.requests r) .inr

theorem Frame.modify (hl : (f (k.threads t)).lock = (k.threads t).lock)
    (ha : (f (k.threads t)).aborting = (k.threads t).aborting) :
    Frame k (k.modify t f) := by
  refine ⟨fun u => ?_, fun u => ?_, rfl, fun _ => .inl⟩ <;> by_cases hu : u = t
  · subst hu
    rw [modify_self, hl]
  · rw [modify_of_ne hu]
  · subst hu
    rw [modify_self, ha]
  · rw [modify_of_ne hu]

theorem Frame.moveTo (h : Frame k k') (pos : Position ι) :
    Frame k (k'.moveTo (some t) pos) :=
  ⟨h.lock, h.aborting, h.user, h.requests⟩

/-- The kernel moves on by steps of the delivery. -/
structure Follows (k k' : Kernel ι κ) : Prop where
  frame : Frame k k'
  leads : ∀ accepted entered active, Delivery.Leads k.user (k.delivery accepted entered active)
    (k'.delivery accepted entered active)

theorem Follows.refl (k : Kernel ι κ) : Follows k k := ⟨.refl k, fun _ _ _ => .refl⟩

theorem Follows.trans (h : Follows k k') (h' : Follows k' k'') :
    Follows k k'' where
  frame := h.frame.trans h'.frame
  leads a e n := by
    have hl := h'.leads a e n
    rw [h.frame.user] at hl
    exact (h.leads a e n).trans hl

theorem Follows.modify (hl : (f (k.threads t)).lock = (k.threads t).lock)
    (ha : (f (k.threads t)).aborting = (k.threads t).aborting)
    (hp : (f (k.threads t)).pendingSignals = (k.threads t).pendingSignals)
    (hi : (f (k.threads t)).inSignal = (k.threads t).inSignal) : Follows k (k.modify t f) where
  frame := .modify hl ha
  leads a e n := by
    rw [delivery_quiet hp hi]
    exact .refl

/-- A process exits: no thread is changed, but the current one may be left waiting for its end. -/
structure Aside (cur : Option ι) (k k' : Kernel ι κ) : Prop where
  threads : k'.threads = k.threads
  user : k'.user = k.user
  requests : ∀ r ∈ k'.requests, r ∈ k.requests ∨ r.Proper
  delivery : (∀ accepted entered active, k'.delivery accepted entered active =
      k.delivery accepted entered active) ∨
    ∃ c, cur = some c ∧ k.position c = .running ∧ ∀ accepted entered active,
      k'.delivery accepted entered active =
        { k.delivery accepted entered active with
          phase := Function.update (k.delivery accepted entered active).phase c .away }

theorem Aside.follows (h : Aside cur k k') : Follows k k' where
  frame := ⟨fun u => by rw [h.threads], fun u => by rw [h.threads], h.user, h.requests⟩
  leads a e n := by
    obtain he | ⟨c, -, hc, he⟩ := h.delivery
    · rw [he]
      exact .refl
    · rw [he]
      exact .single (.leave c (congrArg Position.phase hc))

section

omit [DecidableEq ι]

theorem user_modifyProcess [DecidableEq κ] {p : κ} {g : Process ι → Process ι}
    (hg : ∀ x, (g x).sigaction = x.sigaction) : (k.modifyProcess p g).user = k.user := by
  funext t info
  change (Process.sigaction (update k.processes p (g (k.processes p)) (k.parent t)) _ = _) = _
  by_cases hp : k.parent t = p
  · rw [hp, update_self, hg, ← hp]
    rfl
  · rw [update_of_ne hp]
    rfl

variable {request : Request ι κ}

theorem delivery_broker (ht : request.turn = none) :
    (k.broker request).delivery a e n = k.delivery a e n := by
  refine Delivery.ext rfl rfl rfl rfl rfl rfl ?_
  change (k.requests ++ [request]).filterMap Request.turn = _
  rw [filterMap_append, filterMap_cons, ht, filterMap_nil, append_nil]
  rfl

theorem delivery_broker_turn {turn : Turn ι SigInfo} (ht : request.turn = some turn) :
    (k.broker request).delivery a e n =
      { k.delivery a e n with queue := (k.delivery a e n).queue ++ [turn] } := by
  refine Delivery.ext rfl rfl rfl rfl rfl rfl ?_
  change (k.requests ++ [request]).filterMap Request.turn = _
  rw [filterMap_append, filterMap_cons, ht, filterMap_nil]
  rfl

end

theorem delivery_moveTo (pos : Position ι) :
    (k.moveTo (some t) pos).delivery a e n =
      { k.delivery a e n with phase := update (k.delivery a e n).phase t pos.phase } := by
  refine Delivery.ext rfl rfl rfl rfl rfl (funext fun u => ?_) rfl
  change (update k.position t pos u).phase =
    update (fun u => (k.position u).phase) t pos.phase u
  by_cases hu : u = t
  · subst hu
    rw [update_self, update_self]
  · rw [update_of_ne hu, update_of_ne hu]

theorem acquire_broker (hl : (k.threads t).lock = false) :
    k.acquire none t = .ok (k.modify t fun x => { x with lock := true }) := by
  rw [acquire, hl]
  rfl

theorem release_broker (hl : (k.threads t).lock = true) :
    k.release none t = .ok (k.modify t fun x => { x with lock := false }) := by
  rw [release, hl]
  rfl

theorem Frame.unlock (hl : (k.threads t).lock = false)
    (h : Frame (k.modify t fun x => { x with lock := true }) k1) :
    Frame k (k1.modify t fun x => { x with lock := false }) where
  lock u := by
    by_cases hu : u = t
    · subst hu
      rw [modify_self, hl]
    · rw [modify_of_ne hu, h.lock, modify_of_ne hu]
  aborting u := by
    have ha := h.aborting u
    by_cases hu : u = t
    · subst hu
      rw [modify_self] at ha ⊢
      exact ha
    · rw [modify_of_ne hu] at ha ⊢
      exact ha
  user := h.user
  requests := h.requests

variable [DecidableEq κ]

section

variable (hcu : ∀ c, cur = some c → k.position c = .running)
include hcu

theorem aside_exitProcess {p : κ} {st : ℤ} :
    Ensures (· = .divergence) (k.exitProcess cur p st) (Aside cur k) := by
  rw [exitProcess]
  refine .ite (fun _ => .ok ⟨rfl, rfl, fun _ => .inl, .inl fun _ _ _ => rfl⟩) fun _ => ?_
  generalize hk1 : (k.modifyProcess p fun x => { x with exiting := true, retCode := st }).broker
    (.exitThreaded p) = k1
  have ht : k1.threads = k.threads := by rw [← hk1]; rfl
  have hu : k1.user = k.user := by
    rw [← hk1]
    change (k.modifyProcess p fun x => { x with exiting := true, retCode := st }).user = _
    exact user_modifyProcess fun _ => rfl
  have he : ∀ r ∈ k1.requests, r ∈ k.requests ∨ r.Proper := by
    intro r hr
    rw [← hk1] at hr
    obtain hr | hr := mem_append.mp hr
    · exact .inl hr
    · exact .inr (mem_singleton.mp hr ▸ trivial)
  have hd (a e : List (ι × SigInfo)) (n : ι → ℕ) : k1.delivery a e n = k.delivery a e n := by
    rw [← hk1, delivery_broker rfl]
    rfl
  have ha : Aside cur k k1 := ⟨ht, hu, he, .inl hd⟩
  cases cur with
  | none => exact .ok ha
  | some c =>
    refine .ite (fun _ => ?_) fun _ => .ok ha
    rw [yieldUntilAborting]
    refine .ite (fun _ => .ok ha) fun _ => .ite (fun _ => .error (by simp)) fun _ => .ok ?_
    refine ⟨ht, hu, he, .inr ⟨c, rfl, hcu c rfl, fun a e n => ?_⟩⟩
    rw [delivery_moveTo, hd]
    rfl

theorem aside_handleSignal (hi : ¬ k.user t info) :
    Ensures (· = .divergence) (k.handleSignal cur t info) (Aside cur k) := by
  rw [handleSignal]
  cases ha : (k.process t).sigaction info.signo with
  | core => exact aside_exitProcess hcu
  | term => exact aside_exitProcess hcu
  | stop => exact .error (by simp)
  | cont => exact .error (by simp)
  | user => exact absurd ha hi
  | ign => exact .ok ⟨rfl, rfl, fun _ => .inl, .inl fun _ _ _ => rfl⟩
  | dfl => exact .ok ⟨rfl, rfl, fun _ => .inl, .inl fun _ _ _ => rfl⟩

end

variable {l : List SigInfo}

omit [DecidableEq κ] in
theorem follows_enterOrPend (hu : k.position t = .running)
    (hp : (k.threads t).pendingSignals = l ++ [info]) :
    Ensures (· = .divergence) ((k.setPending t l).enterOrPend (some t) t info)
      (Follows k) := by
  have hl : ∀ a e n, (k.delivery a e n).pending t = l ++ [info] := fun _ _ _ => hp
  rw [enterOrPend]
  refine .ite (fun hf => ?_) fun _ => .ok ?_
  · rw [setPending, modify_self] at hf
    have hi : (k.threads t).inSignal = false := Bool.eq_false_iff.mpr hf.2
    have hfr : Frame k ((k.setPending t l).modify t fun x =>
        { x with inSignal := true }) :=
      (Frame.modify rfl rfl).trans (Frame.modify rfl rfl)
    rw [enterSignal]
    refine .ite (fun _ => .error (by simp)) fun _ => .ok ⟨⟨?_, ?_, rfl, fun r hr => ?_⟩, ?_⟩
    · exact hfr.lock
    · exact hfr.aborting
    · obtain hr | hr := mem_append.mp hr
      · exact .inl hr
      · exact .inr (mem_singleton.mp hr ▸ rfl)
    intro a e n
    refine .single ?_
    rw [delivery_moveTo, delivery_broker_turn rfl, delivery_modify, setPending, modify_self,
      delivery_modify]
    rw [update_idem, update_idem]
    exact .take t l info (hl a e n) (congrArg Position.phase hu) hi
  · -- the signal is back where it was
    have hs : ((k.setPending t l).modify t fun x =>
        { x with pendingSignals := x.pendingSignals ++ [info] }) = k := by
      rw [setPending, modify_modify]
      exact modify_eq_self (by rw [← hp])
    rw [hs]
    exact .refl k

omit [DecidableEq κ] in
theorem follows_discard (hp : (k.threads t).pendingSignals = l ++ [info]) (hi : ¬ k.user t info) :
    Follows k (k.setPending t l) where
  frame := .modify rfl rfl
  leads a e n := by
    have hd := Delivery.Step.discard (d := k.delivery a e n) t l info hp hi
    refine .single ?_
    rw [delivery_setPending]
    exact hd

theorem handlePending_of_nil (h : (k.threads t).pendingSignals = []) :
    k.handlePending cur t = .ok k := by
  rw [handlePending, h]
  rfl

theorem handlePending_of_append (h : (k.threads t).pendingSignals = l ++ [info]) :
    k.handlePending cur t =
      (k.setPending t l).handleSignal cur t info := by
  have hm : (k.modify t fun x => { x with pendingSignals := x.pendingSignals.dropLast }) =
      k.setPending t l :=
    modify_congr (by rw [h, dropLast_concat])
  rw [handlePending, h, getLast?_concat]
  exact congrArg (fun k : Kernel ι κ => k.handleSignal cur t info) hm

theorem follows_subBusy (hr : k.position t = .running) (ha : (k.threads t).aborting = false) :
    Ensures (· = .divergence) (k.subBusy (some t) t) (Follows k) := by
  have hcu : ∀ c, some t = some c → k.position c = .running := fun c hc =>
    Option.some.inj hc ▸ hr
  rw [subBusy]
  have hl : Follows k (k.modify t fun x => { x with busy := x.busy - 1 }) :=
    .modify rfl rfl rfl rfl
  generalize hk1 : (k.modify t fun x => { x with busy := x.busy - 1 }) = k1 at hl ⊢
  have hp : k1.position = k.position := by rw [← hk1]; rfl
  refine .ite (fun _ => .ok hl) fun _ => .ite (fun hex => ?_) fun _ => ?_
  · rw [hl.frame.aborting, ha] at hex
    exact absurd hex.2 Bool.false_ne_true
  cases he : (k1.threads t).pendingSignals using reverseRecOn with
  | nil =>
    rw [handlePending_of_nil he]
    exact .ok hl
  | append_singleton l info =>
    rw [handlePending_of_append he]
    by_cases hi : k1.user t info
    · have hh : (k1.setPending t l).handleSignal (some t) t
          info = (k1.setPending t l).enterOrPend (some t) t
            info := by
        have hac : ((k1.setPending t l).process t).sigaction info.signo = .user := hi
        rw [handleSignal, hac]
        exact if_pos rfl
      rw [hh]
      exact (follows_enterOrPend (hp ▸ hr) he).mono fun _ h => hl.trans h
    · have hd := hl.trans (follows_discard he hi)
      have hin2 : ¬ (k1.setPending t l).user t info := hi
      refine (aside_handleSignal (fun c hc => ?_) hin2).mono fun _ h => hd.trans h.follows
      exact hp ▸ hcu c hc

/-- The signals that wait at a thread are the same, but for the last one if it has no handler. -/
def Remains (k : Kernel ι κ) (t : ι) (l : List SigInfo) : Prop :=
  l = (k.threads t).pendingSignals ∨
    ∃ info, (k.threads t).pendingSignals = l ++ [info] ∧ ¬ k.user t info

theorem subBusy_broker (hs : ¬ k.Struck t) :
    Ensures (· = .divergence) (k.subBusy none t) fun k' => Frame k k' ∧
      ∃ l, k.Remains t l ∧ ∀ a e n, k'.delivery a e n =
        { k.delivery a e n with pending := update (k.delivery a e n).pending t l } := by
  rw [subBusy]
  have hf : Frame k (k.modify t fun x => { x with busy := x.busy - 1 }) := .modify rfl rfl
  have hd : ∀ a e n, (k.modify t fun x => { x with busy := x.busy - 1 }).delivery a e n =
      { k.delivery a e n with
        pending := update (k.delivery a e n).pending t (k.threads t).pendingSignals } :=
    fun a e n => delivery_pending rfl
  have hb : ((k.modify t fun x => { x with busy := x.busy - 1 }).threads t).busy =
      (k.threads t).busy - 1 := by rw [modify_self]
  have hk : ((k.modify t fun x => { x with busy := x.busy - 1 }).threads t).pendingSignals =
      (k.threads t).pendingSignals := by rw [modify_self]
  generalize (k.modify t fun x => { x with busy := x.busy - 1 }) = k1 at hf hd hb hk ⊢
  have hl : Frame k k1 ∧ ∃ l, k.Remains t l ∧ ∀ a e n, k1.delivery a e n =
      { k.delivery a e n with pending := update (k.delivery a e n).pending t l } :=
    ⟨hf, _, .inl rfl, hd⟩
  refine .ite (fun _ => .ok hl) fun hz => .ite (fun hex => nomatch hex.1) fun _ => ?_
  cases hp : (k1.threads t).pendingSignals using reverseRecOn with
  | nil =>
    rw [handlePending_of_nil hp]
    exact .ok hl
  | append_singleton l info =>
    have ha : (k.threads t).pendingSignals = l ++ [info] := hk ▸ hp
    have hi : ¬ k.user t info := fun hu => hs ⟨by omega, info, by
      rw [ha, getLast?_concat]; rfl, hu⟩
    rw [handlePending_of_append hp]
    have hin2 : ¬ (k1.setPending t l).user t info := by
      change ¬ k1.user t info
      rw [hf.user]
      exact hi
    have has : Ensures (· = .divergence) ((k1.setPending t l).handleSignal none t info)
        (Aside none (k1.setPending t l)) :=
      aside_handleSignal (fun c hc => nomatch hc) hin2
    refine has.mono fun k2 h => ⟨?_, l, .inr ⟨info, ha, hi⟩, fun a e n => ?_⟩
    · exact (hf.trans (.modify rfl rfl)).trans h.follows.frame
    obtain he | ⟨c, hc, -⟩ := h.delivery
    · rw [he, delivery_setPending, hd]
      rw [update_idem]
    · cases hc

theorem signalExit_spec (hl : (k.threads t).lock = false) (ht : ¬ k.Struck t) :
    Ensures (· = .divergence) (k.signalExit t) fun k' => Frame k k' ∧
      ∃ l, k.Remains t l ∧ ∀ a e n, k'.delivery a e n =
        { k.delivery a e n with
          pending := update (k.delivery a e n).pending t l
          inSignal := update (k.delivery a e n).inSignal t false
          phase := update (k.delivery a e n).phase t .running } := by
  have hs : ((k.modify t fun x => { x with lock := true }).threads t) =
      { k.threads t with lock := true } := modify_self
  have hst1 : ¬ (k.modify t fun x => { x with lock := true }).Struck t := by
    rw [Struck, hs]
    exact ht
  rw [signalExit, acquire_broker hl, ok_bind]
  refine (subBusy_broker hst1).bind fun k1 ⟨hf, l, hr, hd⟩ => ?_
  have ho : ((k1.modify t fun x => { x with inSignal := false }).threads t).lock = true := by
    rw [modify_self]
    exact (hf.lock t).trans (congrArg Thread.lock hs)
  dsimp only
  rw [release_broker ho, ok_bind]
  refine .ok ⟨?_, l, ?_, fun a e n => ?_⟩
  · have he : Frame k1 (k1.modify t fun x => { x with inSignal := false }) := .modify rfl rfl
    exact (Frame.unlock hl (hf.trans he)).moveTo _
  · rw [Remains, hs] at hr
    exact hr
  · rw [delivery_moveTo, delivery_lock, delivery_inSignal, hd, delivery_lock]
    rfl

omit [DecidableEq κ] in
theorem signalEnter_spec (hl : (k.threads t).lock = false) :
    ∃ k', k.signalEnter t (some t) = .ok k' ∧ Frame k k' ∧
      ∀ a e n, k'.delivery a e n =
        { k.delivery a e n with phase := update (k.delivery a e n).phase t .running } := by
  rw [signalEnter, acquire_broker hl, ok_bind]
  have ho : (((k.modify t fun x => { x with lock := true }).modify t fun x =>
      { x with status := .runnable }).threads t).lock = true := by
    rw [modify_self, modify_self]
  have he : Frame (k.modify t fun x => { x with lock := true })
      ((k.modify t fun x => { x with lock := true }).modify t fun x =>
        { x with status := .runnable }) := .modify rfl rfl
  dsimp only
  rw [release_broker ho, ok_bind]
  refine ⟨_, rfl, (Frame.unlock hl he).moveTo _, fun a e n => ?_⟩
  have hs : ((k.modify t fun x => { x with lock := true }).modify t fun x =>
      { x with status := .runnable }).delivery a e n = k.delivery a e n :=
    (delivery_quiet rfl rfl).trans (delivery_lock true)
  rw [delivery_moveTo, delivery_lock, hs]
  rfl

/-- What `signal` does for a thread. -/
structure Sent (k : Kernel ι κ) (t : ι) (info : SigInfo) (r : Kernel ι κ × ErrorCode) : Prop where
  frame : Frame k r.1
  outcome : (r.2 = .none ∧ ∀ accepted entered active, r.1.delivery accepted entered active =
      { k.delivery accepted entered active with
        pending := Function.update (k.delivery accepted entered active).pending t
          ((k.threads t).pendingSignals ++ [info]) }) ∨
    ¬ (r.2 = .none ∧ k.user t info) ∧ ∀ accepted entered active,
      Delivery.Leads k.user (k.delivery accepted entered active)
        (r.1.delivery accepted entered active)

omit [DecidableEq κ] in
theorem Sent.pending (k : Kernel ι κ) (t : ι) (info : SigInfo) :
    Sent k t info (k.setPending t ((k.threads t).pendingSignals ++ [info]), .none) where
  frame := Frame.modify (f := fun x => { x with pendingSignals := _ }) rfl rfl
  outcome := .inl ⟨rfl, fun _ _ _ => delivery_setPending _⟩

theorem sent_self (hr : 1 ≤ info.signo ∧ info.signo ≤ 31) :
    Ensures (· = .divergence) (k.signal t t info) (Sent k t info) := by
  have hb : ((k.modify t addCritical).threads t).busy ≠ 0 := by
    rw [modify_self]
    exact Nat.succ_ne_zero _
  have hs : (((k.modify t addCritical).modify t fun x =>
      { x with pendingSignals := x.pendingSignals ++ [info] }).modify t subCritical) =
      k.setPending t ((k.threads t).pendingSignals ++ [info]) := by
    rw [modify_modify, modify_modify]
    exact modify_congr rfl
  rw [signal, if_neg (not_not.mpr hr), if_pos rfl, signalLocked, if_pos hb, ok_bind, hs]
  exact .ok (.pending k t info)

section

omit [DecidableEq κ]

theorem modify_locked (hc : c ≠ t) :
    ((((k.modify c addCritical).modify t fun x => { x with lock := true }).modify t
      f).modify t fun x => { x with lock := false }).modify c subCritical =
      k.modify t fun x => { f { x with lock := true } with lock := false } := by
  rw [modify_modify, modify_modify, modify_comm hc, modify_modify]
  exact modify_eq_self rfl

theorem acquire_other (hl : (k.threads t).lock = false) :
    k.acquire (some c) t =
      .ok ((k.modify c addCritical).modify t fun x => { x with lock := true }) := by
  rw [acquire, hl]
  rfl

theorem release_other (hl : (k.threads t).lock = true) :
    k.release (some c) t =
      .ok ((k.modify t fun x => { x with lock := false }).modify c subCritical) := by
  rw [release, hl]
  rfl

end

theorem sent_other (hra : 1 ≤ info.signo ∧ info.signo ≤ 31) (hc : c ≠ t)
    (hr : k.position c = .running) (hl : (k.threads t).lock = false)
    (hs : ¬ ((k.threads t).busy = 0 ∧ k.user t info)) :
    Ensures (· = .divergence) (k.signal c t info) (Sent k t info) := by
  rw [signal, if_neg (not_not.mpr hra), if_neg hc, acquire_other hl, ok_bind]
  generalize hk1 : ((k.modify c addCritical).modify t fun x => { x with lock := true }) = k1
  have hh : k1.threads t = { k.threads t with lock := true } := by
    rw [← hk1, modify_self, modify_of_ne hc.symm]
  rw [signalLocked, hh]
  by_cases hb : (k.threads t).busy = 0
  · -- no handler: the process may exit, and no thread is changed
    rw [if_neg (not_not.mpr hb)]
    have hi : ¬ k1.user t info := by
      rw [← hk1]
      exact fun hu => hs ⟨hb, hu⟩
    have hcu : ∀ d, some c = some d → k1.position d = .running := by
      rw [← hk1]
      exact fun d hd => Option.some.inj hd ▸ hr
    refine (aside_handleSignal hcu hi).bind fun k2 ha => ?_
    have ho : (k2.threads t).lock = true := by rw [ha.threads, hh]
    rw [release_other ho, ok_bind]
    have he : (k1.modify t fun x => { x with lock := false }).modify c subCritical =
        k := by
      rw [← hk1, modify_modify, modify_comm hc, modify_modify, modify_eq_self rfl]
      exact modify_eq_self (by rw [← hl])
    have ht : ((k2.modify t fun x => { x with lock := false }).modify c
        subCritical).threads = k.threads := by
      rw [← he]
      exact threads_modify_congr (threads_modify_congr ha.threads)
    have hu : k1.user = k.user := by rw [← hk1]; rfl
    have hde (a e : List (ι × SigInfo)) (n : ι → ℕ) : k1.delivery a e n = k.delivery a e n := by
      rw [← hk1, delivery_lock]
      exact delivery_quiet rfl rfl
    refine .ok ⟨⟨fun u => by rw [ht], fun u => by rw [ht], ?_, ?_⟩,
      .inr ⟨fun h => hi (hu ▸ h.2), fun a e n => ?_⟩⟩
    · exact ha.user.trans hu
    · rw [← hk1] at ha
      exact ha.requests
    have hle := ha.follows.leads a e n
    rw [hu, hde] at hle
    have hn : ((k2.modify t fun x => { x with lock := false }).modify c
        subCritical).delivery a e n = k2.delivery a e n :=
      (delivery_quiet rfl rfl).trans (delivery_lock false)
    exact hn ▸ hle
  · rw [if_pos hb, ok_bind]
    have ho : ((k1.modify t fun x =>
        { x with pendingSignals := x.pendingSignals ++ [info] }).threads t).lock = true := by
      rw [modify_self, hh]
    have hse : (((k1.modify t fun x =>
        { x with pendingSignals := x.pendingSignals ++ [info] }).modify t fun x =>
          { x with lock := false }).modify c subCritical) =
        k.setPending t ((k.threads t).pendingSignals ++ [info]) := by
      rw [← hk1, modify_locked hc]
      exact modify_congr (by rw [← hl])
    rw [release_other ho, ok_bind, hse]
    exact .ok (.pending k t info)

theorem sent_of_safe (hu : k.position c = .running) (hl : c ≠ t → (k.threads t).lock = false)
    (hs : ¬ (c ≠ t ∧ (1 ≤ info.signo ∧ info.signo ≤ 31) ∧ (k.threads t).busy = 0 ∧
      k.user t info)) :
    Ensures (· = .divergence) (k.signal c t info) (Sent k t info) := by
  by_cases hr : 1 ≤ info.signo ∧ info.signo ≤ 31
  · by_cases hc : c = t
    · rw [hc]
      exact sent_self hr
    · exact sent_other hr hc hu (hl hc) fun h => hs ⟨hc, hr, h⟩
  · rw [signal, if_pos hr]
    exact .ok ⟨.refl k, .inr ⟨fun h => (nomatch h.1), fun _ _ _ => .refl⟩⟩

omit [DecidableEq κ] in
theorem acquire_held (hl : (k.threads t).lock = true) : k.acquire cur t = .error .divergence := by
  rw [acquire, hl]
  rfl

theorem handleSignal_divergence (hl : (k.threads t).lock = true) (hcu : cur ≠ some t)
    (hi : k.user t info) : k.handleSignal cur t info = .error .divergence := by
  have ha : (k.process t).sigaction info.signo = .user := hi
  rw [handleSignal, ha]
  rw [if_neg hcu, acquire_held hl, error_bind]

theorem signal_divergence (hr : 1 ≤ info.signo ∧ info.signo ≤ 31) (hc : c ≠ t)
    (hl : (k.threads t).lock = false) (hb : (k.threads t).busy = 0) (hi : k.user t info) :
    k.signal c t info = .error .divergence := by
  rw [signal, if_neg (not_not.mpr hr), if_neg hc, acquire_other hl, ok_bind]
  generalize hk1 : ((k.modify c addCritical).modify t fun x => { x with lock := true }) = k1
  have ht : k1.threads t = { k.threads t with lock := true } := by
    rw [← hk1, modify_self, modify_of_ne hc.symm]
  have hin1 : k1.user t info := by
    rw [← hk1]
    exact hi
  have ho : (k1.threads t).lock = true := by rw [ht]
  rw [signalLocked, ht, if_neg (not_not.mpr hb),
    handleSignal_divergence ho (fun he => hc (Option.some.inj he)) hin1, error_bind]

theorem signalExit_divergence (hl : (k.threads t).lock = false) (hs : k.Struck t) :
    k.signalExit t = .error .divergence := by
  obtain ⟨hb, info, ha, hi⟩ := hs
  obtain ⟨l, hp⟩ : ∃ l, (k.threads t).pendingSignals = l ++ [info] :=
    ⟨_, (dropLast_append_getLast? info ha).symm⟩
  rw [signalExit, acquire_broker hl, ok_bind, subBusy]
  rw [modify_modify]
  generalize hk1 : (k.modify t fun x => { x with lock := true, busy := x.busy - 1 }) = k1
  have ht : k1.threads t = { k.threads t with lock := true, busy := (k.threads t).busy - 1 } := by
    rw [← hk1, modify_self]
  have hz : ¬ (k1.threads t).busy ≠ 0 := by
    rw [ht]
    exact not_not.mpr (Nat.sub_eq_zero_of_le hb)
  have hin2 : (k1.setPending t l).user t info := by
    rw [← hk1]
    exact hi
  have ho : ((k1.setPending t l).threads t).lock = true := by
    rw [setPending, modify_self, ht]
  have hpe1 : (k1.threads t).pendingSignals = l ++ [info] := by
    rw [ht]
    exact hp
  have hcu : (none : Option ι) ≠ some t := nofun
  rw [if_neg hz, if_neg (fun h => hcu h.1), handlePending_of_append hpe1,
    handleSignal_divergence ho hcu hin2, error_bind]

end Kernel

end AexKernel.Proc
