import Mathlib.Data.List.Count
import Mathlib.Logic.Function.Basic
import Mathlib.Logic.Relation
import Mathlib.Tactic

/-! # The delivery of signals

A signal that is accepted waits at its thread. -/

namespace AexKernel.Proc

open List Function

/-- What a thread is doing. -/
inductive Phase
  | running
  | entering
  | returning
  | away
  deriving DecidableEq, Repr

/-- How many turns of the broker let a thread in this phase leave a handler. -/
def Phase.exits : Phase → ℕ
  | .returning => 1
  | .running | .entering | .away => 0

/-- What the broker is to do for a thread. -/
inductive Turn (ι σ : Type)
  | enter (t : ι) (x : σ)
  | exit (t : ι)
  deriving DecidableEq, Repr

def Turn.enters {ι σ : Type} [DecidableEq ι] (t : ι) : Turn ι σ → Bool
  | .enter u _ => u = t
  | .exit _ => false

/-- The signals of all threads. -/
@[ext]
structure Delivery (ι σ : Type) where
  accepted : List (ι × σ)
  entered : List (ι × σ)
  active : ι → ℕ
  pending : ι → List σ
  inSignal : ι → Bool
  phase : ι → Phase
  queue : List (Turn ι σ)

namespace Delivery

variable {ι σ : Type} [DecidableEq ι]

/-- What can happen. -/
inductive Step (user : ι → σ → Prop) (d : Delivery ι σ) : Delivery ι σ → Prop
  | accept (t : ι) (x : σ) : Step user d
      { d with
        accepted := d.accepted ++ [(t, x)]
        pending := Function.update d.pending t (d.pending t ++ [x]) }
  | pend (t : ι) (x : σ) (unhandled : ¬ user t x) : Step user d
      { d with pending := Function.update d.pending t (d.pending t ++ [x]) }
  | discard (t : ι) (l : List σ) (x : σ) (waits : d.pending t = l ++ [x])
      (unhandled : ¬ user t x) : Step user d
      { d with pending := Function.update d.pending t l }
  | leave (t : ι) (free : d.phase t = .running) : Step user d
      { d with phase := Function.update d.phase t .away }
  | take (t : ι) (l : List σ) (x : σ) (waits : d.pending t = l ++ [x])
      (free : d.phase t = .running) (outside : d.inSignal t = false) : Step user d
      { d with
        pending := Function.update d.pending t l
        inSignal := Function.update d.inSignal t true
        phase := Function.update d.phase t .entering
        queue := d.queue ++ [.enter t x] }
  | sigret (t : ι) (free : d.phase t = .running) : Step user d
      { d with phase := Function.update d.phase t .returning, queue := d.queue ++ [.exit t] }
  | enter (t : ι) (x : σ) (rest : List (Turn ι σ)) (head : d.queue = .enter t x :: rest) :
      Step user d
      { d with
        entered := d.entered ++ [(t, x)]
        active := Function.update d.active t (d.active t + 1)
        phase := Function.update d.phase t .running
        queue := rest }
  | exit (t : ι) (rest : List (Turn ι σ)) (head : d.queue = .exit t :: rest) : Step user d
      { d with
        active := Function.update d.active t (d.active t - 1)
        inSignal := Function.update d.inSignal t false
        phase := Function.update d.phase t .running
        queue := rest }

def Leads (user : ι → σ → Prop) : Delivery ι σ → Delivery ι σ → Prop :=
  Relation.ReflTransGen (Step user)

variable [DecidableEq σ] {user : ι → σ → Prop} {d d' : Delivery ι σ}

/-- Every accepted signal waits, is about to enter its handler or has entered it, as often as it was
accepted. -/
structure Sound (user : ι → σ → Prop) (d : Delivery ι σ) : Prop where
  account : ∀ t x, user t x → d.accepted.count (t, x) =
    (d.pending t).count x + d.queue.count (.enter t x) + d.entered.count (t, x)
  handler : ∀ t, d.queue.countP (Turn.enters t) + d.active t = (d.inSignal t).toNat
  entering : ∀ t, d.queue.countP (Turn.enters t) ≠ 0 → d.phase t = .entering
  returning : ∀ t, d.queue.count (.exit t) = (d.phase t).exits

namespace Sound

variable {t : ι} {x : σ} {l : List σ} {rest : List (Turn ι σ)}

section

variable (h : d.Sound user)
include h

theorem accept (t : ι) (x : σ) :
    Sound user { d with
      accepted := d.accepted ++ [(t, x)]
      pending := update d.pending t (d.pending t ++ [x]) } := by
  refine ⟨fun u y hu => ?_, h.handler, h.entering, h.returning⟩
  have ha := h.account u y hu
  by_cases ht : u = t
  · subst ht
    simp only [update_self, count_append, count_singleton, beq_iff_eq, Prod.mk.injEq, true_and]
    omega
  have hn : (t, x) ≠ (u, y) := fun he => ht (Prod.mk.inj he).1.symm
  simp only [update_of_ne ht, count_append, count_singleton, beq_iff_eq, if_neg hn]
  omega

theorem setPending (hc : ∀ y, user t y → l.count y = (d.pending t).count y) :
    Sound user { d with pending := update d.pending t l } := by
  refine ⟨fun u y hu => ?_, h.handler, h.entering, h.returning⟩
  rw [h.account u y hu]
  dsimp only
  by_cases ht : u = t
  · subst ht
    rw [update_self, hc y hu]
  · rw [update_of_ne ht]

theorem ne_of_running (free : d.phase t = .running) {u : ι}
    (hu : d.queue.countP (Turn.enters u) ≠ 0) : u ≠ t := by
  rintro rfl
  rw [h.entering u hu] at free
  cases free

theorem leave (free : d.phase t = .running) :
    Sound user { d with phase := update d.phase t .away } := by
  refine ⟨h.account, h.handler, fun u hu => ?_, fun u => ?_⟩
  · have ht := h.ne_of_running free hu
    exact (update_of_ne ht ..).trans (h.entering u hu)
  rw [h.returning u]
  dsimp only
  by_cases ht : u = t
  · subst ht
    rw [update_self, free]
    rfl
  · rw [update_of_ne ht]

theorem take (waits : d.pending t = l ++ [x]) (free : d.phase t = .running)
    (outside : d.inSignal t = false) :
    Sound user { d with
      pending := update d.pending t l
      inSignal := update d.inSignal t true
      phase := update d.phase t .entering
      queue := d.queue ++ [.enter t x] } := by
  have hc (u : ι) : (d.queue ++ [Turn.enter t x]).countP (Turn.enters u) =
      d.queue.countP (Turn.enters u) + if t = u then 1 else 0 := by
    simp only [countP_append, countP_singleton, Turn.enters, decide_eq_true_eq]
  refine ⟨fun u y hu => ?_, fun u => ?_, fun u hu => ?_, fun u => ?_⟩
  · rw [h.account u y hu]
    by_cases ht : u = t
    · subst ht
      simp only [waits, update_self, count_append, count_singleton,
        beq_iff_eq, Turn.enter.injEq, true_and]
      omega
    · have hn : Turn.enter t x ≠ .enter u y := fun he => ht (Turn.enter.inj he).1.symm
      simp only [update_of_ne ht, count_append, count_singleton, beq_iff_eq,
        if_neg hn, Nat.add_zero]
  · have hh := h.handler u
    dsimp only
    rw [hc]
    by_cases ht : u = t
    · subst ht
      rw [outside, Bool.toNat_false] at hh
      rw [if_pos rfl, update_self, Bool.toNat_true]
      omega
    · rw [if_neg (Ne.symm ht), update_of_ne ht]
      exact hh
  · dsimp only at hu ⊢
    by_cases ht : u = t
    · rw [ht, update_self]
    rw [hc, if_neg (Ne.symm ht)] at hu
    rw [update_of_ne ht]
    exact h.entering u hu
  dsimp only
  rw [count_append, h.returning u]
  by_cases ht : u = t
  · subst ht
    rw [update_self, free]
    simp [Phase.exits]
  · rw [update_of_ne ht]
    simp

theorem sigret (free : d.phase t = .running) :
    Sound user { d with
      phase := update d.phase t .returning, queue := d.queue ++ [.exit t] } := by
  have hc (u : ι) : (d.queue ++ [Turn.exit t]).countP (Turn.enters u) =
      d.queue.countP (Turn.enters u) := by
    simp [countP_append, Turn.enters]
  refine ⟨fun u y hu => ?_, fun u => ?_, fun u hu => ?_, fun u => ?_⟩
  · rw [h.account u y hu, count_append]
    simp
  · exact (congrArg (· + d.active u) (hc u)).trans (h.handler u)
  · rw [hc] at hu
    have ht := h.ne_of_running free hu
    exact (update_of_ne ht ..).trans (h.entering u hu)
  dsimp only
  rw [count_append, h.returning u]
  by_cases ht : u = t
  · subst ht
    rw [update_self, free]
    simp [Phase.exits]
  · have hn : (Turn.exit t : Turn ι σ) ≠ .exit u := fun he => ht (Turn.exit.inj he).symm
    rw [update_of_ne ht]
    simp [hn]

theorem enter (head : d.queue = .enter t x :: rest) :
    Sound user { d with
      entered := d.entered ++ [(t, x)]
      active := update d.active t (d.active t + 1)
      phase := update d.phase t .running
      queue := rest } := by
  have hc : d.queue.countP (Turn.enters t) = rest.countP (Turn.enters t) + 1 := by
    rw [head, countP_cons_of_pos (by simp [Turn.enters])]
  have ho (u : ι) (ht : u ≠ t) :
      d.queue.countP (Turn.enters u) = rest.countP (Turn.enters u) := by
    rw [head, countP_cons_of_neg (by simp [Turn.enters, Ne.symm ht])]
  have hex (u : ι) : d.queue.count (.exit u) = rest.count (.exit u) := by
    rw [head, count_cons_of_ne (by simp)]
  have hp : d.phase t = .entering := h.entering t (by omega)
  refine ⟨fun u y hu => ?_, fun u => ?_, fun u hu => ?_, fun u => ?_⟩
  · rw [h.account u y hu, head, count_cons, count_append, count_singleton]
    simp only [beq_iff_eq, Turn.enter.injEq, Prod.mk.injEq]
    omega
  · have hh := h.handler u
    dsimp only
    by_cases ht : u = t
    · subst ht
      rw [update_self]
      omega
    · rw [update_of_ne ht, ← ho u ht]
      exact hh
  · dsimp only at hu ⊢
    -- the thread was about to enter one handler only
    have ht : u ≠ t := by
      rintro rfl
      have hh := h.handler u
      have hn := Bool.toNat_le (d.inSignal u)
      omega
    rw [← ho u ht] at hu
    rw [update_of_ne ht]
    exact h.entering u hu
  dsimp only
  rw [← hex, h.returning u]
  by_cases ht : u = t
  · subst ht
    rw [update_self, hp]
    rfl
  · rw [update_of_ne ht]

theorem exit (head : d.queue = .exit t :: rest) :
    Sound user { d with
      active := update d.active t (d.active t - 1)
      inSignal := update d.inSignal t false
      phase := update d.phase t .running
      queue := rest } := by
  have hp : d.phase t = .returning := by
    have hr := h.returning t
    rw [head, count_cons_self] at hr
    cases hp : d.phase t with
    | returning => rfl
    | running => rw [hp] at hr; exact absurd hr (Nat.succ_ne_zero _)
    | entering => rw [hp] at hr; exact absurd hr (Nat.succ_ne_zero _)
    | away => rw [hp] at hr; exact absurd hr (Nat.succ_ne_zero _)
  have hc (u : ι) : d.queue.countP (Turn.enters u) = rest.countP (Turn.enters u) := by
    rw [head, countP_cons_of_neg (by simp [Turn.enters])]
  have hn : d.queue.countP (Turn.enters t) = 0 := by
    by_contra hne
    rw [h.entering t hne] at hp
    cases hp
  refine ⟨fun u y hu => ?_, fun u => ?_, fun u hu => ?_, fun u => ?_⟩
  · rw [h.account u y hu, head, count_cons_of_ne (by simp)]
  · have hh := h.handler u
    rw [hc] at hh
    dsimp only
    by_cases ht : u = t
    · subst ht
      rw [update_self, update_self, Bool.toNat_false]
      rw [hc] at hn
      have ho := Bool.toNat_le (d.inSignal u)
      omega
    · rw [update_of_ne ht, update_of_ne ht]
      exact hh
  · dsimp only at hu ⊢
    rw [← hc] at hu
    have ht : u ≠ t := fun he => hu (he ▸ hn)
    rw [update_of_ne ht]
    exact h.entering u hu
  have hr := h.returning u
  dsimp only
  by_cases ht : u = t
  · subst ht
    rw [head, count_cons_self, hp] at hr
    rw [update_self]
    exact Nat.succ.inj hr
  · rw [head, count_cons_of_ne fun he => ht (Turn.exit.inj he).symm] at hr
    rw [update_of_ne ht]
    exact hr

theorem step (hs : Step user d d') : d'.Sound user := by
  have hl {t : ι} {l : List σ} {x y : σ} (unhandled : ¬ user t x) (hy : user t y) :
      (l ++ [x]).count y = l.count y := by
    have hn : x ≠ y := fun he => unhandled (he ▸ hy)
    rw [count_append, count_singleton, if_neg (by simpa using hn), Nat.add_zero]
  cases hs with
  | accept t x => exact h.accept t x
  | pend t x unhandled => exact h.setPending fun y hy => hl unhandled hy
  | discard t l x waits unhandled =>
    exact h.setPending fun y hy => waits ▸ (hl unhandled hy).symm
  | leave t free => exact h.leave free
  | take t l x waits free outside => exact h.take waits free outside
  | sigret t free => exact h.sigret free
  | enter t x rest head => exact h.enter head
  | exit t rest head => exact h.exit head

/-- **No signal is lost or handled twice**, whatever happens. -/
theorem leads (hl : Leads user d d') : d'.Sound user := by
  induction hl with
  | refl => exact h
  | tail _ hs ih => exact ih.step hs

theorem active_le_one (t : ι) : d.active t ≤ 1 := by
  have hh := h.handler t
  have ho := Bool.toNat_le (d.inSignal t)
  omega

end

end Sound

end Delivery

end AexKernel.Proc
