import AexKernel.Library.Ensures
import AexKernel.Library.Run
import AexKernel.Proc.Thread

/-! # The exit of a process with its last thread

`finish` makes the process exit when it finds `thread_counter == 1`. -/

namespace AexKernel.Proc

open Library List Function

/-! ## The books of the kernel -/

/-- What the exit of processes is about. -/
@[ext]
structure Books (ι κ : Type) where
  processes : κ → Process ι
  requests : List (Request ι κ)
  parent : ι → κ
  locks : ι → Bool

namespace Books

variable {ι κ : Type} [DecidableEq ι] [DecidableEq κ]

def setLock (b : Books ι κ) (t : ι) (lock : Bool) : Books ι κ :=
  { b with locks := Function.update b.locks t lock }

def modifyProcess (b : Books ι κ) (p : κ) (f : Process ι → Process ι) : Books ι κ :=
  { b with processes := Function.update b.processes p (f (b.processes p)) }

def ask (b : Books ι κ) (request : Request ι κ) : Books ι κ :=
  { b with requests := b.requests ++ [request] }

def exitProcess (b : Books ι κ) (p : κ) (status : ℤ) : Books ι κ :=
  if (b.processes p).exiting then b
  else (b.modifyProcess p fun x => { x with exiting := true, retCode := status }).ask
    (.exitThreaded p)

def unassoc (b : Books ι κ) (t : ι) : Books ι κ :=
  b.modifyProcess (b.parent t) fun x => { x with threads := x.threads.erase t }

def exitLast (b : Books ι κ) (t : ι) : Books ι κ :=
  if (b.processes (b.parent t)).threadCounter = 1 then b.exitProcess (b.parent t) 0 else b

def finish (b : Books ι κ) (t : ι) : Books ι κ := ((b.unassoc t).exitLast t).ask (.cleanup t)

def cleans (parent : ι → κ) (p : κ) : Request ι κ → Bool
  | .cleanup t => parent t = p
  | _ => false

/-- How many threads of a process the broker has still to delete. -/
def queued (b : Books ι κ) (p : κ) : ℕ := b.requests.countP (cleans b.parent p)

/-- How the books are kept: a process that exits has asked the broker for it, a thread is in the list
of its own process only, and no lock is held between calls. -/
structure Kept (p : κ) (b : Books ι κ) : Prop where
  asked : (b.processes p).exiting = true →
    (b.processes p).exitStage ≠ .none ∨ Request.exitThreaded p ∈ b.requests
  done : (b.processes p).exitStage = .done → (b.processes p).status = .dead
  own : ∀ q, ∀ t ∈ (b.processes q).threads, b.parent t = q
  unlocked : ∀ q, (b.processes q).threadsLock = false
  free : ∀ t, b.locks t = false
  known : ∀ r ∈ b.requests, (∃ t, r = .cleanup t) ∨ ∃ q, r = .exitThreaded q

/-- The invariant of a process. -/
structure Settled (p : κ) (b : Books ι κ) : Prop extends Kept p b where
  count : (b.processes p).threadCounter = (b.processes p).threads.length + b.queued p
  exits : (b.processes p).threads = [] → (b.processes p).exiting = true

/-- What the exit of a process changes. -/
structure Exits (b b' : Books ι κ) : Prop where
  threads : ∀ q, (b'.processes q).threads = (b.processes q).threads
  threadCounter : ∀ q, (b'.processes q).threadCounter = (b.processes q).threadCounter
  threadsLock : ∀ q, (b'.processes q).threadsLock = (b.processes q).threadsLock
  exitStage : ∀ q, (b'.processes q).exitStage = (b.processes q).exitStage
  status : ∀ q, (b'.processes q).status = (b.processes q).status
  kept : ∀ q, (b.processes q).exiting = true → (b'.processes q).exiting = true
  asked : ∀ q, (b'.processes q).exiting = true →
    (b.processes q).exiting = true ∨ Request.exitThreaded q ∈ b'.requests
  requests : ∃ l, b'.requests = b.requests ++ l ∧ ∀ r ∈ l, ∃ q, r = .exitThreaded q
  parent : b'.parent = b.parent
  locks : b'.locks = b.locks

variable {b b' : Books ι κ} {p q : κ} {t : ι}

omit [DecidableEq ι] [DecidableEq κ] in
theorem processes_ask (request : Request ι κ) : (b.ask request).processes = b.processes := rfl

section

omit [DecidableEq ι]

variable {f : Process ι → Process ι}

theorem modifyProcess_self : (b.modifyProcess p f).processes p = f (b.processes p) := update_self ..

theorem modifyProcess_of_ne (h : q ≠ p) :
    (b.modifyProcess p f).processes q = b.processes q := update_of_ne h ..

theorem modifyProcess_field {β : Type} (f : Process ι → Process ι) (g : Process ι → β)
    (hf : g (f (b.processes p)) = g (b.processes p)) (q : κ) :
    g ((b.modifyProcess p f).processes q) = g (b.processes q) := by
  by_cases hq : q = p
  · subst hq
    rw [modifyProcess_self, hf]
  · rw [modifyProcess_of_ne hq]

end

omit [DecidableEq ι] [DecidableEq κ] in
theorem Exits.refl (b : Books ι κ) : Exits b b where
  threads _ := rfl
  threadCounter _ := rfl
  threadsLock _ := rfl
  exitStage _ := rfl
  status _ := rfl
  kept _ h := h
  asked _ h := .inl h
  requests := ⟨[], (append_nil _).symm, fun r hr => by cases hr⟩
  parent := rfl
  locks := rfl

section

omit [DecidableEq ι]

theorem exits_exitProcess (b : Books ι κ) (p : κ) (st : ℤ) :
    Exits b (b.exitProcess p st) := by
  rw [exitProcess]
  split_ifs with hex
  · exact Exits.refl b
  have hf {β : Type} (g : Process ι → β)
      (hg : ∀ x : Process ι, g { x with exiting := true, retCode := st } = g x) (q : κ) :
      g ((b.modifyProcess p _).processes q) = g (b.processes q) :=
    modifyProcess_field (fun x => { x with exiting := true, retCode := st }) g (hg _) q
  refine ⟨hf Process.threads fun _ => rfl, hf Process.threadCounter fun _ => rfl,
    hf Process.threadsLock fun _ => rfl, hf Process.exitStage fun _ => rfl,
    hf Process.status fun _ => rfl, fun q hq => ?_, fun q hq => ?_,
    ⟨[.exitThreaded p], rfl, fun r hr => ⟨p, mem_singleton.mp hr⟩⟩, rfl, rfl⟩
  · rw [processes_ask]
    by_cases hp : q = p
    · subst hp
      rw [modifyProcess_self]
    · rw [modifyProcess_of_ne hp, hq]
  by_cases hp : q = p
  · subst hp
    exact .inr (mem_append_right _ mem_cons_self)
  · rw [processes_ask, modifyProcess_of_ne hp] at hq
    exact .inl hq

theorem exiting_exitProcess (b : Books ι κ) (p : κ) (st : ℤ) :
    ((b.exitProcess p st).processes p).exiting = true := by
  rw [exitProcess]
  split_ifs with hex
  · exact hex
  · rw [processes_ask, modifyProcess_self]

theorem exits_exitLast (b : Books ι κ) (t : ι) : Exits b (b.exitLast t) := by
  rw [exitLast]
  split_ifs
  · exact exits_exitProcess b _ 0
  · exact Exits.refl b

theorem Exits.queued (h : Exits b b') (p : κ) : b'.queued p = b.queued p := by
  obtain ⟨l, hl, hex⟩ := h.requests
  have hn : l.countP (cleans b.parent p) = 0 := by
    refine countP_eq_zero.mpr fun r hr => ?_
    obtain ⟨q, rfl⟩ := hex r hr
    exact Bool.false_ne_true
  rw [Books.queued, Books.queued, h.parent, hl, countP_append, hn, Nat.add_zero]

end

omit [DecidableEq ι] [DecidableEq κ] in
theorem Kept.of_exits (h : Kept p b) (he : Exits b b') : Kept p b' := by
  obtain ⟨l, hl, hx⟩ := he.requests
  refine ⟨fun hex => ?_, fun hd => ?_, fun q t ht => ?_, fun q => ?_, fun t => ?_, fun r hr => ?_⟩
  · rw [he.exitStage]
    rcases he.asked p hex with hold | hn
    · refine (h.asked hold).imp_right fun hr => ?_
      rw [hl]
      exact mem_append_left l hr
    · exact .inr hn
  · rw [he.exitStage] at hd
    rw [he.status]
    exact h.done hd
  · rw [he.threads] at ht
    rw [he.parent]
    exact h.own q t ht
  · rw [he.threadsLock]
    exact h.unlocked q
  · rw [he.locks]
    exact h.free t
  · rw [hl] at hr
    rcases mem_append.mp hr with hr | hr
    · exact h.known r hr
    · exact .inr (hx r hr)

omit [DecidableEq ι] in
theorem Settled.of_exits (h : Settled p b) (he : Exits b b') : Settled p b' := by
  refine ⟨h.toKept.of_exits he, ?_, fun hn => ?_⟩
  · rw [he.threadCounter, he.threads, he.queued]
    exact h.count
  · rw [he.threads] at hn
    exact he.kept p (h.exits hn)

theorem Kept.unassoc (h : Kept p b) : Kept p (b.unassoc t) := by
  have hm (q : κ) (u : ι) (hu : u ∈ ((b.unassoc t).processes q).threads) :
      u ∈ (b.processes q).threads := by
    by_cases hq : q = b.parent t
    · subst hq
      rw [Books.unassoc, modifyProcess_self] at hu
      exact mem_of_mem_erase hu
    · rwa [Books.unassoc, modifyProcess_of_ne hq] at hu
  have hf {β : Type} (g : Process ι → β)
      (hg : ∀ x : Process ι, g { x with threads := x.threads.erase t } = g x) (q : κ) :
      g ((b.unassoc t).processes q) = g (b.processes q) := modifyProcess_field _ g (hg _) q
  refine ⟨fun hex => ?_, fun hd => ?_, fun q u hu => h.own q u (hm q u hu), fun q => ?_,
    h.free, h.known⟩
  · rw [hf Process.exiting fun _ => rfl] at hex
    rw [hf Process.exitStage fun _ => rfl]
    exact h.asked hex
  · rw [hf Process.exitStage fun _ => rfl] at hd
    rw [hf Process.status fun _ => rfl]
    exact h.done hd
  · rw [hf Process.threadsLock fun _ => rfl]
    exact h.unlocked q

omit [DecidableEq ι] [DecidableEq κ] in
theorem Kept.ask_cleanup (h : Kept p b) (t : ι) : Kept p (b.ask (.cleanup t)) := by
  refine ⟨fun hex => (h.asked hex).imp_right (mem_append_left _), h.done, h.own,
    h.unlocked, h.free, fun r hr => ?_⟩
  rcases mem_append.mp hr with hr | hr
  · exact h.known r hr
  · exact .inl ⟨t, mem_singleton.mp hr⟩

omit [DecidableEq ι] in
theorem queued_ask_cleanup (b : Books ι κ) (t : ι) (p : κ) :
    (b.ask (.cleanup t)).queued p = b.queued p + if b.parent t = p then 1 else 0 := by
  rw [queued, ask, countP_append, countP_singleton]
  change _ + (if decide (b.parent t = p) = true then 1 else 0) = _
  simp only [decide_eq_true_eq]
  rfl

/-- **A thread finishes**, after the broker has deleted all others of its process. -/
theorem Settled.finish (h : Settled p b) (ht : t ∈ (b.processes (b.parent t)).threads)
    (hpr : (b.processes (b.parent t)).threads = [t] →
      (b.processes (b.parent t)).exiting = true ∨
        ∀ u, Request.cleanup u ∈ b.requests → b.parent u ≠ b.parent t) :
    Settled p (b.finish t) := by
  have he := exits_exitLast (b.unassoc t) t
  have hc (q : κ) : ((b.finish t).processes q).threadCounter = (b.processes q).threadCounter :=
    (he.threadCounter q).trans (modifyProcess_field (fun x =>
      { x with threads := x.threads.erase t }) Process.threadCounter rfl q)
  have hq : (b.finish t).queued p = b.queued p + if b.parent t = p then 1 else 0 := by
    rw [Books.finish, queued_ask_cleanup, he.queued, he.parent]
    rfl
  refine ⟨(h.toKept.unassoc.of_exits he).ask_cleanup t, ?_, fun hn => ?_⟩
  · rw [hc, hq, h.count]
    change _ = ((((b.unassoc t).exitLast t).processes p).threads.length : ℤ) + _
    rw [he.threads]
    by_cases hp : b.parent t = p
    · subst hp
      have ho := length_pos_of_mem ht
      rw [Books.unassoc, modifyProcess_self, if_pos rfl]
      rw [length_erase_of_mem ht]
      push_cast
      omega
    · rw [Books.unassoc, modifyProcess_of_ne (Ne.symm hp), if_neg hp]
      rfl
  change (((b.unassoc t).exitLast t).processes p).exiting = true
  change (((b.unassoc t).exitLast t).processes p).threads = [] at hn
  rw [he.threads] at hn
  by_cases hp : b.parent t = p
  · subst hp
    rw [Books.unassoc, modifyProcess_self] at hn
    have ha : (b.processes (b.parent t)).threads = [t] := by
      have hl := length_erase_of_mem ht
      rw [show (b.processes (b.parent t)).threads.erase t = [] from hn, length_nil] at hl
      have ho := length_pos_of_mem ht
      obtain ⟨u, hu⟩ := length_eq_one_iff.mp
        (show (b.processes (b.parent t)).threads.length = 1 by omega)
      rw [hu, mem_singleton] at ht
      rw [hu, ht]
    rcases hpr ha with hex | hnon
    · refine he.kept _ ?_
      rw [Books.unassoc, modifyProcess_self]
      exact hex
    have hz : b.queued (b.parent t) = 0 := by
      refine countP_eq_zero.mpr fun r hr => ?_
      rcases h.known r hr with ⟨u, rfl⟩ | ⟨q, rfl⟩
      · exact fun heq => hnon u hr (of_decide_eq_true heq)
      · exact Bool.false_ne_true
    have hone : ((b.unassoc t).processes ((b.unassoc t).parent t)).threadCounter = 1 := by
      have hco := h.count
      rw [ha, hz] at hco
      exact (congrArg Process.threadCounter modifyProcess_self).trans hco
    rw [Books.exitLast, if_pos hone]
    exact exiting_exitProcess ..
  · refine he.kept p ?_
    rw [Books.unassoc, modifyProcess_of_ne (Ne.symm hp)] at hn ⊢
    exact h.exits hn

theorem exitProcess_setLock (b : Books ι κ) (c : ι) (lock : Bool) (p : κ) (st : ℤ) :
    (b.setLock c lock).exitProcess p st = (b.exitProcess p st).setLock c lock := by
  rw [exitProcess, exitProcess]
  change (if (b.processes p).exiting = true then _ else _) = _
  split_ifs
  · rfl
  · rfl

theorem finish_setLock (b : Books ι κ) (c : ι) (lock : Bool) (t : ι) :
    (b.setLock c lock).finish t = (b.finish t).setLock c lock := by
  have hl : ((b.unassoc t).setLock c lock).exitLast t =
      ((b.unassoc t).exitLast t).setLock c lock := by
    by_cases ho : ((b.unassoc t).processes ((b.unassoc t).parent t)).threadCounter = 1
    · rw [exitLast, exitLast, if_pos ho, ← exitProcess_setLock]
      exact if_pos ho
    · rw [exitLast, exitLast, if_neg ho]
      exact if_neg ho
  exact congrArg (Books.ask · (.cleanup t)) hl

def cleanup (b : Books ι κ) (t : ι) : Books ι κ :=
  b.modifyProcess (b.parent t) fun x => { x with threadCounter := x.threadCounter - 1 }

section

omit [DecidableEq ι]

theorem Settled.zero (h : Settled p b) :
    (b.processes p).threadCounter = 0 ↔ (b.processes p).threads = [] ∧ b.queued p = 0 := by
  rw [h.count, ← length_eq_zero_iff]
  omega

variable {rest : List (Request ι κ)}

theorem Settled.cleanup (h : Settled p b) (he : b.requests = .cleanup t :: rest) :
    Settled p ({ b with requests := rest }.cleanup t) := by
  have hf {β : Type} (g : Process ι → β)
      (hg : ∀ x : Process ι, g { x with threadCounter := x.threadCounter - 1 } = g x) (q : κ) :
      g (({ b with requests := rest }.cleanup t).processes q) = g (b.processes q) :=
    modifyProcess_field (b := { b with requests := rest }) _ g (hg _) q
  refine ⟨⟨fun hex => ?_, fun hd => ?_, fun q u hu => ?_, fun q => ?_, h.free,
    fun r hr => ?_⟩, ?_, fun hn => ?_⟩
  · rw [hf Process.exiting fun _ => rfl] at hex
    rw [hf Process.exitStage fun _ => rfl]
    refine (h.asked hex).imp_right fun hr => ?_
    rw [he] at hr
    exact (mem_cons.mp hr).resolve_left (by simp)
  · rw [hf Process.exitStage fun _ => rfl] at hd
    rw [hf Process.status fun _ => rfl]
    exact h.done hd
  · rw [hf Process.threads fun _ => rfl] at hu
    exact h.own q u hu
  · rw [hf Process.threadsLock fun _ => rfl]
    exact h.unlocked q
  · exact h.known r (he ▸ mem_cons_of_mem _ hr)
  · have hc := h.count
    rw [queued, he, countP_cons] at hc
    rw [hf Process.threads fun _ => rfl]
    change _ = _ + ((rest.countP (cleans b.parent p) : ℕ) : ℤ)
    by_cases hp : b.parent t = p
    · have hl : cleans b.parent p (.cleanup t) = true := decide_eq_true hp
      rw [if_pos hl] at hc
      push_cast at hc
      subst hp
      rw [Books.cleanup, modifyProcess_self]
      change (b.processes (b.parent t)).threadCounter - 1 = _
      omega
    · have hl : ¬ cleans b.parent p (.cleanup t) = true := fun h => hp (of_decide_eq_true h)
      rw [if_neg hl, Nat.add_zero] at hc
      rw [Books.cleanup, modifyProcess_of_ne (Ne.symm hp)]
      exact hc
  · rw [hf Process.threads fun _ => rfl] at hn
    rw [hf Process.exiting fun _ => rfl]
    exact h.exits hn

theorem Settled.stage (h : Settled p b) (f : Process ι → Process ι)
    (ht : (f (b.processes q)).threads = (b.processes q).threads)
    (hc : (f (b.processes q)).threadCounter = (b.processes q).threadCounter)
    (hl : (f (b.processes q)).threadsLock = false)
    (hex : (f (b.processes q)).exiting = (b.processes q).exiting)
    (hst : (f (b.processes q)).exitStage ≠ .none)
    (hd : (f (b.processes q)).exitStage = .done → (f (b.processes q)).status = .dead)
    (hs : ∀ r ∈ rest, r ∈ b.requests)
    (ha : q ≠ p → Request.exitThreaded p ∈ b.requests → Request.exitThreaded p ∈ rest)
    (hqu : rest.countP (cleans b.parent p) = b.queued p) :
    Settled p ({ b with requests := rest }.modifyProcess q f) := by
  have hf {β : Type} (g : Process ι → β) (hg : g (f (b.processes q)) = g (b.processes q))
      (r : κ) : g (({ b with requests := rest }.modifyProcess q f).processes r) =
        g (b.processes r) :=
    modifyProcess_field (b := { b with requests := rest }) _ g hg r
  refine ⟨⟨fun hx => ?_, fun hx => ?_, fun r u hu => ?_, fun r => ?_, h.free,
    fun r hr => h.known r (hs r hr)⟩, ?_, fun hn => ?_⟩
  · rw [hf Process.exiting hex] at hx
    by_cases hq : p = q
    · subst hq
      rw [modifyProcess_self]
      exact .inl hst
    · rw [modifyProcess_of_ne hq]
      exact (h.asked hx).imp_right (ha (Ne.symm hq))
  · by_cases hq : p = q
    · subst hq
      rw [modifyProcess_self] at hx ⊢
      exact hd hx
    · rw [modifyProcess_of_ne hq] at hx ⊢
      exact h.done hx
  · rw [hf Process.threads ht] at hu
    exact h.own r u hu
  · by_cases hrq : r = q
    · subst hrq
      rw [modifyProcess_self]
      exact hl
    · rw [modifyProcess_of_ne hrq]
      exact h.unlocked r
  · rw [hf Process.threadCounter hc, hf Process.threads ht, h.count, ← hqu]
    rfl
  · rw [hf Process.threads ht] at hn
    rw [hf Process.exiting hex]
    exact h.exits hn

end

end Books

/-- A computation that, if it returns, returns what satisfies `P`. -/
abbrev Returns {α : Type} (x : Except Fault α) (P : α → Prop) : Prop := Ensures (fun _ => False) x P

namespace Kernel

variable {ι κ : Type} [DecidableEq ι]

def books (s : Kernel ι κ) : Books ι κ where
  processes := s.processes
  requests := s.requests
  parent := s.parent
  locks t := (s.threads t).lock

variable {s : Kernel ι κ} {cur : Option ι} {c j t : ι} {f : Thread ι → Thread ι}

theorem books_modify (s : Kernel ι κ) (t : ι) (f : Thread ι → Thread ι) :
    (s.modify t f).books = s.books.setLock t (f (s.threads t)).lock := by
  refine Books.ext rfl rfl rfl (funext fun u => ?_)
  change (update s.threads t (f (s.threads t)) u).lock =
    update (fun u => (s.threads u).lock) t (f (s.threads t)).lock u
  by_cases hu : u = t
  · subst hu
    rw [update_self, update_self]
  · rw [update_of_ne hu, update_of_ne hu]

theorem books_modify_unlocked (hf : ∀ x, (f x).lock = x.lock) : (s.modify t f).books = s.books := by
  rw [books_modify, hf]
  exact Books.ext rfl rfl rfl (update_eq_self ..)

theorem books_addCritical : (s.onCurrent cur Thread.addCritical).books = s.books := by
  cases cur with
  | none => rfl
  | some c => exact books_modify_unlocked fun _ => rfl

theorem books_subCritical : (s.onCurrent cur Thread.subCritical).books = s.books := by
  cases cur with
  | none => rfl
  | some c => exact books_modify_unlocked fun _ => rfl

theorem books_acquire : Returns (s.acquire cur t) fun s' =>
    s.books.locks t = false ∧ s'.books = s.books.setLock t true := by
  refine .ite (fun _ => .error id) fun hf => .ok ⟨?_, ?_⟩
  · exact Bool.eq_false_iff.mpr hf
  · rw [books_modify, books_addCritical]

theorem books_release : Returns (s.release cur t) fun s' =>
    s'.books = s.books.setLock t false := by
  refine .ite (fun _ => .ok ?_) fun _ => .error id
  rw [books_subCritical, books_modify]

theorem books_setStatus {st : Status} : Returns (s.setStatus t st) fun s' =>
    s'.books = s.books :=
  Ensures.ite (fun _ => .error id) fun _ => .ok (books_modify_unlocked fun _ => rfl)

omit [DecidableEq ι] in
theorem setLock_setLock [DecidableEq ι] {b : Books ι κ} (hf : b.locks t = false) :
    (b.setLock t true).setLock t false = b := by
  refine Books.ext rfl rfl rfl ?_
  change update (update b.locks t true) t false = b.locks
  rw [update_idem, ← hf, update_eq_self]

theorem books_wakeJoiner : Returns (s.wakeJoiner cur j) fun s' => s'.books = s.books := by
  refine books_acquire.bind fun s1 ⟨hf, h1⟩ => books_setStatus.bind fun s2 h2 =>
    books_release.mono fun s3 h3 => ?_
  rw [h3, h2, h1, setLock_setLock hf]

theorem books_run {call : Kernel ι κ → Except Fault (Kernel ι κ)} {P : Books ι κ → Prop}
    (hc : ∀ s1, s1.books = s.books.setLock c true → Returns (call s1) fun s2 =>
      P (s2.books.setLock c false)) : Returns (s.run c call) fun s' => P s'.books := by
  refine (hc _ (books_modify ..)).bind fun s2 h2 => .ok ?_
  rwa [books_modify]

theorem books_yieldUntilAborting : Returns (s.yieldUntilAborting c) fun s' =>
    s'.books = s.books :=
  Ensures.ite (fun _ => .ok rfl) fun _ => .ite (fun _ => .error id) fun _ => .ok rfl

variable [DecidableEq κ]

theorem books_exitProcess {p : κ} {status : ℤ} : Returns (s.exitProcess cur p status) fun s' =>
    s'.books = s.books.exitProcess p status := by
  rw [Kernel.exitProcess, Books.exitProcess]
  by_cases hex : (s.processes p).exiting
  · rw [if_pos hex]
    exact .ok (if_pos hex).symm
  rw [if_neg hex, if_neg (show ¬ (s.books.processes p).exiting from hex)]
  cases cur with
  | none => exact .ok rfl
  | some c =>
    exact .ite (fun _ => books_yieldUntilAborting) fun _ => .ok rfl

theorem books_finish : Returns (s.finish cur t) fun s' =>
    (s.process t).threadsLock = false ∧ s'.books = s.books.finish t := by
  have hc : ({ s with finished := s.finished ++ [t] }.onCurrent cur
      Thread.addCritical).books = s.books := books_addCritical
  generalize hs1 : { s with finished := s.finished ++ [t] }.onCurrent cur Thread.addCritical = s1
    at hc
  have hp : s1.process t = s.process t :=
    congrArg (fun b => b.processes (b.parent t)) hc
  rw [Kernel.finish]
  refine .ite (fun _ => ?_) fun _ => .error id
  rw [hs1]
  refine .bind (P := fun s2 => (s.process t).threadsLock = false ∧
    s2.books = s.books.unassoc t) (Ensures.ite (fun _ => .error id) fun hl =>
      Ensures.ok ⟨?_, ?_⟩) ?_
  · rw [← hp]
    exact Bool.eq_false_iff.mpr hl
  · rw [← hc]
    rfl
  rintro s2 ⟨hl, h2⟩
  refine .bind (P := fun s3 => s3.books = s2.books) (Ensures.ite (fun _ => .ok rfl)
    fun _ => .error id) fun s3 h3 => ?_
  refine .bind (P := fun s4 => s4.books = s3.books.exitLast t) ?_ fun s4 h4 =>
    Ensures.ok ⟨hl, ?_⟩
  · rw [Kernel.exitLast, Books.exitLast]
    by_cases ho : (s3.process t).threadCounter = 1
    · rw [if_pos ho,
        if_pos (show (s3.books.processes (s3.books.parent t)).threadCounter = 1 from ho)]
      exact books_exitProcess
    · rw [if_neg ho,
        if_neg (show (s3.books.processes (s3.books.parent t)).threadCounter ≠ 1 from ho)]
      exact .ok rfl
  · rw [books_subCritical]
    change s4.books.ask _ = _
    rw [h4, h3, h2]
    rfl

theorem books_abort (ho : (s.process t).threadsLock = true) {force : Bool} :
    Returns (s.abort c t force) fun s' => s'.books = s.books := by
  refine books_acquire.bind fun s1 ⟨hf, h1⟩ => ?_
  refine .bind (P := fun s2 => s2.books = s1.books) ?_ fun s2 h2 =>
    books_release.mono fun s3 h3 => ?_
  · have hm : (s1.modify t fun x =>
        { x with aborting := true, detached := x.detached || force }).books = s1.books :=
      books_modify_unlocked fun _ => rfl
    refine .ite (fun _ => .ok hm) fun _ => ?_
    generalize s1.modify t _ = s2 at hm ⊢
    rw [Kernel.kill]
    cases (s2.threads t).joiner with
    | some j => exact books_wakeJoiner.mono fun s3 h3 => h3.trans hm
    | none =>
      refine .ite (fun _ => ?_) fun _ => .ok hm
      refine books_setStatus.bind fun s3 h3 => books_finish.bind fun s4 ⟨hl, _⟩ => ?_
      -- `unassoc` waits for the lock that the caller holds
      have hb : s3.books = s.books.setLock t true := by
        rw [h3, books_modify_unlocked (f := Thread.addBusy) fun _ => rfl, hm, h1]
      have hp : s3.process t = s.process t :=
        congrArg (fun b => b.processes (b.parent t)) hb
      rw [hp, ho] at hl
      cases hl
  · rw [h3, h2, h1, setLock_setLock hf]

omit [DecidableEq ι] in
theorem books_modifyProcess (p : κ) (g : Process ι → Process ι) :
    (s.modifyProcess p g).books = s.books.modifyProcess p g := rfl

theorem cleanup_returns (hl : (s.process t).threadsLock = false) (hf : s.books.locks t = false) :
    ∃ s', s.cleanup t = .ok s' ∧ s'.books = s.books.cleanup t := by
  have hu : ¬ (s.process t).threadsLock = true := Bool.eq_false_iff.mp hl
  have hop : ¬ (s.threads t).lock = true := Bool.eq_false_iff.mp hf
  refine ⟨((s.modify t fun x => { x with lock := true }).modifyProcess (s.parent t) fun x =>
    { x with threadCounter := x.threadCounter - 1 }).modify t fun x => { x with lock := false },
    ?_, ?_⟩
  · rw [Kernel.cleanup, if_neg hu, Kernel.acquire, if_neg hop, ok_bind]
    exact if_pos (congrArg Thread.lock (update_self t _ s.threads))
  · rw [books_modify, books_modifyProcess, books_modify]
    exact setLock_setLock (b := s.books.cleanup t) hf

/-! ## Runs -/

/-- A step of the threads of processes, of the broker or of `exit_threaded`. -/
inductive ExitCall (ι κ : Type)
  | setStatus (t : ι) (status : Status)
  /-- The thread `c` finishes the thread `t`. -/
  | finish (c t : ι)
  | exit (c : ι) (p : κ) (status : ℤ)
  | broker
  /-- The first loop of `exit_threaded`, in the thread `c`. -/
  | abortThreads (c : ι) (p : κ)
  /-- The rest of `exit_threaded`, if no thread is left. -/
  | exitThreadedEnd (p : κ)

def exitStep (s : Kernel ι κ) : ExitCall ι κ → Except Fault (Kernel ι κ)
  | .setStatus t status => .ok (s.modify t fun x => { x with status := status })
  | .finish c t =>
    if t ∈ (s.process t).threads then s.run c (·.finish (some c) t) else .ok s
  | .exit c p status => s.run c (·.exitProcess (some c) p status)
  | .broker => s.brokerLoop
  | .abortThreads c p =>
    if (s.processes p).exitStage = .started then s.run c (·.abortThreads c p) else .ok s
  | .exitThreadedEnd p =>
    if (s.processes p).exitStage = .waiting then .ok (s.exitThreadedEnd p) else .ok s

/-- When the last thread of a process finishes, the broker has deleted all others, or the process
exits already. -/
def Prompt (s : Kernel ι κ) : ExitCall ι κ → Prop
  | .finish _ t => (s.process t).threads = [t] → (s.process t).exiting = true ∨
      ∀ u, Request.cleanup u ∈ s.requests → s.parent u ≠ s.parent t
  | _ => True

variable {p : κ}

theorem books_abortLoop {l : List ι} (hl : ∀ t ∈ l, (s.process t).threadsLock = true) :
    Returns (l.foldlM (fun s t => s.abort c t true) s) fun s' => s'.books = s.books := by
  induction l generalizing s with
  | nil => exact .ok rfl
  | cons t l ih =>
    refine (books_abort (hl t mem_cons_self)).bind fun s1 h1 => ?_
    refine (ih fun u hu => ?_).mono fun s2 h2 => h2.trans h1
    have hp : s1.process u = s.process u :=
      congrArg (fun b => b.processes (b.parent u)) h1
    rw [hp]
    exact hl u (mem_cons_of_mem t hu)

theorem books_abortThreads (ho : ∀ t ∈ (s.processes p).threads, s.parent t = p) :
    Returns (s.abortThreads c p) fun s' => s'.books = s.books.modifyProcess p fun x =>
      { x with threadsLock := false, exitStage := .waiting } := by
  have hl : (s.modifyProcess p fun x => { x with threadsLock := true }).processes p =
      { s.processes p with threadsLock := true } := update_self ..
  refine .bind (books_abortLoop fun t ht => ?_) fun s1 h1 => .ok ?_
  · rw [hl] at ht
    rw [process, show (s.modifyProcess p _).parent t = p from ho t ht, hl]
  rw [books_modifyProcess, h1, books_modifyProcess]
  refine Books.ext ?_ rfl rfl rfl
  change update (update s.processes p _) p _ = update s.processes p _
  rw [update_idem, Books.modifyProcess_self]

theorem abortThreads_nil (hn : (s.processes p).threads = []) :
    ∃ s', s.run c (·.abortThreads c p) = .ok s' ∧
      s'.processes p = { s.processes p with threadsLock := false, exitStage := .waiting } := by
  have hl : ((s.modify c fun x => { x with lock := true }).modifyProcess p fun x =>
      { x with threadsLock := true }).processes p = { s.processes p with threadsLock := true } :=
    update_self ..
  refine ⟨(((s.modify c fun x => { x with lock := true }).modifyProcess p fun x =>
      { x with threadsLock := true }).modifyProcess p fun x =>
        { x with threadsLock := false, exitStage := .waiting }).modify c fun x =>
          { x with lock := false }, ?_, ?_⟩
  · rw [run, Kernel.abortThreads, hl, hn]
    rfl
  · exact (update_self p _ _).trans (by rw [hl])

theorem brokerLoop_returns (h : s.books.Settled p) :
    ∃ s', s.brokerLoop = .ok s' ∧ s'.books.Settled p ∧ s'.requests = s.requests.tail ∧
      s'.parent = s.parent ∧ (s'.processes p).threads = (s.processes p).threads := by
  rw [brokerLoop]
  cases he : s.requests with
  | nil => exact ⟨s, rfl, h, he, rfl, rfl⟩
  | cons r rest =>
    rcases h.known r (show r ∈ s.requests from he ▸ mem_cons_self) with
      ⟨t, rfl⟩ | ⟨q, rfl⟩
    · obtain ⟨s', ho, hb⟩ := cleanup_returns (s := { s with requests := rest })
        (h.unlocked (s.parent t)) (h.free t)
      refine ⟨s', ho, ?_, congrArg Books.requests hb, congrArg Books.parent hb, ?_⟩
      · rw [hb]
        exact h.cleanup he
      rw [show s'.processes = _ from congrArg Books.processes hb]
      exact Books.modifyProcess_field (b := { s with requests := rest }.books) (fun x =>
        { x with threadCounter := x.threadCounter - 1 }) Process.threads rfl p
    refine ⟨_, rfl, ?_, rfl, rfl, Books.modifyProcess_field (b := s.books) (p := q)
      (fun x => { x with exitStage := .started }) Process.threads rfl p⟩
    refine h.stage (q := q) (fun x => { x with exitStage := .started }) rfl rfl (h.unlocked q) rfl
      (by simp) (by simp) (fun r hr => ?_) (fun hq hr => ?_) ?_
    · exact show r ∈ s.requests from he ▸ mem_cons_of_mem _ hr
    · rw [show s.books.requests = _ from he] at hr
      refine (mem_cons.mp hr).resolve_left fun heq => hq ?_
      exact (Request.exitThreaded.inj heq).symm
    · rw [Books.queued, show s.books.requests = _ from he, countP_cons]
      rfl

theorem settled_step (h : s.books.Settled p) {a : ExitCall ι κ} (hp : Prompt s a) :
    Returns (exitStep s a) fun s' => s'.books.Settled p := by
  have hi : Returns (.ok s : Except Fault (Kernel ι κ)) fun s' => s'.books.Settled p :=
    Ensures.ok h
  cases a with
  | setStatus t status =>
    refine .ok ?_
    rw [books_modify_unlocked (f := fun x => { x with status := status }) fun _ => rfl]
    exact h
  | finish c t =>
    refine .ite (fun ht => books_run (P := Books.Settled p) fun s1 h1 => ?_) fun _ => hi
    refine books_finish.mono fun s2 ⟨_, h2⟩ => ?_
    rw [h2, h1, Books.finish_setLock, setLock_setLock]
    · exact h.finish ht hp
    rw [Books.finish, Books.ask, (Books.exits_exitLast ..).locks]
    exact h.free c
  | exit c q status =>
    change Returns (s.run c fun s => s.exitProcess (some c) q status) _
    refine books_run (P := Books.Settled p) fun s1 h1 => books_exitProcess.mono fun s2 h2 => ?_
    have he := Books.exits_exitProcess s.books q status
    rw [h2, h1, Books.exitProcess_setLock, setLock_setLock]
    · exact h.of_exits he
    rw [he.locks]
    exact h.free c
  | broker =>
    obtain ⟨s', hk, hs, -, -⟩ := brokerLoop_returns h
    rw [exitStep, hk]
    exact .ok hs
  | abortThreads c q =>
    refine .ite (fun _ => books_run (P := Books.Settled p) fun s1 h1 => ?_) fun _ => hi
    have ho : ∀ t ∈ (s1.processes q).threads, s1.parent t = q := by
      intro t ht
      rw [show s1.processes = s.processes from congrArg Books.processes h1] at ht
      rw [show s1.parent = s.parent from congrArg Books.parent h1]
      exact h.own q t ht
    refine (books_abortThreads ho).mono fun s2 h2 => ?_
    have hb : s2.books.setLock c false = s.books.modifyProcess q fun x =>
        { x with threadsLock := false, exitStage := .waiting } := by
      rw [h2, h1]
      exact setLock_setLock (b := s.books.modifyProcess q fun x =>
        { x with threadsLock := false, exitStage := .waiting }) (h.free c)
    rw [hb]
    exact h.stage (q := q) (fun x => { x with threadsLock := false, exitStage := .waiting }) rfl rfl
      rfl rfl (by simp) (by simp) (fun r hr => hr) (fun _ hr => hr) rfl
  | exitThreadedEnd q =>
    refine .ite (fun hw => .ok ?_) fun _ => hi
    rw [exitThreadedEnd]
    split_ifs
    · exact h.stage (q := q) (fun x => { x with status := .dead, exitStage := .done }) rfl rfl
        (h.unlocked q) rfl (by simp) (fun _ => rfl) (fun r hr => hr) (fun _ hr => hr) rfl
    · exact h

theorem ends_of_started (c : ι) (h : s.books.Settled p) (hz : (s.processes p).threadCounter = 0)
    (hst : (s.processes p).exitStage ≠ .none) :
    ∃ s', Reach exitStep Prompt s s' ∧ (s'.processes p).status = .dead := by
  have hw {s1 : Kernel ι κ} (hz : (s1.processes p).threadCounter = 0)
      (ha : (s1.processes p).exitStage = .waiting) :
      ∃ s', Reach exitStep Prompt s1 s' ∧ (s'.processes p).status = .dead := by
    refine ⟨s1.exitThreadedEnd p, Reach.refl.step (.exitThreadedEnd p) trivial (if_pos ha), ?_⟩
    rw [exitThreadedEnd, if_pos hz]
    exact congrArg Process.status (update_self p _ s1.processes)
  cases hs : (s.processes p).exitStage with
  | none => exact absurd hs hst
  | done => exact ⟨s, Reach.refl, h.done hs⟩
  | waiting => exact hw hz hs
  | started =>
    -- the list is empty, so that the loop is over at once
    have hn : (s.processes p).threads = [] := (h.zero.mp hz).1
    obtain ⟨s1, ht, hp⟩ := abortThreads_nil (c := c) hn
    have hze1 : (s1.processes p).threadCounter = 0 := by
      rw [hp]
      exact hz
    have ha : (s1.processes p).exitStage = .waiting := by rw [hp]
    obtain ⟨s', hr, hd⟩ := hw hze1 ha
    exact ⟨s', (Reach.refl.step (.abortThreads c p) trivial ((if_pos hs).trans ht)).trans hr,
      hd⟩

theorem dies_of_exiting (c : ι) (h : s.books.Settled p) (hz : (s.processes p).threadCounter = 0) :
    ∃ s', Reach exitStep Prompt s s' ∧ (s'.processes p).status = .dead := by
  induction hl : s.requests.length generalizing s with
  | zero =>
    refine ends_of_started c h hz fun hn => ?_
    have ha := (h.asked (h.exits (h.zero.mp hz).1)).resolve_left (not_not.mpr hn)
    rw [show s.books.requests = [] from length_eq_zero_iff.mp hl] at ha
    cases ha
  | succ n ih =>
    obtain ⟨s1, hs, h1, he, hp, ht⟩ := brokerLoop_returns h
    have hze1 : (s1.processes p).threadCounter = 0 := by
      refine h1.zero.mpr ⟨ht.trans (h.zero.mp hz).1, ?_⟩
      have hq := (h.zero.mp hz).2
      rw [Books.queued, countP_eq_zero] at hq ⊢
      intro r hr
      rw [show s1.books.requests = _ from he] at hr
      rw [show s1.books.parent = _ from hp]
      exact hq r (mem_of_mem_tail hr)
    have hlen1 : s1.requests.length = n := by
      rw [he, length_tail, hl]
      rfl
    obtain ⟨s', hu, hd⟩ := ih h1 hze1 hlen1
    exact ⟨s', (Reach.refl.step .broker trivial hs).trans hu, hd⟩

/-- A state in which nothing has ended yet, with a process that has threads. -/
structure Begins (p : κ) (s : Kernel ι κ) : Prop where
  nonempty : (s.processes p).threads ≠ []
  count : (s.processes p).threadCounter = (s.processes p).threads.length
  exiting : (s.processes p).exiting = false
  exitStage : (s.processes p).exitStage = .none
  own : ∀ q, ∀ t ∈ (s.processes q).threads, s.parent t = q
  unlocked : ∀ q, (s.processes q).threadsLock = false
  free : ∀ t, (s.threads t).lock = false
  requests : s.requests = []

omit [DecidableEq ι] in
theorem Begins.settled (h : Begins p s) : s.books.Settled p := by
  refine ⟨⟨fun hex => ?_, fun hd => ?_, h.own, h.unlocked, h.free, fun r hr => ?_⟩, ?_,
    fun hn => absurd hn h.nonempty⟩
  · exact absurd (h.exiting.symm.trans hex) (by decide)
  · exact absurd (h.exitStage.symm.trans hd) (by decide)
  · rw [show s.books.requests = [] from h.requests] at hr
    cases hr
  · rw [Books.queued, show s.books.requests = [] from h.requests, countP_nil]
    exact h.count.trans (add_zero _).symm

/-- **A process exits with its last thread**: in every run in which the broker has deleted the other
threads of a process when the last one finishes, a process whose counter is zero has been made to
exit, and becomes dead. -/
theorem exits_of_prompt {s₀ : Kernel ι κ} (start : Begins p s₀) (run : Reach exitStep Prompt s₀ s)
    (hzero : (s.processes p).threadCounter = 0) :
    (s.processes p).exiting = true ∧
      ∃ s', Reach exitStep Prompt s s' ∧ (s'.processes p).status = .dead := by
  have hs : s.books.Settled p := run.invariant (P := fun s => s.books.Settled p) start.settled
    fun s a s' h hpr hst => (settled_step h hpr).of_ok hst
  obtain ⟨c, -⟩ := exists_mem_of_ne_nil _ start.nonempty
  exact ⟨hs.exits (hs.zero.mp hzero).1, dies_of_exiting c hs hzero⟩

instance (s : Kernel ι κ) : (a : ExitCall ι κ) → Decidable (Prompt s a)
  | .finish _ t => decidable_of_iff ((s.process t).threads = [t] → (s.process t).exiting = true ∨
      ∀ r ∈ s.requests, ¬ Books.cleans s.parent (s.parent t) r = true) <| by
    refine imp_congr_right fun _ => or_congr_right ⟨fun h u hu heq => ?_, fun h r hr hclean => ?_⟩
    · exact h _ hu (decide_eq_true heq)
    cases r with
    | cleanup u => exact h u hr (of_decide_eq_true hclean)
    | exitThreaded q | signalEnter u info waiter | signalExit u => cases hclean
  | .setStatus _ _ | .exit _ _ _ | .broker | .abortThreads _ _ | .exitThreadedEnd _ => .isTrue trivial

def twoProcesses : Kernel (Fin 3) Bool where
  threads _ := {}
  parent t := t = 2
  processes p := if p then { threadCounter := 1, threads := [2] }
    else { threadCounter := 2, threads := [0, 1] }

theorem begins_twoProcesses : Begins false twoProcesses where
  nonempty := by decide
  count := rfl
  exiting := rfl
  exitStage := rfl
  own := by decide
  unlocked := by decide
  free _ := rfl
  requests := rfl

theorem exits_of_prompt_twoThreads :
    Begins false twoProcesses ∧ ∃ s ∈ execute exitStep Prompt twoProcesses
        [.setStatus 0 .dead, .finish 2 0, .broker, .setStatus 1 .dead, .finish 2 1, .broker, .broker],
      (s.processes false).threadCounter = 0 ∧ (s.processes false).exiting = true ∧
        ∃ s', Reach exitStep Prompt s s' ∧ (s'.processes false).status = .dead := by
  refine ⟨begins_twoProcesses, exists_execute
    (P := fun s => (s.processes false).threadCounter = 0) (by decide) ?_⟩
  intro s hs hze
  exact ⟨hze, exits_of_prompt begins_twoProcesses hs hze⟩

theorem not_exits_twoThreads :
    ∃ s ∈ execute exitStep (fun _ _ => True) twoProcesses
        [.setStatus 0 .dead, .setStatus 1 .dead, .finish 2 0, .finish 2 1, .broker, .broker],
      (s.processes false).threadCounter = 0 ∧ (s.processes false).exiting = false ∧
        s.requests = [] := by
  decide

end Kernel

end AexKernel.Proc
