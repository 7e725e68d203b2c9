import AexKernel.Library.Refinement
import AexKernel.Proc.Scheduler

/-! # The process list and the thread list (`proc.cpp`)

Processes and threads are linked to rings by their own `next` and `prev`. -/

namespace AexKernel.Proc

open Library List Function

/-! ## Processes -/

/-- The processes, `process_list_head`, `process_list_tail`, `process_list_size` and the counter of
`add_process`. -/
structure ProcessRing (ι : Type) where
  next : ι → Option ι
  prev : ι → Option ι
  pid : ι → BitVec 32
  head : Option ι := none
  tail : Option ι := none
  size : ℕ := 0
  counter : BitVec 32 := 0

/-- What happens to the list. -/
inductive ProcessCall (ι : Type)
  /-- `Process::Process`. -/
  | create (p : ι)
  /-- `Process::~Process`. -/
  | destroy (p : ι)

namespace ProcessRing

variable {ι : Type}

def links (s : ProcessRing ι) : Option (LinkedRing ι) :=
  match s.head, s.tail with
  | some head, some tail => some ⟨s.next, s.prev, head, tail⟩
  | _, _ => none

def setLinks (s : ProcessRing ι) (r : LinkedRing ι) : ProcessRing ι :=
  { s with next := r.next, prev := r.prev, head := some r.head, tail := some r.tail }

variable [DecidableEq ι]

/-- `add_process(process)`. -/
def addProcess (s : ProcessRing ι) (p : ι) : Except Fault (BitVec 32 × ProcessRing ι) :=
  if s.head = none then
    .ok (s.counter,
      { s with
        next := Function.update s.next p (some p), prev := Function.update s.prev p (some p)
        head := some p, tail := some p, size := s.size + 1, counter := s.counter + 1 })
  else
    match s.links with
    | none => .error .outOfBounds
    | some r => .ok (s.counter,
        { s.setLinks (r.pushTail p) with size := s.size + 1, counter := s.counter + 1 })

/-- `remove_process(process)`. -/
def removeProcess (s : ProcessRing ι) (p : ι) : Except Fault (ProcessRing ι) :=
  if s.size = 0 then .error (.assertion "process_list_size > 0")
  else
    match s.links.bind (·.unlink p) with
    | none => .error .outOfBounds
    | some r => .ok { s.setLinks r with size := s.size - 1 }

omit [DecidableEq ι] in
/-- The loop of `get_process`. -/
def search (s : ProcessRing ι) (pid : BitVec 32) : ℕ → Option ι → Except Fault (Option ι)
  | 0, _ => .ok none
  | _ + 1, none => .error .outOfBounds
  | k + 1, some p => if s.pid p = pid then .ok (some p) else s.search pid k (s.next p)

omit [DecidableEq ι] in
/-- `get_process(pid)`. -/
def getProcess (s : ProcessRing ι) (pid : BitVec 32) : Except Fault (Option ι) :=
  s.search pid s.size s.head

/-- A process is made with the number of `add_process`, or taken out. -/
def step (s : ProcessRing ι) : ProcessCall ι → Except Fault (ProcessRing ι)
  | .create p => do
    let (pid, s) ← s.addProcess p
    return { s with pid := Function.update s.pid p pid }
  | .destroy p => s.removeProcess p

/-- The members in the order in which they were made, and how many were made. -/
def spec (t : List ι × ℕ) : ProcessCall ι → List ι × ℕ
  | .create p => (t.1 ++ [p], t.2 + 1)
  | .destroy p => (t.1.erase p, t.2)

/-- A process is made once and destroyed after that, and one process remains. -/
def Allowed (state : ProcessRing ι × List ι × ℕ) : ProcessCall ι → Prop
  | .create p => p ∉ state.2.1
  | .destroy p => p ∈ state.2.1 ∧ 2 ≤ state.2.1.length

instance (state : ProcessRing ι × List ι × ℕ) : DecidablePred (Allowed state)
  | .create p => inferInstanceAs (Decidable (p ∉ state.2.1))
  | .destroy p => inferInstanceAs (Decidable (p ∈ state.2.1 ∧ 2 ≤ state.2.1.length))

/-- The fields are the ring of the list, unless the list is empty. -/
structure Represents (s : ProcessRing ι) (l : List ι) : Prop where
  size : l.length = s.size
  ring : l = [] ∧ s.head = none ∨ ∃ r, s.links = some r ∧ r.Holds l

section

variable {s s' : ProcessRing ι} {l : List ι} {r : LinkedRing ι} {p : ι}

omit [DecidableEq ι] in
theorem links_eq_some (h : s.links = some r) :
    s.next = r.next ∧ s.prev = r.prev ∧ s.head = some r.head ∧ s.tail = some r.tail := by
  rw [links] at h
  split at h
  · next head tail hh ht =>
    cases h
    exact ⟨rfl, rfl, hh, ht⟩
  · cases h

theorem Represents.create (h : s.Represents l) (hp : p ∉ l) (ht : s.step (.create p) = .ok s') :
    s'.Represents (l ++ [p]) := by
  obtain ⟨⟨pid, s1⟩, ha, hu⟩ := bind_eq_ok.mp ht
  cases hu
  have hs : (l ++ [p]).length = s.size + 1 := by
    rw [length_append, h.size]
    rfl
  rw [addProcess] at ha
  obtain ⟨rfl, hh⟩ | ⟨r, hl, ho⟩ := h.ring
  · rw [if_pos hh] at ha
    cases ha
    refine ⟨hs, .inr ⟨_, rfl, nodup_singleton p, rfl, rfl, .singleton p, fun x hx y hy => ?_⟩⟩
    obtain rfl : p = x := Option.some.inj hx
    obtain rfl : p = y := Option.some.inj hy
    exact ⟨update_self .., update_self ..⟩
  have hh : s.head ≠ none := by
    rw [(links_eq_some hl).2.2.1]
    exact Option.some_ne_none _
  rw [if_neg hh, hl] at ha
  cases ha
  exact ⟨hs, .inr ⟨_, rfl, ho.pushTail hp⟩⟩

theorem Represents.destroy (h : s.Represents l) (hp : p ∈ l) (ht : 2 ≤ l.length)
    (hs : s.step (.destroy p) = .ok s') : s'.Represents (l.erase p) := by
  obtain ⟨l1, l2, rfl⟩ := append_of_mem hp
  have hl := h.size
  rw [length_append, length_cons] at hl ht
  obtain ⟨hn, -⟩ | ⟨r, hi, hh⟩ := h.ring
  · rw [hn] at hp
    cases hp
  have hp1 : p ∉ l1 := fun hm =>
    disjoint_of_nodup_append hh.nodup hm mem_cons_self
  have he : l1 ++ l2 ≠ [] := by
    intro hq
    have hz := congrArg length hq
    rw [length_append, length_nil] at hz
    omega
  obtain ⟨r', hu, hh', -⟩ := hh.unlink he
  rw [step, removeProcess, hi, Option.bind_some, hu] at hs
  split_ifs at hs
  cases hs
  rw [erase_append_right _ hp1, erase_cons_head]
  refine ⟨?_, .inr ⟨r', rfl, hh'⟩⟩
  rw [length_append]
  show l1.length + l2.length = s.size - 1
  omega

omit [DecidableEq ι] in
theorem search_of_isChain {x : ι} (hn : s.next = r.next) (h : (x :: l).IsChain r.Adjacent)
    (pid : BitVec 32) :
    s.search pid (x :: l).length (some x) = .ok ((x :: l).find? fun p => s.pid p = pid) := by
  induction l generalizing x with
  | nil =>
    rw [length_singleton, search, search]
    split_ifs with hp <;> simp [hp]
  | cons y m ih =>
    obtain ⟨ha, hr⟩ := isChain_cons_cons.mp h
    rw [length_cons, search, hn, ha.1, ih hr]
    split_ifs with hp
    · simp [hp]
    have hs : (x :: y :: m).find? (fun p => s.pid p = pid) =
        (y :: m).find? fun p => s.pid p = pid :=
      find?_cons_of_neg (by simpa using hp)
    rw [hs]

omit [DecidableEq ι] in
theorem Represents.getProcess (h : s.Represents l) (pid : BitVec 32) :
    s.getProcess pid = .ok (l.find? fun p => s.pid p = pid) := by
  rw [ProcessRing.getProcess, ← h.size]
  obtain ⟨rfl, -⟩ | ⟨r, hl, hh⟩ := h.ring
  · rfl
  obtain ⟨hn, -, he, -⟩ := links_eq_some hl
  obtain ⟨m, hm⟩ : ∃ m, l = r.head :: m := ⟨_, eq_cons_of_mem_head? hh.head⟩
  rw [he, hm]
  exact search_of_isChain hn (hm ▸ hh.cycle.1) pid

end

/-! ### Numbers -/

/-- The counter has counted the processes that were made, and as long as it has not come round, the
members have different numbers. -/
structure Numbered (s : ProcessRing ι) (t : List ι × ℕ) : Prop where
  counter : s.counter = BitVec.ofNat 32 t.2
  below : t.2 ≤ 2 ^ 32 → ∀ p ∈ t.1, (s.pid p).toNat < t.2
  nodup : t.2 ≤ 2 ^ 32 → (t.1.map s.pid).Nodup

section

variable {s s' : ProcessRing ι} {t : List ι × ℕ} {p : ι}

theorem addProcess_eq_ok {pid : BitVec 32} (h : s.addProcess p = .ok (pid, s')) :
    pid = s.counter ∧ s'.counter = s.counter + 1 ∧ s'.pid = s.pid := by
  rw [addProcess] at h
  split_ifs at h
  · cases h
    exact ⟨rfl, rfl, rfl⟩
  split at h
  · cases h
  cases h
  exact ⟨rfl, rfl, rfl⟩

theorem removeProcess_eq_ok (h : s.removeProcess p = .ok s') :
    s'.counter = s.counter ∧ s'.pid = s.pid := by
  rw [removeProcess] at h
  split_ifs at h
  split at h
  · cases h
  cases h
  exact ⟨rfl, rfl⟩

theorem Numbered.create (h : s.Numbered t) (hp : p ∉ t.1) (hs : s.step (.create p) = .ok s') :
    s'.Numbered (t.1 ++ [p], t.2 + 1) := by
  obtain ⟨⟨pid, s1⟩, hd, hpu⟩ := bind_eq_ok.mp hs
  cases hpu
  obtain ⟨rfl, hc, hi⟩ := addProcess_eq_ok hd
  have hold : ∀ q ∈ t.1, update s1.pid p s.counter q = s.pid q := fun q hq => by
    rw [update_of_ne (fun he : q = p => hp (he ▸ hq)), hi]
  have hn : update s1.pid p s.counter p = s.counter := update_self ..
  have hu : t.2 + 1 ≤ 2 ^ 32 → s.counter.toNat = t.2 := fun hl => by
    rw [h.counter, BitVec.toNat_ofNat, Nat.mod_eq_of_lt hl]
  refine ⟨?_, fun hl q hq => ?_, fun hl => ?_⟩
  · show s1.counter = _
    rw [hc, h.counter, BitVec.ofNat_add]
    rfl
  · show (update s1.pid p s.counter q).toNat < t.2 + 1
    obtain hq | hq := mem_append.mp hq
    · rw [hold q hq]
      have ht := h.below (by dsimp only at hl; omega) q hq
      omega
    · obtain rfl := mem_singleton.mp hq
      rw [hn, hu hl]
      omega
  show ((t.1 ++ [p]).map (update s1.pid p s.counter)).Nodup
  have hl' : t.2 ≤ 2 ^ 32 := by
    omega
  rw [map_append, map_singleton, hn, map_congr_left hold]
  refine nodup_append.mpr ⟨h.nodup hl', nodup_singleton _, fun a ha b hb hab => ?_⟩
  obtain ⟨q, hq, rfl⟩ := mem_map.mp ha
  obtain rfl := mem_singleton.mp hb
  have ht := h.below hl' q hq
  rw [hab, hu hl] at ht
  exact lt_irrefl _ ht

theorem Numbered.destroy (h : s.Numbered t) (hs : s.step (.destroy p) = .ok s') :
    s'.Numbered (t.1.erase p, t.2) := by
  obtain ⟨hc, hp⟩ := removeProcess_eq_ok hs
  refine ⟨hc.trans h.counter, fun hl q hq => ?_, fun hl => ?_⟩
  · rw [hp]
    exact h.below hl q (mem_of_mem_erase hq)
  · rw [hp]
    exact (h.nodup hl).sublist (erase_sublist.map _)

end

def init (next prev : ι → Option ι) (pid : ι → BitVec 32) : ProcessRing ι where
  next := next
  prev := prev
  pid := pid

theorem represents {next prev : ι → Option ι} {pid : ι → BitVec 32} {s : ProcessRing ι}
    {t : List ι × ℕ}
    (hr : Reach (alongside step spec) Allowed (init next prev pid, [], 0) (s, t)) :
    s.Represents t.1 ∧ s.Numbered t := by
  have he : (init next prev pid).Numbered ([], 0) :=
    ⟨rfl, fun _ _ hp => (nomatch hp), fun _ => nodup_nil⟩
  refine hr.alongside (R := fun s t => s.Represents t.1 ∧ s.Numbered t)
    ⟨⟨rfl, .inl ⟨rfl, rfl⟩⟩, he⟩ fun s t a s' h ha hs => ?_
  cases a with
  | create p => exact ⟨h.1.create ha hs, h.2.create ha hs⟩
  | destroy p => exact ⟨h.1.destroy ha.1 ha.2 hs, h.2.destroy hs⟩

end ProcessRing

/-! ## Threads -/

/-- What happens to the ring of threads. -/
inductive ThreadCall (ι : Type) (n : ℕ)
  | addThread (t : ι)
  | removeThread (t : ι)
  | runIdle (c : Fin n) (t : ι)

namespace Scheduler

variable {ι κ : Type} {n : ℕ} [DecidableEq ι]

def listStep (s : Scheduler ι κ n) : ThreadCall ι n → Except Fault (Scheduler ι κ n)
  | .addThread t => s.addThread t
  | .removeThread t => s.removeThread t
  | .runIdle c t => .ok (s.runIdle c t)

def listSpec (l : List ι) : ThreadCall ι n → List ι
  | .addThread t => l ++ [t]
  | .removeThread t => l.erase t
  | .runIdle _ _ => l

/-- A thread is added once and removed after that, one thread remains, and idle threads are not
added. -/
def ListAllowed (state : Scheduler ι κ n × List ι) : ThreadCall ι n → Prop
  | .addThread t => t ∉ state.2 ∧ ∀ c, state.1.idle c ≠ t
  | .removeThread t => t ∈ state.2 ∧ 2 ≤ state.2.length
  | .runIdle c t => t ∈ state.2 ∨ t = state.1.idle c

instance (state : Scheduler ι κ n × List ι) : DecidablePred (ListAllowed state)
  | .addThread t => inferInstanceAs (Decidable (t ∉ state.2 ∧ ∀ c, state.1.idle c ≠ t))
  | .removeThread t => inferInstanceAs (Decidable (t ∈ state.2 ∧ 2 ≤ state.2.length))
  | .runIdle c t => inferInstanceAs (Decidable (t ∈ state.2 ∨ t = state.1.idle c))

/-- The fields are the ring of the list, the idle threads are outside and go on in it. -/
structure Represents (s : Scheduler ι κ n) (l : List ι) : Prop where
  size : l.length = s.size
  holds : s.links.Holds l
  idle_notMem : ∀ c, s.idle c ∉ l
  cursor_mem : ∀ c u, s.links.next (s.idle c) = some u → u ∈ l

section

variable {s s' : Scheduler ι κ n} {l : List ι} {t : ι}

theorem Represents.addThread (h : s.Represents l) (ht : t ∉ l) (hi : ∀ c, s.idle c ≠ t)
    (hs : s.addThread t = .ok s') : s'.Represents (l ++ [t]) := by
  rw [Scheduler.addThread] at hs
  split_ifs at hs
  cases hs
  refine ⟨?_, h.holds.pushTail ht, fun c hm => ?_, fun c u hu => ?_⟩
  · rw [length_append, h.size]
    rfl
  · obtain hm | hm := mem_append.mp hm
    · exact h.idle_notMem c hm
    · exact hi c (mem_singleton.mp hm)
  have ha : s.idle c ≠ s.links.tail := fun he => h.idle_notMem c (he ▸ h.holds.tail_mem)
  rw [LinkedRing.pushTail_next, if_neg (hi c), if_neg ha] at hu
  exact mem_append_left _ (h.cursor_mem c u hu)

theorem Represents.removeThread (h : s.Represents l) (ht : t ∈ l) (hw : 2 ≤ l.length)
    (hs : s.removeThread t = .ok s') : s'.Represents (l.erase t) := by
  obtain ⟨l1, l2, rfl⟩ := append_of_mem ht
  have hl := h.size
  rw [length_append, length_cons] at hl hw
  have ht1 : t ∉ l1 := fun hm =>
    disjoint_of_nodup_append h.holds.nodup hm mem_cons_self
  have hn : l1 ++ l2 ≠ [] := by
    intro he
    have hz := congrArg length he
    rw [length_append, length_nil] at hz
    omega
  obtain ⟨links, rfl, hi, -, hf, v, hv, htv⟩ :=
    removeThread_spec h.holds h.idle_notMem hn hs
  rw [erase_append_right _ ht1, erase_cons_head]
  refine ⟨?_, hi, fun c hm => h.idle_notMem c ?_, fun c u hu => ?_⟩
  · dsimp only
    rw [length_append]
    omega
  · simp only [mem_append, mem_cons] at hm ⊢
    tauto
  rw [hf _ (h.idle_notMem c)] at hu
  exact redirect_idle_mem h.idle_notMem h.holds.nodup hv htv (h.cursor_mem c) hu

theorem Represents.runIdle (h : s.Represents l) {c : Fin n} (ht : t ∈ l ∨ t = s.idle c) :
    (s.runIdle c t).Represents l := by
  have ha : (if t = s.idle c then s.links.head else t) ∈ l := by
    split_ifs with hi
    · exact h.holds.head_mem
    · exact ht.resolve_right hi
  refine ⟨h.size, h.holds.congr (fun x hx => ?_) (fun _ _ => rfl) rfl rfl, h.idle_notMem,
    fun d u hu => ?_⟩
  · exact update_of_ne (fun he : x = s.idle c => h.idle_notMem c (he ▸ hx)) ..
  change update s.links.next (s.idle c)
    (some (if t = s.idle c then s.links.head else t)) (s.idle d) = some u at hu
  generalize (if t = s.idle c then s.links.head else t) = target at hu ha
  rw [update_apply] at hu
  split_ifs at hu with hs
  · exact Option.some.inj hu ▸ ha
  · exact h.cursor_mem d u hu

end

/-- What `Proc::init` leaves: the thread that boots is the only one of the ring, and the idle threads
are new. -/
structure Init (s : Scheduler ι κ n) (bsp : ι) : Prop where
  next : s.links.next bsp = some bsp
  prev : s.links.prev bsp = some bsp
  head : s.links.head = bsp
  tail : s.links.tail = bsp
  size : s.size = 1
  idle : ∀ c, s.idle c ≠ bsp ∧ s.links.next (s.idle c) = none

omit [DecidableEq ι] in
theorem Init.represents {s : Scheduler ι κ n} {bsp : ι} (h : s.Init bsp) : s.Represents [bsp] where
  size := h.size.symm
  holds := by
    refine ⟨nodup_singleton bsp, congrArg some h.head.symm, congrArg some h.tail.symm,
      .singleton bsp, fun x hx y hy => ?_⟩
    obtain rfl : bsp = x := Option.some.inj hx
    obtain rfl : bsp = y := Option.some.inj hy
    exact ⟨h.next, h.prev⟩
  idle_notMem := fun c hm => (h.idle c).1 (mem_singleton.mp hm)
  cursor_mem := fun c u hu => nomatch (h.idle c).2.symm.trans hu

theorem represents {s₀ s : Scheduler ι κ n} {bsp : ι} {l : List ι} (h₀ : s₀.Init bsp)
    (hr : Reach (alongside listStep listSpec) ListAllowed (s₀, [bsp]) (s, l)) :
    s.Represents l := by
  refine hr.alongside (R := Represents) h₀.represents fun s l a s' h ha hs => ?_
  cases a with
  | addThread t => exact h.addThread ha.1 ha.2 hs
  | removeThread t => exact h.removeThread ha.1 ha.2 hs
  | runIdle c t =>
    cases hs
    exact h.runIdle ha

end Scheduler

/-! ## Both lists -/

open ProcessRing Scheduler in

/-- **The rings are in order.** In every state of a run the processes, once there are some, and the
threads are rings in the order of their addition, and `get_process` gives a member with the number,
if there is one and only then. -/
theorem rings_in_order {ι κ : Type} {n : ℕ} [DecidableEq ι] :
    (∀ (next prev : ι → Option ι) (pid : ι → BitVec 32) (s : ProcessRing ι) (t : List ι × ℕ),
      Reach (alongside ProcessRing.step ProcessRing.spec) ProcessRing.Allowed
        (init next prev pid, [], 0) (s, t) →
      (t.1 ≠ [] → ∃ r, s.links = some r ∧ r.InOrder s.size t.1) ∧
      ∀ number, ∃ found, s.getProcess number = .ok found ∧
        (∀ p ∈ found, p ∈ t.1 ∧ s.pid p = number ∧
          (t.2 ≤ 2 ^ 32 → ∀ q ∈ t.1, s.pid q = number → q = p)) ∧
        (found = none → ∀ p ∈ t.1, s.pid p ≠ number)) ∧
    ∀ (s₀ s : Scheduler ι κ n) (bsp : ι) (l : List ι), s₀.Init bsp →
      Reach (alongside listStep listSpec) ListAllowed (s₀, [bsp]) (s, l) →
      s.links.InOrder s.size l ∧ ∀ c u, s.links.next (s.idle c) = some u → u ∈ l := by
  constructor
  · intro next prev pid s t hrun
    obtain ⟨hlis, hnu⟩ := ProcessRing.represents hrun
    refine ⟨fun hne => ?_, fun number => ⟨_, hlis.getProcess number, fun p hp => ?_, ?_⟩⟩
    · obtain ⟨hnil, -⟩ | ⟨r, hli, hho⟩ := hlis.ring
      · exact absurd hnil hne
      · exact ⟨r, hli, hho.inOrder hlis.size⟩
    · have hmem := mem_of_find?_eq_some hp
      have hpid : s.pid p = number := by simpa using find?_some hp
      refine ⟨hmem, hpid, fun hle q hq hqp => ?_⟩
      exact inj_on_of_nodup_map (hnu.nodup hle) hq hmem (hqp.trans hpid.symm)
    · intro hnon p hp
      simpa using find?_eq_none.mp hnon p hp
  · intro s₀ s bsp l h₀ hrun
    have h := Scheduler.represents h₀ hrun
    exact ⟨h.holds.inOrder h.size, h.cursor_mem⟩

/-- A thread that boots, 0, and the idle thread 3 of the only processor. -/
def bootScheduler : Scheduler (Fin 4) Unit 1 where
  threads := fun _ => {}
  parent := fun _ => ()
  nice := fun _ => 0
  affinity := fun _ => 0
  links := { next := ![some 0, none, none, none], prev := ![some 0, none, none, none], head := 0, tail := 0 }
  size := 1
  current := ![0]
  idle := ![3]

open ProcessRing Scheduler in

theorem rings_in_order_three :
    (∃ p ∈ execute (alongside ProcessRing.step ProcessRing.spec) ProcessRing.Allowed
        ((init (fun _ => none) (fun _ => none) fun _ => 0 : ProcessRing (Fin 4)), [], 0)
        [.create 0, .create 1, .create 2, .destroy 0],
      p.2.1 = [1, 2] ∧ ∃ r, p.1.links = some r ∧ r.InOrder p.1.size p.2.1) ∧
    ∃ p ∈ execute (alongside listStep listSpec) ListAllowed (bootScheduler, [0])
        [.addThread 1, .addThread 2, .runIdle 0 1, .removeThread 1],
      p.2 = [0, 2] ∧ p.1.links.next 3 = some 2 ∧ p.1.links.InOrder p.1.size p.2 := by
  have hin : bootScheduler.Init 0 := by
    refine ⟨rfl, rfl, rfl, rfl, rfl, ?_⟩
    decide
  have h := rings_in_order (ι := Fin 4) (κ := Unit) (n := 1)
  constructor
  · refine exists_execute (P := fun p => p.2.1 = [1, 2]) (by decide) fun p hp hli => ?_
    refine ⟨hli, (h.1 _ _ _ _ _ hp).1 ?_⟩
    rw [hli]
    decide
  · exact exists_execute_both (by decide) fun q hq => (h.2 _ _ _ _ hin hq).1

end AexKernel.Proc
