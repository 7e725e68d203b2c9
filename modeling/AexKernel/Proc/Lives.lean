import AexKernel.Proc.Thread

/-! # The lives of threads

What the life of threads is about, apart from the code. -/

namespace AexKernel.Proc

open List Function

/-- What the life of threads is about. -/
@[ext]
structure Lives (ι : Type) where
  status : ι → Status
  joiner : ι → Option ι
  detached : ι → Bool
  /-- The thread that a thread waits for in `join`. -/
  joining : ι → Option ι
  linked : ι → Bool
  finished : List ι

namespace Lives

variable {ι : Type} [DecidableEq ι]

def setStatus (v : Lives ι) (t : ι) (status : Status) : Lives ι :=
  { v with status := Function.update v.status t status }

def setJoiner (v : Lives ι) (t : ι) (joiner : Option ι) : Lives ι :=
  { v with joiner := Function.update v.joiner t joiner }

def setDetached (v : Lives ι) (t : ι) (detached : Bool) : Lives ι :=
  { v with detached := Function.update v.detached t detached }

def setJoining (v : Lives ι) (t : ι) (joining : Option ι) : Lives ι :=
  { v with joining := Function.update v.joining t joining }

def finish (v : Lives ι) (t : ι) : Lives ι :=
  { v with linked := Function.update v.linked t false, finished := v.finished ++ [t] }

section

variable (v : Lives ι)
include v

@[simp] theorem setStatus_self (t : ι) : v.setStatus t (v.status t) = v := by
  rw [setStatus, update_eq_self]

@[simp] theorem setJoiner_self (t : ι) : v.setJoiner t (v.joiner t) = v := by
  rw [setJoiner, update_eq_self]

@[simp] theorem setDetached_self (t : ι) : v.setDetached t (v.detached t) = v := by
  rw [setDetached, update_eq_self]

@[simp] theorem setJoining_self (t : ι) : v.setJoining t (v.joining t) = v := by
  rw [setJoining, update_eq_self]

end

/-- A thread is finished once and only when it is dead, and a thread in `join` is the joiner of a
thread that is neither finished nor detached. -/
structure Sound (v : Lives ι) : Prop where
  joiner : ∀ j t, v.joining j = some t → v.joiner t = some j
  linked : ∀ j t, v.joining j = some t → v.linked t = true
  attached : ∀ j t, v.joining j = some t → v.detached t = false
  waiting : ∀ j t, v.joining j = some t →
    v.status j = .blocked ∨ v.status j = .runnable ∧ v.status t = .dead
  joining : ∀ t j, v.joiner t = some j → v.linked t = true → v.joining j = some t
  nodup : v.finished.Nodup
  finished : ∀ t, t ∈ v.finished ↔ v.linked t = false
  dead : ∀ t, v.linked t = false → v.status t = .dead

namespace Sound

variable {v : Lives ι} {c j t : ι}

section

omit [DecidableEq ι]

section

variable (h : v.Sound)
include h

theorem linked_of_status (hs : v.status t ≠ .dead) : v.linked t = true := by
  by_contra hl
  exact hs (h.dead t (Bool.not_eq_true _ ▸ hl))

theorem unjoined (ho : v.joiner t = none) (j : ι) : v.joining j ≠ some t := by
  intro hj
  rw [h.joiner j t hj] at ho
  cases ho

theorem status_ne (hj : v.joining j = some t) : v.status j ≠ .dead := by
  rcases h.waiting j t hj with hs | ⟨hs, -⟩ <;> rw [hs] <;> decide

theorem blocked (hj : v.joining j = some t) (ht : v.status t ≠ .dead) : v.status j = .blocked :=
  (h.waiting j t hj).resolve_right fun hs => ht hs.2

end

end

section

variable (h : v.Sound)
include h

theorem setStatus (hf : v.joining t = none) (hl : v.linked t = true) {st : Status}
    (hw : ∀ j, v.joining j = some t → v.status j = .blocked ∨ st = .dead) :
    (v.setStatus t st).Sound where
  joiner := h.joiner
  linked := h.linked
  attached := h.attached
  joining := h.joining
  nodup := h.nodup
  finished := h.finished
  waiting j u hj := by
    have hjt : j ≠ t := by
      rintro rfl
      exact absurd (hf.symm.trans hj) (by simp)
    change update v.status t st j = _ ∨
      update v.status t st j = _ ∧ update v.status t st u = _
    rw [update_of_ne hjt]
    by_cases ht : u = t
    · subst ht
      rw [update_self]
      rcases hw j hj with hb | hd
      · exact .inl hb
      rcases h.waiting j u hj with hb | ⟨hr, -⟩
      · exact .inl hb
      · exact .inr ⟨hr, hd⟩
    · rw [update_of_ne ht]
      exact h.waiting j u hj
  dead u hu := by
    have ht : u ≠ t := by
      rintro rfl
      exact absurd (hl.symm.trans hu) (by simp)
    exact (update_of_ne ht ..).trans (h.dead u hu)

theorem wake (ho : v.joiner t = some j) (hl : v.linked t = true) (he : v.status t = .dead) :
    (v.setStatus j .runnable).Sound := by
  have hj := h.joining t j ho hl
  have ht : t ≠ j := by
    rintro rfl
    exact h.status_ne hj he
  refine ⟨h.joiner, h.linked, h.attached, fun i u hi => ?_, h.joining, h.nodup, h.finished,
    fun u hu => ?_⟩
  · change update v.status j .runnable i = _ ∨
      update v.status j .runnable i = _ ∧ update v.status j .runnable u = _
    by_cases hij : i = j
    · subst hij
      obtain rfl := Option.some.inj (hj.symm.trans hi)
      rw [update_self, update_of_ne ht]
      exact .inr ⟨rfl, he⟩
    rw [update_of_ne hij]
    rcases h.waiting i u hi with hb | ⟨hr, hd⟩
    · exact .inl hb
    have huj : u ≠ j := by
      rintro rfl
      exact h.status_ne hj hd
    rw [update_of_ne huj]
    exact .inr ⟨hr, hd⟩
  · have huj : u ≠ j := by
      rintro rfl
      exact h.status_ne hj (h.dead u hu)
    exact (update_of_ne huj ..).trans (h.dead u hu)

theorem finish (hi : v.linked t = true) (hd : v.status t = .dead)
    (hf : ∀ j, v.joining j ≠ some t) : (v.finish t).Sound := by
  have hl (u : ι) : (v.finish t).linked u = true ↔ u ≠ t ∧ v.linked u = true := by
    change update v.linked t false u = true ↔ _
    by_cases ht : u = t
    · simp [ht]
    · simp [ht]
  have hn (u : ι) : (v.finish t).linked u = false ↔ u = t ∨ v.linked u = false := by
    rw [← Bool.not_eq_true, hl, ← Bool.not_eq_true]
    tauto
  refine ⟨h.joiner, fun j u hj => ?_, h.attached, h.waiting, fun u j hj hu => ?_, ?_, fun u => ?_,
    fun u hu => ?_⟩
  · refine (hl u).mpr ⟨?_, h.linked j u hj⟩
    rintro rfl
    exact hf j hj
  · exact h.joining u j hj ((hl u).mp hu).2
  · refine nodup_append.mpr ⟨h.nodup, nodup_singleton t, ?_⟩
    rintro u hu w hw rfl
    rw [mem_singleton] at hw
    subst hw
    exact absurd (hi.symm.trans ((h.finished u).mp hu)) (by simp)
  · rw [hn, ← h.finished, or_comm]
    exact mem_append.trans (or_congr_right mem_singleton)
  · rcases (hn u).mp hu with rfl | hu
    · exact hd
    · exact h.dead u hu

theorem detach (hf : ∀ j, v.joining j ≠ some t) :
    (v.setDetached t true).Sound where
  joiner := h.joiner
  linked := h.linked
  waiting := h.waiting
  joining := h.joining
  nodup := h.nodup
  finished := h.finished
  dead := h.dead
  attached j u hj := by
    have hu : u ≠ t := by
      rintro rfl
      exact hf j hj
    exact (update_of_ne hu ..).trans (h.attached j u hj)

theorem enter (hc : v.joining c = none) (hct : t ≠ c) (hs : v.status c ≠ .dead)
    (ho : v.joiner t = none) (he : v.detached t = false) (ht : v.status t ≠ .dead) :
    (((v.setJoiner t (some c)).setStatus c .blocked).setJoining c (some t)).Sound := by
  have hl := h.linked_of_status ht
  refine ⟨fun j u hj => ?_, fun j u hj => ?_, fun j u hj => ?_, fun j u hj => ?_,
    fun u j hj hu => ?_, h.nodup, h.finished, fun u hu => ?_⟩
  all_goals
    try change update v.joining c (some t) j = some u at hj
  · change update v.joiner t (some c) u = some j
    by_cases hjc : j = c
    · subst hjc
      rw [update_self] at hj
      cases hj
      rw [update_self]
    rw [update_of_ne hjc] at hj
    have hut : u ≠ t := by
      rintro rfl
      exact h.unjoined ho j hj
    rw [update_of_ne hut]
    exact h.joiner j u hj
  · by_cases hjc : j = c
    · subst hjc
      rw [update_self] at hj
      cases hj
      exact hl
    · rw [update_of_ne hjc] at hj
      exact h.linked j u hj
  · by_cases hjc : j = c
    · subst hjc
      rw [update_self] at hj
      cases hj
      exact he
    · rw [update_of_ne hjc] at hj
      exact h.attached j u hj
  · change update v.status c .blocked j = _ ∨
      update v.status c .blocked j = _ ∧ update v.status c .blocked u = _
    by_cases hjc : j = c
    · subst hjc
      exact .inl (update_self ..)
    rw [update_of_ne hjc] at hj ⊢
    rcases h.waiting j u hj with hb | ⟨hr, hd⟩
    · exact .inl hb
    have huc : u ≠ c := by
      rintro rfl
      exact hs hd
    rw [update_of_ne huc]
    exact .inr ⟨hr, hd⟩
  · change update v.joiner t (some c) u = some j at hj
    change update v.joining c (some t) j = some u
    by_cases hut : u = t
    · subst hut
      rw [update_self] at hj
      cases hj
      rw [update_self]
    rw [update_of_ne hut] at hj
    have hju := h.joining u j hj hu
    have hjc : j ≠ c := by
      rintro rfl
      exact absurd (hc.symm.trans hju) (by simp)
    rw [update_of_ne hjc]
    exact hju
  · have huc : u ≠ c := by
      rintro rfl
      exact hs (h.dead u hu)
    exact (update_of_ne huc ..).trans (h.dead u hu)

theorem leave (hc : v.joining c = some t) (st : Status) :
    (((v.setJoiner t none).setStatus c st).setJoining c none).Sound := by
  have hold {j u : ι} (hj : update v.joining c none j = some u) : j ≠ c ∧ v.joining j = some u := by
    by_cases hjc : j = c
    · subst hjc
      rw [update_self] at hj
      cases hj
    · exact ⟨hjc, by rwa [update_of_ne hjc] at hj⟩
  refine ⟨fun j u hj => ?_, fun j u hj => h.linked j u (hold hj).2,
    fun j u hj => h.attached j u (hold hj).2, fun j u hj => ?_, fun u j hj hu => ?_, h.nodup,
    h.finished, fun u hu => ?_⟩
  · obtain ⟨hjc, hju⟩ := hold hj
    have ht : u ≠ t := by
      rintro rfl
      exact hjc (Option.some.inj ((h.joiner j u hju).symm.trans (h.joiner c u hc)))
    exact (update_of_ne ht ..).trans (h.joiner j u hju)
  · obtain ⟨hjc, hju⟩ := hold hj
    change update v.status c st j = _ ∨
      update v.status c st j = _ ∧ update v.status c st u = _
    rw [update_of_ne hjc]
    rcases h.waiting j u hju with hb | ⟨hr, hd⟩
    · exact .inl hb
    have huc : u ≠ c := by
      rintro rfl
      exact h.status_ne hc hd
    rw [update_of_ne huc]
    exact .inr ⟨hr, hd⟩
  · change update v.joiner t none u = some j at hj
    change update v.joining c none j = some u
    by_cases ht : u = t
    · subst ht
      rw [update_self] at hj
      cases hj
    rw [update_of_ne ht] at hj
    have hju := h.joining u j hj hu
    have hjc : j ≠ c := by
      rintro rfl
      exact ht (Option.some.inj (hju.symm.trans hc))
    rw [update_of_ne hjc]
    exact hju
  · have huc : u ≠ c := by
      rintro rfl
      exact h.status_ne hc (h.dead u hu)
    exact (update_of_ne huc ..).trans (h.dead u hu)

theorem setJoiner (hn : v.linked t = false) (joiner : Option ι) :
    (v.setJoiner t joiner).Sound := by
  refine ⟨fun j u hj => ?_, h.linked, h.attached, h.waiting, fun u j hj hu => ?_, h.nodup,
    h.finished, h.dead⟩
  · have ht : u ≠ t := by
      rintro rfl
      exact absurd (hn.symm.trans (h.linked j u hj)) (by simp)
    exact (update_of_ne ht ..).trans (h.joiner j u hj)
  have ht : u ≠ t := by
    rintro rfl
    exact absurd (hn.symm.trans hu) (by simp)
  exact h.joining u j ((update_of_ne ht ..).symm.trans hj) hu

theorem finishJoined (hc : v.joining c = some t) (hd : v.status t = .dead) (st : Status) :
    (((v.finish t).setStatus c st).setJoining c none).Sound := by
  have ht : t ≠ c := by
    rintro rfl
    exact h.status_ne hc hd
  have hl := h.leave hc st
  have hf := hl.finish (h.linked c t hc)
    ((update_of_ne ht ..).trans hd) (hl.unjoined (update_self ..))
  have hb := hf.setJoiner (update_self ..) (some c)
  have he : ((v.setJoiner t none).setJoiner t (some c)) = v := by
    rw [Lives.setJoiner, Lives.setJoiner, update_idem, ← h.joiner c t hc, update_eq_self]
  have hg : (((((v.setJoiner t none).setJoiner t (some c)).finish t).setStatus c
      st).setJoining c none).Sound := hb
  rwa [he] at hg

end

end Sound

end Lives

end AexKernel.Proc
