import Mathlib.Data.List.Dedup

/-! # Programs that take and release a lock

The control flow of procedures that share a lock which must not be taken twice. -/

namespace AexKernel.Library

open List

/-- What a path does with the lock, and what it reads of the shared state. -/
inductive LockEvent (σ : Type*)
  | acquire
  | release
  | read (s : σ)
  deriving DecidableEq

/-- How a path leaves a program. -/
inductive Exit
  | normal | brk | cont | ret
  deriving DecidableEq, Repr

/-- A program. The procedures that it calls have names in `π`. -/
inductive LockProgram (π σ : Type)
  | skip
  | acquire
  | release
  | seq (c d : LockProgram π σ)
  | ite (cond : Option (σ → Bool)) (c d : LockProgram π σ)
  | loop (cond : Option (σ → Bool)) (c : LockProgram π σ)
  | brk
  | cont
  | ret
  | call (p : π)
  /-- A block that takes the lock and releases it at every exit. -/
  | scope (c : LockProgram π σ)

namespace LockProgram

variable {π σ : Type}

/-- A sequence of statements. -/
def block (l : List (LockProgram π σ)) : LockProgram π σ := l.foldr .seq .skip

/-- A branch without `else`. -/
def when (cond : Option (σ → Bool)) (c : LockProgram π σ) : LockProgram π σ := .ite cond c .skip

/-- A condition can have a value when it is tested in a state. -/
def Allows (cond : Option (σ → Bool)) (s : σ) (b : Bool) : Prop := ∀ p ∈ cond, p s = b

/-- The paths of a program: the events, and the exit of a path that has ended. -/
inductive Exec (body : π → LockProgram π σ) :
    LockProgram π σ → List (LockEvent σ) → Option Exit → Prop
  | stop (c : LockProgram π σ) : Exec body c [] none
  | skip : Exec body .skip [] (some .normal)
  | acquire : Exec body .acquire [.acquire] (some .normal)
  | release : Exec body .release [.release] (some .normal)
  | seq {c d : LockProgram π σ} {t u : List (LockEvent σ)} {o : Option Exit}
      (first : Exec body c t (some .normal)) (second : Exec body d u o) :
      Exec body (.seq c d) (t ++ u) o
  | seqLeft {c d : LockProgram π σ} {t : List (LockEvent σ)} {o : Option Exit}
      (first : Exec body c t o) (left : o ≠ some .normal) : Exec body (.seq c d) t o
  | thenBranch {cond : Option (σ → Bool)} {c d : LockProgram π σ} {s : σ} {t : List (LockEvent σ)}
      {o : Option Exit} (holds : Allows cond s true) (branch : Exec body c t o) :
      Exec body (.ite cond c d) (.read s :: t) o
  | elseBranch {cond : Option (σ → Bool)} {c d : LockProgram π σ} {s : σ} {t : List (LockEvent σ)}
      {o : Option Exit} (fails : Allows cond s false) (branch : Exec body d t o) :
      Exec body (.ite cond c d) (.read s :: t) o
  | loopEnd {cond : Option (σ → Bool)} {c : LockProgram π σ} {s : σ} (fails : Allows cond s false) :
      Exec body (.loop cond c) [.read s] (some .normal)
  | loopPass {cond : Option (σ → Bool)} {c : LockProgram π σ} {s : σ} {t u : List (LockEvent σ)}
      {e : Exit} {o : Option Exit} (holds : Allows cond s true) (pass : Exec body c t (some e))
      (goesOn : e = .normal ∨ e = .cont) (rest : Exec body (.loop cond c) u o) :
      Exec body (.loop cond c) (.read s :: t ++ u) o
  | loopBreak {cond : Option (σ → Bool)} {c : LockProgram π σ} {s : σ} {t : List (LockEvent σ)}
      (holds : Allows cond s true) (pass : Exec body c t (some .brk)) :
      Exec body (.loop cond c) (.read s :: t) (some .normal)
  | loopLeft {cond : Option (σ → Bool)} {c : LockProgram π σ} {s : σ} {t : List (LockEvent σ)}
      {o : Option Exit} (holds : Allows cond s true) (pass : Exec body c t o)
      (left : o = some .ret ∨ o = none) : Exec body (.loop cond c) (.read s :: t) o
  | brk : Exec body .brk [] (some .brk)
  | cont : Exec body .cont [] (some .cont)
  | ret : Exec body .ret [] (some .ret)
  | call {p : π} {t : List (LockEvent σ)} {e : Exit} (run : Exec body (body p) t (some e)) :
      Exec body (.call p) t (some .normal)
  | callLeft {p : π} {t : List (LockEvent σ)} (run : Exec body (body p) t none) :
      Exec body (.call p) t none
  | scope {c : LockProgram π σ} {t : List (LockEvent σ)} {e : Exit} (run : Exec body c t (some e)) :
      Exec body (.scope c) (.acquire :: t ++ [.release]) (some e)
  | scopeLeft {c : LockProgram π σ} {t : List (LockEvent σ)} (run : Exec body c t none) :
      Exec body (.scope c) (.acquire :: t) none

/-- Follow the events of a path. -/
def follow : Bool → List (LockEvent σ) → Option Bool
  | held, [] => some held
  | held, .acquire :: t => if held then none else follow true t
  | held, .release :: t => if held then follow false t else none
  | held, .read _ :: t => follow held t

/-- A path takes the lock only when it does not have it, releases it only when it has it, and does
not have it at its end. -/
def Disciplined (t : List (LockEvent σ)) (o : Option Exit) : Prop :=
  ∃ held, follow false t = some held ∧ (o.isSome → held = false)

/-- The first state that a path reads. -/
def firstRead : List (LockEvent σ) → Option σ
  | [] => none
  | .read s :: _ => some s
  | .acquire :: t | .release :: t => firstRead t

/-! ## The check -/

/-- With what a program can end that starts with or without the lock. -/
def check : LockProgram π σ → Bool → Option (List (Exit × Bool))
  | .skip, held => some [(.normal, held)]
  | .acquire, held => if held then none else some [(.normal, true)]
  | .release, held => if held then some [(.normal, false)] else none
  | .seq c d, held => do
    let first ← check c held
    let left := first.filter fun x => x.1 ≠ .normal
    let next (b : Bool) : Option (List (Exit × Bool)) :=
      if (Exit.normal, b) ∈ first then check d b else some []
    let unheld ← next false
    let held ← next true
    return (left ++ unheld ++ held).dedup
  | .ite _ c d, held => do
    let yes ← check c held
    let no ← check d held
    return (yes ++ no).dedup
  | .loop _ c, held => do
    let pass ← check c held
    if pass.all fun x => x.1 = .brk ∨ x.1 = .ret ∨ x.2 = held then
      return (.normal, held) :: (pass.filter fun x => x.1 = .brk ∨ x.1 = .ret).map fun x =>
        if x.1 = .brk then (.normal, x.2) else x
    else none
  | .brk, held => some [(.brk, held)]
  | .cont, held => some [(.cont, held)]
  | .ret, held => some [(.ret, held)]
  | .call _, held => if held then none else some [(.normal, false)]
  | .scope c, held =>
    if held then none
    else do
      let inner ← check c true
      if inner.all (·.2) then return inner.map fun x => (x.1, false) else none

/-- A program that is fit to be called. -/
def Fit (c : LockProgram π σ) : Prop := ∃ ends ∈ check c false, ∀ x ∈ ends, x.2 = false
deriving Decidable

/-! ## What was checked -/

section Checked

variable {c d : LockProgram π σ} {cond : Option (σ → Bool)} {held : Bool} {ends : List (Exit × Bool)}

theorem check_seq (h : check (.seq c d) held = some ends) : ∃ first, check c held = some first ∧
    (∀ e b, (e, b) ∈ first → e ≠ .normal → (e, b) ∈ ends) ∧
    ∀ b, (Exit.normal, b) ∈ first → ∃ second, check d b = some second ∧ second ⊆ ends := by
  obtain ⟨first, hf, h⟩ := Option.bind_eq_some_iff.mp h
  obtain ⟨unheld, hu, h⟩ := Option.bind_eq_some_iff.mp h
  obtain ⟨holding, hh, h⟩ := Option.bind_eq_some_iff.mp h
  cases h
  refine ⟨first, hf, fun e b hm hn => ?_, fun b hm => ?_⟩
  · rw [mem_dedup, append_assoc]
    exact mem_append_left _ (mem_filter.mpr ⟨hm, decide_eq_true hn⟩)
  cases b with
  | false =>
    dsimp only at hu
    rw [if_pos hm] at hu
    refine ⟨unheld, hu, fun x hx => ?_⟩
    rw [mem_dedup]
    exact mem_append_left _ (mem_append_right _ hx)
  | true =>
    dsimp only at hh
    rw [if_pos hm] at hh
    refine ⟨holding, hh, fun x hx => ?_⟩
    rw [mem_dedup]
    exact mem_append_right _ hx

theorem check_ite (h : check (.ite cond c d) held = some ends) : ∃ yes no,
    check c held = some yes ∧ check d held = some no ∧ yes ⊆ ends ∧ no ⊆ ends := by
  obtain ⟨yes, hy, h⟩ := Option.bind_eq_some_iff.mp h
  obtain ⟨no, hn, h⟩ := Option.bind_eq_some_iff.mp h
  cases h
  refine ⟨yes, no, hy, hn, fun x hx => ?_, fun x hx => ?_⟩
  · exact mem_dedup.mpr (mem_append_left _ hx)
  · exact mem_dedup.mpr (mem_append_right _ hx)

theorem check_loop (h : check (.loop cond c) held = some ends) : ∃ pass, check c held = some pass ∧
    (.normal, held) ∈ ends ∧
    (∀ e b, (e, b) ∈ pass → e = .normal ∨ e = .cont → b = held) ∧
    (∀ b, (Exit.brk, b) ∈ pass → (.normal, b) ∈ ends) ∧
    ∀ b, (Exit.ret, b) ∈ pass → (.ret, b) ∈ ends := by
  obtain ⟨pass, hp, h⟩ := Option.bind_eq_some_iff.mp h
  split_ifs at h with ha
  cases h
  refine ⟨pass, hp, mem_cons_self, fun e b hm hg => ?_, fun b hm => ?_, fun b hm => ?_⟩
  · have hs := of_decide_eq_true (all_eq_true.mp ha (e, b) hm)
    rcases hg with rfl | rfl
    · exact hs.resolve_left nofun |>.resolve_left nofun
    · exact hs.resolve_left nofun |>.resolve_left nofun
  · refine mem_cons_of_mem _ (mem_map.mpr ⟨(.brk, b), ?_, rfl⟩)
    exact mem_filter.mpr ⟨hm, rfl⟩
  · refine mem_cons_of_mem _ (mem_map.mpr ⟨(.ret, b), ?_, rfl⟩)
    exact mem_filter.mpr ⟨hm, rfl⟩

theorem check_scope (h : check (.scope c) held = some ends) : held = false ∧ ∃ inner,
    check c true = some inner ∧ ∀ e b, (e, b) ∈ inner → b = true ∧ (e, false) ∈ ends := by
  rw [check] at h
  split_ifs at h with hh
  obtain ⟨inner, hi, h⟩ := Option.bind_eq_some_iff.mp h
  split_ifs at h with ha
  cases h
  refine ⟨Bool.eq_false_iff.mpr hh, inner, hi, fun e b hm => ⟨?_, ?_⟩⟩
  · exact all_eq_true.mp ha (e, b) hm
  · exact mem_map.mpr ⟨(e, b), hm, rfl⟩

end Checked

/-! ## Soundness -/

variable {t : List (LockEvent σ)} {held hel' : Bool}

theorem follow_append (h : follow held t = some hel') (u : List (LockEvent σ)) :
    follow held (t ++ u) = follow hel' u := by
  induction t generalizing held with
  | nil =>
    cases h
    rfl
  | cons e t ih =>
    cases e with
    | acquire =>
      cases held with
      | false => exact ih h
      | true => cases h
    | release =>
      cases held with
      | false => cases h
      | true => exact ih h
    | read s => exact ih h

theorem firstRead_append {s : σ} (h : firstRead t = some s) (u : List (LockEvent σ)) :
    firstRead (t ++ u) = some s := by
  induction t with
  | nil => cases h
  | cons e t ih =>
    cases e with
    | acquire | release => exact ih h
    | read s' => exact h

variable {body : π → LockProgram π σ} {o : Option Exit} {c c' d : LockProgram π σ}

theorem Exec.ite_of_fails {p : σ → Bool} (run : Exec body (.ite (some p) c d) t o)
    (hf : ∀ s ∈ firstRead t, p s = false) : Exec body (.ite (some p) c' d) t o := by
  cases run with
  | stop => exact .stop _
  | thenBranch holds branch =>
    have hy := holds p rfl
    rw [hf _ rfl] at hy
    cases hy
  | elseBranch fails branch => exact .elseBranch fails branch

theorem follow_of_check (hb : ∀ p, (body p).Fit) (run : Exec body c t o)
    {ends : List (Exit × Bool)} (hh : check c held = some ends) :
    ∃ hel', follow held t = some hel' ∧ ∀ e, o = some e → (e, hel') ∈ ends := by
  induction run generalizing held ends with
  | stop c => exact ⟨held, rfl, nofun⟩
  | skip | brk | cont | ret =>
    cases hh
    refine ⟨held, rfl, fun e he => ?_⟩
    cases he
    exact mem_singleton_self _
  | acquire =>
    rw [check] at hh
    split_ifs at hh with hhe
    cases hh
    refine ⟨true, if_neg hhe, fun e he => ?_⟩
    cases he
    exact mem_singleton_self _
  | release =>
    rw [check] at hh
    split_ifs at hh with hhe
    cases hh
    refine ⟨false, if_pos hhe, fun e he => ?_⟩
    cases he
    exact mem_singleton_self _
  | seq first second ih1 ih2 =>
    obtain ⟨ends1, hc, -, hn⟩ := check_seq hh
    obtain ⟨hel1, hfo1, hmem1⟩ := ih1 hc
    obtain ⟨ends2, hd, hs⟩ := hn hel1 (hmem1 .normal rfl)
    obtain ⟨hel2, hfo2, hmem2⟩ := ih2 hd
    exact ⟨hel2, (follow_append hfo1 _).trans hfo2, fun e he => hs (hmem2 e he)⟩
  | seqLeft first left ih =>
    obtain ⟨ends1, hc, hl, -⟩ := check_seq hh
    obtain ⟨hel1, hf, hm⟩ := ih hc
    exact ⟨hel1, hf, fun e he => hl e hel1 (hm e he) fun hn => left (hn ▸ he)⟩
  | thenBranch holds branch ih =>
    obtain ⟨yes, no, hy, -, hs, -⟩ := check_ite hh
    obtain ⟨hel', hf, hm⟩ := ih hy
    exact ⟨hel', hf, fun e he => hs (hm e he)⟩
  | elseBranch fails branch ih =>
    obtain ⟨yes, no, -, ho, -, hs⟩ := check_ite hh
    obtain ⟨hel', hf, hm⟩ := ih ho
    exact ⟨hel', hf, fun e he => hs (hm e he)⟩
  | loopEnd fails =>
    obtain ⟨-, -, hend, -⟩ := check_loop hh
    refine ⟨held, rfl, fun e he => ?_⟩
    cases he
    exact hend
  | loopPass holds pass goesOn rest ih1 ih2 =>
    -- the pass leaves the lock as it found it, so the rest of the loop starts in the same way
    obtain ⟨ends1, hc, -, ha, -⟩ := check_loop hh
    obtain ⟨hel1, hfo1, hmem1⟩ := ih1 hc
    obtain rfl := ha _ hel1 (hmem1 _ rfl) goesOn
    obtain ⟨hel2, hfo2, hmem2⟩ := ih2 hh
    exact ⟨hel2, (follow_append hfo1 _).trans hfo2, hmem2⟩
  | loopBreak holds pass ih =>
    obtain ⟨ends1, hc, -, -, hr, -⟩ := check_loop hh
    obtain ⟨hel1, hf, hm⟩ := ih hc
    refine ⟨hel1, hf, fun e he => ?_⟩
    cases he
    exact hr hel1 (hm .brk rfl)
  | loopLeft holds pass left ih =>
    obtain ⟨ends1, hc, -, -, -, hre⟩ := check_loop hh
    obtain ⟨hel1, hf, hm⟩ := ih hc
    refine ⟨hel1, hf, fun e he => ?_⟩
    rcases left with rfl | rfl
    · cases he
      exact hre hel1 (hm .ret rfl)
    · cases he
  | @call p t e run ih =>
    obtain ⟨ends1, hc, hfr⟩ := hb p
    rw [check] at hh
    split_ifs at hh with hhe
    cases hh
    obtain rfl : held = false := Bool.eq_false_iff.mpr hhe
    obtain ⟨hel1, hf, hm⟩ := ih hc
    obtain rfl : hel1 = false := hfr _ (hm e rfl)
    refine ⟨false, hf, fun e' he => ?_⟩
    cases he
    exact mem_singleton_self _
  | @callLeft p t run ih =>
    obtain ⟨ends1, hc, -⟩ := hb p
    rw [check] at hh
    split_ifs at hh with hhe
    obtain rfl : held = false := Bool.eq_false_iff.mpr hhe
    obtain ⟨hel1, hf, -⟩ := ih hc
    exact ⟨hel1, hf, nofun⟩
  | @scope c t e run ih =>
    obtain ⟨rfl, inner, hc, hends⟩ := check_scope hh
    obtain ⟨hel1, hf, hm⟩ := ih hc
    obtain ⟨rfl, hend⟩ := hends e hel1 (hm e rfl)
    refine ⟨false, follow_append hf _, fun e' he => ?_⟩
    cases he
    exact hend
  | scopeLeft run ih =>
    obtain ⟨rfl, inner, hc, -⟩ := check_scope hh
    obtain ⟨hel1, hf, -⟩ := ih hc
    exact ⟨hel1, hf, nofun⟩

/-- **Programs that are fit** have disciplined paths only. -/
theorem Fit.disciplined (hc : c.Fit) (hb : ∀ p, (body p).Fit) (run : Exec body c t o) :
    Disciplined t o := by
  obtain ⟨ends, hh, hf⟩ := hc
  obtain ⟨held, ho, hm⟩ := follow_of_check hb run hh
  refine ⟨held, ho, fun he => ?_⟩
  obtain ⟨e, rfl⟩ := Option.isSome_iff_exists.mp he
  exact hf _ (hm e rfl)

end LockProgram

end AexKernel.Library
