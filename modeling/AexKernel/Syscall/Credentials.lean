import Mathlib

/-! # User ids (`syscall/sec.cpp`)

A process with effective uid 0 may set its ids to anything. -/

namespace AexKernel.Syscall

open List Or

/-- The values of `error_t` that the modelled system calls set. -/
inductive Errno
  | none | eperm | einval | ebadf
  | file (code : ℕ)
  deriving DecidableEq, Repr

/-- The user ids of a process, and `errno` of the thread that makes its calls. -/
structure Credentials where
  realUid : Int32
  effUid : Int32
  savedUid : Int32
  errno : Errno := .none
  deriving DecidableEq, Repr

/-- The three checks of a call that sets ids to `uid`. -/
def setId (privileged own : Credentials → Credentials) (uid : Int32) : StateM Credentials Int32 :=
  fun current =>
    if current.effUid = 0 then (0, privileged current)
    else if uid = current.realUid ∨ uid = current.savedUid then (0, own current)
    else (-1, { current with errno := .eperm })

/-- `setruid(uid)`, a part of `setreuid`. -/
def setruid (uid : Int32) : StateM Credentials Int32 :=
  setId (fun current => { current with realUid := uid })
    (fun current => { current with realUid := uid }) uid

/-- `seteuid(uid)`. -/
def seteuid (uid : Int32) : StateM Credentials Int32 :=
  setId (fun current => { current with effUid := uid })
    (fun current => { current with effUid := uid }) uid

/-- `setuid(uid)`. Only a privileged process changes all three ids. -/
def setuid (uid : Int32) : StateM Credentials Int32 :=
  setId (fun current => { current with realUid := uid, effUid := uid, savedUid := uid })
    (fun current => { current with effUid := uid }) uid

/-- `inrange(uid, -1, INT32_MAX)`. -/
def inrange (uid : Int32) : Prop := -1 ≤ uid ∧ uid ≤ Int32.maxValue
deriving Decidable

/-- `setreuid(ruid, euid)`. The effective uid is checked against the real uid just set. -/
def setreuid (ruid euid : Int32) : StateM Credentials Int32 := fun current =>
  if ¬ inrange ruid ∨ ¬ inrange euid then (-1, { current with errno := .einval })
  else
    let (real, current) := if ruid ≠ -1 then setruid ruid current else (0, current)
    let (eff, current) := if euid ≠ -1 then seteuid euid current else (0, current)
    (if real < 0 ∨ eff < 0 then -1 else 0, current)

/-- A system call that sets user ids. -/
inductive UidCall
  | seteuid (uid : Int32)
  | setuid (uid : Int32)
  | setreuid (ruid euid : Int32)
  deriving DecidableEq, Repr

def UidCall.run : UidCall → StateM Credentials Int32
  | .seteuid uid => Syscall.seteuid uid
  | .setuid uid => Syscall.setuid uid
  | .setreuid ruid euid => Syscall.setreuid ruid euid

namespace Credentials

def ids (c : Credentials) : List Int32 := [c.realUid, c.effUid, c.savedUid]

def after (c : Credentials) (calls : List UidCall) : Credentials :=
  calls.foldl (fun c call => (call.run c).2) c

variable {c : Credentials}

theorem effUid_ne_zero (h : 0 ∉ c.ids) : c.effUid ≠ 0 := by
  intro hz
  exact h (by rw [ids, hz]; exact mem_cons_of_mem _ mem_cons_self)

variable {c' c1 c2 : Credentials}

theorem zero_not_mem_of_subset (h : 0 ∉ c.ids) (hs : c'.ids ⊆ c.ids) : 0 ∉ c'.ids :=
  fun hm => h (hs hm)

section

variable (hef : c.effUid ≠ 0)
include hef

theorem setId_ids_subset {privileged own : Credentials → Credentials} {uid : Int32}
    (ho : (own c).ids ⊆ uid :: c.ids) : (setId privileged own uid c).2.ids ⊆ c.ids := by
  rw [setId, if_neg hef]
  split_ifs with hu
  · have hm : uid ∈ c.ids := by
      rcases hu with rfl | rfl <;> simp [ids]
    exact Subset.trans ho (cons_subset.mpr ⟨hm, Subset.refl _⟩)
  · exact Subset.refl _

theorem setruid_ids_subset (uid : Int32) : (setruid uid c).2.ids ⊆ c.ids :=
  setId_ids_subset hef (by simp [ids])

theorem seteuid_ids_subset (uid : Int32) : (seteuid uid c).2.ids ⊆ c.ids :=
  setId_ids_subset hef (by simp [ids])

theorem setuid_ids_subset (uid : Int32) : (setuid uid c).2.ids ⊆ c.ids :=
  setId_ids_subset hef (by simp [ids])

end

theorem setreuid_ids_subset (h : 0 ∉ c.ids) (ruid euid : Int32) :
    (setreuid ruid euid c).2.ids ⊆ c.ids := by
  rw [setreuid]
  by_cases ha : ¬ inrange ruid ∨ ¬ inrange euid
  · rw [if_pos ha]
    exact Subset.refl _
  have hr : (if ruid ≠ -1 then setruid ruid c else (0, c)).2.ids ⊆ c.ids := by
    split_ifs
    · exact setruid_ids_subset (effUid_ne_zero h) ruid
    · exact Subset.refl _
  -- the second check reads the ids that the first part left
  rw [if_neg ha]
  generalize (if ruid ≠ -1 then setruid ruid c else (0, c)) = first at hr ⊢
  have hef := effUid_ne_zero (zero_not_mem_of_subset h hr)
  split_ifs
  · exact Subset.trans (seteuid_ids_subset hef euid) hr
  · exact hr

/-- **One call** of a process without privileges: it moves its ids around. -/
theorem run_ids_subset (h : 0 ∉ c.ids) (call : UidCall) : (call.run c).2.ids ⊆ c.ids := by
  cases call with
  | seteuid uid => exact seteuid_ids_subset (effUid_ne_zero h) uid
  | setuid uid => exact setuid_ids_subset (effUid_ne_zero h) uid
  | setreuid ruid euid => exact setreuid_ids_subset h ruid euid

theorem after_ids_subset (h : 0 ∉ c.ids) (calls : List UidCall) : (c.after calls).ids ⊆ c.ids := by
  induction calls generalizing c with
  | nil => exact Subset.refl _
  | cons call rest ih =>
    have hf := run_ids_subset h call
    exact Subset.trans (ih (zero_not_mem_of_subset h hf)) hf

/-- **Privilege cannot be regained.** A process whose ids are not zero keeps to its own ids, whatever
it calls; and after a privileged `setuid` all ids are the new one and none is ever zero again. -/
theorem privilege_not_regained (c : Credentials) :
    (0 ∉ c.ids → ∀ calls, (c.after calls).ids ⊆ c.ids ∧ 0 ∉ (c.after calls).ids) ∧
    (c.effUid = 0 → ∀ uid, uid ≠ 0 →
      (setuid uid c).1 = 0 ∧ (setuid uid c).2.ids = [uid, uid, uid] ∧
      ∀ calls, 0 ∉ ((setuid uid c).2.after calls).ids) := by
  refine ⟨fun h calls => ?_, fun hef uid huid => ?_⟩
  · have hsub := after_ids_subset h calls
    exact ⟨hsub, zero_not_mem_of_subset h hsub⟩
  have hset : setuid uid c = (0, { c with realUid := uid, effUid := uid, savedUid := uid }) := by
    rw [setuid, setId, if_pos hef]
  rw [hset]
  have hnot : 0 ∉ (Credentials.mk uid uid uid c.errno).ids := by
    simp only [ids, mem_cons, not_mem_nil, or_false, or_self]
    exact huid.symm
  exact ⟨rfl, rfl, fun calls => zero_not_mem_of_subset hnot (after_ids_subset hnot calls)⟩

theorem privilege_not_regained_saved :
    0 ∉ (Credentials.mk 1000 1000 1001 .none).ids ∧
      0 ∉ ((Credentials.mk 1000 1000 1001 .none).after
        [.setreuid 1001 1000, .setuid 0, .seteuid 1001]).ids ∧
      (setuid 1000 ⟨0, 0, 0, .none⟩).2.ids = [1000, 1000, 1000] :=
  ⟨by decide, ((privilege_not_regained ⟨1000, 1000, 1001, .none⟩).1 (by decide) _).2,
    ((privilege_not_regained ⟨0, 0, 0, .none⟩).2 rfl 1000 (by decide)).2.1⟩

/-! ## `setreuid` as a whole -/

/-- A process may set one of its ids to `uid`. -/
def Permits (c : Credentials) (uid : Int32) : Prop :=
  c.effUid = 0 ∨ uid = c.realUid ∨ uid = c.savedUid

/-- Every change that `setreuid(ruid, euid)` asks for is permitted. -/
structure Granted (c : Credentials) (ruid euid : Int32) : Prop where
  range : inrange ruid ∧ inrange euid
  real : ruid ≠ -1 → c.Permits ruid
  eff : euid ≠ -1 → c.Permits euid

/-- The ids after a call that does what it is asked for. -/
def requested (c : Credentials) (ruid euid : Int32) : List Int32 :=
  [if ruid = -1 then c.realUid else ruid, if euid = -1 then c.effUid else euid, c.savedUid]

/-- `setreuid(ruid, euid)` does all that it is asked for or nothing, by the permissions that the
process has when it makes the call. -/
structure AllOrNothing (c : Credentials) (ruid euid : Int32) : Prop where
  failed : (setreuid ruid euid c).1 = -1 → (setreuid ruid euid c).2.ids = c.ids
  succeeded : (setreuid ruid euid c).1 = 0 →
    (setreuid ruid euid c).2.ids = c.requested ruid euid
  permitted : (setreuid ruid euid c).1 = 0 ↔ c.Granted ruid euid

/-- One half of the call takes effect and the other does not. -/
structure Torn (c : Credentials) (ruid euid : Int32) : Prop where
  range : inrange ruid ∧ inrange euid
  both : ruid ≠ -1 ∧ euid ≠ -1
  unprivileged : c.effUid ≠ 0
  halves : (ruid = c.savedUid ∧ ruid ≠ c.realUid ∧ euid ≠ c.savedUid) ∨
    (¬ c.Permits ruid ∧ c.Permits euid ∧ euid ≠ c.effUid)

section Setreuid

variable {ruid euid uid : Int32} {f : Credentials → Credentials}

theorem setId_of_permits (h : c.Permits uid) : setId f f uid c = (0, f c) := by
  unfold setId
  split_ifs with hr ho
  · rfl
  · rfl
  · exact absurd h (not_or.mpr ⟨hr, ho⟩)

theorem setId_of_not_permits (h : ¬ c.Permits uid) :
    setId f f uid c = (-1, { c with errno := .eperm }) := by
  obtain ⟨hr, ho⟩ := not_or.mp h
  rw [setId, if_neg hr, if_neg ho]

theorem allOrNothing_iff_of_fails (h : setreuid ruid euid c = (-1, c')) :
    c.AllOrNothing ruid euid ↔ c'.ids = c.ids ∧ ¬ c.Granted ruid euid := by
  have hn : ¬ (-1 : Int32) = 0 := by decide
  constructor
  · intro ha
    have hi := ha.failed (by rw [h])
    rw [h] at hi
    exact ⟨hi, fun hg => hn (by simpa only [h] using ha.permitted.mpr hg)⟩
  rintro ⟨hi, hg⟩
  refine ⟨fun _ => ?_, fun hz => ?_, ?_⟩
  · rw [h]
    exact hi
  · rw [h] at hz
    exact absurd hz hn
  · rw [h]
    exact ⟨fun hz => absurd hz hn, fun hr => absurd hr hg⟩

theorem allOrNothing_of_succeeds (h : setreuid ruid euid c = (0, c'))
    (hi : c'.ids = c.requested ruid euid) (hg : c.Granted ruid euid) :
    c.AllOrNothing ruid euid := by
  refine ⟨fun hn => ?_, fun _ => ?_, ?_⟩
  · rw [h] at hn
    exact absurd hn (by decide : ¬ (0 : Int32) = -1)
  · rw [h]
    exact hi
  · rw [h]
    exact ⟨fun _ => hg, fun _ => rfl⟩

theorem half_of_permits (h : uid ≠ -1 → c.Permits uid) :
    (if uid ≠ -1 then setId f f uid c else (0, c)) = (0, if uid = -1 then c else f c) := by
  by_cases hu : uid = -1
  · rw [if_neg (not_not.mpr hu), if_pos hu]
  · rw [if_pos hu, if_neg hu, setId_of_permits (h hu)]

theorem half_of_not_permits (hu : uid ≠ -1) (h : ¬ c.Permits uid) :
    (if uid ≠ -1 then setId f f uid c else (0, c)) = (-1, { c with errno := .eperm }) := by
  rw [if_pos hu, setId_of_not_permits h]

theorem setreuid_eq (hr : inrange ruid ∧ inrange euid) {real eff : Int32}
    (he : (if ruid ≠ -1 then setruid ruid c else (0, c)) = (real, c1))
    (hef : (if euid ≠ -1 then seteuid euid c1 else (0, c1)) = (eff, c2)) :
    setreuid ruid euid c = (if real < 0 ∨ eff < 0 then -1 else 0, c2) := by
  unfold setreuid
  rw [if_neg (not_or.mpr ⟨not_not.mpr hr.1, not_not.mpr hr.2⟩)]
  simp only [he, hef]

theorem permits_of_setruid (hr : c.Permits ruid)
    (h : { c with realUid := ruid }.Permits euid) : c.Permits euid := by
  rcases h with ho | rfl | hs
  · exact inl ho
  · exact hr
  · exact inr (inr hs)

/-- `setreuid` does all or nothing unless the call is torn between its two halves. -/
theorem allOrNothing_iff (c : Credentials) (ruid euid : Int32) :
    c.AllOrNothing ruid euid ↔ ¬ c.Torn ruid euid := by
  by_cases hra : inrange ruid ∧ inrange euid
  swap
  · have hset : setreuid ruid euid c = (-1, { c with errno := .einval }) := by
      rw [setreuid, if_pos (not_and_or.mp hra)]
    rw [allOrNothing_iff_of_fails hset]
    exact iff_of_true ⟨rfl, fun hg => hra hg.range⟩ fun ht => hra ht.range
  by_cases hre : ruid ≠ -1 → c.Permits ruid
  · have hfi := half_of_permits (f := fun c => { c with realUid := ruid }) hre
    by_cases hef : euid ≠ -1 → (if ruid = -1 then c else { c with realUid := ruid }).Permits euid
    · have hset := setreuid_eq hra hfi
        (half_of_permits (f := fun c => { c with effUid := euid }) hef)
      refine iff_of_true (allOrNothing_of_succeeds hset ?_ ⟨hra, hre, fun hne => ?_⟩) ?_
      · rw [requested]
        split_ifs <;> rfl
      · have hpe := hef hne
        split_ifs at hpe with hone
        · exact hpe
        · exact permits_of_setruid (hre hone) hpe
      rintro ⟨-, ⟨hr, he⟩, hro, ⟨hsav, -, hne⟩ | ⟨hnot, -⟩⟩
      · -- the new real uid is the saved one, and permits no more than that
        have hpe := hef he
        rw [if_neg hr] at hpe
        rcases hpe with hze | heq | heq
        · exact hro hze
        · exact hne (heq.trans hsav)
        · exact hne heq
      · exact hnot (hre hr)
    obtain ⟨hne, hnot⟩ := Classical.not_imp.mp hef
    have hset := setreuid_eq hra hfi
      (half_of_not_permits (f := fun c => { c with effUid := euid }) hne hnot)
    rw [allOrNothing_iff_of_fails hset]
    by_cases hone : ruid = -1
    · rw [if_pos hone] at hnot ⊢
      exact iff_of_true ⟨rfl, fun hg => hnot (hg.eff hne)⟩ fun ht => ht.both.1 hone
    rw [if_neg hone] at hnot ⊢
    by_cases hsa : ruid = c.realUid
    · -- the real uid is set to what it was
      refine iff_of_true ⟨by rw [hsa]; rfl, fun hg => hnot ?_⟩ ?_
      · rw [hsa]
        exact hg.eff hne
      rintro ⟨-, -, -, ⟨-, hdi, -⟩ | ⟨hnor, -⟩⟩
      · exact hdi hsa
      · exact hnor (hre hone)
    · have hro : c.effUid ≠ 0 := fun h => hnot (inl h)
      have hsav : ruid = c.savedUid :=
        ((hre hone).resolve_left hro).resolve_left hsa
      refine iff_of_false (fun hid => hsa (cons.inj hid.1).1) (not_not.mpr ?_)
      exact ⟨hra, ⟨hone, hne⟩, hro, inl ⟨hsav, hsa, fun h => hnot (inr (inr h))⟩⟩
  · obtain ⟨hne, hnot⟩ := Classical.not_imp.mp hre
    have hfi := half_of_not_permits (f := fun c => { c with realUid := ruid }) hne hnot
    by_cases hef : euid ≠ -1 → c.Permits euid
    · have hset := setreuid_eq hra hfi
        (half_of_permits (c := { c with errno := .eperm })
          (f := fun c => { c with effUid := euid }) hef)
      rw [allOrNothing_iff_of_fails hset]
      have hro : c.effUid ≠ 0 := fun h => hnot (inl h)
      have hnog : ¬ c.Granted ruid euid := fun hg => hnot (hg.real hne)
      by_cases hone : euid = -1
      · rw [if_pos hone]
        exact iff_of_true ⟨rfl, hnog⟩ fun ht => ht.both.2 hone
      rw [if_neg hone]
      by_cases hsa : euid = c.effUid
      · refine iff_of_true ⟨by rw [hsa]; rfl, hnog⟩ ?_
        rintro ⟨-, -, -, ⟨hsav, -⟩ | ⟨-, -, hdi⟩⟩
        · exact hnot (inr (inr hsav))
        · exact hdi hsa
      · refine iff_of_false (fun hid => hsa ?_) (not_not.mpr ?_)
        · exact (cons.inj (cons.inj hid.1).2).1
        · exact ⟨hra, ⟨hne, hone⟩, hro, inr ⟨hnot, hef hone, hsa⟩⟩
    obtain ⟨hone, hno⟩ := Classical.not_imp.mp hef
    have hset := setreuid_eq hra hfi
      (half_of_not_permits (c := { c with errno := .eperm })
        (f := fun c => { c with effUid := euid }) hone hno)
    rw [allOrNothing_iff_of_fails hset]
    refine iff_of_true ⟨rfl, fun hg => hnot (hg.real hne)⟩ ?_
    rintro ⟨-, -, -, ⟨hsav, -⟩ | ⟨-, hpe, -⟩⟩
    · exact hnot (inr (inr hsav))
    · exact hno hpe

theorem not_allOrNothing_saved :
    (setreuid 1001 5 ⟨1000, 1000, 1001, .none⟩).1 = -1 ∧
      (setreuid 1001 5 ⟨1000, 1000, 1001, .none⟩).2.ids = [1001, 1000, 1001] ∧
      ¬ AllOrNothing ⟨1000, 1000, 1001, .none⟩ 1001 5 := by
  refine ⟨by decide, by decide, fun h => ?_⟩
  exact absurd (h.failed (by decide)) (by decide)

end Setreuid

end Credentials

end AexKernel.Syscall
