import AexKernel.Fs.Path
import AexKernel.Library.Run

/-! # Working directories (`syscall/fs.cpp`, `syscall/usr.cpp`, `proc/process.cpp`)

`chdir` stores the path it is given: it neither makes it absolute nor canonical. -/

namespace AexKernel.Syscall

open Library Fs List Function

/-- The first `n` bytes of a string. -/
def takeBytes (s : CString) (n : ℕ) : CString :=
  ⟨s.bytes.take n, fun h => s.nul (List.mem_of_mem_take h)⟩

/-- `Process::set_cwd(cwd)`: what `m_cwd` is afterwards. -/
def setCwd (cwd : CString) : CString := takeBytes cwd (min cwd.bytes.length (maxPathLen - 1))

/-- `chdir(path)`: what `m_cwd` is afterwards. -/
def chdir (path : CString) : CString :=
  setCwd (takeBytes path (min path.bytes.length (maxPathLen - 1)))

/-- `copy_and_canonize(buffer, usr_path)`. -/
def copyAndCanonize (cwd path : CString) (beyond : UInt8) (buffer bufferB : List UInt8) :
    Except Fault (List UInt8) := do
  let len := min (path.bytes.length + 1) maxPathLen
  let buffer ← storeAll buffer 0 ((path.bytes ++ [0, beyond]).take (len + 1))
  let buffer ← store buffer len 0
  if buffer.head? ≠ some slash then
    let (_, bufferB) ← canonizePath (cstring buffer) cwd.bytes bufferB maxPathLen
    storeAll buffer 0 (bufferB.take maxPathLen)
  else return buffer

abbrev Cwds (κ : Type) := κ → Option CString

/-- A call that sets a working directory. -/
inductive CwdCall (κ : Type)
  | chdir (p : κ) (path : CString)
  | fork (parent child : κ)
  /-- A process is created by `exec`. -/
  | exec (child : κ)

namespace Cwds

variable {κ : Type} [DecidableEq κ]

/-- The directory `"/"`. -/
def root : CString := ⟨[slash], by decide⟩

def step (s : Cwds κ) : CwdCall κ → Except Fault (Cwds κ)
  | .chdir p path =>
    match s p with
    | none => .ok s
    | some _ => .ok (Function.update s p (some (Syscall.chdir path)))
  | .fork parent child =>
    match s parent, s child with
    | some cwd, none => .ok (Function.update s child (some (setCwd cwd)))
    | _, _ => .ok s
  | .exec child =>
    match s child with
    | none => .ok (Function.update s child (some (setCwd root)))
    | some _ => .ok s

/-- The path given to `chdir` is absolute and canonical, as far as `chdir` copies it. -/
def Absolute (_ : Cwds κ) : CwdCall κ → Prop
  | .chdir _ path => Canonical (path.bytes.take (maxPathLen - 1))
  | _ => True

instance (s : Cwds κ) (call : CwdCall κ) : Decidable (Absolute s call) :=
  match call with
  | .chdir _ path => inferInstanceAs (Decidable (Canonical (path.bytes.take (maxPathLen - 1))))
  | .fork .. | .exec _ => .isTrue trivial

/-- `copy_and_canonize` makes a path absolute. -/
def MakesAbsolute (cwd path : CString) : Prop :=
  ∀ beyond buffer bufferB, buffer.length = maxPathLen → bufferB.length = maxPathLen →
    ∃ result, copyAndCanonize cwd path beyond buffer bufferB = .ok result ∧
      result.head? = some slash

/-- A working directory is absolute, canonical, and not too long. -/
def Sound (cwd : CString) : Prop := Canonical cwd.bytes ∧ cwd.bytes.length < maxPathLen

variable {cwd path : CString}

theorem sound_setCwd (h : Sound cwd) : Sound (setCwd cwd) := by
  have hb : (setCwd cwd).bytes = cwd.bytes := by
    refine take_of_length_le (le_min le_rfl ?_)
    exact Nat.le_sub_one_of_lt h.2
  rw [Sound, hb]
  exact h

theorem sound_chdir (h : Canonical (path.bytes.take (maxPathLen - 1))) : Sound (chdir path) := by
  have ht : path.bytes.take (min path.bytes.length (maxPathLen - 1)) =
      path.bytes.take (maxPathLen - 1) := by
    rw [take_eq_take_iff]
    omega
  refine sound_setCwd ⟨?_, ?_⟩
  · change Canonical (path.bytes.take (min path.bytes.length (maxPathLen - 1)))
    rw [ht]
    exact h
  · change (path.bytes.take (min path.bytes.length (maxPathLen - 1))).length < maxPathLen
    rw [length_take, maxPathLen]
    omega

theorem sound_root : Sound root := ⟨by decide, by decide⟩

theorem sound_step {s s' : Cwds κ} {call : CwdCall κ} (h : ∀ p, ∀ cwd ∈ s p, Sound cwd)
    (ha : Absolute s call) (hs : step s call = .ok s') : ∀ p, ∀ cwd ∈ s' p, Sound cwd := by
  -- a call changes at most one working directory
  have hu {q : κ} {new : CString} (hn : Sound new) :
      ∀ p, ∀ cwd ∈ update s q (some new) p, Sound cwd := by
    intro p cwd hc
    by_cases hp : p = q
    · subst hp
      rw [update_self] at hc
      obtain rfl := Option.mem_some.mp hc
      exact hn
    · rw [update_of_ne hp] at hc
      exact h p cwd hc
  cases call with
  | chdir p path =>
    rw [step] at hs
    split at hs
    · exact Except.ok.inj hs ▸ h
    · exact Except.ok.inj hs ▸ hu (sound_chdir ha)
  | fork parent child =>
    rw [step] at hs
    split at hs
    · next cwd hpa _ =>
      exact Except.ok.inj hs ▸ hu (sound_setCwd (h parent cwd hpa))
    · exact Except.ok.inj hs ▸ h
  | exec child =>
    rw [step] at hs
    split at hs
    · exact Except.ok.inj hs ▸ hu (sound_setCwd sound_root)
    · exact Except.ok.inj hs ▸ h

/-! ## Relative paths -/

theorem copyAndCanonize_eq {b : UInt8} {buf bufferB bytes : List UInt8} {flag : Bool}
    (hp : path.bytes ≠ []) (hre : path.bytes.head? ≠ some slash)
    (hf : path.bytes.length + 2 ≤ maxPathLen) (hb : buf.length = maxPathLen)
    (hc : canonizePath path.bytes cwd.bytes bufferB maxPathLen = .ok (flag, bytes))
    (hl : bytes.length = maxPathLen) :
    copyAndCanonize cwd path b buf bufferB = .ok bytes := by
  have he : min (path.bytes.length + 1) maxPathLen = path.bytes.length + 1 := by omega
  have ho : storeAll buf 0 ((path.bytes ++ [0, b]).take (path.bytes.length + 1 + 1)) =
      .ok (path.bytes ++ 0 :: b :: buf.drop (path.bytes.length + 2)) := by
    rw [take_of_length_le (by simp), storeAll_zero (by simp; omega)]
    simp
  have hs : store (path.bytes ++ 0 :: b :: buf.drop (path.bytes.length + 2))
      (path.bytes.length + 1) 0 =
      .ok (path.bytes ++ 0 :: 0 :: buf.drop (path.bytes.length + 2)) := by
    rw [store, if_pos (by simp)]
    simp [set_append_right]
  have hh : (path.bytes ++ 0 :: 0 :: buf.drop (path.bytes.length + 2)).head? ≠
      some slash := by
    rwa [head?_append_of_ne_nil _ hp]
  have hr : (path.bytes ++ 0 :: 0 :: buf.drop (path.bytes.length + 2)).length =
      bytes.length := by
    simp only [length_append, length_cons, length_drop]
    omega
  rw [copyAndCanonize, he, ho, ok_bind, hs, ok_bind, if_pos hh, cstring_append, hc, ok_bind]
  dsimp only
  rw [take_of_length_le hl.le, storeAll_zero hr.ge, drop_eq_nil_of_le hr.le, append_nil]

/-- **`copy_and_canonize`** makes a relative path that fits its buffer absolute. -/
theorem makesAbsolute (hw : Sound cwd) (hp : path.bytes ≠ [])
    (hr : path.bytes.head? ≠ some slash) (hf : path.bytes.length + 2 ≤ maxPathLen) :
    MakesAbsolute cwd path := by
  intro beyond buffer bufferB hu hb
  have ha : ∀ c ∈ cwd.bytes.head?, c = slash := by
    intro c hc
    exact Option.some.inj (hc.symm.trans hw.1.1)
  obtain ⟨⟨flag, bytes⟩, hca, hl, hs⟩ :=
    (canonizePath_rooted hb (by decide) hp ha).exists_ok
  refine ⟨bytes, copyAndCanonize_eq hp hr hf hu hca hl, ?_⟩
  rw [head?_eq_getElem?]
  exact hs

/-! ## Results -/

/-- **Working directories.** As long as `chdir` is given absolute canonical paths, the working
directory of every process is absolute and canonical, and `copy_and_canonize` makes relative paths
absolute. -/
theorem canonical_of_absolute {s₀ s : Cwds κ} (hstart : ∀ p, ∀ cwd ∈ s₀ p, Sound cwd)
    (hreach : Reach step Absolute s₀ s) (p : κ) (cwd : CString) (hcwd : cwd ∈ s p) :
    Canonical cwd.bytes ∧ ∀ path : CString, path.bytes ≠ [] → path.bytes.head? ≠ some slash →
      path.bytes.length + 2 ≤ maxPathLen → MakesAbsolute cwd path := by
  have hso : ∀ p, ∀ cwd ∈ s p, Sound cwd :=
    hreach.invariant (P := fun s => ∀ p, ∀ cwd ∈ s p, Sound cwd) hstart
      fun _ _ _ h hab hst => sound_step h hab hst
  exact ⟨(hso p cwd hcwd).1, fun _ hpa hre hfit =>
    makesAbsolute (hso p cwd hcwd) hpa hre hfit⟩

/-- The directory `"/a"`. -/
def directoryA : CString := ⟨[slash, 97], by decide⟩

/-- The path `"a"`. -/
def fileA : CString := ⟨[97], by decide⟩

theorem canonical_of_absolute_fork :
    ∃ s ∈ execute step Absolute (Function.const Bool none)
        [.exec true, .chdir true directoryA, .fork true false],
      ∃ cwd ∈ s false, cwd.bytes = [slash, 97] ∧ Canonical cwd.bytes ∧ MakesAbsolute cwd fileA := by
  refine exists_execute (P := fun s => ∃ cwd ∈ s false, cwd.bytes = [slash, 97])
    (by decide) ?_
  rintro s hs ⟨cwd, hcw, hby⟩
  obtain ⟨hca, hab⟩ := canonical_of_absolute (fun _ _ h => absurd h (Option.not_mem_none _))
    hs false cwd hcw
  exact ⟨cwd, hcw, hby, hca, hab fileA (by decide) (by decide) (by decide)⟩

theorem not_canonical_relative :
    ∃ s ∈ execute step (fun _ _ => True) (Function.const Unit none) [.exec (), .chdir () fileA],
      ∃ cwd ∈ s (), ¬ Canonical cwd.bytes ∧
        ∃ result, copyAndCanonize cwd fileA 0 (List.replicate maxPathLen 0)
          (List.replicate maxPathLen 0) = .ok result ∧ cstring result = [97, slash, 97] := by
  obtain ⟨s, hs, cwd, hcw, hnot, result, hres, hlen, hcs⟩ :
      ∃ s ∈ execute step (fun _ _ => True) (const Unit none)
      [.exec (), .chdir () fileA], ∃ cwd ∈ s (), ¬ Canonical cwd.bytes ∧
        ∃ result ∈ (canonizePath fileA.bytes cwd.bytes (replicate maxPathLen 0)
          maxPathLen).toOption,
          result.2.length = maxPathLen ∧ cstring result.2 = [97, slash, 97] := by
    decide +kernel
  have hca := toOption_eq_some.mp hres
  refine ⟨s, hs, cwd, hcw, hnot, result.2, ?_, hcs⟩
  exact copyAndCanonize_eq (by decide) (by decide) (by decide) length_replicate hca hlen

end Cwds

end AexKernel.Syscall
