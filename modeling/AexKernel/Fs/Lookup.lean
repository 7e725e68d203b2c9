import AexKernel.Fs.Components

/-! # Looking up a path (`fs/controlblock.cpp`) -/

namespace AexKernel.Fs

open Library List

variable {ι : Type}

/-- `dir_entry`, with the inode that `getINode` gives for it. -/
structure DirEntry (ι : Type) where
  name : CString
  type : BitVec 32
  inode : ι

/-- `dir_entry::is_directory()`, for `FT_DIRECTORY`. -/
def DirEntry.isDirectory (entry : DirEntry ι) : Bool := entry.type &&& 0x100000 = 0x100000

/-- A file system, with the entries that `readDir` gives for an inode before it reports the end. -/
structure FileSystem (ι : Type) where
  root : ι
  entries : ι → List (DirEntry ι)

namespace FileSystem

/-- The loop of `findINode` over the entries of a directory. -/
def scan (piece : List UInt8) : List (DirEntry ι) → Option (DirEntry ι)
  | [] => none
  | entry :: rest => if entry.name.bytes ≠ piece then scan piece rest else some entry

/-- The loop of `findINode` over the pieces, at most so many rounds; `none` is `ENOENT`. -/
def findFrom (fs : FileSystem ι) : ℕ → PathWalker → ι → Except Fault (Option ι)
  | 0, _, _ => .error .divergence
  | fuel + 1, walker, inode => do
    let (piece, walker) ← walker.next
    match piece with
    | none => return some inode
    | some piece =>
      match scan piece (fs.entries inode) with
      | none => return none
      | some entry =>
        if ¬ walker.isFinal ∧ ¬ entry.isDirectory then return none
        else fs.findFrom fuel walker entry.inode

/-- `ControlBlock::findINode(lpath)`. A path has no more pieces than characters. -/
def findINode (fs : FileSystem ι) (lpath : CString) (buffer : List.Vector UInt8 maxFilenameLen) :
    Except Fault (Option ι) :=
  fs.findFrom (lpath.bytes.length + 1) (.new lpath buffer) fs.root

/-- The inode that the first entries with the names lead to, each but the last a directory. -/
def follow (fs : FileSystem ι) : List (List UInt8) → ι → Option ι
  | [], inode => some inode
  | name :: names, inode => do
    let entry ← (fs.entries inode).find? (·.name.bytes = name)
    if names = [] ∨ entry.isDirectory then fs.follow names entry.inode else none

theorem scan_eq (piece : List UInt8) (entries : List (DirEntry ι)) :
    scan piece entries = entries.find? (·.name.bytes = piece) := by
  induction entries with
  | nil => rfl
  | cons entry rest ih =>
    rw [scan, find?_cons, ih]
    by_cases hn : entry.name.bytes = piece <;> simp [hn]

end FileSystem

/-- A walker that has these components before it, none of them too long. -/
structure PathWalker.Fits (w : PathWalker) (names : List (List UInt8)) : Prop where
  buffer : w.buffer.length = maxFilenameLen
  nul : 0 ∉ w.rest
  tooLong : ¬ w.tooLong
  left : components w.rest = names
  short : ∀ name ∈ names, name.length < maxFilenameLen
  levels : w.levels = w.level + names.length

namespace FileSystem

variable {w : PathWalker} {names : List (List UInt8)} {fuel : ℕ}

theorem next_fits (hw : w.Fits names) :
    Succeeds w.next fun r => r.1 = names.head? ∧ r.2.Fits names.tail := by
  refine (PathWalker.next_eq hw.buffer hw.nul).mono fun r hr => ?_
  obtain ⟨hp, hr, hb, hls, he⟩ := hr
  obtain ⟨hh, -, ht, hc⟩ := w.toWalker.next_spec
  have hs := w.toWalker.rest_next_sublist
  have hl : w.left = names := by
    rw [Walker.left, if_neg hw.tooLong, hw.left, takeWhile_eq_self_iff]
    simpa using hw.short
  rw [← hr] at ht hc hs
  rw [hl, hw.left] at ht
  have hn : ¬ r.2.tooLong := by simp [ht, hw.tooLong]
  rw [← hp, hl] at hh
  refine ⟨hh, hb, fun h => hw.nul (hs.mem h), hn, by rw [hc hn, hw.left],
    fun name h => hw.short name (mem_of_mem_tail h), ?_⟩
  rw [hls, he, hh, hw.levels]
  cases names <;> simp; omega

variable (fs : FileSystem ι)

theorem findFrom_eq (hw : w.Fits names) (hu : names.length < fuel) (inode : ι) :
    fs.findFrom fuel w inode = .ok (fs.follow names inode) := by
  induction fuel generalizing names w inode with
  | zero => exact absurd hu (Nat.not_lt_zero _)
  | succ fuel ih =>
    obtain ⟨⟨piece, w'⟩, hn, hh, hw'⟩ := (next_fits hw).exists_ok
    dsimp only at hh hw'
    rw [findFrom, hn, ok_bind]
    cases names with
    | nil =>
      obtain rfl : piece = none := hh
      rfl
    | cons name names =>
      obtain rfl : piece = some name := hh
      rw [tail_cons] at hw'
      dsimp only
      rw [scan_eq, follow]
      cases (fs.entries inode).find? (·.name.bytes = name) with
      | none => rfl
      | some entry =>
        have hf : w'.isFinal ↔ names = [] := by
          rw [PathWalker.isFinal, decide_eq_true_iff, hw'.levels]
          simp
        have hi := ih hw' (Nat.lt_of_succ_lt_succ hu) entry.inode
        by_cases hg : names = [] ∨ entry.isDirectory
        · rw [Option.bind_eq_bind, Option.bind_some, if_pos hg, ← hi]
          exact if_neg fun h => hg.elim (h.1 ∘ hf.mpr) h.2
        rw [Option.bind_eq_bind, Option.bind_some, if_neg hg]
        exact if_pos ⟨fun h => hg (.inl (hf.mp h)), fun h => hg (.inr h)⟩

/-- **Lookup walks the tree**: from the root, one first entry after the other. -/
theorem findINode_eq (lpath : CString) (buffer : List.Vector UInt8 maxFilenameLen)
    (hshort : ∀ name ∈ components lpath.bytes, name.length < maxFilenameLen) :
    fs.findINode lpath buffer = .ok (fs.follow (components lpath.bytes) fs.root) := by
  refine fs.findFrom_eq ⟨buffer.2, lpath.nul, Bool.false_ne_true, rfl, hshort, ?_⟩ ?_ fs.root
  · rw [← countLevels_eq]
    exact (Nat.zero_add _).symm
  rw [← countLevels_eq]
  exact Nat.lt_succ_of_le (countLevelsFrom_le _ _)

theorem findINode_eq_file :
    let directory : DirEntry ℕ := ⟨⟨[97], by decide⟩, 0x100000, 1⟩
    let file : DirEntry ℕ := ⟨⟨[98], by decide⟩, 0x10000, 2⟩
    let fs : FileSystem ℕ := ⟨0, fun inode => if inode = 0 then [directory] else [file]⟩
    fs.findINode ⟨[slash, 97, slash, 98], by decide⟩ (.replicate _ 0) = .ok (some 2) :=
  (findINode_eq _ _ _ (by decide)).trans (by decide)

end FileSystem

end AexKernel.Fs
