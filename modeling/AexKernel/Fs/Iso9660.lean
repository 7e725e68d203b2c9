import AexKernel.Dev.BlockHandle

/-! # Files on an ISO 9660 disc (`mod/init/iso9660/inode.hpp`, `fs/inodefile.hpp`)

A file is read in blocks, which lie on a device one after the other. -/

namespace AexKernel.Fs

open Library Dev

/-- `ISO9600FileINode`. -/
structure FileINode where
  device : BlockDevice
  dataLba : ℕ

namespace FileINode

variable (f : FileINode)

/-- `ISO9600FileINode::readBlocks`: the first product is a `uint32_t`, and `count` a `uint16_t`. -/
def readBlocks (mem : Memory) (buffer block count : ℕ) : Except Fault Memory :=
  f.device.read mem buffer (f.dataLba * 2048 % 2 ^ 32 + block * 2048) (count % 65536 * 2048)

theorem blockSize_pos : 0 < 2048 := by decide

def blocks : BlockSource := ⟨2048, blockSize_pos, f.readBlocks⟩

/-- `INodeFile::readBlocks`. -/
def readFile (mem : Memory) (buffer start len : ℕ) : Except Fault Memory :=
  f.blocks.copyLoop none { mem := mem, buffer := buffer } start len

/-- The bytes of the file. -/
def content : Memory := fun x => f.device.disc (f.dataLba * 2048 + x)

variable {f} {buffer block count : ℕ}

theorem rightAt_content (hf : f.dataLba * 2048 < 2 ^ 32) (hb : buffer % 2 = 0)
    (hc : count < 65536) : f.blocks.RightAt f.content buffer block count := by
  intro mem
  change f.readBlocks mem buffer block count = .ok (mem.copy buffer (count * 2048) f.content _)
  rw [readBlocks, Nat.mod_eq_of_lt hf, Nat.mod_eq_of_lt hc, BlockDevice.read_of_even _ _ hb]
  refine congrArg _ (Memory.copy_congr fun i _ => ?_)
  rw [content, add_assoc]
  rfl

/-- **A file is read through three layers**: whatever is asked for comes from the place of the file
on the disc, if the buffer and the place in the file are both even or both odd. -/
theorem readFile_stores (f : FileINode) (mem : Memory) (buffer start len : ℕ)
    (hf : f.dataLba * 2048 < 2 ^ 32) (hb : (buffer + start) % 2 = 0) (hl : len < 65536 * 2048) :
    ∃ mem', f.readFile mem buffer start len = .ok mem' ∧
      (∀ i < len, mem' (buffer + i) = f.device.disc (f.dataLba * 2048 + (start + i))) ∧
      ∀ x, x < buffer ∨ buffer + len ≤ x → mem' x = mem x := by
  have hs : f.blocks.Serves
      ⟨none, f.content, start, buffer, len, mem.copy buffer len f.content start⟩ := by
    refine ⟨fun block => rightAt_content hf rfl (by decide), fun dst block count hd hc _ => ?_⟩
    change count * 2048 ≤ len at hc
    change dst + start = buffer + block * 2048 at hd
    exact rightAt_content hf (by omega) (by omega)
  exact ⟨_, BlockSource.copyLoop_eq hs, fun _ hi => Memory.copy_of_lt hi,
    fun _ hx => Memory.overlay_of_not_mem hx⟩

theorem readFile_stores_tray : ∃ mem,
    FileINode.readFile ⟨BlockDevice.tray, 24⟩ (fun _ => 0) 4097 3 70000 = .ok mem ∧
      mem 4098 = 4 := by
  obtain ⟨mem, hr, hi, -⟩ := readFile_stores ⟨BlockDevice.tray, 24⟩ (fun _ => 0) 4097 3 70000
    (by decide) (by decide) (by decide)
  exact ⟨mem, hr, (hi 1 (by decide)).trans (by decide)⟩

end FileINode

end AexKernel.Fs
