import RosKernel.Ext2.DirNames
import RosKernel.Ext2.RepairSafety

/-! Consistent volumes, and what the check and the repair make of them.

In use are the data blocks of the inodes, their pointer blocks and the blocks of the file system's own
tables. The walk knows the first of these only.
-/

set_option autoImplicit false

namespace RosKernel.Ext2

open EXT2FileSystem

namespace InodeVolume

variable (volume : InodeVolume)

/-- The blocks of the table of inodes of a group. -/
def inodeTableBlocks : Nat :=
  (volume.superblock.sInodesPerGroup * volume.superblock.sInodeSize + volume.blockSize - 1) / volume.blockSize

/-- The superblock, the group descriptors, the bitmaps and the tables of inodes. -/
def Metadata (blockNum : Nat) : Prop :=
  (volume.superblock.sFirstDataBlock ≤ blockNum ∧ blockNum ≤ volume.superblock.sFirstDataBlock + volume.superblock.bgdtSizeInBlocks) ∨
  ∃ group < volume.numBlockGroups, blockNum = (volume.bgdt group).bgBlockBitmap ∨ blockNum = (volume.inodeGroups group).bgInodeBitmap ∨
    ((volume.bgdt group).bgInodeTable ≤ blockNum ∧ blockNum < (volume.bgdt group).bgInodeTable + volume.inodeTableBlocks)

/-- A block of data or of pointers of an inode in use. -/
def Reachable (blockNum : Nat) : Prop :=
  ∃ inodeNum, volume.InodeInUse inodeNum ∧ ∃ path, Within volume.entriesPerBlock path ∧ path ≠ [] ∧
    volume.blockAt (volume.inodes inodeNum) path = blockNum

/-- A block of the volume that is in use. -/
def Used (blockNum : Nat) : Prop :=
  volume.superblock.sFirstDataBlock ≤ blockNum ∧ blockNum < volume.superblock.sBlocksCount ∧ (volume.Metadata blockNum ∨ volume.Reachable blockNum)

/-- The blocks and the inodes that are marked are those in use. -/
structure Consistent : Prop where
  blocks : ∀ blockNum, volume.superblock.sFirstDataBlock ≤ blockNum → blockNum < volume.superblock.sBlocksCount →
    (volume.InUse blockNum ↔ volume.Used blockNum)
  inodes : volume.InodesExact

end InodeVolume

section

variable {volume after : InodeVolume} {group bit blockNum : Nat}

theorem Alike.used (alike : Alike volume after) : after.Used blockNum ↔ volume.Used blockNum := by
  obtain ⟨_, _, _, _, _, inodes, eq, rfl⟩ := alike
  refine and_congr_right' (and_congr_right' (or_congr_right ⟨?_, ?_⟩))
  · rintro ⟨inodeNum, inUse, path, within, below, h⟩
    refine ⟨inodeNum, inUse, path, within, below, ?_⟩
    rw [← eq inodeNum inUse.2.2]
    exact h
  · rintro ⟨inodeNum, inUse, path, within, below, h⟩
    refine ⟨inodeNum, inUse, path, within, below, ?_⟩
    rw [← eq inodeNum inUse.2.2] at h
    exact h

theorem InodeVolume.Readable.placed (readable : volume.Readable) (first : volume.superblock.sFirstDataBlock ≤ blockNum)
    (last : blockNum < volume.superblock.sBlocksCount) :
    (volume.place blockNum).1 * volume.superblock.sBlocksPerGroup + (volume.place blockNum).2 + 1 = blockNum - volume.superblock.sFirstDataBlock + 1 ∧
    ((volume.place blockNum).1 < volume.numBlockGroups → (volume.place blockNum).2 ∈ volume.blockBits (volume.place blockNum).1) := by
  have pos := readable.formatted.positive
  have whole := Nat.div_add_mod (blockNum - volume.superblock.sFirstDataBlock) volume.superblock.sBlocksPerGroup
  rw [Nat.mul_comm] at whole
  have number : (volume.place blockNum).1 * volume.superblock.sBlocksPerGroup + (volume.place blockNum).2 = blockNum - volume.superblock.sFirstDataBlock := whole
  refine ⟨by rw [number], fun inGroups => (readable.mem_blockBits inGroups).mpr ⟨Nat.mod_lt _ pos, ?_⟩⟩
  rw [number]
  omega

theorem Repaired.inUse (readable : volume.Readable) (repaired : Repaired volume after) (first : volume.superblock.sFirstDataBlock ≤ blockNum)
    (last : blockNum < volume.superblock.sBlocksCount) : after.InUse blockNum ↔
      (volume.place blockNum).1 < volume.numBlockGroups ∧ volume.DataBlock (blockNum - volume.superblock.sFirstDataBlock + 1) := by
  obtain ⟨number, mem⟩ := readable.placed first last
  obtain ⟨alike, blocks, _⟩ := repaired
  obtain ⟨_, _, _, _, _, _, _, rfl⟩ := alike
  refine and_congr_right fun inGroups => ?_
  rw [← number]
  exact blocks _ inGroups _ (mem inGroups)

end

/-- One group of 31 blocks of 1 KiB and 8 inodes. Blocks 1 to 5 hold the tables of the file system, and
inode 2 has block 6. -/
def oneFile : InodeVolume where
  superblock := ⟨32, 26, 1, 0, 32, 8, ext2SuperMagic, 128⟩
  blockSize := 1024
  numBlockGroups := 1
  bgdt := fun _ => ⟨3, 5, 26⟩
  bitmaps := fun blockNum byteIdx => if byteIdx = 0 then (if blockNum = 3 then 0b00111111#8 else 0b00000010#8) else 0#8
  words := fun _ _ => 0
  inodes := fun inodeNum => if inodeNum = 2 then inodeWith [6] else inodeWith []
  faults := []
  taken := []
  freed := []
  sInodesCount := 8
  sFreeInodesCount := 7
  inodeGroups := fun _ => ⟨4, 7⟩
  iMode := fun inodeNum => if inodeNum = 2 then ext2SIfdir else 0

end RosKernel.Ext2
