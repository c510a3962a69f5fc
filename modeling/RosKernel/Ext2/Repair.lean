import RosKernel.Ext2.Bitmaps
import RosKernel.Ext2.Truncate

/-! `DebugConsistencyCheck`, `DebugRepairConsistency` and `FreeInode`.

The first two mark the data blocks of all inodes in a bitmap of their own. What that bitmap and the
bitmaps on the disk do not agree on is counted by the one and changed by the other.
-/

set_option autoImplicit false

namespace RosKernel.Ext2

open Function (update)

open Memory (bitmapSet bitmapClear bitmapTest)

structure InodeGroup where
  bgInodeBitmap : Nat
  bgFreeInodesCount : BitVec 16

/-- A mounted volume with what it keeps about its inodes. -/
structure InodeVolume extends EXT2FileSystem where
  sInodesCount : Nat
  sFreeInodesCount : BitVec 32
  inodeGroups : Nat → InodeGroup
  /-- The mode of an inode on the disk, zero for one that is free. -/
  iMode : Nat → Nat

/-- The bitmap of the walk, and the volume after its requests. -/
abbrev Marking : Type := (Nat → BitVec 8) × EXT2FileSystem

def markBlock (totalBlocks : Nat) (refBitmap : Nat → BitVec 8) (blockNum : Nat) : Nat → BitVec 8 :=
  if blockNum = 0 ∨ blockNum > totalBlocks then refBitmap else bitmapSet refBitmap (blockNum - 1)

/-- The data blocks below a block, through `level` levels of pointer blocks. -/
def markUnder (totalBlocks : Nat) : Nat → Nat → Marking → Marking
  | 0, blockNum, (refBitmap, fs) => (markBlock totalBlocks refBitmap blockNum, fs)
  | level + 1, blockNum, (refBitmap, fs) =>
    match fs.readWords blockNum with
    | (none, fs) => (refBitmap, fs)
    | (some pointers, fs) =>
      (List.range fs.entriesPerBlock).foldl (fun marking slot => markUnder totalBlocks level (pointers slot) marking) (refBitmap, fs)

def markRoots (totalBlocks : Nat) (inode : Inode) (marking : Marking) : Marking :=
  (List.range 15).foldl (fun marking root => markUnder totalBlocks (root - 11) (inode.iBlock root) marking) marking

def markInode (totalBlocks : Nat) (iMode : Nat → Nat) (marking : Marking) (inodeNum : Nat) : Marking :=
  match marking.2.readInode inodeNum with
  | (none, fs) => (marking.1, fs)
  | (some inode, fs) => if iMode inodeNum = 0 then (marking.1, fs) else markRoots totalBlocks inode (marking.1, fs)

namespace InodeVolume

variable (volume : InodeVolume)

/-- The walk over all inodes. -/
def references (fs : EXT2FileSystem) : Marking :=
  (List.range' 1 volume.sInodesCount).foldl (markInode volume.superblock.sBlocksCount volume.iMode) (fun _ => 0, fs)

def blockBits (group : Nat) : List Nat :=
  (List.range volume.superblock.sBlocksPerGroup).takeWhile fun bit => answerFor volume.toEXT2FileSystem group bit ≤ volume.superblock.sBlocksCount

/-- The inode that stands for a bit. -/
def inodeFor (group bit : Nat) : Nat := (group * volume.superblock.sInodesPerGroup + bit + 1) % 2 ^ 32

def inodeBits (group : Nat) : List Nat :=
  (List.range volume.superblock.sInodesPerGroup).takeWhile fun bit => volume.inodeFor group bit ≤ volume.sInodesCount

def countUsedBlock (group : Nat) : InodeVolume :=
  { volume with
    bgdt := update volume.bgdt group
      { volume.bgdt group with bgFreeBlocksCount := if (volume.bgdt group).bgFreeBlocksCount = 0 then 0 else (volume.bgdt group).bgFreeBlocksCount - 1 }
    superblock := { volume.superblock with
      sFreeBlocksCount := if volume.superblock.sFreeBlocksCount = 0 then 0 else volume.superblock.sFreeBlocksCount - 1 } }

def countFreeBlock (group : Nat) : InodeVolume :=
  { volume with
    bgdt := update volume.bgdt group { volume.bgdt group with bgFreeBlocksCount := (volume.bgdt group).bgFreeBlocksCount + 1 }
    superblock := { volume.superblock with
      sFreeBlocksCount := if volume.superblock.sFreeBlocksCount = 0xFFFFFFFF#32 then volume.superblock.sFreeBlocksCount
        else volume.superblock.sFreeBlocksCount + 1 } }

def countUsedInode (group : Nat) : InodeVolume :=
  { volume with
    inodeGroups := update volume.inodeGroups group { volume.inodeGroups group with
      bgFreeInodesCount := if (volume.inodeGroups group).bgFreeInodesCount = 0 then 0 else (volume.inodeGroups group).bgFreeInodesCount - 1 }
    sFreeInodesCount := if volume.sFreeInodesCount = 0 then 0 else volume.sFreeInodesCount - 1 }

def countFreeInode (group : Nat) : InodeVolume :=
  { volume with
    inodeGroups := update volume.inodeGroups group
      { volume.inodeGroups group with bgFreeInodesCount := (volume.inodeGroups group).bgFreeInodesCount + 1 }
    sFreeInodesCount := if volume.sFreeInodesCount = 0xFFFFFFFF#32 then volume.sFreeInodesCount else volume.sFreeInodesCount + 1 }

def readBitmap (bitmapBlock : Nat) : Option (Nat → BitVec 8) × InodeVolume :=
  let (read, fs) := volume.blockRequest bitmapBlock
  (if read then some (volume.bitmaps bitmapBlock) else none, { volume with toEXT2FileSystem := fs })

def setBitmap (bitmapBlock : Nat) (data : Nat → BitVec 8) : InodeVolume :=
  { volume with bitmaps := update volume.bitmaps bitmapBlock data }

def writeBitmap (bitmapBlock : Nat) (data : Nat → BitVec 8) : Bool × InodeVolume :=
  let (written, fs) := volume.blockRequest bitmapBlock
  let volume := { volume with toEXT2FileSystem := fs }
  if written then (true, volume.setBitmap bitmapBlock data) else (false, volume)

def clearInode (inodeNum : Nat) : InodeVolume :=
  { volume with
    inodes := update volume.inodes inodeNum ⟨0, 0, fun _ => 0⟩
    iMode := update volume.iMode inodeNum 0 }

def freeInode (inodeNum : Nat) : Bool × InodeVolume :=
  let group := (inodeNum - 1) / volume.superblock.sInodesPerGroup
  let bit := (inodeNum - 1) % volume.superblock.sInodesPerGroup
  match volume.inodeTableBlock inodeNum with
  | none => (false, volume)
  | some targetBlock =>
    let bitmapBlock := (volume.inodeGroups group).bgInodeBitmap
    match volume.readBitmap bitmapBlock with
    | (none, volume) => (false, volume)
    | (some data, volume) =>
      let (written, volume) := volume.writeBitmap bitmapBlock (bitmapClear data bit)
      if written = false then (false, volume)
      else
        let volume := volume.countFreeInode group
        let (read, fs) := volume.blockRequest targetBlock
        let volume := { volume with toEXT2FileSystem := fs }
        if read = false then (false, volume)
        else
          let (written, fs) := volume.blockRequest targetBlock
          let volume := { volume with toEXT2FileSystem := fs }
          if written = false then (false, volume) else (true, volume.clearInode inodeNum)

end InodeVolume

/-- A bitmap in memory while its bits are repaired. -/
structure Fixing where
  data : Nat → BitVec 8
  volume : InodeVolume
  fixes : Nat
  changed : Bool

def fixBlock (refBitmap : Nat → BitVec 8) (group : Nat) (fixing : Fixing) (bit : Nat) : Fixing :=
  let isSet := bitmapTest fixing.data bit
  let referenced := bitmapTest refBitmap (answerFor fixing.volume.toEXT2FileSystem group bit - 1)
  if referenced && !isSet then ⟨bitmapSet fixing.data bit, fixing.volume.countUsedBlock group, fixing.fixes + 1, true⟩
  else if isSet && !referenced then ⟨bitmapClear fixing.data bit, fixing.volume.countFreeBlock group, fixing.fixes + 1, true⟩
  else fixing

/-- `FreeInode` changes the bitmap on the disk, not the one in memory. -/
def fixInode (group : Nat) (fixing : Fixing) (bit : Nat) : Fixing :=
  let inodeNum := fixing.volume.inodeFor group bit
  match fixing.volume.readInode inodeNum with
  | (none, fs) => { fixing with volume := { fixing.volume with toEXT2FileSystem := fs } }
  | (some _, fs) =>
    let volume := { fixing.volume with toEXT2FileSystem := fs }
    let isSet := bitmapTest fixing.data bit
    let inodePresent := volume.iMode inodeNum != 0
    if inodePresent && !isSet then ⟨bitmapSet fixing.data bit, volume.countUsedInode group, fixing.fixes + 1, true⟩
    else if isSet && !inodePresent then ⟨fixing.data, (volume.freeInode inodeNum).2, fixing.fixes + 1, true⟩
    else { fixing with volume := volume }

/-- The bits of one group; a bitmap that changed is written back. -/
def repairGroup (bitmapBlock : Nat) (bits : List Nat) (fix : Fixing → Nat → Fixing) (repaired : Nat × InodeVolume) : Nat × InodeVolume :=
  match repaired.2.readBitmap bitmapBlock with
  | (none, volume) => (repaired.1, volume)
  | (some data, volume) =>
    let fixing := bits.foldl fix ⟨data, volume, repaired.1, false⟩
    (fixing.fixes, if fixing.changed then (fixing.volume.writeBitmap bitmapBlock fixing.data).2 else fixing.volume)

def repairBlocks (refBitmap : Nat → BitVec 8) (repaired : Nat × InodeVolume) (group : Nat) : Nat × InodeVolume :=
  repairGroup (repaired.2.bgdt group).bgBlockBitmap (repaired.2.blockBits group) (fixBlock refBitmap group) repaired

def repairInodes (repaired : Nat × InodeVolume) (group : Nat) : Nat × InodeVolume :=
  repairGroup (repaired.2.inodeGroups group).bgInodeBitmap (repaired.2.inodeBits group) (fixInode group) repaired

/-- The 32-bit count of the repairs, and the volume after them. -/
def InodeVolume.debugRepairConsistency (volume : InodeVolume) : Nat × InodeVolume :=
  let (got, fs) := volume.request
  if got = false then (0, { volume with toEXT2FileSystem := fs })
  else
    let (refBitmap, fs) := volume.references fs
    let repaired := (List.range volume.numBlockGroups).foldl (repairBlocks refBitmap) (0, { volume with toEXT2FileSystem := fs })
    let repaired := (List.range volume.numBlockGroups).foldl repairInodes repaired
    (repaired.1 % 2 ^ 32, repaired.2)

end RosKernel.Ext2
