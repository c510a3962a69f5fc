import RosKernel.Memory.Physical

/-! A mounted EXT2 volume and its block bitmaps, `kernel/filesys/ext2/ext2_driver.cpp`.

A volume keeps its bitmaps, its tables and the blocks of its files in different blocks, so each
kind has a view of its own: a bitmap is read by the byte, a table of inodes by the inode, a file's
block by the 32-bit word. The copies of the superblock and of the descriptor table on the disk are
read by `Mount` only.
-/

set_option autoImplicit false

namespace RosKernel.Ext2

open Memory (bitmapSet bitmapClear bitmapTest)

structure SuperBlock where
  sBlocksCount : Nat
  sFreeBlocksCount : BitVec 32
  sFirstDataBlock : Nat
  sLogBlockSize : Nat
  sBlocksPerGroup : Nat
  sInodesPerGroup : Nat
  sMagic : Nat
  sInodeSize : Nat

structure BlockGroupDescriptor where
  bgBlockBitmap : Nat
  bgInodeTable : Nat
  bgFreeBlocksCount : BitVec 16

structure Inode where
  iSize : Nat
  iBlocks : Nat
  iBlock : Nat → Nat

structure EXT2FileSystem where
  superblock : SuperBlock
  blockSize : Nat
  numBlockGroups : Nat
  bgdt : Nat → BlockGroupDescriptor
  bitmaps : Nat → Nat → BitVec 8
  words : Nat → Nat → Nat
  inodes : Nat → Inode
  /-- Whether the coming requests to the device or for a DMA buffer fail; those past the end succeed. -/
  faults : List Bool
  /-- What `AllocateBlock` has answered. -/
  taken : List Nat
  /-- What `FreeBlock` was called with. -/
  freed : List Nat

namespace EXT2FileSystem

variable (fs : EXT2FileSystem)

/-- The same volume with other answers to the coming requests. -/
def withFaults (faults : List Bool) : EXT2FileSystem := { fs with faults := faults }

def request : Bool × EXT2FileSystem := (!fs.faults.headD false, fs.withFaults fs.faults.tail)

def requests : Nat → EXT2FileSystem → Bool × EXT2FileSystem
  | 0, fs => (true, fs)
  | count + 1, fs => if fs.request.1 then requests count fs.request.2 else (false, fs.request.2)

/-- `ReadBlock` and `WriteBlock` refuse block zero before they ask the device. -/
def blockRequest (blockNum : Nat) : Bool × EXT2FileSystem := if blockNum = 0 then (false, fs) else fs.request

end EXT2FileSystem

def ext2SuperMagic : Nat := 0xEF53

def SuperBlock.blockSize (sb : SuperBlock) : Nat := (1024 <<< sb.sLogBlockSize) % 2 ^ 32

def SuperBlock.numBlockGroups (sb : SuperBlock) : Nat :=
  (sb.sBlocksCount + sb.sBlocksPerGroup + (2 ^ 32 - 1)) % 2 ^ 32 / sb.sBlocksPerGroup

/-- The blocks of the descriptor table, of 32 bytes a group. -/
def SuperBlock.bgdtSizeInBlocks (sb : SuperBlock) : Nat :=
  (sb.numBlockGroups * 32 % 2 ^ 32 + sb.blockSize + (2 ^ 32 - 1)) % 2 ^ 32 / sb.blockSize

def EXT2FileSystem.measured (fs : EXT2FileSystem) (sb : SuperBlock) : EXT2FileSystem :=
  { fs with blockSize := sb.blockSize, numBlockGroups := sb.numBlockGroups }

/-- `Mount` of the volume that `disk` holds. The first request reads the superblock, the second
allocates the table, which the others fill. -/
def mount (disk : EXT2FileSystem) : Option EXT2FileSystem :=
  if disk.request.1 = false ∨ disk.superblock.sMagic ≠ ext2SuperMagic then none
  else
    let table := disk.request.2.requests (1 + disk.superblock.bgdtSizeInBlocks)
    if table.1 then some (table.2.measured disk.superblock) else none

namespace EXT2FileSystem

variable (fs : EXT2FileSystem)

def bitmapBytes : Nat := (fs.superblock.sBlocksPerGroup + 7) % 2 ^ 32 / 8

/-- The scan of one byte. A bit past the group's end ends it without an answer. -/
def scanByte (data : Nat → BitVec 8) (blocksThisGroup byteIdx : Nat) : Option Nat :=
  if data byteIdx = 0xFF#8 then none
  else
    match (List.range 8).find? fun bit => data byteIdx &&& 1#8 <<< bit = 0#8 with
    | none => none
    | some bit => if byteIdx * 8 + bit ≥ blocksThisGroup then none else some (byteIdx * 8 + bit)

def scanBitmap (data : Nat → BitVec 8) (blocksThisGroup bitmapBytes : Nat) : Option Nat :=
  (List.range bitmapBytes).findSome? (scanByte data blocksThisGroup)

/-- A bit is written back, and the counters follow it; `PersistSuperblockAndBGDT` may fail unnoticed. -/
def takeBit (group bit : Nat) : EXT2FileSystem :=
  let bitmapBlock := (fs.bgdt group).bgBlockBitmap
  { fs with
    bitmaps := Function.update fs.bitmaps bitmapBlock (bitmapSet (fs.bitmaps bitmapBlock) bit)
    bgdt := Function.update fs.bgdt group
      { fs.bgdt group with bgFreeBlocksCount := (fs.bgdt group).bgFreeBlocksCount - 1 }
    superblock := { fs.superblock with sFreeBlocksCount := fs.superblock.sFreeBlocksCount - 1 } }

/-- One round of the loop over the groups: the block to return, or none to go on. -/
def allocateInGroup (group : Nat) : Option Nat × EXT2FileSystem :=
  if (fs.bgdt group).bgFreeBlocksCount = 0 then (none, fs)
  else
    let bitmapBlock := (fs.bgdt group).bgBlockBitmap
    let (read, fs) := fs.blockRequest bitmapBlock
    if read = false then (none, fs)
    else
      match scanBitmap (fs.bitmaps bitmapBlock) fs.superblock.sBlocksPerGroup fs.bitmapBytes with
      | none => (none, fs)
      | some bit =>
        let (written, fs) := fs.blockRequest bitmapBlock
        if written then (some ((group * fs.superblock.sBlocksPerGroup + (bit + 1)) % 2 ^ 32), fs.takeBit group bit)
        else (some 0, fs)

def allocateFrom : List Nat → EXT2FileSystem → Nat × EXT2FileSystem
  | [], fs => (0, fs)
  | group :: rest, fs =>
    match fs.allocateInGroup group with
    | (some blockNum, after) => (blockNum, after)
    | (none, after) => allocateFrom rest after

def recordTake (blockNum : Nat) : EXT2FileSystem := { fs with taken := fs.taken ++ [blockNum] }

def allocateBlock : Nat × EXT2FileSystem :=
  let (blockNum, after) := allocateFrom (List.range fs.numBlockGroups) fs
  (blockNum, after.recordTake blockNum)

/-- A bit is cleared, and the counters follow it; the one of the superblock stops at its largest value. -/
def giveBit (group bit : Nat) : EXT2FileSystem :=
  let bitmapBlock := (fs.bgdt group).bgBlockBitmap
  { fs with
    bitmaps := Function.update fs.bitmaps bitmapBlock (bitmapClear (fs.bitmaps bitmapBlock) bit)
    bgdt := Function.update fs.bgdt group
      { fs.bgdt group with bgFreeBlocksCount := (fs.bgdt group).bgFreeBlocksCount + 1 }
    superblock := { fs.superblock with
      sFreeBlocksCount := if fs.superblock.sFreeBlocksCount = 0xFFFFFFFF#32 then fs.superblock.sFreeBlocksCount
        else fs.superblock.sFreeBlocksCount + 1 } }

/-- The second half of `FreeBlock`, when the block is in a group. -/
def freeBit (group bit : Nat) : Bool × EXT2FileSystem :=
  let bitmapBlock := (fs.bgdt group).bgBlockBitmap
  let (read, fs) := fs.blockRequest bitmapBlock
  if read = false then (false, fs)
  else
    let (written, fs) := fs.blockRequest bitmapBlock
    if written then (true, fs.giveBit group bit) else (false, fs)

def recordFree (blockNum : Nat) : EXT2FileSystem := { fs with freed := fs.freed ++ [blockNum] }

def freeBlock (blockNum : Nat) : Bool × EXT2FileSystem :=
  let fs := fs.recordFree blockNum
  if blockNum = 0 then (false, fs)
  else if (blockNum - 1) / fs.superblock.sBlocksPerGroup ≥ fs.numBlockGroups then (false, fs)
  else fs.freeBit ((blockNum - 1) / fs.superblock.sBlocksPerGroup) ((blockNum - 1) % fs.superblock.sBlocksPerGroup)

end EXT2FileSystem

end RosKernel.Ext2
