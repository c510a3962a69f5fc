import RosKernel.Ext2.Volume

/-! The blocks of an inode: `GetBlockNumForFileOffset`, `GetOrAllocateBlockForFileOffset` and `EXT2FileSystem::Truncate`.

The first two take a file block index apart on their own. A missing pointer block is allocated on the way, written into its
parent and cleared after that. The walks of `Truncate` differ in their depth and in the way they number a file block only; the
numbers of the first two have 32 bits, the last has 64 bits but starts from 32-bit counts.
-/

set_option autoImplicit false

namespace RosKernel.Ext2

namespace Inode

def setBlock (inode : Inode) (slot blockNum : Nat) : Inode :=
  { inode with iBlock := Function.update inode.iBlock slot blockNum }

def addBlock (inode : Inode) (blockSize : Nat) : Inode :=
  { inode with iBlocks := (inode.iBlocks + blockSize / 512) % 2 ^ 32 }

end Inode

namespace EXT2FileSystem

variable (fs : EXT2FileSystem)

def entriesPerBlock : Nat := fs.blockSize / 4

/-- `ReadBlock` of a block of words; none when it fails. -/
def readWords (blockNum : Nat) : Option (Nat → Nat) × EXT2FileSystem :=
  let (read, fs) := fs.blockRequest blockNum
  (if read then some (fs.words blockNum) else none, fs)

def setWords (blockNum : Nat) (data : Nat → Nat) : EXT2FileSystem :=
  { fs with words := Function.update fs.words blockNum data }

def writeWords (blockNum : Nat) (data : Nat → Nat) : Bool × EXT2FileSystem :=
  let (written, fs) := fs.blockRequest blockNum
  if written then (true, fs.setWords blockNum data) else (false, fs)

/-- A block is cleared through a buffer of its own; false without that buffer. -/
def zeroBlock (blockNum : Nat) : Bool × EXT2FileSystem :=
  let (got, fs) := fs.request
  if got then (true, (fs.writeWords blockNum fun _ => 0).2) else (false, fs)

/-- The block at the end of the slots, from a pointer on. -/
def follow : List Nat → Nat → EXT2FileSystem → Nat × EXT2FileSystem
  | [], blockNum, fs => (blockNum, fs)
  | slot :: slots, blockNum, fs =>
    if blockNum = 0 then (0, fs)
    else
      match fs.readWords blockNum with
      | (none, fs) => (0, fs)
      | (some pointers, fs) => follow slots (pointers slot) fs

def getBlockNumForFileOffset (inode : Inode) (fileBlockIndex : Nat) : Nat × EXT2FileSystem :=
  if fileBlockIndex < 12 then (inode.iBlock fileBlockIndex, fs)
  else
    let entries := fs.entriesPerBlock
    let idx := fileBlockIndex - 12
    if idx < entries then follow [idx] (inode.iBlock 12) fs
    else
      let idx := idx - entries
      let entries2 := entries * entries
      if idx < entries2 then follow [idx / entries, idx % entries] (inode.iBlock 13) fs
      else
        let idx := idx - entries2 % 2 ^ 32
        let entries3 := entries2 * entries % 2 ^ 64
        if idx < entries3 then
          let rem := idx % (entries2 % 2 ^ 32)
          follow [idx / (entries2 % 2 ^ 32), rem / entries, rem % entries] (inode.iBlock 14) fs
        else (0, fs)

/-- The pointer at a slot of a pointer block, and whether it is new. -/
def ensureSlot (blockNum slot : Nat) : (Nat × Bool) × EXT2FileSystem :=
  match fs.readWords blockNum with
  | (none, fs) => ((0, false), fs)
  | (some pointers, fs) =>
    if pointers slot ≠ 0 then ((pointers slot, false), fs)
    else
      let (new, fs) := fs.allocateBlock
      if new = 0 then ((0, false), fs)
      else
        let (written, fs) := fs.writeWords blockNum (Function.update pointers slot new)
        if written = false then ((0, false), fs) else ((new, true), (fs.zeroBlock new).2)

/-- Through the slots, of which the last holds a data block. -/
def descend : List Nat → Nat → EXT2FileSystem → (Nat × Bool) × EXT2FileSystem
  | [], blockNum, fs => ((blockNum, false), fs)
  | [slot], blockNum, fs => fs.ensureSlot blockNum slot
  | slot :: next :: slots, blockNum, fs =>
    match fs.ensureSlot blockNum slot with
    | ((child, _), fs) => if child = 0 then ((0, false), fs) else descend (next :: slots) child fs

/-- The pointer block that a slot of the inode names; false when it cannot be had. -/
def ensureRoot (inode : Inode) (root : Nat) : Bool × Inode × EXT2FileSystem :=
  if inode.iBlock root ≠ 0 then (true, inode, fs)
  else
    let (new, fs) := fs.allocateBlock
    if new = 0 then (false, inode, fs)
    else
      let (zeroed, fs) := fs.zeroBlock new
      (zeroed, inode.setBlock root new, fs)

def allocateUnder (inode : Inode) (root : Nat) (slots : List Nat) : Nat × Inode × EXT2FileSystem :=
  let (there, inode, fs) := fs.ensureRoot inode root
  if there then
    let ((target, new), fs) := descend slots (inode.iBlock root) fs
    (target, if new then inode.addBlock fs.blockSize else inode, fs)
  else (0, inode, fs)

def getOrAllocateBlockForFileOffset (inode : Inode) (fileBlockIndex : Nat) : Nat × Inode × EXT2FileSystem :=
  if fileBlockIndex < 12 then
    if inode.iBlock fileBlockIndex ≠ 0 then (inode.iBlock fileBlockIndex, inode, fs)
    else
      let (new, fs) := fs.allocateBlock
      if new = 0 then (0, inode, fs)
      else (new, (inode.setBlock fileBlockIndex new).addBlock fs.blockSize, (fs.zeroBlock new).2)
  else
    let entries := fs.entriesPerBlock
    let idx := fileBlockIndex - 12
    if idx < entries then fs.allocateUnder inode 12 [idx]
    else
      let idx := idx - entries
      let entries2 := entries * entries
      if idx < entries2 then
        let idx1 := idx / entries
        let idx2 := idx % entries
        fs.allocateUnder inode 13 [idx1, idx2]
      else
        let idx := idx - entries2 % 2 ^ 32
        let entries3 := entries2 * entries % 2 ^ 64
        if idx < entries3 then
          let idx1 := idx / (entries2 % 2 ^ 32)
          let rem := idx % (entries2 % 2 ^ 32)
          let idx2 := rem / entries
          let idx3 := rem % entries
          fs.allocateUnder inode 14 [idx1, idx2, idx3]
        else (0, inode, fs)

end EXT2FileSystem

/-- `globalIdx` and `idx` of the walks, for the slots from the data block up to the inode. -/
def globalIdx (entries : Nat) : List Nat → Nat :=
  let singleStart := 12
  let doubleStart := (singleStart + entries) % 2 ^ 32
  let doubleCount := entries * entries % 2 ^ 32
  let tripleStart := (doubleStart + doubleCount) % 2 ^ 32
  fun
  | [j, _] => (singleStart + j) % 2 ^ 32
  | [j, i1, _] => (doubleStart + i1 * entries + j) % 2 ^ 32
  | [j, i2, i1, _] => tripleStart + i1 * doubleCount + i2 * entries + j
  | _ => 0

/-- Whether `Truncate` frees the data block at the slots. -/
def frees (entries oldBlocks newBlocks : Nat) : List Nat → Bool
  | [slot] => newBlocks ≤ slot && slot < oldBlocks
  | path => newBlocks ≤ globalIdx entries path

def Inode.dropBlock (inode : Inode) (blockSize : Nat) : Inode :=
  { inode with iBlocks := (inode.iBlocks + (2 ^ 32 - blockSize / 512 % 2 ^ 32)) % 2 ^ 32 }

/-- An inode of the VFS. -/
structure Node where
  inodeID : Nat
  fileSize : Nat

namespace EXT2FileSystem

variable (fs : EXT2FileSystem)

/-- The block of the table that an inode is in. -/
def inodeTableBlock (inodeNum : Nat) : Option Nat :=
  let group := (inodeNum - 1) / fs.superblock.sInodesPerGroup
  if inodeNum = 0 ∨ group ≥ fs.numBlockGroups then none
  else
    let offsetInTable := (inodeNum - 1) % fs.superblock.sInodesPerGroup * fs.superblock.sInodeSize
    some (((fs.bgdt group).bgInodeTable + offsetInTable / fs.blockSize % 2 ^ 32) % 2 ^ 32)

def readInode (inodeNum : Nat) : Option Inode × EXT2FileSystem :=
  match fs.inodeTableBlock inodeNum with
  | none => (none, fs)
  | some blockNum =>
    let (read, fs) := fs.blockRequest blockNum
    (if read then some (fs.inodes inodeNum) else none, fs)

def setInode (inodeNum : Nat) (inode : Inode) : EXT2FileSystem :=
  { fs with inodes := Function.update fs.inodes inodeNum inode }

def writeInode (inodeNum : Nat) (inode : Inode) : Bool × EXT2FileSystem :=
  match fs.inodeTableBlock inodeNum with
  | none => (false, fs)
  | some blockNum =>
    let (read, fs) := fs.blockRequest blockNum
    if read = false then (false, fs)
    else
      let (written, fs) := fs.blockRequest blockNum
      if written then (true, fs.setInode inodeNum inode) else (false, fs)

/-- The slots below `count` of a pointer block in memory, each with a pointer cut in turn. -/
def cutSlots (cut : Nat → Nat → Inode → EXT2FileSystem → Nat × Inode × EXT2FileSystem) :
    Nat → (Nat → Nat) → Inode → EXT2FileSystem → (Nat → Nat) × Inode × EXT2FileSystem
  | 0, pointers, inode, fs => (pointers, inode, fs)
  | count + 1, pointers, inode, fs =>
    let (pointers, inode, fs) := cutSlots cut count pointers inode fs
    if pointers count = 0 then (pointers, inode, fs)
    else
      let (entry, inode, fs) := cut count (pointers count) inode fs
      (Function.update pointers count entry, inode, fs)

/-- What a slot holds after the walk below it: a data block that goes is freed, a pointer block that
holds no pointer any more is freed and otherwise written back. One that cannot be read is left. -/
def cut (drops : List Nat → Bool) : Nat → List Nat → Nat → Inode → EXT2FileSystem → Nat × Inode × EXT2FileSystem
  | 0, path, entry, inode, fs =>
    if drops path then (0, inode.dropBlock fs.blockSize, (fs.freeBlock entry).2) else (entry, inode, fs)
  | level + 1, path, entry, inode, fs =>
    match fs.readWords entry with
    | (none, fs) => (entry, inode, fs)
    | (some pointers, fs) =>
      let (pointers, inode, fs) :=
        cutSlots (fun slot => cut drops level (slot :: path)) fs.entriesPerBlock pointers inode fs
      if (List.range fs.entriesPerBlock).any fun slot => pointers slot ≠ 0 then
        (entry, inode, (fs.writeWords entry pointers).2)
      else (0, inode, (fs.freeBlock entry).2)

/-- The slots of the inode: 12 data blocks and a tree of each depth. -/
def cutInode (drops : List Nat → Bool) (inode : Inode) : Inode × EXT2FileSystem :=
  let (slots, inode, fs) := cutSlots (fun slot => cut drops (slot - 11) [slot]) 15 inode.iBlock inode fs
  ({ inode with iBlock := slots }, fs)

/-- The blocks of a size, with the sum in the given number of bits. -/
def blocksOf (bits size : Nat) : Nat := (size + fs.blockSize + (2 ^ bits - 1)) % 2 ^ bits / fs.blockSize

/-- The inode is written with its size, and the VFS inode follows. -/
def finishTruncate (node : Node) (inodeNum size : Nat) (inode : Inode) : Bool × Node × EXT2FileSystem :=
  let inode := { inode with iSize := size % 2 ^ 32 }
  let (written, fs) := fs.writeInode inodeNum inode
  if written then (true, { node with fileSize := inode.iSize }, fs) else (false, node, fs)

def truncate (node : Node) (size : Nat) : Bool × Node × EXT2FileSystem :=
  let inodeNum := node.inodeID % 2 ^ 32
  if inodeNum = 0 then (false, node, fs)
  else
    match fs.readInode inodeNum with
    | (none, fs) => (false, node, fs)
    | (some inode, fs) =>
      if size ≥ inode.iSize then fs.finishTruncate node inodeNum size inode
      else
        let oldBlocks := fs.blocksOf 32 inode.iSize
        let newBlocks := fs.blocksOf 64 size % 2 ^ 32
        if newBlocks ≥ oldBlocks then fs.finishTruncate node inodeNum size inode
        else
          let (inode, fs) := fs.cutInode (frees fs.entriesPerBlock oldBlocks newBlocks) inode
          fs.finishTruncate node inodeNum size inode

end EXT2FileSystem

end RosKernel.Ext2
