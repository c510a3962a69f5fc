import RosKernel.Ext2.DirTrees
import RosKernel.Ext2.Repair
import RosKernel.Ext2.Walks

/-! The bitmap that the check and the repair compare with.

Without failing requests the walk marks the data blocks of the inodes in use, and nothing else: not the
pointer blocks that it reads on its way.
-/

set_option autoImplicit false

namespace RosKernel.Ext2

open Library EXT2FileSystem List
open Memory (bitmapTest bitmapTest_set)

section

variable {fs : EXT2FileSystem} {inode : Inode} {totalBlocks bit : Nat} {refBitmap : Nat → BitVec 8} {path : List Nat}

theorem bitmapTest_mark (totalBlocks : Nat) (refBitmap : Nat → BitVec 8) (blockNum bit : Nat) :
    bitmapTest (markBlock totalBlocks refBitmap blockNum) bit = true ↔
      bitmapTest refBitmap bit = true ∨ (blockNum = bit + 1 ∧ blockNum ≤ totalBlocks) := by
  unfold markBlock
  split
  case isTrue out =>
    refine ⟨.inl, fun either => either.resolve_right ?_⟩
    rintro ⟨eq, hin⟩
    omega
  case isFalse hin =>
    rw [bitmapTest_set, Bool.or_eq_true, decide_eq_true_iff]
    constructor
    · rintro (eq | pre)
      · exact .inr ⟨by omega, by omega⟩
      · exact .inl pre
    · rintro (pre | ⟨eq, _⟩)
      · exact .inr pre
      · exact .inl (by omega)

/-- A part of the walk marks what is at these paths, and leaves the volume alone. -/
def Marks (fs : EXT2FileSystem) (totalBlocks : Nat) (refBitmap : Nat → BitVec 8) (blocks : Nat → Prop) (marking : Marking) : Prop :=
  marking.2 = fs ∧ ∀ bit, bitmapTest marking.1 bit = true ↔ bitmapTest refBitmap bit = true ∨ (bit + 1 ≤ totalBlocks ∧ blocks (bit + 1))

theorem Marks.nothing (fs : EXT2FileSystem) (totalBlocks : Nat) (refBitmap : Nat → BitVec 8) :
    Marks fs totalBlocks refBitmap (fun _ => False) (refBitmap, fs) :=
  ⟨rfl, fun _ => ⟨.inl, fun either => either.resolve_right fun none => none.2⟩⟩

theorem Marks.congr {blocks more : Nat → Prop} {marking : Marking} (marks : Marks fs totalBlocks refBitmap blocks marking)
    (eq : ∀ blockNum, 0 < blockNum → (blocks blockNum ↔ more blockNum)) : Marks fs totalBlocks refBitmap more marking :=
  ⟨marks.1, fun bit => (marks.2 bit).trans (or_congr_right (and_congr_right' (eq (bit + 1) (Nat.succ_pos bit))))⟩

theorem marks_foldl {α : Type} {step : Marking → α → Marking} {blocks : α → Nat → Prop} (places : List α)
    (steps : ∀ place ∈ places, ∀ refBitmap, Marks fs totalBlocks refBitmap (blocks place) (step (refBitmap, fs) place)) (refBitmap : Nat → BitVec 8) :
    Marks fs totalBlocks refBitmap (fun blockNum => ∃ place ∈ places, blocks place blockNum) (places.foldl step (refBitmap, fs)) := by
  induction places generalizing refBitmap with
  | nil => exact (Marks.nothing fs totalBlocks refBitmap).congr fun _ _ => ⟨fun none => none.elim, fun ⟨_, mem, _⟩ => nomatch mem⟩
  | cons place places ih =>
    rw [foldl_cons]
    obtain ⟨eq, first⟩ := steps place (.head _) refBitmap
    generalize step (refBitmap, fs) place = marking at eq first ⊢
    obtain ⟨bits, after⟩ := marking
    obtain rfl : after = fs := eq
    obtain ⟨kept, rest⟩ := ih (fun other mem => steps other (.tail _ mem)) bits
    refine ⟨kept, fun bit => (rest bit).trans ?_⟩
    rw [first bit, or_assoc, ← and_or_left]
    simp only [exists_mem_cons_iff]

/-- Below a missing block nothing is marked, since block zero is not read. -/
theorem markUnder_marks (sound : fs.faults = []) {level : Nat} (below : path ≠ []) (refBitmap : Nat → BitVec 8) :
    Marks fs totalBlocks refBitmap (fun blockNum => ∃ leaf ∈ pathsUnder fs.entriesPerBlock level path, fs.blockAt inode leaf = blockNum)
      (markUnder totalBlocks level (fs.blockAt inode path) (refBitmap, fs)) := by
  induction level generalizing path refBitmap with
  | zero =>
    refine ⟨rfl, fun bit => (bitmapTest_mark totalBlocks refBitmap _ bit).trans (or_congr_right ?_)⟩
    simp only [pathsUnder, mem_singleton, exists_eq_left]
    constructor
    · rintro ⟨eq, hin⟩
      exact ⟨eq ▸ hin, eq⟩
    · rintro ⟨hin, eq⟩
      exact ⟨eq, eq ▸ hin⟩
  | succ level ih =>
    by_cases there : fs.blockAt inode path = 0
    · have unread : fs.readWords (fs.blockAt inode path) = (none, fs) := by
        unfold readWords blockRequest
        rw [if_pos there]
        rfl
      rw [markUnder, unread]
      refine (Marks.nothing fs totalBlocks refBitmap).congr fun blockNum pos => ⟨fun none => none.elim, ?_⟩
      rintro ⟨leaf, under, h⟩
      have miss := blockAt_missing below there (suffix_of_mem under)
      omega
    · have content : ∀ slot, fs.blockAt inode (slot :: path) = fs.words (fs.blockAt inode path) slot :=
        blockAt_cons ((reach_iff below there).mpr rfl)
      rw [markUnder, readWords_succeeds sound there]
      have rounds := @marks_foldl fs totalBlocks _ (fun marking slot => markUnder totalBlocks level (fs.words (fs.blockAt inode path) slot) marking)
        (fun slot blockNum => ∃ leaf ∈ pathsUnder fs.entriesPerBlock level (slot :: path), fs.blockAt inode leaf = blockNum)
        (List.range fs.entriesPerBlock) (fun slot _ refBitmap => content slot ▸ ih (cons_ne_nil slot path) refBitmap) refBitmap
      refine rounds.congr fun blockNum _ => ?_
      simp only [pathsUnder, mem_flatMap]
      constructor
      · rintro ⟨slot, mem, leaf, under, h⟩
        exact ⟨leaf, ⟨slot, mem, under⟩, h⟩
      · rintro ⟨leaf, ⟨slot, mem, under⟩, h⟩
        exact ⟨slot, mem, leaf, under, h⟩

theorem markRoots_marks (sound : fs.faults = []) (inode : Inode) (refBitmap : Nat → BitVec 8) :
    Marks fs totalBlocks refBitmap (fun blockNum => ∃ leaf, Leaf fs.entriesPerBlock leaf ∧ fs.blockAt inode leaf = blockNum)
      (markRoots totalBlocks inode (refBitmap, fs)) := by
  have rounds := @marks_foldl fs totalBlocks _ (fun marking root => markUnder totalBlocks (root - 11) (inode.iBlock root) marking)
    (fun root blockNum => ∃ leaf ∈ pathsUnder fs.entriesPerBlock (root - 11) [root], fs.blockAt inode leaf = blockNum)
    (List.range 15) (fun root _ refBitmap => blockAt_root fs inode root ▸ markUnder_marks sound (cons_ne_nil root []) refBitmap) refBitmap
  refine rounds.congr fun blockNum _ => ?_
  simp only [← mem_leafPaths, leafPaths, mem_flatMap]
  exact ⟨fun ⟨root, mem, leaf, under, h⟩ => ⟨leaf, ⟨root, mem, under⟩, h⟩,
    fun ⟨leaf, ⟨root, mem, under⟩, h⟩ => ⟨root, mem, leaf, under, h⟩⟩

end

/-- The bitmaps and the inodes are in blocks that can be read, and each bitmap in its own. -/
structure InodeVolume.Readable (volume : InodeVolume) : Prop where
  sound : volume.faults = []
  mounted : volume.Mounted
  formatted : volume.Formatted
  blockBitmaps : ∀ group < volume.numBlockGroups, (volume.bgdt group).bgBlockBitmap ≠ 0
  inodeBitmaps : ∀ group < volume.numBlockGroups, (volume.inodeGroups group).bgInodeBitmap ≠ 0
  apart : ∀ group < volume.numBlockGroups, ∀ other < volume.numBlockGroups,
    (volume.inodeGroups group).bgInodeBitmap = (volume.inodeGroups other).bgInodeBitmap → group = other
  between : ∀ group < volume.numBlockGroups, ∀ other < volume.numBlockGroups,
    (volume.inodeGroups group).bgInodeBitmap ≠ (volume.bgdt other).bgBlockBitmap
  counted : volume.sInodesCount = volume.numBlockGroups * volume.superblock.sInodesPerGroup
  small : volume.sInodesCount < 2 ^ 32 - 1
  inodes : ∀ inodeNum, 1 ≤ inodeNum → inodeNum ≤ volume.sInodesCount → ∃ blockNum, volume.inodeTableBlock inodeNum = some blockNum ∧ blockNum ≠ 0

/-- An inode of the volume with a mode. -/
def InodeVolume.InodeInUse (volume : InodeVolume) (inodeNum : Nat) : Prop :=
  1 ≤ inodeNum ∧ inodeNum ≤ volume.sInodesCount ∧ volume.iMode inodeNum ≠ 0

/-- A data block of an inode in use. -/
def InodeVolume.DataBlock (volume : InodeVolume) (blockNum : Nat) : Prop :=
  ∃ inodeNum, volume.InodeInUse inodeNum ∧ ∃ leaf, Leaf volume.entriesPerBlock leaf ∧ volume.blockAt (volume.inodes inodeNum) leaf = blockNum

section

variable {volume : InodeVolume}

theorem InodeVolume.Readable.readInode_eq (readable : volume.Readable) {inodeNum : Nat} (first : 1 ≤ inodeNum) (last : inodeNum ≤ volume.sInodesCount) :
    volume.readInode inodeNum = (some (volume.inodes inodeNum), volume.toEXT2FileSystem) := by
  obtain ⟨blockNum, table, nz⟩ := readable.inodes inodeNum first last
  exact readInode_succeeds readable.sound nz table

theorem InodeVolume.Readable.references_mark (readable : volume.Readable) : (volume.references volume.toEXT2FileSystem).2 = volume.toEXT2FileSystem ∧
    ∀ bit, bitmapTest (volume.references volume.toEXT2FileSystem).1 bit = true ↔
      bit + 1 ≤ volume.superblock.sBlocksCount ∧ volume.DataBlock (bit + 1) := by
  have rounds := @marks_foldl volume.toEXT2FileSystem volume.superblock.sBlocksCount _ (markInode volume.superblock.sBlocksCount volume.iMode)
    (fun inodeNum blockNum => volume.iMode inodeNum ≠ 0 ∧
      ∃ leaf, Leaf volume.entriesPerBlock leaf ∧ volume.blockAt (volume.inodes inodeNum) leaf = blockNum)
    (range' 1 volume.sInodesCount) (fun inodeNum mem refBitmap => by
      have range := mem_range'_1.mp mem
      unfold markInode
      rw [readable.readInode_eq range.1 (by omega)]
      dsimp only
      split
      case isTrue free =>
        exact (Marks.nothing _ _ refBitmap).congr fun _ _ => ⟨fun none => none.elim, fun used => absurd free used.1⟩
      case isFalse used =>
        exact (markRoots_marks readable.sound (volume.inodes inodeNum) refBitmap).congr fun _ _ => ⟨fun h => ⟨used, h⟩, fun both => both.2⟩)
    (fun _ => 0)
  refine ⟨rounds.1, fun bit => (rounds.2 bit).trans ?_⟩
  have clear : bitmapTest (fun _ => (0 : BitVec 8)) bit = false := by
    rw [Memory.bitmapTest_eq]
    exact BitVec.getLsbD_zero
  rw [clear]
  simp only [Bool.false_eq_true, false_or]
  refine and_congr_right' ⟨?_, ?_⟩
  · rintro ⟨inodeNum, mem, used, h⟩
    have range := mem_range'_1.mp mem
    exact ⟨inodeNum, ⟨range.1, by omega, used⟩, h⟩
  · rintro ⟨inodeNum, ⟨first, last, used⟩, h⟩
    exact ⟨inodeNum, mem_range'_1.mpr ⟨first, by omega⟩, used, h⟩

end

end RosKernel.Ext2
