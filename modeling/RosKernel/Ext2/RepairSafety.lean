import Mathlib.Algebra.Group.Action.Defs
import Mathlib.Data.List.TakeWhile
import RosKernel.Ext2.References

/-! What the check finds, and what the repair leaves.

The repair makes a bit of a block bitmap what the walk says about its block, so a block in use that
is no data block is given free. It keeps the bit of an inode that is marked and empty.
-/

set_option autoImplicit false

namespace RosKernel.Ext2

open EXT2FileSystem List
open Function (update update_of_ne update_self)
open Memory (bitmapSet bitmapClear bitmapTest bitmapTest_set bitmapTest_clear)

/-! ## The bits of a group -/

theorem mem_takeWhile_range {count index : Nat} {keep : Nat → Bool} (closed : ∀ i j, i ≤ j → j < count → keep j = true → keep i = true) :
    index ∈ (range count).takeWhile keep ↔ index < count ∧ keep index = true := by
  constructor
  · intro mem
    exact ⟨mem_range.mp ((takeWhile_sublist keep).subset mem), mem_takeWhile_imp mem⟩
  · rintro ⟨hin, kept⟩
    have split : range count = range (index + 1) ++ (range (count - (index + 1))).map (index + 1 + ·) := by
      rw [← range_add]
      congr 1
      omega
    rw [split, takeWhile_append_of_pos fun i mem => closed i index (Nat.le_of_lt_succ (mem_range.mp mem)) hin kept]
    exact mem_append_left _ (mem_range.mpr (Nat.lt_succ_self index))

section

variable {volume : InodeVolume} {group bit : Nat}

section

variable (readable : volume.Readable) (inGroups : group < volume.numBlockGroups)
include readable inGroups

theorem InodeVolume.Readable.mem_blockBits : bit ∈ volume.blockBits group ↔ bit < volume.superblock.sBlocksPerGroup ∧
      group * volume.superblock.sBlocksPerGroup + bit + 1 ≤ volume.superblock.sBlocksCount := by
  unfold blockBits
  rw [mem_takeWhile_range]
  · refine and_congr_right fun hin => ?_
    rw [answerFor_eq readable.mounted inGroups hin, decide_eq_true_iff]
  · intro i j pre hin kept
    rw [answerFor_eq readable.mounted inGroups hin, decide_eq_true_iff] at kept
    rw [answerFor_eq readable.mounted inGroups (Nat.lt_of_le_of_lt pre hin), decide_eq_true_iff]
    omega

theorem InodeVolume.Readable.inodeFor_eq (hin : bit < volume.superblock.sInodesPerGroup) :
    volume.inodeFor group bit = group * volume.superblock.sInodesPerGroup + bit + 1 ∧ volume.inodeFor group bit ≤ volume.sInodesCount := by
  have whole : (group + 1) * volume.superblock.sInodesPerGroup ≤ volume.numBlockGroups * volume.superblock.sInodesPerGroup :=
    Nat.mul_le_mul_right _ inGroups
  have cnt := readable.counted
  have lt := readable.small
  rw [Nat.succ_mul] at whole
  have number : volume.inodeFor group bit = group * volume.superblock.sInodesPerGroup + bit + 1 := Nat.mod_eq_of_lt (by omega)
  exact ⟨number, by omega⟩

theorem InodeVolume.Readable.mem_inodeBits : bit ∈ volume.inodeBits group ↔ bit < volume.superblock.sInodesPerGroup := by
  unfold inodeBits
  rw [mem_takeWhile_range]
  · exact ⟨And.left, fun hin => ⟨hin, decide_eq_true (readable.inodeFor_eq inGroups hin).2⟩⟩
  · intro i j pre hin _
    exact decide_eq_true (readable.inodeFor_eq inGroups (Nat.lt_of_le_of_lt pre hin)).2

end

end

/-! ## The check -/

namespace InodeVolume

variable (volume : InodeVolume)

/-- The bit that stands for an inode in the inode bitmap of a group. -/
def inodeBit (group bit : Nat) : Bool := bitmapTest (volume.bitmaps (volume.inodeGroups group).bgInodeBitmap) bit

/-- The bits of the inode bitmaps are those of the inodes with a mode. -/
def InodesExact : Prop := ∀ group < volume.numBlockGroups, ∀ bit < volume.superblock.sInodesPerGroup,
  (volume.inodeBit group bit = true ↔ volume.iMode (group * volume.superblock.sInodesPerGroup + bit + 1) ≠ 0)

end InodeVolume

section

variable {volume : InodeVolume} {group : Nat}

section

variable (readable : volume.Readable)
include readable

end

end

/-! ## What a repair changes -/

/-- The bitmaps and the counters may change, and inodes without a mode. -/
def Alike (volume after : InodeVolume) : Prop :=
  ∃ (bitmaps : Nat → Nat → BitVec 8) (freeBlocks freeInodes : BitVec 32) (groupBlocks groupInodes : Nat → BitVec 16) (inodes : Nat → Inode),
    (∀ inodeNum, volume.iMode inodeNum ≠ 0 → inodes inodeNum = volume.inodes inodeNum) ∧ after = { volume with
      bitmaps := bitmaps
      superblock := { volume.superblock with sFreeBlocksCount := freeBlocks }
      bgdt := fun group => { volume.bgdt group with bgFreeBlocksCount := groupBlocks group }
      inodes := inodes
      sFreeInodesCount := freeInodes
      inodeGroups := fun group => { volume.inodeGroups group with bgFreeInodesCount := groupInodes group } }

section

variable {volume middle after : InodeVolume}

theorem Alike.refl (volume : InodeVolume) : Alike volume volume := ⟨_, _, _, _, _, _, fun _ _ => rfl, rfl⟩

theorem Alike.setBitmap (alike : Alike volume middle) (bitmapBlock : Nat) (data : Nat → BitVec 8) : Alike volume (middle.setBitmap bitmapBlock data) := by
  obtain ⟨_, freeBlocks, freeInodes, groupBlocks, groupInodes, inodes, eq, rfl⟩ := alike
  exact ⟨_, freeBlocks, freeInodes, groupBlocks, groupInodes, inodes, eq, rfl⟩

theorem update_field {α β : Type} {make : Nat → α → β} (counts : Nat → α) (group : Nat) (count : α) :
    update (fun other => make other (counts other)) group (make group count) =
      fun other => make other (update counts group count other) := by
  funext other
  by_cases eq : other = group
  · rw [eq, update_self, update_self]
  · rw [update_of_ne eq, update_of_ne eq]

section

variable (alike : Alike volume middle) (group : Nat) (groupCount : BitVec 16) (count : BitVec 32)
include alike group groupCount count

theorem Alike.countBlock : Alike volume { middle with
    bgdt := update middle.bgdt group { middle.bgdt group with bgFreeBlocksCount := groupCount }
    superblock := { middle.superblock with sFreeBlocksCount := count } } := by
  obtain ⟨bitmaps, _, freeInodes, groupBlocks, groupInodes, inodes, eq, rfl⟩ := alike
  have updated := @update_field _ _ (fun other count => { volume.bgdt other with bgFreeBlocksCount := count }) groupBlocks group groupCount
  refine ⟨bitmaps, count, freeInodes, update groupBlocks group groupCount, groupInodes, inodes, eq, ?_⟩
  rw [← updated]

theorem Alike.countInode : Alike volume { middle with
    inodeGroups := update middle.inodeGroups group { middle.inodeGroups group with bgFreeInodesCount := groupCount }
    sFreeInodesCount := count } := by
  obtain ⟨bitmaps, freeBlocks, _, groupBlocks, groupInodes, inodes, eq, rfl⟩ := alike
  have updated := @update_field _ _ (fun other count => { volume.inodeGroups other with bgFreeInodesCount := count }) groupInodes group groupCount
  refine ⟨bitmaps, freeBlocks, count, groupBlocks, update groupInodes group groupCount, inodes, eq, ?_⟩
  rw [← updated]

end

theorem Alike.clearInode (alike : Alike volume middle) {inodeNum : Nat} (free : volume.iMode inodeNum = 0) : Alike volume (middle.clearInode inodeNum) := by
  obtain ⟨bitmaps, freeBlocks, freeInodes, groupBlocks, groupInodes, inodes, eq, rfl⟩ := alike
  refine ⟨bitmaps, freeBlocks, freeInodes, groupBlocks, groupInodes, update inodes inodeNum ⟨0, 0, fun _ => 0⟩, fun other used => ?_, ?_⟩
  · grind
  · unfold InodeVolume.clearInode
    rw [← free, Function.update_eq_self]

theorem Alike.readable (alike : Alike volume after) (readable : volume.Readable) : after.Readable := by
  obtain ⟨_, _, _, _, _, _, _, rfl⟩ := alike
  exact ⟨readable.sound, ⟨readable.mounted.size, readable.mounted.groups⟩,
    ⟨readable.formatted.first, readable.formatted.positive, readable.formatted.fits, readable.formatted.apart⟩,
    readable.blockBitmaps, readable.inodeBitmaps, readable.apart, readable.between, readable.counted, readable.small, readable.inodes⟩

end

section

variable {volume middle : InodeVolume} {group : Nat} {refBitmap : Nat → BitVec 8}

section

variable {bitmapBlock : Nat} (sound : middle.faults = []) (placed : bitmapBlock ≠ 0)
include sound placed

theorem readBitmap_succeeds : middle.readBitmap bitmapBlock = (some (middle.bitmaps bitmapBlock), middle) := by
  unfold InodeVolume.readBitmap
  rw [blockRequest_succeeds placed sound]
  rfl

theorem writeBitmap_succeeds (data : Nat → BitVec 8) :
    middle.writeBitmap bitmapBlock data = (true, middle.setBitmap bitmapBlock data) := by
  unfold InodeVolume.writeBitmap
  rw [blockRequest_succeeds placed sound]
  rfl

end

/-- Rounds over bits change these bits of a bitmap in memory, and of the bitmaps on the disk that one alone. -/
structure Rounds (volume : InodeVolume) (bitmapBlock : Nat) (change : Nat → Bool → Bool) (before after : Fixing) : Prop where
  alike : Alike volume after.volume
  others : ∀ blockNum, blockNum ≠ bitmapBlock → after.volume.bitmaps blockNum = before.volume.bitmaps blockNum
  bits : ∀ bit, bitmapTest after.data bit = change bit (bitmapTest before.data bit)
  idle : after.changed = false → before.changed = false ∧ after.data = before.data ∧ after.volume.bitmaps = before.volume.bitmaps

variable {bitmapBlock : Nat} {change : Nat → Bool → Bool} {fix : Fixing → Nat → Fixing} {bits : List Nat}

theorem rounds_foldl (nodup : bits.Nodup) (steps : ∀ bit ∈ bits, ∀ fixing, Alike volume fixing.volume →
      Rounds volume bitmapBlock (fun other old => if other = bit then change bit old else old) fixing (fix fixing bit))
    (fixing : Fixing) (alike : Alike volume fixing.volume) :
    Rounds volume bitmapBlock (fun bit old => if bit ∈ bits then change bit old else old) fixing (bits.foldl fix fixing) := by
  induction bits generalizing fixing with
  | nil => exact ⟨alike, fun _ _ => rfl, fun _ => rfl, fun idle => ⟨idle, rfl, rfl⟩⟩
  | cons bit bits ih =>
    obtain ⟨fresh, nodup⟩ := nodup_cons.mp nodup
    have first := steps bit (.head _) fixing alike
    have rest := ih nodup (fun other mem => steps other (.tail _ mem)) (fix fixing bit) first.alike
    rw [foldl_cons]
    refine ⟨rest.alike, fun blockNum away => (rest.others blockNum away).trans (first.others blockNum away), fun other => ?_, fun idle => ?_⟩
    · rw [rest.bits, first.bits]
      by_cases eq : other = bit
      · rw [eq, if_neg fresh, if_pos rfl, if_pos (.head _)]
      · simp only [eq, if_false, mem_cons, false_or]
    · obtain ⟨notYet, data, bitmaps⟩ := rest.idle idle
      obtain ⟨never, data', bitmaps'⟩ := first.idle notYet
      exact ⟨never, data.trans data', bitmaps.trans bitmaps'⟩

theorem repairGroup_rounds (readable : volume.Readable) (alike : Alike volume middle) (placed : bitmapBlock ≠ 0) (count : Nat)
    (rounds : Rounds volume bitmapBlock change ⟨middle.bitmaps bitmapBlock, middle, count, false⟩
      (bits.foldl fix ⟨middle.bitmaps bitmapBlock, middle, count, false⟩)) :
    Alike volume (repairGroup bitmapBlock bits fix (count, middle)).2 ∧
    (∀ blockNum, blockNum ≠ bitmapBlock → (repairGroup bitmapBlock bits fix (count, middle)).2.bitmaps blockNum = middle.bitmaps blockNum) ∧
    ∀ bit, bitmapTest ((repairGroup bitmapBlock bits fix (count, middle)).2.bitmaps bitmapBlock) bit =
      change bit (bitmapTest (middle.bitmaps bitmapBlock) bit) := by
  unfold repairGroup
  rw [readBitmap_succeeds (alike.readable readable).sound placed]
  dsimp only
  generalize bits.foldl fix ⟨middle.bitmaps bitmapBlock, middle, count, false⟩ = fixing at rounds ⊢
  split
  case isTrue =>
    rw [writeBitmap_succeeds (rounds.alike.readable readable).sound placed]
    refine ⟨rounds.alike.setBitmap _ _, fun blockNum away => ?_, fun bit => ?_⟩
    · exact (update_of_ne away _ _).trans (rounds.others blockNum away)
    · have written : (fixing.volume.setBitmap bitmapBlock fixing.data).bitmaps bitmapBlock = fixing.data := update_self ..
      rw [written, rounds.bits]
  case isFalse idle =>
    obtain ⟨_, data, bitmaps⟩ := rounds.idle (Bool.eq_false_iff.mpr idle)
    refine ⟨rounds.alike, rounds.others, fun bit => ?_⟩
    rw [← rounds.bits, data, bitmaps]

theorem foldl_groups {step : Nat × InodeVolume → Nat → Nat × InodeVolume} {place : Nat → Nat} {change : Nat → Nat → Bool → Bool} {groups : List Nat}
    (steps : ∀ group ∈ groups, ∀ count middle, Alike volume middle → Alike volume (step (count, middle) group).2 ∧
      (∀ blockNum, blockNum ≠ place group → (step (count, middle) group).2.bitmaps blockNum = middle.bitmaps blockNum) ∧
      ∀ bit, bitmapTest ((step (count, middle) group).2.bitmaps (place group)) bit = change group bit (bitmapTest (middle.bitmaps (place group)) bit))
    (nodup : groups.Nodup) (ne : ∀ group ∈ groups, ∀ other ∈ groups, place group = place other → group = other)
    (count : Nat) (alike : Alike volume middle) :
    Alike volume (groups.foldl step (count, middle)).2 ∧
    (∀ blockNum, (∀ group ∈ groups, blockNum ≠ place group) → (groups.foldl step (count, middle)).2.bitmaps blockNum = middle.bitmaps blockNum) ∧
    ∀ group ∈ groups, ∀ bit, bitmapTest ((groups.foldl step (count, middle)).2.bitmaps (place group)) bit =
      change group bit (bitmapTest (middle.bitmaps (place group)) bit) := by
  induction groups generalizing count middle with
  | nil => exact ⟨alike, fun _ _ => rfl, fun _ mem => nomatch mem⟩
  | cons head groups ih =>
    obtain ⟨fresh, nodup⟩ := nodup_cons.mp nodup
    obtain ⟨first, kept, fixed⟩ := steps head (.head _) count middle alike
    have dist : ∀ group ∈ groups, place group ≠ place head := fun group mem eq =>
      fresh (ne group (.tail _ mem) head (.head _) eq ▸ mem)
    rw [foldl_cons]
    generalize step (count, middle) head = next at first kept fixed ⊢
    obtain ⟨whole, others, rest⟩ := ih (fun group mem => steps group (.tail _ mem)) nodup
      (fun group mem other otherMember => ne group (.tail _ mem) other (.tail _ otherMember)) next.1 first
    refine ⟨whole, fun blockNum away => ?_, fun group mem bit => ?_⟩
    · grind
    · rcases mem_cons.mp mem with rfl | later
      · grind
      · rw [rest group later, kept _ (dist group later)]

theorem fixBlock_rounds (bitmapBlock bit : Nat) (fixing : Fixing) (alike : Alike volume fixing.volume) :
    Rounds volume bitmapBlock (fun other old => if other = bit then bitmapTest refBitmap (answerFor volume.toEXT2FileSystem group bit - 1) else old)
      fixing (fixBlock refBitmap group fixing bit) := by
  have number : answerFor fixing.volume.toEXT2FileSystem group bit = answerFor volume.toEXT2FileSystem group bit := by
    obtain ⟨_, _, _, _, _, _, _, eq⟩ := alike
    rw [eq]
    rfl
  unfold fixBlock
  rw [number]
  dsimp only
  split
  case isTrue unset =>
    obtain ⟨referenced, _⟩ := Bool.and_eq_true_iff.mp unset
    refine ⟨alike.countBlock group _ _, fun _ _ => rfl, fun other => (bitmapTest_set _ _ _).trans ?_, nofun⟩
    split
    case isTrue met => rw [decide_eq_true met, referenced]; rfl
    case isFalse away => rw [decide_eq_false away]; rfl
  case isFalse notUnset =>
    split
    case isTrue leaked =>
      obtain ⟨_, unreferenced⟩ := Bool.and_eq_true_iff.mp leaked
      rw [Bool.not_eq_true'] at unreferenced
      refine ⟨alike.countBlock group _ _, fun _ _ => rfl, fun other => (bitmapTest_clear _ _ _).trans ?_, nofun⟩
      split
      case isTrue met => rw [decide_eq_true met, unreferenced]; rfl
      case isFalse away => rw [decide_eq_false away]; rfl
    case isFalse notLeaked =>
      have agrees : bitmapTest fixing.data bit = bitmapTest refBitmap (answerFor volume.toEXT2FileSystem group bit - 1) := by
        cases isSet : bitmapTest fixing.data bit <;> simp [isSet] at notUnset notLeaked <;> simp [notUnset, notLeaked]
      refine ⟨alike, fun _ _ => rfl, fun other => ?_, fun idle => ⟨idle, rfl, rfl⟩⟩
      split
      case isTrue met => rw [met, agrees]
      case isFalse => rfl

theorem freeInode_alike (readable : volume.Readable) (alike : Alike volume middle) {bit : Nat} (inGroups : group < volume.numBlockGroups)
    (hin : bit < volume.superblock.sInodesPerGroup) (free : volume.iMode (volume.inodeFor group bit) = 0) :
    Alike volume (middle.freeInode (volume.inodeFor group bit)).2 ∧ ∀ blockNum, blockNum ≠ (volume.inodeGroups group).bgInodeBitmap →
      (middle.freeInode (volume.inodeFor group bit)).2.bitmaps blockNum = middle.bitmaps blockNum := by
  obtain ⟨number, last⟩ := readable.inodeFor_eq inGroups hin
  have sound := (alike.readable readable).sound
  have tables : middle.inodeTableBlock = volume.inodeTableBlock ∧ middle.superblock.sInodesPerGroup = volume.superblock.sInodesPerGroup ∧
      (middle.inodeGroups group).bgInodeBitmap = (volume.inodeGroups group).bgInodeBitmap := by
    obtain ⟨_, _, _, _, _, _, _, rfl⟩ := alike
    exact ⟨rfl, rfl, rfl⟩
  obtain ⟨targetBlock, table, nz⟩ := readable.inodes (volume.inodeFor group bit) (by omega) last
  have h : (volume.inodeFor group bit - 1) / volume.superblock.sInodesPerGroup = group := by
    rw [number, Nat.add_sub_cancel]
    exact (split_answer group hin).1
  have placed := readable.inodeBitmaps group inGroups
  unfold InodeVolume.freeInode
  rw [tables.1, table, tables.2.1, h]
  dsimp only
  rw [tables.2.2, readBitmap_succeeds sound placed]
  dsimp only
  rw [writeBitmap_succeeds sound placed]
  dsimp only
  rw [if_neg (by decide)]
  have cnt : Alike volume ((middle.setBitmap (volume.inodeGroups group).bgInodeBitmap (bitmapClear (middle.bitmaps
      (volume.inodeGroups group).bgInodeBitmap) ((volume.inodeFor group bit - 1) % volume.superblock.sInodesPerGroup))).countFreeInode group) :=
    (alike.setBitmap _ _).countInode group _ _
  have others : ∀ blockNum, blockNum ≠ (volume.inodeGroups group).bgInodeBitmap → ((middle.setBitmap (volume.inodeGroups group).bgInodeBitmap
      (bitmapClear (middle.bitmaps (volume.inodeGroups group).bgInodeBitmap) ((volume.inodeFor group bit - 1) %
        volume.superblock.sInodesPerGroup))).countFreeInode group).bitmaps blockNum = middle.bitmaps blockNum :=
    fun blockNum away => update_of_ne away _ _
  generalize (middle.setBitmap _ _).countFreeInode group = after at cnt others ⊢
  rw [blockRequest_succeeds nz (cnt.readable readable).sound]
  dsimp only
  rw [if_neg (by decide), blockRequest_succeeds nz (cnt.readable readable).sound]
  dsimp only
  rw [if_neg (by decide)]
  exact ⟨cnt.clearInode free, others⟩

theorem fixInode_rounds (readable : volume.Readable) (inGroups : group < volume.numBlockGroups) {bit : Nat}
    (hin : bit < volume.superblock.sInodesPerGroup) (fixing : Fixing) (alike : Alike volume fixing.volume) :
    Rounds volume (volume.inodeGroups group).bgInodeBitmap
      (fun other old => if other = bit then old || volume.iMode (volume.inodeFor group bit) != 0 else old) fixing (fixInode group fixing bit) := by
  obtain ⟨number, last⟩ := readable.inodeFor_eq inGroups hin
  have eq : fixing.volume.inodeFor group bit = volume.inodeFor group bit ∧ fixing.volume.iMode = volume.iMode ∧
      fixing.volume.sInodesCount = volume.sInodesCount := by
    obtain ⟨_, _, _, _, _, _, _, eq⟩ := alike
    rw [eq]
    exact ⟨rfl, rfl, rfl⟩
  unfold fixInode
  dsimp only
  rw [eq.1, (alike.readable readable).readInode_eq (by omega) (eq.2.2 ▸ last)]
  dsimp only
  rw [← eq.2.1]
  split
  case isTrue unmarked =>
    obtain ⟨present, _⟩ := Bool.and_eq_true_iff.mp unmarked
    refine ⟨alike.countInode group _ _, fun _ _ => rfl, fun other => (bitmapTest_set _ _ _).trans ?_, nofun⟩
    split
    case isTrue met => rw [decide_eq_true met, present, Bool.or_true]; rfl
    case isFalse away => rw [decide_eq_false away]; rfl
  case isFalse notUnmarked =>
    split
    case isTrue empty =>
      obtain ⟨isSet, absent⟩ := Bool.and_eq_true_iff.mp empty
      rw [Bool.not_eq_true', bne_eq_false_iff_eq, eq.2.1] at absent
      obtain ⟨freed, others⟩ := freeInode_alike readable alike inGroups hin absent
      refine ⟨freed, others, fun other => ?_, nofun⟩
      split
      case isTrue met => rw [met, isSet, Bool.true_or]
      case isFalse => rfl
    case isFalse notEmpty =>
      refine ⟨alike, fun _ _ => rfl, fun other => ?_, fun idle => ⟨idle, rfl, rfl⟩⟩
      split
      case isTrue met =>
        rw [met]
        cases isSet : bitmapTest fixing.data bit <;> simp [isSet] at notUnmarked notEmpty <;> simp [notUnmarked]
      case isFalse => rfl

end

/-! ## The repaired volume -/

/-- The block bitmaps say what the walk says, and no marked inode has lost its bit. -/
structure Repaired (volume after : InodeVolume) : Prop where
  alike : Alike volume after
  blocks : ∀ group < volume.numBlockGroups, ∀ bit ∈ volume.blockBits group,
    (after.marked group bit = true ↔ volume.DataBlock (group * volume.superblock.sBlocksPerGroup + bit + 1))
  inodes : ∀ group < volume.numBlockGroups, ∀ bit < volume.superblock.sInodesPerGroup,
    (after.inodeBit group bit = true ↔
      volume.inodeBit group bit = true ∨ volume.iMode (group * volume.superblock.sInodesPerGroup + bit + 1) ≠ 0)

section

variable {volume after : InodeVolume} {group : Nat}

section

variable (readable : volume.Readable)
include readable

theorem foldl_repairBlocks (refBitmap : Nat → BitVec 8) :
    Alike volume ((range volume.numBlockGroups).foldl (repairBlocks refBitmap) (0, volume)).2 ∧
    (∀ blockNum, (∀ group ∈ range volume.numBlockGroups, blockNum ≠ (volume.bgdt group).bgBlockBitmap) →
      ((range volume.numBlockGroups).foldl (repairBlocks refBitmap) (0, volume)).2.bitmaps blockNum = volume.bitmaps blockNum) ∧
    ∀ group ∈ range volume.numBlockGroups, ∀ bit,
      bitmapTest (((range volume.numBlockGroups).foldl (repairBlocks refBitmap) (0, volume)).2.bitmaps (volume.bgdt group).bgBlockBitmap) bit =
        if bit ∈ volume.blockBits group then bitmapTest refBitmap (answerFor volume.toEXT2FileSystem group bit - 1)
        else bitmapTest (volume.bitmaps (volume.bgdt group).bgBlockBitmap) bit := by
  refine @foldl_groups volume volume (repairBlocks refBitmap) (fun group => (volume.bgdt group).bgBlockBitmap)
    (fun group bit old => if bit ∈ volume.blockBits group then bitmapTest refBitmap (answerFor volume.toEXT2FileSystem group bit - 1) else old)
    (range volume.numBlockGroups) (fun group mem count middle alike => ?_) nodup_range
    (fun group mem other otherMember => readable.formatted.apart group (mem_range.mp mem) other (mem_range.mp otherMember)) 0 (.refl volume)
  have eq : (middle.bgdt group).bgBlockBitmap = (volume.bgdt group).bgBlockBitmap ∧ middle.blockBits group = volume.blockBits group := by
    obtain ⟨_, _, _, _, _, _, _, rfl⟩ := alike
    exact ⟨rfl, rfl⟩
  unfold repairBlocks
  rw [eq.1, eq.2]
  have nodup : (volume.blockBits group).Nodup := nodup_range.sublist (takeWhile_sublist _)
  have rounds := @rounds_foldl volume (volume.bgdt group).bgBlockBitmap
    (fun bit _ => bitmapTest refBitmap (answerFor volume.toEXT2FileSystem group bit - 1)) (fixBlock refBitmap group) (volume.blockBits group) nodup
    (fun bit _ fixing alike => fixBlock_rounds _ bit fixing alike) ⟨middle.bitmaps (volume.bgdt group).bgBlockBitmap, middle, count, false⟩ alike
  have fixed := repairGroup_rounds readable alike (readable.blockBitmaps group (mem_range.mp mem)) count rounds
  exact fixed

theorem foldl_repairInodes (alike : Alike volume after) (count : Nat) :
    Alike volume ((range volume.numBlockGroups).foldl repairInodes (count, after)).2 ∧
    (∀ blockNum, (∀ group ∈ range volume.numBlockGroups, blockNum ≠ (volume.inodeGroups group).bgInodeBitmap) →
      ((range volume.numBlockGroups).foldl repairInodes (count, after)).2.bitmaps blockNum = after.bitmaps blockNum) ∧
    ∀ group ∈ range volume.numBlockGroups, ∀ bit,
      bitmapTest (((range volume.numBlockGroups).foldl repairInodes (count, after)).2.bitmaps (volume.inodeGroups group).bgInodeBitmap) bit =
        if bit ∈ volume.inodeBits group then
          bitmapTest (after.bitmaps (volume.inodeGroups group).bgInodeBitmap) bit || volume.iMode (volume.inodeFor group bit) != 0
        else bitmapTest (after.bitmaps (volume.inodeGroups group).bgInodeBitmap) bit := by
  refine @foldl_groups volume after repairInodes (fun group => (volume.inodeGroups group).bgInodeBitmap)
    (fun group bit old => if bit ∈ volume.inodeBits group then old || volume.iMode (volume.inodeFor group bit) != 0 else old)
    (range volume.numBlockGroups) (fun group mem count middle alike => ?_) nodup_range
    (fun group mem other otherMember => readable.apart group (mem_range.mp mem) other (mem_range.mp otherMember)) count alike
  have inGroups := mem_range.mp mem
  have eq : (middle.inodeGroups group).bgInodeBitmap = (volume.inodeGroups group).bgInodeBitmap ∧ middle.inodeBits group = volume.inodeBits group := by
    obtain ⟨_, _, _, _, _, _, _, rfl⟩ := alike
    exact ⟨rfl, rfl⟩
  unfold repairInodes
  rw [eq.1, eq.2]
  have nodup : (volume.inodeBits group).Nodup := nodup_range.sublist (takeWhile_sublist _)
  have rounds := @rounds_foldl volume (volume.inodeGroups group).bgInodeBitmap (fun bit old => old || volume.iMode (volume.inodeFor group bit) != 0)
    (fixInode group) (volume.inodeBits group) nodup
    (fun bit hin fixing alike => fixInode_rounds readable inGroups ((readable.mem_inodeBits inGroups).mp hin) fixing alike)
    ⟨middle.bitmaps (volume.inodeGroups group).bgInodeBitmap, middle, count, false⟩ alike
  have fixed := repairGroup_rounds readable alike (readable.inodeBitmaps group inGroups) count rounds
  exact fixed

theorem InodeVolume.Readable.repair_eq : volume.debugRepairConsistency =
    let blocks := (range volume.numBlockGroups).foldl (repairBlocks (volume.references volume.toEXT2FileSystem).1) (0, volume)
    let inodes := (range volume.numBlockGroups).foldl repairInodes blocks
    (inodes.1 % 2 ^ 32, inodes.2) := by
  unfold debugRepairConsistency
  rw [request_succeeds readable.sound]
  dsimp only
  rw [if_neg (by decide), readable.references_mark.1]

theorem InodeVolume.Readable.repaired : Repaired volume volume.debugRepairConsistency.2 := by
  rw [readable.repair_eq]
  dsimp only
  obtain ⟨alike, kept, blocks⟩ := foldl_repairBlocks readable (volume.references volume.toEXT2FileSystem).1
  generalize (range volume.numBlockGroups).foldl (repairBlocks (volume.references volume.toEXT2FileSystem).1) (0, volume) = first at alike kept blocks ⊢
  obtain ⟨whole, others, inodes⟩ := foldl_repairInodes readable alike first.1
  generalize (range volume.numBlockGroups).foldl repairInodes (first.1, first.2) = last at whole others inodes ⊢
  refine ⟨whole, fun group inGroups bit mem => ?_, fun group inGroups bit hin => ?_⟩
  · have eq : (last.2.bgdt group).bgBlockBitmap = (volume.bgdt group).bgBlockBitmap := by
      obtain ⟨_, _, _, _, _, _, _, eq⟩ := whole
      rw [eq]
    obtain ⟨lt, hin⟩ := (readable.mem_blockBits inGroups).mp mem
    have marks := readable.references_mark.2 (answerFor volume.toEXT2FileSystem group bit - 1)
    unfold EXT2FileSystem.marked
    rw [eq, others _ fun other otherMember => (readable.between other (mem_range.mp otherMember) group inGroups).symm,
      blocks group (mem_range.mpr inGroups), if_pos mem, marks, answerFor_eq readable.mounted inGroups lt, Nat.add_sub_cancel]
    exact and_iff_right hin
  · have eq : (last.2.inodeGroups group).bgInodeBitmap = (volume.inodeGroups group).bgInodeBitmap := by
      obtain ⟨_, _, _, _, _, _, _, eq⟩ := whole
      rw [eq]
    unfold InodeVolume.inodeBit
    rw [eq, inodes group (mem_range.mpr inGroups), if_pos ((readable.mem_inodeBits inGroups).mpr hin), (readable.inodeFor_eq inGroups hin).1,
      kept _ fun other otherMember => readable.between group inGroups other (mem_range.mp otherMember), Bool.or_eq_true, bne_iff_ne]

end

end

end RosKernel.Ext2
