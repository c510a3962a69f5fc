import Mathlib.Data.List.Nodup
import Mathlib.Data.List.Perm.Subperm
import RosKernel.Ext2.BlockMapping

/-! The bits that calls of `AllocateBlock` have taken, and what giving one back does.

A volume lends bits that were clear. Its bitmaps and counters are those from before with the bits on
loan set and subtracted, in whatever order they were taken.
-/

set_option autoImplicit false

namespace RosKernel.Ext2

open EXT2FileSystem List

/-- The blocks among the answers of `AllocateBlock`. -/
def got (answers : List Nat) : List Nat := answers.filter (· ≠ 0)

theorem got_append (first second : List Nat) : got (first ++ second) = got first ++ got second := filter_append ..

theorem got_of_ne {new : Nat} (nz : new ≠ 0) : got [new] = [new] := filter_eq_self.mpr (by simpa using nz)

/-- The bitmaps and the counters with these bits on loan. -/
structure Lent (fs : EXT2FileSystem) (bits : List (Nat × Nat)) (after : EXT2FileSystem) : Prop where
  mounted : after.Mounted
  formatted : after.Formatted
  groups : after.numBlockGroups = fs.numBlockGroups
  perGroup : after.superblock.sBlocksPerGroup = fs.superblock.sBlocksPerGroup
  placed : ∀ group, (after.bgdt group).bgBlockBitmap = (fs.bgdt group).bgBlockBitmap
  nodup : bits.Nodup
  clear : ∀ place ∈ bits, place.1 < fs.numBlockGroups ∧ place.2 < fs.superblock.sBlocksPerGroup ∧ fs.marked place.1 place.2 = false
  marks : ∀ group < fs.numBlockGroups, ∀ bit, after.marked group bit = (fs.marked group bit || decide ((group, bit) ∈ bits))
  groupCounts : ∀ group, (after.bgdt group).bgFreeBlocksCount =
    (fs.bgdt group).bgFreeBlocksCount - BitVec.ofNat 16 (bits.countP fun place => place.1 = group)
  count : after.superblock.sFreeBlocksCount = fs.superblock.sFreeBlocksCount - BitVec.ofNat 32 bits.length

section

variable {fs after : EXT2FileSystem} {bits : List (Nat × Nat)} {group bit : Nat}

theorem Lent.refl (mounted : fs.Mounted) (formatted : fs.Formatted) : Lent fs [] fs where
  mounted := mounted
  formatted := formatted
  groups := rfl
  perGroup := rfl
  placed _ := rfl
  nodup := nodup_nil
  clear _ mem := nomatch mem
  marks group _ bit := by rw [decide_eq_false not_mem_nil, Bool.or_false]
  groupCounts group := (BitVec.sub_zero _).symm
  count := (BitVec.sub_zero _).symm

theorem groupCount_takeBit (fs : EXT2FileSystem) (group bit other : Nat) : ((fs.takeBit group bit).bgdt other).bgFreeBlocksCount =
    (fs.bgdt other).bgFreeBlocksCount - if group = other then 1 else 0 := by
  change (Function.update fs.bgdt group _ other).bgFreeBlocksCount = _
  by_cases eq : other = group
  · rw [eq, Function.update_self, if_pos rfl]
  · grind

theorem ofNat_sub_one {width : Nat} (count : BitVec width) (ht : Nat) :
    count - BitVec.ofNat width ht - 1 = count - BitVec.ofNat width (ht + 1) := by
  rw [BitVec.ofNat_add]
  exact BitVec.sub_sub ..

theorem Lent.take (lent : Lent fs bits after) (inGroups : group < fs.numBlockGroups) (hin : bit < fs.superblock.sBlocksPerGroup)
    (clear : after.marked group bit = false) (later : List Bool) : Lent fs (bits ++ [(group, bit)]) (tookBit after later group bit) := by
  have inAfter : group < after.numBlockGroups := lent.groups ▸ inGroups
  have old := lent.marks group inGroups bit
  rw [clear] at old
  obtain ⟨unmarked, notLent⟩ := Bool.or_eq_false_iff.mp old.symm
  have notMember : (group, bit) ∉ bits := of_decide_eq_false notLent
  constructor
  case mounted => exact ⟨lent.mounted.size, lent.mounted.groups⟩
  case formatted =>
    have formatted : (after.takeBit group bit).Formatted := formatted_takeBit lent.formatted
    exact ⟨formatted.first, formatted.positive, formatted.fits, formatted.apart⟩
  case groups => exact lent.groups
  case perGroup => exact lent.perGroup
  case placed => exact fun other => (block_takeBit (after.withFaults later) group bit other).trans (lent.placed other)
  case nodup => exact nodup_append.mpr ⟨lent.nodup, nodup_singleton _, fun place mem other single eq =>
    notMember (mem_singleton.mp single ▸ eq ▸ mem)⟩
  case clear =>
    intro place mem
    rcases mem_append.mp mem with front | last
    · exact lent.clear place front
    · grind
  case marks =>
    intro other otherIn pos
    change (after.takeBit group bit).marked other pos = _
    rw [marked_takeBit lent.formatted inAfter (lent.groups ▸ otherIn), lent.marks other otherIn]
    simp only [mem_append, mem_singleton, Bool.decide_or]
    cases fs.marked other pos <;> simp [Bool.or_comm]
  case groupCounts =>
    intro other
    change ((after.takeBit group bit).bgdt other).bgFreeBlocksCount = _
    rw [groupCount_takeBit, lent.groupCounts other, countP_append, countP_singleton]
    by_cases eq : group = other
    · rw [if_pos eq, if_pos (by simpa using eq)]
      exact ofNat_sub_one _ _
    · grind
  case count =>
    change after.superblock.sFreeBlocksCount - 1 = _
    rw [lent.count, length_append, length_singleton]
    exact ofNat_sub_one _ _

theorem Lent.answerFor_injective (mounted : fs.Mounted) {left right : Nat × Nat} (leftIn : left.1 < fs.numBlockGroups ∧ left.2 < fs.superblock.sBlocksPerGroup)
    (rightIn : right.1 < fs.numBlockGroups ∧ right.2 < fs.superblock.sBlocksPerGroup)
    (eq : answerFor fs left.1 left.2 = answerFor fs right.1 right.2) : left = right := by
  rw [answerFor_eq mounted leftIn.1 leftIn.2, answerFor_eq mounted rightIn.1 rightIn.2] at eq
  have first := split_answer left.1 leftIn.2
  have second := split_answer right.1 rightIn.2
  rw [show left.1 * fs.superblock.sBlocksPerGroup + left.2 = right.1 * fs.superblock.sBlocksPerGroup + right.2 by omega] at first
  exact Prod.ext (first.1.symm.trans second.1) (first.2.symm.trans second.2)

end

/-- The clear bits of a group. -/
def EXT2FileSystem.clearBits (fs : EXT2FileSystem) (group : Nat) : List Nat :=
  (List.range fs.superblock.sBlocksPerGroup).filter fun bit => !fs.marked group bit

def EXT2FileSystem.freeBlocks (fs : EXT2FileSystem) : Nat := ((List.range fs.numBlockGroups).map fun group => (fs.clearBits group).length).sum

/-- A volume whose counters count the clear bits of its bitmaps. -/
structure EXT2FileSystem.Counted (fs : EXT2FileSystem) : Prop where
  mounted : fs.Mounted
  formatted : fs.Formatted
  small : fs.blockSize ≤ 65536
  placed : ∀ group < fs.numBlockGroups, (fs.bgdt group).bgBlockBitmap ≠ 0
  groups : ∀ group < fs.numBlockGroups, (fs.bgdt group).bgFreeBlocksCount.toNat = (fs.clearBits group).length
  total : fs.superblock.sFreeBlocksCount.toNat = fs.freeBlocks

section

variable {fs after : EXT2FileSystem} {bits : List (Nat × Nat)} {group bit : Nat}

theorem mem_clearBits : bit ∈ fs.clearBits group ↔ bit < fs.superblock.sBlocksPerGroup ∧ fs.marked group bit = false := by
  unfold clearBits
  rw [mem_filter, mem_range, Bool.not_eq_true']

theorem Lent.bits_of_group (lent : Lent fs bits after) (group : Nat) :
    ((bits.filter fun place => place.1 = group).map Prod.snd).Nodup ∧
    ((bits.filter fun place => place.1 = group).map Prod.snd) ⊆ fs.clearBits group ∧
    ((bits.filter fun place => place.1 = group).map Prod.snd).length = bits.countP fun place => place.1 = group := by
  refine ⟨?_, fun bit mem => ?_, by rw [length_map, countP_eq_length_filter]⟩
  · refine (nodup_map_iff_inj_on (lent.nodup.filter _)).mpr fun left leftIn right rightIn eq => ?_
    have first := of_decide_eq_true (mem_filter.mp leftIn).2
    have second := of_decide_eq_true (mem_filter.mp rightIn).2
    exact Prod.ext (first.trans second.symm) eq
  · obtain ⟨place, hin, rfl⟩ := mem_map.mp mem
    obtain ⟨there, h⟩ := mem_filter.mp hin
    obtain ⟨_, lt, clear⟩ := lent.clear place there
    rw [← of_decide_eq_true h]
    exact mem_clearBits.mpr ⟨lt, clear⟩

theorem Lent.offers (lent : Lent fs bits after) (counted : fs.Counted) (inGroups : group < fs.numBlockGroups)
    (clear : bit ∈ fs.clearBits group) (there : (group, bit) ∉ bits) : after.Offers group bit := by
  obtain ⟨inside, unmarked⟩ := mem_clearBits.mp clear
  obtain ⟨nodup, among, length⟩ := lent.bits_of_group group
  have fits := counted.formatted.fits
  have small := counted.small
  constructor
  case counted =>
    have fewer : (bits.countP fun place => place.1 = group) < (fs.clearBits group).length := by
      rw [← length]
      have apart : bit ∉ (bits.filter fun place => place.1 = group).map Prod.snd := by
        intro mem
        obtain ⟨place, known, rfl⟩ := mem_map.mp mem
        obtain ⟨lentOut, here⟩ := mem_filter.mp known
        exact there (of_decide_eq_true here ▸ lentOut)
      exact (subperm_of_subset (nodup_cons.mpr ⟨apart, nodup⟩) (cons_subset.mpr ⟨clear, among⟩)).length_le
    have total := counted.groups group inGroups
    rw [lent.groupCounts group]
    intro zero
    have value := congrArg BitVec.toNat zero
    rw [BitVec.toNat_sub, BitVec.toNat_ofNat, Nat.mod_eq_of_lt (show (bits.countP fun place => place.1 = group) < 2 ^ 16 by omega)] at value
    change _ = 0 at value
    omega
  case placed => exact (lent.placed group).trans_ne (counted.placed group inGroups)
  case inside => exact lent.perGroup ▸ inside
  case scanned =>
    unfold bitmapBytes
    rw [lent.perGroup]
    omega
  case clear => rw [lent.marks group inGroups, unmarked, decide_eq_false there]; rfl

/-- All free blocks are on loan. -/
def Exhausts (fs : EXT2FileSystem) (bits : List (Nat × Nat)) : Prop := ∀ group < fs.numBlockGroups, ∀ bit ∈ fs.clearBits group, (group, bit) ∈ bits

/-- Without failing requests a call gives a bit that is neither set nor on loan, as long as there is one. -/
theorem Lent.allocate (lent : Lent fs bits after) (sound : after.faults = []) :
    (after.allocateBlock.1 = 0 ∧ (fs.Counted → Exhausts fs bits)) ∨
    ∃ group < fs.numBlockGroups, ∃ bit < fs.superblock.sBlocksPerGroup, after.marked group bit = false ∧
      after.allocateBlock = (answerFor fs group bit, tookBit after [] group bit) ∧ answerFor fs group bit ≠ 0 := by
  have eq : ∀ group bit, answerFor after group bit = answerFor fs group bit := by
    intro group bit
    unfold answerFor
    rw [lent.perGroup]
  have whole : after.withFaults [] = after := by
    unfold withFaults
    rw [← sound]
  by_cases full : ∀ group < after.numBlockGroups, ∀ bit, ¬after.Offers group bit
  · left
    constructor
    · rcases allocateBlock_cases after [] with none | ⟨group, inGroups, bit, later, offers, _⟩
      · rwa [whole] at none
      · exact absurd offers (full group inGroups bit)
    · intro cnt group inGroups bit clear
      by_contra there
      exact full group (lent.groups ▸ inGroups) bit (lent.offers cnt inGroups clear there)
  · simp only [not_forall, not_not] at full
    obtain ⟨group, inGroups, bit, offers⟩ := full
    obtain ⟨other, otherIn, first, offered, ht⟩ := allocateBlock_takes inGroups offers
    rw [whole, eq] at ht
    refine .inr ⟨other, lent.groups ▸ otherIn, first, lent.perGroup ▸ offered.inside, offered.clear, ht, ?_⟩
    rw [← eq, answerFor_eq lent.mounted otherIn offered.inside]
    exact Nat.succ_ne_zero _

end

/-- Without failing requests, the answers were taken on loan. -/
structure Lends (fs after : EXT2FileSystem) (answers : List Nat) : Prop extends Ran fs after answers where
  inodes : after.inodes = fs.inodes
  lent : ∀ base bits, Lent base bits fs → ∃ more, Lent base (bits ++ more) after ∧
    (got answers = more.map fun place => answerFor base place.1 place.2) ∧ (0 ∈ answers → base.Counted → Exhausts base (bits ++ more))

section

variable {fs middle after : EXT2FileSystem} {first second answers : List Nat}

theorem Lends.refl (sound : fs.faults = []) : Lends fs fs [] :=
  ⟨.refl sound, rfl, fun _ bits lent => ⟨[], by rwa [append_nil], rfl, fun none => nomatch none⟩⟩

theorem Lends.trans (left : Lends fs middle first) (right : Lends middle after second) : Lends fs after (first ++ second) := by
  refine ⟨left.toRan.trans right.toRan, right.inodes.trans left.inodes, fun base bits lent => ?_⟩
  obtain ⟨more, there, gave, empty⟩ := left.lent base bits lent
  obtain ⟨rest, last, gaveRest, emptyRest⟩ := right.lent base (bits ++ more) there
  rw [append_assoc] at last emptyRest
  refine ⟨more ++ rest, last, by rw [got_append, gave, gaveRest, map_append], fun refused cnt => ?_⟩
  rcases mem_append.mp refused with early | late
  · exact fun group inGroups bit clear => mem_append.mpr ((mem_append.mp (empty early cnt group inGroups bit clear)).imp_right
      (mem_append_left rest))
  · exact emptyRest late cnt

theorem Lent.congr {base : EXT2FileSystem} {bits : List (Nat × Nat)} (lent : Lent base bits fs) (blockSize : after.blockSize = fs.blockSize)
    (groups : after.numBlockGroups = fs.numBlockGroups) (superblock : after.superblock = fs.superblock) (bgdt : after.bgdt = fs.bgdt)
    (bitmaps : after.bitmaps = fs.bitmaps) : Lent base bits after := by
  obtain ⟨_, size, numGroups, table, maps, words, inodes, faults, ht, freed⟩ := after
  subst blockSize groups superblock bgdt bitmaps
  exact ⟨⟨lent.mounted.size, lent.mounted.groups⟩, ⟨lent.formatted.first, lent.formatted.positive, lent.formatted.fits, lent.formatted.apart⟩,
    lent.groups, lent.perGroup, lent.placed, lent.nodup, lent.clear, lent.marks, lent.groupCounts, lent.count⟩

theorem Lends.setWords (lends : Lends fs after answers) (blockNum : Nat) (data : Nat → Nat) : Lends fs (after.setWords blockNum data) answers := by
  refine ⟨⟨lends.sound, lends.size, lends.taken⟩, lends.inodes, fun base bits lent => ?_⟩
  obtain ⟨more, there, gave⟩ := lends.lent base bits lent
  exact ⟨more, there.congr rfl rfl rfl rfl rfl, gave⟩

theorem allocateBlock_inodes (fs : EXT2FileSystem) : fs.allocateBlock.2.inodes = fs.inodes := by
  obtain ⟨faults, _, none | ⟨group, _, bit, _, ht⟩⟩ := allocateFrom_cases (List.range fs.numBlockGroups) fs
  · unfold allocateBlock
    rw [none]
    rfl
  · unfold allocateBlock
    rw [ht]
    rfl

theorem allocateBlock_none (mounted : fs.Mounted) (none : fs.allocateBlock.1 = 0) : ∃ later, fs.allocateBlock.2 = (fs.withFaults later).recordTake 0 := by
  obtain ⟨faults, _, empty | ⟨group, mem, bit, offers, ht⟩⟩ := allocateFrom_cases (List.range fs.numBlockGroups) fs
  · unfold allocateBlock
    rw [empty]
    exact ⟨faults, rfl⟩
  · have answer : fs.allocateBlock.1 = answerFor fs group bit := by
      unfold allocateBlock
      rw [ht]
    rw [answer, answerFor_eq mounted (mem_range.mp mem) offers.inside] at none
    exact nomatch none

theorem allocateBlock_lends (sound : fs.faults = []) : Lends fs fs.allocateBlock.2 [fs.allocateBlock.1] := by
  refine ⟨allocateBlock_ran sound, allocateBlock_inodes fs, fun base bits lent => ?_⟩
  rcases lent.allocate sound with ⟨none, exhausts⟩ | ⟨group, inGroups, bit, hin, clear, answer, nz⟩
  · obtain ⟨later, after⟩ := allocateBlock_none lent.mounted none
    rw [none, after]
    refine ⟨[], ?_, rfl, ?_⟩
    · rw [append_nil]
      exact lent.congr rfl rfl rfl rfl rfl
    · rw [append_nil]
      exact fun _ => exhausts
  · rw [answer, got_of_ne nz]
    exact ⟨[(group, bit)], lent.take inGroups hin clear [], rfl, fun refused => absurd (mem_singleton.mp refused).symm nz⟩

theorem allocateBlock_lent {entries : Nat} (sound : fs.faults = []) (size : fs.entriesPerBlock = entries) :
    ∃ new middle, fs.allocateBlock = (new, middle) ∧ Lends fs middle [new] ∧ middle.words = fs.words ∧ middle.entriesPerBlock = entries :=
  have ran := allocateBlock_lends sound
  ⟨_, _, rfl, ran, (allocateBlock_frame fs).2.1, size ▸ congrArg (· / 4) ran.size⟩

/-- No free block is a block of the inode. -/
def FreeApart (fs : EXT2FileSystem) (inode : Inode) : Prop :=
  ∀ group < fs.numBlockGroups, ∀ bit < fs.superblock.sBlocksPerGroup, fs.marked group bit = false →
    ∀ path, Within fs.entriesPerBlock path → fs.reach inode path ≠ some (some (answerFor fs group bit))

theorem Lends.fresh (lends : Lends fs after answers) (mounted : fs.Mounted) (formatted : fs.Formatted) {inode : Inode}
    (apart : FreeApart fs inode) : Fresh fs inode (got answers) := by
  obtain ⟨bits, lent, gave, _⟩ := lends.lent fs [] (.refl mounted formatted)
  rw [nil_append] at lent
  have range : ∀ place ∈ bits, place.1 < fs.numBlockGroups ∧ place.2 < fs.superblock.sBlocksPerGroup :=
    fun place mem => ⟨(lent.clear place mem).1, (lent.clear place mem).2.1⟩
  rw [gave]
  constructor
  case distinct =>
    exact (nodup_map_iff_inj_on lent.nodup).mpr fun left leftIn right rightIn same =>
      Lent.answerFor_injective mounted (range left leftIn) (range right rightIn) same
  case nonzero =>
    intro blockNum mem
    obtain ⟨place, inside, rfl⟩ := mem_map.mp mem
    rw [answerFor_eq mounted (range place inside).1 (range place inside).2]
    exact Nat.succ_ne_zero _
  case away =>
    intro blockNum mem path within
    obtain ⟨place, inside, rfl⟩ := mem_map.mp mem
    obtain ⟨inGroups, small, clear⟩ := lent.clear place inside
    exact apart place.1 inGroups place.2 small clear path within

end

end RosKernel.Ext2
