import RosKernel.Ext2.Volume

/-! The bit that stands for a block.

EXT2 numbers the bits of its bitmaps from `s_first_data_block`, which is one for blocks of 1 KiB and
zero for larger ones. `AllocateBlock` and `FreeBlock` number them from one for every block size.
-/

set_option autoImplicit false

namespace RosKernel.Ext2

open Memory (bitmapSet bitmapClear bitmapTest bitmapTest_eq bitmapTest_set bitmapTest_clear)
open Function (update update_of_ne update_self)

namespace EXT2FileSystem

def marked (fs : EXT2FileSystem) (group bit : Nat) : Bool := bitmapTest (fs.bitmaps (fs.bgdt group).bgBlockBitmap) bit

/-- The group and the bit that the format assigns to a block. -/
def place (fs : EXT2FileSystem) (blockNum : Nat) : Nat × Nat :=
  ((blockNum - fs.superblock.sFirstDataBlock) / fs.superblock.sBlocksPerGroup,
    (blockNum - fs.superblock.sFirstDataBlock) % fs.superblock.sBlocksPerGroup)

/-- The block is in use by its bit in the format. -/
def InUse (fs : EXT2FileSystem) (blockNum : Nat) : Prop :=
  (fs.place blockNum).1 < fs.numBlockGroups ∧ fs.marked (fs.place blockNum).1 (fs.place blockNum).2 = true

/-- What `Mount` has computed from the superblock. -/
structure Mounted (fs : EXT2FileSystem) : Prop where
  size : fs.blockSize = fs.superblock.blockSize
  groups : fs.numBlockGroups = fs.superblock.numBlockGroups

/-- What the format asks of a volume: its groups are not empty, fit a bitmap block each, and do not
share one. -/
structure Formatted (fs : EXT2FileSystem) : Prop where
  first : fs.superblock.sFirstDataBlock = if fs.blockSize = 1024 then 1 else 0
  positive : 0 < fs.superblock.sBlocksPerGroup
  fits : fs.superblock.sBlocksPerGroup ≤ 8 * fs.blockSize
  apart : ∀ group < fs.numBlockGroups, ∀ other < fs.numBlockGroups,
    (fs.bgdt group).bgBlockBitmap = (fs.bgdt other).bgBlockBitmap → group = other

/-- A clear bit that the scan of its group comes to. -/
structure Offers (fs : EXT2FileSystem) (group bit : Nat) : Prop where
  counted : (fs.bgdt group).bgFreeBlocksCount ≠ 0
  placed : (fs.bgdt group).bgBlockBitmap ≠ 0
  inside : bit < fs.superblock.sBlocksPerGroup
  scanned : bit / 8 < fs.bitmapBytes
  clear : fs.marked group bit = false

/-- `FreeBlock` of a block that was just allocated clears its bit alone and puts both counters back. -/
structure GivesBack (fs after given : EXT2FileSystem) (blockNum : Nat) : Prop where
  bits : ∀ group < fs.numBlockGroups, ∀ bit,
    given.marked group bit = (decide ((group, bit) ≠ fs.place blockNum) && after.marked group bit)
  groupCounts : ∀ group, (given.bgdt group).bgFreeBlocksCount = (fs.bgdt group).bgFreeBlocksCount
  count : given.superblock.sFreeBlocksCount = fs.superblock.sFreeBlocksCount

/-- The bits and the counters follow the format when `AllocateBlock` returns the block. -/
structure FollowsFormat (fs after : EXT2FileSystem) (blockNum : Nat) : Prop where
  unused : ¬fs.InUse blockNum
  used : after.InUse blockNum
  others : ∀ group < fs.numBlockGroups, ∀ bit, (group, bit) ≠ fs.place blockNum →
    after.marked group bit = fs.marked group bit
  frees : ((after.withFaults []).freeBlock blockNum).1 = true
  givesBack : ∀ faults, ((after.withFaults faults).freeBlock blockNum).1 = true →
    GivesBack fs after ((after.withFaults faults).freeBlock blockNum).2 blockNum

end EXT2FileSystem

open EXT2FileSystem List

section

variable {data : Nat → BitVec 8} {blocksThisGroup byteIdx bit : Nat}

theorem and_mask_eq_zero (byte : BitVec 8) {bit : Nat} (lt : bit < 8) :
    byte &&& 1#8 <<< bit = 0#8 ↔ byte.getLsbD bit = false := by
  have masked := BitVec.and_twoPow byte bit
  have single : BitVec.twoPow 8 bit ≠ 0#8 := fun zero => by
    have lit := congrArg (fun word : BitVec 8 => word.getLsbD bit) zero
    simp [lt] at lit
  change byte &&& BitVec.twoPow 8 bit = 0#8 ↔ _
  rw [masked]
  cases byte.getLsbD bit <;> simp [single]

theorem bitmapTest_in_byte (data : Nat → BitVec 8) (byteIdx : Nat) {bit : Nat} (lt : bit < 8) :
    bitmapTest data (byteIdx * 8 + bit) = (data byteIdx).getLsbD bit := by
  rw [bitmapTest_eq, show (byteIdx * 8 + bit) / 8 = byteIdx by omega, show (byteIdx * 8 + bit) % 8 = bit by omega]

theorem scanByte_some (hf : scanByte data blocksThisGroup byteIdx = some bit) :
    bit / 8 = byteIdx ∧ bit < blocksThisGroup ∧ bitmapTest data bit = false := by
  unfold scanByte at hf
  split at hf
  case isTrue => exact nomatch hf
  split at hf
  case h_1 => exact nomatch hf
  case h_2 first search =>
    split at hf
    case isTrue => exact nomatch hf
    case isFalse hin =>
      have eq : byteIdx * 8 + first = bit := Option.some.inj hf
      have lt : first < 8 := mem_range.mp (mem_of_find?_eq_some search)
      have clear := find?_some search
      rw [decide_eq_true_eq, and_mask_eq_zero _ lt, ← bitmapTest_in_byte data byteIdx lt, eq] at clear
      exact ⟨by omega, by omega, clear⟩

theorem scanByte_none (missed : scanByte data blocksThisGroup byteIdx = none) (within : bit / 8 = byteIdx)
    (hin : bit < blocksThisGroup) : bitmapTest data bit = true := by
  have lt : bit % 8 < 8 := Nat.mod_lt _ (by decide)
  have pos : bit = byteIdx * 8 + bit % 8 := by omega
  rw [pos, bitmapTest_in_byte data byteIdx lt]
  unfold scanByte at missed
  split at missed
  case isTrue full =>
    rw [full]
    have allOnes : (0xFF#8 : BitVec 8) = BitVec.allOnes 8 := by decide
    rw [allOnes, BitVec.getLsbD_allOnes, decide_eq_true lt]
  split at missed
  case h_1 search =>
    have lit := find?_eq_none.mp search (bit % 8) (mem_range.mpr lt)
    rw [decide_eq_true_eq, and_mask_eq_zero _ lt] at lit
    exact Bool.eq_true_of_not_eq_false lit
  case h_2 first search =>
    split at missed
    case isFalse => exact nomatch missed
    case isTrue past =>
      -- the bits pre the first clear one are set, and this bit is pre it
      have pre : bit % 8 < first := by omega
      by_contra unset
      have clear : data byteIdx &&& 1#8 <<< (bit % 8) = 0#8 :=
        (and_mask_eq_zero _ lt).mpr (Bool.eq_false_of_not_eq_true unset)
      obtain ⟨_, index, bound, atIndex, earlier⟩ := find?_eq_some_iff_getElem.mp search
      rw [getElem_range] at atIndex
      have earlierBit := earlier (bit % 8) (by omega)
      rw [getElem_range] at earlierBit
      simp [clear] at earlierBit

theorem scanBitmap_some {bitmapBytes : Nat} (hf : scanBitmap data blocksThisGroup bitmapBytes = some bit) :
    bit / 8 < bitmapBytes ∧ bit < blocksThisGroup ∧ bitmapTest data bit = false := by
  obtain ⟨byteIdx, mem, atByte⟩ := exists_of_findSome?_eq_some hf
  obtain ⟨within, hin, clear⟩ := scanByte_some atByte
  exact ⟨within ▸ mem_range.mp mem, hin, clear⟩

theorem scanBitmap_none {bitmapBytes : Nat} (missed : scanBitmap data blocksThisGroup bitmapBytes = none)
    (scanned : bit / 8 < bitmapBytes) (hin : bit < blocksThisGroup) : bitmapTest data bit = true :=
  scanByte_none (findSome?_eq_none_iff.mp missed _ (mem_range.mpr scanned)) rfl hin

end

section

variable {fs : EXT2FileSystem} {group : Nat}

theorem blockRequest_eq (fs : EXT2FileSystem) (blockNum : Nat) :
    ∃ faults, faults <:+ fs.faults ∧ (fs.blockRequest blockNum).2 = fs.withFaults faults := by
  unfold blockRequest
  split
  · exact ⟨fs.faults, suffix_rfl, rfl⟩
  · exact ⟨fs.faults.tail, tail_suffix _, rfl⟩

theorem blockRequest_succeeds {blockNum : Nat} (placed : blockNum ≠ 0) (sound : fs.faults = []) :
    fs.blockRequest blockNum = (true, fs) := by
  unfold blockRequest request
  rw [if_neg placed, sound]
  exact congrArg (Prod.mk true) (by rw [← show fs.faults = [].tail from sound]; rfl)

theorem request_succeeds (sound : fs.faults = []) : fs.request = (true, fs) := by
  unfold request
  rw [sound]
  exact congrArg (Prod.mk true) (congrArg fs.withFaults sound.symm)

/-- The block number that stands for a bit in `AllocateBlock`. -/
def answerFor (fs : EXT2FileSystem) (group bit : Nat) : Nat :=
  (group * fs.superblock.sBlocksPerGroup + (bit + 1)) % 2 ^ 32

theorem allocateInGroup_cases (fs : EXT2FileSystem) (group : Nat) : ∃ faults, faults <:+ fs.faults ∧
    (fs.allocateInGroup group = (none, fs.withFaults faults) ∨
    fs.allocateInGroup group = (some 0, fs.withFaults faults) ∨
    ∃ bit, fs.Offers group bit ∧
      fs.allocateInGroup group = (some (answerFor fs group bit), (fs.withFaults faults).takeBit group bit)) := by
  unfold allocateInGroup
  split
  case isTrue => exact ⟨fs.faults, suffix_rfl, .inl rfl⟩
  case isFalse cnt =>
  obtain ⟨afterRead, fewer, readEq⟩ := blockRequest_eq fs (fs.bgdt group).bgBlockBitmap
  dsimp only
  rw [readEq]
  split
  case isTrue => exact ⟨afterRead, fewer, .inl rfl⟩
  case isFalse readable =>
  have placed : (fs.bgdt group).bgBlockBitmap ≠ 0 := fun zero => readable (by unfold blockRequest; rw [if_pos zero])
  split
  case h_1 => exact ⟨afterRead, fewer, .inl rfl⟩
  case h_2 bit hf =>
    obtain ⟨scanned, hin, clear⟩ := scanBitmap_some hf
    obtain ⟨afterWrite, still, writeEq⟩ := blockRequest_eq (fs.withFaults afterRead) (fs.bgdt group).bgBlockBitmap
    rw [writeEq]
    refine ⟨afterWrite, still.trans fewer, ?_⟩
    split
    · exact .inr (.inr ⟨bit, ⟨cnt, placed, hin, scanned, clear⟩, rfl⟩)
    · exact .inr (.inl rfl)

theorem allocateInGroup_takes {bit : Nat} (sound : fs.faults = []) (offers : fs.Offers group bit) :
    ∃ first, fs.Offers group first ∧ fs.allocateInGroup group = (some (answerFor fs group first), fs.takeBit group first) := by
  unfold allocateInGroup
  rw [if_neg offers.counted]
  dsimp only
  rw [blockRequest_succeeds offers.placed sound]
  simp only [Bool.true_eq_false, if_false]
  split
  case h_1 missed =>
    have set := scanBitmap_none missed offers.scanned offers.inside
    exact absurd set (Bool.eq_false_iff.mp offers.clear)
  case h_2 first hf =>
    obtain ⟨scanned, hin, clear⟩ := scanBitmap_some hf
    rw [blockRequest_succeeds offers.placed sound]
    exact ⟨first, ⟨offers.counted, offers.placed, hin, scanned, clear⟩, rfl⟩

theorem allocateInGroup_goesOn (sound : fs.faults = []) (full : ∀ bit, ¬fs.Offers group bit) :
    fs.allocateInGroup group = (none, fs) := by
  unfold allocateInGroup
  split
  case isTrue => rfl
  case isFalse cnt =>
  by_cases placed : (fs.bgdt group).bgBlockBitmap = 0
  · have refused : fs.blockRequest (fs.bgdt group).bgBlockBitmap = (false, fs) := by unfold blockRequest; rw [if_pos placed]
    dsimp only
    rw [refused]
    rfl
  · dsimp only
    rw [blockRequest_succeeds placed sound]
    simp only [Bool.true_eq_false, if_false]
    split
    case h_1 => rfl
    case h_2 bit hf =>
      obtain ⟨scanned, hin, clear⟩ := scanBitmap_some hf
      exact absurd ⟨cnt, placed, hin, scanned, clear⟩ (full bit)

theorem allocateFrom_cases (groups : List Nat) (fs : EXT2FileSystem) : ∃ faults, faults <:+ fs.faults ∧
    (allocateFrom groups fs = (0, fs.withFaults faults) ∨
    ∃ group ∈ groups, ∃ bit, fs.Offers group bit ∧
      allocateFrom groups fs = (answerFor fs group bit, (fs.withFaults faults).takeBit group bit)) := by
  induction groups generalizing fs with
  | nil => exact ⟨fs.faults, suffix_rfl, .inl rfl⟩
  | cons group rest ih =>
    obtain ⟨faults, fewer, goesOn | failed | ⟨bit, offers, ht⟩⟩ := allocateInGroup_cases fs group
    · obtain ⟨later, still, none | ⟨other, mem, bit, offers, ht⟩⟩ := ih (fs.withFaults faults)
      · exact ⟨later, still.trans fewer, .inl (by rw [allocateFrom, goesOn]; exact none)⟩
      · exact ⟨later, still.trans fewer, .inr ⟨other, .tail _ mem, bit,
          ⟨offers.counted, offers.placed, offers.inside, offers.scanned, offers.clear⟩,
          by rw [allocateFrom, goesOn]; exact ht⟩⟩
    · exact ⟨faults, fewer, .inl (by rw [allocateFrom, failed])⟩
    · exact ⟨faults, fewer, .inr ⟨group, .head _, bit, offers, by rw [allocateFrom, ht]⟩⟩

theorem allocateFrom_takes (fs : EXT2FileSystem) {groups : List Nat} {bit : Nat} (sound : fs.faults = []) (mem : group ∈ groups)
    (offers : fs.Offers group bit) : ∃ other ∈ groups, ∃ first, fs.Offers other first ∧
      allocateFrom groups fs = (answerFor fs other first, fs.takeBit other first) := by
  induction groups with
  | nil => exact absurd mem not_mem_nil
  | cons head rest ih =>
    by_cases h : ∃ clear, fs.Offers head clear
    · obtain ⟨clear, offered⟩ := h
      obtain ⟨first, firstOffered, ht⟩ := allocateInGroup_takes sound offered
      exact ⟨head, .head _, first, firstOffered, by rw [allocateFrom, ht]⟩
    · have later : group ∈ rest := (mem_cons.mp mem).resolve_left fun eq => h ⟨bit, eq ▸ offers⟩
      obtain ⟨other, otherMember, first, offered, ht⟩ := ih later
      refine ⟨other, .tail _ otherMember, first, offered, ?_⟩
      rw [allocateFrom, allocateInGroup_goesOn sound fun clear clearOffers => h ⟨clear, clearOffers⟩]
      exact ht

end

section

variable {fs : EXT2FileSystem} {group bit : Nat}

theorem requests_superblock (count : Nat) (fs : EXT2FileSystem) : (requests count fs).2.superblock = fs.superblock := by
  induction count generalizing fs with
  | zero => rfl
  | succ count ih =>
    unfold requests
    split
    · exact ih _
    · rfl

theorem measured_mounted (fs : EXT2FileSystem) : (fs.measured fs.superblock).Mounted := ⟨rfl, rfl⟩

theorem mount_mounted {disk : EXT2FileSystem} (done : mount disk = some fs) : fs.Mounted := by
  have computed : ∀ table : Bool × EXT2FileSystem, table.2.superblock = disk.superblock →
      (if table.1 then some (table.2.measured disk.superblock) else none) = some fs → fs.Mounted := by
    intro table kept filled
    split at filled
    case isFalse => exact nomatch filled
    case isTrue =>
      rw [← kept] at filled
      exact Option.some.inj filled ▸ measured_mounted table.2
  unfold mount at done
  split at done
  case isTrue => exact nomatch done
  case isFalse => exact computed _ (requests_superblock _ disk.request.2) done

theorem answerFor_eq (mounted : fs.Mounted) (inGroups : group < fs.numBlockGroups)
    (hin : bit < fs.superblock.sBlocksPerGroup) :
    answerFor fs group bit = group * fs.superblock.sBlocksPerGroup + bit + 1 := by
  rw [mounted.groups] at inGroups
  have whole : (group + 1) * fs.superblock.sBlocksPerGroup ≤
      (fs.superblock.sBlocksCount + fs.superblock.sBlocksPerGroup + (2 ^ 32 - 1)) % 2 ^ 32 :=
    (Nat.le_div_iff_mul_le (by omega)).mp inGroups
  have narrow : (fs.superblock.sBlocksCount + fs.superblock.sBlocksPerGroup + (2 ^ 32 - 1)) % 2 ^ 32 < 2 ^ 32 :=
    Nat.mod_lt _ (by decide)
  rw [Nat.succ_mul] at whole
  unfold answerFor
  rw [Nat.mod_eq_of_lt (by omega), Nat.add_assoc]

theorem split_answer (group : Nat) {perGroup : Nat} (hin : bit < perGroup) :
    (group * perGroup + bit) / perGroup = group ∧ (group * perGroup + bit) % perGroup = bit := by
  rw [Nat.mul_comm]
  exact ⟨by rw [Nat.mul_add_div (by omega), Nat.div_eq_of_lt hin, Nat.add_zero],
    by rw [Nat.mul_add_mod, Nat.mod_eq_of_lt hin]⟩

theorem block_takeBit (fs : EXT2FileSystem) (group bit other : Nat) :
    ((fs.takeBit group bit).bgdt other).bgBlockBitmap = (fs.bgdt other).bgBlockBitmap := by
  change (update fs.bgdt group _ other).bgBlockBitmap = _
  by_cases eq : other = group
  · rw [eq, update_self]
  · rw [update_of_ne eq]

theorem block_giveBit (fs : EXT2FileSystem) (group bit other : Nat) :
    ((fs.giveBit group bit).bgdt other).bgBlockBitmap = (fs.bgdt other).bgBlockBitmap := by
  change (update fs.bgdt group _ other).bgBlockBitmap = _
  by_cases eq : other = group
  · rw [eq, update_self]
  · rw [update_of_ne eq]

theorem formatted_takeBit (formatted : fs.Formatted) : (fs.takeBit group bit).Formatted where
  first := formatted.first
  positive := formatted.positive
  fits := formatted.fits
  apart := by
    intro left leftIn right rightIn same
    rw [block_takeBit, block_takeBit] at same
    exact formatted.apart left leftIn right rightIn same

section

variable {other : Nat} (formatted : fs.Formatted) (inGroups : group < fs.numBlockGroups)
  (otherIn : other < fs.numBlockGroups) (pos : Nat)
include formatted inGroups otherIn pos

theorem marked_takeBit : (fs.takeBit group bit).marked other pos =
      (decide ((other, pos) = (group, bit)) || fs.marked other pos) := by
  unfold marked
  rw [block_takeBit]
  change bitmapTest (update fs.bitmaps _ _ _) pos = _
  by_cases eq : other = group
  · rw [eq, update_self, bitmapTest_set]
    simp
  · rw [update_of_ne fun blocks => eq (formatted.apart other otherIn group inGroups blocks)]
    simp [eq]

theorem marked_giveBit : (fs.giveBit group bit).marked other pos =
      (decide ((other, pos) ≠ (group, bit)) && fs.marked other pos) := by
  unfold marked
  rw [block_giveBit]
  change bitmapTest (update fs.bitmaps _ _ _) pos = _
  by_cases eq : other = group
  · rw [eq, update_self, bitmapTest_clear]
    simp
  · rw [update_of_ne fun blocks => eq (formatted.apart other otherIn group inGroups blocks)]
    simp [eq]

end

theorem freeBit_cases (fs : EXT2FileSystem) (group bit : Nat) : ∃ faults, faults <:+ fs.faults ∧
    (fs.freeBit group bit = (false, fs.withFaults faults) ∨
      fs.freeBit group bit = (true, (fs.withFaults faults).giveBit group bit)) := by
  unfold freeBit
  obtain ⟨afterRead, fewer, readEq⟩ := blockRequest_eq fs (fs.bgdt group).bgBlockBitmap
  dsimp only
  rw [readEq]
  split
  case isTrue => exact ⟨afterRead, fewer, .inl rfl⟩
  case isFalse =>
  obtain ⟨afterWrite, still, writeEq⟩ := blockRequest_eq (fs.withFaults afterRead) (fs.bgdt group).bgBlockBitmap
  rw [writeEq]
  split
  · exact ⟨afterWrite, still.trans fewer, .inr rfl⟩
  · exact ⟨afterWrite, still.trans fewer, .inl rfl⟩

theorem freeBit_done (done : (fs.freeBit group bit).1 = true) :
    ∃ faults, (fs.freeBit group bit).2 = (fs.withFaults faults).giveBit group bit := by
  obtain ⟨faults, _, failed | given⟩ := freeBit_cases fs group bit
  · rw [failed] at done
    exact nomatch done
  · exact ⟨faults, congrArg Prod.snd given⟩

section

variable (fs : EXT2FileSystem)

theorem freeBit_succeeds (placed : (fs.bgdt group).bgBlockBitmap ≠ 0) (sound : fs.faults = []) :
    fs.freeBit group bit = (true, fs.giveBit group bit) := by
  unfold freeBit
  dsimp only
  rw [blockRequest_succeeds placed sound]
  simp only [Bool.true_eq_false, if_false]
  rw [blockRequest_succeeds placed sound]
  rfl

theorem freeBlock_answer (inGroups : group < fs.numBlockGroups) (hin : bit < fs.superblock.sBlocksPerGroup)
    {blockNum : Nat} (number : blockNum = group * fs.superblock.sBlocksPerGroup + bit + 1) :
    fs.freeBlock blockNum = (fs.recordFree blockNum).freeBit group bit := by
  obtain ⟨quotient, remainder⟩ := split_answer group hin
  rw [show group * fs.superblock.sBlocksPerGroup + bit = blockNum - 1 by omega] at quotient remainder
  have away : ¬group ≥ fs.numBlockGroups := by omega
  rw [← quotient] at away
  change (if _ then _ else if (blockNum - 1) / fs.superblock.sBlocksPerGroup ≥ fs.numBlockGroups then _
    else (fs.recordFree blockNum).freeBit ((blockNum - 1) / fs.superblock.sBlocksPerGroup)
      ((blockNum - 1) % fs.superblock.sBlocksPerGroup)) = _
  rw [if_neg (by omega), if_neg away, quotient, remainder]

theorem allocateBlock_frame : fs.allocateBlock.2.faults <:+ fs.faults ∧
    fs.allocateBlock.2.words = fs.words ∧ fs.allocateBlock.2.blockSize = fs.blockSize ∧
    fs.allocateBlock.2.taken = fs.taken ++ [fs.allocateBlock.1] := by
  obtain ⟨faults, fewer, none | ⟨group, _, bit, _, ht⟩⟩ := allocateFrom_cases (range fs.numBlockGroups) fs
  · unfold allocateBlock
    rw [none]
    exact ⟨fewer, rfl, rfl, rfl⟩
  · unfold allocateBlock
    rw [ht]
    exact ⟨fewer, rfl, rfl, rfl⟩

/-- What a call does to the bits and the counters when it takes a bit. -/
def tookBit (faults : List Bool) (group bit : Nat) : EXT2FileSystem :=
  ((fs.withFaults faults).takeBit group bit).recordTake (answerFor fs group bit)

theorem allocateBlock_cases (faults : List Bool) :
    ((fs.withFaults faults).allocateBlock).1 = 0 ∨
    ∃ group < fs.numBlockGroups, ∃ bit later, fs.Offers group bit ∧
      (fs.withFaults faults).allocateBlock = (answerFor fs group bit, tookBit fs later group bit) := by
  obtain ⟨later, _, none | ⟨group, mem, bit, offers, ht⟩⟩ :=
    allocateFrom_cases (range fs.numBlockGroups) (fs.withFaults faults)
  · exact .inl (congrArg Prod.fst none)
  · have offered : fs.Offers group bit := ⟨offers.counted, offers.placed, offers.inside, offers.scanned, offers.clear⟩
    refine .inr ⟨group, mem_range.mp mem, bit, later, offered, ?_⟩
    exact congrArg (fun answer : Nat × EXT2FileSystem => (answer.1, answer.2.recordTake answer.1)) ht

end

theorem allocateBlock_takes (inGroups : group < fs.numBlockGroups) (offers : fs.Offers group bit) :
    ∃ other < fs.numBlockGroups, ∃ first, fs.Offers other first ∧
      (fs.withFaults []).allocateBlock = (answerFor fs other first, tookBit fs [] other first) := by
  have offered : (fs.withFaults []).Offers group bit :=
    ⟨offers.counted, offers.placed, offers.inside, offers.scanned, offers.clear⟩
  obtain ⟨other, mem, first, hf, ht⟩ := allocateFrom_takes (fs.withFaults []) rfl
    (mem_range.mpr inGroups) offered
  refine ⟨other, mem_range.mp mem, first,
    ⟨hf.counted, hf.placed, hf.inside, hf.scanned, hf.clear⟩, ?_⟩
  exact congrArg (fun answer : Nat × EXT2FileSystem => (answer.1, answer.2.recordTake answer.1)) ht

theorem counts_giveBit_takeBit (fs : EXT2FileSystem) (group bit other : Nat) :
    ((((fs.takeBit group bit).giveBit group bit).bgdt other).bgFreeBlocksCount = (fs.bgdt other).bgFreeBlocksCount) ∧
    (((fs.takeBit group bit).giveBit group bit).superblock.sFreeBlocksCount = fs.superblock.sFreeBlocksCount ↔
      fs.superblock.sFreeBlocksCount ≠ 0) := by
  constructor
  · change (update (update fs.bgdt group _) group _ other).bgFreeBlocksCount = _
    by_cases eq : other = group
    · rw [eq, update_self]
      change ((update fs.bgdt group _) group).bgFreeBlocksCount + 1 = _
      rw [update_self]
      exact BitVec.sub_add_cancel _ _
    · rw [update_of_ne eq, update_of_ne eq]
  · change (if fs.superblock.sFreeBlocksCount - 1 = 0xFFFFFFFF#32 then fs.superblock.sFreeBlocksCount - 1
      else fs.superblock.sFreeBlocksCount - 1 + 1) = _ ↔ _
    generalize fs.superblock.sFreeBlocksCount = count
    rw [BitVec.sub_add_cancel]
    have wraps : count - 1 = 0xFFFFFFFF#32 ↔ count = 0 := by
      constructor
      · grind
      · intro zero
        rw [zero]
        decide
    by_cases zero : count = 0
    · grind
    · grind

section

variable (mounted : fs.Mounted) (formatted : fs.Formatted) (inGroups : group < fs.numBlockGroups)
  (offers : fs.Offers group bit)

include mounted inGroups offers

theorem place_answer_small (first : fs.superblock.sFirstDataBlock = 1) : fs.place (answerFor fs group bit) = (group, bit) := by
  obtain ⟨quotient, remainder⟩ := split_answer group offers.inside
  unfold place
  rw [answerFor_eq mounted inGroups offers.inside, first, Nat.add_sub_cancel, quotient, remainder]

theorem place_answer_large (first : fs.superblock.sFirstDataBlock = 0) : fs.place (answerFor fs group bit) ≠ (group, bit) := by
  unfold place
  rw [answerFor_eq mounted inGroups offers.inside, first, Nat.sub_zero]
  intro eq
  have quotient := congrArg Prod.fst eq
  have remainder := congrArg Prod.snd eq
  have whole := Nat.div_add_mod (group * fs.superblock.sBlocksPerGroup + bit + 1) fs.superblock.sBlocksPerGroup
  dsimp only at quotient remainder
  rw [quotient, remainder, Nat.mul_comm] at whole
  omega

include formatted

theorem followsFormat_small (lt : fs.blockSize = 1024) (cnt : fs.superblock.sFreeBlocksCount ≠ 0) (later : List Bool) :
    FollowsFormat fs (tookBit fs later group bit) (answerFor fs group bit) := by
  have first : fs.superblock.sFirstDataBlock = 1 := by rw [formatted.first, if_pos lt]
  have placed := place_answer_small mounted inGroups offers first
  have number := answerFor_eq mounted inGroups offers.inside
  have freeing : ∀ faults, ((tookBit fs later group bit).withFaults faults).freeBlock (answerFor fs group bit) =
      (((tookBit fs later group bit).withFaults faults).recordFree (answerFor fs group bit)).freeBit group bit :=
    fun faults => freeBlock_answer ((tookBit fs later group bit).withFaults faults) inGroups offers.inside number
  have block : ((tookBit fs later group bit).bgdt group).bgBlockBitmap ≠ 0 :=
    (block_takeBit fs group bit group).trans_ne offers.placed
  constructor
  case unused =>
    unfold InUse
    rw [placed, offers.clear]
    exact fun inUse => nomatch inUse.2
  case used =>
    change (fs.place _).1 < fs.numBlockGroups ∧ (fs.takeBit group bit).marked (fs.place _).1 (fs.place _).2 = true
    rw [placed, marked_takeBit formatted inGroups inGroups]
    exact ⟨inGroups, by simp⟩
  case others =>
    intro other otherIn pos away
    rw [placed] at away
    change (fs.takeBit group bit).marked other pos = _
    rw [marked_takeBit formatted inGroups otherIn, decide_eq_false away, Bool.false_or]
  case frees => rw [freeing, freeBit_succeeds (((tookBit fs later group bit).withFaults []).recordFree _) block rfl]
  case givesBack =>
    intro faults done
    rw [freeing] at done ⊢
    obtain ⟨last, given⟩ := freeBit_done done
    rw [given]
    constructor
    case bits =>
      intro other otherIn pos
      rw [placed]
      exact marked_giveBit (formatted_takeBit formatted) inGroups otherIn pos
    case groupCounts => exact fun other => (counts_giveBit_takeBit fs group bit other).1
    case count => exact (counts_giveBit_takeBit fs group bit group).2.mpr cnt

end

/-- `AllocateBlock` and `FreeBlock` follow the format exactly when no group has a bit to give, or
blocks are of 1 KiB and the superblock counts a free one. -/
theorem allocateBlock_followsFormat_iff (mounted : fs.Mounted) (formatted : fs.Formatted) :
    (∀ faults, ((fs.withFaults faults).allocateBlock).1 ≠ 0 →
      FollowsFormat fs ((fs.withFaults faults).allocateBlock).2 ((fs.withFaults faults).allocateBlock).1) ↔
    (∀ group < fs.numBlockGroups, ∀ bit, ¬fs.Offers group bit) ∨
      (fs.blockSize = 1024 ∧ fs.superblock.sFreeBlocksCount ≠ 0) := by
  constructor
  · intro follows
    by_cases full : ∀ group < fs.numBlockGroups, ∀ bit, ¬fs.Offers group bit
    · exact .inl full
    · simp only [not_forall, not_not] at full
      obtain ⟨group, inGroups, bit, offers⟩ := full
      obtain ⟨ht, takenIn, first, offered, answer⟩ := allocateBlock_takes inGroups offers
      have number := answerFor_eq mounted takenIn offered.inside
      have follow := follows []
      rw [answer] at follow
      have ok := follow (by rw [number]; exact Nat.succ_ne_zero _)
      right
      constructor
      · by_contra large
        have away := place_answer_large mounted takenIn offered (by rw [formatted.first, if_neg large])
        have kept : (fs.takeBit ht first).marked ht first = _ := ok.others ht takenIn first fun eq => away eq.symm
        rw [marked_takeBit formatted takenIn takenIn, offered.clear] at kept
        simp at kept
      · have given : GivesBack fs (tookBit fs [] ht first)
            (((tookBit fs [] ht first).withFaults []).freeBlock (answerFor fs ht first)).2 _ := ok.givesBack [] ok.frees
        rw [freeBlock_answer ((tookBit fs [] ht first).withFaults []) takenIn offered.inside number,
          freeBit_succeeds (((tookBit fs [] ht first).withFaults []).recordFree _)
            ((block_takeBit fs ht first ht).trans_ne offered.placed) rfl] at given
        exact (counts_giveBit_takeBit fs ht first ht).2.mp given.count
  · rintro (full | ⟨lt, cnt⟩) faults ans
    · rcases allocateBlock_cases fs faults with none | ⟨group, inGroups, bit, later, offers, _⟩
      · exact absurd none ans
      · exact absurd offers (full group inGroups bit)
    · rcases allocateBlock_cases fs faults with none | ⟨group, inGroups, bit, later, offers, ht⟩
      · exact absurd none ans
      · rw [ht]
        exact followsFormat_small mounted formatted inGroups offers lt cnt later

/-- One group of eight blocks whose bitmap has a single clear bit. -/
def oneGroup (logBlockSize firstDataBlock : Nat) : EXT2FileSystem where
  superblock := ⟨8, 1, firstDataBlock, logBlockSize, 8, 8, ext2SuperMagic, 128⟩
  blockSize := 1024 <<< logBlockSize
  numBlockGroups := 1
  bgdt := fun _ => ⟨3, 5, 1⟩
  bitmaps := fun _ _ => 0b11111101#8
  words := fun _ _ => 0
  inodes := fun _ => ⟨0, 0, fun _ => 0⟩
  faults := []
  taken := []
  freed := []

theorem oneGroup_formatted {logBlockSize firstDataBlock : Nat} (large : 1024 ≤ 1024 <<< logBlockSize)
    (first : firstDataBlock = if 1024 <<< logBlockSize = 1024 then 1 else 0) :
    (oneGroup logBlockSize firstDataBlock).Formatted where
  first := first
  positive := show 0 < 8 by decide
  fits := show 8 ≤ 8 * (1024 <<< logBlockSize) by omega
  apart := fun group inGroups other otherIn _ => by
    have one : (oneGroup logBlockSize firstDataBlock).numBlockGroups = 1 := rfl
    omega

/-- With blocks of 4 KiB block 2 is handed out, and its bit is set. -/
theorem used_block_handed_out : (oneGroup 2 0).Mounted ∧ (oneGroup 2 0).Formatted ∧
    (oneGroup 2 0).allocateBlock.1 = 2 ∧ (oneGroup 2 0).InUse 2 :=
  ⟨⟨by decide, by decide⟩, oneGroup_formatted (by decide) (by decide), by decide, by unfold InUse; decide⟩

theorem kilobyte_blocks_follow_format : (oneGroup 0 1).blockSize = 1024 ∧
    ∀ faults, ((((oneGroup 0 1).withFaults faults).allocateBlock).1 ≠ 0 → FollowsFormat (oneGroup 0 1)
      (((oneGroup 0 1).withFaults faults).allocateBlock).2 (((oneGroup 0 1).withFaults faults).allocateBlock).1) :=
  ⟨rfl, (allocateBlock_followsFormat_iff ⟨by decide, by decide⟩ (oneGroup_formatted (by decide) (by decide))).mpr
    (.inr ⟨rfl, by decide⟩)⟩

end

end RosKernel.Ext2
