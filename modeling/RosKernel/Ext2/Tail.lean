import RosKernel.Ext2.Shrinking

/-! What a shrinking `Truncate` should free, and when it does.

The blocks of the old size are counted in 32 bits, so that a size within one block of 4 GiB counts
as no block at all. `i_blocks` is lowered for data blocks only.
-/

set_option autoImplicit false

namespace RosKernel.Ext2

open Library List

namespace EXT2FileSystem

def sizeInBlocks (fs : EXT2FileSystem) (size : Nat) : Nat := (size + fs.blockSize - 1) / fs.blockSize

/-- A data block of the file from an index on. -/
def InTail (fs : EXT2FileSystem) (inode : Inode) (newBlocks blockNum : Nat) : Prop :=
  blockNum ≠ 0 ∧ ∃ path, Leaf fs.entriesPerBlock path ∧ fs.blockAt inode path = blockNum ∧
    newBlocks ≤ fileBlockOf fs.entriesPerBlock path

/-- A pointer block that has only data blocks from an index on below it, or none. -/
def LeftEmpty (fs : EXT2FileSystem) (inode : Inode) (newBlocks blockNum : Nat) : Prop :=
  blockNum ≠ 0 ∧ ∃ path, Within fs.entriesPerBlock path ∧ path ≠ [] ∧ 0 < height path ∧ fs.blockAt inode path = blockNum ∧
    ∀ leaf, Leaf fs.entriesPerBlock leaf → path <:+ leaf → fs.blockAt inode leaf ≠ 0 →
      newBlocks ≤ fileBlockOf fs.entriesPerBlock leaf

end EXT2FileSystem

open EXT2FileSystem

/-- The tail is gone and nothing else, and `i_blocks` still counts what is there. -/
structure FreesTail (fs after : EXT2FileSystem) (inode inode' : Inode) (newBlocks : Nat) : Prop where
  mapping : ∀ index < 2 ^ 32, (after.getBlockNumForFileOffset inode' index).1 =
    if index < newBlocks then (fs.getBlockNumForFileOffset inode index).1 else 0
  freed : ∀ blockNum, blockNum ∈ after.freed.drop fs.freed.length ↔
    fs.InTail inode newBlocks blockNum ∨ fs.LeftEmpty inode newBlocks blockNum
  once : (after.freed.drop fs.freed.length).Nodup
  sectors : inode.iBlocks = fs.blockSize / 512 * fs.blockCount inode →
    inode'.iBlocks = fs.blockSize / 512 * after.blockCount inode'

section

variable {fs : EXT2FileSystem}

theorem Mounted.blockSize_eq (mounted : fs.Mounted) (sized : fs.blockSize ≠ 0) :
    ∃ log < 22, fs.blockSize = 1024 * 2 ^ log := by
  have size : fs.blockSize = 1024 * 2 ^ fs.superblock.sLogBlockSize % 2 ^ 32 := by
    rw [mounted.size, SuperBlock.blockSize, Nat.shiftLeft_eq]
  generalize fs.superblock.sLogBlockSize = log at size
  have narrow : log < 22 := by
    by_contra large
    have whole : 2 ^ 32 ∣ 1024 * 2 ^ log := by
      change 2 ^ 32 ∣ 2 ^ 10 * 2 ^ log
      rw [← Nat.pow_add]
      exact Nat.pow_dvd_pow 2 (by omega)
    exact sized (size.trans (Nat.mod_eq_zero_of_dvd whole))
  refine ⟨log, narrow, size.trans (Nat.mod_eq_of_lt ?_)⟩
  have bound : 2 ^ log ≤ 2 ^ 21 := Nat.pow_le_pow_right (by decide) (by omega)
  omega

theorem Mounted.entries_regular (mounted : fs.Mounted) (sized : fs.blockSize ≠ 0) :
    1024 ≤ fs.blockSize ∧ fs.blockSize = 4 * fs.entriesPerBlock ∧ fs.blockSize < 2 ^ 32 ∧
      (fs.entriesPerBlock < 65536 ∨ fs.entriesPerBlock * fs.entriesPerBlock % 2 ^ 32 = 0) := by
  obtain ⟨log, narrow, size⟩ := Mounted.blockSize_eq mounted sized
  have pos : 0 < 2 ^ log := Nat.two_pow_pos log
  have bound : 2 ^ log ≤ 2 ^ 21 := Nat.pow_le_pow_right (by decide) (by omega)
  have entries : fs.entriesPerBlock = 256 * 2 ^ log := by
    unfold entriesPerBlock
    omega
  refine ⟨by omega, by omega, by omega, ?_⟩
  rw [entries]
  by_cases lt : log < 8
  · have few : 2 ^ log ≤ 2 ^ 7 := Nat.pow_le_pow_right (by decide) (by omega)
    exact .inl (by omega)
  · apply Or.inr
    apply Nat.mod_eq_zero_of_dvd
    have power : 256 * 2 ^ log * (256 * 2 ^ log) = 2 ^ (8 + log + (8 + log)) := by
      rw [Nat.pow_add 2 (8 + log), Nat.pow_add 2 8 log]
    rw [power]
    exact Nat.pow_dvd_pow 2 (by omega)

theorem blocksOf_new (fs : EXT2FileSystem) {size : Nat} (sized : fs.blockSize ≠ 0) (large : fs.blockSize < 2 ^ 32)
    (narrow : size < 2 ^ 32) : fs.blocksOf 64 size % 2 ^ 32 = fs.sizeInBlocks size := by
  have pos : 0 < fs.blockSize := Nat.pos_of_ne_zero sized
  have sum : (size + fs.blockSize + (2 ^ 64 - 1)) % 2 ^ 64 = size + fs.blockSize - 1 := by omega
  unfold blocksOf sizeInBlocks
  rw [sum]
  apply Nat.mod_eq_of_lt
  rw [Nat.div_lt_iff_lt_mul pos]
  omega

theorem blocksOf_old (fs : EXT2FileSystem) {size : Nat} (sized : fs.blockSize ≠ 0) (large : fs.blockSize < 2 ^ 32)
    (narrow : size < 2 ^ 32) : fs.blocksOf 32 size = if size + fs.blockSize ≤ 2 ^ 32 then fs.sizeInBlocks size else 0 := by
  unfold blocksOf sizeInBlocks
  split
  case isTrue fits =>
    have sum : (size + fs.blockSize + (2 ^ 32 - 1)) % 2 ^ 32 = size + fs.blockSize - 1 := by omega
    rw [sum]
  case isFalse wraps =>
    have sum : (size + fs.blockSize + (2 ^ 32 - 1)) % 2 ^ 32 = size + fs.blockSize - 1 - 2 ^ 32 := by omega
    rw [sum]
    exact Nat.div_eq_of_lt (by omega)

end

section

variable {fs after : EXT2FileSystem} {inode inode' : Inode} {drops : List Nat → Bool} {newBlocks : Nat}

/-- The walk drops the data blocks of the tail. -/
def DropsTail (fs : EXT2FileSystem) (inode : Inode) (drops : List Nat → Bool) (newBlocks : Nat) : Prop :=
  ∀ leaf, Leaf fs.entriesPerBlock leaf → fs.blockAt inode leaf ≠ 0 →
    (drops leaf = true ↔ newBlocks ≤ fileBlockOf fs.entriesPerBlock leaf)

theorem leaf_goes {leaf : List Nat} (last : Leaf fs.entriesPerBlock leaf) :
    leaf ∈ goes fs inode drops ↔ fs.blockAt inode leaf ≠ 0 ∧ drops leaf = true := by
  obtain ⟨hin, below, low⟩ := leaf_iff.mp last
  rw [mem_goes, low]
  constructor
  · rintro ⟨_, there, goes⟩
    exact ⟨there, eq_true_of_ne_false fun stays => nomatch goes.symm.trans (kept_zero.mpr ⟨there, stays⟩)⟩
  · rintro ⟨there, goes⟩
    exact ⟨⟨hin, below⟩, there, eq_false_of_ne_true fun keeps => nomatch goes.symm.trans (kept_zero.mp keeps).2⟩

theorem DropsTail.mem_goes_iff (exact' : DropsTail fs inode drops newBlocks) {path : List Nat}
    (hin : Within fs.entriesPerBlock path) (below : path ≠ []) :
    path ∈ goes fs inode drops ↔ fs.blockAt inode path ≠ 0 ∧ ∀ leaf, Leaf fs.entriesPerBlock leaf → path <:+ leaf →
      fs.blockAt inode leaf ≠ 0 → newBlocks ≤ fileBlockOf fs.entriesPerBlock leaf := by
  rw [mem_goes, ← Bool.not_eq_true, kept_iff_leaf hin below]
  constructor
  · rintro ⟨_, there, goes⟩
    refine ⟨there, fun leaf last onPath there' => (exact' leaf last there').mp (eq_true_of_ne_false fun stays => ?_)⟩
    exact goes ⟨leaf, last, onPath, there', stays⟩
  · rintro ⟨there, empty⟩
    refine ⟨⟨hin, below⟩, there, ?_⟩
    rintro ⟨leaf, last, onPath, there', stays⟩
    exact nomatch stays.symm.trans ((exact' leaf last there').mpr (empty leaf last onPath there'))

theorem DropsTail.freed_iff (exact' : DropsTail fs inode drops newBlocks) (blockNum : Nat) :
    blockNum ∈ (goes fs inode drops).map (fs.blockAt inode) ↔
      fs.InTail inode newBlocks blockNum ∨ fs.LeftEmpty inode newBlocks blockNum := by
  rw [mem_map]
  constructor
  · rintro ⟨path, mem, rfl⟩
    obtain ⟨⟨hin, below⟩, there, _⟩ := mem_goes.mp mem
    by_cases low : height path = 0
    · have last := leaf_iff.mpr ⟨hin, below, low⟩
      exact .inl ⟨there, path, last, rfl, (exact' path last there).mp ((leaf_goes last).mp mem).2⟩
    · have empty := ((DropsTail.mem_goes_iff exact' hin below).mp mem).2
      exact .inr ⟨there, path, hin, below, Nat.pos_of_ne_zero low, rfl, empty⟩
  · rintro (⟨there, path, last, rfl, late⟩ | ⟨there, path, hin, below, _, rfl, empty⟩)
    · exact ⟨path, (leaf_goes last).mpr ⟨there, (exact' path last there).mpr late⟩, rfl⟩
    · exact ⟨path, (DropsTail.mem_goes_iff exact' hin below).mpr ⟨there, empty⟩, rfl⟩

theorem dropsTail_of_freed (wellFormed : fs.WellFormed inode)
    (freed : ∀ blockNum, blockNum ∈ (goes fs inode drops).map (fs.blockAt inode) ↔
      fs.InTail inode newBlocks blockNum ∨ fs.LeftEmpty inode newBlocks blockNum) :
    DropsTail fs inode drops newBlocks := by
  intro leaf last there
  obtain ⟨hin, below, low⟩ := leaf_iff.mp last
  have once : ∀ {path}, Within fs.entriesPerBlock path → path ≠ [] → fs.blockAt inode path = fs.blockAt inode leaf → leaf = path :=
    fun hin' below' eq => WellFormed.once wellFormed hin hin' below below' there eq.symm
  constructor
  · intro goes
    rcases (freed _).mp (mem_map.mpr ⟨leaf, (leaf_goes last).mpr ⟨there, goes⟩, rfl⟩) with tail | empty
    · obtain ⟨_, path, other, eq, late⟩ := tail
      rw [once other.within (leaf_iff.mp other).2.1 eq]
      exact late
    · obtain ⟨_, path, hin', below', inner, eq, _⟩ := empty
      rw [← once hin' below' eq, low] at inner
      exact absurd inner (Nat.lt_irrefl 0)
  · intro late
    obtain ⟨path, mem, eq⟩ := mem_map.mp ((freed _).mpr (.inl ⟨there, leaf, last, rfl, late⟩))
    obtain ⟨hin', below'⟩ := (mem_goes.mp mem).1
    rw [← once hin' below' eq] at mem
    exact ((leaf_goes last).mp mem).2

theorem DropsTail.leftEmpty_iff (exact' : DropsTail fs inode drops newBlocks) :
    (∀ blockNum, ¬fs.LeftEmpty inode newBlocks blockNum) ↔ ∀ path ∈ goes fs inode drops, height path = 0 := by
  constructor
  · intro none path mem
    obtain ⟨⟨hin, below⟩, there, _⟩ := mem_goes.mp mem
    by_contra inner
    have empty := ((DropsTail.mem_goes_iff exact' hin below).mp mem).2
    exact none _ ⟨there, path, hin, below, Nat.pos_of_ne_zero inner, rfl, empty⟩
  · rintro low blockNum ⟨there, path, hin, below, inner, rfl, empty⟩
    exact inner.ne' (low path ((DropsTail.mem_goes_iff exact' hin below).mpr ⟨there, empty⟩))

variable (cuts : CutsInode fs after inode inode' drops)

include cuts

theorem CutsInode.freed_drop : after.freed.drop fs.freed.length = (goes fs inode drops).map (fs.blockAt inode) := by
  rw [cuts.freed, drop_left]

theorem CutsInode.sectors_iff (sized : 512 ≤ fs.blockSize) (large : fs.blockSize < 2 ^ 32) (lt : inode.iBlocks < 2 ^ 32)
    (cnt : inode.iBlocks = fs.blockSize / 512 * fs.blockCount inode) :
    inode'.iBlocks = fs.blockSize / 512 * after.blockCount inode' ↔ ∀ path ∈ goes fs inode drops, height path = 0 := by
  have whole := CutsInode.blockCount cuts
  have some : (goes fs inode drops).countP (fun node => height node = 0) ≤ (goes fs inode drops).length :=
    countP_le_length
  have all : (∀ path ∈ goes fs inode drops, height path = 0) ↔
      (goes fs inode drops).countP (fun node => height node = 0) = (goes fs inode drops).length := by
    rw [countP_eq_length]
    simp only [decide_eq_true_eq]
  rw [cuts.blocks, all]
  generalize (goes fs inode drops).countP (fun node => height node = 0) = leaves at some
  have enough : fs.blockSize / 512 * leaves ≤ inode.iBlocks := by
    rw [cnt, whole]
    exact Nat.mul_le_mul_left _ (by omega)
  rw [Inode.dropBlocks_iBlocks large lt enough, cnt, whole, ← Nat.mul_sub]
  have pos : 0 < fs.blockSize / 512 := by omega
  rw [Nat.mul_right_inj pos.ne']
  omega

/-- A walk does what it should exactly when it drops the tail and, if `i_blocks` counts the pointer
blocks, empties none of them. -/
theorem CutsInode.freesTail_iff (sound : fs.faults = []) (wellFormed : fs.WellFormed inode) (sized : 512 ≤ fs.blockSize)
    (large : fs.blockSize < 2 ^ 32) (lt : inode.iBlocks < 2 ^ 32) :
    FreesTail fs after inode inode' newBlocks ↔ DropsTail fs inode drops newBlocks ∧
      (inode.iBlocks = fs.blockSize / 512 * fs.blockCount inode → ∀ blockNum, ¬fs.LeftEmpty inode newBlocks blockNum) := by
  have freed := CutsInode.freed_drop cuts
  constructor
  · intro right
    have exact' : DropsTail fs inode drops newBlocks := by
      apply dropsTail_of_freed wellFormed
      rw [← freed]
      exact right.freed
    refine ⟨exact', fun cnt => (DropsTail.leftEmpty_iff exact').mpr ?_⟩
    exact (CutsInode.sectors_iff cuts sized large lt cnt).mp (right.sectors cnt)
  · rintro ⟨exact', whole⟩
    constructor
    case mapping =>
      intro index narrow
      rw [getBlockNumForFileOffset_eq cuts.sound narrow, getBlockNumForFileOffset_eq sound narrow]
      rw [CutsInode.entries cuts]
      by_cases known : index < fileBlocks fs.entriesPerBlock
      case neg => rw [if_neg known, if_neg known, ite_self]
      have last := route_leaf known
      obtain ⟨hin, below, low⟩ := leaf_iff.mp last
      rw [if_pos known, if_pos known, cuts.tree _ hin below, low]
      by_cases miss : fs.blockAt inode (route fs.entriesPerBlock index) = 0
      · rw [miss, ite_self]
        apply pruned_eq_zero.mpr
        exact eq_false_of_ne_true fun keeps => kept_label keeps miss
      have drops_iff := exact' _ last miss
      rw [fileBlockOf_route] at drops_iff
      by_cases late : newBlocks ≤ index
      · rw [if_neg (by omega), pruned_eq_zero, ← Bool.not_eq_true, kept_zero, drops_iff.mpr late]
        exact fun both => nomatch both.2
      · rw [if_pos (by omega)]
        apply pruned_kept
        rw [kept_zero]
        exact ⟨miss, eq_false_of_ne_true fun goes => late (drops_iff.mp goes)⟩
    case freed =>
      intro blockNum
      rw [freed]
      exact DropsTail.freed_iff exact' blockNum
    case once =>
      rw [freed]
      exact blocks_nodup wellFormed
    case sectors =>
      intro cnt
      rw [CutsInode.sectors_iff cuts sized large lt cnt]
      exact (DropsTail.leftEmpty_iff exact').mp (whole cnt)

end

end RosKernel.Ext2
