import RosKernel.Ext2.Tail

/-! A shrinking `Truncate` as a whole: when it frees the tail. -/

set_option autoImplicit false

namespace RosKernel.Ext2

open Library EXT2FileSystem List

/-- Every request succeeds, and the size is below that of the inode the node names. -/
structure EXT2FileSystem.Shrinks (fs : EXT2FileSystem) (node : Node) (inode : Inode) (size : Nat) : Prop where
  sound : fs.faults = []
  stored : fs.inodes (node.inodeID % 2 ^ 32) = inode
  placed : ∃ blockNum ≠ 0, fs.inodeTableBlock (node.inodeID % 2 ^ 32) = some blockNum
  smaller : size < inode.iSize
  narrow : inode.iSize < 2 ^ 32
  counter : inode.iBlocks < 2 ^ 32

/-- When a shrinking `Truncate` frees the tail. It frees nothing when the old size counts for no
more blocks than the new one, in 32 bits. -/
def EXT2FileSystem.TailGoes (fs : EXT2FileSystem) (inode : Inode) (size : Nat) : Prop :=
  if inode.iSize + fs.blockSize ≤ 2 ^ 32 ∧ fs.sizeInBlocks size < fs.sizeInBlocks inode.iSize then
    (∀ slot < 12, fs.sizeInBlocks inode.iSize ≤ slot → inode.iBlock slot = 0) ∧
    (∀ leaf, Leaf fs.entriesPerBlock leaf → leaf.length = 3 → fs.blockAt inode leaf ≠ 0 →
      fs.sizeInBlocks size ≤ fileBlockOf fs.entriesPerBlock leaf →
      fs.sizeInBlocks size ≤ fileBlockOf fs.entriesPerBlock leaf % 2 ^ 32) ∧
    (inode.iBlocks = fs.blockSize / 512 * fs.blockCount inode → ∀ blockNum, ¬fs.LeftEmpty inode (fs.sizeInBlocks size) blockNum)
  else ∀ blockNum, ¬fs.InTail inode (fs.sizeInBlocks size) blockNum ∧ ¬fs.LeftEmpty inode (fs.sizeInBlocks size) blockNum

section

variable {fs : EXT2FileSystem} {inode : Inode} {newBlocks oldBlocks : Nat}

theorem frees_deep {entries : Nat} {path : List Nat} (deep : 2 ≤ path.length) :
    frees entries oldBlocks newBlocks path = true ↔ newBlocks ≤ globalIdx entries path := by
  match path, deep with
  | first :: snd :: rest, _ =>
    unfold frees
    rw [decide_eq_true_eq]

theorem sizeInBlocks_few {size : Nat} (regular : fs.blockSize = 4 * fs.entriesPerBlock)
    (narrow : size < 2 ^ 32) (many : 65536 ≤ fs.entriesPerBlock) : fs.sizeInBlocks size ≤ fs.entriesPerBlock := by
  have product : fs.blockSize * 65536 ≤ fs.blockSize * fs.entriesPerBlock := Nat.mul_le_mul_left _ many
  apply Nat.div_le_of_le_mul
  omega

/-- The walk drops the tail when no direct block lies past the old size and no block of the double
indirect tree is numbered too low in 32 bits. -/
theorem dropsTail_frees_iff (lt : fs.entriesPerBlock < 2 ^ 30)
    (regular : fs.entriesPerBlock < 65536 ∨ fs.entriesPerBlock * fs.entriesPerBlock % 2 ^ 32 = 0)
    (few : 65536 ≤ fs.entriesPerBlock → newBlocks ≤ fs.entriesPerBlock) (fewer : newBlocks < oldBlocks) :
    DropsTail fs inode (frees fs.entriesPerBlock oldBlocks newBlocks) newBlocks ↔
      (∀ slot < 12, oldBlocks ≤ slot → inode.iBlock slot = 0) ∧
      ∀ leaf, Leaf fs.entriesPerBlock leaf → leaf.length = 3 → fs.blockAt inode leaf ≠ 0 →
        newBlocks ≤ fileBlockOf fs.entriesPerBlock leaf → newBlocks ≤ fileBlockOf fs.entriesPerBlock leaf % 2 ^ 32 := by
  have direct : ∀ slot, frees fs.entriesPerBlock oldBlocks newBlocks [slot] = true ↔ newBlocks ≤ slot ∧ slot < oldBlocks := by
    intro slot
    unfold frees
    rw [Bool.and_eq_true, decide_eq_true_eq, decide_eq_true_eq]
  have deep : ∀ leaf, Leaf fs.entriesPerBlock leaf → 2 ≤ leaf.length →
      ((frees fs.entriesPerBlock oldBlocks newBlocks leaf = true ↔ newBlocks ≤ fileBlockOf fs.entriesPerBlock leaf) ↔ _) :=
    fun leaf last long => (iff_congr (frees_deep long) .rfl).trans (globalIdx_iff lt regular few last long)
  constructor
  · intro drops
    constructor
    · intro slot near past
      by_contra there
      have last : Leaf fs.entriesPerBlock [slot] :=
        ⟨[], slot, rfl, by omega, by rw [length_nil]; omega, fun _ mem => nomatch mem⟩
      have goes := (direct slot).mp ((drops [slot] last (by rwa [blockAt_root])).mpr (show newBlocks ≤ slot by omega))
      omega
    · intro leaf last three there
      exact (deep leaf last (by omega)).mp (drops leaf last there) three
  · rintro ⟨near, far⟩ leaf last there
    by_cases long : 2 ≤ leaf.length
    · grind
    obtain ⟨slots, root, rfl, known, depth, _⟩ := last
    rw [length_append, length_singleton] at long
    obtain rfl : slots = [] := length_eq_zero_iff.mp (by omega)
    rw [nil_append, direct root]
    rw [nil_append, blockAt_root] at there
    have hin : root < oldBlocks := by
      by_contra past
      exact there (near root (by omega) (by omega))
    exact ⟨fun both => both.1, fun late => ⟨late, hin⟩⟩

end

section

variable {fs after : EXT2FileSystem} {inode inode' : Inode} {drops : List Nat → Bool}

variable {inodeNum blockNum : Nat}

theorem finishTruncate_succeeds (sound : fs.faults = []) (there : blockNum ≠ 0)
    (placed : fs.inodeTableBlock inodeNum = some blockNum) (node : Node) (size : Nat) (inode : Inode) :
    (fs.finishTruncate node inodeNum size inode).2.2 = fs.setInode inodeNum { inode with iSize := size % 2 ^ 32 } := by
  unfold finishTruncate
  dsimp only
  rw [writeInode_succeeds sound there placed]
  rfl

theorem CutsInode.written (cuts : CutsInode fs after inode inode' drops) (inodeNum size : Nat) :
    CutsInode fs (after.setInode inodeNum { inode' with iSize := size }) inode { inode' with iSize := size } drops where
  sound := cuts.sound
  size := cuts.size
  freed := cuts.freed
  blocks := cuts.blocks
  tree path hin below := by
    have eq : (after.setInode inodeNum { inode' with iSize := size }).cells { inode' with iSize := size } = after.cells inode' := by
      funext node
      cases node <;> rfl
    rw [← cuts.tree path hin below]
    unfold blockAt reach
    rw [eq]

theorem freesTail_unwalked_iff (sound : fs.faults = []) (inodeNum size newBlocks : Nat) :
    FreesTail fs (fs.setInode inodeNum { inode with iSize := size }) inode { inode with iSize := size } newBlocks ↔
      ∀ blockNum, ¬fs.InTail inode newBlocks blockNum ∧ ¬fs.LeftEmpty inode newBlocks blockNum := by
  have eq : (fs.setInode inodeNum { inode with iSize := size }).cells { inode with iSize := size } = fs.cells inode := by
    funext node
    cases node <;> rfl
  have blocks : (fs.setInode inodeNum { inode with iSize := size }).blockAt { inode with iSize := size } = fs.blockAt inode := by
    funext path
    unfold blockAt reach
    rw [eq]
  have none : (fs.setInode inodeNum { inode with iSize := size }).freed.drop fs.freed.length = [] := drop_length
  have entries : (fs.setInode inodeNum { inode with iSize := size }).entriesPerBlock = fs.entriesPerBlock := rfl
  constructor
  · intro right blockNum
    rw [← not_or, ← right.freed, none]
    exact not_mem_nil
  · intro empty
    constructor
    case mapping =>
      intro index narrow
      rw [getBlockNumForFileOffset_eq sound narrow, @getBlockNumForFileOffset_eq (fs.setInode _ _) _ sound _ narrow, blocks,
        entries]
      by_cases late : newBlocks ≤ index
      · rw [if_neg (show ¬index < newBlocks by omega)]
        split
        case isFalse => rfl
        case isTrue known =>
          by_contra there
          have last := route_leaf known
          exact (empty _).1 ⟨there, _, last, rfl, by rwa [fileBlockOf_route]⟩
      · rw [if_pos (show index < newBlocks by omega)]
    case freed =>
      intro blockNum
      rw [none]
      exact iff_of_false not_mem_nil (not_or.mpr (empty blockNum))
    case once =>
      rw [none]
      exact .nil
    case sectors =>
      intro cnt
      unfold blockCount at cnt ⊢
      rw [blocks]
      exact cnt

end

/-- A shrinking `Truncate` frees exactly the tail under the condition and only then. -/
theorem truncate_freesTail_iff {fs : EXT2FileSystem} {node : Node} {inode : Inode} {size : Nat} (mounted : fs.Mounted)
    (sized : fs.blockSize ≠ 0) (shrinks : fs.Shrinks node inode size) (wellFormed : fs.WellFormed inode) :
    FreesTail fs (fs.truncate node size).2.2 inode ((fs.truncate node size).2.2.inodes (node.inodeID % 2 ^ 32))
      (fs.sizeInBlocks size) ↔ fs.TailGoes inode size := by
  obtain ⟨least, regular, large, shape⟩ := Mounted.entries_regular mounted sized
  obtain ⟨blockNum, there, placed⟩ := shrinks.placed
  have smaller := shrinks.smaller
  have narrow : size < 2 ^ 32 := smaller.trans shrinks.narrow
  have named : node.inodeID % 2 ^ 32 ≠ 0 := by
    intro zero
    rw [zero] at placed
    exact nomatch placed
  have few := sizeInBlocks_few regular narrow
  unfold truncate
  rw [if_neg named, readInode_succeeds shrinks.sound there placed, shrinks.stored]
  dsimp only
  rw [if_neg (Nat.not_le.mpr smaller), blocksOf_new fs sized large narrow, blocksOf_old fs sized large shrinks.narrow]
  unfold TailGoes
  have unwalked := @freesTail_unwalked_iff fs inode shrinks.sound (node.inodeID % 2 ^ 32) (size % 2 ^ 32)
  have stored : ∀ (volume : EXT2FileSystem) (inode : Inode),
      (volume.setInode (node.inodeID % 2 ^ 32) inode).inodes (node.inodeID % 2 ^ 32) = inode :=
    fun _ _ => Function.update_self ..
  by_cases fits : inode.iSize + fs.blockSize ≤ 2 ^ 32
  case neg =>
    -- the old size counts for no block
    rw [if_neg fits, if_pos (Nat.zero_le _), if_neg (fun both => fits both.1), finishTruncate_succeeds shrinks.sound there placed]
    rw [stored]
    exact unwalked _
  rw [if_pos fits]
  by_cases fewer : fs.sizeInBlocks size < fs.sizeInBlocks inode.iSize
  case neg =>
    rw [if_pos (Nat.not_lt.mp fewer), if_neg (fun both => fewer both.2), finishTruncate_succeeds shrinks.sound there placed]
    rw [stored]
    exact unwalked _
  obtain ⟨tables, cuts⟩ := cutInode_spec shrinks.sound wellFormed
    (frees fs.entriesPerBlock (fs.sizeInBlocks inode.iSize) (fs.sizeInBlocks size))
  rw [if_neg (Nat.not_le.mpr fewer), if_pos ⟨fits, fewer⟩, finishTruncate_succeeds cuts.sound there (by rw [tables, placed])]
  have written := CutsInode.written cuts (node.inodeID % 2 ^ 32) (size % 2 ^ 32)
  rw [stored, CutsInode.freesTail_iff written shrinks.sound wellFormed (by omega) large shrinks.counter,
    dropsTail_frees_iff (by omega) shape few fewer, and_assoc]

/-- A file with one block, of this size. -/
def oneBlockFile (size : Nat) : Inode := ⟨size, 2, fun slot => if slot = 0 then 6 else 0⟩

def oneBlockVolume (size : Nat) : EXT2FileSystem where
  superblock := ⟨32, 25, 1, 0, 32, 16, ext2SuperMagic, 128⟩
  blockSize := 1024
  numBlockGroups := 1
  bgdt := fun _ => ⟨3, 4, 25⟩
  bitmaps := fun _ byteIdx => if byteIdx = 0 then 0b00111111#8 else 0#8
  words := fun _ _ => 0
  inodes := fun inodeNum => if inodeNum = 12 then oneBlockFile size else ⟨0, 0, fun _ => 0⟩
  faults := []
  taken := []
  freed := []

section

variable {size : Nat}

theorem reach_oneBlockFile {path : List Nat} {node : Option Nat} (within : Within (oneBlockVolume size).entriesPerBlock path)
    (hr : (oneBlockVolume size).reach (oneBlockFile size) path = some node) :
    (path = [] ∧ node = none) ∨ (path = [0] ∧ node = some 6) := by
  rcases reach_direct (fun root far => if_neg (by omega)) within hr with top | ⟨slot, _, rfl, named, there⟩
  · exact .inl top
  · have first : slot = 0 := by
      by_contra other
      exact there (if_neg other)
    subst first
    exact .inr ⟨rfl, named⟩

theorem wellFormed_oneBlockFile : (oneBlockVolume size).WellFormed (oneBlockFile size) := by
  intro path path' node within within' hr hr'
  rcases reach_oneBlockFile within hr with ⟨top, none⟩ | ⟨first, some⟩
  all_goals rcases reach_oneBlockFile within' hr' with ⟨top', none'⟩ | ⟨first', some'⟩
  · rw [top, top']
  · exact nomatch none.symm.trans some'
  · exact nomatch some.symm.trans none'
  · rw [first, first']

theorem oneBlockVolume_mounted : (oneBlockVolume size).Mounted where
  size := show (oneBlockVolume 0).blockSize = (oneBlockVolume 0).superblock.blockSize by decide
  groups := show (oneBlockVolume 0).numBlockGroups = (oneBlockVolume 0).superblock.numBlockGroups by decide

theorem oneBlockVolume_shrinks (nonempty : 0 < size) (narrow : size < 2 ^ 32) :
    (oneBlockVolume size).Shrinks ⟨12, size⟩ (oneBlockFile size) 0 where
  sound := rfl
  stored := rfl
  placed := ⟨5, by decide, show (oneBlockVolume 0).inodeTableBlock 12 = some 5 by decide⟩
  smaller := nonempty
  narrow := narrow
  counter := show 2 < 2 ^ 32 by decide

end

/-- A file of fourteen blocks; the last two are there, under an indirect block. -/
def indirectFile : Inode := ⟨14 * 1024, 6, fun slot => if slot = 12 then 6 else 0⟩

def indirectVolume : EXT2FileSystem :=
  { oneBlockVolume 0 with
    words := fun blockNum slot => if blockNum = 6 ∧ slot < 2 then 7 + slot else 0
    inodes := fun inodeNum => if inodeNum = 12 then indirectFile else ⟨0, 0, fun _ => 0⟩ }

theorem reach_indirectFile {path : List Nat} {node : Option Nat} (within : Within indirectVolume.entriesPerBlock path)
    (hr : indirectVolume.reach indirectFile path = some node) :
    (path, node) ∈ [([], none), ([12], some 6), ([0, 12], some 7), ([1, 12], some 8)] := by
  rcases within with rfl | ⟨slots, root, rfl, _, shallow, _⟩
  · cases hr
    decide
  · have indirect : root = 12 := by
      by_contra other
      exact root_of_reach hr (if_neg other)
    subst indirect
    cases slots with
    | nil =>
      cases hr
      decide
    | cons slot more =>
      obtain rfl : more = [] := length_eq_zero_iff.mp (by rw [length_cons] at shallow; omega)
      rcases slot with _ | _ | slot
      · cases hr
        decide
      · cases hr
        decide
      · have beyond : indirectVolume.words 6 (slot + 2) = 0 := by simp [indirectVolume]
        have h : named (indirectVolume.words 6 (slot + 2)) = some node := hr
        rw [beyond] at h
        cases h

theorem blockAt_indirectFile {path : List Nat} (within : Within indirectVolume.entriesPerBlock path) (below : path ≠ [])
    (there : indirectVolume.blockAt indirectFile path ≠ 0) : path = [12] ∨ path = [0, 12] ∨ path = [1, 12] := by
  have mem := reach_indirectFile within ((reach_iff below there).mpr rfl)
  simp only [mem_cons, Prod.mk.injEq, not_mem_nil, or_false] at mem
  rcases mem with ⟨top, _⟩ | ⟨first, _⟩ | ⟨first, _⟩ | ⟨first, _⟩
  · exact absurd top below
  · exact .inl first
  · exact .inr (.inl first)
  · exact .inr (.inr first)

/-- The last block goes, and the indirect block stays with the one before. -/
theorem truncate_indirectFile : FreesTail indirectVolume (indirectVolume.truncate ⟨12, 14 * 1024⟩ (13 * 1024)).2.2 indirectFile
    ((indirectVolume.truncate ⟨12, 14 * 1024⟩ (13 * 1024)).2.2.inodes 12) 13 ∧
    (indirectVolume.truncate ⟨12, 14 * 1024⟩ (13 * 1024)).2.2.freed = [8] := by
  have wellFormed : indirectVolume.WellFormed indirectFile := by
    intro path path' node within within' hr hr'
    have once : ∀ one ∈ [([], none), ([12], some 6), ([0, 12], some 7), ([1, 12], some 8)],
        ∀ other ∈ [([], none), ([12], some 6), ([0, 12], some 7), ([1, 12], some 8)], one.2 = other.2 → one.1 = other.1 := by
      decide
    exact once _ (reach_indirectFile within hr) _ (reach_indirectFile within' hr') rfl
  have shrinks : indirectVolume.Shrinks ⟨12, 14 * 1024⟩ indirectFile (13 * 1024) :=
    ⟨rfl, rfl, ⟨5, by decide, by decide⟩, by decide, by decide, by decide⟩
  have tail : indirectVolume.TailGoes indirectFile (13 * 1024) := by
    unfold TailGoes
    rw [if_pos (by decide)]
    refine ⟨fun slot near past => absurd (past.trans_lt near) (by decide), fun leaf last three there => ?_, ?_⟩
    · rcases blockAt_indirectFile last.within (leaf_iff.mp last).2.1 there with rfl | rfl | rfl <;> cases three
    · rintro _ blockNum ⟨labelled, path, within, below, inner, rfl, empty⟩
      rcases blockAt_indirectFile within below labelled with rfl | rfl | rfl
      · have leaf : Leaf indirectVolume.entriesPerBlock [0, 12] := ⟨[0], 12, rfl, by decide, rfl, by decide⟩
        exact absurd (empty [0, 12] leaf (suffix_cons ..) (by decide)) (by decide)
      · exact absurd inner (by decide)
      · exact absurd inner (by decide)
  have mounted : indirectVolume.Mounted := ⟨by decide, by decide⟩
  have blocks : indirectVolume.sizeInBlocks (13 * 1024) = 13 := by decide
  have right := (truncate_freesTail_iff mounted (by decide) shrinks wellFormed).mpr tail
  rw [blocks] at right
  constructor
  · have named : (⟨12, 14 * 1024⟩ : Node).inodeID % 2 ^ 32 = 12 := by decide
    rw [named] at right
    exact right
  · decide +kernel

/-- A file within a block of 4 GiB keeps its block. -/
theorem truncate_keeps_block : (oneBlockVolume (2 ^ 32 - 1)).Mounted ∧
    (oneBlockVolume (2 ^ 32 - 1)).Shrinks ⟨12, 2 ^ 32 - 1⟩ (oneBlockFile (2 ^ 32 - 1)) 0 ∧
    (oneBlockVolume (2 ^ 32 - 1)).WellFormed (oneBlockFile (2 ^ 32 - 1)) ∧
    ¬FreesTail (oneBlockVolume (2 ^ 32 - 1)) ((oneBlockVolume (2 ^ 32 - 1)).truncate ⟨12, 2 ^ 32 - 1⟩ 0).2.2
      (oneBlockFile (2 ^ 32 - 1)) (((oneBlockVolume (2 ^ 32 - 1)).truncate ⟨12, 2 ^ 32 - 1⟩ 0).2.2.inodes 12) 0 := by
  refine ⟨oneBlockVolume_mounted, oneBlockVolume_shrinks (by decide) (by decide), wellFormed_oneBlockFile, fun right => ?_⟩
  have kept := right.mapping 0 (by decide)
  revert kept
  decide

end RosKernel.Ext2
