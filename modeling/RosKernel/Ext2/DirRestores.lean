import RosKernel.Ext2.DirLeaks

/-! Which directories `AddEntryToDirectory` makes larger, and what is left as it was when it does not.

A walk that takes no block leaves the volume as it is, whatever requests fail.
-/

set_option autoImplicit false

namespace RosKernel.Ext2

open Library EXT2FileSystem List

/-- Only requests were made, and blocks asked for. -/
def Unmoved (base fs : EXT2FileSystem) : Prop := ∃ faults taken, fs = { base with faults := faults, taken := taken }

/-- The entry was added, or nothing was done. -/
def Quiet (base : EXT2FileSystem) (inode : Inode) (walk : Walk) : Prop := walk.1 = .added ∨ (walk.2.1 = inode ∧ Unmoved base walk.2.2)

/-- No group has a free block. -/
def NoneFree (fs : EXT2FileSystem) : Prop := ∀ group < fs.numBlockGroups, (fs.bgdt group).bgFreeBlocksCount = 0

section

variable {base fs : EXT2FileSystem} {inode : Inode} {entry : NewEntry} {zeroBuf checked last : Bool} {path : List Nat}

theorem Unmoved.withFaults (moved : Unmoved base fs) (later : List Bool) : Unmoved base (fs.withFaults later) := by
  obtain ⟨_, ht, rfl⟩ := moved
  exact ⟨later, ht, rfl⟩

theorem Unmoved.allocateBlock (moved : Unmoved base fs) (none : NoneFree base) : ∃ after, fs.allocateBlock = (0, after) ∧ Unmoved base after := by
  obtain ⟨faults, taken, rfl⟩ := moved
  have empty : ∀ groups : List Nat, (∀ group ∈ groups, group < base.numBlockGroups) →
      allocateFrom groups { base with faults := faults, taken := taken } = (0, { base with faults := faults, taken := taken }) := by
    intro groups inGroups
    induction groups with
    | nil => rfl
    | cons group groups ih =>
      have passed : allocateInGroup { base with faults := faults, taken := taken } group = (Option.none, { base with faults := faults, taken := taken }) :=
        if_pos (none group (inGroups group (.head _)))
      rw [allocateFrom, passed]
      exact ih fun other mem => inGroups other (.tail _ mem)
  refine ⟨_, ?_, faults, taken ++ [0], rfl⟩
  unfold EXT2FileSystem.allocateBlock
  rw [empty (range base.numBlockGroups) fun group => mem_range.mp]
  rfl

theorem Quiet.goOn {walk : Walk} {next : Inode → EXT2FileSystem → Walk} (begins : Quiet base inode walk)
    (continues : ∀ fs, Unmoved base fs → Quiet base inode (next inode fs)) : Quiet base inode (walk.goOn next) := by
  obtain ⟨walked, inode', after⟩ := walk
  rcases begins with added | ⟨eq, moved⟩
  · obtain rfl : walked = .added := added
    exact .inl rfl
  · obtain rfl : inode' = inode := eq
    cases walked with
    | goesOn => exact continues after moved
    | added => exact .inl rfl
    | aborted => exact .inr ⟨rfl, moved⟩

theorem addInBlock_quiet (moved : Unmoved base fs) (blockNum : Nat) : Quiet base inode (fs.addInBlock entry blockNum inode) := by
  unfold addInBlock tryAddInBlock
  obtain ⟨later, failed | ⟨_, read⟩⟩ := readWords_cases fs blockNum
  · rw [failed]
    exact .inr ⟨rfl, moved.withFaults later⟩
  · rw [read]
    dsimp only
    cases (fs.withFaults later).entryAdded entry (fs.words blockNum) with
    | none => exact .inr ⟨rfl, moved.withFaults later⟩
    | some data =>
      obtain ⟨end', unwritten | written⟩ := writeWords_cases (fs.withFaults later) blockNum (wordView data)
      · simp only [unwritten]
        exact .inr ⟨rfl, moved.withFaults end'⟩
      · simp only [written]
        exact .inl rfl

theorem fillSlots_quiet {visit : Nat → Inode → EXT2FileSystem → Walk} {table level entries : Nat} {ptrs : Nat → Nat} (pos : 0 < entries)
    (content : ∀ slot, base.blockAt inode (slot :: path) = ptrs slot)
    (visits : ∀ fs slot, Unmoved base fs → ptrs slot ≠ 0 →
      (∀ leaf ∈ pathsUnder entries level (slot :: path), base.blockAt inode leaf = 0 → NoneFree base) → Quiet base inode (visit (ptrs slot) inode fs))
    {slots : List Nat} (moved : Unmoved base fs)
    (stuck : ∀ leaf ∈ slots.flatMap fun slot => pathsUnder entries level (slot :: path), base.blockAt inode leaf = 0 → NoneFree base) :
    Quiet base inode (fillSlots zeroBuf visit checked last table slots ptrs inode fs) := by
  induction slots generalizing fs with
  | nil => exact .inr ⟨rfl, moved⟩
  | cons slot slots ih =>
    have h := fun leaf mem => stuck leaf (mem_append_left _ mem)
    have rest := fun leaf mem => stuck leaf (mem_append_right _ mem)
    by_cases named : ptrs slot ≠ 0
    · rw [fillSlots, if_pos named]
      exact (visits fs slot moved named h).goOn fun after still => ih still rest
    · have miss := (content slot).trans (not_ne_iff.mp named)
      obtain ⟨leaf, more, split⟩ := exists_cons_of_ne_nil (@pathsUnder_ne_nil _ level pos (slot :: path))
      have under : leaf ∈ pathsUnder entries level (slot :: path) := by
        rw [split]
        exact .head _
      have none := h leaf under (blockAt_missing (cons_ne_nil _ _) miss (suffix_of_mem under))
      obtain ⟨after, refused, still⟩ := moved.allocateBlock none
      rw [fillSlots, if_neg named, refused]
      exact ih still rest

theorem fill_quiet {level : Nat} (pos : 0 < base.entriesPerBlock) (below : path ≠ []) (there : base.blockAt inode path ≠ 0) (moved : Unmoved base fs)
    (stuck : ∀ leaf ∈ pathsUnder base.entriesPerBlock level path, base.blockAt inode leaf = 0 → NoneFree base) :
    Quiet base inode (fill entry zeroBuf checked level (base.blockAt inode path) inode fs) := by
  induction level generalizing path fs with
  | zero => exact addInBlock_quiet moved _
  | succ level ih =>
    have content : ∀ slot, base.blockAt inode (slot :: path) = base.words (base.blockAt inode path) slot :=
      blockAt_cons ((reach_iff below there).mpr rfl)
    have eq : fs.words = base.words ∧ fs.entriesPerBlock = base.entriesPerBlock := by
      obtain ⟨_, _, rfl⟩ := moved
      exact ⟨rfl, rfl⟩
    obtain ⟨later, failed | ⟨_, read⟩⟩ := readWords_cases fs (base.blockAt inode path)
    · rw [fill, failed]
      exact .inr ⟨rfl, moved.withFaults later⟩
    · rw [fill, read, eq.1]
      dsimp only
      rw [show (fs.withFaults later).entriesPerBlock = base.entriesPerBlock from eq.2]
      refine fillSlots_quiet pos content (fun fs slot moved named stuck => ?_) (moved.withFaults later) stuck
      rw [← content] at named ⊢
      exact ih (cons_ne_nil _ _) named moved stuck

theorem addUnder_quiet (pos : 0 < base.entriesPerBlock) {roots : List Nat} (moved : Unmoved base fs)
    (stuck : ∀ leaf ∈ roots.flatMap fun root => pathsUnder base.entriesPerBlock (root - 11) [root], base.blockAt inode leaf = 0 → NoneFree base) :
    Quiet base inode (addUnder entry zeroBuf roots inode fs) := by
  induction roots generalizing fs with
  | nil => exact .inr ⟨rfl, moved⟩
  | cons root roots ih =>
    have h := fun leaf mem => stuck leaf (mem_append_left _ mem)
    have rest := fun leaf mem => stuck leaf (mem_append_right _ mem)
    rw [addUnder, plantRoot]
    by_cases named : inode.iBlock root ≠ 0
    · rw [if_pos named]
      dsimp only
      rw [if_neg named]
      have begins := @fill_quiet base fs inode entry zeroBuf (root == 12) [root] (root - 11) pos (cons_ne_nil _ _)
        ((blockAt_root base inode root).trans_ne named) moved h
      rw [blockAt_root] at begins
      exact begins.goOn fun after still => ih still rest
    · have miss := (blockAt_root base inode root).trans (not_ne_iff.mp named)
      obtain ⟨leaf, more, split⟩ := exists_cons_of_ne_nil (@pathsUnder_ne_nil _ (root - 11) pos [root])
      have under : leaf ∈ pathsUnder base.entriesPerBlock (root - 11) [root] := by
        rw [split]
        exact .head _
      have none := h leaf under (blockAt_missing (cons_ne_nil _ _) miss (suffix_of_mem under))
      obtain ⟨after, refused, still⟩ := moved.allocateBlock none
      rw [if_neg named, refused]
      dsimp only
      rw [if_pos rfl]
      rw [if_pos (not_ne_iff.mp named)]
      exact ih still rest

theorem addDirect_quiet {slots : List Nat} (alloc : List Nat) (moved : Unmoved base fs)
    (stuck : ∀ slot ∈ slots, inode.iBlock slot = 0 → NoneFree base) :
    Quiet base inode (direct (addDirect entry zeroBuf slots alloc inode fs)) ∧
      ((addDirect entry zeroBuf slots alloc inode fs).1 ≠ .added → (addDirect entry zeroBuf slots alloc inode fs).2.1 = alloc) := by
  induction slots generalizing fs with
  | nil => exact ⟨.inr ⟨rfl, moved⟩, fun _ => rfl⟩
  | cons slot slots ih =>
    have rest := fun other mem => stuck other (.tail _ mem)
    rw [addDirect]
    by_cases named : inode.iBlock slot ≠ 0
    · rw [if_pos named]
      have begins := @addInBlock_quiet base fs inode entry moved (inode.iBlock slot)
      generalize fs.addInBlock entry (inode.iBlock slot) inode = walk at begins ⊢
      obtain ⟨walked, inode', after⟩ := walk
      rcases begins with added | ⟨eq, still⟩
      · obtain rfl : walked = .added := added
        exact ⟨.inl rfl, fun sane => absurd rfl sane⟩
      · obtain rfl : inode' = inode := eq
        cases walked with
        | goesOn => exact ih still rest
        | added => exact ⟨.inl rfl, fun _ => rfl⟩
        | aborted => exact ⟨.inr ⟨rfl, still⟩, fun _ => rfl⟩
    · obtain ⟨after, refused, still⟩ := moved.allocateBlock (stuck slot (.head _) (not_ne_iff.mp named))
      rw [if_neg named, refused]
      exact ⟨.inr ⟨rfl, still⟩, fun _ => rfl⟩

theorem addToBlocks_quiet (pos : 0 < base.entriesPerBlock) (moved : Unmoved base fs)
    (stuck : ∀ leaf, Leaf base.entriesPerBlock leaf → base.blockAt inode leaf = 0 → NoneFree base) :
    Quiet base inode (direct (fs.addToBlocks entry zeroBuf inode)) ∧
      ((fs.addToBlocks entry zeroBuf inode).1 ≠ .added → (fs.addToBlocks entry zeroBuf inode).2.1 = []) := by
  have early : ∀ slot ∈ range 12, inode.iBlock slot = 0 → NoneFree base := fun slot mem miss => by
    have lt := mem_range.mp mem
    refine stuck [slot] ⟨[], slot, rfl, by omega, ?_, fun _ none => nomatch none⟩ ((blockAt_root base inode slot).trans miss)
    rw [length_nil]
    omega
  obtain ⟨begins, kept⟩ := @addDirect_quiet base fs inode entry zeroBuf _ [] moved early
  unfold addToBlocks
  generalize addDirect entry zeroBuf (range 12) [] inode fs = walk at begins kept ⊢
  obtain ⟨walked, alloc, inode', mid⟩ := walk
  rcases begins with added | ⟨eq, still⟩
  · obtain rfl : walked = .added := added
    exact ⟨.inl rfl, fun sane => absurd rfl sane⟩
  · obtain rfl : inode' = inode := eq
    cases walked with
    | goesOn =>
      refine ⟨addUnder_quiet pos still fun leaf mem => stuck leaf (mem_leafPaths.mp ?_), fun _ => kept nofun⟩
      rw [leafPaths_eq]
      exact mem_append_right _ mem
    | added => exact ⟨.inl rfl, fun sane => absurd rfl sane⟩
    | aborted => exact ⟨.inr ⟨rfl, still⟩, fun _ => kept nofun⟩

end

/-- The block bitmap, the free counts and the inodes on the disk are as before. -/
structure Restored (fs after : EXT2FileSystem) : Prop where
  bits : after.marked = fs.marked
  groupCounts : ∀ group, (after.bgdt group).bgFreeBlocksCount = (fs.bgdt group).bgFreeBlocksCount
  count : after.superblock.sFreeBlocksCount = fs.superblock.sFreeBlocksCount
  inodes : after.inodes = fs.inodes

/-- With four free blocks and no failing request the entry is added, and it takes four blocks at most; when
false is returned, whatever requests failed, the volume is as before. -/
structure DirectoryGrows (fs : EXT2FileSystem) (entry : NewEntry) (iMode : Nat) (inode : Inode) (parent : Nat) : Prop where
  succeeds : 4 ≤ fs.freeBlocks → (fs.addEntryToDirectory entry iMode inode parent).1 = true ∧
    (got ((fs.addEntryToDirectory entry iMode inode parent).2.2.taken.drop fs.taken.length)).length ≤ 4
  restores : ∀ faults, ((fs.withFaults faults).addEntryToDirectory entry iMode inode parent).1 = false →
    Restored fs ((fs.withFaults faults).addEntryToDirectory entry iMode inode parent).2.2

section

variable {fs : EXT2FileSystem} {inode : Inode} {listing : List Nat → List DirRecord} {entry : NewEntry} {iMode parent : Nat}

theorem restored_unmoved {after : EXT2FileSystem} (moved : Unmoved fs after) : Restored fs after := by
  obtain ⟨_, _, rfl⟩ := moved
  exact ⟨rfl, fun _ => rfl, rfl, rfl⟩

theorem restored_persist {after : EXT2FileSystem} (moved : Unmoved fs after) (onDisk : parent ≠ 0 → fs.inodes parent = inode) :
    Restored fs (after.persist parent inode) := by
  obtain ⟨later, kept | ⟨named, written⟩⟩ := persist_cases after parent inode
  · exact kept ▸ restored_unmoved (moved.withFaults later)
  · obtain ⟨_, _, rfl⟩ := moved
    rw [written, ← onDisk named]
    exact ⟨rfl, fun _ => rfl, rfl, Function.update_eq_self parent fs.inodes⟩

theorem addEntry_restores (pos : 0 < fs.entriesPerBlock) (onDisk : parent ≠ 0 → fs.inodes parent = inode)
    (stuck : ∀ leaf, Leaf fs.entriesPerBlock leaf → fs.blockAt inode leaf = 0 → NoneFree fs) (faults : List Bool)
    (failed : ((fs.withFaults faults).addEntryToDirectory entry iMode inode parent).1 = false) :
    Restored fs ((fs.withFaults faults).addEntryToDirectory entry iMode inode parent).2.2 := by
  unfold addEntryToDirectory at failed ⊢
  split at failed
  case isTrue isFile =>
    rw [if_pos isFile]
    exact restored_unmoved ⟨faults, fs.taken, rfl⟩
  case isFalse isDir =>
    rw [if_neg isDir]
    have moved : Unmoved fs (fs.withFaults faults).request.2 := ⟨faults.tail, fs.taken, rfl⟩
    generalize (fs.withFaults faults).request = asked at moved failed ⊢
    obtain ⟨zeroBuf, pre⟩ := asked
    dsimp only at failed moved ⊢
    obtain ⟨quiet, kept⟩ := @addToBlocks_quiet fs pre inode entry zeroBuf pos moved stuck
    generalize pre.addToBlocks entry zeroBuf inode = walk at quiet kept failed ⊢
    obtain ⟨walked, alloc, inode', after⟩ := walk
    cases walked with
    | added => exact nomatch failed
    | goesOn => exact restored_unmoved (quiet.resolve_left nofun).2
    | aborted =>
      obtain ⟨eq, still⟩ := quiet.resolve_left nofun
      obtain rfl : inode' = inode := eq
      obtain rfl : alloc = [] := kept nofun
      exact restored_persist still onDisk

theorem EXT2FileSystem.Counted.positive (cnt : fs.Counted) : 0 < fs.entriesPerBlock := by
  have nz : fs.blockSize ≠ 0 := fun zero => by
    have pos := cnt.formatted.positive
    have fits := cnt.formatted.fits
    omega
  have whole : 4 ∣ fs.blockSize := by
    rw [cnt.mounted.size]
    unfold SuperBlock.blockSize
    rw [Nat.shiftLeft_eq]
    omega
  unfold entriesPerBlock
  omega

theorem noneFree_iff (cnt : fs.Counted) : NoneFree fs ↔ fs.freeBlocks = 0 := by
  unfold freeBlocks
  rw [sum_eq_zero_iff]
  constructor
  · intro none count mem
    obtain ⟨group, inGroups, rfl⟩ := mem_map.mp mem
    have total := cnt.groups group (mem_range.mp inGroups)
    rw [none group (mem_range.mp inGroups)] at total
    exact total.symm
  · intro empty group inGroups
    have total := cnt.groups group inGroups
    rw [empty _ (mem_map.mpr ⟨group, mem_range.mpr inGroups, rfl⟩)] at total
    exact BitVec.eq_of_toNat_eq total

theorem restores_iff (cnt : fs.Counted) (isDir : iMode &&& ext2SIfdir ≠ 0) (onDisk : parent ≠ 0 → fs.inodes parent = inode) :
    (∀ faults, ((fs.withFaults faults).addEntryToDirectory entry iMode inode parent).1 = false →
      Restored fs ((fs.withFaults faults).addEntryToDirectory entry iMode inode parent).2.2) ↔
    (fs.freeBlocks = 0 ∨ ∀ leaf, Leaf fs.entriesPerBlock leaf → fs.blockAt inode leaf ≠ 0) := by
  constructor
  · intro restores
    by_contra neither
    obtain ⟨some, miss⟩ := not_or.mp neither
    simp only [not_forall, not_not] at miss
    obtain ⟨leaf, isLeaf, empty⟩ := miss
    have gives : Gives fs := by
      rw [← noneFree_iff cnt] at some
      simp only [NoneFree, not_forall] at some
      obtain ⟨group, inGroups, free⟩ := some
      have total := cnt.groups group inGroups
      obtain ⟨bit, rest, split⟩ := exists_cons_of_ne_nil (show fs.clearBits group ≠ [] from fun none => free (BitVec.eq_of_toNat_eq (by
        rw [total, none]
        rfl)))
      exact gives_of_offers cnt inGroups (split ▸ mem_cons_self ..)
    obtain ⟨faults, failed, group, _, bit, clear, set⟩ := @addEntry_leaks entry fs inode iMode parent gives isDir ⟨leaf, mem_leafPaths.mpr isLeaf, empty⟩
    rw [(restores faults failed).bits, clear] at set
    exact nomatch set
  · intro quiet faults
    refine addEntry_restores cnt.positive onDisk (fun leaf isLeaf miss => ?_) faults
    rcases quiet with none | full
    · exact (noneFree_iff cnt).mpr none
    · exact absurd miss (full leaf isLeaf)

/-- A directory grows as it should exactly when it need not: it has room for the name unless fewer than
four blocks are free, and no block is free or no block of it is missing. -/
theorem directoryGrows_iff (directory : fs.IsDirectory inode listing) (sound : fs.faults = []) (counted : fs.Counted) (apart : FreeApart fs inode)
    (noHoles : fs.NoHoles inode) (isDir : iMode &&& ext2SIfdir ≠ 0) (short : entry.name.length ≤ 255) (narrow : entry.inodeNum < 2 ^ 32)
    (onDisk : parent ≠ 0 → fs.inodes parent = inode) :
    DirectoryGrows fs entry iMode inode parent ↔
      (4 ≤ fs.freeBlocks → fs.HasRoom inode listing entry.name) ∧
      (fs.freeBlocks = 0 ∨ ∀ leaf, Leaf fs.entriesPerBlock leaf → fs.blockAt inode leaf ≠ 0) := by
  have grows := @EXT2FileSystem.IsDirectory.addEntry_iff fs inode listing entry iMode parent directory sound counted apart noHoles counted.positive isDir
    (Nat.lt_succ_of_le short) narrow
  have restores := @restores_iff fs inode entry iMode parent counted isDir onDisk
  constructor
  · intro growing
    exact ⟨fun free => grows.mp (growing.succeeds free), restores.mp growing.restores⟩
  · rintro ⟨room, quiet⟩
    exact ⟨fun free => grows.mpr (room free), restores.mpr quiet⟩

end

section

variable {fs : EXT2FileSystem} {blocks : List Nat}

theorem noHoles_inodeWith (short : blocks.length ≤ 12) (nz : 0 ∉ blocks) : fs.NoHoles (inodeWith blocks) := by
  have h : ∀ {leaf : List Nat}, leaf ∈ leafPaths fs.entriesPerBlock → fs.blockAt (inodeWith blocks) leaf ≠ 0 → ∃ slot, slot < blocks.length ∧ leaf = [slot] := by
    intro leaf mem there
    have isLeaf := mem_leafPaths.mp mem
    rcases reach_inodeWith short isLeaf.within ((reach_iff isLeaf.ne_nil there).mpr rfl) with ⟨rfl, _⟩ | ⟨slot, _, rfl, _, named⟩
    · exact absurd rfl isLeaf.ne_nil
    · grind
  have filled : ∀ slot < blocks.length, fs.blockAt (inodeWith blocks) [slot] ≠ 0 := by
    intro slot hin
    rw [blockAt_root]
    change blocks.getD slot 0 ≠ 0
    rw [getD_eq_getElem _ _ hin]
    exact fun zero => nz (zero ▸ getElem_mem hin)
  have first : ((range 12).flatMap fun slot => pathsUnder fs.entriesPerBlock (slot - 11) [slot]) = (range 12).map fun slot => [slot] := by
    rw [← flatMap_pure_eq_map]
    refine flatMap_congr fun slot mem => ?_
    have lt := mem_range.mp mem
    rw [show slot - 11 = 0 by omega]
    rfl
  have absent : ∀ leaf ∈ [12, 13, 14].flatMap (fun root => pathsUnder fs.entriesPerBlock (root - 11) [root]), fs.blockAt (inodeWith blocks) leaf = 0 := by
    intro leaf mem
    by_contra there
    obtain ⟨slot, hin, rfl⟩ := h (by
      rw [leafPaths_eq]
      exact mem_append_right _ mem) there
    obtain ⟨root, isRoot, under⟩ := mem_flatMap.mp mem
    obtain ⟨slots, split, _⟩ := mem_pathsUnder.mp under
    obtain rfl : slot = root := cons.inj (@List.append_inj' _ [] _ _ _ split rfl).2 |>.1
    have high : ∀ root ∈ [12, 13, 14], 12 ≤ root := by decide
    have tree := high slot isRoot
    omega
  unfold NoHoles
  rw [leafPaths_eq, pairwise_append, first]
  refine ⟨?_, ?_, ?_⟩
  case refine_1 =>
    rw [pairwise_map]
    refine pairwise_lt_range.imp_of_mem fun {early late} _ lateIn pre there => ?_
    obtain ⟨slot, hin, eq⟩ := h (by
      rw [leafPaths_eq, first]
      exact mem_append_left _ (mem_map_of_mem lateIn)) there
    obtain rfl : late = slot := (cons.inj eq).1
    exact filled early (Nat.lt_trans pre hin)
  case refine_2 => exact pairwise_of_forall_mem_list fun early _ late mem there => absurd (absent late mem) there
  case refine_3 => exact fun early _ late mem there => absurd (absent late mem) there

end

/-- The name a, and b in the last twelve bytes. -/
def fullRecords : Bytes := fun pos =>
  if pos < 1012 then [12, 0, 0, 0, 244, 3, 1, 1, 97].getD pos 0 else [13, 0, 0, 0, 12, 0, 1, 1, 98].getD (pos - 1012) 0

def fullListed : List DirRecord := [⟨12, 1012, [97]⟩, ⟨13, 12, [98]⟩]

theorem fullRecords_chain : Records fullRecords 0 fullListed 1024 := by
  have first : recordAt fullRecords 0 = ⟨12, 1012, [97]⟩ := by decide +kernel
  have snd : recordAt fullRecords 1012 = ⟨13, 12, [98]⟩ := by decide +kernel
  have tail : Records fullRecords 1012 [recordAt fullRecords 1012] 1024 := by
    refine .cons ?_ ?_
    · rw [snd]
      exact ⟨by decide, by decide⟩
    · rw [snd]
      exact .nil
  unfold fullListed
  rw [← first, ← snd]
  refine .cons ?_ ?_
  · rw [first]
    exact ⟨by decide, by decide⟩
  · rw [first]
    exact tail

/-- One group of 32 blocks of 1 KiB, of which the last four are free. -/
def fourFree : EXT2FileSystem where
  superblock := ⟨32, 4, 1, 0, 32, 8, ext2SuperMagic, 128⟩
  blockSize := 1024
  numBlockGroups := 1
  bgdt := fun _ => ⟨3, 5, 4⟩
  bitmaps := fun _ byteIdx => if byteIdx = 3 then 0x0F#8 else 0xFF#8
  words := fun _ => wordView fullRecords
  inodes := fun _ => inodeWith [6]
  faults := []
  taken := []
  freed := []

theorem fourFree_directory : fourFree.IsDirectory (inodeWith [6]) (listingWith [fullListed]) := by
  refine isDirectory_inodeWith (by decide) (by decide) (fun slot lt => ?_) (by unfold Distinct; decide)
  cases slot with
  | zero => exact .inl ((byteView_wordView fullRecords).symm ▸ fullRecords_chain)
  | succ slot => rfl

theorem fourFree_counted : fourFree.Counted where
  mounted := ⟨by decide, by decide⟩
  formatted := ⟨by decide, by decide, by decide, fun group inGroups other otherIn _ => by
    have one : fourFree.numBlockGroups = 1 := rfl
    omega⟩
  small := by decide
  placed _ _ := show 3 ≠ 0 by decide
  groups := by decide +kernel
  total := by decide +kernel

theorem fourFree_apart : FreeApart fourFree (inodeWith [6]) := by
  intro group inGroups bit hin clear path within hr
  rcases reach_inodeWith (by decide) within hr with ⟨_, eq⟩ | ⟨slot, lt, _, eq, _⟩
  · exact nomatch eq
  · have away : ∀ group < 1, ∀ bit < 32, fourFree.marked group bit = false → ∀ slot < 12, answerFor fourFree group bit ≠ [6].getD slot 0 := by decide +kernel
    exact away group inGroups bit hin clear slot lt (Option.some.inj eq)

/-- The name c, with every request answered. -/
theorem directoryGrows_fourFree : DirectoryGrows fourFree ⟨14, [99], 0⟩ ext2SIfdir (inodeWith [6]) 2 ↔
    (4 ≤ fourFree.freeBlocks → fourFree.HasRoom (inodeWith [6]) (listingWith [fullListed]) [99]) ∧
    (fourFree.freeBlocks = 0 ∨ ∀ leaf, Leaf fourFree.entriesPerBlock leaf → fourFree.blockAt (inodeWith [6]) leaf ≠ 0) :=
  directoryGrows_iff fourFree_directory rfl fourFree_counted fourFree_apart (noHoles_inodeWith (by decide) (by decide)) (by decide) (by decide)
    (by decide) fun _ => rfl

/-- With four free blocks the name c is refused; and with a failing request after the first block is taken, that block stays taken. -/
theorem directory_not_grown :
    fourFree.IsDirectory (inodeWith [6]) (listingWith [fullListed]) ∧ fourFree.Counted ∧ FreeApart fourFree (inodeWith [6]) ∧
    fourFree.NoHoles (inodeWith [6]) ∧ fourFree.freeBlocks = 4 ∧ fourFree.inodeOf ext2SIfdir (inodeWith [6]) [99] = none ∧
    (fourFree.addEntryToDirectory ⟨14, [99], 0⟩ ext2SIfdir (inodeWith [6]) 2).1 = false ∧
    ∃ faults, ((fourFree.withFaults faults).addEntryToDirectory ⟨14, [99], 0⟩ ext2SIfdir (inodeWith [6]) 2).1 = false ∧
      fourFree.marked 0 28 = false ∧ ((fourFree.withFaults faults).addEntryToDirectory ⟨14, [99], 0⟩ ext2SIfdir (inodeWith [6]) 2).2.2.marked 0 28 = true :=
  ⟨fourFree_directory, fourFree_counted, fourFree_apart, noHoles_inodeWith (by decide) (by decide), by decide +kernel, by decide +kernel, by decide +kernel,
    [false, false, false, false] ++ replicate 9 true, by decide +kernel, by decide +kernel, by decide +kernel⟩

end RosKernel.Ext2
