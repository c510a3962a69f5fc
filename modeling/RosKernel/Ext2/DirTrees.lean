import RosKernel.Ext2.BlockMapping
import RosKernel.Ext2.DirBlocks

/-! `FindEntryInDirectory`, `RemoveEntryFromDirectory` and `AddEntryToDirectory`.

All three take the blocks of a directory by their paths, in the order of the file, and depend on the blocks at these paths
alone. The first two pass over a missing pointer; `AddEntryToDirectory` puts a fresh block there and goes on with it.
-/

set_option autoImplicit false

namespace RosKernel.Ext2

open Library EXT2FileSystem List

def ext2SIfdir : Nat := 0x4000

/-- The inode of a copied entry. -/
def entryInode (entry : Bytes) : Nat := load entry 0 4

namespace EXT2FileSystem

section

variable {α : Type}

/-- The slots of a pointer block in memory, until what one names has an answer. -/
def searchSlots (visit : Nat → Nat → EXT2FileSystem → Option α × EXT2FileSystem) (pointers : Nat → Nat) :
    List Nat → EXT2FileSystem → Option α × EXT2FileSystem
  | [], fs => (none, fs)
  | slot :: slots, fs =>
    if pointers slot = 0 then searchSlots visit pointers slots fs
    else
      match visit slot (pointers slot) fs with
      | (some answer, fs) => (some answer, fs)
      | (none, fs) => searchSlots visit pointers slots fs

def search (scan : Nat → EXT2FileSystem → Option α × EXT2FileSystem) : Nat → Nat → EXT2FileSystem → Option α × EXT2FileSystem
  | 0, blockNum, fs => scan blockNum fs
  | level + 1, blockNum, fs =>
    match fs.readWords blockNum with
    | (none, fs) => (none, fs)
    | (some pointers, fs) => searchSlots (fun _ => search scan level) pointers (range fs.entriesPerBlock) fs

def searchInode (scan : Nat → EXT2FileSystem → Option α × EXT2FileSystem) (inode : Inode) (fs : EXT2FileSystem) :
    Option α × EXT2FileSystem :=
  searchSlots (fun slot => search scan (slot - 11)) inode.iBlock (range 15) fs

end

/-- `scan_dir_block` of `FindEntryInDirectory`. -/
def findInBlock (name : List UInt8) (blockNum : Nat) (fs : EXT2FileSystem) : Option Bytes × EXT2FileSystem :=
  match fs.readWords blockNum with
  | (none, fs) => (none, fs)
  | (some words, fs) => ((findFrom fs.blockSize name (byteView words) fs.blockSize 0).map (outEntry (byteView words)), fs)

def removeInBlock (name : List UInt8) (blockNum : Nat) (fs : EXT2FileSystem) : Option Unit × EXT2FileSystem :=
  match fs.readWords blockNum with
  | (none, fs) => (none, fs)
  | (some words, fs) =>
    match findFrom fs.blockSize name (byteView words) fs.blockSize 0 with
    | none => (none, fs)
    | some start =>
      let (written, fs) := fs.writeWords blockNum (wordView (removeEntry (byteView words) start))
      (if written then some () else none, fs)

variable (fs : EXT2FileSystem)

def findEntryInDirectory (iMode : Nat) (inode : Inode) (name : List UInt8) : Option Bytes × EXT2FileSystem :=
  if iMode &&& ext2SIfdir = 0 then (none, fs) else searchInode (findInBlock name) inode fs

def removeEntryFromDirectory (iMode : Nat) (inode : Inode) (name : List UInt8) : Bool × EXT2FileSystem :=
  if iMode &&& ext2SIfdir = 0 then (false, fs)
  else
    let (removed, fs) := searchInode (removeInBlock name) inode fs
    (removed.isSome, fs)

end EXT2FileSystem

/-- What an entry is made of. -/
structure NewEntry where
  inodeNum : Nat
  name : List UInt8
  fileType : Nat

/-- A directory is marked as one. -/
def NewEntry.typeCode (entry : NewEntry) : Nat := if entry.fileType &&& ext2SIfdir = 0 then 1 else 2

/-- Whether the walk over the blocks is over, with the entry added or with an error. -/
inductive Walked where
  | goesOn
  | added
  | aborted
deriving DecidableEq

/-- Where a walk is, with the inode and the volume as it leaves them. -/
abbrev Walk : Type := Walked × Inode × EXT2FileSystem

/-- The rest of a walk that is not over. -/
def Walk.goOn (walk : Walk) (rest : Inode → EXT2FileSystem → Walk) : Walk :=
  match walk with
  | (.goesOn, inode, fs) => rest inode fs
  | ending => ending

namespace EXT2FileSystem

variable (entry : NewEntry) (zeroBuf : Bool) (fs : EXT2FileSystem)

/-- The block with the entry; none without room. -/
def entryAdded (words : Nat → Nat) : Option Bytes :=
  addFrom fs.blockSize entry.inodeNum entry.typeCode entry.name (byteView words) fs.blockSize 0

def tryAddInBlock (blockNum : Nat) : Bool × EXT2FileSystem :=
  match fs.readWords blockNum with
  | (none, fs) => (false, fs)
  | (some words, fs) =>
    match fs.entryAdded entry words with
    | none => (false, fs)
    | some data => fs.writeWords blockNum (wordView data)

def addInBlock (blockNum : Nat) (inode : Inode) : Walk :=
  let (done, fs) := fs.tryAddInBlock entry blockNum
  (if done then .added else .goesOn, inode, fs)

/-- A block is cleared with the common buffer, or with one of its own; without a buffer it is left. -/
def initBlock (blockNum : Nat) : Bool × EXT2FileSystem :=
  if zeroBuf then fs.writeWords blockNum fun _ => 0
  else
    let (got, fs) := fs.request
    if got then fs.writeWords blockNum fun _ => 0 else (true, fs)

/-- The slots of a pointer block in memory. Only the single indirect block looks at whether a fresh
block was cleared, and only a block of data pointers is written back without the pointer. -/
def fillSlots (visit : Nat → Inode → EXT2FileSystem → Walk) (checked last : Bool) (table : Nat) :
    List Nat → (Nat → Nat) → Inode → EXT2FileSystem → Walk
  | [], _, inode, fs => (.goesOn, inode, fs)
  | slot :: slots, pointers, inode, fs =>
    if pointers slot ≠ 0 then
      (visit (pointers slot) inode fs).goOn fun inode fs => fillSlots visit checked last table slots pointers inode fs
    else
      let (new, fs) := fs.allocateBlock
      if new = 0 then fillSlots visit checked last table slots pointers inode fs
      else
        let (ready, fs) := fs.initBlock zeroBuf new
        if checked ∧ ready = false then fillSlots visit checked last table slots pointers inode (fs.freeBlock new).2
        else
          let (written, fs) := fs.writeWords table (Function.update pointers slot new)
          if written = false then
            let fs := if last then (fs.writeWords table (Function.update pointers slot 0)).2 else fs
            (.aborted, inode, (fs.freeBlock new).2)
          else
            (visit new (inode.addBlock fs.blockSize) fs).goOn fun inode fs =>
              fillSlots visit checked last table slots (Function.update pointers slot new) inode fs

/-- The data blocks below a block, through `level` levels of pointer blocks. -/
def fill (checked : Bool) : Nat → Nat → Inode → EXT2FileSystem → Walk
  | 0, blockNum, inode, fs => fs.addInBlock entry blockNum inode
  | level + 1, blockNum, inode, fs =>
    match fs.readWords blockNum with
    | (none, fs) => (.goesOn, inode, fs)
    | (some pointers, fs) =>
      fillSlots zeroBuf (fill checked level) checked (level = 0) blockNum (range fs.entriesPerBlock) pointers inode fs

/-- A pointer block of the inode; the triple indirect one is cleared with a buffer of its own. -/
def plantRoot (root : Nat) (inode : Inode) : Inode × EXT2FileSystem :=
  if inode.iBlock root ≠ 0 then (inode, fs)
  else
    let (new, fs) := fs.allocateBlock
    if new = 0 then (inode, fs)
    else
      let (_, fs) := fs.initBlock (zeroBuf && root != 14) new
      ((inode.setBlock root new).addBlock fs.blockSize, fs)

def addUnder : List Nat → Inode → EXT2FileSystem → Walk
  | [], inode, fs => (.goesOn, inode, fs)
  | root :: roots, inode, fs =>
    let (inode, fs) := fs.plantRoot zeroBuf root inode
    if inode.iBlock root = 0 then addUnder roots inode fs
    else
      (fill entry zeroBuf (root == 12) (root - 11) (inode.iBlock root) inode fs).goOn fun inode fs => addUnder roots inode fs

/-- The data blocks of the inode; the slots that got a fresh block are kept for the cleanup. -/
def addDirect : List Nat → List Nat → Inode → EXT2FileSystem → Walked × List Nat × Inode × EXT2FileSystem
  | [], allocated, inode, fs => (.goesOn, allocated, inode, fs)
  | slot :: slots, allocated, inode, fs =>
    if inode.iBlock slot ≠ 0 then
      match fs.addInBlock entry (inode.iBlock slot) inode with
      | (.goesOn, inode, fs) => addDirect slots allocated inode fs
      | (ending, inode, fs) => (ending, allocated, inode, fs)
    else
      let (new, fs) := fs.allocateBlock
      if new = 0 then (.aborted, allocated, inode, fs)
      else
        let (_, fs) := fs.initBlock zeroBuf new
        match fs.addInBlock entry new ((inode.setBlock slot new).addBlock fs.blockSize) with
        | (.goesOn, inode, fs) => addDirect slots (allocated ++ [slot]) inode fs
        | (ending, inode, fs) => (ending, allocated ++ [slot], inode, fs)

def cleanupAllocatedDirects : List Nat → Inode → EXT2FileSystem → Inode × EXT2FileSystem
  | [], inode, fs => (inode, fs)
  | slot :: slots, inode, fs =>
    if inode.iBlock slot = 0 then cleanupAllocatedDirects slots inode fs
    else cleanupAllocatedDirects slots ((inode.setBlock slot 0).dropBlock fs.blockSize) (fs.freeBlock (inode.iBlock slot)).2

/-- The inode is written when the caller names it; the result is not looked at. -/
def persist (parentInodeNum : Nat) (inode : Inode) : EXT2FileSystem :=
  if parentInodeNum = 0 then fs else (fs.writeInode parentInodeNum inode).2

/-- The walk over all blocks. -/
def addToBlocks (inode : Inode) : Walked × List Nat × Inode × EXT2FileSystem :=
  match addDirect entry zeroBuf (range 12) [] inode fs with
  | (.goesOn, allocated, inode, fs) =>
    let (ending, inode, fs) := addUnder entry zeroBuf [12, 13, 14] inode fs
    (ending, allocated, inode, fs)
  | ending => ending

def addEntryToDirectory (iMode : Nat) (inode : Inode) (parentInodeNum : Nat) : Bool × Inode × EXT2FileSystem :=
  if iMode &&& ext2SIfdir = 0 then (false, inode, fs)
  else
    let (zeroBuf, fs) := fs.request
    match fs.addToBlocks entry zeroBuf inode with
    | (.added, _, inode, fs) => (true, inode, fs.persist parentInodeNum inode)
    | (.aborted, allocated, inode, fs) =>
      let (inode, fs) := cleanupAllocatedDirects allocated inode fs
      (false, inode, fs.persist parentInodeNum inode)
    | (.goesOn, _, inode, fs) => (false, inode, fs)

end EXT2FileSystem

/-- The paths to data blocks below a path, through `level` levels of pointer blocks. -/
def pathsUnder (entries : Nat) : Nat → List Nat → List (List Nat)
  | 0, path => [path]
  | level + 1, path => (range entries).flatMap fun slot => pathsUnder entries level (slot :: path)

/-- The paths to the data blocks of an inode. -/
def leafPaths (entries : Nat) : List (List Nat) := (range 15).flatMap fun root => pathsUnder entries (root - 11) [root]

section

variable {entries level : Nat} {path leaf other : List Nat}

theorem mem_pathsUnder : leaf ∈ pathsUnder entries level path ↔
    ∃ slots, leaf = slots ++ path ∧ slots.length = level ∧ ∀ slot ∈ slots, slot < entries := by
  induction level generalizing path with
  | zero =>
    rw [pathsUnder, mem_singleton]
    constructor
    · simp
    · simp
  | succ level ih =>
    rw [pathsUnder, mem_flatMap]
    constructor
    · rintro ⟨slot, mem, under⟩
      obtain ⟨slots, rfl, long, lt⟩ := ih.mp under
      refine ⟨slots ++ [slot], by rw [append_assoc, singleton_append], ?_, ?_⟩
      · rw [length_append, long, length_singleton]
      · intro other hin
        rcases mem_append.mp hin with front | last
        · exact lt other front
        · exact mem_singleton.mp last ▸ mem_range.mp mem
    · rintro ⟨slots, rfl, long, lt⟩
      obtain ⟨front, slot, rfl⟩ : ∃ front slot, slots = front ++ [slot] := by
        rcases eq_nil_or_concat slots with none | ⟨front, slot, split⟩
        · rw [none] at long
          exact nomatch long
        · exact ⟨front, slot, split.trans concat_eq_append⟩
      rw [length_append, length_singleton] at long
      refine ⟨slot, mem_range.mpr (lt slot (mem_append_right _ (.head _))), ih.mpr ?_⟩
      exact ⟨front, by rw [append_assoc, singleton_append], by omega,
        fun other mem => lt other (mem_append_left _ mem)⟩

theorem mem_leafPaths : leaf ∈ leafPaths entries ↔ Leaf entries leaf := by
  unfold leafPaths Leaf
  rw [mem_flatMap]
  constructor
  · rintro ⟨root, mem, under⟩
    obtain ⟨slots, rfl, long, lt⟩ := mem_pathsUnder.mp under
    exact ⟨slots, root, rfl, mem_range.mp mem, long, lt⟩
  · rintro ⟨slots, root, rfl, known, long, lt⟩
    exact ⟨root, mem_range.mpr known, mem_pathsUnder.mpr ⟨slots, rfl, long, lt⟩⟩

theorem suffix_of_mem (under : leaf ∈ pathsUnder entries level path) : path <:+ leaf := by
  obtain ⟨slots, rfl, _⟩ := mem_pathsUnder.mp under
  exact suffix_append slots path

end

section

variable {α : Type} {fs : EXT2FileSystem} {inode : Inode} {path : List Nat}

theorem blockAt_missing (below : path ≠ []) (miss : fs.blockAt inode path = 0) {leaf : List Nat} (under : path <:+ leaf) :
    fs.blockAt inode leaf = 0 := by
  by_contra there
  exact blockAt_of_suffix there under below miss

/-- What an answer is at a path; nothing without a block. -/
def EXT2FileSystem.answerAt (fs : EXT2FileSystem) (inode : Inode) (answer : (Nat → Nat) → Option α) (path : List Nat) : Option α :=
  if fs.blockAt inode path = 0 then none else answer (fs.words (fs.blockAt inode path))

theorem answerAt_missing (answer : (Nat → Nat) → Option α) (below : path ≠ []) (miss : fs.blockAt inode path = 0)
    (entries level : Nat) : (pathsUnder entries level path).findSome? (fs.answerAt inode answer) = none := by
  rw [findSome?_eq_none_iff]
  intro leaf under
  exact if_pos (blockAt_missing below miss (suffix_of_mem under))

variable {scan : Nat → EXT2FileSystem → Option α × EXT2FileSystem} {answer : (Nat → Nat) → Option α}

theorem searchSlots_eq {visit : Nat → Nat → EXT2FileSystem → Option α × EXT2FileSystem} {ptrs : Nat → Nat}
    {paths : Nat → List (List Nat)} {hf : List Nat → Option α}
    (miss : ∀ slot, ptrs slot = 0 → (paths slot).findSome? hf = none)
    (visits : ∀ slot, ptrs slot ≠ 0 → visit slot (ptrs slot) fs = ((paths slot).findSome? hf, fs)) (slots : List Nat) :
    searchSlots visit ptrs slots fs = ((slots.flatMap paths).findSome? hf, fs) := by
  induction slots with
  | nil => rfl
  | cons slot slots ih =>
    rw [searchSlots, flatMap_cons, findSome?_append]
    split
    case isTrue zero => rw [ih, miss slot zero, Option.none_or]
    case isFalse named =>
      rw [visits slot named]
      cases (paths slot).findSome? hf with
      | none => rw [Option.none_or]; exact ih
      | some answer => rfl

theorem search_eq (sound : fs.faults = []) (scans : ∀ blockNum, blockNum ≠ 0 → scan blockNum fs = (answer (fs.words blockNum), fs))
    {level : Nat} (below : path ≠ []) (there : fs.blockAt inode path ≠ 0) : search scan level (fs.blockAt inode path) fs =
      ((pathsUnder fs.entriesPerBlock level path).findSome? (fs.answerAt inode answer), fs) := by
  induction level generalizing path with
  | zero =>
    rw [search, scans _ there, pathsUnder, findSome?_singleton, answerAt, if_neg there]
  | succ level ih =>
    have content : ∀ slot, fs.blockAt inode (slot :: path) = fs.words (fs.blockAt inode path) slot :=
      blockAt_cons ((reach_iff below there).mpr rfl)
    rw [search, readWords_succeeds sound there]
    refine searchSlots_eq (fun slot zero => ?_) (fun slot named => ?_) _
    · rw [← content] at zero
      exact answerAt_missing answer (cons_ne_nil _ _) zero _ _
    · grind

theorem searchInode_eq (sound : fs.faults = []) (scans : ∀ blockNum, blockNum ≠ 0 → scan blockNum fs = (answer (fs.words blockNum), fs)) :
    searchInode scan inode fs = ((leafPaths fs.entriesPerBlock).findSome? (fs.answerAt inode answer), fs) := by
  refine searchSlots_eq (fun root zero => ?_) (fun root named => ?_) _
  · rw [← blockAt_root fs] at zero
    exact answerAt_missing answer (cons_ne_nil _ _) zero _ _
  · rw [← blockAt_root fs] at named ⊢
    exact search_eq sound scans (cons_ne_nil _ _) named

theorem readWords_cases (fs : EXT2FileSystem) (blockNum : Nat) : ∃ later,
    fs.readWords blockNum = (none, fs.withFaults later) ∨
    (blockNum ≠ 0 ∧ fs.readWords blockNum = (some (fs.words blockNum), fs.withFaults later)) := by
  obtain ⟨later, _, asked⟩ := blockRequest_eq fs blockNum
  refine ⟨later, ?_⟩
  unfold readWords
  dsimp only
  rw [asked]
  by_cases read : (fs.blockRequest blockNum).1 = true
  · refine .inr ⟨?_, by rw [if_pos read]; rfl⟩
    intro zero
    unfold blockRequest at read
    rw [if_pos zero] at read
    exact nomatch read
  · exact .inl (by rw [if_neg read])

/-- A scan goes on with nothing but requests made, or it ends with a change to one of the blocks. -/
def Ends (fs : EXT2FileSystem) (inode : Inode) (changes : Nat → α × EXT2FileSystem → Prop) (paths : List (List Nat))
    (scanned : Option α × EXT2FileSystem) : Prop :=
  (∃ later, scanned = (none, fs.withFaults later)) ∨ ∃ leaf ∈ paths, fs.blockAt inode leaf ≠ 0 ∧
    ∃ answer, scanned = (some answer.1, answer.2) ∧ changes (fs.blockAt inode leaf) answer

variable {changes : Nat → α × EXT2FileSystem → Prop}

theorem Ends.mono {paths more : List (List Nat)} {scanned : Option α × EXT2FileSystem} (ends : Ends fs inode changes paths scanned)
    (hin : paths ⊆ more) : Ends fs inode changes more scanned :=
  ends.imp_right fun ⟨leaf, mem, hf⟩ => ⟨leaf, hin mem, hf⟩

theorem searchSlots_ends {visit : Nat → Nat → EXT2FileSystem → Option α × EXT2FileSystem} {ptrs : Nat → Nat}
    {paths : Nat → List (List Nat)} (visits : ∀ slot faults, ptrs slot ≠ 0 →
      Ends fs inode changes (paths slot) (visit slot (ptrs slot) (fs.withFaults faults))) (slots : List Nat) (faults : List Bool) :
    Ends fs inode changes (slots.flatMap paths) (searchSlots visit ptrs slots (fs.withFaults faults)) := by
  induction slots generalizing faults with
  | nil => exact .inl ⟨faults, rfl⟩
  | cons slot slots ih =>
    have onward := fun later => (ih later).mono (subset_append_right (paths slot) _)
    rw [searchSlots, flatMap_cons]
    split
    case isTrue => exact onward faults
    case isFalse named =>
      rcases visits slot faults named with ⟨later, none⟩ | ⟨leaf, mem, there, answer, some, change⟩
      · rw [none]
        exact onward later
      · rw [some]
        exact .inr ⟨leaf, mem_append_left _ mem, there, answer, rfl, change⟩

variable (scans : ∀ path faults, fs.blockAt inode path ≠ 0 →
      Ends fs inode changes [path] (scan (fs.blockAt inode path) (fs.withFaults faults)))

include scans

theorem search_ends {level : Nat} (below : path ≠ []) (there : fs.blockAt inode path ≠ 0) (faults : List Bool) :
    Ends fs inode changes (pathsUnder fs.entriesPerBlock level path) (search scan level (fs.blockAt inode path) (fs.withFaults faults)) := by
  induction level generalizing path faults with
  | zero => exact scans path faults there
  | succ level ih =>
    have content : ∀ slot, fs.blockAt inode (slot :: path) = fs.words (fs.blockAt inode path) slot :=
      blockAt_cons ((reach_iff below there).mpr rfl)
    rw [search]
    obtain ⟨later, failed | ⟨_, read⟩⟩ := readWords_cases (fs.withFaults faults) (fs.blockAt inode path)
    · rw [failed]
      exact .inl ⟨later, rfl⟩
    · rw [read]
      refine searchSlots_ends (fun slot faults named => ?_) (range fs.entriesPerBlock) later
      change fs.words (fs.blockAt inode path) slot ≠ 0 at named
      change Ends fs inode changes _ (search scan level (fs.words (fs.blockAt inode path) slot) _)
      rw [← content] at named ⊢
      exact ih (cons_ne_nil _ _) named faults

theorem searchInode_ends : Ends fs inode changes (leafPaths fs.entriesPerBlock) (searchInode scan inode fs) := by
  refine searchSlots_ends (fun root faults named => ?_) (range 15) fs.faults
  rw [← blockAt_root fs] at named ⊢
  exact search_ends scans (cons_ne_nil _ _) named faults

end

end RosKernel.Ext2
