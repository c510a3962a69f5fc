import Mathlib.Data.Finset.Card
import RosKernel.Library.KeyedSlots
import RosKernel.Library.Runs

/-! The inode cache of `kernel/filesys/vfs/vfs.cpp`: the in-memory inodes behind open files.

What `Open` learns from elsewhere (what the path resolved to, what the driver read, whether
there was memory) is an argument of the call. A count stays below the number of files that
memory has room for, so it is a plain integer.
-/

set_option autoImplicit false

namespace RosKernel.Filesys

open Library Option
open Function (update update_apply update_of_ne update_self)

def maxVfsCachedInodes : Nat := 128

/-- A driver that numbers its files, such as EXT2; FAT32; or `RootFS` with the driver behind it. -/
inductive MountedFs where
  | driver (name : Nat)
  | fat32 (name : Nat)
  | rootFs (backend : Option Nat)
deriving DecidableEq

/-- The number that `Lookup` answers for a file, which is 0 if there is none. FAT32 answers with the
address of a node that it makes for the call. -/
def MountedFs.lookup (file address : Nat) : MountedFs → Nat
  | .fat32 _ => if file = 0 then 0 else address
  | .driver _ | .rootFs _ => file

structure VfsInode where
  inodeId : Nat
  fileSize : Nat
  fsOwner : MountedFs
  refCount : Int

def VfsInode.key (node : VfsInode) : MountedFs × Nat := (node.fsOwner, node.inodeId)

/-- A `File`; the file of the file system that `Open` resolved it to, and its number there, are kept beside it. -/
structure OpenFile where
  fs : MountedFs
  file : Nat
  inodeNum : Nat
  node : Nat
  refCount : Int

/-- The live inodes and files by their addresses, which are not used again. -/
structure Vfs where
  nodes : Nat → Option VfsInode
  nextNode : Nat
  cache : List (Option Nat)
  files : Nat → Option OpenFile
  nextFile : Nat
  locked : Bool

inductive VfsOp where
  | open (fs : MountedFs) (file address : Nat) (size : Option Nat) (nodeMemory fileMemory : Bool)
  | retain (id : Nat)
  | close (id : Nat)

/-- Whom `PopulateInode` names as the owner; a root hands all but its own inode to the driver. -/
def populatedOwner : MountedFs → Nat → MountedFs
  | .rootFs (some backend), inodeNum => if inodeNum = 1 then .rootFs (some backend) else .driver backend
  | fs, _ => fs

/-- The file that a number of a file system stands for, by the driver that has it. -/
def MountedFs.home (fs : MountedFs) (file : Nat) : MountedFs × Nat := (populatedOwner fs file, file)

def OpenFile.home (file : OpenFile) : MountedFs × Nat := file.fs.home file.file

/-- The new inode of `Open`; a driver that fails leaves it as `Open` made it. -/
def populateInode (fs : MountedFs) (inodeNum : Nat) : Option Nat → VfsInode
  | some size => ⟨inodeNum, size, populatedOwner fs inodeNum, 1⟩
  | none => ⟨inodeNum, 0, fs, 1⟩

namespace Vfs

def initial : Vfs := ⟨fun _ => none, 0, List.replicate maxVfsCachedInodes none, fun _ => none, 0, false⟩

section

variable (vfs : Vfs)
include vfs

def key (ptr : Nat) : Option (MountedFs × Nat) := (vfs.nodes ptr).map VfsInode.key

def getCachedInode (fs : MountedFs) (inodeNum : Nat) : Option Nat :=
  KeyedSlots.lookup vfs.key vfs.cache (fs, inodeNum)

def addRef (ptr : Nat) (change : Int) : Vfs := { vfs with
  nodes := update vfs.nodes ptr
    ((vfs.nodes ptr).map fun node => { node with refCount := node.refCount + change }) }

def newNode (node : VfsInode) : Vfs := { vfs with
  nodes := update vfs.nodes vfs.nextNode (some node)
  nextNode := vfs.nextNode + 1
  cache := KeyedSlots.insert vfs.cache vfs.nextNode }

def addFile (file : OpenFile) : Vfs := { vfs with
  files := update vfs.files vfs.nextFile (some file)
  nextFile := vfs.nextFile + 1 }

def setFile (id : Nat) (file : Option OpenFile) : Vfs := { vfs with files := update vfs.files id file }

/-- The end of `Open`: the inode is found or made. -/
def newFile (fs : MountedFs) (file inodeNum ptr : Nat) (memory : Bool) : Vfs :=
  if memory then vfs.addFile ⟨fs, file, inodeNum, ptr, 1⟩ else vfs.addRef ptr (-1)

/-- `Open` of what `Lookup` answered with; none when it never returns. -/
def openPath (fs : MountedFs) (file inodeNum : Nat) (size : Option Nat) (nodeMemory fileMemory : Bool) : Option Vfs :=
  if vfs.locked then none
  else if inodeNum = 0 then some vfs
  else
    match vfs.getCachedInode fs inodeNum with
    | some ptr => some ((vfs.addRef ptr 1).newFile fs file inodeNum ptr fileMemory)
    | none =>
      if nodeMemory then
        some ((vfs.newNode (populateInode fs inodeNum size)).newFile fs file inodeNum vfs.nextNode fileMemory)
      -- `Open` returns with `g_VFSLock` still taken.
      else some { vfs with locked := true }

def dropNode (ptr : Nat) (node : VfsInode) : Vfs := { vfs with
  nodes := update vfs.nodes ptr none
  cache := KeyedSlots.remove vfs.key vfs.cache node.key }

/-- `Close`; none when the file or its inode was deleted before. -/
def closeFile (id : Nat) : Option Vfs :=
  match vfs.files id with
  | none => none
  | some file =>
    if 0 < file.refCount - 1 then some (vfs.setFile id (some { file with refCount := file.refCount - 1 }))
    else
      match vfs.nodes file.node with
      | none => none
      | some node =>
        let closed := vfs.setFile id none
        some (if node.refCount - 1 ≤ 0 then closed.dropNode file.node node else closed.addRef file.node (-1))

def step : VfsOp → Option Vfs
  | .open fs file address size nodeMemory fileMemory => vfs.openPath fs file (fs.lookup file address) size nodeMemory fileMemory
  | .retain id => (vfs.files id).map fun file => vfs.setFile id (some { file with refCount := file.refCount + 1 })
  | .close id => vfs.closeFile id

end

def pointing (vfs : Vfs) (ptr : Nat) : Finset Nat :=
  (Finset.range vfs.nextFile).filter fun id => (vfs.files id).map OpenFile.node = some ptr

/-- Open files of one inode of a file system share a live inode, which counts them and is cached; the
open files of one file share an inode, and so its size and its lock. -/
structure Coherent (vfs : Vfs) : Prop where
  live : ∀ id file, vfs.files id = some file → (vfs.nodes file.node).isSome
  shared : ∀ a b file other, vfs.files a = some file → vfs.files b = some other →
    file.fs = other.fs → file.inodeNum = other.inodeNum → file.node = other.node
  one : ∀ a b file other, vfs.files a = some file → vfs.files b = some other → file.home = other.home → file.node = other.node
  counted : ∀ ptr node, vfs.nodes ptr = some node → node.refCount = (vfs.pointing ptr).card
  found : ∀ ptr node, vfs.nodes ptr = some node → vfs.getCachedInode node.fsOwner node.inodeId = some ptr

/-- The inode of each open file of this file has the owner and the number that `Open` looks for. -/
def Numbered (vfs : Vfs) (fs : MountedFs) (file inodeNum : Nat) : Prop :=
  ∀ id opened, vfs.files id = some opened → opened.home = fs.home file → vfs.key opened.node = some (fs, inodeNum)

/-- There is a place in the cache for a new inode: a slot is empty, no inode in it has the key that the driver
gives the new one, and no open file was resolved to the same inode. -/
structure Placeable (vfs : Vfs) (fs : MountedFs) (inodeNum : Nat) (size : Option Nat) : Prop where
  room : none ∈ vfs.cache
  unkeyed : vfs.getCachedInode (populateInode fs inodeNum size).fsOwner inodeNum = none
  unresolved : ∀ id file, vfs.files id = some file → file.fs = fs → file.inodeNum ≠ inodeNum

/-- What an `Open` of a file must meet: the driver numbers the file as it did for its open files, and an inode that
is made finds its place. -/
structure AdmitsOpen (vfs : Vfs) (fs : MountedFs) (file inodeNum : Nat) (size : Option Nat) (nodeMemory fileMemory : Bool) : Prop where
  numbered : (vfs.getCachedInode fs inodeNum).isSome ∨ nodeMemory = true → fileMemory = true → vfs.Numbered fs file inodeNum
  placeable : vfs.getCachedInode fs inodeNum = none → nodeMemory = true → vfs.Placeable fs inodeNum size

def Admits (vfs : Vfs) : VfsOp → Prop
  | .open fs file address size nodeMemory fileMemory => fs.lookup file address ≠ 0 →
      vfs.AdmitsOpen fs file (fs.lookup file address) size nodeMemory fileMemory
  | .retain _ | .close _ => True

/-- The owner of an inode is the file system that `Open` resolved, or the driver behind it. -/
def OwnedFor (owner fs : MountedFs) : Prop := owner = fs ∨ ∃ backend, fs = .rootFs (some backend) ∧ owner = .driver backend

/-- The invariant of the runs, but for the counts. -/
structure Placed (vfs : Vfs) : Prop where
  indexed : KeyedSlots.Indexed vfs.key vfs.cache
  nodeBound : ∀ ptr, (vfs.key ptr).isSome → ptr < vfs.nextNode
  fileBound : ∀ id file, vfs.files id = some file → id < vfs.nextFile
  owned : ∀ id file, vfs.files id = some file → ∃ owner, OwnedFor owner file.fs ∧ vfs.key file.node = some (owner, file.inodeNum)
  settled : ∀ id file ptr, vfs.files id = some file → vfs.key ptr = some (file.fs, file.inodeNum) → file.node = ptr
  shared : ∀ a b file other, vfs.files a = some file → vfs.files b = some other →
    file.fs = other.fs → file.inodeNum = other.inodeNum → file.node = other.node
  one : ∀ a b file other, vfs.files a = some file → vfs.files b = some other → file.home = other.home → file.node = other.node

/-- The counts, when the one of `ptr` is ahead by `ahead`. -/
def Counts (vfs : Vfs) (ptr : Nat) (ahead : Int) : Prop :=
  ∀ other node, vfs.nodes other = some node → node.refCount = (vfs.pointing other).card + if other = ptr then ahead else 0

structure Kept (vfs : Vfs) : Prop extends Placed vfs where
  counts : ∀ ptr, vfs.Counts ptr 0

variable {vfs : Vfs} {ptr id : Nat} {file : OpenFile} {node : VfsInode}

theorem nodes_addRef (change : Int) (other : Nat) : (vfs.addRef ptr change).nodes other =
    (vfs.nodes other).map fun node => { node with refCount := node.refCount + if other = ptr then change else 0 } := by
  unfold addRef
  by_cases eq : other = ptr
  · simp [eq]
  · cases hf : vfs.nodes other <;> simp [eq, hf]

theorem key_addRef (change : Int) : (vfs.addRef ptr change).key = vfs.key := by
  funext other
  unfold key
  rw [nodes_addRef]
  cases vfs.nodes other <;> rfl

theorem key_newNode : (vfs.newNode node).key = update vfs.key vfs.nextNode (some node.key) := by
  funext other
  by_cases eq : other = vfs.nextNode <;> simp [key, newNode, eq]

theorem key_dropNode : (vfs.dropNode ptr node).key = update vfs.key ptr none := by
  funext other
  by_cases eq : other = ptr <;> simp [key, dropNode, eq]

theorem key_of_node (hf : vfs.nodes ptr = some node) : vfs.key ptr = some node.key := congrArg (Option.map VfsInode.key) hf

theorem Placed.cached_iff (placed : vfs.Placed) {fs : MountedFs} {inodeNum : Nat} :
    vfs.getCachedInode fs inodeNum = some ptr ↔ vfs.key ptr = some (fs, inodeNum) := placed.indexed.lookup_iff

theorem Placed.uncached (placed : vfs.Placed) {fs : MountedFs} {inodeNum : Nat} (miss : vfs.getCachedInode fs inodeNum = none)
    (other : Nat) : vfs.key other ≠ some (fs, inodeNum) := by
  intro keyed
  exact nomatch miss.symm.trans (placed.cached_iff.mpr keyed)

section

variable (fs : MountedFs) (inodeNum : Nat) (size : Option Nat)
include fs inodeNum size

theorem ownedFor_populated : OwnedFor (populateInode fs inodeNum size).fsOwner fs := by
  cases size with
  | none => exact .inl rfl
  | some size =>
    cases fs with
    | driver name => exact .inl rfl
    | fat32 name => exact .inl rfl
    | rootFs backend =>
      cases backend with
      | none => exact .inl rfl
      | some backend =>
        by_cases root : inodeNum = 1
        · exact .inl (if_pos root)
        · exact .inr ⟨backend, rfl, if_neg root⟩

theorem populateInode_inodeId : (populateInode fs inodeNum size).inodeId = inodeNum := by
  cases size <;> rfl

theorem populateInode_key : (populateInode fs inodeNum size).key = ((populateInode fs inodeNum size).fsOwner, inodeNum) :=
  congrArg (Prod.mk _) (populateInode_inodeId fs inodeNum size)

theorem populateInode_refCount : (populateInode fs inodeNum size).refCount = 1 := by
  cases size <;> rfl

end

section

variable (placed : vfs.Placed)
include placed

theorem Placed.addRef (change : Int) : (vfs.addRef ptr change).Placed where
  indexed := (key_addRef change).symm ▸ placed.indexed
  nodeBound := (key_addRef change).symm ▸ placed.nodeBound
  fileBound := placed.fileBound
  owned := (key_addRef change).symm ▸ placed.owned
  settled := (key_addRef change).symm ▸ placed.settled
  shared := placed.shared
  one := placed.one

theorem Placed.setFile (hf : vfs.files id = some file) {after : Option OpenFile}
    (eq : ∀ now, after = some now → ∃ count, now = { file with refCount := count }) :
    (vfs.setFile id after).Placed := by
  have pre : ∀ at' now, (vfs.setFile id after).files at' = some now →
      ∃ file count, vfs.files at' = some file ∧ now = { file with refCount := count } := by
    intro at' now there
    by_cases h : at' = id
    · subst h
      obtain ⟨count, rfl⟩ := eq now (by simpa [setFile] using there)
      exact ⟨file, count, hf, rfl⟩
    · exact ⟨now, now.refCount, (update_of_ne h ..).symm.trans there, rfl⟩
  refine ⟨placed.indexed, placed.nodeBound, fun at' now there => ?_, fun at' now there => ?_,
    fun at' now ptr there keyed => ?_, fun a b now other first snd sameFs sameNum => ?_, fun a b now other first snd same => ?_⟩
  · obtain ⟨_, _, earlier, _⟩ := pre at' now there
    exact placed.fileBound at' _ earlier
  · obtain ⟨old, _, earlier, rfl⟩ := pre at' now there
    exact placed.owned at' old earlier
  · obtain ⟨old, _, earlier, rfl⟩ := pre at' now there
    exact placed.settled at' old ptr earlier keyed
  · obtain ⟨old, _, earlier, rfl⟩ := pre a now first
    obtain ⟨old', _, earlier', rfl⟩ := pre b other snd
    exact placed.shared a b old old' earlier earlier' sameFs sameNum
  · obtain ⟨old, _, earlier, rfl⟩ := pre a now first
    obtain ⟨old', _, earlier', rfl⟩ := pre b other snd
    exact placed.one a b old old' earlier earlier' same

theorem Placed.addFile {owner : MountedFs} (ownedFor : OwnedFor owner file.fs)
    (keyed : vfs.key file.node = some (owner, file.inodeNum))
    (settled : ∀ ptr, vfs.key ptr = some (file.fs, file.inodeNum) → file.node = ptr)
    (shared : ∀ id other, vfs.files id = some other → other.fs = file.fs → other.inodeNum = file.inodeNum → other.node = file.node)
    (one : ∀ id other, vfs.files id = some other → other.home = file.home → other.node = file.node) :
    (vfs.addFile file).Placed := by
  have pre : ∀ at' now, (vfs.addFile file).files at' = some now →
      at' = vfs.nextFile ∧ now = file ∨ at' ≠ vfs.nextFile ∧ vfs.files at' = some now := by
    intro at' now there
    by_cases h : at' = vfs.nextFile
    · exact .inl ⟨h, some.inj (there.symm.trans (h ▸ update_self ..))⟩
    · exact .inr ⟨h, (update_of_ne h ..).symm.trans there⟩
  refine ⟨placed.indexed, placed.nodeBound, fun at' now there => ?_, fun at' now there => ?_,
    fun at' now ptr there keyed => ?_, fun a b now other first snd sameFs sameNum => ?_, fun a b now other first snd same => ?_⟩
  · rcases pre at' now there with ⟨rfl, _⟩ | ⟨_, earlier⟩
    · exact Nat.lt_succ_self _
    · exact Nat.lt_succ_of_lt (placed.fileBound at' now earlier)
  · rcases pre at' now there with ⟨_, rfl⟩ | ⟨_, earlier⟩
    · exact ⟨owner, ownedFor, keyed⟩
    · exact placed.owned at' now earlier
  · rcases pre at' now there with ⟨_, rfl⟩ | ⟨_, earlier⟩
    · exact settled ptr keyed
    · exact placed.settled at' now ptr earlier keyed
  · rcases pre a now first with ⟨_, rfl⟩ | ⟨_, earlier⟩ <;> rcases pre b other snd with ⟨_, rfl⟩ | ⟨_, earlier'⟩
    · rfl
    · exact (shared b other earlier' sameFs.symm sameNum.symm).symm
    · exact shared a now earlier sameFs sameNum
    · exact placed.shared a b now other earlier earlier' sameFs sameNum
  · rcases pre a now first with ⟨_, rfl⟩ | ⟨_, earlier⟩ <;> rcases pre b other snd with ⟨_, rfl⟩ | ⟨_, earlier'⟩
    · rfl
    · exact (one b other earlier' same.symm).symm
    · exact one a now earlier same
    · exact placed.one a b now other earlier earlier' same

theorem Placed.newNode {fs : MountedFs} (ownedFor : OwnedFor node.fsOwner fs) (room : none ∈ vfs.cache)
    (miss : ∀ other, vfs.key other ≠ some node.key)
    (unresolved : ∀ id file, vfs.files id = some file → file.fs = fs → file.inodeNum ≠ node.inodeId) :
    (vfs.newNode node).Placed := by
  have unkeyed : vfs.key vfs.nextNode = none := by
    cases hf : vfs.key vfs.nextNode with
    | none => rfl
    | some _ => exact absurd (placed.nodeBound _ (hf ▸ rfl)) (Nat.lt_irrefl _)
  have old : ∀ other k, vfs.key other = some k → (vfs.newNode node).key other = some k := by
    intro other k keyed
    rw [key_newNode, update_of_ne, keyed]
    rintro rfl
    exact nomatch unkeyed.symm.trans keyed
  refine ⟨key_newNode ▸ placed.indexed.inserted room unkeyed miss, fun ptr keyed => ?_, placed.fileBound,
    fun id file hf => ?_, fun id file ptr hf keyed => ?_, placed.shared, placed.one⟩
  · rw [key_newNode, update_apply] at keyed
    split at keyed
    case isTrue eq => exact eq ▸ Nat.lt_succ_self _
    case isFalse => exact Nat.lt_succ_of_lt (placed.nodeBound ptr keyed)
  · obtain ⟨owner, theirs, keyed⟩ := placed.owned id file hf
    exact ⟨owner, theirs, old _ _ keyed⟩
  · rw [key_newNode, update_apply] at keyed
    split at keyed
    case isTrue =>
      -- No file was resolved to the key of the new inode.
      obtain ⟨sameFs, sameNum⟩ := Prod.mk.inj (some.inj keyed)
      rcases ownedFor with eq | ⟨backend, eq, behind⟩
      · exact absurd sameNum.symm (unresolved id file hf (sameFs.symm.trans eq))
      · obtain ⟨owner, theirs, held⟩ := placed.owned id file hf
        rcases theirs with rfl | ⟨_, root, _⟩
        · exact absurd (held.trans keyed.symm) (miss _)
        · exact nomatch (behind.symm.trans sameFs).trans root
    case isFalse => exact placed.settled id file ptr hf keyed

theorem Placed.dropNode (hf : vfs.nodes ptr = some node) (unused : ∀ id file, vfs.files id = some file → file.node ≠ ptr) :
    (vfs.dropNode ptr node).Placed := by
  refine ⟨key_dropNode ▸ placed.indexed.removed (key_of_node hf), fun other keyed => ?_, placed.fileBound,
    fun id file there => ?_, fun id file other there keyed => ?_, placed.shared, placed.one⟩
  · rw [key_dropNode, update_apply] at keyed
    split at keyed
    case isTrue => exact nomatch keyed
    case isFalse => exact placed.nodeBound other keyed
  · obtain ⟨owner, theirs, keyed⟩ := placed.owned id file there
    rw [key_dropNode, update_of_ne (unused id file there)]
    exact ⟨owner, theirs, keyed⟩
  · rw [key_dropNode, update_apply] at keyed
    split at keyed
    case isTrue => exact nomatch keyed
    case isFalse => exact placed.settled id file other there keyed

end

theorem Counts.counted (counts : vfs.Counts ptr 0) (other : Nat) : vfs.Counts other 0 := by
  intro at' node hf
  simpa using counts at' node hf

theorem Counts.addRef {ahead : Int} (counts : vfs.Counts ptr ahead) (change : Int) :
    (vfs.addRef ptr change).Counts ptr (ahead + change) := by
  intro other node hf
  rw [nodes_addRef] at hf
  obtain ⟨pre, there, rfl⟩ := Option.map_eq_some_iff.mp hf
  have count := counts other pre there
  change pre.refCount + (if other = ptr then change else 0) =
    ((vfs.pointing other).card : Int) + if other = ptr then ahead + change else 0
  split at count <;> split <;> omega

theorem mem_pointing : id ∈ vfs.pointing ptr ↔ id < vfs.nextFile ∧ (vfs.files id).map OpenFile.node = some ptr := by
  simp [pointing]

theorem pointing_addFile (other : Nat) : (vfs.addFile file).pointing other =
    if other = file.node then insert vfs.nextFile (vfs.pointing other) else vfs.pointing other := by
  ext id
  rcases Nat.lt_trichotomy id vfs.nextFile with below | rfl | above
  · have still : id < vfs.nextFile + 1 := Nat.lt_succ_of_lt below
    have ne := Nat.ne_of_lt below
    split <;> simp [mem_pointing, below, still, ne, Finset.mem_insert, addFile]
  · by_cases eq : other = file.node
    · simp [mem_pointing, eq, addFile]
    · simp [mem_pointing, eq, Ne.symm eq, addFile]
  · have beyond : ¬ id < vfs.nextFile + 1 := by omega
    have ne := Nat.ne_of_gt above
    split <;> simp [mem_pointing, beyond, ne, Nat.not_lt_of_gt above, addFile]

theorem Counts.addFile {ahead : Int} (counts : vfs.Counts file.node ahead) : (vfs.addFile file).Counts file.node (ahead - 1) := by
  intro other node hf
  have count := counts other node hf
  have out : vfs.nextFile ∉ vfs.pointing other := fun mem => Nat.lt_irrefl _ (mem_pointing.mp mem).1
  rw [pointing_addFile, count]
  split
  · grind
  · rfl

theorem Counts.setFile {ahead : Int} (counts : vfs.Counts ptr ahead) (hf : vfs.files id = some file) {after : OpenFile}
    (eq : after.node = file.node) : (vfs.setFile id (some after)).Counts ptr ahead := by
  have pointing : ∀ other, (vfs.setFile id (some after)).pointing other = vfs.pointing other := by
    intro other
    ext at'
    by_cases h : at' = id
    · simp [mem_pointing, Vfs.setFile, h, hf, eq]
    · simp [mem_pointing, Vfs.setFile, h]
  intro other node there
  rw [pointing]
  exact counts other node there

theorem Counts.dropFile {ahead : Int} (counts : vfs.Counts file.node ahead) (hf : vfs.files id = some file)
    (below : id < vfs.nextFile) : (vfs.setFile id none).Counts file.node (ahead + 1) := by
  have pointing : ∀ other, (vfs.setFile id none).pointing other = (vfs.pointing other).erase id := by
    intro other
    ext at'
    by_cases h : at' = id
    · simp [mem_pointing, Vfs.setFile, h]
    · simp [mem_pointing, Vfs.setFile, h]
  intro other node there
  have count := counts other node there
  rw [pointing, count]
  split
  case isTrue eq =>
    have mem : id ∈ vfs.pointing other := mem_pointing.mpr ⟨below, by rw [hf, eq]; rfl⟩
    have card := Finset.card_erase_add_one mem
    omega
  case isFalse ne =>
    have out : id ∉ vfs.pointing other := by
      intro mem
      have points := (mem_pointing.mp mem).2
      rw [hf] at points
      exact ne (some.inj points).symm
    rw [Finset.erase_eq_of_notMem out]

theorem Counts.newNode (counts : vfs.Counts ptr 0) (placed : vfs.Placed) (first : node.refCount = 1) :
    (vfs.newNode node).Counts vfs.nextNode 1 := by
  intro other now hf
  by_cases eq : other = vfs.nextNode
  · have new : node = now := by simpa [Vfs.newNode, eq] using hf
    have nobody : vfs.pointing other = ∅ := by
      refine Finset.eq_empty_of_forall_notMem fun id mem => ?_
      obtain ⟨file, there, points⟩ := Option.map_eq_some_iff.mp (mem_pointing.mp mem).2
      obtain ⟨_, _, keyed⟩ := placed.owned id file there
      have below := placed.nodeBound file.node (keyed ▸ rfl)
      omega
    change now.refCount = ((vfs.pointing other).card : Int) + _
    rw [nobody, if_pos eq, ← new, first]
    rfl
  · have old : vfs.nodes other = some now := by simpa [Vfs.newNode, eq] using hf
    have count := counts.counted other other now old
    rw [if_neg eq]
    exact count.trans (by simp; rfl)

theorem Counts.dropNode (counts : vfs.Counts ptr 1) : (vfs.dropNode ptr node).Counts ptr 0 := by
  intro other now hf
  by_cases eq : other = ptr
  · exact nomatch hf.symm.trans ((congrArg _ eq).trans (update_self ..))
  · have old : vfs.nodes other = some now := by simpa [Vfs.dropNode, eq] using hf
    have count := counts other now old
    rw [if_neg eq] at count ⊢
    exact count

theorem Kept.coherent (kept : vfs.Kept) : vfs.Coherent where
  live := fun id file found => by
    obtain ⟨_, _, keyed⟩ := kept.owned id file found
    obtain ⟨_, there, _⟩ := Option.map_eq_some_iff.mp keyed
    exact there ▸ rfl
  shared := kept.shared
  one := kept.one
  counted := fun ptr node found => by simpa using kept.counts ptr ptr node found
  found := fun _ _ found => kept.cached_iff.mpr (key_of_node found)

theorem kept_initial : initial.Kept where
  indexed := ⟨fun _ => by simp [initial, key], fun i j obj there => by simp [initial, List.getElem?_replicate] at there,
    fun _ _ _ there => nomatch there⟩
  nodeBound := fun _ there => nomatch there
  fileBound := fun _ _ there => nomatch there
  owned := fun _ _ there => nomatch there
  settled := fun _ _ _ there => nomatch there
  shared := fun _ _ _ _ there => nomatch there
  one := fun _ _ _ _ there => nomatch there
  counts := fun _ _ _ there => nomatch there

theorem Kept.newFile (placed : vfs.Placed) {fs : MountedFs} {file inodeNum : Nat} {owner : MountedFs} {memory : Bool}
    (counts : vfs.Counts ptr 1) (ownedFor : OwnedFor owner fs) (keyed : vfs.key ptr = some (owner, inodeNum))
    (settled : ∀ other, vfs.key other = some (fs, inodeNum) → ptr = other)
    (shared : ∀ id other, vfs.files id = some other → other.fs = fs → other.inodeNum = inodeNum → other.node = ptr)
    (one : memory = true → ∀ id other, vfs.files id = some other → other.home = fs.home file → other.node = ptr) :
    (vfs.newFile fs file inodeNum ptr memory).Kept := by
  unfold Vfs.newFile
  split
  case isTrue memory =>
    have opened : Counts vfs (OpenFile.node ⟨fs, file, inodeNum, ptr, 1⟩) 1 := counts
    exact ⟨placed.addFile ownedFor keyed settled shared (one memory), opened.addFile.counted⟩
  case isFalse => exact ⟨placed.addRef (-1), (counts.addRef (-1)).counted⟩

theorem Kept.openPath (kept : vfs.Kept) {fs : MountedFs} {file inodeNum : Nat} {size : Option Nat} {nodeMemory fileMemory : Bool}
    (admits : inodeNum ≠ 0 → vfs.AdmitsOpen fs file inodeNum size nodeMemory fileMemory) {after : Vfs}
    (opened : vfs.openPath fs file inodeNum size nodeMemory fileMemory = some after) : after.Kept := by
  unfold Vfs.openPath at opened
  split at opened
  case isTrue => cases opened
  case isFalse =>
  split at opened
  case isTrue => exact some.inj opened ▸ kept
  case isFalse nz =>
  obtain ⟨numbered, placeable⟩ := admits nz
  cases cached : vfs.getCachedInode fs inodeNum with
  | some ptr =>
    rw [cached] at opened
    cases opened
    have keyed := kept.cached_iff.mp cached
    refine Kept.newFile (kept.toPlaced.addRef 1) ((kept.counts ptr).addRef 1) (.inl rfl)
      ((congrFun (key_addRef 1) ptr).trans keyed) (fun other theirs => ?_) (fun id other hf sameFs sameNum => ?_)
      fun memory id other hf same => ?_
    · exact kept.indexed.distinct ptr other _ keyed ((congrFun (key_addRef 1) other).symm.trans theirs)
    · exact kept.settled id other ptr hf (sameFs ▸ sameNum ▸ keyed)
    · exact kept.indexed.distinct _ _ _ (numbered (.inl (cached ▸ rfl)) memory id other hf same) keyed
  | none =>
    rw [cached] at opened
    dsimp only at opened
    split at opened
    case isFalse =>
      cases opened
      exact ⟨⟨kept.indexed, kept.nodeBound, kept.fileBound, kept.owned, kept.settled, kept.shared, kept.one⟩, kept.counts⟩
    case isTrue memory =>
      cases opened
      obtain ⟨room, miss, unresolved⟩ := placeable cached memory
      have key := populateInode_key fs inodeNum size
      have placed : (vfs.newNode (populateInode fs inodeNum size)).Placed :=
        kept.toPlaced.newNode (ownedFor_populated fs inodeNum size) room (fun other => key ▸ kept.uncached miss other)
          fun id file hf sameFs => by rw [populateInode_inodeId]; exact unresolved id file hf sameFs
      refine Kept.newFile placed ((kept.counts 0).newNode kept.toPlaced (populateInode_refCount fs inodeNum size))
        (ownedFor_populated fs inodeNum size) ?_ (fun other theirs => ?_) (fun id other hf sameFs sameNum => ?_)
        fun fileMemory id other hf same => ?_
      · rw [key_newNode, update_self, populateInode_key]
      · rw [key_newNode, update_apply] at theirs
        split at theirs
        case isTrue eq => exact eq.symm
        case isFalse => exact absurd theirs (kept.uncached cached other)
      · exact absurd sameNum (unresolved id other hf sameFs)
      · exact absurd (numbered (.inr memory) fileMemory id other hf same) (kept.uncached cached other.node)

theorem Kept.closeFile (kept : vfs.Kept) {after : Vfs} (closed : vfs.closeFile id = some after) : after.Kept := by
  unfold Vfs.closeFile at closed
  cases hf : vfs.files id with
  | none =>
    rw [hf] at closed
    exact nomatch closed
  | some file =>
    rw [hf] at closed
    dsimp only at closed
    split at closed
    case isTrue =>
      cases closed
      refine ⟨kept.toPlaced.setFile hf ?_, fun ptr => (kept.counts ptr).setFile hf rfl⟩
      rintro _ ⟨⟩
      exact ⟨_, rfl⟩
    case isFalse =>
      have dropped : (vfs.setFile id none).Placed := kept.toPlaced.setFile hf nofun
      have counts := (kept.counts file.node).dropFile hf (kept.fileBound id file hf)
      cases there : vfs.nodes file.node with
      | none =>
        rw [there] at closed
        exact nomatch closed
      | some node =>
        rw [there] at closed
        cases closed
        split
        case isTrue last =>
          refine ⟨dropped.dropNode there fun other file' hf' eq => ?_, (Counts.dropNode counts).counted⟩
          have count := counts file.node node there
          have mem : other ∈ (vfs.setFile id none).pointing file.node :=
            mem_pointing.mpr ⟨dropped.fileBound other file' hf', by rw [hf', ← eq]; rfl⟩
          have pos := Finset.card_pos.mpr ⟨other, mem⟩
          omega
        case isFalse => exact ⟨dropped.addRef (-1), (counts.addRef (-1)).counted⟩

theorem Kept.step (kept : vfs.Kept) (op : VfsOp) (admits : vfs.Admits op) {after : Vfs} (hs : vfs.step op = some after) :
    after.Kept := by
  cases op with
  | «open» fs file address size nodeMemory fileMemory => exact kept.openPath admits hs
  | retain id =>
    obtain ⟨file, hf, rfl⟩ := Option.map_eq_some_iff.mp hs
    refine ⟨kept.toPlaced.setFile hf ?_, fun ptr => (kept.counts ptr).setFile hf rfl⟩
    rintro _ ⟨⟩
    exact ⟨_, rfl⟩
  | close id => exact kept.closeFile hs

theorem Kept.admits (kept : vfs.Kept) {fs : MountedFs} {file inodeNum : Nat} {size : Option Nat} {after : Vfs} (nz : inodeNum ≠ 0)
    (opened : vfs.openPath fs file inodeNum size true true = some after) (coherent : after.Coherent) :
    vfs.AdmitsOpen fs file inodeNum size true true := by
  have unlocked : vfs.locked = false := by
    cases locked : vfs.locked with
    | true => exact nomatch (show none = some after from (if_pos locked).symm.trans opened)
    | false => rfl
  have ne : ∀ id opened, vfs.files id = some opened → id ≠ vfs.nextFile := fun id opened hf => Nat.ne_of_lt (kept.fileBound id opened hf)
  cases cached : vfs.getCachedInode fs inodeNum with
  | some ptr =>
    have made : (vfs.addRef ptr 1).addFile ⟨fs, file, inodeNum, ptr, 1⟩ = after := by
      simpa [Vfs.openPath, unlocked, nz, cached, Vfs.newFile] using opened
    subst made
    refine ⟨fun _ _ id other hf same => ?_, fun miss => nomatch cached.symm.trans miss⟩
    have eq : other.node = ptr := coherent.one id vfs.nextFile other _ ((update_of_ne (ne id other hf) ..).trans hf) (update_self ..) same
    exact eq ▸ kept.cached_iff.mp cached
  | none =>
    have made : (vfs.newNode (populateInode fs inodeNum size)).addFile ⟨fs, file, inodeNum, vfs.nextNode, 1⟩ = after := by
      simpa [Vfs.openPath, unlocked, nz, cached, Vfs.newFile] using opened
    subst made
    have new := coherent.found vfs.nextNode _ (update_self ..)
    have unkeyed : vfs.key vfs.nextNode = none := by
      cases hf : vfs.key vfs.nextNode with
      | none => rfl
      | some _ => exact absurd (kept.nodeBound _ (hf ▸ rfl)) (Nat.lt_irrefl _)
    -- an open file has another inode than the new one
    have apart : ∀ id other, vfs.files id = some other → other.node ≠ vfs.nextNode := by
      intro id other hf eq
      obtain ⟨_, _, keyed⟩ := kept.owned id other hf
      rw [eq, unkeyed] at keyed
      cases keyed
    refine ⟨fun _ _ id other hf same => ?_, fun _ _ => ⟨?_, ?_, fun id other hf sameFs sameNum => ?_⟩⟩
    · exact absurd (coherent.one id vfs.nextFile other _ ((update_of_ne (ne id other hf) ..).trans hf) (update_self ..) same)
        (apart id other hf)
    · by_contra full
      have mem := (KeyedSlots.lookup_eq_some new).1
      change some vfs.nextNode ∈ KeyedSlots.insert vfs.cache vfs.nextNode at mem
      rw [KeyedSlots.insert_of_full full] at mem
      exact nomatch unkeyed ▸ (kept.indexed.held _).mp mem
    · cases hf : vfs.getCachedInode (populateInode fs inodeNum size).fsOwner inodeNum with
      | none => rfl
      | some other =>
        have keyed := kept.cached_iff.mp hf
        have ne : other ≠ vfs.nextNode := by
          rintro rfl
          exact nomatch unkeyed.symm.trans keyed
        obtain ⟨node, there, eq⟩ := Option.map_eq_some_iff.mp keyed
        obtain ⟨sameOwner, sameId⟩ := Prod.mk.inj eq
        have old := coherent.found other node ((update_of_ne ne ..).trans there)
        rw [populateInode_inodeId] at new
        rw [sameOwner, sameId, new] at old
        exact absurd (some.inj old).symm ne
    · exact apart id other hf (coherent.shared id vfs.nextFile other _ ((update_of_ne (ne id other hf) ..).trans hf) (update_self ..)
        sameFs sameNum)

/-- In every run whose steps the cache admits, open files and their inodes are coherent. -/
theorem reached_coherent {vfs : Vfs} (reached : Reaches step Admits initial vfs) : vfs.Coherent :=
  (reached.invariant Kept kept_initial fun _ op _ kept admits hs => kept.step op admits hs).coherent

/-- A file is opened through the root and through its driver, and the first is closed. -/
theorem reached_coherent_two : ∃ vfs, Reaches step Admits initial vfs ∧ (vfs.files 1).isSome ∧ vfs.Coherent := by
  let first : VfsOp := .open (.rootFs (some 0)) 12 0 (some 70) true true
  let snd : VfsOp := .open (.driver 0) 12 0 (some 70) true true
  have opened : Reaches step Admits initial _ :=
    Reaches.start.next first (fun _ => ⟨fun _ _ _ _ there => (nomatch there), fun _ _ => ⟨by decide, by decide, nofun⟩⟩) rfl
  have only : ∀ {vfs : Vfs} {file : OpenFile}, (∀ id, vfs.files id = if id = 0 then some file else none) →
      vfs.key file.node = some (.driver 0, 12) → vfs.Numbered (.driver 0) 12 12 := by
    intro vfs file files key id other hf _
    rw [files] at hf
    split at hf
    · cases hf
      exact key
    · cases hf
  have both : Reaches step Admits initial _ :=
    opened.next snd (fun _ => ⟨fun _ _ => only (fun id => update_apply ..) rfl, fun miss => nomatch miss⟩) rfl
  have closed := both.next (.close 0) (show Admits _ (.close 0) from trivial) rfl
  exact ⟨_, closed, rfl, reached_coherent closed⟩

/-- A file of the driver is opened through the root. -/
def rootOpen : VfsOp := .open (.rootFs (some 0)) 12 0 (some 70) true true

/-- A file of FAT32 is opened, and this is the address of the node that is made for it. -/
def fatOpen (address : Nat) : VfsOp := .open (.fat32 0) 5 address (some 70) true true

/-- Two opens of one file below the root, and two of one file of FAT32. -/
theorem root_opens_apart : (∃ vfs, (initial.step rootOpen).bind (step · rootOpen) = some vfs ∧ ¬ vfs.Coherent) ∧
    ∃ vfs, (initial.step (fatOpen 0x1000)).bind (step · (fatOpen 0x2000)) = some vfs ∧ ¬ vfs.Coherent := by
  constructor
  · refine ⟨_, rfl, fun coherent => ?_⟩
    exact absurd (coherent.shared 0 1 _ _ rfl rfl rfl rfl) (by decide)
  · refine ⟨_, rfl, fun coherent => ?_⟩
    exact absurd (coherent.one 0 1 _ _ rfl rfl rfl) (by decide)

end Vfs

end RosKernel.Filesys
