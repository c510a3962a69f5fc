import RosKernel.Filesys.InodeCache
import RosKernel.Process.FileRuns

/-! How files are torn down: `VFSManager::Open` and `Close`, the drivers' `Close` and the calls that make, share and
give up descriptors.

The descriptors, the counts of the files and the shared memory regions are those of `Process.Files`; here are the inodes
and pipe buffers behind them. Addresses are not used again. `faulted` says that something was used, or deleted, after it was
deleted, and a step that does not return has no successor.
-/

set_option autoImplicit false

namespace RosKernel.Filesys

open Library Process
open Function (update)

/-- `FSOwner` of an inode. -/
inductive NodeOwner where
  | mounted (fs : MountedFs)
  | pipe
  | socket
deriving DecidableEq

structure FileNode where
  inodeId : Nat
  owner : Option NodeOwner
  refCount : Int

def FileNode.key (node : FileNode) : Option NodeOwner × Nat := (node.owner, node.inodeId)

def maxNamedPipes : Nat := 50

def pipeNameSize : Nat := 64

/-- What a path resolves to: an inode number of a mounted file system (0 when there is none) with the size that
`PopulateInode` reads, or the name of a pipe. -/
inductive OpenPath where
  | mounted (fs : MountedFs) (inodeNum : Nat) (size : Option Nat)
  | pipe (name : String)

/-- One call of `VFSManager::Open`. -/
structure OpenTry where
  path : Option OpenPath
  fileName : String
  create : Bool
  nodeMemory : Bool
  fileMemory : Bool

structure FileWorld where
  calls : FileState
  nodeOf : FileId → Nat
  nodes : Nat → Option FileNode
  nextNode : Nat
  cache : List (Option Nat)
  buffers : Nat → Bool
  nextBuffer : Nat
  named : List (Option Nat)
  names : Nat → String
  regionNode : Nat → Nat
  locked : Bool
  /-- The pipe buffer that an inode was made for. -/
  bufferOf : Nat → Option Nat
  closes : FileId → Nat
  deletes : FileId → Nat
  faulted : Bool

inductive FileOp where
  | open (pid : Nat) (first : OpenTry) (again : Option OpenTry)
  | socket (pid : Nat) (inet : Bool) (node : Nat) (type : FileType) (privateData : Nat) (allocated : Bool)
  | pipe (pid : Nat) (newOk copied : Bool)
  | shmOpen (pid : Nat) (name : String) (size : UInt64) (phys : Nat) (create newOk : Bool)
  | dup2 (pid : Nat) (oldFd newFd : UInt64)
  | fork (pid : Nat) (taskOk stackOk cloneOk : Bool) (newOk : Nat → Bool)
  | close (pid : Nat) (fd : UInt64)
  | destroyTask (pid : Nat)
  | transfer (pid : Nat) (fd : UInt64)

namespace FileWorld

def key (world : FileWorld) (ptr : Nat) : Option (Option NodeOwner × Nat) := (world.nodes ptr).map FileNode.key

variable (world : FileWorld)

def check (ok : Bool) : FileWorld := { world with faulted := world.faulted || !ok }

def useFile (id : FileId) : FileWorld := world.check (world.calls.live id)

def useNode (ptr : Nat) : FileWorld := world.check (world.nodes ptr).isSome

def useBuffer (buf : Nat) : FileWorld := world.check (world.buffers buf)

/-- A scan of the cache reads every inode up to the one it looks for. -/
def scanCache (k : Option NodeOwner × Nat) : FileWorld :=
  world.check ((world.cache.takeWhile fun slot => !KeyedSlots.holds world.key k slot).all fun slot =>
    slot.all fun ptr => (world.nodes ptr).isSome)

def addRef (ptr : Nat) (change : Int) : FileWorld := { world with
  nodes := update world.nodes ptr
    ((world.nodes ptr).map fun node => { node with refCount := node.refCount + change }) }

def setOwner (ptr : Nat) (owner : NodeOwner) : FileWorld := { world with
  nodes := update world.nodes ptr ((world.nodes ptr).map fun node => { node with owner := some owner }) }

/-- `new Inode`; not every inode goes into the cache. -/
def newNode (node : FileNode) (cached : Bool) : FileWorld := { world with
  nodes := update world.nodes world.nextNode (some node)
  nextNode := world.nextNode + 1
  cache := if cached then KeyedSlots.insert world.cache world.nextNode else world.cache
  bufferOf := update world.bufferOf world.nextNode (if node.owner = some .pipe then some node.inodeId else none) }

def newFile (world : FileWorld) (file : Process.File) (ptr : Nat) : FileWorld := { world with
  calls := world.calls.newFile file
  nodeOf := update world.nodeOf world.calls.nextFile ptr }

def deleteFile (id : FileId) : FileWorld := { world.useFile id with
  calls := { world.calls with live := update world.calls.live id false }
  deletes := update world.deletes id (world.deletes id + 1) }

/-- The end of `PipeFileSystem::Close`: the last close deletes the buffer. -/
def closePipe (node : FileNode) : FileWorld :=
  let used := world.useBuffer node.inodeId
  if node.refCount = 1 then { used with
    named := KeyedSlots.remove some world.named node.inodeId
    buffers := update world.buffers node.inodeId false }
  else used

/-- The driver's `Close`; the one of sockets deletes the file. -/
def closeDriver (id : FileId) : FileWorld :=
  match world.nodes (world.nodeOf id) with
  | none => world.useNode (world.nodeOf id)
  | some node =>
    let closed := { world with closes := update world.closes id (world.closes id + 1) }
    match node.owner with
    | none => world
    | some (.mounted _) => closed
    | some .pipe => closed.closePipe node
    | some .socket => closed.deleteFile id

def dropNode (ptr : Nat) (node : FileNode) : FileWorld := { world.scanCache node.key with
  nodes := update world.nodes ptr none
  cache := KeyedSlots.remove world.key world.cache node.key }

def releaseNode (id : FileId) : FileWorld :=
  let used := world.useFile id
  match world.nodes (world.nodeOf id) with
  | none => used.useNode (world.nodeOf id)
  | some node => if node.refCount - 1 ≤ 0 then used.dropNode (world.nodeOf id) node else used.addRef (world.nodeOf id) (-1)

/-- `SharedMemoryManager::Release`, which takes the place of a driver's `Close`. -/
def releaseRegion (id : FileId) (i : Nat) : FileWorld :=
  let released := (world.calls.regions i).release
  let closed := { world with
    calls := { world.calls with regions := update world.calls.regions i released.1 }
    closes := update world.closes id (world.closes id + 1) }
  if released.2.isSome then { closed.useNode (world.regionNode i) with nodes := update world.nodes (world.regionNode i) none }
  else closed

/-- `Close` after it has given a reference back. -/
def tearDown (id : FileId) : FileWorld :=
  let file := world.calls.files id
  if 0 < file.refCount then world
  else if file.type = .shm then (world.releaseRegion id file.privateData).deleteFile id
  else ((world.closeDriver id).releaseNode id).deleteFile id

def dropRef (id : FileId) : FileWorld := { world.useFile id with calls := world.calls.addRef id (-1) }

def vfsClose (id : FileId) : FileWorld := (world.dropRef id).tearDown id

/-- `CreateNamedPipe`; without an entry the buffer is lost. -/
def createNamedPipe (name : String) : FileWorld × Option Nat :=
  let made := { world with
    buffers := update world.buffers world.nextBuffer true
    nextBuffer := world.nextBuffer + 1 }
  if none ∈ world.named then
    ({ made with
      named := KeyedSlots.insert world.named world.nextBuffer
      names := update world.names world.nextBuffer name }, some world.nextBuffer)
  else (made, none)

def getNamedPipeBuffer (name : String) : Option Nat :=
  KeyedSlots.lookup (fun buf => some (world.names buf)) world.named name

/-- `Lookup`, then `CreateNode` if the flags say so. -/
def lookup (opened : OpenTry) : FileWorld × Option (NodeOwner × Nat) :=
  match opened.path with
  | none => (world, none)
  | some (.mounted fs inodeNum _) => (world, if inodeNum = 0 then none else some (.mounted fs, inodeNum))
  | some (.pipe name) =>
    if name = "" then (world, none)
    else
      match world.getNamedPipeBuffer name with
      | some buf => (world, some (.pipe, buf))
      | none =>
        if opened.create then
          let made := world.createNamedPipe name
          (made.1, made.2.map fun buf => (.pipe, buf))
        else (world, none)

/-- The new inode of `Open`. -/
def populated (opened : OpenTry) : NodeOwner × Nat → FileNode
  | (.mounted fs, inodeNum) =>
    let size := match opened.path with
      | some (.mounted _ _ size) => size
      | _ => none
    ⟨inodeNum, some (.mounted (populateInode fs inodeNum size).fsOwner), 1⟩
  | (owner, inodeNum) => ⟨inodeNum, some owner, 1⟩

/-- The end of `Open`: the inode is found or made. -/
def attachFile (opened : OpenTry) (ptr : Nat) : FileWorld × Option FileId :=
  if opened.fileMemory then (world.newFile ⟨.dir, opened.fileName, 1, 0, true⟩ ptr, some world.calls.nextFile)
  else (world.addRef ptr (-1), none)

/-- `Open`; none when it never returns. -/
def openPath (opened : OpenTry) : Option (FileWorld × Option FileId) :=
  if world.locked then none
  else
    let looked := world.lookup opened
    match looked.2 with
    | none => some (looked.1, none)
    | some (owner, inodeNum) =>
      let scanned := looked.1.scanCache (some owner, inodeNum)
      match KeyedSlots.lookup scanned.key scanned.cache (some owner, inodeNum) with
      | some ptr => some ((scanned.addRef ptr 1).attachFile opened ptr)
      | none =>
        if opened.nodeMemory then
          some ((scanned.newNode (populated opened (owner, inodeNum)) true).attachFile opened scanned.nextNode)
        -- `Open` returns with `g_VFSLock` still taken.
        else some ({ scanned with locked := true }, none)

def setTask (world : FileWorld) (pid : Nat) (task : Option Task) : FileWorld := { world with
  calls := world.calls.setTask pid task }

/-- `Sys_Open`; with `O_CREAT` a failed `Open` is tried again below new directories. -/
def sysOpen (pid : Nat) (first : OpenTry) (again : Option OpenTry) : Option FileWorld :=
  match world.calls.task pid with
  | none => some world
  | some task =>
    let tried := (world.openPath first).bind fun (opened, id) =>
      match id, again with
      | none, some again => opened.openPath again
      | _, _ => some (opened, id)
    tried.map fun (opened, id) =>
      match id with
      | none => opened
      | some id =>
        match task.fdTable.findIdx? Option.isNone with
        | none => opened.vfsClose id
        | some fd => opened.setTask pid (task.setDescriptor fd id)

/-- `Sys_Socket`. The constructor writes through a `Node` that nothing has set; `node`, `type` and `privateData` are what
the memory of the new file held. -/
def sysSocket (pid : Nat) (inet : Bool) (node : Nat) (type : FileType) (privateData : Nat) (allocated : Bool) :
    Option FileWorld :=
  match world.calls.task pid with
  | none => some world
  | some task =>
    if !inet then some world
    else
      match task.fdTable.findIdx? Option.isNone with
      | none => some world
      | some fd =>
        let owned := (world.useNode node).setOwner node .socket
        let id := world.calls.nextFile
        let made := owned.newFile ⟨type, "", 1, privateData, true⟩ node
        some (if allocated then made.setTask pid (task.setDescriptor fd id) else made.deleteFile id)

/-- `Sys_Pipe`; a failed copy deletes what was made without a `Close`. -/
def sysPipe (pid : Nat) (newOk copied : Bool) : Option FileWorld :=
  match world.calls.task pid with
  | none => none
  | some task =>
    match task.fdTable.findIdx? Option.isNone with
    | none => some world
    | some fdRead =>
      let readEnd := world.calls.nextFile
      let reading := task.setDescriptor fdRead (some readEnd)
      match reading.fdTable.findIdx? Option.isNone with
      | none => some world
      | some fdWrite =>
        if !newOk then none
        else
          let buf := world.nextBuffer
          let ptr := world.nextNode
          let buffered := { world with
            buffers := update world.buffers buf true
            nextBuffer := buf + 1 }
          let noded := buffered.newNode ⟨buf, some .pipe, 2⟩ false
          let made := (noded.newFile ⟨.pipe, "anon_pipe_r", 1, 0, true⟩ ptr).newFile ⟨.pipe, "anon_pipe_w", 1, 0, true⟩ ptr
          some (if copied then made.setTask pid (reading.setDescriptor fdWrite (some (readEnd + 1)))
            else
              let dropped := (made.deleteFile readEnd).deleteFile (readEnd + 1)
              { dropped with
                nodes := update dropped.nodes ptr none
                buffers := update dropped.buffers buf false })

/-- What `Sys_Close` and `Sys_Dup2` do to the file of a descriptor they clear. -/
def closeDescriptor (id : FileId) : FileWorld :=
  let used := world.useFile id
  let counted := if 0 < (used.calls.files id).refCount then used.dropRef id else used
  if (counted.calls.files id).refCount = 0 then counted.vfsClose id else counted

def clearDescriptor : Option FileId → FileWorld
  | none => world
  | some closing => world.closeDescriptor closing

/-- What `DestroyTask` does to the file of a descriptor. -/
def dropDescriptor : Option FileId → FileWorld
  | none => world
  | some id =>
    let counted := world.dropRef id
    if (counted.calls.files id).refCount ≤ 0 then counted.vfsClose id else counted

def retainDescriptor : Option FileId → FileWorld
  | none => world
  | some id => { world.useFile id with calls := world.calls.addRef id 1 }

def sysClose (pid fd : Nat) : Option FileWorld :=
  match world.calls.task pid with
  | none => some world
  | some task =>
    match task.descriptor fd with
    | none => some world
    | some id => some ((world.closeDescriptor id).setTask pid (task.setDescriptor fd none))

def sysDup2 (pid oldFd newFd : Nat) : Option FileWorld :=
  match world.calls.task pid with
  | none => some world
  | some task =>
    if maxFileInProcess ≤ newFd ∨ oldFd = newFd then some world
    else
      match task.descriptor oldFd with
      | none => some world
      | some id =>
        let closed := world.clearDescriptor (task.descriptor newFd)
        some ((closed.setTask pid (task.setDescriptor newFd id)).retainDescriptor id)

/-- The first retry of `Sys_ShmOpen`: descriptors whose file has no references left are closed. -/
def closeStale (world : FileWorld) : List (Option FileId) → FileWorld × List (Option FileId)
  | [] => (world, [])
  | none :: rest =>
    let (world, rest) := world.closeStale rest
    (world, none :: rest)
  | some id :: rest =>
    let world := world.useFile id
    if (world.calls.files id).refCount ≤ 0 then
      let (world, rest) := (world.vfsClose id).closeStale rest
      (world, none :: rest)
    else
      let (world, rest) := world.closeStale rest
      (world, some id :: rest)

theorem closeStale_length (fdTable : List (Option FileId)) :
    (world.closeStale fdTable).2.length = fdTable.length := by
  induction fdTable generalizing world with
  | nil => rfl
  | cons descriptor rest ih =>
    cases descriptor with
    | none => exact congrArg (· + 1) (ih world)
    | some id =>
      simp only [closeStale]
      split
      · exact congrArg (· + 1) (ih _)
      · exact congrArg (· + 1) (ih _)

/-- The descriptor that `Sys_ShmOpen` finds for its file; without one the file is deleted and its region not released. -/
def placeShm (pid : Nat) (task : Task) (id : FileId) : FileWorld :=
  match task.fdTable.findIdx? Option.isNone with
  | some fd => world.setTask pid (task.setDescriptor fd id)
  | none =>
    let cleared := world.closeStale task.fdTable
    let world := cleared.1
    let task := { task with
      fdTable := cleared.2
      slots := (closeStale_length _ _).trans task.slots }
    match task.fdTable.findIdx? Option.isNone with
    | some fd => world.setTask pid (task.setDescriptor fd id)
    | none =>
      match (List.range' 3 (maxFileInProcess - 3)).find? fun fd =>
          (task.descriptor fd).any fun other => (world.calls.files other).refCount == 1 with
      | some fd =>
        let closed := match task.descriptor fd with
          | none => world
          | some other => world.vfsClose other
        closed.setTask pid (task.setDescriptor fd id)
      | none => (world.deleteFile id).setTask pid task

/-- `Sys_ShmOpen`; a new region gets an inode. -/
def sysShmOpen (pid : Nat) (name : String) (size phys : Nat) (create newOk : Bool) : Option FileWorld :=
  match world.calls.task pid with
  | none => some world
  | some task =>
    match shmOpen world.calls.regions name size phys create with
    | none => some world
    | some (region, regions) =>
      if !newOk then none
      else
        let counted := { world with calls := { world.calls with regions } }
        let opened := if (world.calls.regions region).used then counted
          else { counted with
            nodes := update world.nodes world.nextNode (some ⟨region, none, 0⟩)
            nextNode := world.nextNode + 1
            regionNode := update world.regionNode region world.nextNode }
        let made := opened.newFile ⟨.shm, (regions region).name, 1, region, false⟩ (opened.regionNode region)
        some (made.placeShm pid task world.calls.nextFile)

/-- `Sys_Fork`; the descriptors of the child are counted first. -/
def sysFork (world : FileWorld) (pid : Nat) (taskOk stackOk cloneOk : Bool) (newOk : Nat → Bool) : Option FileWorld :=
  match world.calls.task pid with
  | none => some world
  | some task =>
    let used := if taskOk then task.fdTable.foldl retainDescriptor world else world
    (world.calls.sysFork pid taskOk stackOk cloneOk newOk).map fun calls => { used with calls }

def destroyTask (pid : Nat) : Option FileWorld :=
  match world.calls.task pid with
  | none => some world
  | some task =>
    if pid < pidUserStart then some world
    else some (task.fdTable.foldl dropDescriptor (world.setTask pid none))

/-- What every call on a descriptor uses: the file, its inode, and the buffer of a pipe. -/
def transfer (pid fd : Nat) : Option FileWorld :=
  match world.calls.task pid with
  | none => some world
  | some task =>
    match task.descriptor fd with
    | none => some world
    | some id =>
      let used := (world.useFile id).useNode (world.nodeOf id)
      match world.nodes (world.nodeOf id) with
      | none => some used
      | some node => some (if node.owner = some .pipe then used.useBuffer node.inodeId else used)

def step : FileOp → Option FileWorld
  | .open pid first again => world.sysOpen pid first again
  | .socket pid inet node type privateData allocated => world.sysSocket pid inet node type privateData allocated
  | .pipe pid newOk copied => world.sysPipe pid newOk copied
  | .shmOpen pid name size phys create newOk => world.sysShmOpen pid name size.toNat phys create newOk
  | .dup2 pid oldFd newFd => world.sysDup2 pid oldFd.toNat newFd.toNat
  | .fork pid taskOk stackOk cloneOk newOk => world.sysFork pid taskOk stackOk cloneOk newOk
  | .close pid fd => world.sysClose pid fd.toNat
  | .destroyTask pid => world.destroyTask pid
  | .transfer pid fd => world.transfer pid fd.toNat

/-- What one `Open` must meet: the name of a new pipe fits its entry, and an inode is made under a key that no inode in the
cache has and, for a pipe, no inode at all. -/
def AdmitsOpen (opened : OpenTry) : Prop :=
  (∀ name, opened.path = some (.pipe name) → opened.create = true → name.utf8ByteSize < pipeNameSize) ∧
  ∀ owner inodeNum, (world.lookup opened).2 = some (owner, inodeNum) →
    KeyedSlots.lookup world.key world.cache (some owner, inodeNum) = none →
      KeyedSlots.lookup world.key world.cache (populated opened (owner, inodeNum)).key = none ∧
      (owner = .pipe → ∀ ptr node, world.nodes ptr = some node → node.owner = some .pipe → node.inodeId ≠ inodeNum)

/-- What a call must meet besides: no socket is made, a pipe's descriptors reach the user, a shared memory file finds a
descriptor, and a task that has descriptors is forked to the end. -/
def Admits : FileOp → Prop
  | .open _ first again => world.AdmitsOpen first ∧
    ∀ opened tried, world.openPath first = some (opened, none) → again = some tried → opened.AdmitsOpen tried
  | .socket pid inet _ _ _ _ => inet = true → ∀ task, world.calls.task pid = some task → none ∉ task.fdTable
  | .pipe _ _ copied => copied = true
  | .shmOpen pid name size phys create _ => ∀ task, world.calls.task pid = some task →
    (shmOpen world.calls.regions name size.toNat phys create).isSome → none ∈ task.fdTable ∨
      ∃ fd id, 3 ≤ fd ∧ task.descriptor fd = some id ∧ (world.calls.files id).refCount = 1
  | .fork pid taskOk stackOk cloneOk _ => taskOk = true → ∀ task, world.calls.task pid = some task →
    (stackOk = true ∧ cloneOk = true ∧ world.calls.freeSlot.isSome = true) ∨ ∀ entry ∈ task.fdTable, entry = none
  | .dup2 _ _ _ | .close _ _ | .destroyTask _ | .transfer _ _ => True

/-- A descriptor of some task points to the file. -/
def Pointed (id : FileId) : Prop :=
  ∃ pid task fd, world.calls.task pid = some task ∧ task.descriptor fd = some id

/-- Nothing was used after it was deleted. A file that a descriptor points to is neither closed nor deleted, and one that none
points to any more was closed at its driver once and deleted once. Its inode is there while another file has it, and the buffer
of a pipe while its inode is. -/
structure TornDownOnce (world : FileWorld) : Prop where
  whole : world.faulted = false
  pointed : ∀ id, id < world.calls.nextFile → world.Pointed id →
    world.calls.live id = true ∧ world.closes id = 0 ∧ world.deletes id = 0
  torn : ∀ id, id < world.calls.nextFile → ¬ world.Pointed id →
    world.calls.live id = false ∧ world.closes id = 1 ∧ world.deletes id = 1
  inode : ∀ id, id < world.calls.nextFile →
    ((world.nodes (world.nodeOf id)).isSome ↔ ∃ other, world.calls.live other = true ∧ world.nodeOf other = world.nodeOf id)
  buffer : ∀ ptr node, world.nodes ptr = some node → node.owner = some .pipe → world.buffers node.inodeId = true
  bufferGone : ∀ ptr buf, world.bufferOf ptr = some buf → world.nodes ptr = none → world.buffers buf = false

/-- Tasks without descriptors or mapped files, and no region. -/
structure Booted (tasks : FileState) : Prop extends tasks.Booted where
  nextFile : tasks.nextFile = 0
  unused : ∀ i, (tasks.regions i).used = false

/-- Before any file is opened. -/
def initial (tasks : FileState) : FileWorld where
  calls := tasks
  nodeOf := fun _ => 0
  nodes := fun _ => none
  nextNode := 0
  cache := List.replicate maxVfsCachedInodes none
  buffers := fun _ => false
  nextBuffer := 0
  named := List.replicate maxNamedPipes none
  names := fun _ => ""
  regionNode := fun _ => 0
  locked := false
  bufferOf := fun _ => none
  closes := fun _ => 0
  deletes := fun _ => 0
  faulted := false

end FileWorld

end RosKernel.Filesys
