import RosKernel.Process.Mmap

/-! Open files, descriptors and the calls that share them between tasks.

Every `new File` gets a name of its own, and `live` says which files have not been
deleted. What the calls learn from elsewhere (whether memory was there, what the path
resolved to, where an image was loaded) is an argument of the call.
-/

set_option autoImplicit false

namespace RosKernel.Process

open Memory
open Function (update)

def maxTask : Nat := 256

structure Task where
  fdTable : List (Option FileId)
  slots : fdTable.length = maxFileInProcess
  space : AddressSpace
  deriving DecidableEq

/-- `TaskArray`, the files behind the descriptors and the shared memory regions. -/
structure FileState where
  tasks : List (Option Task)
  taskSlots : tasks.length = maxTask
  files : FileId → File
  live : FileId → Bool
  nextFile : FileId
  regions : Nat → ShmRegion
  framebuffer : Option Framebuffer

def pidUserStart : Nat := 10

def maxRegions : Nat := 64

def Task.descriptor (task : Task) (fd : Nat) : Option FileId := task.fdTable[fd]?.join

def Task.setDescriptor (task : Task) (fd : Nat) (file : Option FileId) : Task := { task with
  fdTable := task.fdTable.set fd file
  slots := List.length_set.trans task.slots }

variable (state : FileState)

def FileState.task (pid : Nat) : Option Task := state.tasks[pid]?.join

def FileState.setTask (pid : Nat) (task : Option Task) : FileState := { state with
  tasks := state.tasks.set pid task
  taskSlots := List.length_set.trans state.taskSlots }

def FileState.descriptors (task : Task) : Descriptors :=
  ⟨task.descriptor, state.files, state.regions, state.framebuffer⟩

def FileState.addRef (id : FileId) (change : Int) : FileState := { state with
  files := update state.files id
    { state.files id with refCount := (state.files id).refCount + change } }

/-- `SharedMemoryManager::Release`; the frames of a region that goes are returned too. -/
def ShmRegion.release (region : ShmRegion) : ShmRegion × Option (Nat × Nat) :=
  if !region.used then (region, none)
  else
    let refCount := (region.refCount + (2 ^ 32 - 1)) % 2 ^ 32
    if refCount = 0 then
      (⟨"", 0, region.sizeInPages, 0, false⟩, some (region.physAddr, region.sizeInPages))
    else ({ region with refCount := refCount }, none)

def FileState.vfsClose (id : FileId) : FileState :=
  let closing := state.addRef id (-1)
  let file := closing.files id
  if 0 < file.refCount then closing
  else
    let regions := if file.type = .shm then
        update closing.regions file.privateData (closing.regions file.privateData).release.1
      else closing.regions
    { closing with regions := regions, live := update closing.live id false }

/-- What `Sys_Close` and `Sys_Dup2` do to the file of a descriptor they clear. -/
def FileState.closeDescriptor (id : FileId) : FileState :=
  let state := if 0 < (state.files id).refCount then state.addRef id (-1) else state
  if (state.files id).refCount = 0 then state.vfsClose id else state

/-- What `DestroyTask` does to the file of a descriptor. -/
def FileState.dropDescriptor : Option FileId → FileState
  | none => state
  | some id =>
    let state := state.addRef id (-1)
    if (state.files id).refCount ≤ 0 then state.vfsClose id else state

def FileState.retainDescriptor : Option FileId → FileState
  | none => state
  | some id => state.addRef id 1

/-- The part of a memory call's effects that concerns files. -/
def FileState.applyEffect : MmEffect → FileState
  | .retain id => state.addRef id 1
  | .release id => state.addRef id (-1)
  | .unmapRange _ _ _ => state
  | .updateProt _ _ _ => state

def FileState.newFile (file : File) : FileState := { state with
  files := update state.files state.nextFile file
  live := update state.live state.nextFile true
  nextFile := state.nextFile + 1 }

/-- `Sys_Open`; `opened` is the path if the VFS finds or creates a file for it. -/
def FileState.sysOpen (pid : Nat) (opened : Option String) : Option FileState :=
  match state.task pid, opened with
  | some task, some fileName =>
    let id := state.nextFile
    let state := state.newFile ⟨.dir, fileName, 1, 0, true⟩
    match task.fdTable.findIdx? Option.isNone with
    | none => some (state.vfsClose id)
    | some fd => some (state.setTask pid (task.setDescriptor fd id))
  | _, _ => some state

def FileState.sysClose (pid fd : Nat) : Option FileState :=
  match state.task pid with
  | none => some state
  | some task =>
    match task.descriptor fd with
    | none => some state
    | some id => some ((state.closeDescriptor id).setTask pid (task.setDescriptor fd none))

def FileState.sysDup2 (pid oldFd newFd : Nat) : Option FileState :=
  match state.task pid with
  | none => some state
  | some task =>
    if maxFileInProcess ≤ newFd ∨ oldFd = newFd then some state
    else
      match task.descriptor oldFd with
      | none => some state
      | some id =>
        let state := match task.descriptor newFd with
          | none => state
          | some closing => state.closeDescriptor closing
        some ((state.setTask pid (task.setDescriptor newFd id)).addRef id 1)

/-- `SharedMemoryManager::Open`; `phys` is what the frame allocator returned. -/
def shmOpen (regions : Nat → ShmRegion) (name : String) (size phys : Nat) (createNew : Bool) :
    Option (Nat × (Nat → ShmRegion)) :=
  match (List.range maxRegions).find? fun i => (regions i).used && (regions i).name == name with
  | some i =>
    some (i, update regions i { regions i with refCount := ((regions i).refCount + 1) % 2 ^ 32 })
  | none =>
    if !createNew then none
    else
      match (List.range maxRegions).find? fun i => !(regions i).used with
      | none => none
      | some i =>
        if phys = 0 then none
        else
          some (i, update regions i ⟨name, phys, sub64 (add64 size pageSize) 1 / pageSize, 1, true⟩)

/-- The first retry of `Sys_ShmOpen` without a free slot: close descriptors whose file
has no references left. -/
def FileState.closeStale (state : FileState) : List (Option FileId) → FileState × List (Option FileId)
  | [] => (state, [])
  | none :: rest =>
    let (state, rest) := state.closeStale rest
    (state, none :: rest)
  | some id :: rest =>
    if (state.files id).refCount ≤ 0 then
      let (state, rest) := (state.vfsClose id).closeStale rest
      (state, none :: rest)
    else
      let (state, rest) := state.closeStale rest
      (state, some id :: rest)

theorem FileState.closeStale_length (fdTable : List (Option FileId)) :
    (state.closeStale fdTable).2.length = fdTable.length := by
  induction fdTable generalizing state with
  | nil => rfl
  | cons descriptor rest ih =>
    cases descriptor with
    | none => exact congrArg (· + 1) (ih state)
    | some id =>
      simp only [closeStale]
      split
      · exact congrArg (· + 1) (ih _)
      · exact congrArg (· + 1) (ih state)

/-- The descriptor that `Sys_ShmOpen` finds for its file. A full table is first cleared of
stale descriptors; then a slot whose file has one reference is taken over; else the new
file is deleted again. -/
def FileState.placeShm (pid : Nat) (task : Task) (id : FileId) : FileState :=
  match task.fdTable.findIdx? Option.isNone with
  | some fd => state.setTask pid (task.setDescriptor fd id)
  | none =>
    let cleared := state.closeStale task.fdTable
    let state := cleared.1
    let task := { task with
      fdTable := cleared.2
      slots := (FileState.closeStale_length _ _).trans task.slots }
    match task.fdTable.findIdx? Option.isNone with
    | some fd => state.setTask pid (task.setDescriptor fd id)
    | none =>
      match (List.range' 3 (maxFileInProcess - 3)).find? fun fd =>
          (task.descriptor fd).any fun other => (state.files other).refCount == 1 with
      | some fd =>
        let state := match task.descriptor fd with
          | none => state
          | some other => state.vfsClose other
        state.setTask pid (task.setDescriptor fd id)
      | none => { state with live := update state.live id false }.setTask pid task

/-- `Sys_ShmOpen`; the new file is written without a null check. -/
def FileState.sysShmOpen (pid : Nat) (name : String) (size phys : Nat) (create newOk : Bool) :
    Option FileState :=
  match state.task pid with
  | none => some state
  | some task =>
    match shmOpen state.regions name size phys create with
    | none => some state
    | some (region, regions) =>
      if !newOk then none
      else
        let opened := { state with regions := regions }.newFile ⟨.shm, (regions region).name, 1, region, false⟩
        some (opened.placeShm pid task state.nextFile)

/-- The memory calls: their effects on files, then the new list. -/
def FileState.runMm {Result : Type} (state : FileState) (pid : Nat) (task : Task)
    (returned : Option (Result × AddressSpace × List MmEffect)) : Option FileState :=
  returned.map fun (_, space, effects) =>
    (effects.foldl FileState.applyEffect state).setTask pid (some { task with space := space })

def FileState.sysMMap (state : FileState) (pid addr length prot flags fd offset : Nat) (newOk : Nat → Bool) :
    Option FileState :=
  match state.task pid with
  | none => some state
  | some task => state.runMm pid task
      (Process.sysMMap (state.descriptors task) task.space addr length prot flags fd offset newOk)

def AddressSpace.sysMunmap (space : AddressSpace) (addr length : Nat) (newOk : Nat → Bool) :
    Option (Except Int Unit × AddressSpace × List MmEffect) :=
  (munmap space.vmas addr length newOk).map fun (result, vmas, effects) =>
    (result, { space with vmas := vmas }, effects)

def AddressSpace.sysMprotect (space : AddressSpace) (addr len prot : Nat) (newOk : Nat → Bool) :
    Option (Except Int Unit × AddressSpace × List MmEffect) :=
  (mprotect space.vmas addr len prot newOk).map fun (result, vmas, effects) =>
    (result, { space with vmas := vmas }, effects)

def FileState.sysMunmap (state : FileState) (pid addr length : Nat) (newOk : Nat → Bool) : Option FileState :=
  match state.task pid with
  | none => some state
  | some task => state.runMm pid task (task.space.sysMunmap addr length newOk)

def FileState.sysMprotect (state : FileState) (pid addr len prot : Nat) (newOk : Nat → Bool) : Option FileState :=
  match state.task pid with
  | none => some state
  | some task => state.runMm pid task (task.space.sysMprotect addr len prot newOk)

/-- The slot that `SchedulerAddTask` takes for a new task. -/
def FileState.freeSlot : Option Nat :=
  (List.range' 1 (maxTask - 1)).find? fun pid => (state.task pid).isNone

/-- `Sys_Fork`. The child's descriptors are counted first and stay counted when a later
step fails; its areas are copied with their files and not counted. -/
def FileState.sysFork (pid : Nat) (taskOk stackOk cloneOk : Bool) (newOk : Nat → Bool) :
    Option FileState :=
  match state.task pid with
  | none => some state
  | some task =>
    if !taskOk then some state
    else
      let counted := task.fdTable.foldl FileState.retainDescriptor state
      if !stackOk || !cloneOk then some counted
      else if (List.range task.space.vmas.length).any fun i => !newOk i then none
      else
        match state.freeSlot with
        | none => some counted
        | some child => some (counted.setTask child task)

/-- `Sys_Execve`. The image's file is closed at its driver, which leaves the `File` behind.
`loaded` is the image's place if everything up to the new stack succeeds. -/
def FileState.sysExecve (pid : Nat) (opened : Option String) (loaded : Option (Nat × Nat))
    (newOk : Nat → Bool) : Option FileState :=
  match state.task pid, opened with
  | some task, some fileName =>
    let state := state.newFile ⟨.dir, fileName, 1, 0, true⟩
    match loaded with
    | none => some state
    | some (imageBase, imageEnd) =>
      some (state.setTask pid (some { task with space := execveSpace imageBase imageEnd newOk }))
  | _, _ => some state

def FileState.destroyTask (pid : Nat) : Option FileState :=
  match state.task pid with
  | none => some state
  | some task =>
    if pid < pidUserStart then some state
    else some (task.fdTable.foldl FileState.dropDescriptor (state.setTask pid none))

inductive FileCall where
  | open (pid : Nat) (opened : Option String)
  | shmOpen (pid : Nat) (name : String) (size : UInt64) (phys : Nat) (create newOk : Bool)
  | close (pid : Nat) (fd : UInt64)
  | dup2 (pid : Nat) (oldFd newFd : UInt64)
  | mmap (pid : Nat) (addr length prot flags fd offset : UInt64) (newOk : Nat → Bool)
  | munmap (pid : Nat) (addr length : UInt64) (newOk : Nat → Bool)
  | mprotect (pid : Nat) (addr len prot : UInt64) (newOk : Nat → Bool)
  | fork (pid : Nat) (taskOk stackOk cloneOk : Bool) (newOk : Nat → Bool)
  | execve (pid : Nat) (opened : Option String) (loaded : Option (Nat × Nat)) (newOk : Nat → Bool)
  | destroyTask (pid : Nat)

def FileState.step : FileCall → Option FileState
  | .open pid opened => state.sysOpen pid opened
  | .shmOpen pid name size phys create newOk => state.sysShmOpen pid name size.toNat phys create newOk
  | .close pid fd => state.sysClose pid fd.toNat
  | .dup2 pid oldFd newFd => state.sysDup2 pid oldFd.toNat newFd.toNat
  | .mmap pid addr length prot flags fd offset newOk =>
    state.sysMMap pid addr.toNat length.toNat prot.toNat flags.toNat fd.toNat offset.toNat newOk
  | .munmap pid addr length newOk => state.sysMunmap pid addr.toNat length.toNat newOk
  | .mprotect pid addr len prot newOk => state.sysMprotect pid addr.toNat len.toNat prot.toNat newOk
  | .fork pid taskOk stackOk cloneOk newOk => state.sysFork pid taskOk stackOk cloneOk newOk
  | .execve pid opened loaded newOk => state.sysExecve pid opened loaded newOk
  | .destroyTask pid => state.destroyTask pid

end RosKernel.Process
