import RosKernel.Tasking.Scheduler

/-! Creation, fork, exit and wait, process groups and priorities.

What a call learns from the memory manager is an argument. The open files and the address
space that a task has are not part of this table.
-/

set_option autoImplicit false

namespace RosKernel.Tasking

open Library Memory

/-- `(U64)-1`, the pid of a task without a slot and the result of a failed call. -/
def noPid : Nat := 2 ^ 64 - 1

/-- The tables as the kernel's image has them; no task has been created. -/
def powerOn (lapicHz : Nat) (cpu : Cpu) : Kernel where
  task := fun _ => default
  nextTask := 0
  fpuStorage := fun _ => 0
  tree := ⟨none, fun _ _ => none, fun _ => none, fun _ => false⟩
  cfsLeftmost := none
  minVRuntime := 0
  taskArray := fun _ => none
  currentTaskIndex := Process.maxTask
  sleepWheel := fun _ => none
  totalSleepingTasks := 0
  lastCheckedTick := 0
  lapicTicks := 0
  lapicHz := lapicHz
  cpu := cpu

/-- The fields that both constructors leave alike. -/
def constructed (id : TaskId) (pgid rsp cr3 vruntime : Nat) : Task where
  pid := noPid
  ppid := 0
  pgid := pgid
  pgidTaskPtr := none
  signals := 0
  rsp := rsp
  cr3 := cr3
  fpuRegion := some id
  niceValueOfThisGuy := 0
  state := .ready
  blockReason := 0
  sleepTick := 0
  nextWaitTask := none
  isSudoOrAdmin := false
  nextSleepQueue := none
  vruntime := vruntime
  weight := rateThisTaskNice 0

namespace Kernel

variable (kernel : Kernel)

def newTask (task : Task) (fpu : Nat) : Kernel := { kernel with
  task := Function.update kernel.task kernel.nextTask task
  fpuStorage := Function.update kernel.fpuStorage kernel.nextTask fpu
  nextTask := kernel.nextTask + 1 }

/-- `ConstructTask`: a kernel thread, created with the FPU image that the processor holds. -/
def constructTask (rsp kernelCr3 : Nat) : Kernel :=
  kernel.newTask (constructed kernel.nextTask 0 rsp kernelCr3 kernel.minVRuntime) kernel.cpu.fpu

def loadFpu (fpu : Nat) : Kernel := { kernel with cpu.fpu := fpu }

/-- `TaskUserConstructor`: its group is the pid it has so far, and `FPU_Init` comes before the image is saved. -/
def taskUserConstructor (rsp cr3 initFpu : Nat) : Kernel :=
  (kernel.loadFpu initFpu).newTask (constructed kernel.nextTask noPid rsp cr3 kernel.minVRuntime) initFpu

def placeTask (t : TaskId) (slot : Nat) : Option Kernel :=
  let placed := { kernel with taskArray := Function.update kernel.taskArray slot (some t) }
  if (kernel.task t).state = .ready then placed.cfsEnqueue t else some placed

/-- The slot of the automatic assignment. -/
def freeSlot : Option Nat :=
  (List.range' pidInit (Process.maxTask - pidInit)).find? fun i => (kernel.taskArray i).isNone

def assigned (t : TaskId) (slot : Nat) : Kernel := kernel.modify t (Task.assign · slot)

def schedulerAddTask (t : TaskId) : Option Kernel :=
  let pid := (kernel.task t).pid
  if pid ≠ noPid then
    if pid < Process.maxTask ∧ kernel.taskArray pid = none then kernel.placeTask t pid else some kernel
  else
    match kernel.freeSlot with
    | none => some kernel
    | some i => (kernel.assigned t i).placeTask t i

def createKThread (rsp kernelCr3 : Nat) : Option Kernel :=
  (kernel.constructTask rsp kernelCr3).schedulerAddTask kernel.nextTask

def createUserTask (rsp cr3 initFpu : Nat) : Option Kernel :=
  (kernel.taskUserConstructor rsp cr3 initFpu).schedulerAddTask kernel.nextTask

def createIdleTask (rsp kernelCr3 : Nat) : Kernel :=
  let idle := (kernel.constructTask rsp kernelCr3).modify kernel.nextTask fun task => { task with pid := pidIdle }
  if kernel.taskArray pidIdle = none then
    { idle with taskArray := Function.update kernel.taskArray pidIdle (some kernel.nextTask) }
  else idle

/-- The leader whose list the child of `parent` joins. -/
def forkLeader (parent : Task) : Option TaskId :=
  if parent.pgid = 0 then none else kernel.getTaskPID parent.pgid

/-- The child's task structure: a copy of the parent's with what `Sys_Fork` sets. -/
def forkedTask (parent : Task) (rsp cr3 : Nat) : Task := { parent with
  pid := noPid
  ppid := parent.pid
  pgid := if (kernel.forkLeader parent).isSome then parent.pgid else 0
  pgidTaskPtr := (kernel.forkLeader parent).bind fun leader => (kernel.task leader).pgidTaskPtr
  rsp := rsp
  cr3 := cr3
  niceValueOfThisGuy := 0
  state := .ready
  nextWaitTask := none
  isSudoOrAdmin := false
  nextSleepQueue := none
  vruntime := kernel.minVRuntime
  weight := rateThisTaskNice 0 }

/-- The child beside its parent, in the list of its group but not yet in `TaskArray`. -/
def forkChild (current : TaskId) (rsp cr3 : Nat) : Kernel :=
  let parent := kernel.task current
  let forked := kernel.newTask (kernel.forkedTask parent rsp cr3) (kernel.fpuStorage current)
  match kernel.forkLeader parent with
  | none => forked
  | some leader => forked.modify leader (Task.linkTo · (some kernel.nextTask))

/-- `memory` is the child's RSP and CR3 unless one of its allocations failed. -/
def sysFork (memory : Option (Nat × Nat)) : Option (Nat × Kernel) :=
  kernel.getCurrentTaskPtr.bind fun current =>
    match memory with
    | none => some (noPid, kernel)
    | some (rsp, cr3) =>
      ((kernel.forkChild current rsp cr3).schedulerAddTask kernel.nextTask).map fun after =>
        ((after.task kernel.nextTask).pid, after)

/-- A blocked parent of a task that exits is made READY, but not queued. -/
def wakeParent (ppid slot : Nat) : Kernel :=
  match kernel.taskArray slot with
  | none => kernel
  | some t =>
    if (kernel.task t).pid = ppid ∧ (kernel.task t).state = .blocked then
      kernel.modify t fun task => { task with state := .ready, vruntime := sub64 kernel.minVRuntime 1 }
    else kernel

def sysExit : Kernel :=
  match kernel.getCurrentTaskPtr with
  | none => kernel
  | some current =>
    if (kernel.task current).pid = pidIdle ∨ (kernel.task current).pid = pidInit then kernel
    else
      let dead := kernel.modify current (Task.setState · .zombie)
      (List.range Process.maxTask).foldl (fun kernel slot => kernel.wakeParent (dead.task current).ppid slot) dead

/-- The part of `DestroyTask` that concerns the table. -/
def destroyTask (t : TaskId) : Kernel :=
  if (kernel.task t).pid < Process.pidUserStart then kernel
  else
    match (List.range Process.maxTask).find? fun i => kernel.taskArray i == some t with
    | none => kernel
    | some i => { kernel with taskArray := Function.update kernel.taskArray i none }

def isChild (parent : Nat) (t : TaskId) : Bool := (kernel.task t).ppid == parent

def hasChildren (parent : Nat) : Bool :=
  (List.range Process.maxTask).any fun i => (kernel.taskArray i).any (kernel.isChild parent)

def zombieChild (parent : Nat) : Option TaskId :=
  (List.range Process.maxTask).findSome? fun i => (kernel.taskArray i).filter fun t =>
    kernel.isChild parent t && (kernel.task t).state == .zombie

/-- One round of the loop of `Sys_Wait`; without a result the caller sleeps and comes back for another. -/
def sysWait : Option Nat × Kernel :=
  match kernel.getCurrentTaskPtr with
  | none => (some noPid, kernel)
  | some current =>
    let pid := (kernel.task current).pid
    match kernel.zombieChild pid with
    | some child => (some (kernel.task child).pid, kernel.destroyTask child)
    | none =>
      if kernel.hasChildren pid then (none, kernel.modify current (Task.setState · .blocked))
      else (some noPid, kernel)

/-- `while (Prev && Prev->PGIDTaskPtr != T)` with its check for a full circle; where it stops. -/
def groupPrev (kernel : Kernel) (head t : TaskId) : Nat → TaskId → Option (Option TaskId)
  | 0, _ => none
  | rounds + 1, prev =>
    if (kernel.task prev).pgidTaskPtr = some t then some (some prev)
    else
      match (kernel.task prev).pgidTaskPtr with
      | none => some none
      | some next => if next = head then some (some head) else kernel.groupPrev head t rounds next

def unlinkFromProcGrp (t : TaskId) : Option Kernel :=
  if (kernel.task t).pgid = 0 then some kernel
  else
    match kernel.getTaskPGID (kernel.task t).pgid with
    | none => some kernel
    | some head =>
      let cut kernel := modify kernel t (Task.linkTo · none)
      if head = t then some (cut kernel)
      else
        (kernel.groupPrev head t kernel.fuel head).map fun prev =>
          match prev with
          | none => cut kernel
          | some prev =>
            if (kernel.task prev).pgidTaskPtr = some t then
              cut (kernel.modify prev (Task.linkTo · (kernel.task t).pgidTaskPtr))
            else cut kernel

/-- The first half of `Sys_SetPGID`: the target leaves the group that it is in. -/
def leaveGroup (target : TaskId) (pgid : Nat) : Option Kernel :=
  if (kernel.task target).pgid ≠ 0 ∧ (kernel.task target).pgid ≠ pgid then kernel.unlinkFromProcGrp target
  else some kernel

/-- The target goes behind the leader in the list of its group. -/
def joinGroup (target leader : TaskId) (pgid : Nat) : Kernel :=
  (kernel.modify target (Task.join · pgid (kernel.task leader).pgidTaskPtr)).modify leader (Task.linkTo · (some target))

/-- The second half of `Sys_SetPGID`: the target leads a group of its own or joins another. -/
def enterGroup (target : TaskId) (pgid : Nat) : Nat × Kernel :=
  if pgid = (kernel.task target).pid then
    (0, kernel.modify target (Task.join · pgid none))
  else
    match kernel.getTaskPID pgid with
    | none => (noPid, kernel)
    | some leader =>
      if (kernel.task leader).pgid ≠ (kernel.task leader).pid then (noPid, kernel)
      else (0, kernel.joinGroup target leader pgid)

def setPGIDTarget (pid : Nat) : Option TaskId :=
  if pid = 0 then kernel.getCurrentTaskPtr else kernel.getTaskPID pid

def sysSetPGID (pid pgid : Nat) : Option (Nat × Kernel) :=
  match kernel.setPGIDTarget pid with
  | none => some (2 ^ 64 - 3, kernel)
  | some target =>
    kernel.getCurrentTaskPtr.bind fun current =>
      if target ≠ current ∧ (kernel.task target).ppid ≠ (kernel.task current).pid then some (noPid, kernel)
      else
        let pgid := if pgid = 0 then (kernel.task target).pid else pgid
        (kernel.leaveGroup target pgid).map fun kernel => kernel.enterGroup target pgid

def prioProcess : Int := 0

def prioPgrp : Int := 1

/-- The weight is changed while the task is out of the tree. -/
def setPriority (target : TaskId) (nice : Int) : Option Kernel :=
  let reweigh kernel := modify kernel target fun task =>
    { task with niceValueOfThisGuy := nice, weight := rateThisTaskNice nice }
  if (kernel.task target).state = .ready then
    (kernel.cfsDequeue target).bind fun kernel => (reweigh kernel).cfsEnqueue target
  else some (reweigh kernel)

/-- `Sys_SetPriority` with the error it returns negated; the arguments are 32-bit integers. -/
def sysSetPriority (which who nice : Int) : Option (Nat × Kernel) :=
  match kernel.getCurrentTaskPtr with
  | none => some (11, kernel)
  | some current =>
    let nice := clampNice nice
    if which = prioProcess then
      match kernel.getTaskPID (if who = 0 then (kernel.task current).pid else (who % 2 ^ 64).toNat) with
      | none => some (3, kernel)
      | some target =>
        if nice < (kernel.task target).niceValueOfThisGuy ∧ !(kernel.task current).isSudoOrAdmin then some (13, kernel)
        else (kernel.setPriority target nice).map (0, ·)
    else if which = prioPgrp then some (38, kernel)
    else some (22, kernel)

end Kernel

end RosKernel.Tasking
