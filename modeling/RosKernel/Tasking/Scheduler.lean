import RosKernel.Library.Linked
import RosKernel.Library.TreeErase
import RosKernel.Process.Files

/-! Tasks, the tables that the kernel keeps them in, and the queues they wait in: the run queue, the sleep wheel, the wait queues.

Every `new Task` gets a name of its own, so a name outlives the task: a pointer to a deleted task is a name that no slot of
`TaskArray` holds. An operation has no result if it follows a null pointer or a loop of its own never ends.
-/

set_option autoImplicit false

namespace RosKernel.Tasking

open Library Memory

abbrev TaskId := Nat

inductive TaskState where
  | ready
  | running
  | blocked
  | terminated
  | zombie
  deriving DecidableEq, Inhabited

/-- `Tasking::Task`. The links of the run queue are in the kernel's tree; `fpuRegion` is the task
whose `FPU_Storage` the pointer leads into. -/
structure Task where
  pid : Nat
  ppid : Nat
  pgid : Nat
  pgidTaskPtr : Option TaskId
  signals : Nat
  rsp : Nat
  cr3 : Nat
  fpuRegion : Option TaskId
  niceValueOfThisGuy : Int
  state : TaskState
  blockReason : Nat
  sleepTick : Nat
  nextWaitTask : Option TaskId
  isSudoOrAdmin : Bool
  nextSleepQueue : Option TaskId
  vruntime : Nat
  weight : Nat
  deriving DecidableEq, Inhabited

@[simps] def Task.setState (task : Task) (state : TaskState) : Task := { task with state := state }

@[simps] def Task.saveRsp (task : Task) (rsp : Nat) : Task := { task with rsp := rsp }

/-- The task as a member of a group whose list goes on with `next`. -/
@[simps] def Task.join (task : Task) (pgid : Nat) (next : Option TaskId) : Task := { task with
  pgid := pgid
  pgidTaskPtr := next }

@[simps] def Task.linkTo (task : Task) (next : Option TaskId) : Task := { task with pgidTaskPtr := next }

/-- What the automatic assignment of a pid writes. -/
@[simps] def Task.assign (task : Task) (slot : Nat) : Task := { task with
  pid := slot
  pgid := if task.pgid = 0 then slot else task.pgid }

/-- What the processor holds for the task it runs. An FPU image is its bytes read as one number. -/
structure Cpu where
  fpu : Nat
  rsp : Nat
  cr3 : Nat
  deriving DecidableEq

structure Kernel where
  task : TaskId → Task
  nextTask : TaskId
  fpuStorage : TaskId → Nat
  tree : Links TaskId
  cfsLeftmost : Option TaskId
  minVRuntime : Nat
  taskArray : Nat → Option TaskId
  currentTaskIndex : Nat
  sleepWheel : Nat → Option TaskId
  totalSleepingTasks : Nat
  lastCheckedTick : Nat
  lapicTicks : Nat
  lapicHz : Nat
  cpu : Cpu

def pidIdle : Nat := 0

def pidInit : Nat := 1

def timerWheelSize : Nat := 512

def taskSleeping : Nat := 1

def prioToWeight : List Nat :=
  [88761, 71755, 56483, 46273, 36291, 29154, 23254, 18705, 14949, 11916,
    9548, 7620, 6100, 4904, 3906, 3121, 2501, 1991, 1586, 1277,
    1024, 820, 655, 526, 423, 335, 272, 215, 172, 137,
    110, 87, 70, 56, 45, 36, 29, 23, 18, 15]

def clampNice (nice : Int) : Int := if nice < -20 then -20 else if 19 < nice then 19 else nice

def rateThisTaskNice (nice : Int) : Nat := (prioToWeight[(clampNice nice + 20).toNat]?).getD 0

namespace Kernel

/-- A loop that visits more tasks than there are never ends. -/
def fuel (kernel : Kernel) : Nat := kernel.nextTask + 1

def modify (kernel : Kernel) (t : TaskId) (change : Task → Task) : Kernel := { kernel with
  task := Function.update kernel.task t (change (kernel.task t)) }

section

variable (kernel : Kernel) (t other : TaskId) (change : Task → Task)

@[simp] theorem task_modify : (kernel.modify t change).task other =
    if other = t then change (kernel.task t) else kernel.task other := by
  simp [modify, Function.update_apply]

@[simp] theorem nextTask_modify : (kernel.modify t change).nextTask = kernel.nextTask := rfl

@[simp] theorem fuel_modify : (kernel.modify t change).fuel = kernel.fuel := rfl

@[simp] theorem fpuStorage_modify : (kernel.modify t change).fpuStorage = kernel.fpuStorage := rfl

@[simp] theorem tree_modify : (kernel.modify t change).tree = kernel.tree := rfl

@[simp] theorem cfsLeftmost_modify : (kernel.modify t change).cfsLeftmost = kernel.cfsLeftmost := rfl

@[simp] theorem minVRuntime_modify : (kernel.modify t change).minVRuntime = kernel.minVRuntime := rfl

@[simp] theorem taskArray_modify : (kernel.modify t change).taskArray = kernel.taskArray := rfl

@[simp] theorem currentTaskIndex_modify :
    (kernel.modify t change).currentTaskIndex = kernel.currentTaskIndex := rfl

@[simp] theorem sleepWheel_modify : (kernel.modify t change).sleepWheel = kernel.sleepWheel := rfl

@[simp] theorem cpu_modify : (kernel.modify t change).cpu = kernel.cpu := rfl

end

section

variable (kernel : Kernel)

def getTaskPID (pid : Nat) : Option TaskId :=
  if Process.maxTask ≤ pid then none
  else (kernel.taskArray pid).bind fun t => if (kernel.task t).pid = pid then some t else none

def getTaskPGID (pgid : Nat) : Option TaskId :=
  match kernel.getTaskPID pgid with
  | some leader => if (kernel.task leader).pgid = pgid then some leader else firstOf
  | none => firstOf
where
  /-- The first task of the group in the order of the slots. -/
  firstOf : Option TaskId :=
    (List.range Process.maxTask).findSome? fun i =>
      (kernel.taskArray i).bind fun t => if (kernel.task t).pgid = pgid then some t else none

def getCurrentTaskPtr : Option TaskId :=
  if kernel.currentTaskIndex < Process.maxTask then kernel.taskArray kernel.currentTaskIndex else none

def cfsEnqueue (newTask : TaskId) : Option Kernel :=
  if (kernel.task newTask).pid = pidIdle then some kernel
  else
    let goLeft key := decide ((kernel.task newTask).vruntime < (kernel.task key).vruntime)
    (kernel.tree.insert goLeft kernel.fuel newTask).map fun (leftmost, tree) => { kernel with
      tree := tree
      cfsLeftmost := if leftmost then some newTask else kernel.cfsLeftmost }

def cfsDequeue (t : TaskId) : Option Kernel :=
  let leftmost := if some t = kernel.cfsLeftmost then kernel.tree.secondNode kernel.fuel t
    else some kernel.cfsLeftmost
  leftmost.bind fun leftmost => (kernel.tree.erase kernel.fuel t).map fun tree => { kernel with
    tree := tree
    cfsLeftmost := leftmost }

def cfsPickNext : Option (Option TaskId × Kernel) :=
  match kernel.cfsLeftmost with
  | none => some (none, kernel)
  | some next => (kernel.cfsDequeue next).map (some next, ·)

/-- The vruntime that a task wakes with; `floor` is what is left of a small `MinVRuntime`. -/
def wakeVRuntime (floor : Nat) : Nat :=
  if 10 < kernel.minVRuntime then kernel.minVRuntime - 10 else floor

def unblockTaskWithIOBoost (t : TaskId) : Option Kernel :=
  (kernel.modify t fun task => { task with vruntime := kernel.wakeVRuntime 0 }).cfsEnqueue t

def nextSleeper (t : TaskId) : Option TaskId := (kernel.task t).nextSleepQueue

/-- Whether one of the buckets links the task. -/
def wheelHolds (kernel : Kernel) (t : TaskId) : List Nat → Option Bool
  | [] => some false
  | index :: rest =>
    (seek kernel.nextSleeper (· == t) kernel.fuel none (kernel.sleepWheel index)).bind fun (_, found) =>
      if found.isSome then some true else kernel.wheelHolds t rest

def addToSleepList (t : TaskId) : Option Kernel :=
  if (kernel.task t).sleepTick = 0 then some kernel
  else
    (kernel.wheelHolds t (List.range timerWheelSize)).map fun held =>
      if held then kernel
      else
        let index := (kernel.task t).sleepTick % timerWheelSize
        let linked := kernel.modify t fun task => { task with nextSleepQueue := kernel.sleepWheel index }
        { linked with
          sleepWheel := Function.update kernel.sleepWheel index (some t)
          totalSleepingTasks := add64 kernel.totalSleepingTasks 1 }

/-- `if (prev) prev->NextSleepQueue = next; else SleepWheel[index] = next;` -/
def unlinkSleeper (index : Nat) (prev next : Option TaskId) : Kernel :=
  match prev with
  | some prev => kernel.modify prev fun task => { task with nextSleepQueue := next }
  | none => { kernel with sleepWheel := Function.update kernel.sleepWheel index next }

def wakeSleeper (t : TaskId) : Option Kernel :=
  (kernel.modify t fun task => { task with
    nextSleepQueue := none
    state := .ready
    sleepTick := 0
    vruntime := kernel.wakeVRuntime kernel.minVRuntime }).cfsEnqueue t

end

/-- The walk through one bucket from `t` on. -/
def wakeBucket (index now : Nat) : Nat → Kernel → Option TaskId → Option TaskId → Option Kernel
  | _, kernel, _, none => some kernel
  | 0, _, _, some _ => none
  | rounds + 1, kernel, prev, some t =>
    if (kernel.task t).sleepTick ≤ now then
      let next := kernel.nextSleeper t
      let counted := { kernel with totalSleepingTasks := sub64 kernel.totalSleepingTasks 1 }
      ((counted.unlinkSleeper index prev next).wakeSleeper t).bind fun woken =>
        wakeBucket index now rounds woken prev next
    else wakeBucket index now rounds kernel (some t) (kernel.nextSleeper t)

def wakeBuckets (now : Nat) : List Nat → Kernel → Option Kernel
  | [], kernel => some kernel
  | tick :: ticks, kernel =>
    let index := tick % timerWheelSize
    (wakeBucket index now kernel.fuel kernel none (kernel.sleepWheel index)).bind (wakeBuckets now ticks)

section

variable (kernel : Kernel)
include kernel

def checkSleepingTasks : Option Kernel :=
  let now := kernel.lapicTicks
  if kernel.totalSleepingTasks = 0 then some { kernel with lastCheckedTick := now }
  else if now ≤ kernel.lastCheckedTick then some kernel
  -- `currTick <= Now` never fails on the last 64-bit tick
  else if now + 1 = 2 ^ 64 then none
  else
    let startTick := if timerWheelSize < now - kernel.lastCheckedTick then now - timerWheelSize + 1
      else kernel.lastCheckedTick + 1
    (wakeBuckets now (List.range' startTick (now + 1 - startTick)) kernel).map fun kernel =>
      { kernel with lastCheckedTick := now }

/-- The current task blocks for a number of ticks. -/
def sleepFor (t : TaskId) (ticks : Nat) : Option Kernel :=
  (kernel.modify t fun task => { task with
    sleepTick := add64 kernel.lapicTicks ticks
    state := .blocked
    blockReason := task.blockReason ||| taskSleeping }).addToSleepList t

def sleep (ms : Nat) : Option Kernel :=
  match kernel.getCurrentTaskPtr with
  | none => some kernel
  | some current =>
    if ms = 0 then some kernel
    else
      let ticks := mul64 ms kernel.lapicHz / 1000
      kernel.sleepFor current (if ticks = 0 then 1 else ticks)

/-- `Sys_SleepNs` for the timespec it has copied in. -/
def sysSleepNs (seconds nanoseconds : Int) : Option Kernel :=
  match kernel.getCurrentTaskPtr with
  | none => some kernel
  | some current =>
    if nanoseconds < 0 ∨ 1000000000 ≤ nanoseconds then some kernel
    else
      let ticksFromSec := mul64 (seconds % 2 ^ 64).toNat kernel.lapicHz
      let ticksFromNs := mul64 nanoseconds.toNat kernel.lapicHz / 1000000000
      let ticks := add64 ticksFromSec ticksFromNs
      kernel.sleepFor current (if ticks = 0 ∧ (0 < seconds ∨ 0 < nanoseconds) then 1 else ticks)

def sysSleepMS (ms : Nat) : Option Kernel :=
  match kernel.getCurrentTaskPtr with
  | none => some kernel
  | some current =>
    let ticks := mul64 ms kernel.lapicHz / 1000
    kernel.sleepFor current (if ticks = 0 ∧ 0 < ms then 1 else ticks)

end

section

variable (kernel : Kernel)
include kernel

/-- The RSP goes into the task, the FPU image to where its `FPU_Region` leads. -/
def saveContext (prev : TaskId) : Kernel :=
  { kernel.modify prev (Task.saveRsp · kernel.cpu.rsp) with
    fpuStorage := match (kernel.task prev).fpuRegion with
      | none => kernel.fpuStorage
      | some area => Function.update kernel.fpuStorage area kernel.cpu.fpu }

/-- The task that stops running: its context is saved, and it is queued if it could go on. -/
def switchOut (prev : TaskId) : Option Kernel :=
  let saved := kernel.saveContext prev
  if (saved.task prev).pid ≠ pidIdle ∧ (saved.task prev).state = .running then
    (saved.modify prev (Task.setState · .ready)).cfsEnqueue prev
  else some saved

/-- The task that runs next: its context is loaded. -/
def switchIn (next : TaskId) : Kernel :=
  let running := kernel.modify next (Task.setState · .running)
  { running with
    currentTaskIndex := (kernel.task next).pid
    cpu.fpu := match (kernel.task next).fpuRegion with
      | none => kernel.cpu.fpu
      | some area => kernel.fpuStorage area
    cpu.rsp := (kernel.task next).rsp
    cpu.cr3 := (kernel.task next).cr3 }

def raiseMinVRuntime (vruntime : Nat) : Kernel := { kernel with
  minVRuntime := if kernel.minVRuntime < vruntime then vruntime else kernel.minVRuntime }

/-- The choice of the next task, with the minimum that it raises. -/
def chooseNext : Option (TaskId × Kernel) :=
  kernel.cfsPickNext.bind fun (next, kernel) =>
    match next with
    | none => (kernel.getTaskPID pidIdle).map (·, kernel)
    | some next => some (next, kernel.raiseMinVRuntime (kernel.task next).vruntime)

/-- `Schedule`; the interrupted context is on the stack that the processor's RSP names. -/
def schedule : Option Kernel :=
  let saved := match kernel.getCurrentTaskPtr with
    | none => some kernel
    | some prev => kernel.switchOut prev
  saved.bind fun saved => saved.chooseNext.map fun (next, kernel) => kernel.switchIn next

end

/-- `1024 / Weight`, but at least 1. -/
def charge (weight : Nat) : Nat := if 1024 / weight = 0 then 1 else 1024 / weight

/-- The tick's charge to the current task; a weight of zero is a divide error. -/
def chargeCurrent (kernel : Kernel) : Option Kernel :=
  match kernel.getCurrentTaskPtr with
  | none => some kernel
  | some current =>
    if (kernel.task current).pid = pidIdle then some kernel
    else if (kernel.task current).weight = 0 then none
    else some (kernel.modify current fun task => { task with vruntime := add64 task.vruntime (charge task.weight) })

def schedulerTick (kernel : Kernel) : Option Kernel :=
  (kernel.checkSleepingTasks.bind chargeCurrent).bind schedule

/-- `SchedulerStart`: the first task is started with the FPU as it is, the idle task also with the page table. -/
def schedulerStart (kernel : Kernel) : Option Kernel :=
  kernel.cfsPickNext.bind fun (first, kernel) =>
    let start (kernel : Kernel) t cr3 := { kernel.modify t (Task.setState · .running) with
      currentTaskIndex := (kernel.task t).pid
      cpu.rsp := (kernel.task t).rsp
      cpu.cr3 := cr3 }
    match first with
    | some first => some (start kernel first (kernel.task first).cr3)
    | none => (kernel.taskArray pidIdle).map fun idle => { start kernel idle kernel.cpu.cr3 with
        currentTaskIndex := pidIdle }

end Kernel

structure WaitQueue where
  head : Option TaskId
  tail : Option TaskId

namespace Kernel

section

variable (kernel : Kernel) (queue : WaitQueue)
include kernel queue

/-- The current task goes to the end of the queue; a queue with a head has a tail. -/
def joinQueue (t : TaskId) : Option (WaitQueue × Kernel) :=
  let last := kernel.modify t fun task => { task with nextWaitTask := none }
  match queue.head with
  | none => some (⟨some t, some t⟩, last)
  | some head => queue.tail.map fun tail =>
    (⟨some head, some t⟩, last.modify tail fun task => { task with nextWaitTask := some t })

/-- The head leaves the queue, which is not empty. -/
def leaveQueue (t : TaskId) : WaitQueue :=
  let next := (kernel.task t).nextWaitTask
  ⟨next, if next = none then none else queue.tail⟩

def sleepOn : Option (WaitQueue × Kernel) :=
  match kernel.getCurrentTaskPtr with
  | none => some (queue, kernel)
  | some current => (kernel.modify current (Task.setState · .blocked)).joinQueue queue current

def wakeUp : Option (WaitQueue × Kernel) :=
  match queue.head with
  | none => some (queue, kernel)
  | some t =>
    let woken := kernel.modify t fun task => { task with nextWaitTask := none, state := .ready, blockReason := 0 }
    (woken.unblockTaskWithIOBoost t).map (kernel.leaveQueue queue t, ·)

end

def sigInt : Nat := 2

section

variable (kernel : Kernel) (t : TaskId) (signal : Nat)
include kernel t signal

/-- The signal is pending. A pending SIGINT takes the leftmost task's vruntime, even if there is
no leftmost task. -/
def markSignal : Option Kernel :=
  let marked := kernel.modify t fun task => { task with signals := task.signals ||| 2 ^ signal }
  if (marked.task t).signals.testBit sigInt then
    marked.cfsLeftmost.map fun first => marked.modify t fun task => { task with vruntime := (marked.task first).vruntime }
  else some marked

/-- What a signal does to a task that is no zombie. -/
def deliver : Option Kernel :=
  (kernel.markSignal t signal).bind fun kernel =>
    if (kernel.task t).state = .blocked then (kernel.modify t (Task.setState · .ready)).cfsEnqueue t
    else some kernel

def signalTask : Option Kernel :=
  if (kernel.task t).state ≠ .zombie ∧ 1 < (kernel.task t).pid then kernel.deliver t signal else some kernel

end

/-- The walk along a group's list. -/
def signalGroup (signal : Nat) : Nat → Kernel → Option TaskId → Option Kernel
  | _, kernel, none => some kernel
  | 0, _, some _ => none
  | rounds + 1, kernel, some t =>
    (kernel.signalTask t signal).bind fun kernel => signalGroup signal rounds kernel (kernel.task t).pgidTaskPtr

def setTaskSignal (kernel : Kernel) (id signal : Nat) (isGroup : Bool) : Option Kernel :=
  if isGroup then signalGroup signal kernel.fuel kernel (kernel.getTaskPID id)
  else
    match kernel.getTaskPID id with
    | none => some kernel
    | some t => kernel.signalTask t signal

end Kernel

end RosKernel.Tasking
