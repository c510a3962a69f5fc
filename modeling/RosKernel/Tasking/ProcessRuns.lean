import RosKernel.Library.Runs
import RosKernel.Tasking.ProcessCalls
import RosKernel.Tasking.RunQueue

/-! Runs of the process calls, and what each call does to the tables.

Which process makes the next call is the scheduler's choice: any that holds a slot and has not
exited.
-/

set_option autoImplicit false

namespace RosKernel.Tasking

open Library Memory Option

inductive ProcessOp where
  | createIdleTask (rsp kernelCr3 : Nat)
  | createKThread (rsp kernelCr3 : Nat)
  | createUserTask (rsp cr3 initFpu : Nat)
  | fork (caller : TaskId) (memory : Option (Nat × Nat))
  | exit (caller : TaskId)
  | wait (caller : TaskId)
  | setPGID (caller : TaskId) (pid pgid : Nat)

namespace Kernel

def runAs (kernel : Kernel) (caller : TaskId) : Kernel := { kernel with
  currentTaskIndex := (kernel.task caller).pid }

/-- An operation, with the result of the call if it returns one. -/
def perform (kernel : Kernel) : ProcessOp → Option (Option Nat × Kernel)
  | .createIdleTask rsp kernelCr3 => some (none, kernel.createIdleTask rsp kernelCr3)
  | .createKThread rsp kernelCr3 => (kernel.createKThread rsp kernelCr3).map (none, ·)
  | .createUserTask rsp cr3 initFpu => (kernel.createUserTask rsp cr3 initFpu).map (none, ·)
  | .fork caller memory => ((kernel.runAs caller).sysFork memory).map fun (rax, kernel) => (some rax, kernel)
  | .exit caller => some (none, (kernel.runAs caller).sysExit)
  | .wait caller => some (kernel.runAs caller).sysWait
  | .setPGID caller pid pgid => ((kernel.runAs caller).sysSetPGID pid pgid).map fun (rax, kernel) => (some rax, kernel)

/-- The task is one that can make a call: it holds the slot of its pid and has not exited. -/
def Runs (kernel : Kernel) (t : TaskId) : Prop :=
  (kernel.task t).pid < Process.maxTask ∧ kernel.taskArray (kernel.task t).pid = some t ∧
    (kernel.task t).state ≠ .zombie

instance (kernel : Kernel) (t : TaskId) : Decidable (kernel.Runs t) := inferInstanceAs (Decidable (_ ∧ _ ∧ _))

/-- The calls are made by processes; the idle task makes none. -/
def Called (kernel : Kernel) : ProcessOp → Prop
  | .fork caller _ | .exit caller | .wait caller | .setPGID caller _ _ =>
    kernel.Runs caller ∧ (kernel.task caller).pid ≠ pidIdle
  | _ => True

instance (kernel : Kernel) : DecidablePred kernel.Called
  | .fork .. | .exit _ | .wait _ | .setPGID .. => inferInstanceAs (Decidable (_ ∧ _))
  | .createIdleTask .. | .createKThread .. | .createUserTask .. => inferInstanceAs (Decidable True)

/-- The slots hold tasks that exist, each under its own pid. -/
structure Numbered (kernel : Kernel) : Prop where
  created : ∀ slot t, kernel.taskArray slot = some t → t < kernel.nextTask
  range : ∀ slot t, kernel.taskArray slot = some t → slot < Process.maxTask
  pid : ∀ slot t, kernel.taskArray slot = some t → (kernel.task t).pid = slot

theorem numbered_powerOn (lapicHz : Nat) (cpu : Cpu) : (powerOn lapicHz cpu).Numbered :=
  ⟨fun _ _ held => (nomatch held), fun _ _ held => (nomatch held), fun _ _ held => (nomatch held)⟩

section

variable {kernel after : Kernel} {t : TaskId}

theorem Numbered.congr (num : kernel.Numbered) (slots : after.taskArray = kernel.taskArray)
    (grows : kernel.nextTask ≤ after.nextTask)
    (pids : ∀ u < kernel.nextTask, (after.task u).pid = (kernel.task u).pid) : after.Numbered where
  created slot u held := Nat.lt_of_lt_of_le (num.created slot u (slots ▸ held)) grows
  range slot u held := num.range slot u (slots ▸ held)
  pid slot u held := by
    rw [slots] at held
    exact (pids u (num.created slot u held)).trans (num.pid slot u held)

theorem Runs.current (runs : kernel.Runs t) : (kernel.runAs t).getCurrentTaskPtr = some t := by
  exact (if_pos runs.1).trans runs.2.1

theorem Numbered.getTaskPID (num : kernel.Numbered) (pid : Nat) : kernel.getTaskPID pid = kernel.taskArray pid := by
  unfold Kernel.getTaskPID
  cases held : kernel.taskArray pid with
  | none => split <;> rfl
  | some t =>
    rw [if_neg (Nat.not_le.mpr (num.range pid t held)), bind_some, if_pos (num.pid pid t held)]

theorem Numbered.injective (num : kernel.Numbered) {slot other : Nat} (held : kernel.taskArray slot = some t)
    (again : kernel.taskArray other = some t) : slot = other :=
  (num.pid slot t held).symm.trans (num.pid other t again)

theorem cfsEnqueue_tables (done : kernel.cfsEnqueue t = some after) :
    ∃ tree leftmost, after = { kernel with tree := tree, cfsLeftmost := leftmost } := by
  unfold cfsEnqueue at done
  split at done
  · exact ⟨kernel.tree, kernel.cfsLeftmost, (some.inj done).symm⟩
  · obtain ⟨ins, _, rfl⟩ := map_eq_some_iff.mp done
    exact ⟨_, _, rfl⟩

theorem placeTask_tables {slot : Nat} (done : kernel.placeTask t slot = some after) :
    ∃ tree leftmost, after = { kernel with
      taskArray := Function.update kernel.taskArray slot (some t), tree := tree, cfsLeftmost := leftmost } := by
  unfold placeTask at done
  split at done
  · exact cfsEnqueue_tables done
  · grind

/-- The task in its slot, but not yet in the run queue. -/
def seated (kernel : Kernel) (t : TaskId) (slot : Nat) : Kernel := { kernel.assigned t slot with
  taskArray := Function.update kernel.taskArray slot (some t) }

@[simp] theorem task_seated (slot : Nat) (u : TaskId) :
    (kernel.seated t slot).task u = if u = t then (kernel.task t).assign slot else kernel.task u :=
  kernel.task_modify t u (Task.assign · slot)

theorem freeSlot_spec {slot : Nat} (free : kernel.freeSlot = some slot) :
    pidInit ≤ slot ∧ slot < Process.maxTask ∧ kernel.taskArray slot = none := by
  obtain ⟨isFree, mem⟩ := List.find?_eq_some_iff_append.mp free
  have inRange : slot ∈ List.range' pidInit (Process.maxTask - pidInit) := List.mem_of_find?_eq_some free
  simp only [List.mem_range'_1, pidInit, Process.maxTask] at inRange ⊢
  exact ⟨inRange.1, by omega, isNone_iff_eq_none.mp isFree⟩

theorem schedulerAddTask_tables (unplaced : (kernel.task t).pid = noPid) (done : kernel.schedulerAddTask t = some after) :
    (kernel.freeSlot = none ∧ after = kernel) ∨
    ∃ slot tree leftmost, kernel.freeSlot = some slot ∧ after = (kernel.seated t slot).withQueue tree leftmost := by
  unfold schedulerAddTask at done
  simp only [unplaced, ne_eq, not_true_eq_false, if_false] at done
  cases free : kernel.freeSlot with
  | none =>
    rw [free] at done
    exact .inl ⟨rfl, (some.inj done).symm⟩
  | some slot =>
    rw [free] at done
    obtain ⟨tree, leftmost, rfl⟩ := placeTask_tables done
    exact .inr ⟨slot, tree, leftmost, rfl, rfl⟩

theorem freeSlot_congr {other : Kernel} (eq : other.taskArray = kernel.taskArray) : other.freeSlot = kernel.freeSlot := by
  unfold freeSlot
  rw [eq]

@[simp] theorem task_newTask (task : Task) (fpu : Nat) (other : TaskId) :
    (kernel.newTask task fpu).task other = if other = kernel.nextTask then task else kernel.task other := by
  simp [newTask, Function.update_apply]

theorem task_forkChild (cur : TaskId) (rsp cr3 : Nat) (other : TaskId) :
    (kernel.forkChild cur rsp cr3).task other =
      let task := if other = kernel.nextTask then kernel.forkedTask (kernel.task cur) rsp cr3 else kernel.task other
      if kernel.forkLeader (kernel.task cur) = some other then task.linkTo (some kernel.nextTask) else task := by
  dsimp only [forkChild]
  cases kernel.forkLeader (kernel.task cur) with
  | none => simp
  | some leader =>
    by_cases eq : leader = other
    · simp [eq]
    · simp [eq, Ne.symm eq]

@[simp] theorem taskArray_forkChild (cur : TaskId) (rsp cr3 : Nat) :
    (kernel.forkChild cur rsp cr3).taskArray = kernel.taskArray := by
  dsimp only [forkChild]
  cases kernel.forkLeader (kernel.task cur) <;> rfl

@[simp] theorem nextTask_forkChild (cur : TaskId) (rsp cr3 : Nat) :
    (kernel.forkChild cur rsp cr3).nextTask = kernel.nextTask + 1 := by
  dsimp only [forkChild]
  cases kernel.forkLeader (kernel.task cur) <;> rfl

theorem pid_forkChild (cur : TaskId) (rsp cr3 : Nat) :
    ((kernel.forkChild cur rsp cr3).task kernel.nextTask).pid = noPid := by
  rw [task_forkChild, if_pos rfl]
  split <;> rfl

theorem sysFork_tables {cur : TaskId} {memory : Option (Nat × Nat)} {rax : Nat}
    (runs : kernel.getCurrentTaskPtr = some cur) (done : kernel.sysFork memory = some (rax, after)) :
    (memory = none ∧ rax = noPid ∧ after = kernel) ∨
    ∃ rsp cr3, memory = some (rsp, cr3) ∧
      ((kernel.freeSlot = none ∧ rax = noPid ∧ after = kernel.forkChild cur rsp cr3) ∨
      ∃ slot tree leftmost, kernel.freeSlot = some slot ∧ rax = slot ∧
        after = ((kernel.forkChild cur rsp cr3).seated kernel.nextTask slot).withQueue tree leftmost) := by
  unfold sysFork at done
  rw [runs, bind_some] at done
  cases memory with
  | none =>
    cases done
    exact .inl ⟨rfl, rfl, rfl⟩
  | some res =>
    obtain ⟨rsp, cr3⟩ := res
    obtain ⟨added, add, res⟩ := map_eq_some_iff.mp done
    cases res
    refine .inr ⟨rsp, cr3, rfl, ?_⟩
    have sameSlot : (kernel.forkChild cur rsp cr3).freeSlot = kernel.freeSlot := freeSlot_congr (taskArray_forkChild ..)
    rcases schedulerAddTask_tables (pid_forkChild ..) add with ⟨full, rfl⟩ | ⟨slot, tree, leftmost, free, rfl⟩
    · exact .inl ⟨sameSlot ▸ full, pid_forkChild .., rfl⟩
    · exact .inr ⟨slot, tree, leftmost, sameSlot ▸ free, by simp, rfl⟩

theorem wakeParents_tables (kernel : Kernel) (ppid : Nat) (slots : List Nat) : ∃ tasks,
    slots.foldl (fun kernel slot => kernel.wakeParent ppid slot) kernel = { kernel with task := tasks } ∧
    ∀ other, tasks other = kernel.task other ∨ ((kernel.task other).state = .blocked ∧
      (∃ slot, kernel.taskArray slot = some other ∧ (kernel.task other).pid = ppid) ∧
      tasks other = { kernel.task other with state := .ready, vruntime := sub64 kernel.minVRuntime 1 }) := by
  induction slots generalizing kernel with
  | nil => exact ⟨kernel.task, rfl, fun _ => .inl rfl⟩
  | cons slot slots ih =>
    rw [List.foldl_cons]
    obtain ⟨tasks, rest, each⟩ := ih (kernel.wakeParent ppid slot)
    unfold wakeParent at rest each ⊢
    cases held : kernel.taskArray slot with
    | none =>
      rw [held] at rest each
      exact ⟨tasks, rest, each⟩
    | some t =>
      rw [held] at rest each
      dsimp only at rest each ⊢
      split at rest
      case isFalse other =>
        rw [if_neg other] at each
        exact ⟨tasks, by rw [if_neg other]; exact rest, each⟩
      case isTrue waits =>
        rw [if_pos waits] at each
        refine ⟨tasks, by rw [if_pos waits]; exact rest, fun other => ?_⟩
        have now := each other
        rw [task_modify] at now
        split at now
        case isTrue eq =>
          subst eq
          exact .inr ⟨waits.2, ⟨slot, held, waits.1⟩, by simpa using now⟩
        case isFalse => exact now

theorem sysExit_tables {cur : TaskId} (runs : kernel.getCurrentTaskPtr = some cur) :
    ((kernel.task cur).pid ≤ pidInit ∧ kernel.sysExit = kernel) ∨
    (pidInit < (kernel.task cur).pid ∧ ∃ tasks, kernel.sysExit = { kernel with task := tasks } ∧
      tasks cur = (kernel.task cur).setState .zombie ∧
      ∀ other ≠ cur, tasks other = kernel.task other ∨ ((kernel.task other).state = .blocked ∧
        (∃ slot, kernel.taskArray slot = some other ∧ (kernel.task other).pid = (kernel.task cur).ppid) ∧
        tasks other = { kernel.task other with state := .ready, vruntime := sub64 kernel.minVRuntime 1 })) := by
  unfold sysExit
  rw [runs]
  dsimp only
  split
  case isTrue system => exact .inl ⟨by simp only [pidIdle, pidInit] at system ⊢; omega, rfl⟩
  case isFalse user =>
    refine .inr ⟨by simp only [pidIdle, pidInit] at user ⊢; omega, ?_⟩
    obtain ⟨tasks, res, each⟩ := wakeParents_tables (kernel.modify cur (Task.setState · .zombie))
      ((kernel.modify cur (Task.setState · .zombie)).task cur).ppid (List.range Process.maxTask)
    refine ⟨tasks, res, ?_, ?_⟩
    · have exited := each cur
      simpa using exited
    · intro other dist
      have kept := each other
      simpa [dist] using kept

theorem zombieChild_spec {parent : Nat} {child : TaskId} (hf : kernel.zombieChild parent = some child) :
    ∃ slot, kernel.taskArray slot = some child ∧ (kernel.task child).ppid = parent ∧
      (kernel.task child).state = .zombie := by
  obtain ⟨_, slot, _, _, hf, _⟩ := List.findSome?_eq_some_iff.mp hf
  obtain ⟨held, isZombie⟩ := filter_eq_some_iff.mp hf
  simp only [isChild, Bool.and_eq_true, beq_iff_eq] at isZombie
  exact ⟨slot, held, isZombie⟩

theorem sysWait_found {cur child : TaskId} (runs : kernel.getCurrentTaskPtr = some cur)
    (hf : kernel.zombieChild (kernel.task cur).pid = some child) :
    kernel.sysWait = (some (kernel.task child).pid, kernel.destroyTask child) := by
  unfold sysWait
  rw [runs]
  dsimp only
  rw [hf]

theorem sysWait_none {cur : TaskId} (runs : kernel.getCurrentTaskPtr = some cur)
    (absent : kernel.zombieChild (kernel.task cur).pid = none) :
    kernel.sysWait = (none, kernel.modify cur (Task.setState · .blocked)) ∨ kernel.sysWait = (some noPid, kernel) := by
  unfold sysWait
  rw [runs]
  dsimp only
  rw [absent]
  dsimp only
  split
  · exact .inl rfl
  · exact .inr rfl

theorem destroyTask_tables (num : kernel.Numbered) {slot : Nat} (held : kernel.taskArray slot = some t)
    (user : Process.pidUserStart ≤ slot) :
    kernel.destroyTask t = { kernel with taskArray := Function.update kernel.taskArray slot none } := by
  unfold destroyTask
  rw [num.pid slot t held, if_neg (Nat.not_lt.mpr user)]
  have hf : (List.range Process.maxTask).find? (fun i => kernel.taskArray i == some t) = some slot := by
    cases search : (List.range Process.maxTask).find? fun i => kernel.taskArray i == some t with
    | none =>
      have absent := List.find?_eq_none.mp search slot (List.mem_range.mpr (num.range slot t held))
      simp [held] at absent
    | some other =>
      have eq := List.find?_some search
      rw [num.injective held (beq_iff_eq.mp eq)]
  rw [hf]

end

/-- What the table of processes says about a task. -/
structure SameProcess (before after : Task) : Prop where
  pid : after.pid = before.pid
  ppid : after.ppid = before.ppid
  exited : after.state = .zombie ↔ before.state = .zombie

theorem SameProcess.refl (task : Task) : SameProcess task task := ⟨rfl, rfl, .rfl⟩

/-- The slots and the processes in them are as before; tasks outside the table may be new. -/
structure Keeps (kernel after : Kernel) : Prop where
  slots : after.taskArray = kernel.taskArray
  grows : kernel.nextTask ≤ after.nextTask
  same : ∀ t < kernel.nextTask, SameProcess (kernel.task t) (after.task t)

/-- A new task with the parent has got the slot. -/
structure Admits (kernel after : Kernel) (slot parent : Nat) : Prop where
  slots : after.taskArray = Function.update kernel.taskArray slot (some kernel.nextTask)
  free : kernel.taskArray slot = none
  range : slot < Process.maxTask
  grows : after.nextTask = kernel.nextTask + 1
  pid : (after.task kernel.nextTask).pid = slot
  ppid : (after.task kernel.nextTask).ppid = parent
  state : (after.task kernel.nextTask).state ≠ .zombie
  same : ∀ t < kernel.nextTask, SameProcess (kernel.task t) (after.task t)

section

variable {kernel made after : Kernel} {slot parent : Nat} {t : TaskId}

theorem Keeps.runAs (kernel : Kernel) (caller : TaskId) : kernel.Keeps (kernel.runAs caller) :=
  ⟨rfl, Nat.le_refl _, fun _ _ => SameProcess.refl _⟩

theorem Numbered.keeps (num : kernel.Numbered) (keeps : kernel.Keeps after) : after.Numbered :=
  num.congr keeps.slots keeps.grows fun t created => (keeps.same t created).pid

theorem Admits.cases (admits : kernel.Admits after slot parent) {other : Nat} (held : after.taskArray other = some t) :
    (other = slot ∧ t = kernel.nextTask) ∨ (other ≠ slot ∧ kernel.taskArray other = some t) := by
  rw [admits.slots, Function.update_apply] at held
  split at held
  case isTrue eq => exact .inl ⟨eq, (some.inj held).symm⟩
  case isFalse dist => exact .inr ⟨dist, held⟩

theorem Numbered.admits (num : kernel.Numbered) (admits : kernel.Admits after slot parent) : after.Numbered where
  created other t held := by
    rw [admits.grows]
    rcases admits.cases held with ⟨_, rfl⟩ | ⟨_, pre⟩
    · exact Nat.lt_succ_self _
    · exact Nat.lt_succ_of_lt (num.created other t pre)
  range other t held := by
    rcases admits.cases held with ⟨rfl, _⟩ | ⟨_, pre⟩
    · exact admits.range
    · exact num.range other t pre
  pid other t held := by
    rcases admits.cases held with ⟨rfl, rfl⟩ | ⟨_, pre⟩
    · exact admits.pid
    · exact (admits.same t (num.created other t pre)).pid.trans (num.pid other t pre)

/-- What the constructors and `Sys_Fork` hand to `SchedulerAddTask`. -/
structure Makes (kernel made : Kernel) (parent : Nat) : Prop where
  slots : made.taskArray = kernel.taskArray
  tree : made.tree = kernel.tree
  leftmost : made.cfsLeftmost = kernel.cfsLeftmost
  grows : made.nextTask = kernel.nextTask + 1
  pid : (made.task kernel.nextTask).pid = noPid
  ppid : (made.task kernel.nextTask).ppid = parent
  state : (made.task kernel.nextTask).state = .ready
  same : ∀ t < kernel.nextTask, SameProcess (kernel.task t) (made.task t)

section

variable (makes : kernel.Makes made parent)
include makes

theorem Makes.keeps : kernel.Keeps made :=
  ⟨makes.slots, makes.grows ▸ Nat.le_succ _, makes.same⟩

theorem Makes.seated (free : kernel.freeSlot = some slot) (tree : Links TaskId) (leftmost : Option TaskId) :
    kernel.Admits ((made.seated kernel.nextTask slot).withQueue tree leftmost) slot parent where
  slots := by rw [← makes.slots]; rfl
  free := (freeSlot_spec free).2.2
  range := (freeSlot_spec free).2.1
  grows := makes.grows
  pid := by simp
  ppid := by simpa using makes.ppid
  state := by simp [makes.state]
  same := by
    intro t created
    have distinct : t ≠ kernel.nextTask := Nat.ne_of_lt created
    simpa [distinct] using makes.same t created

theorem Makes.schedulerAddTask (done : made.schedulerAddTask kernel.nextTask = some after) :
    kernel.Keeps after ∨ ∃ slot, kernel.freeSlot = some slot ∧ kernel.Admits after slot parent := by
  rcases schedulerAddTask_tables makes.pid done with ⟨_, rfl⟩ | ⟨slot, tree, leftmost, free, rfl⟩
  · exact .inl makes.keeps
  · have sameSlot : kernel.freeSlot = some slot := freeSlot_congr makes.slots ▸ free
    exact .inr ⟨slot, sameSlot, makes.seated sameSlot tree leftmost⟩

end

theorem Makes.queued (makes : kernel.Makes made parent) {nodes : List TaskId} (queue : kernel.RunQueue nodes)
    (done : made.schedulerAddTask kernel.nextTask = some after) :
    (kernel.freeSlot = none ∧ after = made ∧ after.RunQueue nodes) ∨
    ∃ slot tree leftmost pre later, kernel.freeSlot = some slot ∧
      after = (made.seated kernel.nextTask slot).withQueue tree leftmost ∧ nodes = pre ++ later ∧
      after.RunQueue (pre ++ kernel.nextTask :: later) ∧
      (made.ByVRuntime nodes → made.ByVRuntime (pre ++ kernel.nextTask :: later)) := by
  have more : made.RunQueue nodes := queue.congr makes.tree makes.leftmost (makes.grows ▸ Nat.le_succ _)
  have sameSlot : made.freeSlot = kernel.freeSlot := freeSlot_congr makes.slots
  unfold Kernel.schedulerAddTask at done
  simp only [makes.pid, ne_eq, not_true_eq_false, if_false, sameSlot] at done
  cases free : kernel.freeSlot with
  | none =>
    rw [free] at done
    cases done
    exact .inl ⟨rfl, rfl, more⟩
  | some slot =>
    rw [free] at done
    have placed : (made.seated kernel.nextTask slot).RunQueue nodes := more.congr rfl rfl (Nat.le_refl _)
    have fresh : kernel.nextTask ∉ nodes := fun mem => Nat.lt_irrefl _ (queue.created _ mem)
    have isReady : ((made.assigned kernel.nextTask slot).task kernel.nextTask).state = .ready := by
      simp [Kernel.assigned, makes.state]
    have notIdle : ((made.seated kernel.nextTask slot).task kernel.nextTask).pid ≠ pidIdle := by
      have pos := (freeSlot_spec free).1
      simp only [task_seated, if_true, Task.assign_pid, pidInit, pidIdle] at pos ⊢
      omega
    have vruntimes : ∀ u, ((made.seated kernel.nextTask slot).task u).vruntime = (made.task u).vruntime := by
      intro u
      rw [task_seated]
      split
      case isTrue eq => rw [eq]; rfl
      case isFalse => rfl
    obtain ⟨tree, leftmost, pre, later, enqueued, split, shape, sorted⟩ :=
      placed.cfsEnqueue fresh (makes.grows ▸ Nat.lt_succ_self _) notIdle
    dsimp only at done
    rw [placeTask, if_pos isReady] at done
    obtain rfl := some.inj (done.symm.trans enqueued)
    refine .inr ⟨slot, tree, leftmost, pre, later, rfl, rfl, split, shape, fun ord => ?_⟩
    exact (sorted (ord.congr fun u _ => vruntimes u)).congr fun u _ => (vruntimes u).symm

theorem Makes.queue_kept (makes : kernel.Makes made parent) {nodes : List TaskId} (queue : kernel.RunQueue nodes)
    (done : made.schedulerAddTask kernel.nextTask = some after) : ∃ nodes, after.RunQueue nodes := by
  rcases makes.queued queue done with ⟨_, _, stillQueued⟩ | ⟨_, _, _, pre, later, _, _, _, stillQueued, _⟩
  · exact ⟨nodes, stillQueued⟩
  · exact ⟨_, stillQueued⟩

theorem makes_newTask (kernel : Kernel) {task : Task} (fpu : Nat) (pid : task.pid = noPid) (state : task.state = .ready) :
    kernel.Makes (kernel.newTask task fpu) task.ppid where
  slots := rfl
  tree := rfl
  leftmost := rfl
  grows := rfl
  pid := by simpa using pid
  ppid := by simp
  state := by simpa using state
  same t created := by
    rw [task_newTask, if_neg (Nat.ne_of_lt created)]
    exact SameProcess.refl _

theorem makes_forkChild (kernel : Kernel) (current : TaskId) (rsp cr3 : Nat) :
    kernel.Makes (kernel.forkChild current rsp cr3) (kernel.task current).pid where
  slots := taskArray_forkChild ..
  tree := by
    dsimp only [forkChild]
    cases kernel.forkLeader (kernel.task current) <;> rfl
  leftmost := by
    dsimp only [forkChild]
    cases kernel.forkLeader (kernel.task current) <;> rfl
  grows := nextTask_forkChild ..
  pid := pid_forkChild ..
  ppid := by
    rw [task_forkChild, if_pos rfl]
    split <;> rfl
  state := by
    rw [task_forkChild, if_pos rfl]
    split <;> rfl
  same t created := by
    rw [task_forkChild, if_neg (Nat.ne_of_lt created)]
    split <;> exact ⟨rfl, rfl, .rfl⟩

theorem createKThread_admits {rsp cr3 : Nat} (done : kernel.createKThread rsp cr3 = some after) :
    kernel.Keeps after ∨ ∃ slot, kernel.freeSlot = some slot ∧ kernel.Admits after slot pidIdle :=
  (makes_newTask kernel _ rfl rfl).schedulerAddTask done

theorem makes_taskUserConstructor (kernel : Kernel) (rsp cr3 fpu : Nat) :
    kernel.Makes (kernel.taskUserConstructor rsp cr3 fpu) pidIdle :=
  have makes := @makes_newTask (kernel.loadFpu fpu) (constructed kernel.nextTask noPid rsp cr3 kernel.minVRuntime) fpu rfl rfl
  ⟨makes.slots, makes.tree, makes.leftmost, makes.grows, makes.pid, makes.ppid, makes.state, makes.same⟩

theorem createUserTask_admits {rsp cr3 fpu : Nat} (done : kernel.createUserTask rsp cr3 fpu = some after) :
    kernel.Keeps after ∨ ∃ slot, kernel.freeSlot = some slot ∧ kernel.Admits after slot pidIdle :=
  (makes_taskUserConstructor kernel rsp cr3 fpu).schedulerAddTask done

theorem sysFork_admits {caller : TaskId} {memory : Option (Nat × Nat)} {rax : Nat} (runs : kernel.Runs caller)
    (done : (kernel.runAs caller).sysFork memory = some (rax, after)) :
    (rax = noPid ∧ kernel.Keeps after) ∨
    ∃ slot, kernel.freeSlot = some slot ∧ rax = slot ∧ kernel.Admits after slot (kernel.task caller).pid := by
  rcases sysFork_tables runs.current done with ⟨_, eq, rfl⟩ | ⟨rsp, cr3, _, ⟨_, eq, rfl⟩ | ⟨slot, tree, leftmost, free, eq, rfl⟩⟩
  · exact .inl ⟨eq, Keeps.runAs kernel caller⟩
  · have keeps := (makes_forkChild (kernel.runAs caller) caller rsp cr3).keeps
    exact .inl ⟨eq, keeps.slots, keeps.grows, keeps.same⟩
  · have made := makes_forkChild (kernel.runAs caller) caller rsp cr3
    have admits := made.seated free tree leftmost
    exact .inr ⟨slot, free, eq, admits.slots, admits.free, admits.range, admits.grows, admits.pid, admits.ppid,
      admits.state, admits.same⟩

theorem RunQueue.sysFork {nodes : List TaskId} {memory : Option (Nat × Nat)} {rax : Nat} (queue : kernel.RunQueue nodes)
    (done : kernel.sysFork memory = some (rax, after)) : ∃ nodes, after.RunQueue nodes := by
  obtain ⟨cur, _, done⟩ := bind_eq_some_iff.mp done
  cases memory with
  | none =>
    obtain ⟨_, rfl⟩ := Prod.mk.injEq .. ▸ some.inj done
    exact ⟨nodes, queue⟩
  | some res =>
    obtain ⟨added, add, eq⟩ := map_eq_some_iff.mp done
    obtain ⟨_, rfl⟩ := Prod.mk.injEq .. ▸ eq
    exact (makes_forkChild ..).queue_kept queue add

theorem createIdleTask_admits (kernel : Kernel) (rsp cr3 : Nat) :
    kernel.Keeps (kernel.createIdleTask rsp cr3) ∨ kernel.Admits (kernel.createIdleTask rsp cr3) pidIdle pidIdle := by
  have eq : ∀ t < kernel.nextTask, SameProcess (kernel.task t) (((kernel.constructTask rsp cr3).modify kernel.nextTask
      fun task => { task with pid := pidIdle }).task t) := by
    intro t created
    have dist : t ≠ kernel.nextTask := Nat.ne_of_lt created
    rw [task_modify, if_neg dist, constructTask, task_newTask, if_neg dist]
    exact SameProcess.refl _
  unfold createIdleTask
  split
  case isTrue free =>
    refine .inr ⟨rfl, free, by decide, rfl, ?_, ?_, ?_, eq⟩
    · simp [constructTask]
    · simp [constructTask, constructed, pidIdle]
    · simp [constructTask, constructed]
  case isFalse => exact .inl ⟨rfl, Nat.le_succ _, eq⟩

end

/-- Only the groups and their lists are written. -/
structure Regroups (kernel after : Kernel) : Prop where
  tables : after = { kernel with task := after.task }
  fields : ∀ t, after.task t = (kernel.task t).join (after.task t).pgid (after.task t).pgidTaskPtr

section

variable {kernel middle after : Kernel}

theorem Regroups.refl (kernel : Kernel) : kernel.Regroups kernel := ⟨rfl, fun _ => rfl⟩

theorem Regroups.trans (first : kernel.Regroups middle) (snd : middle.Regroups after) : kernel.Regroups after := by
  constructor
  · rw [snd.tables, first.tables]
  · intro t
    rw [snd.fields t, first.fields t]
    rfl

theorem Regroups.join (kernel : Kernel) (t : TaskId) (pgid : Task → Nat) (next : Option TaskId) :
    kernel.Regroups (kernel.modify t fun task => task.join (pgid task) next) := by
  refine ⟨rfl, fun other => ?_⟩
  rw [task_modify]
  split
  case isTrue eq => rw [eq]; rfl
  case isFalse => rfl

theorem Regroups.linkTo (kernel : Kernel) (t : TaskId) (next : Option TaskId) :
    kernel.Regroups (kernel.modify t (Task.linkTo · next)) :=
  Regroups.join kernel t Task.pgid next

theorem unlinkFromProcGrp_regroups {t : TaskId} (done : kernel.unlinkFromProcGrp t = some after) : kernel.Regroups after := by
  unfold unlinkFromProcGrp at done
  split at done
  · exact some.inj done ▸ Regroups.refl kernel
  cases hf : kernel.getTaskPGID (kernel.task t).pgid with
  | none =>
    rw [hf] at done
    exact some.inj done ▸ Regroups.refl kernel
  | some head =>
    rw [hf] at done
    dsimp only at done
    split at done
    · exact some.inj done ▸ Regroups.linkTo ..
    obtain ⟨prev, _, rfl⟩ := map_eq_some_iff.mp done
    cases prev with
    | none => exact Regroups.linkTo ..
    | some prev =>
      dsimp only
      split
      · exact (Regroups.linkTo ..).trans (Regroups.linkTo ..)
      · exact Regroups.linkTo ..

theorem leaveGroup_regroups {target : TaskId} {pgid : Nat} (done : kernel.leaveGroup target pgid = some after) :
    kernel.Regroups after := by
  unfold leaveGroup at done
  split at done
  · exact unlinkFromProcGrp_regroups done
  · exact some.inj done ▸ Regroups.refl kernel

theorem enterGroup_regroups (target : TaskId) (pgid : Nat) : kernel.Regroups (kernel.enterGroup target pgid).2 := by
  unfold enterGroup
  split
  · exact Regroups.join kernel target (fun _ => pgid) none
  cases kernel.getTaskPID pgid with
  | none => exact Regroups.refl kernel
  | some leader =>
    dsimp only
    split
    · exact Regroups.refl kernel
    · exact (Regroups.join kernel target (fun _ => pgid) _).trans (Regroups.linkTo ..)

theorem sysSetPGID_regroups {pid pgid rax : Nat} (done : kernel.sysSetPGID pid pgid = some (rax, after)) :
    kernel.Regroups after := by
  unfold sysSetPGID at done
  cases hf : kernel.setPGIDTarget pid with
  | none =>
    rw [hf] at done
    obtain ⟨-, rfl⟩ := Prod.mk.injEq .. ▸ some.inj done
    exact Regroups.refl kernel
  | some target =>
    rw [hf] at done
    obtain ⟨cur, _, done⟩ := bind_eq_some_iff.mp done
    split at done
    · obtain ⟨-, rfl⟩ := Prod.mk.injEq .. ▸ some.inj done
      exact Regroups.refl kernel
    obtain ⟨unlinked, unlink, entered⟩ := map_eq_some_iff.mp done
    have first : kernel.Regroups unlinked := leaveGroup_regroups unlink
    obtain rfl : _ = after := congrArg Prod.snd entered
    exact first.trans (enterGroup_regroups ..)

theorem Regroups.keeps (regroups : kernel.Regroups after) : kernel.Keeps after := by
  refine ⟨?_, ?_, fun t _ => ?_⟩
  · rw [regroups.tables]
  · rw [regroups.tables]
  · rw [regroups.fields t]
    exact ⟨rfl, rfl, .rfl⟩

end

end Kernel

end RosKernel.Tasking
