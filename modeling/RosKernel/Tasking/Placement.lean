import RosKernel.Tasking.Mutex
import RosKernel.Tasking.Scheduling

/-! Where a task is kept, by its state: a READY one in the run queue, and in no other.

A mutex makes its callers wait in a queue of its own, beside those of `SleepOn`. A task leaves by
`Sys_Exit`.
-/

set_option autoImplicit false

namespace RosKernel.Tasking

open Library Memory Option

inductive PlacementOp (Queue Lock : Type) where
  | scheduling (op : SchedulingOp (Queue ⊕ Lock))
  | acquire (me : TaskId) (lock : Lock)
  | release (me : TaskId) (lock : Lock)
  | exit (me : TaskId)

structure PlacementRun (Queue Lock : Type) extends Scheduling (Queue ⊕ Lock) where
  locked : Lock → Bool
  owner : Lock → Option TaskId

/-- The in-order sequence of the tree holds each READY task once, and no task that waits elsewhere. -/
structure Kernel.Placed {Queue : Type} (kernel : Kernel) (queues : Queue → WaitQueue) (nodes : List TaskId) : Prop where
  queue : kernel.RunQueue nodes
  once : nodes.Nodup
  ready : ∀ t, kernel.Live t → (kernel.task t).pid ≠ pidIdle → (t ∈ nodes ↔ (kernel.task t).state = .ready)
  live : ∀ t ∈ nodes, kernel.Live t ∧ (kernel.task t).pid ≠ pidIdle
  wheel : ∀ index, ∃ sleepers, Chain kernel.nextSleeper (kernel.sleepWheel index) sleepers ∧ ∀ t ∈ sleepers, t ∉ nodes
  waits : ∀ queue, ∃ waiters, Chain kernel.nextWaiter (queues queue).head waiters ∧ ∀ t ∈ waiters, t ∉ nodes
  sorted : kernel.ByVRuntime nodes
  leftmost : kernel.cfsLeftmost = nodes.head?

namespace Kernel

section

variable {Queue : Type} {kernel after : Kernel} {queues : Queue → WaitQueue} {nodes : List TaskId}
  {lists : Place Queue → List TaskId} {me : TaskId}

theorem Arranged.placed (arr : Arranged False kernel queues nodes lists) : kernel.Placed queues nodes where
  queue := arr.fair.queue
  once := arr.fair.queue.nodup
  ready t isLive notIdle :=
    ⟨fun mem => (arr.fair.state t mem).resolve_right (·.1), arr.fair.ready t isLive notIdle⟩
  live := arr.fair.queued
  wheel index := ⟨_, arr.resting.wheel index, fun t mem => (arr.resting.linked _ t mem).2.2.2⟩
  waits queue := ⟨_, (arr.resting.waits queue).chain, fun t mem => (arr.resting.linked _ t mem).2.2.2⟩
  sorted := arr.fair.sorted
  leftmost := arr.fair.queue.leftmost

theorem modify_comm (kernel : Kernel) (t u : TaskId) (first snd : Task → Task)
    (commute : ∀ task, first (snd task) = snd (first task)) :
    (kernel.modify t first).modify u snd = (kernel.modify u snd).modify t first := by
  have tasks : ((kernel.modify t first).modify u snd).task = ((kernel.modify u snd).modify t first).task := by
    funext v
    by_cases isT : v = t <;> by_cases isU : v = u
    · subst isT
      simp [← isU, commute]
    all_goals simp_all
  exact congrArg (fun tasks => { kernel with task := tasks }) tasks

theorem joinQueue_setState (kernel : Kernel) (queue : WaitQueue) (t : TaskId) (state : TaskState) :
    (kernel.modify t (Task.setState · state)).joinQueue queue t =
      (kernel.joinQueue queue t).map fun (queue, kernel) => (queue, kernel.modify t (Task.setState · state)) := by
  obtain ⟨head, tail⟩ := queue
  unfold joinQueue
  have last := kernel.modify_comm t t (Task.setState · state) (fun task => { task with nextWaitTask := none }) fun _ => rfl
  cases head with
  | none => simp only [last, map_some]
  | some head =>
    cases tail with
    | none => rfl
    | some tail =>
      simp only [last, map_some]
      rw [modify_comm _ t tail (Task.setState · state) (fun task => { task with nextWaitTask := some t }) fun _ => rfl]

/-- No task of the parent's pid is BLOCKED. -/
def ParentAwake (kernel : Kernel) (me : TaskId) : Prop :=
  ∀ parent ∈ kernel.getTaskPID (kernel.task me).ppid, (kernel.task parent).state ≠ .blocked

instance (kernel : Kernel) (me : TaskId) : Decidable (kernel.ParentAwake me) := inferInstanceAs (Decidable (∀ _ ∈ _, _))

theorem Arranged.exit (arr : Arranged False kernel queues nodes lists) (executes : kernel.Executes me)
    (awake : kernel.ParentAwake me) : Arranged False kernel.sysExit queues nodes lists := by
  rcases sysExit_tables executes.1 with ⟨_, eq⟩ | ⟨_, tasks, res, dead, others⟩
  · rw [eq]
    exact arr
  have kept : ∀ u ≠ me, tasks u = kernel.task u := by
    intro u other
    refine (others u other).resolve_right ?_
    rintro ⟨isBlocked, ⟨slot, held, parent⟩, _⟩
    have hf : kernel.getTaskPID (kernel.task me).ppid = some u := by
      rw [arr.fair.numbered.getTaskPID, ← parent, arr.fair.numbered.pid slot u held]
      exact held
    exact awake u hf isBlocked
  rw [res]
  refine ⟨arr.fair.stop executes ⟨rfl, rfl, rfl, rfl, rfl, rfl⟩ (fun u other => ?_) ?_ ?_ ?_, ?_⟩
  · dsimp only
    rw [kept u other]
    exact ⟨rfl, rfl, rfl⟩
  · dsimp only
    rw [dead]
    rfl
  · dsimp only
    rw [dead]
    exact fun isReady => nomatch isReady
  · dsimp only
    rw [dead]
    exact fun isRunning => nomatch isRunning
  · refine arr.resting.keep (fun _ => id) rfl fun _ u _ _ isBlocked absent => ?_
    have other : u ≠ me := fun isMe => nomatch (isMe ▸ isBlocked).symm.trans executes.2.2
    dsimp only
    rw [kept u other]
    exact ⟨rfl, isBlocked, rfl, rfl, absent⟩

end

end Kernel

namespace PlacementRun

variable {Queue Lock : Type}

def mutex (run : PlacementRun Queue Lock) (lock : Lock) : Mutex := ⟨run.locked lock, run.owner lock, run.queues (.inr lock)⟩

def withMutex [DecidableEq Lock] [DecidableEq Queue] (run : PlacementRun Queue Lock) (lock : Lock) (mutex : Mutex) (kernel : Kernel) : PlacementRun Queue Lock where
  kernel := kernel
  queues := Function.update run.queues (.inr lock) mutex.waitQueue
  locked := Function.update run.locked lock mutex.locked
  owner := Function.update run.owner lock mutex.owner

def step [DecidableEq Queue] [DecidableEq Lock] (run : PlacementRun Queue Lock) : PlacementOp Queue Lock → Option (PlacementRun Queue Lock)
  | .scheduling op => (run.toScheduling.step op).map ({ run with toScheduling := · })
  | .acquire _ lock => ((run.mutex lock).acquire run.kernel).map fun (mutex, kernel) => run.withMutex lock mutex kernel
  | .release _ lock => ((run.mutex lock).release run.kernel).map fun (mutex, kernel) => run.withMutex lock mutex kernel
  | .exit _ => some { run with kernel := run.kernel.sysExit }

def boot (lapicHz : Nat) (cpu : Cpu) : PlacementRun Queue Lock := ⟨Scheduling.boot lapicHz cpu, fun _ => false, fun _ => none⟩

/-- A mutex is released by its owner. -/
def Allowed (run : PlacementRun Queue Lock) : PlacementOp Queue Lock → Prop
  | .scheduling op => run.toScheduling.Allowed op
  | .acquire me _ | .exit me => run.kernel.Executes me
  | .release me lock => run.kernel.Executes me ∧ run.owner lock = some me

/-- Beside the scheduler's own condition: nobody waits for the mutex, or for the task that exits. -/
def Undisturbed (run : PlacementRun Queue Lock) : PlacementOp Queue Lock → Prop
  | .scheduling op => run.toScheduling.Undisturbed op
  | .acquire me _ => run.kernel.Executes me
  | .release me lock => run.kernel.Executes me ∧ run.owner lock = some me ∧ (run.queues (.inr lock)).head = none
  | .exit me => run.kernel.Executes me ∧ run.kernel.ParentAwake me

def Plain (run : PlacementRun Queue Lock) : PlacementOp Queue Lock → Prop
  | .scheduling op => run.toScheduling.Plain op
  | op => run.Undisturbed op

instance (run : PlacementRun Queue Lock) : DecidablePred run.Allowed
  | .scheduling op => inferInstanceAs (Decidable (run.toScheduling.Allowed op))
  | .acquire me _ | .exit me => inferInstanceAs (Decidable (run.kernel.Executes me))
  | .release .. => inferInstanceAs (Decidable (_ ∧ _))

instance (run : PlacementRun Queue Lock) : DecidablePred run.Plain
  | .scheduling op => inferInstanceAs (Decidable (run.toScheduling.Plain op))
  | .acquire me _ => inferInstanceAs (Decidable (run.kernel.Executes me))
  | .release .. => inferInstanceAs (Decidable (_ ∧ _ ∧ _))
  | .exit _ => inferInstanceAs (Decidable (_ ∧ _))

section

variable {run stepped : PlacementRun Queue Lock} {op : PlacementOp Queue Lock}

theorem Plain.undisturbed (plain : run.Plain op) : run.Undisturbed op := by
  cases op with
  | scheduling op => exact Scheduling.Plain.undisturbed plain
  | _ => exact plain

def Arranged (run : PlacementRun Queue Lock) : Prop := ∃ nodes lists,
  Kernel.Arranged False run.kernel run.queues nodes lists

variable [DecidableEq Queue] [DecidableEq Lock]

theorem Arranged.withMutex (arr : run.Arranged) {lock : Lock} {mutex : Mutex}
    (eq : mutex.waitQueue = run.queues (.inr lock)) : (run.withMutex lock mutex run.kernel).Arranged := by
  obtain ⟨nodes, lists, arr⟩ := arr
  refine ⟨nodes, lists, ?_⟩
  have queues : Function.update run.queues (.inr lock) mutex.waitQueue = run.queues := by
    rw [eq, Function.update_eq_self]
  change Kernel.Arranged False run.kernel (Function.update run.queues (.inr lock) mutex.waitQueue) nodes lists
  rw [queues]
  exact arr

theorem Arranged.acquire (arr : run.Arranged) {me : TaskId} {lock : Lock} {mutex : Mutex} {after : Kernel}
    (executes : run.kernel.Executes me) (done : (run.mutex lock).acquire run.kernel = some (mutex, after)) :
    (run.withMutex lock mutex after).Arranged := by
  unfold Mutex.acquire at done
  split at done
  · cases done
    exact arr.withMutex rfl
  · rw [executes.1, bind_some] at done
    obtain ⟨⟨queue, linked⟩, join, eq⟩ := map_eq_some_iff.mp done
    cases eq
    have sleeps : run.kernel.sleepOn (run.queues (.inr lock)) = some (queue, linked.modify me (Task.setState · .blocked)) := by
      unfold Kernel.sleepOn
      rw [executes.1]
      dsimp only
      rw [Kernel.joinQueue_setState, show run.kernel.joinQueue (run.queues (.inr lock)) me = some (queue, linked) from join]
      rfl
    obtain ⟨nodes, lists, arr⟩ := arr
    obtain ⟨_, entered, asleep, _⟩ := arr.sleepOn executes sleeps
    exact ⟨nodes, entered, asleep⟩

theorem Arranged.step (arranged : run.Arranged) (undisturbed : run.Undisturbed op) (taken : run.step op = some stepped) :
    stepped.Arranged := by
  cases op with
  | scheduling op =>
    obtain ⟨nodes, lists, arranged⟩ := arranged
    obtain ⟨scheduled, done, rfl⟩ := map_eq_some_iff.mp taken
    obtain ⟨_, longer, left, kept, _⟩ := Scheduling.Arranges.of_step arranged undisturbed done
    exact ⟨longer, left, kept⟩
  | acquire me lock =>
    obtain ⟨⟨mutex, after⟩, done, rfl⟩ := map_eq_some_iff.mp taken
    exact arranged.acquire undisturbed done
  | release me lock =>
    obtain ⟨⟨mutex, after⟩, done, rfl⟩ := map_eq_some_iff.mp taken
    have nobody : (run.mutex lock).waitQueue.head = none := undisturbed.2.2
    unfold Mutex.release at done
    rw [nobody] at done
    cases done
    exact arranged.withMutex rfl
  | exit me =>
    obtain ⟨nodes, lists, arranged⟩ := arranged
    cases taken
    exact ⟨nodes, lists, arranged.exit undisturbed.1 undisturbed.2⟩

/-- While no step makes a task READY that it does not queue, or queues one that it does not unlink,
the tasks are kept by their states. -/
theorem tasks_placed {lapicHz : Nat} {cpu : Cpu} (reached : Reaches step Undisturbed (boot lapicHz cpu) run) :
    ∃ nodes, run.kernel.Placed run.queues nodes := by
  have arr : run.Arranged := reached.invariant Arranged ⟨[], fun _ => [], Kernel.arranged_powerOn lapicHz cpu⟩
    fun _ _ _ arr undisturbed ht => arr.step undisturbed ht
  obtain ⟨nodes, lists, arr⟩ := arr
  exact ⟨nodes, arr.placed⟩

end

def threads (count : Nat) : List (PlacementOp Unit Unit) :=
  .scheduling (.createIdleTask 0 0) :: List.replicate count (.scheduling (.createKThread 0 0)) ++ [.scheduling .start]

/-- One thread waits for the mutex that another holds, a third one sleeps, and the fourth is queued. -/
theorem tasks_placed_four_ways : ∃ run : PlacementRun Unit Unit, Reaches step Undisturbed (boot 1000 ⟨0, 0, 0⟩) run ∧
    run.kernel.Executes 1 ∧ (run.queues (.inr ())).head = some 2 ∧ run.kernel.sleepWheel 10 = some 3 ∧
    run.kernel.cfsLeftmost = some 4 ∧ ∃ nodes, run.kernel.Placed run.queues nodes := by
  have ran : (runAll step Plain (threads 4 ++ [.acquire 1 (), .scheduling .schedule, .acquire 2 (), .scheduling .schedule,
      .scheduling (.sleep 3 10), .scheduling .schedule, .scheduling .tick]) (boot 1000 ⟨0, 0, 0⟩)).any (fun run =>
        decide (run.kernel.Executes 1 ∧ (run.queues (.inr ())).head = some 2 ∧ run.kernel.sleepWheel 10 = some 3 ∧
          run.kernel.cfsLeftmost = some 4)) = true := by
    decide +kernel
  obtain ⟨run, done, placed⟩ := (any_eq_true ..).mp ran
  obtain ⟨executes, waits, sleeps, leftmost⟩ := of_decide_eq_true placed
  have hr : Reaches step Undisturbed (boot 1000 ⟨0, 0, 0⟩) run :=
    (Reaches.start.runAll done).mono fun _ _ => Plain.undisturbed
  exact ⟨run, hr, executes, waits, sleeps, leftmost, tasks_placed hr⟩

/-- A signal queues a thread that sleeps, and leaves it in the sleep wheel. -/
theorem signal_queues_sleeper : ¬ ∀ lapicHz cpu (run : PlacementRun Unit Unit),
    Reaches step Allowed (boot lapicHz cpu) run → ∃ nodes, run.kernel.Placed run.queues nodes := by
  intro placed
  have ran : (runAll step Allowed (threads 2 ++ [.scheduling .schedule, .scheduling (.sleep 2 10),
      .scheduling .schedule, .scheduling (.signal 2 15 false)]) (boot 1000 ⟨0, 0, 0⟩)).any (fun run =>
        decide (run.kernel.cfsLeftmost = some 2 ∧ run.kernel.sleepWheel 10 = some 2)) = true := by
    decide +kernel
  obtain ⟨run, done, both⟩ := (any_eq_true ..).mp ran
  obtain ⟨leftmost, sleeps⟩ := of_decide_eq_true both
  obtain ⟨nodes, placed⟩ := placed 1000 ⟨0, 0, 0⟩ run (Reaches.start.runAll done)
  obtain ⟨sleepers, chain, ne⟩ := placed.wheel 10
  have inQueue : 2 ∈ nodes := List.mem_of_head? (placed.leftmost.symm.trans leftmost)
  have inWheel : 2 ∈ sleepers := List.mem_of_head? (chain.head_eq.symm.trans sleeps)
  exact ne 2 inWheel inQueue

end PlacementRun

end RosKernel.Tasking
