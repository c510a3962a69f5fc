import RosKernel.Tasking.Scheduling

/-! How far a queued task may lag behind `MinVRuntime`.

A driver blocks the current task until its device is done, and then unblocks it without making it
READY.
-/

set_option autoImplicit false

namespace RosKernel.Tasking

open Library Memory

inductive DeviceOp (Queue : Type) where
  | scheduling (op : SchedulingOp Queue)
  | waitForDevice (me : TaskId)
  | unblockTaskWithIOBoost (t : TaskId)

/-- The tasks that wait for a device, beside the scheduler. -/
structure DeviceRun (Queue : Type) extends Scheduling Queue where
  waiting : List TaskId

/-- No task in the run queue, and no task that executes, is more than 10 behind. -/
structure Kernel.LagBounded (kernel : Kernel) : Prop where
  queued : ∃ nodes, kernel.RunQueue nodes ∧ ∀ t ∈ nodes, kernel.minVRuntime - 10 ≤ (kernel.task t).vruntime
  executing : ∀ t, kernel.Executes t → kernel.minVRuntime - 10 ≤ (kernel.task t).vruntime

namespace DeviceRun

variable {Queue : Type}

def step [DecidableEq Queue] (run : DeviceRun Queue) : DeviceOp Queue → Option (DeviceRun Queue)
  | .scheduling op => (run.toScheduling.step op).map ({ run with toScheduling := · })
  | .waitForDevice me => some { run with
      kernel := run.kernel.modify me (Task.setState · .blocked)
      waiting := me :: run.waiting }
  | .unblockTaskWithIOBoost t => (run.kernel.unblockTaskWithIOBoost t).map fun kernel => { run with
      kernel := kernel
      waiting := run.waiting.erase t }

def boot (lapicHz : Nat) (cpu : Cpu) : DeviceRun Queue := ⟨Scheduling.boot lapicHz cpu, []⟩

/-- A driver unblocks a task that waits for its device. -/
def Allowed (run : DeviceRun Queue) : DeviceOp Queue → Prop
  | .scheduling op => run.toScheduling.Allowed op
  | .waitForDevice me => run.kernel.Executes me
  | .unblockTaskWithIOBoost t => t ∈ run.waiting

instance (run : DeviceRun Queue) : DecidablePred run.Allowed
  | .scheduling op => inferInstanceAs (Decidable (run.toScheduling.Allowed op))
  | .waitForDevice me => inferInstanceAs (Decidable (run.kernel.Executes me))
  | .unblockTaskWithIOBoost _ => inferInstanceAs (Decidable (_ ∈ _))

def Undisturbed (run : DeviceRun Queue) : DeviceOp Queue → Prop
  | .scheduling op => run.toScheduling.Undisturbed op
  | op => run.Allowed op

def Plain (run : DeviceRun Queue) : DeviceOp Queue → Prop
  | .scheduling op => run.toScheduling.Plain op
  | op => run.Allowed op

instance (run : DeviceRun Queue) : DecidablePred run.Plain
  | .scheduling op => inferInstanceAs (Decidable (run.toScheduling.Plain op))
  | .waitForDevice me => inferInstanceAs (Decidable (run.kernel.Executes me))
  | .unblockTaskWithIOBoost _ => inferInstanceAs (Decidable (_ ∈ _))

section

variable {run stepped : DeviceRun Queue} {op : DeviceOp Queue} {nodes : List TaskId}
  {lists : Place Queue → List TaskId}

theorem Plain.undisturbed (plain : run.Plain op) : run.Undisturbed op := by
  cases op with
  | scheduling op => exact Scheduling.Plain.undisturbed plain
  | _ => exact plain

def Arranged (run : DeviceRun Queue) : Prop := ∃ nodes lists,
  Kernel.Arranged True run.kernel run.queues nodes lists ∧ lists .device = run.waiting

theorem arranged_boot (lapicHz : Nat) (cpu : Cpu) : (boot lapicHz cpu : DeviceRun Queue).Arranged :=
  ⟨[], fun _ => [], Kernel.arranged_powerOn lapicHz cpu, rfl⟩

theorem Arranged.lagBounded (arr : run.Arranged) : run.kernel.LagBounded := by
  obtain ⟨nodes, lists, arr, _⟩ := arr
  refine ⟨⟨nodes, arr.fair.queue, fun t mem => ?_⟩, fun t executes => ?_⟩
  · exact Nat.sub_le_of_le_add (arr.fair.bounded t mem)
  · exact Nat.sub_le_of_le_add (arr.fair.executing t executes)

variable [DecidableEq Queue]

theorem Arranged.step (arranged : run.Arranged) (undisturbed : run.Undisturbed op) (taken : run.step op = some stepped) :
    run.kernel.minVRuntime ≤ stepped.kernel.minVRuntime ∧ stepped.Arranged := by
  obtain ⟨nodes, lists, arranged, device⟩ := arranged
  cases op with
  | scheduling op =>
    obtain ⟨scheduled, done, rfl⟩ := Option.map_eq_some_iff.mp taken
    obtain ⟨raised, longer, left, kept, same⟩ := Scheduling.Arranges.of_step arranged undisturbed done
    exact ⟨raised, longer, left, kept, same.trans device⟩
  | waitForDevice me =>
    cases taken
    refine ⟨Nat.le_refl _, nodes, _, arranged.waitForDevice undisturbed, ?_⟩
    rw [Function.update_self, device]
  | unblockTaskWithIOBoost t =>
    obtain ⟨after, done, rfl⟩ := Option.map_eq_some_iff.mp taken
    have waits : t ∈ lists .device := device ▸ undisturbed
    obtain ⟨sameMin, longer, kept⟩ := arranged.unblock waits done
    refine ⟨sameMin.ge, longer, _, kept, ?_⟩
    rw [Function.update_self, device]

theorem arranged_of_reaches {lapicHz : Nat} {cpu : Cpu} (hr : Reaches step Undisturbed (boot lapicHz cpu) run) : run.Arranged :=
  hr.invariant Arranged (arranged_boot lapicHz cpu) fun _ _ _ arr undisturbed ht =>
    (arr.step undisturbed ht).2

/-- While ticks and signals write no key in the run queue and signals wake nobody, the lag is bounded. -/
theorem vruntime_lag_bounded {lapicHz : Nat} {cpu : Cpu} (reached : Reaches step Undisturbed (boot lapicHz cpu) run) :
    run.kernel.LagBounded ∧ ∀ op stepped, run.Undisturbed op → run.step op = some stepped →
      run.kernel.minVRuntime ≤ stepped.kernel.minVRuntime := by
  have arr := arranged_of_reaches reached
  exact ⟨arr.lagBounded, fun op stepped undisturbed ht => (arr.step undisturbed ht).1⟩

end

/-- A thread sleeps in a wait queue while the other one is charged 68. -/
def latecomer : List (DeviceOp Unit) :=
  [.createIdleTask 0 0, .createKThread 0 0, .createKThread 0 0, .start, .schedule, .sleepOn 2 (), .schedule,
    .setPriority 1 0 0 19, .tick].map .scheduling

theorem vruntime_lag_bounded_of_woken : ∃ run : DeviceRun Unit, Reaches step Undisturbed (boot 1000 ⟨0, 0, 0⟩) run ∧
    run.kernel.minVRuntime = 68 ∧ run.kernel.cfsLeftmost = some 2 ∧ run.kernel.LagBounded := by
  have ran : (runAll step Plain (latecomer ++ [.scheduling (.wakeUp ())]) (boot 1000 ⟨0, 0, 0⟩)).any (fun run =>
      decide (run.kernel.minVRuntime = 68 ∧ run.kernel.cfsLeftmost = some 2)) = true := by
    decide +kernel
  obtain ⟨run, done, woken⟩ := (Option.any_eq_true ..).mp ran
  obtain ⟨raised, leftmost⟩ := of_decide_eq_true woken
  have hr : Reaches step Undisturbed (boot 1000 ⟨0, 0, 0⟩) run :=
    (Reaches.start.runAll done).mono fun _ _ => Plain.undisturbed
  exact ⟨run, hr, raised, leftmost, (vruntime_lag_bounded hr).1⟩

/-- A signal queues the thread that sleeps with the vruntime that it fell asleep with. -/
theorem signal_queues_stale_vruntime :
    ¬ ∀ lapicHz cpu (run : DeviceRun Unit), Reaches step Allowed (boot lapicHz cpu) run → run.kernel.LagBounded := by
  intro bounded
  have ran : (runAll step Allowed (latecomer ++ [.scheduling (.signal 2 15 false)]) (boot 1000 ⟨0, 0, 0⟩)).any (fun run =>
      decide (run.kernel.minVRuntime = 68 ∧ run.kernel.cfsLeftmost = some 2 ∧ (run.kernel.task 2).vruntime = 0)) = true := by
    decide +kernel
  obtain ⟨run, done, late⟩ := (Option.any_eq_true ..).mp ran
  obtain ⟨raised, leftmost, stale⟩ := of_decide_eq_true late
  obtain ⟨nodes, queue, close⟩ := (bounded 1000 ⟨0, 0, 0⟩ run (Reaches.start.runAll done)).queued
  have inQueue : 2 ∈ nodes := List.mem_of_head? (queue.leftmost.symm.trans leftmost)
  have lag := close 2 inQueue
  rw [raised, stale] at lag
  exact absurd lag (by decide)

end DeviceRun

end RosKernel.Tasking
