import RosKernel.Tasking.Rekeying

/-! The scheduler's operations in any order, over any number of wait queues.

Calls are made by the task that executes; interrupts come at any time.
-/

set_option autoImplicit false

namespace RosKernel.Tasking

open Library Memory Option

inductive SchedulingOp (Queue : Type) where
  | createIdleTask (rsp kernelCr3 : Nat)
  | createKThread (rsp kernelCr3 : Nat)
  | createUserTask (rsp cr3 initFpu : Nat)
  | fork (me : TaskId) (memory : Option (Nat × Nat))
  | start
  | schedule
  | tick
  | advance (ticks : Nat)
  | checkSleepingTasks
  | sleep (me : TaskId) (ms : Nat)
  | sleepNs (me : TaskId) (seconds nanoseconds : Int)
  | sleepMS (me : TaskId) (ms : Nat)
  | sleepOn (me : TaskId) (queue : Queue)
  | wakeUp (queue : Queue)
  | signal (id signal : Nat) (isGroup : Bool)
  | setPriority (me : TaskId) (which who nice : Int)

structure Scheduling (Queue : Type) where
  kernel : Kernel
  queues : Queue → WaitQueue

namespace Kernel

def Queued (kernel : Kernel) (t : TaskId) : Prop := ∃ nodes, kernel.RunQueue nodes ∧ t ∈ nodes

/-- The task is in the sleep wheel, and its tick has come. -/
def Due (kernel : Kernel) (t : TaskId) : Prop := ∃ index sleepers,
  Chain kernel.nextSleeper (kernel.sleepWheel index) sleepers ∧ t ∈ sleepers ∧ (kernel.task t).sleepTick ≤ kernel.lapicTicks

/-- A tick charges no queued task, and no charge overflows. -/
structure TickSafe (kernel : Kernel) : Prop where
  small : ∀ t, kernel.Executes t → (kernel.task t).vruntime + charge (kernel.task t).weight < 2 ^ 64
  apart : ∀ t, kernel.getCurrentTaskPtr = some t → (kernel.task t).state ≠ .running → ¬kernel.Queued t ∧ ¬kernel.Due t

/-- The current task is RUNNING, and its charge does not overflow. -/
def TickPlain (kernel : Kernel) : Prop := ∀ t ∈ kernel.getCurrentTaskPtr,
  (kernel.task t).state = .running ∧ (kernel.task t).vruntime + charge (kernel.task t).weight < 2 ^ 64

instance (kernel : Kernel) : Decidable kernel.TickPlain := inferInstanceAs (Decidable (∀ _ ∈ _, _))

theorem TickSafe.of_plain {kernel : Kernel} (plain : kernel.TickPlain) : kernel.TickSafe where
  small t executes := (plain t executes.1).2
  apart t runs notRunning := absurd (plain t runs).1 notRunning

theorem fair_powerOn {boosts : Prop} (lapicHz : Nat) (cpu : Cpu) : Fair boosts (powerOn lapicHz cpu) [] where
  numbered := numbered_powerOn lapicHz cpu
  queue := runQueue_empty rfl rfl
  queued _ mem := nomatch mem
  state _ mem := nomatch mem
  ready _ live := nomatch live.choose_spec
  running _ live := nomatch live.choose_spec
  sorted := List.Pairwise.nil
  bounded _ mem := nomatch mem
  executing _ executes := nomatch executes.live.choose_spec

theorem arranged_powerOn {Queue : Type} {boosts : Prop} (lapicHz : Nat) (cpu : Cpu) :
    Arranged boosts (powerOn lapicHz cpu) (fun _ : Queue => ⟨none, none⟩) [] fun _ => [] :=
  ⟨fair_powerOn lapicHz cpu, resting_none fun _ => rfl⟩

end Kernel

namespace Scheduling

variable {Queue : Type}

def step [DecidableEq Queue] (scheduling : Scheduling Queue) : SchedulingOp Queue → Option (Scheduling Queue)
  | .createIdleTask rsp kernelCr3 => some { scheduling with kernel := scheduling.kernel.createIdleTask rsp kernelCr3 }
  | .createKThread rsp kernelCr3 => (scheduling.kernel.createKThread rsp kernelCr3).map ({ scheduling with kernel := · })
  | .createUserTask rsp cr3 initFpu =>
    (scheduling.kernel.createUserTask rsp cr3 initFpu).map ({ scheduling with kernel := · })
  | .fork _ memory => (scheduling.kernel.sysFork memory).map fun (_, kernel) => { scheduling with kernel := kernel }
  | .start => scheduling.kernel.schedulerStart.map ({ scheduling with kernel := · })
  | .schedule => scheduling.kernel.schedule.map ({ scheduling with kernel := · })
  | .tick => scheduling.kernel.schedulerTick.map ({ scheduling with kernel := · })
  | .advance ticks => some { scheduling with kernel := { scheduling.kernel with lapicTicks := ticks } }
  | .checkSleepingTasks => scheduling.kernel.checkSleepingTasks.map ({ scheduling with kernel := · })
  | .sleep _ ms => (scheduling.kernel.sleep ms).map ({ scheduling with kernel := · })
  | .sleepNs _ seconds nanoseconds =>
    (scheduling.kernel.sysSleepNs seconds nanoseconds).map ({ scheduling with kernel := · })
  | .sleepMS _ ms => (scheduling.kernel.sysSleepMS ms).map ({ scheduling with kernel := · })
  | .sleepOn _ queue => (scheduling.kernel.sleepOn (scheduling.queues queue)).map fun (changed, kernel) =>
    ⟨kernel, Function.update scheduling.queues queue changed⟩
  | .wakeUp queue => (scheduling.kernel.wakeUp (scheduling.queues queue)).map fun (changed, kernel) =>
    ⟨kernel, Function.update scheduling.queues queue changed⟩
  | .signal id signal isGroup => (scheduling.kernel.setTaskSignal id signal isGroup).map ({ scheduling with kernel := · })
  | .setPriority _ which who nice => (scheduling.kernel.sysSetPriority which who nice).map fun (_, kernel) =>
    { scheduling with kernel := kernel }

def boot (lapicHz : Nat) (cpu : Cpu) : Scheduling Queue := ⟨powerOn lapicHz cpu, fun _ => ⟨none, none⟩⟩

/-- The scheduler is started once, and a pid argument is a 32-bit integer. -/
def Allowed (scheduling : Scheduling Queue) : SchedulingOp Queue → Prop
  | .start => scheduling.kernel.getCurrentTaskPtr = none
  | .fork me _ | .sleep me _ | .sleepNs me _ _ | .sleepMS me _ | .sleepOn me _ => scheduling.kernel.Executes me
  | .setPriority me _ who _ => scheduling.kernel.Executes me ∧ -2 ^ 31 ≤ who ∧ who < 2 ^ 31
  | _ => True

instance (scheduling : Scheduling Queue) : DecidablePred scheduling.Allowed
  | .start => inferInstanceAs (Decidable (_ = _))
  | .fork me _ | .sleep me _ | .sleepNs me _ _ | .sleepMS me _ | .sleepOn me _ =>
    inferInstanceAs (Decidable (scheduling.kernel.Executes me))
  | .setPriority .. => inferInstanceAs (Decidable (_ ∧ _ ∧ _))
  | .createIdleTask .. | .createKThread .. | .createUserTask .. | .schedule | .tick | .advance _ | .checkSleepingTasks
  | .wakeUp _ | .signal .. => .isTrue trivial

/-- Ticks and signals leave the keys of the queued tasks, and signals wake nobody. -/
def Undisturbed (scheduling : Scheduling Queue) : SchedulingOp Queue → Prop
  | .tick => scheduling.kernel.TickSafe
  | .signal id signal isGroup => scheduling.kernel.WakesNobody id isGroup ∧ scheduling.kernel.KeepsKeys id signal isGroup
  | op => scheduling.Allowed op

/-- A condition that can be evaluated: at a tick the current task is RUNNING. -/
def Plain (scheduling : Scheduling Queue) : SchedulingOp Queue → Prop
  | .tick => scheduling.kernel.TickPlain
  | op => scheduling.Undisturbed op

instance (scheduling : Scheduling Queue) : DecidablePred scheduling.Plain
  | .tick => inferInstanceAs (Decidable scheduling.kernel.TickPlain)
  | .signal .. => inferInstanceAs (Decidable (_ ∧ _))
  | .start => inferInstanceAs (Decidable (_ = _))
  | .fork me _ | .sleep me _ | .sleepNs me _ _ | .sleepMS me _ | .sleepOn me _ =>
    inferInstanceAs (Decidable (scheduling.kernel.Executes me))
  | .setPriority .. => inferInstanceAs (Decidable (_ ∧ _ ∧ _))
  | .createIdleTask .. | .createKThread .. | .createUserTask .. | .schedule | .advance _ | .checkSleepingTasks
  | .wakeUp _ => .isTrue trivial

theorem Plain.undisturbed {scheduling : Scheduling Queue} {op : SchedulingOp Queue} (plain : scheduling.Plain op) :
    scheduling.Undisturbed op := by
  cases op with
  | tick => exact Kernel.TickSafe.of_plain plain
  | _ => exact plain

section

variable {boosts : Prop} {scheduling stepped : Scheduling Queue} {nodes : List TaskId} {lists : Place Queue → List TaskId}

/-- The arrangement after a step, with the tasks that wait for a device as before. -/
def Arranges (boosts : Prop) (scheduling stepped : Scheduling Queue) (lists : Place Queue → List TaskId) : Prop :=
  scheduling.kernel.minVRuntime ≤ stepped.kernel.minVRuntime ∧
    ∃ nodes left, Kernel.Arranged boosts stepped.kernel stepped.queues nodes left ∧ left .device = lists .device

section

variable (arr : Kernel.Arranged boosts scheduling.kernel scheduling.queues nodes lists)
include arr

theorem Arranges.of_created {after : Kernel} (created : ∃ longer, scheduling.kernel.Creates after nodes longer) :
    Arranges boosts scheduling { scheduling with kernel := after } lists := by
  obtain ⟨longer, creates⟩ := created
  exact ⟨creates.minVRuntime.ge, longer, lists, arr.created creates, rfl⟩

theorem Arranges.of_switched {after : Kernel} (switched : ∃ next rest, scheduling.kernel.Switches after nodes next rest) :
    Arranges boosts scheduling { scheduling with kernel := after } lists := by
  obtain ⟨next, rest, switches⟩ := switched
  obtain ⟨raised, switched⟩ := arr.switched switches
  exact ⟨raised, rest, lists, switched, rfl⟩

theorem Arranges.of_kept : Arranges boosts scheduling scheduling lists := ⟨Nat.le_refl _, nodes, lists, arr, rfl⟩

theorem waits_of_queued : ∀ t ∈ nodes, scheduling.kernel.Live t ∧ (scheduling.kernel.task t).state ≠ .running := fun t mem =>
  ⟨(arr.fair.queued t mem).1, arr.fair.not_running mem⟩

theorem Arranges.of_setPriority {me : TaskId} {which who nice : Int} (executes : scheduling.kernel.Executes me)
    (lower : -2 ^ 31 ≤ who) (upper : who < 2 ^ 31) {rax : Nat} {after : Kernel}
    (done : scheduling.kernel.sysSetPriority which who nice = some (rax, after)) :
    Arranges boosts scheduling { scheduling with kernel := after } lists := by
  rcases Kernel.sysSetPriority_target executes lower upper done with rfl | ⟨target, pid, clamped, hf, notIdle, changed⟩
  · exact of_kept arr
  · have held := (arr.fair.numbered.getTaskPID pid).symm.trans hf
    obtain ⟨sameMin, longer, kept⟩ := arr.setPriority ⟨pid, held⟩
      (fun _ => arr.fair.numbered.pid pid target held ▸ notIdle) changed
    exact ⟨sameMin.ge, longer, lists, kept, rfl⟩

end

variable [DecidableEq Queue]

section

variable (arr : Kernel.Arranged boosts scheduling.kernel scheduling.queues nodes lists)
include arr

theorem Arranges.of_tick (safe : scheduling.kernel.TickSafe) {after : Kernel}
    (done : scheduling.kernel.schedulerTick = some after) :
    Arranges boosts scheduling { scheduling with kernel := after } lists := by
  obtain ⟨charged, first, switch⟩ := bind_eq_some_iff.mp done
  obtain ⟨woken, wake, charge⟩ := bind_eq_some_iff.mp first
  obtain ⟨longer, fewer, awake, wakes⟩ := arr.checkSleepingTasks wake
  have cur : woken.getCurrentTaskPtr = scheduling.kernel.getCurrentTaskPtr := by
    unfold Kernel.getCurrentTaskPtr
    rw [wakes.slots, wakes.current]
  have ne : ∀ t, woken.getCurrentTaskPtr = some t → t ∉ longer := by
    intro t runs mem
    rw [cur] at runs
    by_cases isRunning : (scheduling.kernel.task t).state = .running
    · have still := wakes.spared t (by rw [isRunning]; decide)
      exact awake.fair.not_running mem (still ▸ isRunning)
    · obtain ⟨notQueued, notDue⟩ := safe.apart t runs isRunning
      rcases wakes.mem t mem with inQueue | ⟨index, sleeps, due⟩
      · exact notQueued ⟨nodes, arr.fair.queue, inQueue⟩
      · exact notDue ⟨index, _, arr.resting.wheel index, sleeps, due⟩
  have lt : ∀ t, woken.Executes t → (woken.task t).vruntime + Kernel.charge (woken.task t).weight < 2 ^ 64 := by
    intro t executes
    have isRunning : (scheduling.kernel.task t).state ≠ .blocked := fun isBlocked =>
      wakes.asleep t isBlocked executes.2.2
    have eq := wakes.spared t isRunning
    rw [eq]
    exact safe.small t ⟨cur.symm.trans executes.1, eq ▸ executes.2.1, eq ▸ executes.2.2⟩
  obtain ⟨sameMin, charged⟩ := awake.chargeCurrent ne lt charge
  obtain ⟨next, rest, switches⟩ := charged.fair.queue.switch charged.fair.numbered
    (fun t mem => ⟨(charged.fair.queued t mem).1, charged.fair.not_running mem⟩) switch
  obtain ⟨raised, switched⟩ := charged.switched switches
  exact ⟨(sameMin.trans wakes.minVRuntime) ▸ raised, rest, fewer, switched, wakes.device⟩

theorem Arranges.of_sleep {me : TaskId} {ticks : Nat} (executes : scheduling.kernel.Executes me) {after : Kernel}
    (done : scheduling.kernel.sleepFor me ticks = some after) :
    Arranges boosts scheduling { scheduling with kernel := after } lists := by
  obtain ⟨sameMin, longer, slept, device⟩ := arr.sleepFor executes done
  exact ⟨sameMin.ge, nodes, longer, slept, device⟩

theorem Arranges.of_step {op : SchedulingOp Queue} (undisturbed : scheduling.Undisturbed op)
    (ht : scheduling.step op = some stepped) : Arranges boosts scheduling stepped lists := by
  have num := arr.fair.numbered
  have queue := arr.fair.queue
  cases op with
  | createIdleTask rsp kernelCr3 =>
    cases ht
    exact of_created arr ⟨nodes, Kernel.creates_idleTask num queue rsp kernelCr3⟩
  | createKThread rsp kernelCr3 =>
    obtain ⟨after, done, rfl⟩ := map_eq_some_iff.mp ht
    exact of_created arr (Kernel.creates_kthread num queue done)
  | createUserTask rsp cr3 initFpu =>
    obtain ⟨after, done, rfl⟩ := map_eq_some_iff.mp ht
    exact of_created arr (Kernel.creates_userTask num queue done)
  | fork me memory =>
    obtain ⟨⟨rax, after⟩, done, rfl⟩ := map_eq_some_iff.mp ht
    rcases Kernel.creates_fork num queue done with rfl | created
    · exact of_kept arr
    · exact of_created arr created
  | start =>
    obtain ⟨after, done, rfl⟩ := map_eq_some_iff.mp ht
    exact of_switched arr (queue.start num (waits_of_queued arr) undisturbed done)
  | schedule =>
    obtain ⟨after, done, rfl⟩ := map_eq_some_iff.mp ht
    exact of_switched arr (queue.switch num (waits_of_queued arr) done)
  | tick =>
    obtain ⟨after, done, rfl⟩ := map_eq_some_iff.mp ht
    exact of_tick arr undisturbed done
  | advance ticks =>
    cases ht
    exact ⟨Nat.le_refl _, nodes, lists, arr.keep ⟨rfl, rfl, rfl, rfl, rfl, rfl⟩ rfl fun _ => ⟨rfl, rfl, rfl, rfl, rfl⟩, rfl⟩
  | checkSleepingTasks =>
    obtain ⟨after, done, rfl⟩ := map_eq_some_iff.mp ht
    obtain ⟨longer, fewer, awake, wakes⟩ := arr.checkSleepingTasks done
    exact ⟨wakes.minVRuntime.ge, longer, fewer, awake, wakes.device⟩
  | sleep me ms =>
    obtain ⟨after, done, rfl⟩ := map_eq_some_iff.mp ht
    have executes : scheduling.kernel.Executes me := undisturbed
    rw [Kernel.sleep, executes.1] at done
    dsimp only at done
    split at done
    · exact some.inj done ▸ of_kept arr
    · exact of_sleep arr executes done
  | sleepNs me seconds nanoseconds =>
    obtain ⟨after, done, rfl⟩ := map_eq_some_iff.mp ht
    have executes : scheduling.kernel.Executes me := undisturbed
    rw [Kernel.sysSleepNs, executes.1] at done
    dsimp only at done
    split at done
    · exact some.inj done ▸ of_kept arr
    · exact of_sleep arr executes done
  | sleepMS me ms =>
    obtain ⟨after, done, rfl⟩ := map_eq_some_iff.mp ht
    have executes : scheduling.kernel.Executes me := undisturbed
    rw [Kernel.sysSleepMS, executes.1] at done
    exact of_sleep arr executes done
  | sleepOn me queue =>
    obtain ⟨⟨changed, after⟩, done, rfl⟩ := map_eq_some_iff.mp ht
    obtain ⟨sameMin, entered, asleep, device⟩ := arr.sleepOn undisturbed done
    exact ⟨sameMin.ge, nodes, entered, asleep, device⟩
  | wakeUp queue =>
    obtain ⟨⟨changed, after⟩, done, rfl⟩ := map_eq_some_iff.mp ht
    obtain ⟨sameMin, longer, left, awake, device⟩ := arr.wakeUp done
    exact ⟨sameMin.ge, longer, left, awake, device⟩
  | signal id signal isGroup =>
    obtain ⟨after, done, rfl⟩ := map_eq_some_iff.mp ht
    obtain ⟨sameMin, kept⟩ := arr.setTaskSignal undisturbed.1 undisturbed.2 done
    exact ⟨sameMin.ge, nodes, lists, kept, rfl⟩
  | setPriority me which who nice =>
    obtain ⟨⟨rax, after⟩, done, rfl⟩ := map_eq_some_iff.mp ht
    obtain ⟨executes, lower, upper⟩ := undisturbed
    exact of_setPriority arr executes lower upper done

end

end

end Scheduling

end RosKernel.Tasking
