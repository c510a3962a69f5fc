import RosKernel.Tasking.Creation
import RosKernel.Tasking.Switching
import RosKernel.Tasking.Signals
import RosKernel.Tasking.WaitQueues

/-! A mutex that `Release` hands to the first task in its wait queue.

A task that waits is inside `Acquire` until the scheduler runs it again. Nothing it does then looks
at the owner, so it holds the mutex if and only if nothing but a `Release` has made it runnable.
-/

set_option autoImplicit false

namespace RosKernel.Tasking

open Library Memory List Option
open Function (update update_of_ne)

structure Mutex where
  locked : Bool
  owner : Option TaskId
  waitQueue : WaitQueue

namespace Mutex

def unlocked : Mutex := ⟨false, none, none, none⟩

/-- `Acquire`, in its wait path up to the yield. -/
def acquire (mutex : Mutex) (kernel : Kernel) : Option (Mutex × Kernel) :=
  if mutex.locked = false then some ({ mutex with locked := true, owner := kernel.getCurrentTaskPtr }, kernel)
  else kernel.getCurrentTaskPtr.bind fun me =>
    (kernel.joinQueue mutex.waitQueue me).map fun (queue, kernel) =>
      ({ mutex with waitQueue := queue }, kernel.modify me (Task.setState · .blocked))

def release (mutex : Mutex) (kernel : Kernel) : Option (Mutex × Kernel) :=
  match mutex.waitQueue.head with
  | some nextTask => (kernel.unblockTaskWithIOBoost nextTask).map fun after =>
    ({ mutex with waitQueue := kernel.leaveQueue mutex.waitQueue nextTask, owner := some nextTask }, after)
  | none => some ({ mutex with locked := false, owner := none }, kernel)

end Mutex

/-- Where a task is with respect to the mutex: `inside` from the return of `Acquire` to `Release`. -/
inductive Phase where
  | outside
  | waiting
  | inside
  deriving DecidableEq

inductive MutexOp where
  | createIdleTask (rsp kernelCr3 : Nat)
  | createKThread (rsp kernelCr3 : Nat)
  | createUserTask (rsp cr3 initFpu : Nat)
  | start
  | schedule
  | acquire (me : TaskId)
  | release (me : TaskId)
  | signal (id signal : Nat) (isGroup : Bool)

/-- Beside the kernel and the mutex, the order in which tasks called `Acquire` and returned from it. -/
structure MutexRun where
  kernel : Kernel
  mutex : Mutex
  phase : TaskId → Phase
  arrived : List TaskId
  obtained : List TaskId

namespace MutexRun

def enter (run : MutexRun) (mutex : Mutex) (kernel : Kernel) (me : TaskId) : MutexRun where
  kernel := kernel
  mutex := mutex
  phase := update run.phase me (if run.mutex.locked then .waiting else .inside)
  arrived := run.arrived ++ [me]
  obtained := if run.mutex.locked then run.obtained else run.obtained ++ [me]

/-- A task that waits returns from `Acquire` when the scheduler runs it. -/
def resume (run : MutexRun) (after : Kernel) : MutexRun :=
  match after.getCurrentTaskPtr with
  | none => { run with kernel := after }
  | some next =>
    if run.phase next = .waiting then { run with
      kernel := after
      phase := update run.phase next .inside
      obtained := run.obtained ++ [next] }
    else { run with kernel := after }

def step (run : MutexRun) : MutexOp → Option MutexRun
  | .createIdleTask rsp kernelCr3 => some { run with kernel := run.kernel.createIdleTask rsp kernelCr3 }
  | .createKThread rsp kernelCr3 => (run.kernel.createKThread rsp kernelCr3).map ({ run with kernel := · })
  | .createUserTask rsp cr3 initFpu => (run.kernel.createUserTask rsp cr3 initFpu).map ({ run with kernel := · })
  | .start => run.kernel.schedulerStart.map run.resume
  | .schedule => run.kernel.schedule.map run.resume
  | .acquire me => (run.mutex.acquire run.kernel).map fun (mutex, kernel) => run.enter mutex kernel me
  | .release me => (run.mutex.release run.kernel).map fun (mutex, kernel) => { run with
      kernel := kernel
      mutex := mutex
      phase := update run.phase me .outside }
  | .signal id signal isGroup => (run.kernel.setTaskSignal id signal isGroup).map ({ run with kernel := · })

def boot (lapicHz : Nat) (cpu : Cpu) : MutexRun := ⟨powerOn lapicHz cpu, .unlocked, fun _ => .outside, [], []⟩

/-- The calls are made by the task that executes, and `Release` by the one that holds the mutex. -/
def Allowed (run : MutexRun) : MutexOp → Prop
  | .start => run.kernel.getCurrentTaskPtr = none
  | .acquire me => run.kernel.Executes me
  | .release me => run.kernel.Executes me ∧ run.phase me = .inside
  | _ => True

instance (run : MutexRun) : DecidablePred run.Allowed
  | .start => inferInstanceAs (Decidable (_ = _))
  | .acquire _ => inferInstanceAs (Decidable (run.kernel.Executes _))
  | .release _ => inferInstanceAs (Decidable (_ ∧ _))
  | .createIdleTask .. | .createKThread .. | .createUserTask .. | .schedule | .signal .. => .isTrue trivial

/-- No signal makes a waiting task READY, and the holder does not wait for itself. -/
def Undisturbed (run : MutexRun) : MutexOp → Prop
  | .acquire me => run.kernel.Executes me ∧ run.phase me ≠ .inside
  | .signal id _ isGroup => run.kernel.WakesNobody id isGroup
  | op => run.Allowed op

instance (run : MutexRun) : DecidablePred run.Undisturbed
  | .acquire _ => inferInstanceAs (Decidable (_ ∧ _))
  | .signal id _ isGroup => inferInstanceAs (Decidable (run.kernel.WakesNobody id isGroup))
  | .start => inferInstanceAs (Decidable (_ = _))
  | .release _ => inferInstanceAs (Decidable (_ ∧ _))
  | .createIdleTask .. | .createKThread .. | .createUserTask .. | .schedule => .isTrue trivial

/-- `Release` has given the mutex to the task, which has not been run since. -/
def HandedTo (run : MutexRun) (t : TaskId) : Prop := run.mutex.owner = some t ∧ run.phase t = .waiting

structure Exclusive (run : MutexRun) : Prop where
  unique : ∀ t other, run.phase t = .inside → run.phase other = .inside → t = other
  owner : ∀ t, run.phase t = .inside → run.mutex.owner = some t
  locked : run.mutex.locked = true ↔ ∃ t, run.phase t = .inside ∨ run.HandedTo t
  firstCome : run.obtained <+: run.arrived
  queued : ∃ waiters, Chain run.kernel.nextWaiter run.mutex.waitQueue.head waiters ∧
    ∀ t ∈ waiters, (run.kernel.task t).state ≠ .running ∧ run.phase t ≠ .inside ∧ run.mutex.owner ≠ some t

/-- The task that the mutex is handed to, if it has not been run since. -/
def handedOff (run : MutexRun) : List TaskId := (run.mutex.owner.filter fun t => run.phase t = .waiting).toList

/-- The run queue holds `nodes` and the mutex makes `waiters` wait, and no task is in both. -/
structure Orderly (run : MutexRun) (nodes waiters : List TaskId) : Prop where
  numbered : run.kernel.Numbered
  queue : run.kernel.RunQueue nodes
  queued : ∀ t ∈ nodes, run.kernel.Live t ∧ (run.kernel.task t).state ≠ .running
  waits : run.kernel.Waits run.mutex.waitQueue waiters
  asleep : ∀ t ∈ waiters, (run.kernel.task t).state = .blocked ∧ run.phase t = .waiting ∧ t ∉ nodes
  partakes : ∀ t, run.phase t ≠ .outside → run.kernel.Live t ∧ (run.kernel.task t).pid ≠ pidIdle
  waiting : ∀ t, run.phase t = .waiting → (run.kernel.task t).state ≠ .running
  pending : ∀ t, run.phase t = .waiting → t ∈ waiters ∨ run.mutex.owner = some t
  owner : ∀ t, run.mutex.owner = some t → run.phase t ≠ .outside ∧ t ∉ waiters
  inside : ∀ t, run.phase t = .inside → run.mutex.owner = some t
  locked : run.mutex.locked = run.mutex.owner.isSome
  unlocked : run.mutex.owner = none → waiters = []
  order : run.arrived = run.obtained ++ run.handedOff ++ waiters

theorem orderly_boot (lapicHz : Nat) (cpu : Cpu) : (boot lapicHz cpu).Orderly [] [] where
  numbered := Kernel.numbered_powerOn lapicHz cpu
  queue := Kernel.runQueue_empty rfl rfl
  queued _ mem := nomatch mem
  waits := Kernel.waits_empty _
  asleep _ mem := nomatch mem
  partakes _ partakes := absurd rfl partakes
  waiting _ waits := nomatch waits
  pending _ waits := nomatch waits
  owner _ owns := nomatch owns
  inside _ isInside := nomatch isInside
  locked := rfl
  unlocked _ := rfl
  order := rfl

section

variable {run : MutexRun} {nodes longer waiters rest : List TaskId} {after : Kernel} {me next : TaskId}

theorem Orderly.exclusive (orderly : run.Orderly nodes waiters) : run.Exclusive where
  unique t other isInside also :=
    some.inj ((orderly.inside t isInside).symm.trans (orderly.inside other also))
  owner := orderly.inside
  locked := by
    rw [orderly.locked, Option.isSome_iff_exists]
    constructor
    · rintro ⟨t, owns⟩
      refine ⟨t, ?_⟩
      cases phase : run.phase t with
      | outside => exact absurd phase (orderly.owner t owns).1
      | waiting => exact .inr ⟨owns, phase⟩
      | inside => exact .inl rfl
    · rintro ⟨t, isInside | handed⟩
      · exact ⟨t, orderly.inside t isInside⟩
      · exact ⟨t, handed.1⟩
  firstCome := by
    rw [orderly.order, append_assoc]
    exact prefix_append ..
  queued := by
    refine ⟨waiters, orderly.waits.chain, fun t mem => ?_⟩
    obtain ⟨isBlocked, isWaiting, _⟩ := orderly.asleep t mem
    refine ⟨?_, ?_, fun owns => (orderly.owner t owns).2 mem⟩
    · rw [isBlocked]
      decide
    · rw [isWaiting]
      decide

theorem Orderly.keep (orderly : run.Orderly nodes waiters) (numbered : after.Numbered) (queue : after.RunQueue longer)
    (queued : ∀ t ∈ longer, after.Live t ∧ (after.task t).state ≠ .running ∧ (t ∈ nodes ∨ ¬run.kernel.Live t))
    (live : ∀ t, run.kernel.Live t → after.Live t)
    (same : ∀ t, run.kernel.Live t → (after.task t).pid = (run.kernel.task t).pid ∧
      (after.task t).state = (run.kernel.task t).state ∧ (after.task t).nextWaitTask = (run.kernel.task t).nextWaitTask) :
    Orderly { run with kernel := after } longer waiters := by
  have partaking : ∀ t ∈ waiters, run.kernel.Live t := by
    intro t mem
    refine (orderly.partakes t ?_).1
    rw [(orderly.asleep t mem).2.1]
    decide
  have kept : ∀ t, run.phase t = .waiting → run.kernel.Live t := fun t isWaiting =>
    (orderly.partakes t (by rw [isWaiting]; decide)).1
  exact {
    numbered := numbered
    queue := queue
    queued := fun t mem => ⟨(queued t mem).1, (queued t mem).2.1⟩
    waits := orderly.waits.congr fun t mem => (same t (partaking t mem)).2.2
    asleep := fun t mem => by
      obtain ⟨isBlocked, isWaiting, absent⟩ := orderly.asleep t mem
      refine ⟨(same t (partaking t mem)).2.1.trans isBlocked, isWaiting, fun inQueue => ?_⟩
      exact (queued t inQueue).2.2.elim absent fun dead => dead (partaking t mem)
    partakes := fun t partakes => by
      obtain ⟨isLive, notIdle⟩ := orderly.partakes t partakes
      exact ⟨live t isLive, fun idle => notIdle ((same t isLive).1.symm.trans idle)⟩
    waiting := fun t isWaiting running =>
      orderly.waiting t isWaiting ((same t (kept t isWaiting)).2.1.symm.trans running)
    pending := orderly.pending
    owner := orderly.owner
    inside := orderly.inside
    locked := orderly.locked
    unlocked := orderly.unlocked
    order := orderly.order }

theorem Orderly.created (ord : run.Orderly nodes waiters) (creates : run.kernel.Creates after nodes longer) :
    Orderly { run with kernel := after } longer waiters := by
  have old : ∀ t, run.kernel.Live t → t ≠ run.kernel.nextTask := fun t live => Nat.ne_of_lt (ord.numbered.live_lt live)
  refine ord.keep creates.numbered creates.queue (fun t mem => ?_) creates.live fun t live => ?_
  · rcases (creates.mem t).mp mem with inQueue | ⟨isNew, live, _⟩
    · obtain ⟨live, notRunning⟩ := ord.queued t inQueue
      rw [creates.task t (old t live)]
      exact ⟨creates.live t live, notRunning, .inl inQueue⟩
    · refine ⟨live, ?_, .inr fun wasLive => old t wasLive isNew⟩
      rw [isNew, creates.state]
      decide
  · rw [creates.task t (old t live)]
    exact ⟨rfl, rfl, rfl⟩

theorem Orderly.signalled (ord : run.Orderly nodes waiters) (marks : run.kernel.Marks after) :
    Orderly { run with kernel := after } nodes waiters := by
  have sameLive : ∀ t, run.kernel.Live t → after.Live t := by
    intro t live
    rw [marks.tables]
    exact live
  have eq : ∀ t, (after.task t).pid = (run.kernel.task t).pid ∧ (after.task t).state = (run.kernel.task t).state ∧
      (after.task t).nextWaitTask = (run.kernel.task t).nextWaitTask := by
    intro t
    rw [marks.fields t]
    exact ⟨rfl, rfl, rfl⟩
  have num : after.Numbered := by
    refine ord.numbered.congr ?_ ?_ fun t _ => (eq t).1
    · rw [marks.tables]
    · rw [marks.tables]
  have queue : after.RunQueue nodes := by
    refine ord.queue.congr ?_ ?_ ?_ <;> rw [marks.tables]
  refine ord.keep num queue (fun t mem => ?_) sameLive fun t _ => eq t
  obtain ⟨live, notRunning⟩ := ord.queued t mem
  exact ⟨sameLive t live, (eq t).2.1 ▸ notRunning, .inl mem⟩

section

variable (orderly : run.Orderly nodes waiters)
include orderly

/-- A task that the scheduler runs is no waiter, so if it waits the mutex is its own. -/
theorem Orderly.switched (switches : run.kernel.Switches after nodes next rest) : (run.resume after).Orderly rest waiters := by
  have awake : ∀ t, run.kernel.Executes t → run.phase t ≠ .waiting := fun t executes isWaiting =>
    orderly.waiting t isWaiting executes.2.2
  have chosen : next ∉ waiters := by
    intro mem
    obtain ⟨_, isWaiting, absent⟩ := orderly.asleep next mem
    rcases switches.chosen with inQueue | executes | idle
    · exact absent inQueue
    · exact awake next executes isWaiting
    · exact (orderly.partakes next (by rw [isWaiting]; decide)).2 idle
  have asleep : ∀ t ≠ next, run.phase t = .waiting → (after.task t).state = (run.kernel.task t).state := by
    intro t other isWaiting
    rcases switches.state t other with ⟨executes, _⟩ | ⟨_, same⟩
    · exact absurd isWaiting (awake t executes)
    · exact same
  have live : ∀ t, run.kernel.Live t → after.Live t := fun t live => live.imp fun slot held => switches.slots ▸ held
  have waits : after.Waits run.mutex.waitQueue waiters := orderly.waits.congr fun t _ => by
    rw [switches.fields t]
    rfl
  have rested : ∀ t ∈ rest, after.Live t ∧ (after.task t).state ≠ .running := by
    intro t mem
    obtain ⟨other, origin⟩ := (switches.mem t).mp mem
    rcases switches.state t other with ⟨executes, isReady⟩ | ⟨idles, same⟩
    · refine ⟨live t (Kernel.live_of_current executes.1), ?_⟩
      rw [isReady]
      decide
    · obtain ⟨wasLive, notRunning⟩ := orderly.queued t (origin.resolve_right idles)
      exact ⟨live t wasLive, same ▸ notRunning⟩
  have stillAsleep : ∀ t ∈ waiters, (after.task t).state = .blocked ∧ run.phase t = .waiting ∧ t ∉ rest := by
    intro t mem
    obtain ⟨isBlocked, isWaiting, absent⟩ := orderly.asleep t mem
    have other : t ≠ next := fun isNext => chosen (isNext ▸ mem)
    refine ⟨(asleep t other isWaiting).trans isBlocked, isWaiting, fun inQueue => ?_⟩
    exact ((switches.mem t).mp inQueue).2.elim absent fun executes => awake t executes isWaiting
  have partakes : ∀ t, run.phase t ≠ .outside → after.Live t ∧ (after.task t).pid ≠ pidIdle := by
    intro t partakes
    obtain ⟨wasLive, notIdle⟩ := orderly.partakes t partakes
    exact ⟨live t wasLive, switches.pid t ▸ notIdle⟩
  have waiting : ∀ t ≠ next, run.phase t = .waiting → (after.task t).state ≠ .running := by
    intro t other isWaiting
    rw [asleep t other isWaiting]
    exact orderly.waiting t isWaiting
  unfold resume
  rw [switches.current]
  dsimp only
  by_cases returns : run.phase next = .waiting
  · rw [if_pos returns]
    have own : run.mutex.owner = some next := (orderly.pending next returns).resolve_left chosen
    have only : ∀ t, run.mutex.owner = some t → t = next := fun t also => some.inj (also.symm.trans own)
    exact {
      numbered := switches.numbered
      queue := switches.queue
      queued := rested
      waits := waits
      asleep := fun t mem => by
        obtain ⟨isBlocked, isWaiting, absent⟩ := stillAsleep t mem
        have other : t ≠ next := fun isNext => chosen (isNext ▸ mem)
        exact ⟨isBlocked, (update_of_ne other ..).trans isWaiting, absent⟩
      partakes := fun t => by
        by_cases isNext : t = next
        · grind
        · simpa [isNext] using partakes t
      waiting := fun t isWaiting => by
        by_cases isNext : t = next
        · simp [isNext] at isWaiting
        · grind
      pending := fun t isWaiting => by
        by_cases isNext : t = next
        · exact .inr (isNext ▸ own)
        · exact orderly.pending t ((update_of_ne isNext ..).symm.trans isWaiting)
      owner := fun t also => by
        rw [only t also]
        exact ⟨by simp, chosen⟩
      inside := fun t isInside => by
        by_cases isNext : t = next
        · exact isNext ▸ own
        · exact orderly.inside t ((update_of_ne isNext ..).symm.trans isInside)
      locked := orderly.locked
      unlocked := orderly.unlocked
      order := by
        have before : run.handedOff = [next] := by simp [handedOff, own, returns]
        rw [orderly.order, before]
        simp [handedOff, own] }
  · rw [if_neg returns]
    have sameWaiting : ∀ t, run.phase t = .waiting → (after.task t).state ≠ .running := fun t isWaiting =>
      waiting t (fun isNext => returns (isNext ▸ isWaiting)) isWaiting
    exact ⟨switches.numbered, switches.queue, rested, waits, stillAsleep, partakes, sameWaiting, orderly.pending,
      orderly.owner, orderly.inside, orderly.locked, orderly.unlocked, orderly.order⟩

section

variable (executes : run.kernel.Executes me)
include executes

theorem Orderly.outside (notInside : run.phase me ≠ .inside) : run.phase me = .outside := by
  cases phase : run.phase me with
  | outside => rfl
  | waiting => exact absurd executes.2.2 (orderly.waiting me phase)
  | inside => exact absurd phase notInside

theorem Orderly.taken (unlocked : run.mutex.locked = false) :
    (run.enter { run.mutex with locked := true, owner := run.kernel.getCurrentTaskPtr } run.kernel me).Orderly nodes waiters := by
  have unowned : run.mutex.owner = none := by
    have isSome := orderly.locked.symm.trans unlocked
    simpa using isSome
  have empty : waiters = [] := orderly.unlocked unowned
  have live : run.kernel.Live me := Kernel.live_of_current executes.1
  subst empty
  have noneInside : ∀ t, run.phase t ≠ .inside := fun t isInside =>
    nomatch unowned.symm.trans (orderly.inside t isInside)
  have noneWaiting : ∀ t, run.phase t ≠ .waiting := fun t isWaiting =>
    (orderly.pending t isWaiting).elim (fun mem => nomatch mem) fun owns => nomatch unowned.symm.trans owns
  unfold enter
  rw [unlocked, executes.1]
  exact {
    numbered := orderly.numbered
    queue := orderly.queue
    queued := orderly.queued
    waits := orderly.waits
    asleep := fun t mem => nomatch mem
    partakes := fun t => by
      by_cases isMe : t = me
      · subst isMe
        exact fun _ => ⟨live, executes.2.1⟩
      · simpa [isMe] using orderly.partakes t
    waiting := fun t isWaiting => by
      by_cases isMe : t = me
      · simp [isMe] at isWaiting
      · grind
    pending := fun t isWaiting => by
      by_cases isMe : t = me
      · simp [isMe] at isWaiting
      · exact absurd ((update_of_ne isMe ..).symm.trans isWaiting) (noneWaiting t)
    owner := fun t owns => by
      cases owns
      simp
    inside := fun t isInside => by
      by_cases isMe : t = me
      · rw [isMe]
      · grind
    locked := rfl
    unlocked := fun unowned => nomatch unowned
    order := by
      rw [orderly.order]
      simp [handedOff, unowned] }

theorem Orderly.queuedUp (outside : run.phase me = .outside) (locked : run.mutex.locked = true) {queue : WaitQueue}
    (joined : run.kernel.joinQueue run.mutex.waitQueue me = some (queue, after)) :
    (run.enter { run.mutex with waitQueue := queue } (after.modify me (Task.setState · .blocked)) me).Orderly nodes
      (waiters ++ [me]) := by
  have notWaiter : me ∉ waiters := fun mem => nomatch outside.symm.trans (orderly.asleep me mem).2.1
  have notOwner : run.mutex.owner ≠ some me := fun owns => (orderly.owner me owns).1 outside
  have notQueued : me ∉ nodes := fun mem => (orderly.queued me mem).2 executes.2.2
  obtain ⟨waits, links, _⟩ := orderly.waits.joinQueue notWaiter joined
  have fields : ∀ t, ((after.modify me (Task.setState · .blocked)).task t).pid = (run.kernel.task t).pid ∧
      ((after.modify me (Task.setState · .blocked)).task t).state = if t = me then .blocked else (run.kernel.task t).state := by
    intro t
    rw [Kernel.task_modify]
    split
    case isTrue same =>
      rw [same, links.fields me]
      exact ⟨rfl, rfl⟩
    case isFalse =>
      rw [links.fields t]
      exact ⟨rfl, rfl⟩
  have slots : (after.modify me (Task.setState · .blocked)).taskArray = run.kernel.taskArray := by
    rw [links.tables]
    rfl
  have live : ∀ t, run.kernel.Live t → (after.modify me (Task.setState · .blocked)).Live t := fun t live =>
    live.imp fun slot held => slots ▸ held
  have shape : (after.modify me (Task.setState · .blocked)).RunQueue nodes := by
    refine orderly.queue.congr ?_ ?_ ?_ <;> rw [links.tables] <;> rfl
  have numbered : (after.modify me (Task.setState · .blocked)).Numbered := by
    refine orderly.numbered.congr slots ?_ fun t _ => (fields t).1
    rw [links.tables]
    rfl
  unfold enter
  rw [locked]
  exact {
    numbered := numbered
    queue := shape
    queued := fun t mem => by
      obtain ⟨wasLive, notRunning⟩ := orderly.queued t mem
      have other : t ≠ me := fun same => notQueued (same ▸ mem)
      refine ⟨live t wasLive, ?_⟩
      rw [(fields t).2, if_neg other]
      exact notRunning
    waits := waits.congr fun t _ => by
      rw [Kernel.task_modify]
      split
      case isTrue same => rw [same]; rfl
      case isFalse => rfl
    asleep := fun t mem => by
      by_cases isMe : t = me
      · grind
      · have old : t ∈ waiters := by simpa [isMe] using mem
        obtain ⟨isBlocked, isWaiting, absent⟩ := orderly.asleep t old
        rw [(fields t).2, if_neg isMe]
        exact ⟨isBlocked, (update_of_ne isMe ..).trans isWaiting, absent⟩
    partakes := fun t partakes => by
      rw [(fields t).1]
      by_cases isMe : t = me
      · subst isMe
        exact ⟨live t (Kernel.live_of_current executes.1), executes.2.1⟩
      · obtain ⟨wasLive, notIdle⟩ := orderly.partakes t (by simpa [isMe] using partakes)
        exact ⟨live t wasLive, notIdle⟩
    waiting := fun t isWaiting => by
      rw [(fields t).2]
      by_cases isMe : t = me
      · simp [isMe]
      · rw [if_neg isMe]
        exact orderly.waiting t (by simpa [isMe] using isWaiting)
    pending := fun t isWaiting => by
      by_cases isMe : t = me
      · exact .inl (by simp [isMe])
      · refine (orderly.pending t (by simpa [isMe] using isWaiting)).imp (fun mem => ?_) id
        exact mem_append_left _ mem
    owner := fun t owns => by
      have other : t ≠ me := fun same => notOwner (same ▸ owns)
      obtain ⟨partakes, notWaiter⟩ := orderly.owner t owns
      simpa [other] using ⟨partakes, notWaiter⟩
    inside := fun t isInside => by
      by_cases isMe : t = me
      · simp [isMe] at isInside
      · exact orderly.inside t (by simpa [isMe] using isInside)
    locked := orderly.locked
    unlocked := fun unowned => by
      rw [orderly.locked, unowned] at locked
      exact nomatch locked
    order := by
      have same : (run.mutex.owner.filter fun t => decide (update run.phase me Phase.waiting t = Phase.waiting)) =
          run.mutex.owner.filter fun t => decide (run.phase t = .waiting) := by
        cases owner : run.mutex.owner with
        | none => rfl
        | some t =>
          have other : t ≠ me := fun same => notOwner (owner.trans (congrArg some same))
          simp [Option.filter, other]
      rw [orderly.order]
      simp [handedOff, same] }

end

end

theorem Orderly.acquired (ord : run.Orderly nodes waiters) (executes : run.kernel.Executes me)
    (notInside : run.phase me ≠ .inside) {mutex : Mutex} (done : run.mutex.acquire run.kernel = some (mutex, after)) :
    ∃ longer, (run.enter mutex after me).Orderly nodes longer := by
  unfold Mutex.acquire at done
  split at done
  case isTrue unlocked =>
    cases done
    exact ⟨waiters, ord.taken executes unlocked⟩
  case isFalse locked =>
    rw [executes.1, Option.bind_some] at done
    obtain ⟨⟨queue, joined⟩, join, eq⟩ := Option.map_eq_some_iff.mp done
    cases eq
    have isLocked : run.mutex.locked = true := by simpa using locked
    exact ⟨waiters ++ [me], ord.queuedUp executes (ord.outside executes notInside) isLocked join⟩

theorem Orderly.unlock (orderly : run.Orderly nodes []) (isInside : run.phase me = .inside) :
    Orderly { run with
      mutex := { run.mutex with locked := false, owner := none }
      phase := update run.phase me .outside } nodes [] := by
  have own := orderly.inside me isInside
  have others : ∀ t, update run.phase me .outside t = .outside := by
    intro t
    by_cases isMe : t = me
    · simp [isMe]
    rw [update_of_ne isMe]
    cases phase : run.phase t with
    | outside => rfl
    | waiting =>
      rcases orderly.pending t phase with mem | owns
      · exact nomatch mem
      · exact absurd (some.inj (owns.symm.trans own)) isMe
    | inside => exact absurd (some.inj ((orderly.inside t phase).symm.trans own)) isMe
  exact {
    numbered := orderly.numbered
    queue := orderly.queue
    queued := orderly.queued
    waits := orderly.waits
    asleep := fun t mem => nomatch mem
    partakes := fun t partakes => absurd (others t) partakes
    waiting := fun t isWaiting => nomatch (others t).symm.trans isWaiting
    pending := fun t isWaiting => nomatch (others t).symm.trans isWaiting
    owner := fun t owns => nomatch owns
    inside := fun t inside => nomatch (others t).symm.trans inside
    locked := rfl
    unlocked := fun _ => rfl
    order := by
      rw [orderly.order]
      simp [handedOff, own, isInside] }

theorem Orderly.handOver {first : TaskId} (orderly : run.Orderly nodes (first :: rest)) (isInside : run.phase me = .inside)
    (done : run.kernel.unblockTaskWithIOBoost first = some after) :
    ∃ longer, Orderly { run with
      kernel := after
      mutex := { run.mutex with waitQueue := run.kernel.leaveQueue run.mutex.waitQueue first, owner := some first }
      phase := update run.phase me .outside } longer rest := by
  have own := orderly.inside me isInside
  obtain ⟨isBlocked, isWaiting, absent⟩ := orderly.asleep first mem_cons_self
  obtain ⟨firstLive, notIdle⟩ := orderly.partakes first (by rw [isWaiting]; decide)
  have notMe : ∀ t, run.phase t = .waiting → t ≠ me := by
    rintro t isWaiting rfl
    exact nomatch isWaiting.symm.trans isInside
  have firstOther : first ≠ me := notMe first isWaiting
  have freshPid : ((run.kernel.modify first fun task =>
      { task with vruntime := run.kernel.wakeVRuntime 0 }).task first).pid ≠ pidIdle := by
    simpa using notIdle
  obtain ⟨tree, leftmost, before, later, enqueued, split, shape, _⟩ := (orderly.queue.modify first fun task =>
    { task with vruntime := run.kernel.wakeVRuntime 0 }).cfsEnqueue absent (orderly.numbered.live_lt firstLive) freshPid
  obtain rfl := some.inj (done.symm.trans enqueued)
  have fields : ∀ t, ((run.kernel.modify first fun task => { task with vruntime := run.kernel.wakeVRuntime 0 }).task t).pid =
      (run.kernel.task t).pid ∧
      ((run.kernel.modify first fun task => { task with vruntime := run.kernel.wakeVRuntime 0 }).task t).state =
        (run.kernel.task t).state ∧
      ((run.kernel.modify first fun task => { task with vruntime := run.kernel.wakeVRuntime 0 }).task t).nextWaitTask =
        (run.kernel.task t).nextWaitTask := by
    intro t
    rw [Kernel.task_modify]
    split
    case isTrue same => rw [same]; exact ⟨rfl, rfl, rfl⟩
    case isFalse => exact ⟨rfl, rfl, rfl⟩
  have mem : ∀ t, t ∈ before ++ first :: later → t = first ∨ t ∈ nodes := by
    intro t member
    rw [split]
    simp only [mem_append, mem_cons] at member ⊢
    tauto
  have distinct := nodup_cons.mp orderly.waits.nodup
  have waits : (run.kernel.modify first fun task => { task with vruntime := run.kernel.wakeVRuntime 0 }).Waits
      (run.kernel.leaveQueue run.mutex.waitQueue first) rest :=
    orderly.waits.leaveQueue.congr fun t _ => (fields t).2.2
  exact ⟨before ++ first :: later, {
    numbered := orderly.numbered.congr rfl (Nat.le_refl _) fun t _ => (fields t).1
    queue := shape
    queued := fun t member => by
      rw [Kernel.task_withQueue, (fields t).2.1]
      rcases mem t member with rfl | inQueue
      · exact ⟨firstLive, by rw [isBlocked]; decide⟩
      · exact orderly.queued t inQueue
    waits := ⟨waits.chain, waits.tail, waits.nodup⟩
    asleep := fun t member => by
      obtain ⟨isBlocked, isWaiting, absent⟩ := orderly.asleep t (mem_cons_of_mem first member)
      rw [Kernel.task_withQueue, (fields t).2.1]
      refine ⟨isBlocked, (update_of_ne (notMe t isWaiting) ..).trans isWaiting, fun inQueue => ?_⟩
      exact (mem t inQueue).elim (fun same => distinct.1 (same ▸ member)) absent
    partakes := fun t partakes => by
      rw [Kernel.task_withQueue, (fields t).1]
      by_cases isMe : t = me
      · simp [isMe] at partakes
      · exact orderly.partakes t (by simpa [isMe] using partakes)
    waiting := fun t isWaiting => by
      rw [Kernel.task_withQueue, (fields t).2.1]
      by_cases isMe : t = me
      · simp [isMe] at isWaiting
      · exact orderly.waiting t (by simpa [isMe] using isWaiting)
    pending := fun t isWaiting => by
      by_cases isMe : t = me
      · simp [isMe] at isWaiting
      rcases orderly.pending t (by simpa [isMe] using isWaiting) with member | owns
      · grind
      · exact absurd (some.inj (owns.symm.trans own)) isMe
    owner := fun t owns => by
      cases owns
      refine ⟨?_, distinct.1⟩
      simp [firstOther, isWaiting]
    inside := fun t inside => by
      by_cases isMe : t = me
      · simp [isMe] at inside
      · have before : run.phase t = .inside := by simpa [isMe] using inside
        exact absurd (some.inj ((orderly.inside t before).symm.trans own)) isMe
    locked := by
      have wasLocked := orderly.locked
      rw [own] at wasLocked
      exact wasLocked
    unlocked := fun unowned => nomatch unowned
    order := by
      have held : run.handedOff = [] := by simp [handedOff, own, isInside]
      have handed : update run.phase me .outside first = .waiting := by simp [firstOther, isWaiting]
      rw [orderly.order, held]
      simp [handedOff, Option.filter, handed] }⟩

theorem Orderly.released (ord : run.Orderly nodes waiters) (isInside : run.phase me = .inside) {mutex : Mutex}
    (done : run.mutex.release run.kernel = some (mutex, after)) : ∃ longer waiters, Orderly { run with
      kernel := after
      mutex := mutex
      phase := update run.phase me .outside } longer waiters := by
  unfold Mutex.release at done
  rw [ord.waits.chain.head_eq] at done
  cases waiters with
  | nil =>
    cases done
    exact ⟨nodes, [], ord.unlock isInside⟩
  | cons first rest =>
    obtain ⟨woken, unblock, eq⟩ := Option.map_eq_some_iff.mp done
    cases eq
    obtain ⟨longer, ord⟩ := ord.handOver isInside unblock
    exact ⟨longer, rest, ord⟩

theorem Orderly.ofStep (ord : run.Orderly nodes waiters) {op : MutexOp} {hs : MutexRun}
    (undisturbed : run.Undisturbed op) (done : run.step op = some hs) :
    ∃ nodes waiters, hs.Orderly nodes waiters := by
  cases op with
  | createIdleTask rsp kernelCr3 =>
    cases done
    exact ⟨nodes, waiters, ord.created (Kernel.creates_idleTask ord.numbered ord.queue rsp kernelCr3)⟩
  | createKThread rsp kernelCr3 =>
    obtain ⟨after, create, rfl⟩ := Option.map_eq_some_iff.mp done
    obtain ⟨longer, creates⟩ := Kernel.creates_kthread ord.numbered ord.queue create
    exact ⟨longer, waiters, ord.created creates⟩
  | createUserTask rsp cr3 initFpu =>
    obtain ⟨after, create, rfl⟩ := Option.map_eq_some_iff.mp done
    obtain ⟨longer, creates⟩ := Kernel.creates_userTask ord.numbered ord.queue create
    exact ⟨longer, waiters, ord.created creates⟩
  | start =>
    obtain ⟨after, start, rfl⟩ := Option.map_eq_some_iff.mp done
    obtain ⟨next, rest, switches⟩ := ord.queue.start ord.numbered ord.queued undisturbed start
    exact ⟨rest, waiters, ord.switched switches⟩
  | schedule =>
    obtain ⟨after, schedule, rfl⟩ := Option.map_eq_some_iff.mp done
    obtain ⟨next, rest, switches⟩ := ord.queue.switch ord.numbered ord.queued schedule
    exact ⟨rest, waiters, ord.switched switches⟩
  | acquire me =>
    obtain ⟨⟨mutex, after⟩, acquire, rfl⟩ := Option.map_eq_some_iff.mp done
    obtain ⟨longer, ord⟩ := ord.acquired undisturbed.1 undisturbed.2 acquire
    exact ⟨nodes, longer, ord⟩
  | release me =>
    obtain ⟨⟨mutex, after⟩, release, rfl⟩ := Option.map_eq_some_iff.mp done
    exact ord.released undisturbed.2 release
  | signal id signal isGroup =>
    obtain ⟨after, send, rfl⟩ := Option.map_eq_some_iff.mp done
    exact ⟨nodes, waiters, ord.signalled (Kernel.setTaskSignal_marks undisturbed send)⟩

end

/-- While no signal wakes a waiter, the mutex excludes and serves its callers in order. -/
theorem mutual_exclusion {lapicHz : Nat} {cpu : Cpu} {run : MutexRun}
    (reached : Reaches step Undisturbed (boot lapicHz cpu) run) : run.Exclusive := by
  have ord : ∃ nodes waiters, run.Orderly nodes waiters := by
    refine reached.invariant (fun run => ∃ nodes waiters, run.Orderly nodes waiters)
      ⟨[], [], orderly_boot lapicHz cpu⟩ ?_
    rintro run op after ⟨nodes, waiters, ord⟩ undisturbed hs
    exact ord.ofStep undisturbed hs
  obtain ⟨nodes, waiters, ord⟩ := ord
  exact ord.exclusive

/-- Two threads call `Acquire`, and the second waits. -/
def contention : List MutexOp :=
  [.createIdleTask 0 0, .createKThread 0 0, .createKThread 0 0, .start, .acquire 1, .schedule, .acquire 2, .schedule]

theorem mutual_exclusion_after_hand_over :
    ∃ run, Reaches step Undisturbed (boot 1000 ⟨0, 0, 0⟩) run ∧ run.obtained = [1, 2] ∧ run.Exclusive := by
  have ran : (runAll step Undisturbed (contention ++ [.release 1, .schedule]) (boot 1000 ⟨0, 0, 0⟩)).any (fun run =>
      decide (run.obtained = [1, 2])) = true := by
    decide +kernel
  obtain ⟨run, done, obtained⟩ := (Option.any_eq_true ..).mp ran
  have hr := Reaches.start.runAll done
  exact ⟨run, hr, of_decide_eq_true obtained, mutual_exclusion hr⟩

/-- A signal makes the waiter READY, which returns from `Acquire` while the other task holds the mutex. -/
theorem waiter_woken_by_signal :
    ¬ ∀ lapicHz cpu run, Reaches step Allowed (boot lapicHz cpu) run → run.Exclusive := by
  intro exclusive
  have ran : (runAll step Allowed (contention ++ [.signal 2 15 false, .schedule]) (boot 1000 ⟨0, 0, 0⟩)).any (fun run =>
      decide (run.phase 1 = .inside ∧ run.phase 2 = .inside)) = true := by
    decide +kernel
  obtain ⟨run, done, both⟩ := (Option.any_eq_true ..).mp ran
  obtain ⟨first, snd⟩ := of_decide_eq_true both
  exact absurd ((exclusive 1000 ⟨0, 0, 0⟩ run (Reaches.start.runAll done)).unique 1 2 first snd) (by decide)

end MutexRun

end RosKernel.Tasking
