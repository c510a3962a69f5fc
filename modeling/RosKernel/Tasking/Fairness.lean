import RosKernel.Tasking.Creation
import RosKernel.Tasking.Switching
import RosKernel.Tasking.Signals

/-! The run queue against the states and the vruntimes of the tasks.

What an operation may do to a task is decided by where the task is: the vruntime of a queued task
is a key of the tree, and that of any other is rewritten before it becomes one.
-/

set_option autoImplicit false

namespace RosKernel.Tasking

open Library Memory Option

namespace Kernel

/-- The READY tasks wait in the order of their vruntimes, which lag behind `MinVRuntime` by 10 at
most. `boosts` allows tasks in the queue that have been boosted but are still BLOCKED. -/
structure Fair (boosts : Prop) (kernel : Kernel) (nodes : List TaskId) : Prop where
  numbered : kernel.Numbered
  queue : kernel.RunQueue nodes
  queued : ∀ t ∈ nodes, kernel.Live t ∧ (kernel.task t).pid ≠ pidIdle
  state : ∀ t ∈ nodes, (kernel.task t).state = .ready ∨ (boosts ∧ (kernel.task t).state = .blocked)
  ready : ∀ t, kernel.Live t → (kernel.task t).pid ≠ pidIdle → (kernel.task t).state = .ready → t ∈ nodes
  running : ∀ t, kernel.Live t → (kernel.task t).pid ≠ pidIdle → (kernel.task t).state = .running → kernel.Executes t
  sorted : kernel.ByVRuntime nodes
  bounded : ∀ t ∈ nodes, kernel.minVRuntime ≤ (kernel.task t).vruntime + 10
  executing : ∀ t, kernel.Executes t → kernel.minVRuntime ≤ (kernel.task t).vruntime + 10

/-- The run queue, the table and the current task are as before. -/
structure SameQueue (kernel after : Kernel) : Prop where
  slots : after.taskArray = kernel.taskArray
  names : after.nextTask = kernel.nextTask
  tree : after.tree = kernel.tree
  leftmost : after.cfsLeftmost = kernel.cfsLeftmost
  minVRuntime : after.minVRuntime = kernel.minVRuntime
  current : after.currentTaskIndex = kernel.currentTaskIndex

section

variable {boosts : Prop} {kernel after : Kernel} {nodes : List TaskId} {t me : TaskId}

theorem SameQueue.modify (kernel : Kernel) (t : TaskId) (change : Task → Task) : kernel.SameQueue (kernel.modify t change) :=
  ⟨rfl, rfl, rfl, rfl, rfl, rfl⟩

theorem SameQueue.live (eq : kernel.SameQueue after) : after.Live t ↔ kernel.Live t := by
  unfold Live
  rw [eq.slots]

theorem SameQueue.getCurrentTaskPtr (eq : kernel.SameQueue after) : after.getCurrentTaskPtr = kernel.getCurrentTaskPtr := by
  unfold Kernel.getCurrentTaskPtr
  rw [eq.slots, eq.current]

theorem SameQueue.runQueue (eq : kernel.SameQueue after) (queue : kernel.RunQueue nodes) : after.RunQueue nodes :=
  queue.congr eq.tree eq.leftmost eq.names.ge

theorem Executes.unique (executes : kernel.Executes me) (also : kernel.Executes t) : t = me :=
  some.inj (also.1.symm.trans executes.1)

theorem Executes.live (executes : kernel.Executes me) : kernel.Live me := live_of_current executes.1

section

variable (fair : Fair boosts kernel nodes)
include fair

theorem Fair.not_running (mem : t ∈ nodes) : (kernel.task t).state ≠ .running := by
  intro isRunning
  rcases fair.state t mem with isReady | ⟨_, isBlocked⟩
  · exact nomatch isRunning.symm.trans isReady
  · exact nomatch isRunning.symm.trans isBlocked

theorem Fair.not_queued (executes : kernel.Executes me) : me ∉ nodes := fun mem =>
  fair.not_running mem executes.2.2

theorem Fair.rekey (same : kernel.SameQueue after)
    (fields : ∀ u, (after.task u).pid = (kernel.task u).pid ∧ (after.task u).state = (kernel.task u).state)
    (keys : ∀ u ∈ nodes, (after.task u).vruntime = (kernel.task u).vruntime)
    (executing : ∀ u, kernel.Executes u → kernel.minVRuntime ≤ (after.task u).vruntime + 10) : Fair boosts after nodes := by
  have sameExecutes : ∀ u, after.Executes u ↔ kernel.Executes u := by
    intro u
    unfold Executes
    rw [same.getCurrentTaskPtr, (fields u).1, (fields u).2]
  exact {
    numbered := fair.numbered.congr same.slots same.names.ge fun u _ => (fields u).1
    queue := same.runQueue fair.queue
    queued := fun u mem => by
      obtain ⟨live, notIdle⟩ := fair.queued u mem
      exact ⟨same.live.mpr live, (fields u).1 ▸ notIdle⟩
    state := fun u mem => by
      rw [(fields u).2]
      exact fair.state u mem
    ready := fun u live notIdle isReady =>
      fair.ready u (same.live.mp live) ((fields u).1 ▸ notIdle) ((fields u).2 ▸ isReady)
    running := fun u live notIdle isRunning =>
      (sameExecutes u).mpr (fair.running u (same.live.mp live) ((fields u).1 ▸ notIdle) ((fields u).2 ▸ isRunning))
    sorted := fair.sorted.congr keys
    bounded := fun u mem => by
      rw [same.minVRuntime, keys u mem]
      exact fair.bounded u mem
    executing := fun u executes => by
      rw [same.minVRuntime]
      exact executing u ((sameExecutes u).mp executes) }

theorem Fair.keep (eq : kernel.SameQueue after)
    (fields : ∀ u, (after.task u).pid = (kernel.task u).pid ∧ (after.task u).state = (kernel.task u).state ∧ (after.task u).vruntime = (kernel.task u).vruntime) :
    Fair boosts after nodes :=
  fair.rekey eq (fun u => ⟨(fields u).1, (fields u).2.1⟩) (fun u _ => (fields u).2.2) fun u executes => by
    rw [(fields u).2.2]
    exact fair.executing u executes

theorem Fair.stop (executes : kernel.Executes me) (same : kernel.SameQueue after)
    (others : ∀ u ≠ me, (after.task u).pid = (kernel.task u).pid ∧ (after.task u).state = (kernel.task u).state ∧ (after.task u).vruntime = (kernel.task u).vruntime)
    (pid : (after.task me).pid = (kernel.task me).pid) (notReady : (after.task me).state ≠ .ready)
    (notRunning : (after.task me).state ≠ .running) : Fair boosts after nodes := by
  have other : ∀ u ∈ nodes, u ≠ me := fun u mem isMe => fair.not_queued executes (isMe ▸ mem)
  have pids : ∀ u, (after.task u).pid = (kernel.task u).pid := by
    intro u
    by_cases isMe : u = me
    · rw [isMe, pid]
    · exact (others u isMe).1
  have noneExecutes : ∀ u, ¬after.Executes u := by
    intro u executesNow
    have isMe : u = me := some.inj (executesNow.1.symm.trans (same.getCurrentTaskPtr.trans executes.1))
    exact notRunning (isMe ▸ executesNow.2.2)
  exact {
    numbered := fair.numbered.congr same.slots same.names.ge fun u _ => pids u
    queue := same.runQueue fair.queue
    queued := fun u mem => by
      obtain ⟨live, notIdle⟩ := fair.queued u mem
      exact ⟨same.live.mpr live, pids u ▸ notIdle⟩
    state := fun u mem => by
      rw [(others u (other u mem)).2.1]
      exact fair.state u mem
    ready := fun u live notIdle isReady => by
      have distinct : u ≠ me := fun isMe => notReady (isMe ▸ isReady)
      exact fair.ready u (same.live.mp live) (pids u ▸ notIdle) ((others u distinct).2.1 ▸ isReady)
    running := fun u live notIdle isRunning => by
      have distinct : u ≠ me := fun isMe => notRunning (isMe ▸ isRunning)
      have executed := fair.running u (same.live.mp live) (pids u ▸ notIdle) ((others u distinct).2.1 ▸ isRunning)
      exact absurd (executes.unique executed) distinct
    sorted := fair.sorted.congr fun u mem => (others u (other u mem)).2.2
    bounded := fun u mem => by
      rw [same.minVRuntime, (others u (other u mem)).2.2]
      exact fair.bounded u mem
    executing := fun u executesNow => absurd executesNow (noneExecutes u) }

theorem Fair.wake {change : Task → Task} (live : kernel.Live t) (notIdle : (kernel.task t).pid ≠ pidIdle)
    (isBlocked : (kernel.task t).state = .blocked) (absent : t ∉ nodes)
    (pid : (change (kernel.task t)).pid = (kernel.task t).pid)
    (state : (change (kernel.task t)).state = .ready ∨ (boosts ∧ (change (kernel.task t)).state = .blocked))
    (near : kernel.minVRuntime ≤ (change (kernel.task t)).vruntime + 10)
    (done : (kernel.modify t change).cfsEnqueue t = some after) :
    ∃ longer, Fair boosts after longer ∧ (∀ u, u ∈ longer ↔ u = t ∨ u ∈ nodes) ∧
      ∃ tree leftmost, after = (kernel.modify t change).withQueue tree leftmost := by
  have notIdleNow : ((kernel.modify t change).task t).pid ≠ pidIdle := by
    rw [task_modify, if_pos rfl, pid]
    exact notIdle
  obtain ⟨tree, leftmost, before, later, enqueued, rfl, shape, sorted⟩ :=
    (fair.queue.modify t change).cfsEnqueue absent (fair.numbered.live_lt live) notIdleNow
  obtain rfl := some.inj (done.symm.trans enqueued)
  have mem : ∀ u, u ∈ before ++ t :: later ↔ u = t ∨ u ∈ before ++ later := by
    intro u
    simp only [List.mem_append, List.mem_cons]
    tauto
  have self : ((kernel.modify t change).task t) = change (kernel.task t) := by rw [task_modify, if_pos rfl]
  have others : ∀ u ≠ t, (kernel.modify t change).task u = kernel.task u := fun u other => by rw [task_modify, if_neg other]
  have pids : ∀ u, ((kernel.modify t change).task u).pid = (kernel.task u).pid := by
    intro u
    by_cases isIt : u = t
    · rw [isIt, self, pid]
    · rw [others u isIt]
  have notRunning : (change (kernel.task t)).state ≠ .running := by
    rcases state with isReady | ⟨_, stillBlocked⟩
    · rw [isReady]; decide
    · rw [stillBlocked]; decide
  have executes : ∀ u, (kernel.modify t change).Executes u → u ≠ t ∧ kernel.Executes u := by
    rintro u ⟨current, notIdle, isRunning⟩
    have other : u ≠ t := by
      rintro rfl
      rw [self] at isRunning
      exact notRunning isRunning
    rw [others u other] at notIdle isRunning
    exact ⟨other, current, notIdle, isRunning⟩
  refine ⟨before ++ t :: later, ?_, mem, tree, leftmost, rfl⟩
  exact {
    numbered := fair.numbered.congr rfl (Nat.le_refl _) fun u _ => pids u
    queue := shape
    queued := fun u member => by
      rw [task_withQueue, pids u]
      rcases (mem u).mp member with rfl | old
      · exact ⟨live, notIdle⟩
      · exact fair.queued u old
    state := fun u member => by
      by_cases isIt : u = t
      · rw [isIt, task_withQueue, self]
        exact state
      · rw [task_withQueue, others u isIt]
        exact fair.state u (((mem u).mp member).resolve_left isIt)
    ready := fun u live notIdle isReady => by
      refine (mem u).mpr ((em (u = t)).imp id fun other => ?_)
      rw [task_withQueue, others u other] at notIdle isReady
      exact fair.ready u live notIdle isReady
    running := fun u live notIdle isRunning => by
      have other : u ≠ t := by
        rintro rfl
        rw [task_withQueue, self] at isRunning
        exact notRunning isRunning
      rw [task_withQueue, others u other] at notIdle isRunning
      obtain ⟨current, _, _⟩ := fair.running u live notIdle isRunning
      refine ⟨current, ?_, ?_⟩ <;> rw [task_withQueue, others u other]
      · exact notIdle
      · exact isRunning
    sorted := sorted (fair.sorted.congr fun u member => by rw [others u fun isIt => absent (isIt ▸ member)])
    bounded := fun u member => by
      rcases (mem u).mp member with rfl | old
      · rw [task_withQueue, self]
        exact near
      · have other : u ≠ t := fun isIt => absent (isIt ▸ old)
        rw [task_withQueue, others u other]
        exact fair.bounded u old
    executing := fun u now => by
      obtain ⟨other, before⟩ := executes u now
      rw [task_withQueue, others u other]
      exact fair.executing u before }

end

theorem Creates.executes {longer : List TaskId} (num : kernel.Numbered) (creates : kernel.Creates after nodes longer)
    (u : TaskId) : after.Executes u ↔ kernel.Executes u := by
  have fields : ∀ u ≠ kernel.nextTask, (after.task u).pid = (kernel.task u).pid ∧
      (after.task u).state = (kernel.task u).state := by
    intro u other
    rw [creates.task u other]
    exact ⟨rfl, rfl⟩
  constructor
  · rintro ⟨cur, notIdle, isRunning⟩
    have other : u ≠ kernel.nextTask := fun isNew => nomatch (isNew ▸ isRunning).symm.trans creates.state
    have live := creates.old u (live_of_current cur) other
    have index : kernel.currentTaskIndex = (kernel.task u).pid := by
      unfold getCurrentTaskPtr at cur
      split at cur
      · rw [← creates.current, ← (fields u other).1, creates.numbered.pid _ u cur]
      · exact nomatch cur
    exact ⟨current_of_index num live index, (fields u other).1 ▸ notIdle, (fields u other).2 ▸ isRunning⟩
  · rintro ⟨cur, notIdle, isRunning⟩
    have live := live_of_current cur
    have other : u ≠ kernel.nextTask := Nat.ne_of_lt (num.live_lt live)
    have index : after.currentTaskIndex = (after.task u).pid := by
      unfold getCurrentTaskPtr at cur
      split at cur
      · rw [creates.current, (fields u other).1, num.pid _ u cur]
      · exact nomatch cur
    refine ⟨current_of_index creates.numbered (creates.live u live) index, ?_, ?_⟩
    · rw [(fields u other).1]
      exact notIdle
    · rw [(fields u other).2]
      exact isRunning

theorem Fair.created {longer : List TaskId} (fair : Fair boosts kernel nodes) (creates : kernel.Creates after nodes longer) :
    Fair boosts after longer := by
  have old : ∀ u ∈ nodes, u ≠ kernel.nextTask := fun u mem => Nat.ne_of_lt (fair.queue.created u mem)
  have fields : ∀ u ≠ kernel.nextTask, (after.task u).pid = (kernel.task u).pid ∧
      (after.task u).state = (kernel.task u).state ∧ (after.task u).vruntime = (kernel.task u).vruntime := by
    intro u other
    rw [creates.task u other]
    exact ⟨rfl, rfl, rfl⟩
  have executes := creates.executes fair.numbered
  exact {
    numbered := creates.numbered
    queue := creates.queue
    queued := fun u mem => by
      rcases (creates.mem u).mp mem with inQueue | ⟨_, live, notIdle⟩
      · obtain ⟨live, notIdle⟩ := fair.queued u inQueue
        exact ⟨creates.live u live, (fields u (old u inQueue)).1 ▸ notIdle⟩
      · exact ⟨live, notIdle⟩
    state := fun u mem => by
      rcases (creates.mem u).mp mem with inQueue | ⟨rfl, _⟩
      · rw [(fields u (old u inQueue)).2.1]
        exact fair.state u inQueue
      · exact .inl creates.state
    ready := fun u live notIdle isReady => by
      refine (creates.mem u).mpr ?_
      by_cases isNew : u = kernel.nextTask
      · exact .inr ⟨isNew, live, notIdle⟩
      · refine .inl (fair.ready u (creates.old u live isNew) ?_ ?_)
        · exact (fields u isNew).1 ▸ notIdle
        · exact (fields u isNew).2.1 ▸ isReady
    running := fun u live notIdle isRunning => by
      have other : u ≠ kernel.nextTask := fun isNew => nomatch (isNew ▸ isRunning).symm.trans creates.state
      refine (executes u).mpr (fair.running u (creates.old u live other) ?_ ?_)
      · exact (fields u other).1 ▸ notIdle
      · exact (fields u other).2.1 ▸ isRunning
    sorted := creates.sorted fair.sorted
    bounded := fun u mem => by
      rw [creates.minVRuntime]
      rcases (creates.mem u).mp mem with inQueue | ⟨rfl, _⟩
      · rw [(fields u (old u inQueue)).2.2]
        exact fair.bounded u inQueue
      · rw [creates.vruntime]
        exact Nat.le_add_right ..
    executing := fun u now => by
      have before := (executes u).mp now
      have other : u ≠ kernel.nextTask := Nat.ne_of_lt (fair.numbered.live_lt before.live)
      rw [creates.minVRuntime, (fields u other).2.2]
      exact fair.executing u before }

theorem Fair.switched {next : TaskId} {rest : List TaskId} (fair : Fair boosts kernel nodes)
    (switches : kernel.Switches after nodes next rest) : Fair boosts after rest ∧ kernel.minVRuntime ≤ after.minVRuntime := by
  have live : ∀ u, after.Live u ↔ kernel.Live u := by
    intro u
    unfold Live
    rw [switches.slots]
  have close : ∀ u, u ∈ nodes ∨ kernel.Executes u → kernel.minVRuntime ≤ (kernel.task u).vruntime + 10 := fun u origin =>
    origin.elim (fair.bounded u) (fair.executing u)
  have onlyNext : ∀ u, after.Executes u → u = next := fun u executes =>
    some.inj (executes.1.symm.trans switches.current)
  obtain ⟨sorted, behind⟩ := switches.sorted fair.sorted
  have bound : ∀ u, (u ∈ nodes ∨ kernel.Executes u) → (u = next ∨ u ∈ rest) →
      after.minVRuntime ≤ (kernel.task u).vruntime + 10 := by
    intro u origin place
    rcases switches.raised with same | ⟨_, raised⟩
    · rw [same]
      exact close u origin
    · rw [raised]
      rcases place with rfl | mem
      · exact Nat.le_add_right ..
      · exact Nat.le_trans (behind u mem) (Nat.le_add_right ..)
  refine ⟨?_, ?_⟩
  · exact {
      numbered := switches.numbered
      queue := switches.queue
      queued := fun u mem => by
        rw [live, switches.pid]
        rcases ((switches.mem u).mp mem).2 with inQueue | executes
        · exact fair.queued u inQueue
        · exact ⟨executes.live, executes.2.1⟩
      state := fun u mem => by
        obtain ⟨other, origin⟩ := (switches.mem u).mp mem
        rcases switches.state u other with ⟨_, isReady⟩ | ⟨idles, same⟩
        · exact .inl isReady
        · rw [same]
          exact fair.state u (origin.resolve_right idles)
      ready := fun u liveNow notIdle isReady => by
        have other : u ≠ next := fun isNext => nomatch (isNext ▸ isReady).symm.trans switches.running
        refine (switches.mem u).mpr ⟨other, ?_⟩
        rcases switches.state u other with ⟨executes, _⟩ | ⟨_, same⟩
        · exact .inr executes
        · exact .inl (fair.ready u ((live u).mp liveNow) (switches.pid u ▸ notIdle) (same ▸ isReady))
      running := fun u liveNow notIdle isRunning => by
        have isNext : u = next := by
          by_contra other
          rcases switches.state u other with ⟨_, isReady⟩ | ⟨idles, same⟩
          · exact nomatch isRunning.symm.trans isReady
          · exact idles (fair.running u ((live u).mp liveNow) (switches.pid u ▸ notIdle) (same ▸ isRunning))
        exact ⟨isNext ▸ switches.current, notIdle, isRunning⟩
      sorted := sorted.congr fun u _ => switches.vruntime u
      bounded := fun u mem => by
        rw [switches.vruntime]
        exact bound u ((switches.mem u).mp mem).2 (.inr mem)
      executing := fun u executes => by
        obtain rfl := onlyNext u executes
        rw [switches.vruntime]
        refine bound u ?_ (.inl rfl)
        rcases switches.chosen with inQueue | executed | isIdle
        · exact .inl inQueue
        · exact .inr executed
        · exact absurd ((switches.pid u).trans isIdle) executes.2.1 }
  · rcases switches.raised with same | ⟨above, raised⟩
    · exact same.ge
    · rw [raised]
      exact Nat.le_of_lt above

end

end Kernel

end RosKernel.Tasking
