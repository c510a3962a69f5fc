import RosKernel.Tasking.Fairness
import RosKernel.Tasking.WaitQueues

/-! Where the BLOCKED tasks are linked, and the operations that block the current task or wake a blocked one.

A task is linked in one place at most, and never while it is in the run queue, so an operation that wakes it finds it BLOCKED
and leaves it nowhere but in the run queue.
-/

set_option autoImplicit false

namespace RosKernel.Tasking

open Library Memory List Option
open Function (update update_eq_self update_of_ne update_self)

/-- The places where a BLOCKED task waits; a driver remembers the tasks that wait for a device. -/
inductive Place (Queue : Type) where
  | bucket (index : Nat)
  | queue (queue : Queue)
  | device
  deriving DecidableEq

namespace Kernel

structure Resting {Queue : Type} (kernel : Kernel) (queues : Queue → WaitQueue) (nodes : List TaskId)
    (lists : Place Queue → List TaskId) : Prop where
  linked : ∀ place, ∀ t ∈ lists place, kernel.Live t ∧ (kernel.task t).pid ≠ pidIdle ∧
    (kernel.task t).state = .blocked ∧ t ∉ nodes
  apart : ∀ place other t, t ∈ lists place → t ∈ lists other → place = other
  distinct : ∀ place, (lists place).Nodup
  wheel : ∀ index, Chain kernel.nextSleeper (kernel.sleepWheel index) (lists (.bucket index))
  waits : ∀ queue, kernel.Waits (queues queue) (lists (.queue queue))

section

variable {Queue : Type} {kernel after : Kernel} {queues : Queue → WaitQueue}
  {nodes longer : List TaskId} {lists : Place Queue → List TaskId} {t me : TaskId}

theorem resting_none (wheel : ∀ index, kernel.sleepWheel index = none) :
    kernel.Resting (fun _ : Queue => ⟨none, none⟩) nodes fun _ => [] where
  linked _ _ mem := nomatch mem
  apart _ _ _ mem := nomatch mem
  distinct _ := nodup_nil
  wheel index := wheel index
  waits _ := waits_empty kernel

theorem Resting.not_linked (resting : kernel.Resting queues nodes lists) (awake : (kernel.task t).state ≠ .blocked)
    (place : Place Queue) : t ∉ lists place := fun mem => awake (resting.linked place t mem).2.2.1

theorem Resting.keep (resting : kernel.Resting queues nodes lists) (live : ∀ u, kernel.Live u → after.Live u)
    (wheel : after.sleepWheel = kernel.sleepWheel)
    (same : ∀ place, ∀ u ∈ lists place, kernel.Live u → (kernel.task u).state = .blocked → u ∉ nodes →
      (after.task u).pid = (kernel.task u).pid ∧ (after.task u).state = .blocked ∧
      (after.task u).nextSleepQueue = (kernel.task u).nextSleepQueue ∧
      (after.task u).nextWaitTask = (kernel.task u).nextWaitTask ∧ u ∉ longer) :
    after.Resting queues longer lists := by
  have kept : ∀ place, ∀ u ∈ lists place, (after.task u).pid = (kernel.task u).pid ∧ (after.task u).state = .blocked ∧
      (after.task u).nextSleepQueue = (kernel.task u).nextSleepQueue ∧
      (after.task u).nextWaitTask = (kernel.task u).nextWaitTask ∧ u ∉ longer := by
    intro place u mem
    obtain ⟨isLive, _, isBlocked, absent⟩ := resting.linked place u mem
    exact same place u mem isLive isBlocked absent
  exact {
    linked := fun place u mem => by
      obtain ⟨isLive, notIdle, _, _⟩ := resting.linked place u mem
      obtain ⟨pid, isBlocked, _, _, absent⟩ := kept place u mem
      exact ⟨live u isLive, pid ▸ notIdle, isBlocked, absent⟩
    apart := resting.apart
    distinct := resting.distinct
    wheel := fun index => by
      rw [wheel]
      exact (resting.wheel index).congr fun u mem => (kept _ u mem).2.2.1
    waits := fun queue => (resting.waits queue).congr fun u mem => (kept _ u mem).2.2.2.1 }

variable [DecidableEq Queue]

theorem Resting.enter (resting : kernel.Resting queues nodes lists) {place : Place Queue} {entered : List TaskId}
    {others : Queue → WaitQueue} (executes : kernel.Executes me) (absent : me ∉ nodes)
    (live : ∀ u, kernel.Live u → after.Live u) (pid : ∀ u, (after.task u).pid = (kernel.task u).pid)
    (state : ∀ u ≠ me, (after.task u).state = (kernel.task u).state) (isBlocked : (after.task me).state = .blocked)
    (mem : ∀ u, u ∈ entered ↔ u = me ∨ u ∈ lists place) (nodup : entered.Nodup)
    (wheel : ∀ index, Chain after.nextSleeper (after.sleepWheel index) (update lists place entered (.bucket index)))
    (waits : ∀ queue, after.Waits (others queue) (update lists place entered (.queue queue))) :
    after.Resting others nodes (update lists place entered) := by
  have outside : ∀ place, me ∉ lists place := resting.not_linked (by rw [executes.2.2]; decide)
  have origin : ∀ other u, u ∈ update lists place entered other →
      (u = me ∧ other = place) ∨ (u ≠ me ∧ u ∈ lists other) := by
    intro other u member
    by_cases here : other = place
    · subst here
      rw [update_self] at member
      by_cases isMe : u = me
      · exact .inl ⟨isMe, rfl⟩
      · exact .inr ⟨isMe, ((mem u).mp member).resolve_left isMe⟩
    · grind
  exact {
    linked := fun other u member => by
      rcases origin other u member with ⟨rfl, _⟩ | ⟨notMe, member⟩
      · exact ⟨live u executes.live, pid u ▸ executes.2.1, isBlocked, absent⟩
      · obtain ⟨isLive, notIdle, wasBlocked, notQueued⟩ := resting.linked other u member
        exact ⟨live u isLive, pid u ▸ notIdle, (state u notMe).trans wasBlocked, notQueued⟩
    apart := fun first second u member also => by
      rcases origin first u member with ⟨isMe, rfl⟩ | ⟨notMe, member⟩
      · grind
      · rcases origin second u also with ⟨isMe, _⟩ | ⟨_, also⟩
        · exact absurd isMe notMe
        · exact resting.apart first second u member also
    distinct := fun other => by
      by_cases here : other = place
      · rw [here, update_self]
        exact nodup
      · rw [update_of_ne here]
        exact resting.distinct other
    wheel := wheel
    waits := waits }

theorem Resting.leave (resting : kernel.Resting queues nodes lists) {place : Place Queue} {left : List TaskId}
    {others : Queue → WaitQueue} (live : ∀ u, kernel.Live u → after.Live u)
    (pid : ∀ u, (after.task u).pid = (kernel.task u).pid) (state : ∀ u ≠ t, (after.task u).state = (kernel.task u).state)
    (mem : ∀ u, u ∈ left ↔ u ≠ t ∧ u ∈ lists place) (isHere : t ∈ lists place) (nodup : left.Nodup)
    (queued : ∀ u, u ∈ longer ↔ u = t ∨ u ∈ nodes)
    (wheel : ∀ index, Chain after.nextSleeper (after.sleepWheel index) (update lists place left (.bucket index)))
    (waits : ∀ queue, after.Waits (others queue) (update lists place left (.queue queue))) :
    after.Resting others longer (update lists place left) := by
  have origin : ∀ other u, u ∈ update lists place left other → u ≠ t ∧ u ∈ lists other := by
    intro other u member
    by_cases here : other = place
    · grind
    · rw [update_of_ne here] at member
      exact ⟨fun isIt => here (resting.apart other place t (isIt ▸ member) isHere), member⟩
  exact {
    linked := fun other u member => by
      obtain ⟨distinct, member⟩ := origin other u member
      obtain ⟨isLive, notIdle, isBlocked, absent⟩ := resting.linked other u member
      exact ⟨live u isLive, pid u ▸ notIdle, (state u distinct).trans isBlocked,
        fun inQueue => ((queued u).mp inQueue).elim distinct absent⟩
    apart := fun first second u member also =>
      resting.apart first second u (origin first u member).2 (origin second u also).2
    distinct := fun other => by
      by_cases here : other = place
      · rw [here, update_self]
        exact nodup
      · rw [update_of_ne here]
        exact resting.distinct other
    wheel := wheel
    waits := waits }

end

/-- The run queue, the sleep wheel and the wait queues share out the tasks. -/
structure Arranged {Queue : Type} (boosts : Prop) (kernel : Kernel) (queues : Queue → WaitQueue) (nodes : List TaskId)
    (lists : Place Queue → List TaskId) : Prop where
  fair : Fair boosts kernel nodes
  resting : kernel.Resting queues nodes lists

/-- Sleepers whose tick is not after `now` may have been woken; no other task has been queued, and
none that is not BLOCKED has been written. -/
structure Wakes {Queue : Type} (now : Nat) (kernel after : Kernel) (nodes longer : List TaskId)
    (lists fewer : Place Queue → List TaskId) : Prop where
  slots : after.taskArray = kernel.taskArray
  names : after.nextTask = kernel.nextTask
  current : after.currentTaskIndex = kernel.currentTaskIndex
  minVRuntime : after.minVRuntime = kernel.minVRuntime
  spared : ∀ u, (kernel.task u).state ≠ .blocked → after.task u = kernel.task u
  asleep : ∀ u, (kernel.task u).state = .blocked → (after.task u).state ≠ .running
  mem : ∀ u ∈ longer, u ∈ nodes ∨ ∃ index, u ∈ lists (.bucket index) ∧ (kernel.task u).sleepTick ≤ now
  linked : ∀ index, ∀ u ∈ fewer (.bucket index), u ∈ lists (.bucket index) ∧
    (after.task u).sleepTick = (kernel.task u).sleepTick
  device : fewer .device = lists .device

section

variable {Queue : Type} {boosts : Prop} {kernel after : Kernel} {queues : Queue → WaitQueue} {nodes : List TaskId}
  {lists : Place Queue → List TaskId} {t me : TaskId}

theorem Arranged.keep (arr : Arranged boosts kernel queues nodes lists) (eq : kernel.SameQueue after)
    (wheel : after.sleepWheel = kernel.sleepWheel)
    (fields : ∀ u, (after.task u).pid = (kernel.task u).pid ∧ (after.task u).state = (kernel.task u).state ∧
      (after.task u).vruntime = (kernel.task u).vruntime ∧ (after.task u).nextSleepQueue = (kernel.task u).nextSleepQueue ∧
      (after.task u).nextWaitTask = (kernel.task u).nextWaitTask) : Arranged boosts after queues nodes lists where
  fair := arr.fair.keep eq fun u => ⟨(fields u).1, (fields u).2.1, (fields u).2.2.1⟩
  resting := arr.resting.keep (fun _ => eq.live.mpr) wheel fun _ u _ _ isBlocked absent =>
    ⟨(fields u).1, (fields u).2.1.trans isBlocked, (fields u).2.2.2.1, (fields u).2.2.2.2, absent⟩

theorem Arranged.block (arr : Arranged boosts kernel queues nodes lists) (executes : kernel.Executes me)
    (change : Task → Task) (pid : ∀ task, (change task).pid = task.pid) (isBlocked : ∀ task, (change task).state = .blocked) :
    Arranged boosts (kernel.modify me change) queues nodes lists where
  fair := by
    refine arr.fair.stop executes (SameQueue.modify ..) (fun u other => ?_) ?_ ?_ ?_
    · rw [task_modify, if_neg other]
      exact ⟨rfl, rfl, rfl⟩
    · rw [task_modify, if_pos rfl, pid]
    all_goals
      rw [task_modify, if_pos rfl, isBlocked]
      decide
  resting := by
    refine arr.resting.keep (fun _ => id) rfl fun _ u _ _ wasBlocked absent => ?_
    have other : u ≠ me := by
      rintro rfl
      exact nomatch wasBlocked.symm.trans executes.2.2
    rw [task_modify, if_neg other]
    exact ⟨rfl, wasBlocked, rfl, rfl, absent⟩

variable [DecidableEq Queue]

theorem addToSleepList_tables (done : kernel.addToSleepList me = some after) : after = kernel ∨
    ∃ index, kernel.SameQueue after ∧ after.sleepWheel = update kernel.sleepWheel index (some me) ∧
      ∀ u, after.task u = if u = me then { kernel.task me with nextSleepQueue := kernel.sleepWheel index }
        else kernel.task u := by
  unfold addToSleepList at done
  split at done
  · exact .inl (some.inj done).symm
  obtain ⟨held, _, rfl⟩ := Option.map_eq_some_iff.mp done
  cases held with
  | true => exact .inl rfl
  | false =>
    refine .inr ⟨(kernel.task me).sleepTick % timerWheelSize, ⟨rfl, rfl, rfl, rfl, rfl, rfl⟩, rfl, fun u => ?_⟩
    exact kernel.task_modify me u fun task =>
      { task with nextSleepQueue := kernel.sleepWheel ((kernel.task me).sleepTick % timerWheelSize) }

section

variable (arr : Arranged boosts kernel queues nodes lists) (executes : kernel.Executes me)
include arr executes

theorem Arranged.sleepFor {ticks : Nat} (done : kernel.sleepFor me ticks = some after) :
    after.minVRuntime = kernel.minVRuntime ∧
      ∃ longer, Arranged boosts after queues nodes longer ∧ longer .device = lists .device := by
  obtain ⟨slept, isSlept⟩ : ∃ slept, slept = kernel.modify me fun task => { task with
      sleepTick := add64 kernel.lapicTicks ticks
      state := .blocked
      blockReason := task.blockReason ||| taskSleeping } := ⟨_, rfl⟩
  have blocked : Arranged boosts slept queues nodes lists :=
    isSlept ▸ arr.block executes _ (fun _ => rfl) fun _ => rfl
  have minVRuntime : slept.minVRuntime = kernel.minVRuntime := by rw [isSlept]; rfl
  have add : slept.addToSleepList me = some after := isSlept ▸ done
  rcases addToSleepList_tables add with rfl | ⟨index, eq, wheel, tasks⟩
  · exact ⟨minVRuntime, lists, blocked, rfl⟩
  have others : ∀ u ≠ me, after.task u = kernel.task u := by
    intro u other
    rw [tasks, if_neg other, isSlept, task_modify, if_neg other]
  have self : (after.task me).pid = (kernel.task me).pid ∧ (after.task me).state = .blocked ∧
      (after.task me).nextSleepQueue = kernel.sleepWheel index ∧
      (after.task me).nextWaitTask = (kernel.task me).nextWaitTask := by
    rw [tasks, if_pos rfl, isSlept, task_modify, if_pos rfl]
    exact ⟨rfl, rfl, rfl, rfl⟩
  have out : ∀ place, me ∉ lists place := arr.resting.not_linked (by rw [executes.2.2]; decide)
  have links : ∀ place, ∀ u ∈ lists place, after.task u = kernel.task u := fun place u mem =>
    others u fun isMe => out place (isMe ▸ mem)
  have sameWheel : slept.sleepWheel = kernel.sleepWheel := by rw [isSlept]; rfl
  refine ⟨eq.minVRuntime.trans minVRuntime,
    update lists (.bucket index) (me :: lists (.bucket index)), ⟨?_, ?_⟩, update_of_ne (by simp) ..⟩
  · refine blocked.fair.keep eq fun u => ?_
    rw [tasks]
    split
    case isTrue isMe => rw [isMe]; exact ⟨rfl, rfl, rfl⟩
    case isFalse => exact ⟨rfl, rfl, rfl⟩
  · refine arr.resting.enter executes (arr.fair.not_queued executes) (fun u live => ?_) (fun u => ?_) (fun u other => ?_)
      self.2.1 (fun u => mem_cons) (nodup_cons.mpr ⟨out _, arr.resting.distinct _⟩) (fun other => ?_)
      fun queue => ?_
    · rw [eq.live, isSlept]
      exact live
    · by_cases isMe : u = me
      · rw [isMe, self.1]
      · rw [others u isMe]
    · rw [others u other]
    · rw [wheel, sameWheel]
      by_cases h : other = index
      · subst h
        rw [update_self, update_self]
        refine ⟨rfl, ?_⟩
        have next : after.nextSleeper me = kernel.sleepWheel other := self.2.2.1
        rw [next]
        exact (arr.resting.wheel other).congr fun u mem => congrArg Task.nextSleepQueue (links _ u mem)
      · have elsewhere : Place.bucket other ≠ @Place.bucket Queue index := fun eq => h (Place.bucket.inj eq)
        rw [update_of_ne h, update_of_ne elsewhere]
        exact (arr.resting.wheel other).congr fun u mem => congrArg Task.nextSleepQueue (links _ u mem)
    · rw [update_of_ne (by simp)]
      exact (arr.resting.waits queue).congr fun u mem => congrArg Task.nextWaitTask (links _ u mem)

theorem Arranged.sleepOn {queue : Queue} {longer : WaitQueue} (done : kernel.sleepOn (queues queue) = some (longer, after)) :
    after.minVRuntime = kernel.minVRuntime ∧ ∃ entered,
      Arranged boosts after (update queues queue longer) nodes entered ∧ entered .device = lists .device := by
  unfold Kernel.sleepOn at done
  rw [executes.1] at done
  have blocked : Arranged boosts (kernel.modify me (Task.setState · .blocked)) queues nodes lists :=
    arr.block executes _ (fun _ => rfl) fun _ => rfl
  have out : ∀ place, me ∉ lists place := arr.resting.not_linked (by rw [executes.2.2]; decide)
  obtain ⟨waits, links, others⟩ := (blocked.resting.waits queue).joinQueue (out _) done
  have eq : kernel.SameQueue after := by
    rw [links.tables]
    exact ⟨rfl, rfl, rfl, rfl, rfl, rfl⟩
  have untouched : ∀ u ≠ me, u ∉ lists (.queue queue) → after.task u = kernel.task u := by
    intro u other absent
    rw [others u absent other, task_modify, if_neg other]
  have fields : ∀ u ≠ me, (after.task u).pid = (kernel.task u).pid ∧ (after.task u).state = (kernel.task u).state ∧
      (after.task u).nextSleepQueue = (kernel.task u).nextSleepQueue := by
    intro u other
    rw [links.fields u, task_modify, if_neg other]
    exact ⟨rfl, rfl, rfl⟩
  have self : (after.task me).pid = (kernel.task me).pid ∧ (after.task me).state = .blocked := by
    rw [links.fields me, task_modify, if_pos rfl]
    exact ⟨rfl, rfl⟩
  refine ⟨eq.minVRuntime, update lists (.queue queue) (lists (.queue queue) ++ [me]), ⟨?_, ?_⟩,
    update_of_ne (by simp) ..⟩
  · refine blocked.fair.keep ?_ fun u => ?_
    · rw [links.tables]
      exact ⟨rfl, rfl, rfl, rfl, rfl, rfl⟩
    · rw [links.fields u]
      exact ⟨rfl, rfl, rfl⟩
  · refine arr.resting.enter executes (arr.fair.not_queued executes) (fun u => eq.live.mpr) (fun u => ?_)
      (fun u other => (fields u other).2.1) self.2 (fun u => ?_) waits.nodup (fun index => ?_) fun other => ?_
    · by_cases isMe : u = me
      · rw [isMe, self.1]
      · exact (fields u isMe).1
    · rw [mem_append, mem_singleton]
      exact or_comm
    · have wheel : after.sleepWheel = kernel.sleepWheel := by
        rw [links.tables]
        rfl
      rw [update_of_ne (by simp), wheel]
      refine (arr.resting.wheel index).congr fun u mem => (fields u ?_).2.2
      exact fun isMe => out _ (isMe ▸ mem)
    · by_cases h : other = queue
      · grind
      · have elsewhere : Place.queue other ≠ Place.queue queue := fun eq => h (Place.queue.inj eq)
        rw [update_of_ne h, update_of_ne elsewhere]
        refine (arr.resting.waits other).congr fun u mem => ?_
        have notMe : u ≠ me := fun isMe => out _ (isMe ▸ mem)
        have absent : u ∉ lists (.queue queue) := fun also =>
          elsewhere (arr.resting.apart _ _ u mem also)
        rw [untouched u notMe absent]

theorem Arranged.waitForDevice : Arranged boosts (kernel.modify me (Task.setState · .blocked)) queues nodes
      (update lists .device (me :: lists .device)) where
  fair := (arr.block executes (Task.setState · .blocked) (fun _ => rfl) fun _ => rfl).fair
  resting := by
    have out : ∀ place, me ∉ lists place := arr.resting.not_linked (by rw [executes.2.2]; decide)
    have others : ∀ u ≠ me, (kernel.modify me (Task.setState · .blocked)).task u = kernel.task u := fun u other => by
      rw [task_modify, if_neg other]
    refine arr.resting.enter executes (arr.fair.not_queued executes) (fun _ => id) (fun u => ?_)
      (fun u other => by rw [others u other]) (by rw [task_modify, if_pos rfl]; rfl) (fun u => mem_cons)
      (nodup_cons.mpr ⟨out _, arr.resting.distinct _⟩) (fun index => ?_) fun queue => ?_
    · by_cases isMe : u = me
      · rw [isMe, task_modify, if_pos rfl]
        rfl
      · rw [others u isMe]
    · rw [update_of_ne (by simp)]
      refine (arr.resting.wheel index).congr fun u mem => ?_
      exact congrArg Task.nextSleepQueue (others u fun isMe => out _ (isMe ▸ mem))
    · rw [update_of_ne (by simp)]
      refine (arr.resting.waits queue).congr fun u mem => ?_
      exact congrArg Task.nextWaitTask (others u fun isMe => out _ (isMe ▸ mem))

end

end

section

variable {Queue : Type} {boosts : Prop} {kernel middle after : Kernel} {queues : Queue → WaitQueue}
  {nodes between longer : List TaskId} {lists left fewer : Place Queue → List TaskId} {t : TaskId} {now index : Nat}

theorem Wakes.refl (now : Nat) (kernel : Kernel) (nodes : List TaskId) (lists : Place Queue → List TaskId) :
    Wakes now kernel kernel nodes nodes lists lists :=
  ⟨rfl, rfl, rfl, rfl, fun _ _ => rfl, fun u isBlocked => by rw [isBlocked]; decide, fun _ => .inl,
    fun _ _ mem => ⟨mem, rfl⟩, rfl⟩

theorem Wakes.trans (first : Wakes now kernel middle nodes between lists left)
    (second : Wakes now middle after between longer left fewer) : Wakes now kernel after nodes longer lists fewer where
  slots := second.slots.trans first.slots
  names := second.names.trans first.names
  current := second.current.trans first.current
  minVRuntime := second.minVRuntime.trans first.minVRuntime
  spared u awake := by
    have same := first.spared u awake
    rw [second.spared u (same ▸ awake), same]
  asleep u isBlocked := by
    by_cases still : (middle.task u).state = .blocked
    · exact second.asleep u still
    · rw [second.spared u still]
      exact first.asleep u isBlocked
  mem u member := by
    rcases second.mem u member with inQueue | ⟨index, linked, due⟩
    · exact first.mem u inQueue
    · obtain ⟨wasLinked, tick⟩ := first.linked index u linked
      exact .inr ⟨index, wasLinked, tick ▸ due⟩
  linked index u member := by
    obtain ⟨linked, tick⟩ := second.linked index u member
    obtain ⟨wasLinked, before⟩ := first.linked index u linked
    exact ⟨wasLinked, tick.trans before⟩
  device := second.device.trans first.device

theorem task_unlinkSleeper (prev next : Option TaskId) (u : TaskId) : (kernel.unlinkSleeper index prev next).task u =
    if prev = some u then { kernel.task u with nextSleepQueue := next } else kernel.task u := by
  cases prev with
  | none => rfl
  | some prev =>
    refine (kernel.task_modify prev u fun task => { task with nextSleepQueue := next }).trans ?_
    by_cases eq : u = prev
    · simp [eq]
    · simp [eq, Ne.symm eq]

theorem wheel_unlinkSleeper (prev next : Option TaskId) : (kernel.unlinkSleeper index prev next).sleepWheel =
    update kernel.sleepWheel index (relinkHead (kernel.sleepWheel index) prev next) := by
  cases prev with
  | none => rfl
  | some prev => exact (update_eq_self index kernel.sleepWheel).symm

theorem sameQueue_unlinkSleeper (prev next : Option TaskId) : kernel.SameQueue (kernel.unlinkSleeper index prev next) := by
  cases prev <;> exact ⟨rfl, rfl, rfl, rfl, rfl, rfl⟩

theorem Arranged.unlinkSleeper (arr : Arranged boosts kernel queues nodes lists) {pre rest : List TaskId}
    (split : lists (.bucket index) = pre ++ t :: rest) :
    Fair boosts (kernel.unlinkSleeper index pre.getLast? rest.head?) nodes ∧
    (∀ u, u ∉ pre → (kernel.unlinkSleeper index pre.getLast? rest.head?).task u = kernel.task u) ∧
    (∀ u, ((kernel.unlinkSleeper index pre.getLast? rest.head?).task u) = { kernel.task u with
      nextSleepQueue := ((kernel.unlinkSleeper index pre.getLast? rest.head?).task u).nextSleepQueue }) ∧
    Chain (kernel.unlinkSleeper index pre.getLast? rest.head?).nextSleeper
      ((kernel.unlinkSleeper index pre.getLast? rest.head?).sleepWheel index) (pre ++ rest) := by
  have fields : ∀ u, ((kernel.unlinkSleeper index pre.getLast? rest.head?).task u) = { kernel.task u with
      nextSleepQueue := ((kernel.unlinkSleeper index pre.getLast? rest.head?).task u).nextSleepQueue } := by
    intro u
    rw [task_unlinkSleeper]
    split <;> rfl
  have chain : Chain kernel.nextSleeper (kernel.sleepWheel index) (pre ++ t :: rest) := split ▸ arr.resting.wheel index
  have nodup : (pre ++ t :: rest).Nodup := split ▸ arr.resting.distinct (.bucket index)
  refine ⟨arr.fair.keep (sameQueue_unlinkSleeper ..) fun u => ?_, fun u absent => ?_, fields, ?_⟩
  · rw [fields u]
    exact ⟨rfl, rfl, rfl⟩
  · rw [task_unlinkSleeper, if_neg]
    exact fun isLast => absent (mem_of_getLast? isLast)
  · have parts := nodup_append.mp nodup
    have tail : Chain kernel.nextSleeper rest.head? rest := by
      have linked := chain.suffix.2
      rwa [linked.head_eq] at linked
    have relinked := chain.relink parts.1 tail fun u early late =>
      parts.2.2 u early u (mem_cons_of_mem t late) rfl
    rw [wheel_unlinkSleeper, update_self]
    refine relinked.congr fun u _ => ?_
    change ((kernel.unlinkSleeper index pre.getLast? rest.head?).task u).nextSleepQueue = _
    rw [task_unlinkSleeper]
    by_cases isLast : pre.getLast? = some u
    · rw [if_pos isLast, isLast]
      simp [relinkNext]
    · rw [if_neg isLast, relinkNext_of_ne isLast]
      rfl

variable [DecidableEq Queue]

theorem wakeVRuntime_near (kernel : Kernel) (floor : Nat) : kernel.minVRuntime ≤ kernel.wakeVRuntime floor + 10 := by
  unfold wakeVRuntime
  split <;> omega

theorem Arranged.wakeSleeper (arranged : Arranged boosts kernel queues nodes lists) {before rest : List TaskId}
    (split : lists (.bucket index) = before ++ t :: rest) (due : (kernel.task t).sleepTick ≤ now)
    (done : (kernel.unlinkSleeper index before.getLast? rest.head?).wakeSleeper t = some after) :
    ∃ longer, Arranged boosts after queues longer (update lists (.bucket index) (before ++ rest)) ∧
      Wakes now kernel after nodes longer lists (update lists (.bucket index) (before ++ rest)) := by
  obtain ⟨fair, untouched, fields, chain⟩ := arranged.unlinkSleeper split
  have same := @sameQueue_unlinkSleeper kernel index before.getLast? rest.head?
  have nodup : (before ++ t :: rest).Nodup := split ▸ arranged.resting.distinct (.bucket index)
  have isHere : t ∈ lists (.bucket index) := by simp [split]
  obtain ⟨isLive, notIdle, isBlocked, absent⟩ := arranged.resting.linked _ t isHere
  have fresh : t ∉ before ++ rest := (nodup_cons.mp (perm_middle.nodup_iff.mp nodup)).1
  have own : (kernel.unlinkSleeper index before.getLast? rest.head?).task t = kernel.task t :=
    untouched t fun early => fresh (mem_append_left _ early)
  obtain ⟨longer, fairAfter, mem, tree, leftmost, isAfter⟩ := fair.wake (same.live.mpr isLive) (own.symm ▸ notIdle)
    (own.symm ▸ isBlocked) absent rfl (.inl rfl) (wakeVRuntime_near ..) done
  have others : ∀ u ≠ t, after.task u = (kernel.unlinkSleeper index before.getLast? rest.head?).task u := by
    intro u other
    rw [isAfter, task_withQueue, task_modify, if_neg other]
  have awake : ∀ u, (kernel.task u).state ≠ .blocked → after.task u = kernel.task u := by
    intro u awake
    have outside := arranged.resting.not_linked awake (.bucket index)
    rw [split] at outside
    simp only [mem_append, mem_cons, not_or] at outside
    exact (others u outside.2.1).trans (untouched u outside.1)
  have wheel : after.sleepWheel = (kernel.unlinkSleeper index before.getLast? rest.head?).sleepWheel := by rw [isAfter]; rfl
  have slots : after.taskArray = kernel.taskArray := by
    rw [isAfter]
    exact same.slots
  have mine : ∀ u, (after.task u).pid = (kernel.task u).pid ∧ (after.task u).nextWaitTask = (kernel.task u).nextWaitTask := by
    intro u
    by_cases isIt : u = t
    · rw [isIt, isAfter, task_withQueue, task_modify, if_pos rfl, own]
      exact ⟨rfl, rfl⟩
    · rw [others u isIt, fields u]
      exact ⟨rfl, rfl⟩
  have left : ∀ u, u ∈ before ++ rest ↔ u ≠ t ∧ u ∈ lists (.bucket index) := by
    intro u
    rw [split, mem_append, mem_append, mem_cons]
    constructor
    · grind
    · rintro ⟨other, early | isIt | late⟩
      · exact .inl early
      · exact absurd isIt other
      · exact .inr late
  refine ⟨longer, ⟨fairAfter, ?_⟩, ?_⟩
  · refine arranged.resting.leave (fun u live => live.imp fun slot held => slots ▸ held) (fun u => (mine u).1)
      (fun u other => ?_) left isHere (nodup_cons.mp (perm_middle.nodup_iff.mp nodup)).2 mem (fun other => ?_)
      fun queue => ?_
    · rw [others u other, fields u]
    · rw [wheel]
      by_cases here : other = index
      · subst here
        rw [update_self]
        refine chain.congr fun u member => congrArg Task.nextSleepQueue (others u ?_)
        exact ((left u).mp member).1
      · have elsewhere : Place.bucket other ≠ @Place.bucket Queue index := fun same => here (Place.bucket.inj same)
        rw [update_of_ne elsewhere, wheel_unlinkSleeper, update_of_ne here]
        refine (arranged.resting.wheel other).congr fun u member => ?_
        have absentHere : u ∉ lists (.bucket index) := fun also => elsewhere (arranged.resting.apart _ _ u member also)
        rw [split] at absentHere
        simp only [mem_append, mem_cons, not_or] at absentHere
        exact congrArg Task.nextSleepQueue ((others u absentHere.2.1).trans (untouched u absentHere.1))
    · rw [update_of_ne (by simp)]
      exact (arranged.resting.waits queue).congr fun u _ => (mine u).2
  · exact {
      slots := slots
      names := by
        rw [isAfter]
        exact same.names
      current := by
        rw [isAfter]
        exact same.current
      minVRuntime := by
        rw [isAfter]
        exact same.minVRuntime
      spared := awake
      asleep := fun u isBlocked => by
        by_cases isIt : u = t
        · rw [isIt, isAfter, task_withQueue, task_modify, if_pos rfl]
          exact fun isRunning => nomatch isRunning
        · rw [others u isIt, fields u, isBlocked]
          decide
      mem := fun u member => by
        rcases (mem u).mp member with rfl | old
        · exact .inr ⟨index, isHere, due⟩
        · exact .inl old
      linked := fun other u member => by
        by_cases here : other = index
        · subst here
          rw [update_self] at member
          obtain ⟨distinct, linked⟩ := (left u).mp member
          refine ⟨linked, ?_⟩
          rw [others u distinct, fields u]
        · have elsewhere : Place.bucket other ≠ @Place.bucket Queue index := fun same => here (Place.bucket.inj same)
          rw [update_of_ne elsewhere] at member
          have distinct : u ≠ t := fun isIt => elsewhere (arranged.resting.apart _ _ u member (isIt ▸ isHere))
          refine ⟨member, ?_⟩
          rw [others u distinct, fields u]
      device := update_of_ne (by simp) .. }

theorem Arranged.wakeBucket {rounds : Nat} {pre rest : List TaskId} (arr : Arranged boosts kernel queues nodes lists)
    (split : lists (.bucket index) = pre ++ rest)
    (done : wakeBucket index now rounds kernel pre.getLast? rest.head? = some after) :
    ∃ longer fewer, Arranged boosts after queues longer fewer ∧ Wakes now kernel after nodes longer lists fewer := by
  induction rounds generalizing kernel nodes lists pre rest with
  | zero =>
    cases rest with
    | nil => exact some.inj done ▸ ⟨nodes, lists, arr, Wakes.refl ..⟩
    | cons t rest => exact nomatch done
  | succ rounds ih =>
    cases rest with
    | nil => exact some.inj done ▸ ⟨nodes, lists, arr, Wakes.refl ..⟩
    | cons t rest =>
      have chain : Chain kernel.nextSleeper (kernel.sleepWheel index) (pre ++ t :: rest) :=
        split ▸ arr.resting.wheel index
      have next : kernel.nextSleeper t = rest.head? := chain.next_eq
      simp only [head?_cons, Kernel.wakeBucket, next] at done
      split at done
      case isTrue due =>
        obtain ⟨woken, wake, onward⟩ := Option.bind_eq_some_iff.mp done
        have cnt : Arranged boosts { kernel with totalSleepingTasks := sub64 kernel.totalSleepingTasks 1 } queues nodes lists :=
          arr.keep ⟨rfl, rfl, rfl, rfl, rfl, rfl⟩ rfl fun _ => ⟨rfl, rfl, rfl, rfl, rfl⟩
        obtain ⟨between, arr, first⟩ := cnt.wakeSleeper split due wake
        obtain ⟨longer, fewer, arr, snd⟩ := ih arr (update_self ..) onward
        have whole := first.trans snd
        exact ⟨longer, fewer, arr, whole.slots, whole.names, whole.current, whole.minVRuntime, whole.spared, whole.asleep,
          whole.mem, whole.linked, whole.device⟩
      case isFalse =>
        have onward : Kernel.wakeBucket index now rounds kernel (pre ++ [t]).getLast? rest.head? = some after := by
          rw [getLast?_concat]
          exact done
        exact ih arr (split.trans (append_cons ..)) onward

theorem Arranged.wakeBuckets {ticks : List Nat} (arr : Arranged boosts kernel queues nodes lists)
    (done : wakeBuckets now ticks kernel = some after) :
    ∃ longer fewer, Arranged boosts after queues longer fewer ∧ Wakes now kernel after nodes longer lists fewer := by
  induction ticks generalizing kernel nodes lists with
  | nil => exact some.inj done ▸ ⟨nodes, lists, arr, Wakes.refl ..⟩
  | cons tick ticks ih =>
    obtain ⟨middle, bucket, onward⟩ := Option.bind_eq_some_iff.mp done
    rw [(arr.resting.wheel (tick % timerWheelSize)).head_eq] at bucket
    have whole : lists (.bucket (tick % timerWheelSize)) = [] ++ lists (.bucket (tick % timerWheelSize)) := rfl
    obtain ⟨between, left, arr, first⟩ := arr.wakeBucket whole bucket
    obtain ⟨longer, fewer, arr, snd⟩ := ih arr onward
    exact ⟨longer, fewer, arr, first.trans snd⟩

theorem Arranged.checkSleepingTasks (arr : Arranged boosts kernel queues nodes lists)
    (done : kernel.checkSleepingTasks = some after) : ∃ longer fewer, Arranged boosts after queues longer fewer ∧
      Wakes kernel.lapicTicks kernel after nodes longer lists fewer := by
  unfold Kernel.checkSleepingTasks at done
  dsimp only at done
  split at done
  · cases done
    exact ⟨nodes, lists, arr.keep ⟨rfl, rfl, rfl, rfl, rfl, rfl⟩ rfl fun _ => ⟨rfl, rfl, rfl, rfl, rfl⟩,
      rfl, rfl, rfl, rfl, fun _ _ => rfl, (Wakes.refl kernel.lapicTicks kernel nodes lists).asleep, fun _ => .inl,
      fun _ _ mem => ⟨mem, rfl⟩, rfl⟩
  split at done
  · exact some.inj done ▸ ⟨nodes, lists, arr, Wakes.refl ..⟩
  split at done
  · exact nomatch done
  obtain ⟨woken, wake, rfl⟩ := Option.map_eq_some_iff.mp done
  obtain ⟨longer, fewer, arr, wakes⟩ := arr.wakeBuckets wake
  exact ⟨longer, fewer, arr.keep ⟨rfl, rfl, rfl, rfl, rfl, rfl⟩ rfl fun _ => ⟨rfl, rfl, rfl, rfl, rfl⟩,
    wakes.slots, wakes.names, wakes.current, wakes.minVRuntime, wakes.spared, wakes.asleep, wakes.mem, wakes.linked,
    wakes.device⟩

theorem modify_modify (kernel : Kernel) (t : TaskId) (first snd : Task → Task) :
    (kernel.modify t first).modify t snd = kernel.modify t fun task => snd (first task) := by
  unfold modify
  simp

theorem Arranged.wakeUp (arr : Arranged boosts kernel queues nodes lists) {queue : Queue} {shorter : WaitQueue}
    (done : kernel.wakeUp (queues queue) = some (shorter, after)) : after.minVRuntime = kernel.minVRuntime ∧
      ∃ longer left, Arranged boosts after (update queues queue shorter) longer left ∧
        left .device = lists .device := by
  have waits := arr.resting.waits queue
  unfold Kernel.wakeUp at done
  rw [waits.chain.head_eq] at done
  cases waiters : lists (.queue queue) with
  | nil =>
    rw [waiters] at done
    cases done
    rw [update_eq_self]
    exact ⟨rfl, nodes, lists, arr, rfl⟩
  | cons t rest =>
    rw [waiters] at done waits
    obtain ⟨woken, wake, eq⟩ := Option.map_eq_some_iff.mp done
    cases eq
    have isHere : t ∈ lists (.queue queue) := by simp [waiters]
    obtain ⟨isLive, notIdle, isBlocked, absent⟩ := arr.resting.linked _ t isHere
    unfold unblockTaskWithIOBoost at wake
    rw [modify_modify] at wake
    obtain ⟨longer, fair, mem, tree, leftmost, rfl⟩ := arr.fair.wake isLive notIdle isBlocked absent rfl (.inl rfl)
      (kernel.wakeVRuntime_near 0) wake
    have dist := nodup_cons.mp waits.nodup
    have others : ∀ u ≠ t, ((kernel.modify t fun task => { task with
        nextWaitTask := none
        state := .ready
        blockReason := 0
        vruntime := kernel.wakeVRuntime 0 }).withQueue tree leftmost).task u = kernel.task u := by
      intro u other
      rw [task_withQueue, task_modify, if_neg other]
    refine ⟨rfl, longer, update lists (.queue queue) rest, ⟨fair, ?_⟩, update_of_ne (by simp) ..⟩
    refine arr.resting.leave (fun _ => id) (fun u => ?_) (fun u other => congrArg Task.state (others u other)) (fun u => ?_)
      isHere dist.2 mem (fun index => ?_) fun other => ?_
    · by_cases isIt : u = t
      · rw [isIt, task_withQueue, task_modify, if_pos rfl]
      · exact congrArg Task.pid (others u isIt)
    · grind
    · rw [update_of_ne (by simp)]
      refine (arr.resting.wheel index).congr fun u member => congrArg Task.nextSleepQueue (others u fun isIt => ?_)
      subst isIt
      exact nomatch arr.resting.apart _ _ u member isHere
    · by_cases h : other = queue
      · subst h
        rw [update_self, update_self]
        exact waits.leaveQueue.congr fun u member =>
          congrArg Task.nextWaitTask (others u fun isIt => dist.1 (isIt ▸ member))
      · have elsewhere : Place.queue other ≠ Place.queue queue := fun eq => h (Place.queue.inj eq)
        rw [update_of_ne h, update_of_ne elsewhere]
        refine (arr.resting.waits other).congr fun u member => congrArg Task.nextWaitTask (others u fun isIt => ?_)
        subst isIt
        exact elsewhere (arr.resting.apart _ _ u member isHere)

theorem Arranged.unblock (arr : Arranged True kernel queues nodes lists) (waits : t ∈ lists .device)
    (done : kernel.unblockTaskWithIOBoost t = some after) : after.minVRuntime = kernel.minVRuntime ∧
      ∃ longer, Arranged True after queues longer (update lists .device ((lists .device).erase t)) := by
  obtain ⟨isLive, notIdle, isBlocked, absent⟩ := arr.resting.linked _ t waits
  obtain ⟨longer, fair, mem, tree, leftmost, rfl⟩ := arr.fair.wake isLive notIdle isBlocked absent rfl
    (.inr ⟨trivial, isBlocked⟩) (kernel.wakeVRuntime_near 0) done
  have fields : ∀ u, (((kernel.modify t fun task => { task with vruntime := kernel.wakeVRuntime 0 }).withQueue tree
      leftmost).task u) = { kernel.task u with vruntime := (((kernel.modify t fun task =>
        { task with vruntime := kernel.wakeVRuntime 0 }).withQueue tree leftmost).task u).vruntime } := by
    intro u
    rw [task_withQueue, task_modify]
    split
    case isTrue eq => rw [eq]
    case isFalse => rfl
  have dist := arr.resting.distinct .device
  refine ⟨rfl, longer, fair, ?_⟩
  refine arr.resting.leave (fun _ => id) (fun u => by rw [fields u]) (fun u _ => by rw [fields u]) (fun u => ?_) waits
    (dist.erase t) mem (fun index => ?_) fun queue => ?_
  · rw [dist.mem_erase_iff]
  · rw [update_of_ne (by simp)]
    exact (arr.resting.wheel index).congr fun u _ => (congrArg Task.nextSleepQueue (fields u)).trans rfl
  · rw [update_of_ne (by simp)]
    exact (arr.resting.waits queue).congr fun u _ => (congrArg Task.nextWaitTask (fields u)).trans rfl

end

section

variable {Queue : Type} {boosts : Prop} {kernel after : Kernel} {queues : Queue → WaitQueue} {nodes longer rest : List TaskId}
  {lists : Place Queue → List TaskId} {next : TaskId}

theorem Arranged.created (arr : Arranged boosts kernel queues nodes lists) (creates : kernel.Creates after nodes longer) :
    Arranged boosts after queues longer lists where
  fair := arr.fair.created creates
  resting := by
    refine arr.resting.keep creates.live creates.wheel fun place u mem live isBlocked absent => ?_
    have old : u ≠ kernel.nextTask := Nat.ne_of_lt (arr.fair.numbered.live_lt live)
    refine ⟨?_, ?_, ?_, ?_, fun inQueue => ((creates.mem u).mp inQueue).elim absent fun isNew => old isNew.1⟩ <;>
      rw [creates.task u old]
    · rfl
    · exact isBlocked
    · rfl
    · rfl

theorem Arranged.switched (arr : Arranged boosts kernel queues nodes lists)
    (switches : kernel.Switches after nodes next rest) :
    kernel.minVRuntime ≤ after.minVRuntime ∧ Arranged boosts after queues rest lists := by
  obtain ⟨fair, raised⟩ := arr.fair.switched switches
  refine ⟨raised, fair, ?_⟩
  refine arr.resting.keep (fun u live => live.imp fun slot held => switches.slots ▸ held) switches.wheel
    fun place u mem live isBlocked absent => ?_
  have idles : ¬kernel.Executes u := fun executes => nomatch isBlocked.symm.trans executes.2.2
  have other : u ≠ next := by
    rintro rfl
    rcases switches.chosen with inQueue | executes | isIdle
    · exact absent inQueue
    · exact idles executes
    · exact (arr.resting.linked place u mem).2.1 isIdle
  refine ⟨switches.pid u, ?_, ?_, ?_, fun inQueue => ((switches.mem u).mp inQueue).2.elim absent idles⟩
  · exact ((switches.state u other).resolve_left fun executes => idles executes.1).2.trans isBlocked
  · rw [switches.fields u]
    rfl
  · rw [switches.fields u]
    rfl

end

end Kernel

end RosKernel.Tasking
