import RosKernel.Tasking.Groups

/-! What a switch to another task does, whichever way it comes about. -/

set_option autoImplicit false

namespace RosKernel.Tasking

open Library List

namespace Kernel

/-- The kernel has switched to `next`, and `rest` is left in the run queue. -/
structure Switches (kernel after : Kernel) (nodes : List TaskId) (next : TaskId) (rest : List TaskId) : Prop where
  slots : after.taskArray = kernel.taskArray
  names : after.nextTask = kernel.nextTask
  wheel : after.sleepWheel = kernel.sleepWheel
  numbered : after.Numbered
  current : after.getCurrentTaskPtr = some next
  live : kernel.Live next
  queue : after.RunQueue rest
  chosen : next ∈ nodes ∨ kernel.Executes next ∨ (kernel.task next).pid = pidIdle
  mem : ∀ t, t ∈ rest ↔ t ≠ next ∧ (t ∈ nodes ∨ kernel.Executes t)
  fields : ∀ t, after.task t = ((kernel.task t).saveRsp (after.task t).rsp).setState (after.task t).state
  running : (after.task next).state = .running
  state : ∀ t ≠ next, (kernel.Executes t ∧ (after.task t).state = .ready) ∨
    (¬kernel.Executes t ∧ (after.task t).state = (kernel.task t).state)
  raised : after.minVRuntime = kernel.minVRuntime ∨
    (kernel.minVRuntime < (kernel.task next).vruntime ∧ after.minVRuntime = (kernel.task next).vruntime)
  sorted : kernel.ByVRuntime nodes → kernel.ByVRuntime rest ∧
    ∀ t ∈ rest, (kernel.task next).vruntime ≤ (kernel.task t).vruntime

section

variable {kernel middle picked after : Kernel} {nodes waiting rest : List TaskId} {next : TaskId}

theorem Switches.pid (switches : kernel.Switches after nodes next rest) (t : TaskId) :
    (after.task t).pid = (kernel.task t).pid := by
  rw [switches.fields t]
  rfl

theorem Switches.vruntime (switches : kernel.Switches after nodes next rest) (t : TaskId) :
    (after.task t).vruntime = (kernel.task t).vruntime := by
  rw [switches.fields t]
  rfl

theorem current_of_index (num : kernel.Numbered) (live : kernel.Live next)
    (index : kernel.currentTaskIndex = (kernel.task next).pid) : kernel.getCurrentTaskPtr = some next := by
  have placed := num.live live
  unfold getCurrentTaskPtr
  rw [index]
  exact (if_pos (num.range _ next placed)).trans placed

theorem Suspends.sorted (suspends : kernel.Suspends nodes middle waiting) (sorted : kernel.ByVRuntime nodes) :
    kernel.ByVRuntime waiting := by
  cases suspends with
  | nobody => exact sorted
  | aside => exact sorted
  | queued _ _ placed => exact placed sorted

section

variable (picks : middle.Picks waiting next picked rest)
include picks

theorem Picks.sorted (sorted : kernel.ByVRuntime waiting) :
    kernel.ByVRuntime rest ∧ ∀ t ∈ rest, (kernel.task next).vruntime ≤ (kernel.task t).vruntime := by
  cases picks with
  | first => exact ⟨(pairwise_cons.mp sorted).2, (pairwise_cons.mp sorted).1⟩
  | idle => exact ⟨List.Pairwise.nil, fun _ mem => nomatch mem⟩

theorem Picks.mem_iff (t : TaskId) : t ∈ rest ↔ t ≠ next ∧ t ∈ waiting := by
  constructor
  · intro mem
    exact (picks.mem_rest mem).symm
  · rintro ⟨other, mem⟩
    cases picks with
    | first => exact (mem_cons.mp mem).resolve_left other
    | idle => exact mem

theorem Picks.raised : picked.minVRuntime = middle.minVRuntime ∨
    (middle.minVRuntime < (middle.task next).vruntime ∧ picked.minVRuntime = (middle.task next).vruntime) := by
  cases picks with
  | first =>
    by_cases above : middle.minVRuntime < (middle.task next).vruntime
    · exact .inr ⟨above, if_pos above⟩
    · exact .inl (if_neg above)
  | idle => exact .inl rfl

end

section

variable (queue : kernel.RunQueue nodes) (numbered : kernel.Numbered)
  (queued : ∀ t ∈ nodes, kernel.Live t ∧ (kernel.task t).state ≠ .running)
include queue numbered queued

theorem RunQueue.switch (done : kernel.schedule = some after) : ∃ next rest, kernel.Switches after nodes next rest := by
  obtain ⟨middle, waiting, next, picked, rest, suspends, picks, rfl⟩ :=
    queue.schedule done (fun prev runs => numbered.live_lt (live_of_current runs))
      fun prev _ isRunning member => (queued prev member).2 isRunning
  obtain ⟨sameSlots, sameNames, sameMin⟩ := suspends.tables
  obtain ⟨pickedSlots, pickedNames, index⟩ := picks.tables_switchIn
  have slots := pickedSlots.trans sameSlots
  have names := pickedNames.trans sameNames
  have middleNumbered : middle.Numbered := numbered.congr sameSlots sameNames.ge fun u _ =>
    (congrArg Task.pid (suspends.fields u)).trans rfl
  have waits : ∀ t ∈ waiting, kernel.Live t := by
    intro t member
    rcases suspends.mem_iff.mp member with inQueue | executes
    · exact (queued t inQueue).1
    · exact live_of_current executes.1
  have idle : next ∈ waiting ∨ kernel.taskArray pidIdle = some next := by
    refine picks.chosen.imp id fun isIdle => ?_
    rw [middleNumbered.getTaskPID, sameSlots] at isIdle
    exact isIdle
  have live : kernel.Live next := idle.elim (waits next) fun held => ⟨pidIdle, held⟩
  have fields : ∀ t, (picked.switchIn next).task t =
      ((kernel.task t).saveRsp ((picked.switchIn next).task t).rsp).setState ((picked.switchIn next).task t).state := by
    intro t
    rw [picks.task_switchIn]
    split
    case isTrue same =>
      subst same
      rw [suspends.fields t]
      rfl
    case isFalse => exact suspends.fields t
  have after : (picked.switchIn next).Numbered := numbered.congr slots names.ge fun t _ =>
    (congrArg Task.pid (fields t)).trans rfl
  have nowLive : (picked.switchIn next).Live next := live.imp fun slot held => slots ▸ held
  have sameKeys : ∀ t, (middle.task t).vruntime = (kernel.task t).vruntime := fun t =>
    (congrArg Task.vruntime (suspends.fields t)).trans rfl
  refine ⟨next, rest, {
    slots := slots
    names := names
    wheel := ?_
    numbered := after
    current := current_of_index after nowLive (index.trans ?_)
    live := live
    queue := picks.remaining.congr rfl rfl (Nat.le_refl _)
    chosen := ?_
    mem := fun t => (picks.mem_iff t).trans (and_congr_right fun _ => suspends.mem_iff)
    fields := fields
    running := by rw [picks.task_switchIn, if_pos rfl]; rfl
    state := fun t other => by
      rw [picks.task_switchIn, if_neg other]
      exact suspends.state t
    raised := ?_
    sorted := fun sorted => picks.sorted (suspends.sorted sorted) }⟩
  · obtain ⟨tree, leftmost, minVRuntime, rfl⟩ := picks.tables
    cases suspends <;> rfl
  · rw [picks.task_switchIn, if_pos rfl]
    rfl
  · rcases idle with member | held
    · exact (suspends.mem_iff.mp member).imp id .inl
    · exact .inr (.inr (numbered.pid pidIdle next held))
  · have raised := picks.raised
    rw [sameMin, sameKeys] at raised
    exact raised

theorem RunQueue.start (unstarted : kernel.getCurrentTaskPtr = none) (done : kernel.schedulerStart = some after) :
    ∃ next rest, kernel.Switches after nodes next rest := by
  obtain ⟨first, tree, leftmost, rest, cpu, result, remaining, others, origin⟩ := queue.schedulerStart done
  have idles : ∀ t, ¬kernel.Executes t := fun t executes => nomatch executes.1.symm.trans unstarted
  have tasks : ∀ t, after.task t = if t = first then (kernel.task first).setState .running else kernel.task t := by
    intro t
    rw [result]
    exact task_modify _ first t (Task.setState · .running)
  have slots : after.taskArray = kernel.taskArray := by rw [result]; rfl
  have names : after.nextTask = kernel.nextTask := by rw [result]; rfl
  have fields : ∀ t, after.task t = ((kernel.task t).saveRsp (after.task t).rsp).setState (after.task t).state := by
    intro t
    rw [tasks]
    split
    case isTrue same => rw [same]; rfl
    case isFalse => rfl
  have numberedAfter : after.Numbered := numbered.congr slots names.ge fun t _ => (congrArg Task.pid (fields t)).trans rfl
  have live : kernel.Live first := by
    rcases origin with ⟨rfl, _⟩ | ⟨_, held, _⟩
    · exact (queued first mem_cons_self).1
    · exact ⟨pidIdle, held⟩
  have index : after.currentTaskIndex = (after.task first).pid := by
    rw [fields first]
    rcases origin with ⟨_, index⟩ | ⟨_, held, index⟩
    · exact index
    · exact index.trans (numbered.pid pidIdle first held).symm
  exact ⟨first, rest, {
    slots := slots
    names := names
    wheel := by rw [result]; rfl
    numbered := numberedAfter
    current := current_of_index numberedAfter (live.imp fun slot held => slots ▸ held) index
    live := live
    queue := remaining
    chosen := by
      rcases origin with ⟨rfl, _⟩ | ⟨_, held, _⟩
      · exact .inl mem_cons_self
      · exact .inr (.inr (numbered.pid pidIdle first held))
    mem := fun t => by
      simp only [idles, or_false]
      refine ⟨fun member => (others t member).symm, ?_⟩
      rintro ⟨other, member⟩
      rcases origin with ⟨rfl, _⟩ | ⟨rfl, _, _⟩
      · exact (mem_cons.mp member).resolve_left other
      · exact nomatch member
    fields := fields
    running := by rw [tasks, if_pos rfl]; rfl
    state := fun t other => .inr ⟨idles t, by rw [tasks, if_neg other]⟩
    raised := .inl (by rw [result]; rfl)
    sorted := fun sorted => by
      rcases origin with ⟨rfl, _⟩ | ⟨rfl, _, _⟩
      · exact pairwise_cons.mp sorted |>.symm
      · have empty : rest = [] := eq_nil_iff_forall_not_mem.mpr fun t member => nomatch (others t member).1
        rw [empty]
        exact ⟨List.Pairwise.nil, fun _ member => nomatch member⟩ }⟩

end

end

end Kernel

end RosKernel.Tasking
