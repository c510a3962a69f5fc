import RosKernel.Tasking.Groups

/-! What a new task changes for the tasks and the queues that are there. -/

set_option autoImplicit false

namespace RosKernel.Tasking

open Library Memory

namespace Kernel

/-- A task has been created, and is queued unless it is the idle task or no slot was free. A forked
task is also in the list of its group. -/
structure Creates (kernel after : Kernel) (nodes longer : List TaskId) : Prop where
  numbered : after.Numbered
  queue : after.RunQueue longer
  live : ∀ t, kernel.Live t → after.Live t
  old : ∀ t, after.Live t → t ≠ kernel.nextTask → kernel.Live t
  grows : after.nextTask = kernel.nextTask + 1
  task : ∀ t ≠ kernel.nextTask, after.task t = (kernel.task t).linkTo (after.task t).pgidTaskPtr
  state : (after.task kernel.nextTask).state = .ready
  vruntime : (after.task kernel.nextTask).vruntime = kernel.minVRuntime
  wheel : after.sleepWheel = kernel.sleepWheel
  minVRuntime : after.minVRuntime = kernel.minVRuntime
  current : after.currentTaskIndex = kernel.currentTaskIndex
  mem : ∀ t, t ∈ longer ↔ t ∈ nodes ∨ (t = kernel.nextTask ∧ after.Live t ∧ (after.task t).pid ≠ pidIdle)
  sorted : kernel.ByVRuntime nodes → after.ByVRuntime longer

section

variable {kernel after : Kernel} {nodes : List TaskId}

/-- A task has been made, with the rest of the kernel as it was. -/
structure Constructs (kernel made : Kernel) : Prop where
  makes : ∃ parent, kernel.Makes made parent
  task : ∀ t ≠ kernel.nextTask, made.task t = (kernel.task t).linkTo (made.task t).pgidTaskPtr
  vruntime : (made.task kernel.nextTask).vruntime = kernel.minVRuntime
  wheel : made.sleepWheel = kernel.sleepWheel
  minVRuntime : made.minVRuntime = kernel.minVRuntime
  current : made.currentTaskIndex = kernel.currentTaskIndex

theorem constructs_constructTask (kernel : Kernel) (rsp cr3 : Nat) : kernel.Constructs (kernel.constructTask rsp cr3) where
  makes := ⟨_, makes_newTask kernel _ rfl rfl⟩
  task t other := by
    rw [constructTask, task_newTask, if_neg other]
    rfl
  vruntime := by
    rw [constructTask, task_newTask, if_pos rfl]
    rfl
  wheel := rfl
  minVRuntime := rfl
  current := rfl

theorem constructs_taskUserConstructor (kernel : Kernel) (rsp cr3 fpu : Nat) :
    kernel.Constructs (kernel.taskUserConstructor rsp cr3 fpu) where
  makes := ⟨_, makes_taskUserConstructor kernel rsp cr3 fpu⟩
  task t other := by
    have distinct : t ≠ (kernel.loadFpu fpu).nextTask := other
    rw [taskUserConstructor, task_newTask, if_neg distinct]
    rfl
  vruntime := by
    have same : kernel.nextTask = (kernel.loadFpu fpu).nextTask := rfl
    rw [taskUserConstructor, task_newTask, if_pos same]
    rfl
  wheel := rfl
  minVRuntime := rfl
  current := rfl

theorem constructs_forkChild (kernel : Kernel) (current : TaskId) (rsp cr3 : Nat) :
    kernel.Constructs (kernel.forkChild current rsp cr3) where
  makes := ⟨_, makes_forkChild kernel current rsp cr3⟩
  task t other := by
    rw [task_forkChild, if_neg other]
    split <;> rfl
  vruntime := by
    rw [task_forkChild, if_pos rfl]
    split <;> rfl
  wheel := by
    dsimp only [forkChild]
    cases kernel.forkLeader (kernel.task current) <;> rfl
  minVRuntime := by
    dsimp only [forkChild]
    cases kernel.forkLeader (kernel.task current) <;> rfl
  current := by
    dsimp only [forkChild]
    cases kernel.forkLeader (kernel.task current) <;> rfl

theorem Constructs.schedulerAddTask {made : Kernel} (constructs : kernel.Constructs made) (numbered : kernel.Numbered)
    (queue : kernel.RunQueue nodes) (done : made.schedulerAddTask kernel.nextTask = some after) :
    ∃ longer, kernel.Creates after nodes longer := by
  obtain ⟨parent, makes⟩ := constructs.makes
  have absent : ¬kernel.Live kernel.nextTask := fun live => Nat.lt_irrefl _ (numbered.live_lt live)
  have sameKeys : kernel.ByVRuntime nodes → made.ByVRuntime nodes := fun sorted =>
    sorted.congr fun t member => by
      rw [constructs.task t (Nat.ne_of_lt (queue.created t member))]
      rfl
  rcases makes.queued queue done with ⟨_, rfl, still⟩ | ⟨slot, tree, leftmost, before, later, free, rfl, split, longer, sorted⟩
  · have sameLive : ∀ t, after.Live t ↔ kernel.Live t := by
      intro t
      unfold Live
      rw [makes.slots]
    exact ⟨nodes, {
      numbered := numbered.keeps makes.keeps
      queue := still
      live := fun t => (sameLive t).mpr
      old := fun t live _ => (sameLive t).mp live
      grows := makes.grows
      task := constructs.task
      state := makes.state
      vruntime := constructs.vruntime
      wheel := constructs.wheel
      minVRuntime := constructs.minVRuntime
      current := constructs.current
      mem := fun t => by
        refine ⟨.inl, fun member => member.resolve_right ?_⟩
        rintro ⟨rfl, live, _⟩
        exact absent ((sameLive _).mp live)
      sorted := sameKeys }⟩
  · have admits := makes.seated free tree leftmost
    have newTask : ((made.seated kernel.nextTask slot).withQueue tree leftmost).task kernel.nextTask =
        (made.task kernel.nextTask).assign slot := (task_seated slot kernel.nextTask).trans (if_pos rfl)
    have others : ∀ t ≠ kernel.nextTask,
        ((made.seated kernel.nextTask slot).withQueue tree leftmost).task t = made.task t := fun t other =>
      (task_seated slot t).trans (if_neg other)
    have keys : ∀ t, (((made.seated kernel.nextTask slot).withQueue tree leftmost).task t).vruntime = (made.task t).vruntime := by
      intro t
      by_cases isNew : t = kernel.nextTask
      · rw [isNew, newTask]
        rfl
      · rw [others t isNew]
    have notIdle : slot ≠ pidIdle := by
      have positive := (freeSlot_spec free).1
      unfold pidIdle pidInit at *
      omega
    exact ⟨before ++ kernel.nextTask :: later, {
      numbered := numbered.admits admits
      queue := longer
      live := fun t live => admits.live.mpr (.inl live)
      old := fun t live other => (admits.live.mp live).resolve_right other
      grows := makes.grows
      task := fun t other => by
        rw [others t other]
        exact constructs.task t other
      state := (congrArg Task.state newTask).trans makes.state
      vruntime := (keys _).trans constructs.vruntime
      wheel := constructs.wheel
      minVRuntime := constructs.minVRuntime
      current := constructs.current
      mem := fun t => by
        have placed : ((made.seated kernel.nextTask slot).withQueue tree leftmost).Live kernel.nextTask ∧
            (((made.seated kernel.nextTask slot).withQueue tree leftmost).task kernel.nextTask).pid ≠ pidIdle := by
          refine ⟨admits.live.mpr (.inr rfl), ?_⟩
          rw [newTask]
          exact notIdle
        rw [split, List.mem_append, List.mem_append, List.mem_cons]
        constructor
        · rintro (early | rfl | late)
          · exact .inl (.inl early)
          · exact .inr ⟨rfl, placed⟩
          · exact .inl (.inr late)
        · rintro ((early | late) | ⟨isNew, _⟩)
          · exact .inl early
          · exact .inr (.inr late)
          · exact .inr (.inl isNew)
      sorted := fun ordered => (sorted (sameKeys ordered)).congr fun t _ => keys t }⟩

theorem creates_idleTask (numbered : kernel.Numbered) (queue : kernel.RunQueue nodes) (rsp cr3 : Nat) :
    kernel.Creates (kernel.createIdleTask rsp cr3) nodes nodes := by
  have constructs := constructs_constructTask kernel rsp cr3
  obtain ⟨parent, makes⟩ := constructs.makes
  have tasks : ∀ t, (kernel.createIdleTask rsp cr3).task t = if t = kernel.nextTask then
      { (kernel.constructTask rsp cr3).task kernel.nextTask with pid := pidIdle } else kernel.task t := by
    intro t
    have same : (kernel.createIdleTask rsp cr3).task = ((kernel.constructTask rsp cr3).modify kernel.nextTask
        fun task => { task with pid := pidIdle }).task := by
      unfold createIdleTask
      split <;> rfl
    rw [same, task_modify]
    split
    case isTrue => rfl
    case isFalse other => rw [constructTask, task_newTask, if_neg other]
  have tables : (kernel.createIdleTask rsp cr3).tree = kernel.tree ∧
      (kernel.createIdleTask rsp cr3).cfsLeftmost = kernel.cfsLeftmost ∧
      (kernel.createIdleTask rsp cr3).nextTask = kernel.nextTask + 1 ∧
      (kernel.createIdleTask rsp cr3).sleepWheel = kernel.sleepWheel ∧
      (kernel.createIdleTask rsp cr3).minVRuntime = kernel.minVRuntime ∧
      (kernel.createIdleTask rsp cr3).currentTaskIndex = kernel.currentTaskIndex := by
    unfold createIdleTask
    split <;> exact ⟨rfl, rfl, rfl, rfl, rfl, rfl⟩
  have membership : (kernel.createIdleTask rsp cr3).Numbered ∧
      (∀ t, kernel.Live t → (kernel.createIdleTask rsp cr3).Live t) ∧
      ∀ t, (kernel.createIdleTask rsp cr3).Live t → t ≠ kernel.nextTask → kernel.Live t := by
    rcases kernel.createIdleTask_admits rsp cr3 with keeps | admits
    · refine ⟨numbered.keeps keeps, fun t live => ?_, fun t live _ => ?_⟩
      · exact live.imp fun slot held => by rw [keeps.slots, held]
      · exact live.imp fun slot held => by rw [← keeps.slots, held]
    · refine ⟨numbered.admits admits, fun t live => admits.live.mpr (.inl live), fun t live other => ?_⟩
      exact (admits.live.mp live).resolve_right other
  have newTask := (tasks kernel.nextTask).trans (if_pos rfl)
  have keys : ∀ t ∈ nodes, ((kernel.createIdleTask rsp cr3).task t).vruntime = (kernel.task t).vruntime := fun t member =>
    congrArg Task.vruntime ((tasks t).trans (if_neg (Nat.ne_of_lt (queue.created t member))))
  exact {
    numbered := membership.1
    queue := queue.congr tables.1 tables.2.1 (tables.2.2.1 ▸ Nat.le_succ _)
    live := membership.2.1
    old := membership.2.2
    grows := tables.2.2.1
    task := fun t other => by
      rw [tasks t, if_neg other]
      rfl
    state := (congrArg Task.state newTask).trans makes.state
    vruntime := (congrArg Task.vruntime newTask).trans constructs.vruntime
    wheel := tables.2.2.2.1
    minVRuntime := tables.2.2.2.2.1
    current := tables.2.2.2.2.2
    mem := fun t => by
      refine ⟨.inl, fun member => member.resolve_right ?_⟩
      rintro ⟨rfl, _, notIdle⟩
      exact notIdle (congrArg Task.pid newTask)
    sorted := fun sorted => sorted.congr keys }

section

variable (num : kernel.Numbered) (queue : kernel.RunQueue nodes)
include num queue

theorem creates_kthread {rsp cr3 : Nat} (done : kernel.createKThread rsp cr3 = some after) :
    ∃ longer, kernel.Creates after nodes longer :=
  (constructs_constructTask kernel rsp cr3).schedulerAddTask num queue done

theorem creates_userTask {rsp cr3 fpu : Nat} (done : kernel.createUserTask rsp cr3 fpu = some after) :
    ∃ longer, kernel.Creates after nodes longer :=
  (constructs_taskUserConstructor kernel rsp cr3 fpu).schedulerAddTask num queue done

theorem creates_fork {memory : Option (Nat × Nat)} {rax : Nat} (done : kernel.sysFork memory = some (rax, after)) :
    after = kernel ∨ ∃ longer, kernel.Creates after nodes longer := by
  obtain ⟨cur, _, call⟩ := Option.bind_eq_some_iff.mp done
  cases memory with
  | none =>
    cases call
    exact .inl rfl
  | some res =>
    obtain ⟨added, add, eq⟩ := Option.map_eq_some_iff.mp call
    cases eq
    exact .inr ((constructs_forkChild kernel cur res.1 res.2).schedulerAddTask num queue add)

end

end

end Kernel

end RosKernel.Tasking
