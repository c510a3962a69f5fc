import RosKernel.Tasking.Groups

/-! The contexts that `Schedule` saves and restores.

Beside the kernel runs a record of what each task has last been switched out with, or of what it
was created with if it has not run yet.
-/

set_option autoImplicit false

namespace RosKernel.Tasking

open Library Memory Option

namespace Kernel

def held (kernel : Kernel) (t : TaskId) : Cpu where
  fpu := match (kernel.task t).fpuRegion with
    | none => kernel.cpu.fpu
    | some area => kernel.fpuStorage area
  rsp := (kernel.task t).rsp
  cr3 := (kernel.task t).cr3

/-- No task in the table but the running one has its FPU image where the next switch saves, unless
the image that is there does not change. -/
def SavesApart (kernel : Kernel) : Prop := ∀ prev ∈ kernel.getCurrentTaskPtr, ∀ slot < Process.maxTask,
  ∀ other ∈ kernel.taskArray slot, other ≠ prev → (kernel.task other).fpuRegion = (kernel.task prev).fpuRegion →
    ∀ area ∈ (kernel.task prev).fpuRegion, kernel.fpuStorage area = kernel.cpu.fpu

instance (kernel : Kernel) : Decidable kernel.SavesApart := inferInstanceAs (Decidable (∀ _ ∈ _, _))

section

variable {kernel : Kernel} {t prev next : TaskId} {area : Nat}

theorem held_setState (u : TaskId) (state : TaskState) : (kernel.modify u (Task.setState · state)).held t = kernel.held t := by
  by_cases eq : t = u
  · simp [held, eq]
  · simp [held, eq]

theorem held_saved (own : (kernel.task prev).fpuRegion = some area) :
    (kernel.saveContext prev).held prev = { kernel.cpu with cr3 := (kernel.task prev).cr3 } := by
  simp [held, own, saveContext]

theorem held_saveContext (ne : t ≠ prev) (own : (kernel.task t).fpuRegion = some area) :
    (kernel.saveContext prev).held t = kernel.held t ↔
      ((kernel.task t).fpuRegion = (kernel.task prev).fpuRegion → kernel.fpuStorage area = kernel.cpu.fpu) := by
  have eq : (kernel.saveContext prev).task t = kernel.task t := by rw [task_saveContext, if_neg ne]
  simp only [held, eq, own, Cpu.mk.injEq, and_true]
  unfold saveContext
  cases region : (kernel.task prev).fpuRegion with
  | none => simp
  | some other =>
    by_cases shared : area = other
    · simp [shared, eq_comm]
    · simp [shared]

theorem held_switchIn (own : (kernel.task t).fpuRegion = some area) : (kernel.switchIn next).held t = kernel.held t := by
  by_cases eq : t = next
  · subst eq
    simp [held, switchIn, own]
  · simp [held, switchIn, eq, own]

theorem cpu_switchIn (next : TaskId) : (kernel.switchIn next).cpu = kernel.held next := rfl

variable {middle picked : Kernel} {nodes waiting rest : List TaskId}

theorem Suspends.held_own (suspends : kernel.Suspends nodes middle waiting) (runs : kernel.getCurrentTaskPtr = some t)
    (own : (kernel.task t).fpuRegion = some area) : middle.held t = { kernel.cpu with cr3 := (kernel.task t).cr3 } := by
  cases suspends with
  | nobody nobodyRuns => exact nomatch runs.symm.trans nobodyRuns
  | aside again =>
    obtain rfl := some.inj (runs.symm.trans again)
    exact held_saved own
  | queued executes =>
    obtain rfl := some.inj (runs.symm.trans executes.1)
    exact (held_setState t .ready).trans (held_saved own)

theorem Suspends.held_other (suspends : kernel.Suspends nodes middle waiting) (ne : kernel.getCurrentTaskPtr ≠ some t)
    (own : (kernel.task t).fpuRegion = some area) : middle.held t = kernel.held t ↔
      ∀ prev, kernel.getCurrentTaskPtr = some prev → (kernel.task t).fpuRegion = (kernel.task prev).fpuRegion →
        kernel.fpuStorage area = kernel.cpu.fpu := by
  cases suspends with
  | nobody nobodyRuns => exact iff_of_true rfl fun _ runs => nomatch runs.symm.trans nobodyRuns
  | @aside prev runs =>
    have dist : t ≠ prev := fun eq => ne (eq ▸ runs)
    simpa [runs] using held_saveContext dist own
  | @queued prev tree leftmost _ _ executes =>
    have runs := executes.1
    have dist : t ≠ prev := fun eq => ne (eq ▸ runs)
    have aside : (((kernel.saveContext prev).modify prev (Task.setState · .ready)).withQueue tree leftmost).held t =
        (kernel.saveContext prev).held t := held_setState prev .ready
    rw [aside]
    simpa [runs] using held_saveContext dist own

theorem Picks.held (picks : kernel.Picks nodes next picked rest) (t : TaskId) : picked.held t = kernel.held t := by
  obtain ⟨tree, leftmost, minVRuntime, rfl⟩ := picks.tables
  rfl

/-- The parts of a task's structure that a switch to it loads or follows. -/
structure SameContext (before after : Task) : Prop where
  region : after.fpuRegion = before.fpuRegion
  rsp : after.rsp = before.rsp
  cr3 : after.cr3 = before.cr3

theorem SameContext.refl (task : Task) : SameContext task task := ⟨rfl, rfl, rfl⟩

/-- A call that leaves the contexts of the tasks there are, and gives each new task a region. -/
structure Prepares (kernel after : Kernel) : Prop where
  grows : kernel.nextTask ≤ after.nextTask
  context : ∀ t < kernel.nextTask, SameContext (kernel.task t) (after.task t)
  storage : ∀ area < kernel.nextTask, after.fpuStorage area = kernel.fpuStorage area
  areas : ∀ t, kernel.nextTask ≤ t → t < after.nextTask → ∃ area < after.nextTask, (after.task t).fpuRegion = some area

variable {made after : Kernel}

theorem Prepares.held (prepares : kernel.Prepares after) (created : t < kernel.nextTask) (lt : area < kernel.nextTask)
    (own : (kernel.task t).fpuRegion = some area) : after.held t = kernel.held t := by
  have eq := prepares.context t created
  simp only [Kernel.held, eq.region, eq.rsp, eq.cr3, own, prepares.storage area lt]

theorem Prepares.modify (prepares : kernel.Prepares made) (u : TaskId) {change : Task → Task}
    (keeps : ∀ task, SameContext task (change task)) : kernel.Prepares (made.modify u change) where
  grows := prepares.grows
  context t created := by
    have before := prepares.context t created
    rw [task_modify]
    split
    case isTrue same =>
      subst same
      have change := keeps (made.task t)
      exact ⟨change.region.trans before.region, change.rsp.trans before.rsp, change.cr3.trans before.cr3⟩
    case isFalse => exact before
  storage := prepares.storage
  areas t fresh created := by
    obtain ⟨area, small, own⟩ := prepares.areas t fresh created
    refine ⟨area, small, ?_⟩
    rw [task_modify]
    split
    case isTrue same => rw [(keeps _).region, ← same, own]
    case isFalse => exact own

theorem Prepares.seated (prepares : kernel.Prepares made) (u : TaskId) (slot : Nat) (tree : Links TaskId)
    (leftmost : Option TaskId) : kernel.Prepares ((made.seated u slot).withQueue tree leftmost) :=
  have assigned : kernel.Prepares (made.modify u (Task.assign · slot)) := prepares.modify u fun _ => ⟨rfl, rfl, rfl⟩
  ⟨assigned.grows, assigned.context, assigned.storage, assigned.areas⟩

theorem prepares_newTask (kernel : Kernel) {task : Task} (fpu : Nat) (small : area ≤ kernel.nextTask)
    (own : task.fpuRegion = some area) : kernel.Prepares (kernel.newTask task fpu) where
  grows := Nat.le_succ _
  context t created := by
    rw [task_newTask, if_neg (Nat.ne_of_lt created)]
    exact SameContext.refl _
  storage other created := Function.update_of_ne (Nat.ne_of_lt created) ..
  areas t fresh created := by
    rw [task_newTask, if_pos (Nat.le_antisymm (Nat.le_of_lt_succ created) fresh)]
    exact ⟨area, Nat.lt_succ_of_le small, own⟩

theorem prepares_forkChild (rsp cr3 : Nat) (lt : area < kernel.nextTask) (own : (kernel.task t).fpuRegion = some area) :
    kernel.Prepares (kernel.forkChild t rsp cr3) := by
  have forked : kernel.Prepares (kernel.newTask (kernel.forkedTask (kernel.task t) rsp cr3) (kernel.fpuStorage t)) :=
    prepares_newTask kernel _ lt.le own
  unfold forkChild
  dsimp only
  cases kernel.forkLeader (kernel.task t) with
  | none => exact forked
  | some leader => exact forked.modify leader fun _ => ⟨rfl, rfl, rfl⟩

end

end Kernel

inductive ContextOp where
  | createIdleTask (rsp kernelCr3 : Nat)
  | createKThread (rsp kernelCr3 : Nat)
  | createUserTask (rsp cr3 initFpu : Nat)
  | fork (memory : Option (Nat × Nat))
  | compute (fpu rsp : Nat)
  | start
  | schedule

structure Contexts where
  kernel : Kernel
  saved : TaskId → Cpu

namespace Contexts

/-- New tasks enter the record with the context that they are created with. -/
def record (contexts : Contexts) (after : Kernel) : Contexts where
  kernel := after
  saved t := if t < contexts.kernel.nextTask then contexts.saved t else after.held t

section

variable (contexts : Contexts)

/-- What the running task holds is what it is switched out with; its page table stays what it was. -/
def save (after : Kernel) : Contexts where
  kernel := after
  saved := match contexts.kernel.getCurrentTaskPtr with
    | none => contexts.saved
    | some prev => Function.update contexts.saved prev { contexts.kernel.cpu with cr3 := (contexts.saved prev).cr3 }

def step : ContextOp → Option Contexts
  | .createIdleTask rsp kernelCr3 => some (contexts.record (contexts.kernel.createIdleTask rsp kernelCr3))
  | .createKThread rsp kernelCr3 => (contexts.kernel.createKThread rsp kernelCr3).map contexts.record
  | .createUserTask rsp cr3 initFpu => (contexts.kernel.createUserTask rsp cr3 initFpu).map contexts.record
  | .fork memory => (contexts.kernel.sysFork memory).map fun (_, after) => contexts.record after
  | .compute fpu rsp => some { contexts with kernel := { contexts.kernel with cpu.fpu := fpu, cpu.rsp := rsp } }
  | .start => contexts.kernel.schedulerStart.map contexts.record
  | .schedule => contexts.kernel.schedule.map contexts.save

def boot (lapicHz : Nat) (cpu : Cpu) : Contexts := ⟨powerOn lapicHz cpu, fun _ => cpu⟩

/-- The scheduler is started once. -/
def Allowed : ContextOp → Prop
  | .start => contexts.kernel.getCurrentTaskPtr = none
  | _ => True

instance (contexts : Contexts) : DecidablePred contexts.Allowed
  | .start => inferInstanceAs (Decidable (_ = _))
  | .createIdleTask .. | .createKThread .. | .createUserTask .. | .fork _ | .compute .. | .schedule => .isTrue trivial

def SwitchedApart : ContextOp → Prop
  | .schedule => contexts.kernel.SavesApart
  | op => contexts.Allowed op

instance (contexts : Contexts) : DecidablePred contexts.SwitchedApart
  | .schedule => inferInstanceAs (Decidable contexts.kernel.SavesApart)
  | .createIdleTask .. | .createKThread .. | .createUserTask .. | .fork _ | .compute .. => .isTrue trivial
  | .start => inferInstanceAs (Decidable (_ = _))

/-- Every task in the table would be resumed with the context recorded for it. -/
def Isolated : Prop :=
  ∀ t, contexts.kernel.Live t → contexts.kernel.held t = contexts.saved t

/-- The running task has been given the context recorded for it. -/
def Resumed : Prop :=
  ∃ next, contexts.kernel.getCurrentTaskPtr = some next ∧ contexts.kernel.cpu = contexts.saved next

end

/-- The contexts of the tasks that were not running are as before. -/
def OthersKept (contexts after : Contexts) : Prop :=
  ∀ t, contexts.kernel.Live t → contexts.kernel.getCurrentTaskPtr ≠ some t → after.kernel.held t = contexts.kernel.held t

structure Sound (contexts : Contexts) : Prop where
  numbered : contexts.kernel.Numbered
  queue : ∃ nodes, contexts.kernel.RunQueue nodes ∧
    ∀ t ∈ nodes, contexts.kernel.Live t ∧ (contexts.kernel.task t).state = .ready
  areas : ∀ t, contexts.kernel.Live t → ∃ area < contexts.kernel.nextTask, (contexts.kernel.task t).fpuRegion = some area
  isolated : contexts.Isolated

theorem sound_boot (lapicHz : Nat) (cpu : Cpu) : (boot lapicHz cpu).Sound where
  numbered := Kernel.numbered_powerOn lapicHz cpu
  queue := ⟨[], Kernel.runQueue_empty rfl rfl, fun _ mem => (nomatch mem)⟩
  areas _ live := nomatch live.choose_spec
  isolated _ live := nomatch live.choose_spec

section

variable {contexts after : Contexts}

theorem saved_save (kernel : Kernel) {t : TaskId} (ne : contexts.kernel.getCurrentTaskPtr ≠ some t) :
    (contexts.save kernel).saved t = contexts.saved t := by
  unfold save
  cases runs : contexts.kernel.getCurrentTaskPtr with
  | none => rfl
  | some prev => exact Function.update_of_ne (fun eq => ne (runs.trans (congrArg some eq.symm))) ..

section

variable (sound : contexts.Sound)
include sound

theorem Sound.switch {kernel : Kernel} (done : contexts.kernel.schedule = some kernel) :
    ∃ nodes middle waiting next picked rest, contexts.kernel.Suspends nodes middle waiting ∧
      middle.Picks waiting next picked rest ∧ kernel = picked.switchIn next ∧ contexts.kernel.Live next ∧
      (∀ t ∈ waiting, contexts.kernel.Live t ∧ (middle.task t).state = .ready) ∧
      ∀ t, contexts.kernel.Live t → kernel.held t = middle.held t := by
  obtain ⟨nodes, queue, ready⟩ := sound.queue
  have currentLive := fun prev => @Kernel.live_of_current contexts.kernel prev
  obtain ⟨middle, waiting, next, picked, rest, suspends, picks, rfl⟩ :=
    queue.schedule done (fun prev runs => sound.numbered.live_lt (currentLive prev runs)) fun prev _ isRunning mem => by
      rw [(ready prev mem).2] at isRunning
      exact nomatch isRunning
  have waits : ∀ t ∈ waiting, contexts.kernel.Live t ∧ (middle.task t).state = .ready := by
    intro t mem
    rcases suspends.state t with ⟨executes, isReady⟩ | ⟨stops, eq⟩
    · exact ⟨currentLive t executes.1, isReady⟩
    · obtain ⟨live, isReady⟩ := ready t ((suspends.mem_iff.mp mem).resolve_right stops)
      exact ⟨live, eq.trans isReady⟩
  refine ⟨nodes, middle, waiting, next, picked, rest, suspends, picks, rfl, ?_, waits, fun t live => ?_⟩
  · rcases picks.chosen with mem | isIdle
    · exact (waits next mem).1
    · have num : middle.Numbered := sound.numbered.congr suspends.tables.1 suspends.tables.2.1.ge fun u _ =>
        (congrArg Task.pid (suspends.fields u)).trans rfl
      rw [num.getTaskPID, suspends.tables.1] at isIdle
      exact ⟨pidIdle, isIdle⟩
  · obtain ⟨area, _, own⟩ := sound.areas t live
    have stillOwn : (picked.task t).fpuRegion = some area := by
      obtain ⟨tree, leftmost, minVRuntime, rfl⟩ := picks.tables
      exact (congrArg Task.fpuRegion (suspends.fields t)).trans own
    exact (Kernel.held_switchIn stillOwn).trans (picks.held t)

theorem Sound.othersKept (hs : contexts.step .schedule = some after) :
    contexts.OthersKept after ↔ contexts.kernel.SavesApart := by
  obtain ⟨kernel, done, rfl⟩ := map_eq_some_iff.mp hs
  obtain ⟨nodes, middle, waiting, next, picked, rest, suspends, _, _, _, _, eq⟩ := sound.switch done
  constructor
  · intro kept prev runs slot _ other held ne shared area own
    have live : contexts.kernel.Live other := ⟨slot, held⟩
    have notRunning : contexts.kernel.getCurrentTaskPtr ≠ some other := fun runsToo =>
      ne (some.inj (runsToo.symm.trans runs))
    have unchanged : middle.held other = contexts.kernel.held other := (eq other live).symm.trans (kept other live notRunning)
    exact (suspends.held_other notRunning (shared.trans own)).mp unchanged prev runs shared
  · intro ne t live notRunning
    obtain ⟨area, _, own⟩ := sound.areas t live
    refine (eq t live).trans ((suspends.held_other notRunning own).mpr fun prev runs shared => ?_)
    obtain ⟨slot, held⟩ := live
    have dist : t ≠ prev := fun eq => notRunning (eq ▸ runs)
    exact ne prev runs slot (sound.numbered.range slot t held) t held dist shared area (shared ▸ own)

section

variable (ne : contexts.kernel.SavesApart) (hs : contexts.step .schedule = some after)
include ne hs

theorem Sound.isolated_after : ∀ t, contexts.kernel.Live t → after.kernel.held t = after.saved t := by
  have kept := (sound.othersKept hs).mpr ne
  obtain ⟨kernel, done, rfl⟩ := map_eq_some_iff.mp hs
  obtain ⟨nodes, middle, waiting, next, picked, rest, suspends, _, _, _, _, eq⟩ := sound.switch done
  intro t live
  by_cases runs : contexts.kernel.getCurrentTaskPtr = some t
  · obtain ⟨area, _, own⟩ := sound.areas t live
    have pageTable : (contexts.kernel.task t).cr3 = (contexts.saved t).cr3 := congrArg Cpu.cr3 (sound.isolated t live)
    refine (eq t live).trans ((suspends.held_own runs own).trans ?_)
    simp [save, runs, pageTable]
  · exact (kept t live runs).trans ((sound.isolated t live).trans (saved_save kernel runs).symm)

theorem Sound.switched : after.Sound ∧ after.Resumed := by
  have isolated := sound.isolated_after ne hs
  obtain ⟨kernel, done, rfl⟩ := map_eq_some_iff.mp hs
  obtain ⟨nodes, middle, waiting, next, picked, rest, suspends, picks, rfl, live, waits, _⟩ := sound.switch done
  obtain ⟨pickedSlots, pickedNames, cur⟩ := picks.tables_switchIn
  have slots := pickedSlots.trans suspends.tables.1
  have names := pickedNames.trans suspends.tables.2.1
  have fields : ∀ u, ((picked.switchIn next).task u).pid = (contexts.kernel.task u).pid ∧
      ((picked.switchIn next).task u).fpuRegion = (contexts.kernel.task u).fpuRegion := by
    intro u
    rw [picks.task_switchIn, suspends.fields u, suspends.fields next]
    split
    case isTrue eq => rw [eq]; exact ⟨rfl, rfl⟩
    case isFalse => exact ⟨rfl, rfl⟩
  have num : (picked.switchIn next).Numbered := sound.numbered.congr slots names.ge fun u _ => (fields u).1
  have nextLive : (picked.switchIn next).Live next := by
    obtain ⟨slot, held⟩ := live
    exact ⟨slot, slots ▸ held⟩
  have areas : ∀ t, (picked.switchIn next).Live t →
      ∃ area < (picked.switchIn next).nextTask, ((picked.switchIn next).task t).fpuRegion = some area := by
    rintro t ⟨slot, held⟩
    obtain ⟨area, lt, own⟩ := sound.areas t ⟨slot, slots ▸ held⟩
    exact ⟨area, names ▸ lt, (fields t).2.trans own⟩
  refine ⟨⟨num, ⟨rest, picks.remaining.congr rfl rfl (Nat.le_refl _), ?_⟩, areas, ?_⟩, next, ?_, ?_⟩
  · intro t mem
    obtain ⟨inQueue, dist⟩ := picks.mem_rest mem
    obtain ⟨⟨slot, held⟩, isReady⟩ := waits t inQueue
    refine ⟨⟨slot, slots ▸ held⟩, ?_⟩
    rw [save, picks.task_switchIn, if_neg dist]
    exact isReady
  · rintro t ⟨slot, held⟩
    exact isolated t ⟨slot, slots ▸ held⟩
  · have placed := num.live nextLive
    have samePid : (middle.task next).pid = ((picked.switchIn next).task next).pid := by
      rw [picks.task_switchIn, if_pos rfl]
      rfl
    unfold Kernel.getCurrentTaskPtr save
    rw [cur, samePid]
    exact (if_pos (num.range _ next placed)).trans placed
  · -- the task's own region is what the switch loads
    obtain ⟨area, _, own⟩ := areas next nextLive
    have ownBefore : (picked.task next).fpuRegion = some area := by
      rw [← own]
      simp [Kernel.switchIn]
    exact (Kernel.cpu_switchIn next).trans ((Kernel.held_switchIn ownBefore).symm.trans (isolated next live))

end

end

end

section

variable {contexts : Contexts} {made after : Kernel} {parent : Nat}

section

variable (sound : contexts.Sound)
include sound

theorem Sound.recorded (prepares : contexts.kernel.Prepares after) (numbered : after.Numbered)
    (queue : ∃ nodes, after.RunQueue nodes ∧ ∀ t ∈ nodes, after.Live t ∧ (after.task t).state = .ready)
    (old : ∀ t, after.Live t → t < contexts.kernel.nextTask → contexts.kernel.Live t) : (contexts.record after).Sound where
  numbered := numbered
  queue := queue
  areas t live := by
    by_cases created : t < contexts.kernel.nextTask
    · obtain ⟨area, small, own⟩ := sound.areas t (old t live created)
      exact ⟨area, Nat.lt_of_lt_of_le small prepares.grows, (prepares.context t created).region.trans own⟩
    · exact prepares.areas t (Nat.le_of_not_lt created) (numbered.live_lt live)
  isolated t live := by
    by_cases created : t < contexts.kernel.nextTask
    · obtain ⟨area, small, own⟩ := sound.areas t (old t live created)
      have recorded : (contexts.record after).saved t = contexts.saved t := if_pos created
      exact (prepares.held created small own).trans ((sound.isolated t (old t live created)).trans recorded.symm)
    · exact (if_neg created).symm

theorem Sound.added (makes : contexts.kernel.Makes made parent) (prepares : contexts.kernel.Prepares made)
    (states : ∀ t < contexts.kernel.nextTask, (made.task t).state = (contexts.kernel.task t).state)
    (done : made.schedulerAddTask contexts.kernel.nextTask = some after) : (contexts.record after).Sound := by
  obtain ⟨nodes, queue, waits⟩ := sound.queue
  rcases makes.queued queue done with ⟨_, rfl, still⟩ | ⟨slot, tree, leftmost, pre, later, free, rfl, rfl, longer, _⟩
  · refine sound.recorded prepares (sound.numbered.keeps makes.keeps) ⟨nodes, still, fun t mem => ?_⟩ ?_
    · obtain ⟨live, isReady⟩ := waits t mem
      refine ⟨?_, (states t (queue.created t mem)).trans isReady⟩
      exact live.imp fun slot held => by rw [makes.slots, held]
    · rintro t ⟨slot, held⟩ _
      exact ⟨slot, makes.slots ▸ held⟩
  · have admits := makes.seated free tree leftmost
    refine sound.recorded (prepares.seated ..) (sound.numbered.admits admits) ⟨_, longer, fun t mem => ?_⟩ ?_
    · by_cases isNew : t = contexts.kernel.nextTask
      · refine ⟨admits.live.mpr (.inr isNew), ?_⟩
        rw [isNew, Kernel.task_withQueue, Kernel.task_seated, if_pos rfl]
        exact makes.state
      · have waiting : t ∈ pre ++ later := by simpa [isNew] using mem
        obtain ⟨live, isReady⟩ := waits t waiting
        refine ⟨admits.live.mpr (.inl live), ?_⟩
        rw [Kernel.task_withQueue, Kernel.task_seated, if_neg isNew]
        exact (states t (queue.created t waiting)).trans isReady
    · intro t live created
      rcases admits.live.mp live with pre | isNew
      · exact pre
      · exact absurd isNew (Nat.ne_of_lt created)

theorem Sound.idle (rsp kernelCr3 : Nat) : (contexts.record (contexts.kernel.createIdleTask rsp kernelCr3)).Sound := by
  obtain ⟨nodes, queue, waits⟩ := sound.queue
  have constructed : contexts.kernel.Prepares (contexts.kernel.constructTask rsp kernelCr3) :=
    Kernel.prepares_newTask contexts.kernel _ (Nat.le_refl _) rfl
  have idle : contexts.kernel.Prepares ((contexts.kernel.constructTask rsp kernelCr3).modify contexts.kernel.nextTask
      fun task => { task with pid := pidIdle }) := constructed.modify _ fun _ => ⟨rfl, rfl, rfl⟩
  have prepares : contexts.kernel.Prepares (contexts.kernel.createIdleTask rsp kernelCr3) := by
    unfold Kernel.createIdleTask
    split
    · exact ⟨idle.grows, idle.context, idle.storage, idle.areas⟩
    · exact idle
  have still : (contexts.kernel.createIdleTask rsp kernelCr3).RunQueue nodes := by
    unfold Kernel.createIdleTask
    split <;> exact queue.congr rfl rfl (Nat.le_succ _)
  have states : ∀ t < contexts.kernel.nextTask,
      ((contexts.kernel.createIdleTask rsp kernelCr3).task t).state = (contexts.kernel.task t).state := by
    intro t created
    have dist := Nat.ne_of_lt created
    unfold Kernel.createIdleTask
    split <;> simp [Kernel.constructTask, dist]
  have membership : (contexts.kernel.createIdleTask rsp kernelCr3).Numbered ∧
      (∀ t, contexts.kernel.Live t → (contexts.kernel.createIdleTask rsp kernelCr3).Live t) ∧
      ∀ t, (contexts.kernel.createIdleTask rsp kernelCr3).Live t → t < contexts.kernel.nextTask → contexts.kernel.Live t := by
    rcases contexts.kernel.createIdleTask_admits rsp kernelCr3 with keeps | admits
    · refine ⟨sound.numbered.keeps keeps, fun t live => ?_, fun t live _ => ?_⟩
      · exact live.imp fun slot held => by rw [keeps.slots, held]
      · exact live.imp fun slot held => by rw [← keeps.slots, held]
    · refine ⟨sound.numbered.admits admits, fun t live => admits.live.mpr (.inl live), fun t live created => ?_⟩
      exact (admits.live.mp live).resolve_right (Nat.ne_of_lt created)
  refine sound.recorded prepares membership.1 ⟨nodes, still, fun t mem => ?_⟩ membership.2.2
  obtain ⟨live, isReady⟩ := waits t mem
  exact ⟨membership.2.1 t live, (states t (queue.created t mem)).trans isReady⟩

theorem Sound.forked {memory : Option (Nat × Nat)} {rax : Nat} (done : contexts.kernel.sysFork memory = some (rax, after)) :
    (contexts.record after).Sound := by
  obtain ⟨cur, runs, call⟩ := bind_eq_some_iff.mp done
  obtain ⟨area, lt, own⟩ := sound.areas cur (Kernel.live_of_current runs)
  cases memory with
  | none =>
    cases call
    exact sound.recorded ⟨Nat.le_refl _, fun _ _ => Kernel.SameContext.refl _, fun _ _ => rfl,
      fun _ fresh created => absurd created (Nat.not_lt.mpr fresh)⟩ sound.numbered sound.queue fun _ live _ => live
  | some res =>
    obtain ⟨added, add, eq⟩ := map_eq_some_iff.mp call
    cases eq
    refine sound.added (Kernel.makes_forkChild ..) (Kernel.prepares_forkChild _ _ lt own) (fun t created => ?_) add
    rw [Kernel.task_forkChild, if_neg (Nat.ne_of_lt created)]
    split <;> rfl

theorem Sound.started (done : contexts.kernel.schedulerStart = some after) : (contexts.record after).Sound := by
  obtain ⟨nodes, queue, waits⟩ := sound.queue
  obtain ⟨first, tree, leftmost, rest, cpu, res, remaining, others, _⟩ := queue.schedulerStart done
  have tasks : ∀ t, after.task t = if t = first then (contexts.kernel.task first).setState .running else contexts.kernel.task t := by
    intro t
    rw [res]
    exact Kernel.task_modify _ first t (Task.setState · .running)
  have slots : after.taskArray = contexts.kernel.taskArray := by rw [res]; rfl
  have names : after.nextTask = contexts.kernel.nextTask := by rw [res]; rfl
  have fields : ∀ t, Kernel.SameContext (contexts.kernel.task t) (after.task t) ∧
      (after.task t).pid = (contexts.kernel.task t).pid := by
    intro t
    rw [tasks]
    split
    case isTrue eq => rw [eq]; exact ⟨⟨rfl, rfl, rfl⟩, rfl⟩
    case isFalse => exact ⟨Kernel.SameContext.refl _, rfl⟩
  have prepares : contexts.kernel.Prepares after :=
    ⟨names.ge, fun t _ => (fields t).1, fun _ _ => by rw [res]; rfl,
      fun _ fresh created => absurd created (Nat.not_lt.mpr (names ▸ fresh))⟩
  have num : after.Numbered := sound.numbered.congr slots names.ge fun t _ => (fields t).2
  refine sound.recorded prepares num ⟨rest, remaining, fun t mem => ?_⟩ fun t live _ => ?_
  · obtain ⟨inQueue, ne⟩ := others t mem
    obtain ⟨live, isReady⟩ := waits t inQueue
    refine ⟨live.imp fun slot held => slots ▸ held, ?_⟩
    rw [tasks, if_neg ne]
    exact isReady
  · exact live.imp fun slot held => slots ▸ held

theorem Sound.ofStep {op : ContextOp} {next : Contexts} (ne : contexts.SwitchedApart op) (hs : contexts.step op = some next) :
    next.Sound := by
  cases op with
  | createIdleTask rsp kernelCr3 => exact some.inj hs ▸ sound.idle rsp kernelCr3
  | createKThread rsp kernelCr3 =>
    obtain ⟨after, done, rfl⟩ := map_eq_some_iff.mp hs
    refine sound.added (Kernel.makes_newTask contexts.kernel _ rfl rfl)
      (Kernel.prepares_newTask contexts.kernel _ (Nat.le_refl _) rfl) (fun t created => ?_) done
    rw [Kernel.task_newTask, if_neg (Nat.ne_of_lt created)]
  | createUserTask rsp cr3 initFpu =>
    obtain ⟨after, done, rfl⟩ := map_eq_some_iff.mp hs
    have prepares : (contexts.kernel.loadFpu initFpu).Prepares (contexts.kernel.taskUserConstructor rsp cr3 initFpu) :=
      Kernel.prepares_newTask _ initFpu (Nat.le_refl _) rfl
    refine sound.added (Kernel.makes_taskUserConstructor contexts.kernel rsp cr3 initFpu)
      ⟨prepares.grows, prepares.context, prepares.storage, prepares.areas⟩ (fun t created => ?_) done
    have dist : t ≠ (contexts.kernel.loadFpu initFpu).nextTask := Nat.ne_of_lt created
    rw [Kernel.taskUserConstructor, Kernel.task_newTask, if_neg dist]
    rfl
  | fork memory =>
    obtain ⟨⟨rax, after⟩, done, rfl⟩ := map_eq_some_iff.mp hs
    exact sound.forked done
  | compute fpu rsp =>
    cases hs
    refine ⟨sound.numbered.congr rfl (Nat.le_refl _) fun _ _ => rfl, ?_, sound.areas, fun t live => ?_⟩
    · obtain ⟨nodes, queue, waits⟩ := sound.queue
      exact ⟨nodes, queue.congr rfl rfl (Nat.le_refl _), waits⟩
    · obtain ⟨area, _, own⟩ := sound.areas t live
      rw [← sound.isolated t live]
      simp [Kernel.held, own]
  | start =>
    obtain ⟨after, done, rfl⟩ := map_eq_some_iff.mp hs
    exact sound.started done
  | schedule => exact (sound.switched ne hs).1

end

end

/-- While no switch saves over the image of another task, every task is resumed with its own context. -/
theorem contexts_isolated {lapicHz : Nat} {cpu : Cpu} {contexts : Contexts}
    (reached : Reaches step SwitchedApart (boot lapicHz cpu) contexts) :
    contexts.Isolated ∧ ∀ after, contexts.step .schedule = some after →
      (contexts.OthersKept after ∧ after.Resumed ↔ contexts.kernel.SavesApart) := by
  have sound : contexts.Sound :=
    reached.invariant Sound (sound_boot lapicHz cpu) fun _ _ _ sound ne hs => sound.ofStep ne hs
  refine ⟨sound.isolated, fun after hs => ⟨fun both => (sound.othersKept hs).mp both.1, fun ne => ?_⟩⟩
  exact ⟨(sound.othersKept hs).mpr ne, (sound.switched ne hs).2⟩

/-- Two kernel threads that use the FPU and take turns. -/
def takingTurns : List ContextOp :=
  [.createIdleTask 0 0, .createKThread 10 0, .createKThread 20 0, .start, .compute 7 11, .schedule, .compute 8 21, .schedule]

theorem contexts_isolated_in_turns : ∃ contexts, Reaches step SwitchedApart (boot 1000 ⟨0, 0, 0⟩) contexts ∧
    contexts.kernel.cpu = ⟨7, 11, 0⟩ ∧ contexts.Isolated ∧ ∀ after, contexts.step .schedule = some after →
      (contexts.OthersKept after ∧ after.Resumed ↔ contexts.kernel.SavesApart) := by
  have ran : (runAll step SwitchedApart takingTurns (boot 1000 ⟨0, 0, 0⟩)).any (fun contexts =>
      decide (contexts.kernel.cpu = ⟨7, 11, 0⟩)) = true := by
    decide +kernel
  obtain ⟨contexts, done, resumed⟩ := (any_eq_true ..).mp ran
  have hr := Reaches.start.runAll done
  exact ⟨contexts, hr, of_decide_eq_true resumed, contexts_isolated hr⟩

/-- The forked child is first resumed with what its parent's FPU held when the parent was switched out. -/
theorem child_resumed_with_parent_image :
    ¬ ∀ lapicHz cpu contexts after, Reaches step Allowed (boot lapicHz cpu) contexts →
      contexts.step .schedule = some after → contexts.OthersKept after ∧ after.Resumed := by
  intro isolated
  have ran : ((runAll step Allowed [.createIdleTask 0 0, .createKThread 10 0, .start, .fork (some (20, 0)), .compute 7 11]
      (boot 1000 ⟨0, 0, 0⟩)).bind fun contexts => (contexts.step .schedule).map fun after => (contexts, after)).any
        (fun (_, after) => decide (after.kernel.getCurrentTaskPtr = some 2 ∧ after.kernel.cpu = ⟨7, 20, 0⟩ ∧
          after.saved 2 = ⟨0, 20, 0⟩)) = true := by
    decide +kernel
  obtain ⟨⟨contexts, after⟩, done, facts⟩ := (any_eq_true ..).mp ran
  obtain ⟨_, ran, again⟩ := bind_eq_some_iff.mp done
  obtain ⟨_, hs, eq⟩ := map_eq_some_iff.mp again
  cases eq
  obtain ⟨runs, resumed, recorded⟩ := of_decide_eq_true facts
  obtain ⟨next, cur, own⟩ := (isolated 1000 ⟨0, 0, 0⟩ _ _ (Reaches.start.runAll ran) hs).2
  obtain rfl := some.inj (cur.symm.trans runs)
  rw [resumed, recorded] at own
  exact absurd own (by decide)

end Contexts

end RosKernel.Tasking
