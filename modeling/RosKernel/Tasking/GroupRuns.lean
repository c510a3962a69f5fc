import RosKernel.Tasking.Groups

/-! Runs that keep the group lists exact, and the signals sent along them. -/

set_option autoImplicit false

namespace RosKernel.Tasking

open Library List Option

namespace Kernel

/-! ## Conditions -/

section

variable (kernel : Kernel)
include kernel

/-- No task in the table is left over in the group that the next slot would lead. -/
def NoOrphans : Prop :=
  ∀ slot ∈ kernel.freeSlot, ∀ i < Process.maxTask, ∀ t ∈ kernel.taskArray i, (kernel.task t).pgid ≠ slot

/-- The task of the slot, if there is one, does not lead its group. -/
def Unled (pgid : Nat) : Prop :=
  ∀ leader ∈ kernel.taskArray pgid, (kernel.task leader).pgid ≠ (kernel.task leader).pid

def AloneIn (target : TaskId) (pgid : Nat) : Prop :=
  ∀ i < Process.maxTask, ∀ t ∈ kernel.taskArray i, (kernel.task t).pgid = pgid → t = target

/-- The target is alone in the group that it is to lead, or enters the group of another task anew. -/
def MovesCleanly (target : TaskId) (pgid : Nat) : Prop :=
  if pgid = (kernel.task target).pid then kernel.AloneIn target pgid
  else if (kernel.task target).pgid = pgid then kernel.Unled pgid
  else ¬kernel.Unled pgid

/-- The child that is destroyed leads its group, or its group has no leader. -/
def LeavesNoList (child : TaskId) : Prop :=
  (kernel.task child).pgid = (kernel.task child).pid ∨ kernel.Unled (kernel.task child).pgid

/-- Forks go into a group that its leader still leads, while there is a slot, or into a group of
the child's own; the same goes for moves; and no list loses a member to `DestroyTask`. -/
def KeepsGroups (op : ProcessOp) : Prop :=
  kernel.Called op ∧
  match op with
  | .createKThread .. => kernel.NoOrphans
  | .fork caller memory => memory = none ∨
    match kernel.forkLeader (kernel.task caller) with
    | none => kernel.NoOrphans
    | some leader => (kernel.task leader).pgid = (kernel.task leader).pid ∧ kernel.freeSlot ≠ none
  | .wait caller => ∀ child ∈ kernel.zombieChild (kernel.task caller).pid,
      Process.pidUserStart ≤ (kernel.task child).pid → kernel.LeavesNoList child
  | .setPGID caller pid pgid => ∀ target ∈ (kernel.runAs caller).setPGIDTarget pid,
      target = caller ∨ (kernel.task target).ppid = (kernel.task caller).pid →
      kernel.MovesCleanly target (if pgid = 0 then (kernel.task target).pid else pgid)
  | _ => True

end

instance (kernel : Kernel) : Decidable kernel.NoOrphans := inferInstanceAs (Decidable (∀ slot ∈ kernel.freeSlot, _))

instance (kernel : Kernel) (pgid : Nat) : Decidable (kernel.Unled pgid) :=
  inferInstanceAs (Decidable (∀ leader ∈ kernel.taskArray pgid, _))

instance (kernel : Kernel) (target : TaskId) (pgid : Nat) : Decidable (kernel.AloneIn target pgid) :=
  inferInstanceAs (Decidable (∀ i < Process.maxTask, ∀ t ∈ kernel.taskArray i, (kernel.task t).pgid = pgid → t = target))

instance (kernel : Kernel) (target : TaskId) (pgid : Nat) : Decidable (kernel.MovesCleanly target pgid) :=
  inferInstanceAs (Decidable (if pgid = (kernel.task target).pid then kernel.AloneIn target pgid
    else if (kernel.task target).pgid = pgid then kernel.Unled pgid else ¬kernel.Unled pgid))

instance (kernel : Kernel) (child : TaskId) : Decidable (kernel.LeavesNoList child) :=
  inferInstanceAs (Decidable (_ ∨ kernel.Unled _))

instance (kernel : Kernel) (leader : Option TaskId) : Decidable (match leader with
    | none => kernel.NoOrphans
    | some leader => (kernel.task leader).pgid = (kernel.task leader).pid ∧ kernel.freeSlot ≠ none) :=
  match leader with
  | none => inferInstanceAs (Decidable kernel.NoOrphans)
  | some _ => inferInstanceAs (Decidable (_ ∧ _))

instance (kernel : Kernel) : DecidablePred kernel.KeepsGroups
  | .createKThread .. => inferInstanceAs (Decidable (_ ∧ kernel.NoOrphans))
  | .fork _ _ => inferInstanceAs (Decidable (_ ∧ (_ ∨ _)))
  | .wait _ => inferInstanceAs (Decidable (_ ∧ ∀ child ∈ kernel.zombieChild _, _))
  | .setPGID caller pid _ => inferInstanceAs (Decidable (_ ∧ ∀ target ∈ (kernel.runAs caller).setPGIDTarget pid, _))
  | .createIdleTask .. | .createUserTask .. | .exit _ => inferInstanceAs (Decidable (_ ∧ True))

def performed (kernel : Kernel) (op : ProcessOp) : Option Kernel := (kernel.perform op).map Prod.snd

structure Grouped (kernel : Kernel) : Prop where
  numbered : kernel.Numbered
  idleAlone : kernel.IdleAlone
  exact : kernel.GroupsExact
  queue : ∃ nodes, kernel.RunQueue nodes

theorem grouped_powerOn (lapicHz : Nat) (cpu : Cpu) : (powerOn lapicHz cpu).Grouped where
  numbered := numbered_powerOn lapicHz cpu
  idleAlone := fun _ _ held => (nomatch held)
  exact := fun _ leads => nomatch leads.1.choose_spec
  queue := ⟨[], runQueue_empty rfl rfl⟩

section

variable {kernel after : Kernel} {t : TaskId}

theorem NoOrphans.spec (num : kernel.Numbered) (noOrphans : kernel.NoOrphans) {slot : Nat}
    (free : kernel.freeSlot = some slot) (t : TaskId) (live : kernel.Live t) : (kernel.task t).pgid ≠ slot :=
  noOrphans slot free _ (num.range _ t (num.live live)) t (num.live live)

theorem Grouped.same (grouped : kernel.Grouped) (keeps : kernel.Keeps after) (eq : kernel.SameGroups after)
    (queue : ∃ nodes, after.RunQueue nodes) : after.Grouped :=
  ⟨grouped.numbered.keeps keeps, eq.idleAlone grouped.idleAlone, eq.exact grouped.exact, queue⟩

theorem Grouped.runAs (grouped : kernel.Grouped) (caller : TaskId) : (kernel.runAs caller).Grouped := by
  obtain ⟨nodes, queue⟩ := grouped.queue
  exact grouped.same (Keeps.runAs kernel caller) ⟨rfl, fun _ _ => rfl, fun _ _ => rfl, fun _ _ => rfl⟩
    ⟨nodes, queue.congr rfl rfl (Nat.le_refl _)⟩

theorem fork_groups {caller : TaskId} {rsp cr3 slot : Nat} (tree : Links TaskId) (leftmost : Option TaskId) {after : Kernel}
    (res : after = ((kernel.forkChild caller rsp cr3).seated kernel.nextTask slot).withQueue tree leftmost) :
    (∀ u < kernel.nextTask, (after.task u).pgid = (kernel.task u).pgid) ∧
    (∀ u < kernel.nextTask, after.groupNext u =
      if kernel.forkLeader (kernel.task caller) = some u then some kernel.nextTask else kernel.groupNext u) := by
  subst res
  constructor
  · intro u created
    have dist : u ≠ kernel.nextTask := Nat.ne_of_lt created
    simp only [task_withQueue, task_seated, dist, if_false, task_forkChild]
    split <;> rfl
  · intro u created
    have dist : u ≠ kernel.nextTask := Nat.ne_of_lt created
    simp only [groupNext, task_withQueue, task_seated, dist, if_false, task_forkChild]
    split <;> rfl

theorem fork_child {caller : TaskId} {rsp cr3 slot : Nat} (tree : Links TaskId) (leftmost : Option TaskId) {after : Kernel}
    (notLeader : kernel.forkLeader (kernel.task caller) ≠ some kernel.nextTask)
    (res : after = ((kernel.forkChild caller rsp cr3).seated kernel.nextTask slot).withQueue tree leftmost) :
    after.groupNext kernel.nextTask = (kernel.forkLeader (kernel.task caller)).bind kernel.groupNext ∧
    (after.task kernel.nextTask).pgid =
      if (kernel.forkedTask (kernel.task caller) rsp cr3).pgid = 0 then slot
      else (kernel.forkedTask (kernel.task caller) rsp cr3).pgid := by
  subst res
  simp [groupNext, task_forkChild, notLeader]
  rfl

theorem forkLeader_spec (num : kernel.Numbered) {parent : Task} {leader : TaskId}
    (hf : kernel.forkLeader parent = some leader) : parent.pgid ≠ 0 ∧ kernel.taskArray parent.pgid = some leader := by
  unfold forkLeader at hf
  split at hf
  case isTrue => exact nomatch hf
  case isFalse grouped => exact ⟨grouped, num.getTaskPID _ ▸ hf⟩

section

variable (grouped : kernel.Grouped)
include grouped

theorem Grouped.admitted {caller : TaskId} {rsp cr3 slot : Nat} {tree : Links TaskId} {leftmost : Option TaskId}
    (free : kernel.freeSlot = some slot)
    (clean : match kernel.forkLeader (kernel.task caller) with | none => kernel.NoOrphans | some leader => (kernel.task leader).pgid = (kernel.task leader).pid ∧ kernel.freeSlot ≠ none)
    (res : after = ((kernel.forkChild caller rsp cr3).seated kernel.nextTask slot).withQueue tree leftmost)
    (admits : kernel.Admits after slot (kernel.task caller).pid) : after.GroupsExact ∧ after.IdleAlone := by
  have num := grouped.numbered
  have pos : slot ≠ 0 := Nat.ne_of_gt (freeSlot_spec free).1
  obtain ⟨sameGroup, links⟩ := fork_groups tree leftmost res
  have pgids : ∀ t, kernel.Live t → (after.task t).pgid = (kernel.task t).pgid := fun t live =>
    sameGroup t (num.live_lt live)
  have notLeader : kernel.forkLeader (kernel.task caller) ≠ some kernel.nextTask := fun hf =>
    Nat.lt_irrefl _ (num.created _ _ (forkLeader_spec num hf).2)
  obtain ⟨link, pgid⟩ := fork_child tree leftmost notLeader res
  have alone : (after.task kernel.nextTask).pgid ≠ pidIdle → after.IdleAlone := by
    intro notIdle other t held inIdle
    rcases admits.cases held with ⟨_, rfl⟩ | ⟨_, pre⟩
    · exact absurd inIdle notIdle
    · exact grouped.idleAlone other t pre (pgids t ⟨other, pre⟩ ▸ inIdle)
  cases hf : kernel.forkLeader (kernel.task caller) with
  | none =>
    simp only [hf] at clean
    simp only [forkedTask, hf, Option.isSome_none, Bool.false_eq_true, if_false, if_true] at pgid
    have noOrphan := clean.spec num free
    refine ⟨admits.exact_alone num pgids grouped.exact ?_ ?_ ?_, alone (pgid ▸ pos)⟩
    · intro t live
      rw [links t (num.live_lt live), hf]
      rfl
    · intro leader leads samePid
      exact noOrphan leader leads.1 (leads.2.trans (samePid.trans pgid))
    · intro _
      rw [link, hf]
      exact ⟨rfl, noOrphan⟩
  | some leader =>
    simp only [hf] at clean
    obtain ⟨parentGrouped, held⟩ := forkLeader_spec num hf
    have leads : kernel.Leads leader := ⟨⟨_, held⟩, clean.1⟩
    simp only [forkedTask, hf, Option.isSome_some, if_true, parentGrouped, if_false] at pgid
    have samePid : (after.task kernel.nextTask).pgid = (kernel.task leader).pid :=
      pgid.trans (num.pid _ _ held).symm
    refine ⟨admits.exact_member num pgids grouped.exact leads samePid ?_ ?_ ?_, alone (pgid ▸ parentGrouped)⟩
    · rw [links leader (num.live_lt leads.1), hf, if_pos rfl]
    · rw [link, hf]
      rfl
    · intro t live dist
      rw [links t (num.live_lt live), hf, if_neg fun eq => dist (some.inj eq).symm]

theorem Grouped.forked {caller : TaskId} {memory : Option (Nat × Nat)} {rax : Nat} (runs : kernel.Runs caller)
    (clean : memory = none ∨ match kernel.forkLeader (kernel.task caller) with | none => kernel.NoOrphans | some leader => (kernel.task leader).pgid = (kernel.task leader).pid ∧ kernel.freeSlot ≠ none)
    (done : (kernel.runAs caller).sysFork memory = some (rax, after)) : after.Grouped := by
  have pre := grouped.runAs caller
  obtain ⟨nodes, queue⟩ := pre.queue
  have stillQueued := queue.sysFork done
  rcases sysFork_tables runs.current done with ⟨_, _, rfl⟩ | ⟨rsp, cr3, isSome, ⟨full, _, rfl⟩ | ⟨slot, tree, leftmost, free, _, res⟩⟩
  · exact pre
  · have clean := clean.resolve_left fun isNone => nomatch isSome.symm.trans isNone
    have solo : (kernel.runAs caller).forkLeader ((kernel.runAs caller).task caller) = none := by
      cases hf : kernel.forkLeader (kernel.task caller) with
      | none => exact hf
      | some leader =>
        simp only [hf] at clean
        exact absurd full clean.2
    have unlinked : ∀ t, (kernel.runAs caller).Live t → ((kernel.runAs caller).forkChild caller rsp cr3).task t =
        (kernel.runAs caller).task t := by
      intro t live
      rw [task_forkChild, solo, if_neg (Nat.ne_of_lt (pre.numbered.live_lt live))]
      rfl
    have groups : (kernel.runAs caller).SameGroups ((kernel.runAs caller).forkChild caller rsp cr3) :=
      ⟨taskArray_forkChild .., fun t live => by rw [unlinked t live], fun t live => by rw [unlinked t live],
        fun t live => congrArg Task.pgidTaskPtr (unlinked t live)⟩
    exact pre.same (makes_forkChild ..).keeps groups stillQueued
  · have made := makes_forkChild (kernel.runAs caller) caller rsp cr3
    have admits := made.seated free tree leftmost
    rw [← res] at admits
    obtain ⟨exact, alone⟩ := pre.admitted free (clean.resolve_left fun isNone => nomatch isSome.symm.trans isNone)
      res admits
    exact ⟨pre.numbered.admits admits, alone, exact, stillQueued⟩

theorem Grouped.constructed {task : Task} {fpu : Nat} (pid : task.pid = noPid) (state : task.state = .ready)
    (unlinked : task.pgidTaskPtr = none) (own : (task.pgid = 0 ∧ kernel.NoOrphans) ∨ task.pgid = noPid)
    (done : (kernel.newTask task fpu).schedulerAddTask kernel.nextTask = some after) : after.Grouped := by
  obtain ⟨nodes, queue⟩ := grouped.queue
  have num := grouped.numbered
  have makes := makes_newTask kernel fpu pid state
  have stillQueued := makes.queue_kept queue done
  have others : ∀ t, kernel.Live t → (kernel.newTask task fpu).task t = kernel.task t := by
    intro t live
    rw [task_newTask, if_neg (Nat.ne_of_lt (num.live_lt live))]
  rcases schedulerAddTask_tables makes.pid done with ⟨_, rfl⟩ | ⟨slot, tree, leftmost, free, res⟩
  · have groups : kernel.SameGroups (kernel.newTask task fpu) :=
      ⟨rfl, fun t live => by rw [others t live], fun t live => by rw [others t live],
        fun t live => congrArg Task.pgidTaskPtr (others t live)⟩
    exact grouped.same makes.keeps groups stillQueued
  · have free : kernel.freeSlot = some slot := free
    have admits := makes.seated free tree leftmost
    rw [← res] at admits
    have elsewhere : ∀ t, kernel.Live t → after.task t = kernel.task t := by
      intro t live
      have dist : t ≠ kernel.nextTask := Nat.ne_of_lt (num.live_lt live)
      rw [res]
      simp [dist]
    have pgid : (after.task kernel.nextTask).pgid = if task.pgid = 0 then slot else task.pgid := by
      rw [res]
      simp
    have link : after.groupNext kernel.nextTask = none := by
      rw [res]
      simpa [groupNext] using unlinked
    obtain ⟨pos, inRange, _⟩ := freeSlot_spec free
    have notNoPid : ∀ pid < Process.maxTask, noPid ≠ pid := by
      intro pid lt
      simp only [noPid, Process.maxTask] at lt ⊢
      omega
    -- A kernel thread leads the group of its slot; a user task is in a group that no slot can lead.
    have cases : ((after.task kernel.nextTask).pgid = slot ∧ kernel.NoOrphans) ∨ (after.task kernel.nextTask).pgid = noPid := by
      rcases own with ⟨isZero, noOrphans⟩ | isNoPid
      · exact .inl ⟨pgid.trans (if_pos isZero), noOrphans⟩
      · rw [isNoPid, if_neg (notNoPid 0 (by decide))] at pgid
        exact .inr pgid
    refine ⟨num.admits admits, ?_, ?_, stillQueued⟩
    · intro other t held inIdle
      rcases admits.cases held with ⟨_, rfl⟩ | ⟨_, pre⟩
      · rcases cases with ⟨isSlot, _⟩ | isNoPid
        · omega
        · exact absurd (isNoPid.symm.trans inIdle) (notNoPid pidIdle (by decide))
      · exact grouped.idleAlone other t pre (elsewhere t ⟨other, pre⟩ ▸ inIdle)
    · refine admits.exact_alone num (fun t live => by rw [elsewhere t live]) grouped.exact
        (fun t live => congrArg Task.pgidTaskPtr (elsewhere t live)) ?_ ?_
      · intro leader leads samePid
        rcases cases with ⟨isSlot, noOrphans⟩ | isNoPid
        · exact noOrphans.spec num free leader leads.1 (leads.2.trans (samePid.trans isSlot))
        · exact notNoPid _ (num.range _ leader (num.live leads.1)) (samePid.trans isNoPid).symm
      · intro isOwn
        refine ⟨link, ?_⟩
        rcases cases with ⟨_, noOrphans⟩ | isNoPid
        · exact noOrphans.spec num free
        · grind

theorem Grouped.createIdleTask (rsp cr3 : Nat) : (kernel.createIdleTask rsp cr3).Grouped := by
  obtain ⟨nodes, queue⟩ := grouped.queue
  have num := grouped.numbered
  have others : ∀ t, kernel.Live t → (kernel.createIdleTask rsp cr3).task t = kernel.task t := by
    intro t live
    have dist : t ≠ kernel.nextTask := Nat.ne_of_lt (num.live_lt live)
    unfold Kernel.createIdleTask
    split <;> simp [constructTask, dist]
  have stillQueued : (kernel.createIdleTask rsp cr3).RunQueue nodes := by
    unfold Kernel.createIdleTask
    split <;> exact queue.congr rfl rfl (Nat.le_succ _)
  rcases createIdleTask_admits kernel rsp cr3 with keeps | admits
  · have groups : kernel.SameGroups (kernel.createIdleTask rsp cr3) :=
      ⟨keeps.slots, fun t live => by rw [others t live], fun t live => by rw [others t live],
        fun t live => congrArg Task.pgidTaskPtr (others t live)⟩
    exact grouped.same keeps groups ⟨nodes, stillQueued⟩
  · have isNew : ((kernel.createIdleTask rsp cr3).task kernel.nextTask).pgid = pidIdle ∧
        (kernel.createIdleTask rsp cr3).groupNext kernel.nextTask = none := by
      unfold groupNext Kernel.createIdleTask
      split <;> simp [constructTask, Tasking.constructed, pidIdle]
    have noMember : ∀ t, kernel.Live t → (kernel.task t).pgid ≠ pidIdle := by
      rintro t ⟨slot, held⟩ inIdle
      obtain rfl := grouped.idleAlone slot t held inIdle
      cases held.symm.trans admits.free
    refine ⟨num.admits admits, ?_, ?_, nodes, stillQueued⟩
    · intro slot t held inIdle
      rcases admits.cases held with ⟨isIdle, _⟩ | ⟨_, pre⟩
      · exact isIdle
      · exact grouped.idleAlone slot t pre (others t ⟨slot, pre⟩ ▸ inIdle)
    · refine admits.exact_alone num (fun t live => by rw [others t live]) grouped.exact
        (fun t live => congrArg Task.pgidTaskPtr (others t live)) ?_ fun _ => ⟨isNew.2, noMember⟩
      intro leader leads samePid
      exact noMember leader leads.1 (leads.2.trans (samePid.trans isNew.1))

theorem Grouped.exited {caller : TaskId} (runs : kernel.Runs caller) : (kernel.runAs caller).sysExit.Grouped := by
  have pre := grouped.runAs caller
  obtain ⟨nodes, queue⟩ := pre.queue
  rcases sysExit_tables runs.current with ⟨_, res⟩ | ⟨_, tasks, res, dead, others⟩
  · rw [res]
    exact pre
  · have fields : ∀ t, (tasks t).pid = (kernel.task t).pid ∧ (tasks t).pgid = (kernel.task t).pgid ∧
        (tasks t).pgidTaskPtr = (kernel.task t).pgidTaskPtr := by
      intro t
      by_cases isCaller : t = caller
      · rw [isCaller, dead]
        exact ⟨rfl, rfl, rfl⟩
      · rcases others t isCaller with eq | ⟨_, _, woken⟩
        · rw [eq]
          exact ⟨rfl, rfl, rfl⟩
        · rw [woken]
          exact ⟨rfl, rfl, rfl⟩
    have num : (kernel.runAs caller).sysExit.Numbered := by
      rw [res]
      exact ⟨grouped.numbered.created, grouped.numbered.range,
        fun slot t held => (fields t).1.trans (grouped.numbered.pid slot t held)⟩
    have groups : kernel.SameGroups (kernel.runAs caller).sysExit := by
      rw [res]
      exact ⟨rfl, fun t _ => (fields t).1, fun t _ => (fields t).2.1, fun t _ => (fields t).2.2⟩
    refine ⟨num, groups.idleAlone grouped.idleAlone, groups.exact grouped.exact, nodes, ?_⟩
    rw [res]
    exact queue.congr rfl rfl (Nat.le_refl _)

theorem Grouped.waited {caller : TaskId} (runs : kernel.Runs caller)
    (clean : ∀ child ∈ kernel.zombieChild (kernel.task caller).pid, Process.pidUserStart ≤ (kernel.task child).pid → kernel.LeavesNoList child) :
    (kernel.runAs caller).sysWait.2.Grouped := by
  have pre := grouped.runAs caller
  obtain ⟨nodes, queue⟩ := pre.queue
  cases hf : (kernel.runAs caller).zombieChild ((kernel.runAs caller).task caller).pid with
  | some child =>
    rw [sysWait_found runs.current hf]
    obtain ⟨slot, held, _, _⟩ := zombieChild_spec hf
    have pid : ((kernel.runAs caller).task child).pid = slot := pre.numbered.pid slot child held
    by_cases user : Process.pidUserStart ≤ slot
    · have noList : ∀ leader, (kernel.runAs caller).Leads leader →
          ((kernel.runAs caller).task leader).pid = ((kernel.runAs caller).task child).pgid → leader = child := by
        intro leader leads samePid
        have leaderHeld := pre.numbered.live leads.1
        rcases clean child hf (pid.symm ▸ user) with own | noLeader
        · have childHeld := pre.numbered.live ⟨slot, held⟩
          rw [samePid] at leaderHeld
          exact some.inj (leaderHeld.symm.trans (own ▸ childHeld))
        · exact absurd leads.2 (noLeader leader (samePid ▸ leaderHeld))
      have exact := pre.numbered.exact_destroyed pre.exact held noList
      rw [destroyTask_tables pre.numbered held user]
      have fewer : ∀ {other t}, Function.update (kernel.runAs caller).taskArray slot none other = some t →
          kernel.taskArray other = some t := by
        intro other t there
        rw [Function.update_apply] at there
        split at there
        case isTrue => exact nomatch there
        case isFalse => exact there
      exact ⟨⟨fun other t there => grouped.numbered.created other t (fewer there),
        fun other t there => grouped.numbered.range other t (fewer there),
        fun other t there => grouped.numbered.pid other t (fewer there)⟩,
        fun other t there => grouped.idleAlone other t (fewer there), exact, nodes, queue.congr rfl rfl (Nat.le_refl _)⟩
    · unfold destroyTask
      rw [pid, if_pos (Nat.lt_of_not_le user)]
      exact pre
  | none =>
    rcases sysWait_none runs.current hf with res | res
    · rw [res]
      have fields : ∀ t, SameProcess (kernel.task t) (((kernel.runAs caller).modify caller (Task.setState · .blocked)).task t) ∧
          (((kernel.runAs caller).modify caller (Task.setState · .blocked)).task t).pgid = (kernel.task t).pgid ∧
          ((kernel.runAs caller).modify caller (Task.setState · .blocked)).groupNext t = kernel.groupNext t := by
        intro t
        unfold groupNext
        rw [task_modify]
        split
        case isTrue isCaller =>
          rw [isCaller]
          exact ⟨⟨rfl, rfl, fun isBlocked => (nomatch isBlocked), fun isZombie => absurd isZombie runs.2.2⟩, rfl, rfl⟩
        case isFalse => exact ⟨SameProcess.refl _, rfl, rfl⟩
      exact grouped.same ⟨rfl, Nat.le_refl _, fun t _ => (fields t).1⟩
        ⟨rfl, fun t _ => (fields t).1.pid, fun t _ => (fields t).2.1, fun t _ => (fields t).2.2⟩
        ⟨nodes, queue.modify caller (Task.setState · .blocked)⟩
    · rw [res]
      exact pre

end

theorem GroupsExact.but (exact : kernel.GroupsExact)
    (noLeader : ∀ leader, kernel.Leads leader → leader ≠ t → (kernel.task leader).pid ≠ (kernel.task t).pgid) :
    kernel.ExactBut t := by
  intro leader leads dist
  refine (exact leader leads).congr (fun _ _ => rfl) fun u => and_iff_left_of_imp fun hin eq => ?_
  exact noLeader leader leads dist (eq ▸ hin.2).symm

theorem Grouped.left (grouped : kernel.Grouped) {pgid : Nat} (live : kernel.Live t)
    (moves : pgid = (kernel.task t).pid ∨ (kernel.task t).pgid ≠ pgid)
    (inGroup : (kernel.task t).pgid ≠ 0) (done : kernel.leaveGroup t pgid = some after) :
    after.ExactBut t ∧ kernel.Relinks after := by
  unfold leaveGroup at done
  split at done
  case isTrue => exact ⟨ExactBut.unlinkFromProcGrp grouped.numbered grouped.exact live inGroup done,
    unlinkFromProcGrp_relinks inGroup done⟩
  case isFalse stays =>
    cases done
    have eq : (kernel.task t).pgid = pgid := by
      by_contra other
      exact stays ⟨inGroup, other⟩
    have own : pgid = (kernel.task t).pid := moves.resolve_right fun other => other eq
    refine ⟨grouped.exact.but fun leader leads dist samePid => dist ?_, rfl, fun _ => rfl, fun _ => rfl⟩
    exact grouped.numbered.leader_unique leads ⟨live, eq.trans own⟩ (samePid.trans (eq.trans own))

theorem Relinks.live (relinks : kernel.Relinks after) : after.Live t ↔ kernel.Live t := by
  unfold Live
  rw [relinks.slots]

theorem Relinks.leads (relinks : kernel.Relinks after) : after.Leads t ↔ kernel.Leads t := by
  unfold Leads
  rw [relinks.live, relinks.pgid, relinks.pid]

theorem Grouped.entered (grouped : kernel.Grouped) {pgid : Nat} (live : kernel.Live t) (notIdle : (kernel.task t).pid ≠ pidIdle)
    (pos : pgid ≠ 0) (clean : kernel.MovesCleanly t pgid) {mid : Kernel}
    (done : kernel.leaveGroup t pgid = some mid) :
    (mid.enterGroup t pgid).2.GroupsExact ∧ (mid.enterGroup t pgid).2.IdleAlone := by
  have num := grouped.numbered
  have inGroup : (kernel.task t).pgid ≠ 0 := by
    intro inIdle
    obtain ⟨slot, held⟩ := live
    exact notIdle ((num.pid slot t held).trans (grouped.idleAlone slot t held inIdle))
  have left := leaveGroup_regroups done
  have middleNumbered := num.keeps left.keeps
  -- Whatever group the target ends up in is not that of the idle task.
  have alone : ∀ final : Kernel, final.taskArray = mid.taskArray →
      (∀ u, (final.task u).pgid = (kernel.task u).pgid ∨ (final.task u).pgid = pgid) → final.IdleAlone := by
    intro final slots pgids slot u held inIdle
    rw [slots, left.keeps.slots] at held
    rcases pgids u with eq | moved
    · exact grouped.idleAlone slot u held (eq ▸ inIdle)
    · exact absurd (moved.symm.trans inIdle) pos
  unfold MovesCleanly at clean
  unfold enterGroup
  rw [middleNumbered.getTaskPID, left.keeps.slots, (left.keeps.same t (num.live_lt live)).pid]
  split at clean
  case isTrue own =>
    obtain ⟨exact, relinks⟩ := grouped.left live (.inl own) inGroup done
    rw [if_pos own]
    have samePid : pgid = (mid.task t).pid := own.trans (relinks.pid t).symm
    constructor
    · rw [samePid]
      refine exact.lead middleNumbered (relinks.live.mpr live) fun u hin => ?_
      have pre := relinks.live.mp hin.1
      refine clean _ (num.range _ u (num.live pre)) u (num.live pre) ?_
      rw [← relinks.pgid, hin.2, ← samePid]
    · refine alone (mid.modify t (Task.join · pgid none)) rfl fun u => ?_
      rw [pgid_join, relinks.pgid]
      split
      · exact .inr rfl
      · exact .inl rfl
  case isFalse elsewhere =>
    rw [if_neg elsewhere]
    split at clean
    case isTrue eq =>
      have stays : mid = kernel := by
        unfold leaveGroup at done
        rw [if_neg fun moves => moves.2 eq] at done
        exact (some.inj done).symm
      subst stays
      cases held : mid.taskArray pgid with
      | none => exact ⟨grouped.exact, grouped.idleAlone⟩
      | some leader =>
        dsimp only
        rw [if_pos (clean leader held)]
        exact ⟨grouped.exact, grouped.idleAlone⟩
    case isFalse other =>
      obtain ⟨exact, relinks⟩ := grouped.left live (.inr other) inGroup done
      obtain ⟨leader, held, own⟩ : ∃ leader, kernel.taskArray pgid = some leader ∧
          (kernel.task leader).pgid = (kernel.task leader).pid := by
        by_contra unled
        exact clean fun leader held own => unled ⟨leader, held, own⟩
      have leaderPid : (kernel.task leader).pid = pgid := num.pid pgid leader held
      have head : mid.Leads leader := relinks.leads.mpr ⟨⟨pgid, held⟩, own⟩
      have samePid : pgid = (mid.task leader).pid := leaderPid.symm.trans (relinks.pid leader).symm
      have dist : leader ≠ t := fun eq => elsewhere (leaderPid.symm.trans (eq ▸ rfl))
      rw [held]
      dsimp only
      rw [if_neg (not_not_intro head.2)]
      constructor
      · rw [samePid]
        exact exact.join middleNumbered (relinks.live.mpr live) head dist
      · refine alone (mid.joinGroup t leader pgid) rfl fun u => ?_
        rw [pgid_joinGroup, relinks.pgid]
        split
        · exact .inr rfl
        · exact .inl rfl

theorem Grouped.moved (grouped : kernel.Grouped) {caller : TaskId} {pid pgid rax : Nat} (runs : kernel.Runs caller)
    (notIdle : (kernel.task caller).pid ≠ pidIdle)
    (clean : ∀ target ∈ (kernel.runAs caller).setPGIDTarget pid,
      target = caller ∨ (kernel.task target).ppid = (kernel.task caller).pid →
      kernel.MovesCleanly target (if pgid = 0 then (kernel.task target).pid else pgid))
    (done : (kernel.runAs caller).sysSetPGID pid pgid = some (rax, after)) : after.Grouped := by
  have pre := grouped.runAs caller
  have regroups := sysSetPGID_regroups done
  obtain ⟨nodes, queue⟩ := pre.queue
  have stillQueued : after.RunQueue nodes := by
    rw [regroups.tables]
    exact queue.congr rfl rfl (Nat.le_refl _)
  suffices groups : after.GroupsExact ∧ after.IdleAlone from
    ⟨pre.numbered.keeps regroups.keeps, groups.2, groups.1, nodes, stillQueued⟩
  unfold sysSetPGID at done
  cases hf : (kernel.runAs caller).setPGIDTarget pid with
  | none =>
    rw [hf] at done
    obtain ⟨_, rfl⟩ := Prod.mk.injEq .. ▸ some.inj done
    exact ⟨pre.exact, pre.idleAlone⟩
  | some target =>
    rw [hf] at done
    dsimp only at done
    rw [runs.current, Option.bind_some] at done
    split at done
    case isTrue =>
      obtain ⟨_, rfl⟩ := Prod.mk.injEq .. ▸ some.inj done
      exact ⟨pre.exact, pre.idleAlone⟩
    case isFalse permitted =>
      have allowed : target = caller ∨ (kernel.task target).ppid = (kernel.task caller).pid := by
        by_contra refused
        exact permitted (not_or.mp refused)
      have live : (kernel.runAs caller).Live target ∧ ((kernel.runAs caller).task target).pid ≠ pidIdle := by
        unfold setPGIDTarget at hf
        split at hf
        case isTrue =>
          obtain rfl := some.inj (runs.current.symm.trans hf)
          exact ⟨⟨_, runs.2.1⟩, notIdle⟩
        case isFalse other =>
          rw [pre.numbered.getTaskPID] at hf
          exact ⟨⟨pid, hf⟩, fun idle => other ((pre.numbered.pid pid target hf).symm.trans idle)⟩
      obtain ⟨mid, left, entered⟩ := Option.map_eq_some_iff.mp done
      obtain rfl : _ = after := congrArg Prod.snd entered
      refine pre.entered live.1 live.2 ?_ (clean target hf allowed) left
      split
      case isTrue => exact live.2
      case isFalse given => exact given

theorem Grouped.step {op : ProcessOp} (grouped : kernel.Grouped) (safe : kernel.KeepsGroups op)
    (hs : kernel.performed op = some after) : after.Grouped := by
  obtain ⟨called, safe⟩ := safe
  obtain ⟨⟨res, final⟩, done, rfl⟩ := Option.map_eq_some_iff.mp hs
  cases op with
  | createIdleTask rsp cr3 =>
    cases done
    exact grouped.createIdleTask rsp cr3
  | createKThread rsp cr3 =>
    obtain ⟨after, added, rfl, rfl⟩ := Option.map_eq_some_iff.mp done
    exact grouped.constructed rfl rfl rfl (.inl ⟨rfl, safe⟩) added
  | createUserTask rsp cr3 initFpu =>
    obtain ⟨after, added, rfl, rfl⟩ := Option.map_eq_some_iff.mp done
    have loaded : (kernel.loadFpu initFpu).Grouped :=
      grouped.same ⟨rfl, Nat.le_refl _, fun _ _ => SameProcess.refl _⟩
        ⟨rfl, fun _ _ => rfl, fun _ _ => rfl, fun _ _ => rfl⟩
        (grouped.queue.imp fun _ queue => queue.congr rfl rfl (Nat.le_refl _))
    exact loaded.constructed rfl rfl rfl (.inr rfl) added
  | fork caller memory =>
    obtain ⟨⟨rax, after⟩, forked, rfl, rfl⟩ := Option.map_eq_some_iff.mp done
    exact grouped.forked called.1 safe forked
  | exit caller =>
    cases done
    exact grouped.exited called.1
  | wait caller =>
    obtain ⟨_, rfl⟩ : _ = res ∧ _ = final := Prod.mk.injEq .. ▸ some.inj done
    exact grouped.waited called.1 safe
  | setPGID caller pid pgid =>
    obtain ⟨⟨rax, after⟩, moved, rfl, rfl⟩ := Option.map_eq_some_iff.mp done
    exact grouped.moved called.1 called.2 safe moved

end

/-! ## Signals to a group -/

/-- The pending signals of a task that a signal has been sent to. -/
def signalled (task : Task) (signal : Nat) : Nat :=
  if task.state ≠ .zombie ∧ 1 < task.pid then task.signals ||| 2 ^ signal else task.signals

/-- A task is signalled and perhaps queued; everything else is as before. -/
structure Signals (kernel after : Kernel) (t : TaskId) (signal : Nat) : Prop where
  created : after.nextTask = kernel.nextTask
  signals : (after.task t).signals = signalled (kernel.task t) signal
  link : after.groupNext t = kernel.groupNext t
  others : ∀ u ≠ t, after.task u = kernel.task u

section

variable {kernel : Kernel} {nodes members : List TaskId} {t : TaskId} {signal : Nat}

section

variable (queue : kernel.RunQueue nodes)
include queue

theorem RunQueue.markSignal (user : (kernel.task t).state ≠ .zombie ∧ 1 < (kernel.task t).pid)
    (first : ((kernel.task t).signals ||| 2 ^ signal).testBit sigInt = true → nodes ≠ []) :
    ∃ marked, kernel.markSignal t signal = some marked ∧ marked.RunQueue nodes ∧ kernel.Signals marked t signal ∧
      (marked.task t).state = (kernel.task t).state ∧ (marked.task t).pid = (kernel.task t).pid := by
  have isSignalled : signalled (kernel.task t) signal = (kernel.task t).signals ||| 2 ^ signal := if_pos user
  unfold Kernel.markSignal
  dsimp only
  split
  case isTrue pending =>
    obtain ⟨head, tail, rfl⟩ := exists_cons_of_ne_nil (first (by simpa using pending))
    rw [(queue.modify t _).leftmost, head?_cons, Option.map_some]
    refine ⟨_, rfl, (queue.modify t _).modify t _, ⟨rfl, ?_, ?_, fun u other => ?_⟩, ?_, ?_⟩
    · simp [isSignalled]
    · simp [groupNext]
    · simp [other]
    · simp
    · simp
  case isFalse =>
    refine ⟨_, rfl, queue.modify t _, ⟨rfl, ?_, ?_, fun u other => ?_⟩, ?_, ?_⟩
    · simp [isSignalled]
    · simp [groupNext]
    · simp [other]
    · simp
    · simp

theorem RunQueue.signalTask (created : t < kernel.nextTask) (unqueued : (kernel.task t).state = .blocked → t ∉ nodes)
    (first : ((kernel.task t).signals ||| 2 ^ signal).testBit sigInt = true → nodes ≠ []) :
    ∃ after queued, kernel.signalTask t signal = some after ∧ kernel.Signals after t signal ∧
      after.RunQueue queued ∧ (∀ u ∈ queued, u ∈ nodes ∨ u = t) ∧ (nodes ≠ [] → queued ≠ []) := by
  unfold Kernel.signalTask
  split
  case isFalse spared =>
    exact ⟨kernel, nodes, rfl, ⟨rfl, (if_neg spared).symm, rfl, fun _ _ => rfl⟩, queue, fun _ => .inl, id⟩
  case isTrue user =>
    obtain ⟨marked, isMarked, stillQueued, signals, state, pid⟩ := queue.markSignal user first
    unfold deliver
    rw [isMarked, Option.bind_some]
    split
    case isFalse => exact ⟨marked, nodes, rfl, signals, stillQueued, fun _ => .inl, id⟩
    case isTrue isBlocked =>
      have fresh : t ∉ nodes := unqueued (state ▸ isBlocked)
      have notIdle : ((marked.modify t (Task.setState · .ready)).task t).pid ≠ pidIdle := by
        simp only [task_modify, if_true, Task.setState_pid, pid, pidIdle]
        omega
      obtain ⟨tree, leftmost, pre, later, enqueued, split, shape, _⟩ :=
        (stillQueued.modify t (Task.setState · .ready)).cfsEnqueue fresh (signals.created ▸ created) notIdle
      refine ⟨_, pre ++ t :: later, enqueued, ⟨signals.created, ?_, ?_, fun u other => ?_⟩, shape, ?_, ?_⟩
      · simpa using signals.signals
      · simpa [groupNext] using signals.link
      · simpa [other] using signals.others u other
      · intro u hin
        rw [split]
        simp only [mem_append, mem_cons] at hin ⊢
        tauto
      · simp

theorem RunQueue.signalGroup {start : Option TaskId} {rounds : Nat} (chain : Chain kernel.groupNext start members)
    (nodup : members.Nodup) (created : ∀ t ∈ members, t < kernel.nextTask)
    (unqueued : ∀ t ∈ members, (kernel.task t).state = .blocked → t ∉ nodes)
    (first : ∀ t ∈ members, ((kernel.task t).signals ||| 2 ^ signal).testBit sigInt = true → nodes ≠ [])
    (enough : members.length ≤ rounds) : ∃ after, Kernel.signalGroup signal rounds kernel start = some after ∧
      (∀ t ∈ members, (after.task t).signals = signalled (kernel.task t) signal) ∧
      ∀ t ∉ members, (after.task t).signals = (kernel.task t).signals := by
  induction members generalizing kernel nodes start rounds with
  | nil =>
    obtain rfl : start = none := chain
    refine ⟨kernel, ?_, fun _ mem => (nomatch mem), fun _ _ => rfl⟩
    cases rounds <;> rfl
  | cons t rest ih =>
    obtain ⟨rfl, chain⟩ := chain
    obtain ⟨notRest, restNodup⟩ := nodup_cons.mp nodup
    rw [length_cons] at enough
    obtain ⟨rounds, rfl⟩ : ∃ fewer, rounds = fewer + 1 := ⟨rounds - 1, by omega⟩
    obtain ⟨after, queued, sent, signals, stillQueued, within, nonempty⟩ :=
      queue.signalTask (created t (.head _)) (unqueued t (.head _))
        (first t (.head _))
    have untouched : ∀ u ∈ rest, after.task u = kernel.task u := fun u mem =>
      signals.others u fun eq => notRest (eq ▸ mem)
    have tail : Chain after.groupNext (after.groupNext t) rest := by
      rw [signals.link]
      exact chain.congr fun u mem => congrArg Task.pgidTaskPtr (untouched u mem)
    obtain ⟨final, walked, hr, kept⟩ := ih stillQueued tail restNodup
      (fun u mem => signals.created ▸ created u (.tail _ mem))
      (fun u mem isBlocked hin => by
        rw [untouched u mem] at isBlocked
        rcases within u hin with pre | eq
        · exact unqueued u (.tail _ mem) isBlocked pre
        · exact notRest (eq ▸ mem))
      (fun u mem pending => by
        rw [untouched u mem] at pending
        exact nonempty (first u (.tail _ mem) pending))
      (Nat.le_of_succ_le_succ enough)
    refine ⟨final, ?_, ?_, ?_⟩
    · unfold Kernel.signalGroup
      rw [sent, Option.bind_some]
      exact walked
    · intro u mem
      rcases mem_cons.mp mem with rfl | mem
      · rw [kept u notRest, signals.signals]
      · rw [hr u mem, untouched u mem]
    · intro u out
      rw [kept u fun hin => out (.tail _ hin),
        signals.others u fun eq => out (eq ▸ .head _)]

end

end

/-- No blocked member of the group is still queued, and a pending SIGINT finds a leftmost task. -/
structure SignalSafe (kernel : Kernel) (pgid signal : Nat) : Prop where
  unqueued : ∀ t, kernel.InGroup pgid t → (kernel.task t).state = .blocked → ∀ nodes, kernel.RunQueue nodes → t ∉ nodes
  leftmost : ∀ t, kernel.InGroup pgid t → ((kernel.task t).signals ||| 2 ^ signal).testBit sigInt = true →
    kernel.cfsLeftmost ≠ none

/-- In every run whose calls keep the groups, each leader's list holds its group, and a signal to
the group ends and reaches those of its tasks that are no zombies and have a pid above 1. -/
theorem group_lists_exact {lapicHz : Nat} {cpu : Cpu} {kernel : Kernel}
    (reached : Reaches performed KeepsGroups (powerOn lapicHz cpu) kernel) :
    kernel.GroupsExact ∧ ∀ leader signal, kernel.Leads leader → kernel.SignalSafe (kernel.task leader).pid signal →
      ∃ after, kernel.setTaskSignal (kernel.task leader).pid signal true = some after ∧
        (∀ t, kernel.InGroup (kernel.task leader).pid t → (after.task t).signals = signalled (kernel.task t) signal) ∧
        ∀ t, ¬kernel.InGroup (kernel.task leader).pid t → (after.task t).signals = (kernel.task t).signals := by
  have grouped := reached.invariant Grouped (grouped_powerOn lapicHz cpu) fun _ _ _ grouped safe hs =>
    grouped.step safe hs
  refine ⟨grouped.exact, fun leader signal leads safe => ?_⟩
  obtain ⟨members, chain, nodup, exact⟩ := grouped.exact leader leads
  obtain ⟨nodes, queue⟩ := grouped.queue
  have created : ∀ t ∈ members, t < kernel.nextTask := fun t mem =>
    grouped.numbered.live_lt ((exact t).mp mem).1
  have bound := (List.Nodup.subperm nodup fun t mem => mem_range.mpr (created t mem)).length_le
  rw [length_range] at bound
  obtain ⟨after, walked, reached, kept⟩ := queue.signalGroup chain nodup created
    (fun t mem isBlocked => safe.unqueued t ((exact t).mp mem) isBlocked nodes queue)
    (fun t mem pending isEmpty => safe.leftmost t ((exact t).mp mem) pending
      (queue.leftmost.trans (congrArg List.head? isEmpty)))
    (Nat.le_succ_of_le bound)
  have head : kernel.getTaskPID (kernel.task leader).pid = some leader := by
    rw [grouped.numbered.getTaskPID]
    exact grouped.numbered.live leads.1
  refine ⟨after, ?_, fun t hin => reached t ((exact t).mpr hin), fun t out => kept t fun mem =>
    out ((exact t).mp mem)⟩
  unfold setTaskSignal
  rw [if_pos rfl, head]
  exact walked

/-- `init` leads a group of its own and forks. -/
def groupedRun : List ProcessOp :=
  [.createIdleTask 0 0, .createKThread 0 0, .createUserTask 0 0 0, .setPGID 2 0 0, .fork 2 (some (0, 0))]

theorem group_lists_exact_after_fork :
    ∃ kernel, Reaches performed KeepsGroups (powerOn 1000 ⟨0, 0, 0⟩) kernel ∧ kernel.GroupsExact ∧
      ∃ after, kernel.setTaskSignal 2 sigInt true = some after ∧ (after.task 3).signals = 4 := by
  have ran : (runAll performed KeepsGroups groupedRun (powerOn 1000 ⟨0, 0, 0⟩)).any (fun kernel =>
      decide ((∀ i < Process.maxTask, ∀ t ∈ kernel.taskArray i, (kernel.task t).state ≠ .blocked) ∧
        kernel.cfsLeftmost ≠ none ∧ kernel.taskArray 2 = some 2 ∧ kernel.taskArray 3 = some 3 ∧
        (kernel.task 2).pid = 2 ∧ (kernel.task 2).pgid = 2 ∧ (kernel.task 3).pgid = 2 ∧
        signalled (kernel.task 3) sigInt = 4)) = true := by
    decide +kernel
  obtain ⟨kernel, done, facts⟩ := (Option.any_eq_true ..).mp ran
  obtain ⟨noneBlocked, leftmost, initHeld, childHeld, initPid, initGroup, childGroup, sent⟩ := of_decide_eq_true facts
  have hr := Reaches.start.runAll done
  obtain ⟨exact, signals⟩ := group_lists_exact hr
  have num := (hr.invariant Grouped (grouped_powerOn _ _) fun _ _ _ grouped safe hs =>
    grouped.step safe hs).numbered
  have safe : kernel.SignalSafe (kernel.task 2).pid sigInt :=
    ⟨fun t hin isBlocked => absurd isBlocked
      (noneBlocked _ (num.range _ t (num.live hin.1)) t (num.live hin.1)), fun _ _ _ => leftmost⟩
  obtain ⟨after, signalled, members, _⟩ := signals 2 sigInt ⟨⟨2, initHeld⟩, initGroup.trans initPid.symm⟩ safe
  rw [initPid] at signalled members
  exact ⟨kernel, hr, exact, after, signalled, (members 3 ⟨⟨3, childHeld⟩, childGroup⟩).trans sent⟩

/-- `setpgid` puts a task into its own group again: its pointer then leads to itself. -/
theorem member_linked_to_itself :
    ¬ ∀ lapicHz cpu kernel, Reaches performed Called (powerOn lapicHz cpu) kernel → kernel.GroupsExact := by
  intro exact
  have ran : (runAll performed Called (groupedRun ++ [.setPGID 2 3 2]) (powerOn 1000 ⟨0, 0, 0⟩)).any (fun kernel =>
      decide (kernel.taskArray 2 = some 2 ∧ (kernel.task 2).pgid = (kernel.task 2).pid ∧
        kernel.groupNext 2 = some 3 ∧ kernel.groupNext 3 = some 3)) = true := by
    decide +kernel
  obtain ⟨kernel, done, facts⟩ := (Option.any_eq_true ..).mp ran
  obtain ⟨held, own, first, snd⟩ := of_decide_eq_true facts
  have visits := exact 1000 ⟨0, 0, 0⟩ kernel (Reaches.start.runAll done) 2 ⟨⟨2, held⟩, own⟩
  exact visits.next_ne (visits.next_mem visits.first_mem first) snd rfl

end Kernel

end RosKernel.Tasking
