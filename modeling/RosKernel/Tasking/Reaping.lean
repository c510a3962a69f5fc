import RosKernel.Tasking.ProcessRuns

/-! Fork, exit and wait with a record of who forked whom.

The kernel knows a parent by its pid alone. The ledger beside it names the tasks themselves, so
that it tells a process from a later one in the same slot.
-/

set_option autoImplicit false

namespace RosKernel.Tasking

open Library List Option

/-- A successful `Sys_Wait`: who called it, and the task that had the pid it returned. -/
structure Report where
  caller : TaskId
  child : Option TaskId
  deriving DecidableEq

structure Ledger where
  kernel : Kernel
  forks : List (TaskId × TaskId)
  exits : List TaskId
  reports : List Report

namespace Ledger

def start (lapicHz : Nat) (cpu : Cpu) : Ledger := ⟨powerOn lapicHz cpu, [], [], []⟩

def record (ledger : Ledger) (result : Option Nat) (after : Kernel) : ProcessOp → Ledger
  | .fork caller _ => { ledger with
      kernel := after
      forks := if result = some noPid then ledger.forks else (caller, ledger.kernel.nextTask) :: ledger.forks }
  | .exit caller => { ledger with
      kernel := after
      exits := if (after.task caller).state = .zombie then caller :: ledger.exits else ledger.exits }
  | .wait caller => { ledger with
      kernel := after
      reports := match result with
        | none => ledger.reports
        | some pid =>
          if pid = noPid then ledger.reports else ⟨caller, ledger.kernel.taskArray pid⟩ :: ledger.reports }
  | _ => { ledger with kernel := after }

def step (ledger : Ledger) (op : ProcessOp) : Option Ledger :=
  (ledger.kernel.perform op).map fun (result, after) => ledger.record result after op

/-- No task in the table has the next slot for its parent's. -/
def SlotUnclaimed (kernel : Kernel) : Prop :=
  ∀ slot ∈ kernel.freeSlot, ∀ i < Process.maxTask, ∀ t ∈ kernel.taskArray i, (kernel.task t).ppid ≠ slot

/-- Slots that orphans name are not given away, and a child that is found can be destroyed. -/
def CalledSafely (ledger : Ledger) (op : ProcessOp) : Prop :=
  ledger.kernel.Called op ∧
  match op with
  | .createKThread .. | .createUserTask .. | .fork .. => SlotUnclaimed ledger.kernel
  | .wait caller => ∀ child ∈ ledger.kernel.zombieChild (ledger.kernel.task caller).pid,
      Process.pidUserStart ≤ (ledger.kernel.task child).pid
  | _ => True

instance (kernel : Kernel) : Decidable (SlotUnclaimed kernel) :=
  inferInstanceAs (Decidable (∀ slot ∈ kernel.freeSlot, _))

instance (ledger : Ledger) : DecidablePred ledger.CalledSafely
  | .createKThread .. | .createUserTask .. | .fork .. => inferInstanceAs (Decidable (_ ∧ SlotUnclaimed ledger.kernel))
  | .wait _ => inferInstanceAs (Decidable (_ ∧ ∀ child ∈ ledger.kernel.zombieChild _, _))
  | .createIdleTask .. | .exit _ | .setPGID .. => inferInstanceAs (Decidable (_ ∧ True))

/-- Each report is of a task that the caller forked and that has exited, no task is reported
twice, and none is still in the table. -/
structure Exact (ledger : Ledger) : Prop where
  own : ∀ report ∈ ledger.reports, ∃ child, report.child = some child ∧
    (report.caller, child) ∈ ledger.forks ∧ child ∈ ledger.exits
  once : (ledger.reports.map Report.child).Nodup
  gone : ∀ report ∈ ledger.reports, ∀ child ∈ report.child, ∀ slot, ledger.kernel.taskArray slot ≠ some child

/-- What the table says agrees with the record. -/
structure Kept (ledger : Ledger) : Prop where
  numbered : ledger.kernel.Numbered
  parents : ∀ slot t parent, ledger.kernel.taskArray slot = some t → (ledger.kernel.task t).ppid ≠ pidIdle →
    ledger.kernel.taskArray (ledger.kernel.task t).ppid = some parent → (parent, t) ∈ ledger.forks
  exited : ∀ slot t, ledger.kernel.taskArray slot = some t → (ledger.kernel.task t).state = .zombie → t ∈ ledger.exits
  created : ∀ report ∈ ledger.reports, ∀ child ∈ report.child, child < ledger.kernel.nextTask
  exact : ledger.Exact

theorem kept_start (lapicHz : Nat) (cpu : Cpu) : (start lapicHz cpu).Kept where
  numbered := Kernel.numbered_powerOn lapicHz cpu
  parents := fun _ _ _ held => (nomatch held)
  exited := fun _ _ held => (nomatch held)
  created := fun _ mem => (nomatch mem)
  exact := ⟨fun _ mem => (nomatch mem), nodup_nil, fun _ mem => (nomatch mem)⟩

section

variable {ledger : Ledger} {after : Kernel} {slot : Nat}

section

variable (kept : ledger.Kept)
include kept

theorem Kept.keeps (keeps : ledger.kernel.Keeps after) (forks : List (TaskId × TaskId))
    (more : ∀ fork ∈ ledger.forks, fork ∈ forks) : Kept { ledger with kernel := after, forks := forks } where
  numbered := kept.numbered.keeps keeps
  parents slot t parent held other parentHeld := by
    rw [keeps.slots] at held parentHeld
    have same := keeps.same t (kept.numbered.created slot t held)
    rw [same.ppid] at other parentHeld
    exact more _ (kept.parents slot t parent held other parentHeld)
  exited slot t held isZombie := by
    rw [keeps.slots] at held
    have same := keeps.same t (kept.numbered.created slot t held)
    exact kept.exited slot t held (same.exited.mp isZombie)
  created report mem child isChild := Nat.lt_of_lt_of_le (kept.created report mem child isChild) keeps.grows
  exact := {
    own := by
      intro report mem
      obtain ⟨child, isChild, forked, exited⟩ := kept.exact.own report mem
      exact ⟨child, isChild, more _ forked, exited⟩
    once := kept.exact.once
    gone := by
      intro report mem child isChild slot
      rw [keeps.slots]
      exact kept.exact.gone report mem child isChild slot }

/-- A new task has got a slot that no task names as its parent's; its own parent, if it is in the
table, is on record. -/
theorem Kept.admits {claimed : Nat} (admits : ledger.kernel.Admits after slot claimed)
    (unclaimed : slot = pidIdle ∨ ∀ i t, ledger.kernel.taskArray i = some t → (ledger.kernel.task t).ppid ≠ slot)
    (forks : List (TaskId × TaskId)) (more : ∀ fork ∈ ledger.forks, fork ∈ forks)
    (forked : claimed ≠ pidIdle → ∃ parent, ledger.kernel.taskArray claimed = some parent ∧ (parent, ledger.kernel.nextTask) ∈ forks) :
    Kept { ledger with kernel := after, forks := forks } where
  numbered := kept.numbered.admits admits
  parents other t parent held notIdle parentHeld := by
    rcases admits.cases held with ⟨rfl, rfl⟩ | ⟨_, before⟩
    · rw [admits.ppid] at notIdle parentHeld
      obtain ⟨forker, forkerHeld, onRecord⟩ := forked notIdle
      rcases admits.cases parentHeld with ⟨rfl, _⟩ | ⟨_, parentBefore⟩
      · exact nomatch admits.free.symm.trans forkerHeld
      · grind
    · have same := admits.same t (kept.numbered.created other t before)
      rw [same.ppid] at notIdle parentHeld
      rcases admits.cases parentHeld with ⟨here, _⟩ | ⟨_, parentBefore⟩
      · rcases unclaimed with idle | unclaimed
        · exact absurd (here.trans idle) notIdle
        · exact absurd here (unclaimed other t before)
      · exact more _ (kept.parents other t parent before notIdle parentBefore)
  exited other t held isZombie := by
    rcases admits.cases held with ⟨rfl, rfl⟩ | ⟨_, before⟩
    · exact absurd isZombie admits.state
    · have same := admits.same t (kept.numbered.created other t before)
      exact kept.exited other t before (same.exited.mp isZombie)
  created report mem child isChild := by
    rw [admits.grows]
    exact Nat.lt_succ_of_lt (kept.created report mem child isChild)
  exact := {
    own := by
      intro report mem
      obtain ⟨child, isChild, onRecord, exited⟩ := kept.exact.own report mem
      exact ⟨child, isChild, more _ onRecord, exited⟩
    once := kept.exact.once
    gone := by
      intro report mem child isChild other held
      rcases admits.cases held with ⟨_, rfl⟩ | ⟨_, before⟩
      · exact Nat.lt_irrefl _ (kept.created report mem _ isChild)
      · exact kept.exact.gone report mem child isChild other before }

theorem Kept.exit {caller : TaskId} {tasks : TaskId → Task}
    (dead : tasks caller = (ledger.kernel.task caller).setState .zombie)
    (others : ∀ other ≠ caller, Kernel.SameProcess (ledger.kernel.task other) (tasks other)) : Kept { ledger with
      kernel := { ledger.kernel with currentTaskIndex := slot, task := tasks }
      exits := caller :: ledger.exits } := by
  have samePid : ∀ t, (tasks t).pid = (ledger.kernel.task t).pid ∧ (tasks t).ppid = (ledger.kernel.task t).ppid := by
    intro t
    by_cases same : t = caller
    · rw [same, dead]
      exact ⟨rfl, rfl⟩
    · exact ⟨(others t same).pid, (others t same).ppid⟩
  exact {
    numbered := ⟨kept.numbered.created, kept.numbered.range,
      fun slot t held => (samePid t).1.trans (kept.numbered.pid slot t held)⟩
    parents := by
      intro slot t parent held notIdle parentHeld
      rw [(samePid t).2] at notIdle parentHeld
      exact kept.parents slot t parent held notIdle parentHeld
    exited := by
      intro slot t held isZombie
      by_cases same : t = caller
      · exact same ▸ .head _
      · exact .tail _ (kept.exited slot t held ((others t same).exited.mp isZombie))
    created := kept.created
    exact := {
      own := by
        intro report mem
        obtain ⟨child, isChild, forked, exited⟩ := kept.exact.own report mem
        exact ⟨child, isChild, forked, .tail _ exited⟩
      once := kept.exact.once
      gone := kept.exact.gone } }

theorem Kept.report {caller child : TaskId} (held : ledger.kernel.taskArray slot = some child)
    (forked : (caller, child) ∈ ledger.forks) (exited : child ∈ ledger.exits) (current : Nat) : Kept { ledger with
      kernel := { ledger.kernel with
        currentTaskIndex := current
        taskArray := Function.update ledger.kernel.taskArray slot none }
      reports := ⟨caller, some child⟩ :: ledger.reports } := by
  have remains : ∀ {other t}, Function.update ledger.kernel.taskArray slot none other = some t →
      other ≠ slot ∧ ledger.kernel.taskArray other = some t := by
    intro other t held
    rw [Function.update_apply] at held
    split at held
    case isTrue => exact nomatch held
    case isFalse distinct => exact ⟨distinct, held⟩
  exact {
    numbered := ⟨fun other t held => kept.numbered.created other t (remains held).2,
      fun other t held => kept.numbered.range other t (remains held).2,
      fun other t held => kept.numbered.pid other t (remains held).2⟩
    parents := fun other t parent held notIdle parentHeld =>
      kept.parents other t parent (remains held).2 notIdle (remains parentHeld).2
    exited := fun other t held => kept.exited other t (remains held).2
    created := by
      refine forall_mem_cons.mpr ⟨?_, kept.created⟩
      intro t isChild
      exact some.inj isChild ▸ kept.numbered.created slot child held
    exact := {
      own := forall_mem_cons.mpr ⟨⟨child, rfl, forked, exited⟩, kept.exact.own⟩
      once := by
        refine nodup_cons.mpr ⟨?_, kept.exact.once⟩
        intro again
        obtain ⟨report, mem, isChild⟩ := mem_map.mp again
        exact kept.exact.gone report mem child isChild slot held
      gone := by
        refine forall_mem_cons.mpr ⟨?_, ?_⟩
        · intro t isChild other still
          obtain rfl : child = t := some.inj isChild
          exact (remains still).1 (kept.numbered.injective (remains still).2 held)
        · intro report mem t isChild other still
          exact kept.exact.gone report mem t isChild other (remains still).2 } }

end

end

section

variable {ledger next : Ledger}

theorem SlotUnclaimed.spec {kernel : Kernel} (num : kernel.Numbered) (unclaimed : SlotUnclaimed kernel) {slot : Nat}
    (free : kernel.freeSlot = some slot) : ∀ i t, kernel.taskArray i = some t → (kernel.task t).ppid ≠ slot :=
  fun i t held => unclaimed slot free i (num.range i t held) t held

section

variable (kept : ledger.Kept)
include kept

theorem Kept.added {after : Kernel} (unclaimed : SlotUnclaimed ledger.kernel)
    (added : ledger.kernel.Keeps after ∨ ∃ slot, ledger.kernel.freeSlot = some slot ∧ ledger.kernel.Admits after slot pidIdle) :
    Kept { ledger with kernel := after } := by
  rcases added with keeps | ⟨slot, free, admits⟩
  · exact kept.keeps keeps ledger.forks fun _ => id
  · exact kept.admits admits (.inr (unclaimed.spec kept.numbered free)) ledger.forks (fun _ => id)
      fun notIdle => absurd rfl notIdle

section

variable {caller : TaskId} (runs : ledger.kernel.Runs caller)
include runs

theorem Kept.forked {memory : Option (Nat × Nat)} {rax : Nat} {after : Kernel} (unclaimed : SlotUnclaimed ledger.kernel)
    (done : (ledger.kernel.runAs caller).sysFork memory = some (rax, after)) :
    (ledger.record (some rax) after (.fork caller memory)).Kept := by
  rcases Kernel.sysFork_admits runs done with ⟨rfl, keeps⟩ | ⟨slot, free, rfl, admits⟩
  · simpa only [record, if_true] using kept.keeps keeps ledger.forks fun _ => id
  · have placed : rax ≠ noPid := by
      have lt := admits.range
      simp only [Process.maxTask, noPid] at lt ⊢
      omega
    simp only [record, Option.some.injEq, placed, if_false]
    exact kept.admits admits (.inr (unclaimed.spec kept.numbered free)) _ (fun _ => mem_cons_of_mem _)
      fun _ => ⟨caller, runs.2.1, .head _⟩

theorem Kept.gone : (ledger.record none (ledger.kernel.runAs caller).sysExit (.exit caller)).Kept := by
  rcases Kernel.sysExit_tables runs.current with ⟨_, res⟩ | ⟨_, tasks, res, dead, others⟩
  · have alive : ((ledger.kernel.runAs caller).task caller).state ≠ .zombie := runs.2.2
    rw [res]
    simp only [record, alive, if_false]
    exact kept.keeps (Kernel.Keeps.runAs ledger.kernel caller) ledger.forks fun _ => id
  · have isDead : (tasks caller).state = .zombie := congrArg Task.state dead
    rw [res]
    simp only [record, isDead, if_true]
    refine kept.exit dead fun other dist => ?_
    rcases others other dist with eq | ⟨blocked, _, woken⟩
    · exact eq ▸ Kernel.SameProcess.refl _
    · have alive : (ledger.kernel.task other).state ≠ .zombie := fun isZombie => nomatch blocked.symm.trans isZombie
      rw [woken]
      exact ⟨rfl, rfl, fun isReady => (nomatch isReady), fun isZombie => absurd isZombie alive⟩

theorem Kept.waited (notIdle : (ledger.kernel.task caller).pid ≠ pidIdle)
    (user : ∀ child ∈ ledger.kernel.zombieChild (ledger.kernel.task caller).pid, Process.pidUserStart ≤ (ledger.kernel.task child).pid) :
    (ledger.record (ledger.kernel.runAs caller).sysWait.1 (ledger.kernel.runAs caller).sysWait.2 (.wait caller)).Kept := by
  have kept' : Kept { ledger with kernel := ledger.kernel.runAs caller } :=
    kept.keeps (Kernel.Keeps.runAs ledger.kernel caller) ledger.forks fun _ => id
  cases hf : (ledger.kernel.runAs caller).zombieChild ((ledger.kernel.runAs caller).task caller).pid with
  | some child =>
    obtain ⟨slot, held, ppid, isZombie⟩ := Kernel.zombieChild_spec hf
    have pid : ((ledger.kernel.runAs caller).task child).pid = slot := kept'.numbered.pid slot child held
    have isUser : Process.pidUserStart ≤ slot := pid ▸ user child hf
    have lt := kept.numbered.range slot child held
    have placed : slot ≠ noPid := by
      simp only [Process.maxTask, noPid] at lt ⊢
      omega
    have forked : (caller, child) ∈ ledger.forks :=
      kept.parents slot child caller held (ppid ▸ notIdle) (ppid ▸ runs.2.1)
    have reported := kept.report held forked (kept.exited slot child held isZombie) (ledger.kernel.task caller).pid
    rw [Kernel.sysWait_found runs.current hf, Kernel.destroyTask_tables kept'.numbered held isUser, pid]
    simp only [record, placed, if_false]
    have inSlot : ledger.kernel.taskArray slot = some child := held
    rw [inSlot]
    exact reported
  | none =>
    rcases Kernel.sysWait_none runs.current hf with res | res
    · rw [res]
      have sleeps : ledger.kernel.Keeps ((ledger.kernel.runAs caller).modify caller (Task.setState · .blocked)) := by
        refine ⟨rfl, Nat.le_refl _, fun t _ => ?_⟩
        rw [Kernel.task_modify]
        split
        case isTrue eq =>
          rw [eq]
          exact ⟨rfl, rfl, fun isBlocked => (by cases isBlocked), fun isZombie => absurd isZombie runs.2.2⟩
        case isFalse => exact Kernel.SameProcess.refl _
      exact kept.keeps sleeps ledger.forks fun _ => id
    · rw [res]
      exact kept'

end

theorem Kept.ofStep {op : ProcessOp} (safe : ledger.CalledSafely op) (hs : ledger.step op = some next) : next.Kept := by
  obtain ⟨called, safe⟩ := safe
  obtain ⟨⟨res, after⟩, performed, rfl⟩ := map_eq_some_iff.mp hs
  cases op with
  | createIdleTask rsp cr3 =>
    cases performed
    rcases Kernel.createIdleTask_admits ledger.kernel rsp cr3 with keeps | admits
    · exact kept.keeps keeps ledger.forks fun _ => id
    · exact kept.admits admits (.inl rfl) ledger.forks (fun _ => id) fun notIdle => absurd rfl notIdle
  | createKThread rsp cr3 =>
    obtain ⟨after, done, rfl, rfl⟩ := map_eq_some_iff.mp performed
    exact kept.added safe (Kernel.createKThread_admits done)
  | createUserTask rsp cr3 initFpu =>
    obtain ⟨after, done, rfl, rfl⟩ := map_eq_some_iff.mp performed
    exact kept.added safe (Kernel.createUserTask_admits done)
  | fork caller memory =>
    obtain ⟨⟨rax, after⟩, done, rfl, rfl⟩ := map_eq_some_iff.mp performed
    exact kept.forked called.1 safe done
  | exit caller =>
    cases performed
    exact kept.gone called.1
  | wait caller =>
    obtain ⟨rfl, rfl⟩ : _ = res ∧ _ = after := Prod.mk.injEq .. ▸ some.inj performed
    exact kept.waited called.1 called.2 safe
  | setPGID caller pid pgid =>
    obtain ⟨⟨rax, after⟩, done, rfl, rfl⟩ := map_eq_some_iff.mp performed
    have keeps := (Kernel.sysSetPGID_regroups done).keeps
    exact kept.keeps ⟨keeps.slots, keeps.grows, keeps.same⟩ ledger.forks fun _ => id

end

/-- While orphans keep the slots they name and children below the user range are not waited for,
every child is reaped once and by the process that forked it. -/
theorem children_reaped_once {lapicHz : Nat} {cpu : Cpu}
    (reached : Reaches step CalledSafely (start lapicHz cpu) ledger) : ledger.Exact :=
  (reached.invariant Kept (kept_start lapicHz cpu) fun _ _ _ kept safe hs => kept.ofStep safe hs).exact

end

/-- A boot that leaves the user range to `init`, whose child exits and is waited for. -/
def bootedRun : List ProcessOp :=
  .createIdleTask 0 0 :: replicate 9 (.createKThread 0 0) ++
    [.createUserTask 0 0 0, .fork 10 (some (0, 0)), .exit 11, .wait 10]

theorem children_reaped_once_after_wait :
    ∃ ledger, Reaches step CalledSafely (start 1000 ⟨0, 0, 0⟩) ledger ∧ ledger.reports = [⟨10, some 11⟩] ∧ ledger.Exact := by
  have ran : ((runAll step CalledSafely bootedRun (start 1000 ⟨0, 0, 0⟩)).map reports) = some [⟨10, some 11⟩] := by
    decide +kernel
  obtain ⟨ledger, done, reported⟩ := map_eq_some_iff.mp ran
  have hr := Reaches.start.runAll done
  exact ⟨ledger, hr, reported, children_reaped_once hr⟩

/-- `DestroyTask` spares pids below the user range, so the same exit is reported again. -/
theorem exit_reported_twice :
    ¬ ∀ lapicHz cpu ledger, Reaches step (fun ledger => ledger.kernel.Called) (start lapicHz cpu) ledger → ledger.Exact := by
  intro exact
  have ran : ((runAll step (fun ledger => ledger.kernel.Called) [.createIdleTask 0 0, .createKThread 0 0, .createUserTask 0 0 0,
      .fork 2 (some (0, 0)), .exit 3, .wait 2, .wait 2] (start 1000 ⟨0, 0, 0⟩)).map reports) =
        some [⟨2, some 3⟩, ⟨2, some 3⟩] := by
    decide +kernel
  obtain ⟨ledger, done, reported⟩ := map_eq_some_iff.mp ran
  have once := (exact 1000 ⟨0, 0, 0⟩ ledger (Reaches.start.runAll done)).once
  rw [reported] at once
  exact absurd once (by decide)

end Ledger

end RosKernel.Tasking
