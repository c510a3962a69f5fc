import RosKernel.Tasking.RunQueue

/-! Which tasks a signal reaches, and what it writes if it makes none of them READY. -/

set_option autoImplicit false

namespace RosKernel.Tasking

open Library Option

namespace Kernel

/-- The tasks of a group's list, as far as a walk of so many rounds comes. -/
def groupMembers (kernel : Kernel) : Nat → Option TaskId → List TaskId
  | _, none => []
  | 0, some _ => []
  | rounds + 1, some t => t :: kernel.groupMembers rounds (kernel.task t).pgidTaskPtr

def signalTargets (kernel : Kernel) (id : Nat) (isGroup : Bool) : List TaskId :=
  if isGroup then kernel.groupMembers kernel.fuel (kernel.getTaskPID id) else (kernel.getTaskPID id).toList

/-- The signal finds no task of the kind that it makes READY. -/
def WakesNobody (kernel : Kernel) (id : Nat) (isGroup : Bool) : Prop :=
  ∀ t ∈ kernel.signalTargets id isGroup, (kernel.task t).state = .blocked → (kernel.task t).pid ≤ pidInit

instance (kernel : Kernel) (id : Nat) (isGroup : Bool) : Decidable (kernel.WakesNobody id isGroup) :=
  inferInstanceAs (Decidable (∀ _ ∈ _, _))

/-- A pending SIGINT rewrites no vruntime that the run queue is ordered by. -/
def KeepsKeys (kernel : Kernel) (id signal : Nat) (isGroup : Bool) : Prop :=
  ∀ t ∈ kernel.signalTargets id isGroup, (kernel.task t).state = .ready → pidInit < (kernel.task t).pid →
    ((kernel.task t).signals ||| 2 ^ signal).testBit sigInt = true →
      ∀ first ∈ kernel.cfsLeftmost, (kernel.task t).vruntime = (kernel.task first).vruntime

instance (kernel : Kernel) (id signal : Nat) (isGroup : Bool) : Decidable (kernel.KeepsKeys id signal isGroup) :=
  inferInstanceAs (Decidable (∀ _ ∈ _, _))

/-- Signals are pending and vruntimes are written; nothing else changes. -/
structure Marks (kernel after : Kernel) : Prop where
  tables : after = { kernel with task := after.task }
  fields : ∀ t, after.task t = { kernel.task t with
    signals := (after.task t).signals
    vruntime := (after.task t).vruntime }

section

variable {kernel middle after : Kernel} {t : TaskId} {signal : Nat}

theorem Marks.refl (kernel : Kernel) : kernel.Marks kernel := ⟨rfl, fun _ => rfl⟩

theorem Marks.trans (first : kernel.Marks middle) (snd : middle.Marks after) : kernel.Marks after where
  tables := by rw [snd.tables, first.tables]
  fields u := by
    rw [snd.fields u, first.fields u]

theorem Marks.modify (kernel : Kernel) (t : TaskId) (signals vruntime : Task → Nat) :
    kernel.Marks (kernel.modify t fun task => { task with signals := signals task, vruntime := vruntime task }) := by
  refine ⟨rfl, fun u => ?_⟩
  rw [task_modify]
  split
  case isTrue eq => rw [eq]
  case isFalse => rfl

/-- A signal that wakes nobody pends, and a pending SIGINT rewrites the task's vruntime. -/
structure Signalled (kernel after : Kernel) (t : TaskId) (signal : Nat) : Prop where
  marks : kernel.Marks after
  pending : ∀ u, (after.task u).signals ||| 2 ^ signal = (kernel.task u).signals ||| 2 ^ signal
  vruntime : ∀ u, (after.task u).vruntime = (kernel.task u).vruntime ∨
    (u = t ∧ pidInit < (kernel.task t).pid ∧ ((kernel.task t).signals ||| 2 ^ signal).testBit sigInt = true ∧
      ∃ first, kernel.cfsLeftmost = some first ∧ (after.task u).vruntime = (kernel.task first).vruntime)

theorem markSignal_signalled (user : pidInit < (kernel.task t).pid) (done : kernel.markSignal t signal = some after) :
    kernel.Signalled after t signal := by
  have pended : kernel.Marks (kernel.modify t fun task => { task with signals := task.signals ||| 2 ^ signal }) :=
    Marks.modify kernel t (fun task => task.signals ||| 2 ^ signal) Task.vruntime
  unfold markSignal at done
  dsimp only at done
  split at done
  case isTrue pending =>
    obtain ⟨first, leftmost, rfl⟩ := Option.map_eq_some_iff.mp done
    refine ⟨pended.trans (Marks.modify _ t Task.signals fun _ => _), fun u => ?_, fun u => ?_⟩
    · by_cases eq : u = t <;> simp [eq]
    · by_cases eq : u = t
      · refine .inr ⟨eq, user, by simpa using pending, first, leftmost, ?_⟩
        by_cases isFirst : first = t <;> simp [eq, isFirst]
      · exact .inl (by simp [eq])
  case isFalse =>
    cases done
    refine ⟨pended, fun u => ?_, fun u => .inl ?_⟩
    · by_cases eq : u = t <;> simp [eq]
    · by_cases eq : u = t <;> simp [eq]

theorem signalTask_signalled (awake : (kernel.task t).state = .blocked → (kernel.task t).pid ≤ pidInit)
    (done : kernel.signalTask t signal = some after) : kernel.Signalled after t signal := by
  unfold signalTask at done
  split at done
  case isFalse => exact some.inj done ▸ ⟨Marks.refl kernel, fun _ => rfl, fun _ => .inl rfl⟩
  case isTrue user =>
    obtain ⟨marked, mark, rest⟩ := Option.bind_eq_some_iff.mp done
    have signalled := markSignal_signalled user.2 mark
    have notBlocked : (marked.task t).state ≠ .blocked := by
      rw [signalled.marks.fields t]
      intro isBlocked
      exact absurd user.2 (Nat.not_lt.mpr (awake isBlocked))
    rw [if_neg notBlocked] at rest
    exact some.inj rest ▸ signalled

theorem groupMembers_marks (marks : kernel.Marks after) (rounds : Nat) (start : Option TaskId) :
    after.groupMembers rounds start = kernel.groupMembers rounds start := by
  induction rounds generalizing start with
  | zero => cases start <;> rfl
  | succ rounds ih =>
    cases start with
    | none => rfl
    | some t =>
      simp only [groupMembers]
      rw [ih, marks.fields t]

theorem signalGroup_marks {rounds : Nat} {start : Option TaskId}
    (awake : ∀ t ∈ kernel.groupMembers rounds start, (kernel.task t).state = .blocked → (kernel.task t).pid ≤ pidInit)
    (done : signalGroup signal rounds kernel start = some after) : kernel.Marks after := by
  induction rounds generalizing kernel start with
  | zero =>
    cases start with
    | none => exact some.inj done ▸ Marks.refl kernel
    | some t => exact nomatch done
  | succ rounds ih =>
    cases start with
    | none => exact some.inj done ▸ Marks.refl kernel
    | some t =>
      obtain ⟨middle, first, rest⟩ := Option.bind_eq_some_iff.mp done
      have marks := (signalTask_signalled (awake t List.mem_cons_self) first).marks
      have link : (middle.task t).pgidTaskPtr = (kernel.task t).pgidTaskPtr := by rw [marks.fields t]
      refine marks.trans (ih (fun u mem => ?_) rest)
      rw [groupMembers_marks marks, link] at mem
      rw [marks.fields u]
      exact awake u (List.mem_cons_of_mem t mem)

theorem setTaskSignal_marks {id : Nat} {isGroup : Bool} (awake : kernel.WakesNobody id isGroup)
    (done : kernel.setTaskSignal id signal isGroup = some after) : kernel.Marks after := by
  unfold WakesNobody signalTargets at awake
  unfold setTaskSignal at done
  cases isGroup with
  | true => exact signalGroup_marks awake done
  | false =>
    cases hf : kernel.getTaskPID id with
    | none =>
      rw [hf] at done
      exact some.inj done ▸ Marks.refl kernel
    | some t =>
      rw [hf] at done awake
      exact (signalTask_signalled (awake t (by simp)) done).marks

end

end Kernel

end RosKernel.Tasking
