import RosKernel.Tasking.Blocking

/-! The operations that write vruntimes and weights: the tick's charge, signals and `setpriority`. -/

set_option autoImplicit false

namespace RosKernel.Tasking

open Library Memory List Option

namespace Kernel

section

variable {Queue : Type} {boosts : Prop} {kernel after : Kernel} {queues : Queue → WaitQueue} {nodes : List TaskId}
  {lists : Place Queue → List TaskId} {t : TaskId}

theorem Arranged.chargeCurrent (arr : Arranged boosts kernel queues nodes lists)
    (ne : ∀ cur, kernel.getCurrentTaskPtr = some cur → cur ∉ nodes)
    (lt : ∀ cur, kernel.Executes cur →
      (kernel.task cur).vruntime + charge (kernel.task cur).weight < 2 ^ 64)
    (done : kernel.chargeCurrent = some after) :
    after.minVRuntime = kernel.minVRuntime ∧ Arranged boosts after queues nodes lists := by
  unfold Kernel.chargeCurrent at done
  cases runs : kernel.getCurrentTaskPtr with
  | none =>
    rw [runs] at done
    exact some.inj done ▸ ⟨rfl, arr⟩
  | some cur =>
    rw [runs] at done
    dsimp only at done
    split at done
    · exact some.inj done ▸ ⟨rfl, arr⟩
    split at done
    · exact nomatch done
    cases done
    have fields : ∀ u, (kernel.modify cur fun task =>
        { task with vruntime := add64 task.vruntime (charge task.weight) }).task u = { kernel.task u with
          vruntime := if u = cur then add64 (kernel.task u).vruntime (charge (kernel.task u).weight)
            else (kernel.task u).vruntime } := by
      intro u
      rw [task_modify]
      split
      case isTrue eq => rw [eq]
      case isFalse => rfl
    refine ⟨rfl, ?_, arr.resting.keep (fun _ => id) rfl fun _ u _ _ isBlocked absent => ?_⟩
    · refine arr.fair.rekey (SameQueue.modify ..) (fun u => ?_) (fun u mem => ?_) fun u executes => ?_
      · rw [fields]
        exact ⟨rfl, rfl⟩
      · have other : u ≠ cur := fun isCurrent => ne cur runs (isCurrent ▸ mem)
        rw [fields]
        exact if_neg other
      · have isCurrent : u = cur := some.inj (executes.1.symm.trans runs)
        have bound := lt u executes
        have close := arr.fair.executing u executes
        rw [fields]
        dsimp only
        rw [if_pos isCurrent, add64_eq bound]
        omega
    · rw [fields]
      exact ⟨rfl, isBlocked, rfl, rfl, absent⟩

theorem Arranged.signalled (arr : Arranged boosts kernel queues nodes lists) (marks : kernel.Marks after)
    (keys : ∀ u ∈ nodes, (after.task u).vruntime = (kernel.task u).vruntime)
    (executing : ∀ u, kernel.Executes u → kernel.minVRuntime ≤ (after.task u).vruntime + 10) :
    after.minVRuntime = kernel.minVRuntime ∧ Arranged boosts after queues nodes lists := by
  have eq : kernel.SameQueue after := by
    rw [marks.tables]
    exact ⟨rfl, rfl, rfl, rfl, rfl, rfl⟩
  refine ⟨eq.minVRuntime, arr.fair.rekey eq (fun u => ?_) keys executing, ?_⟩
  · rw [marks.fields u]
    exact ⟨rfl, rfl⟩
  · refine arr.resting.keep (fun _ => eq.live.mpr) (by rw [marks.tables]) fun _ u _ _ isBlocked absent => ?_
    rw [marks.fields u]
    exact ⟨rfl, isBlocked, rfl, rfl, absent⟩

/-- What a signal to the task may not find: it BLOCKED, or a key of its own to write. -/
structure SparesQueue (kernel : Kernel) (signal : Nat) (t : TaskId) : Prop where
  awake : (kernel.task t).state = .blocked → (kernel.task t).pid ≤ pidInit
  keys : (kernel.task t).state = .ready → pidInit < (kernel.task t).pid →
    ((kernel.task t).signals ||| 2 ^ signal).testBit sigInt = true →
      ∀ first ∈ kernel.cfsLeftmost, (kernel.task t).vruntime = (kernel.task first).vruntime

theorem Fair.keys_kept {signal : Nat} (fair : Fair boosts kernel nodes) (spares : kernel.SparesQueue signal t)
    (signalled : kernel.Signalled after t signal) :
    (∀ u ∈ nodes, (after.task u).vruntime = (kernel.task u).vruntime) ∧
      ∀ u, kernel.Executes u → kernel.minVRuntime ≤ (after.task u).vruntime + 10 := by
  have firstQueued : ∀ first, kernel.cfsLeftmost = some first → first ∈ nodes := fun first leftmost =>
    mem_of_head? (fair.queue.leftmost.symm.trans leftmost)
  constructor
  · intro u mem
    rcases signalled.vruntime u with eq | ⟨rfl, user, pending, first, leftmost, rewritten⟩
    · exact eq
    · rcases fair.state u mem with isReady | ⟨_, isBlocked⟩
      · exact rewritten.trans (spares.keys isReady user pending first leftmost).symm
      · exact absurd user (Nat.not_lt.mpr (spares.awake isBlocked))
  · intro u executes
    rcases signalled.vruntime u with eq | ⟨rfl, _, _, first, leftmost, rewritten⟩
    · rw [eq]
      exact fair.executing u executes
    · rw [rewritten]
      exact fair.bounded first (firstQueued first leftmost)

theorem SparesQueue.onward {signal : Nat} {u : TaskId} (fair : Fair boosts kernel nodes) (spares : kernel.SparesQueue signal t)
    (signalled : kernel.Signalled after t signal) (also : kernel.SparesQueue signal u) : after.SparesQueue signal u := by
  obtain ⟨keys, _⟩ := fair.keys_kept spares signalled
  have leftmost : after.cfsLeftmost = kernel.cfsLeftmost := by rw [signalled.marks.tables]
  have state : (after.task u).state = (kernel.task u).state := by rw [signalled.marks.fields u]
  have pid : (after.task u).pid = (kernel.task u).pid := by rw [signalled.marks.fields u]
  refine ⟨fun isBlocked => pid ▸ also.awake (state ▸ isBlocked), fun isReady user pending first isFirst => ?_⟩
  rw [leftmost] at isFirst
  have firstQueued : first ∈ nodes := mem_of_head? (fair.queue.leftmost.symm.trans isFirst)
  have pre := also.keys (state ▸ isReady) (pid ▸ user) (signalled.pending u ▸ pending) first isFirst
  rw [keys first firstQueued, ← pre]
  rcases signalled.vruntime u with eq | ⟨_, _, _, head, isHead, rewritten⟩
  · exact eq
  · grind

theorem Arranged.signalGroup {signal rounds : Nat} {start : Option TaskId} (arr : Arranged boosts kernel queues nodes lists)
    (spares : ∀ u ∈ kernel.groupMembers rounds start, kernel.SparesQueue signal u)
    (done : Kernel.signalGroup signal rounds kernel start = some after) :
    after.minVRuntime = kernel.minVRuntime ∧ Arranged boosts after queues nodes lists := by
  induction rounds generalizing kernel start with
  | zero =>
    cases start with
    | none => exact some.inj done ▸ ⟨rfl, arr⟩
    | some t => exact nomatch done
  | succ rounds ih =>
    cases start with
    | none => exact some.inj done ▸ ⟨rfl, arr⟩
    | some t =>
      obtain ⟨middle, first, rest⟩ := Option.bind_eq_some_iff.mp done
      have own := spares t mem_cons_self
      have signalled := signalTask_signalled own.awake first
      obtain ⟨keys, executing⟩ := arr.fair.keys_kept own signalled
      obtain ⟨sameMin, mid⟩ := arr.signalled signalled.marks keys executing
      have link : (middle.task t).pgidTaskPtr = (kernel.task t).pgidTaskPtr := by rw [signalled.marks.fields t]
      have later : ∀ u ∈ middle.groupMembers rounds (middle.task t).pgidTaskPtr, middle.SparesQueue signal u := by
        intro u mem
        rw [groupMembers_marks signalled.marks, link] at mem
        exact own.onward arr.fair signalled (spares u (mem_cons_of_mem t mem))
      obtain ⟨again, arr⟩ := ih mid later rest
      exact ⟨again.trans sameMin, arr⟩

theorem Arranged.setTaskSignal {id signal : Nat} {isGroup : Bool} (arr : Arranged boosts kernel queues nodes lists)
    (awake : kernel.WakesNobody id isGroup) (keys : kernel.KeepsKeys id signal isGroup)
    (done : kernel.setTaskSignal id signal isGroup = some after) :
    after.minVRuntime = kernel.minVRuntime ∧ Arranged boosts after queues nodes lists := by
  have spares : ∀ u ∈ kernel.signalTargets id isGroup, kernel.SparesQueue signal u := fun u mem =>
    ⟨awake u mem, keys u mem⟩
  unfold signalTargets at spares
  unfold Kernel.setTaskSignal at done
  cases isGroup with
  | true => exact arr.signalGroup spares done
  | false =>
    cases hf : kernel.getTaskPID id with
    | none =>
      rw [hf] at done
      exact some.inj done ▸ ⟨rfl, arr⟩
    | some t =>
      rw [hf] at done spares
      have own := spares t (by simp)
      have signalled := signalTask_signalled own.awake done
      obtain ⟨keys, executing⟩ := arr.fair.keys_kept own signalled
      exact arr.signalled signalled.marks keys executing

theorem Fair.reorder {longer : List TaskId} (fair : Fair boosts kernel nodes) (slots : after.taskArray = kernel.taskArray)
    (names : after.nextTask = kernel.nextTask) (minVRuntime : after.minVRuntime = kernel.minVRuntime)
    (current : after.currentTaskIndex = kernel.currentTaskIndex)
    (fields : ∀ u, (after.task u).pid = (kernel.task u).pid ∧ (after.task u).state = (kernel.task u).state ∧
      (after.task u).vruntime = (kernel.task u).vruntime)
    (queue : after.RunQueue longer) (mem : ∀ u, u ∈ longer ↔ u ∈ nodes) (sorted : after.ByVRuntime longer) :
    Fair boosts after longer := by
  have live : ∀ u, after.Live u ↔ kernel.Live u := by
    intro u
    unfold Live
    rw [slots]
  have executes : ∀ u, after.Executes u ↔ kernel.Executes u := by
    intro u
    unfold Executes getCurrentTaskPtr
    rw [slots, current, (fields u).1, (fields u).2.1]
  exact {
    numbered := fair.numbered.congr slots names.ge fun u _ => (fields u).1
    queue := queue
    queued := fun u member => by
      rw [live, (fields u).1]
      exact fair.queued u ((mem u).mp member)
    state := fun u member => by
      rw [(fields u).2.1]
      exact fair.state u ((mem u).mp member)
    ready := fun u isLive notIdle isReady =>
      (mem u).mpr (fair.ready u ((live u).mp isLive) ((fields u).1 ▸ notIdle) ((fields u).2.1 ▸ isReady))
    running := fun u isLive notIdle isRunning =>
      (executes u).mpr (fair.running u ((live u).mp isLive) ((fields u).1 ▸ notIdle) ((fields u).2.1 ▸ isRunning))
    sorted := sorted
    bounded := fun u member => by
      rw [minVRuntime, (fields u).2.2]
      exact fair.bounded u ((mem u).mp member)
    executing := fun u now => by
      rw [minVRuntime, (fields u).2.2]
      exact fair.executing u ((executes u).mp now) }

theorem sysSetPriority_target {me : TaskId} {which who nice : Int} {rax : Nat} (executes : kernel.Executes me)
    (lower : -2 ^ 31 ≤ who) (upper : who < 2 ^ 31) (done : kernel.sysSetPriority which who nice = some (rax, after)) :
    after = kernel ∨ ∃ target pid clamped, kernel.getTaskPID pid = some target ∧ pid ≠ pidIdle ∧
      kernel.setPriority target clamped = some after := by
  have unchanged : ∀ error : Nat, some (error, kernel) = some (rax, after) → after = kernel := fun error eq =>
    (congrArg Prod.snd (some.inj eq)).symm
  have notIdle : (if who = 0 then (kernel.task me).pid else (who % 2 ^ 64).toNat) ≠ pidIdle := by
    split
    · exact executes.2.1
    · unfold pidIdle
      omega
  unfold sysSetPriority at done
  rw [executes.1] at done
  dsimp only at done
  split at done
  case isFalse =>
    split at done
    · exact .inl (unchanged 38 done)
    · exact .inl (unchanged 22 done)
  case isTrue =>
    split at done
    · exact .inl (unchanged 3 done)
    · rename_i target hf
      split at done
      · exact .inl (unchanged 13 done)
      · obtain ⟨changed, set, eq⟩ := Option.map_eq_some_iff.mp done
        cases eq
        exact .inr ⟨target, _, clampNice nice, hf, notIdle, set⟩

theorem Arranged.setPriority {nice : Int} (arr : Arranged boosts kernel queues nodes lists) (isLive : kernel.Live t)
    (queued : (kernel.task t).state = .ready → (kernel.task t).pid ≠ pidIdle)
    (done : kernel.setPriority t nice = some after) :
    after.minVRuntime = kernel.minVRuntime ∧ ∃ longer, Arranged boosts after queues longer lists := by
  have fields : ∀ (kernel : Kernel) u, ((kernel.modify t fun task =>
      { task with niceValueOfThisGuy := nice, weight := rateThisTaskNice nice }).task u) = { kernel.task u with
        niceValueOfThisGuy := if u = t then nice else (kernel.task u).niceValueOfThisGuy
        weight := if u = t then rateThisTaskNice nice else (kernel.task u).weight } := by
    intro kernel u
    rw [task_modify]
    split
    case isTrue eq => rw [eq]
    case isFalse => rfl
  unfold Kernel.setPriority at done
  split at done
  case isFalse =>
    cases done
    refine ⟨rfl, nodes, arr.keep (SameQueue.modify ..) rfl fun u => ?_⟩
    rw [fields]
    exact ⟨rfl, rfl, rfl, rfl, rfl⟩
  case isTrue isReady =>
    obtain ⟨pre, later, split⟩ := append_of_mem (arr.fair.ready t isLive (queued isReady) isReady)
    subst split
    obtain ⟨tree, leftmost, dequeued, remaining⟩ := arr.fair.queue.cfsDequeue
    rw [dequeued, Option.bind_some] at done
    have absent : t ∉ pre ++ later :=
      (nodup_cons.mp (perm_middle.nodup_iff.mp arr.fair.queue.nodup)).1
    have notIdle : (((kernel.withQueue tree leftmost).modify t fun task =>
        { task with niceValueOfThisGuy := nice, weight := rateThisTaskNice nice }).task t).pid ≠ pidIdle := by
      rw [fields]
      exact queued isReady
    obtain ⟨newTree, newLeftmost, front, back, enqueued, split, shape, sorted⟩ :=
      (remaining.modify t _).cfsEnqueue absent (arr.fair.numbered.live_lt isLive) notIdle
    obtain rfl := some.inj (done.symm.trans enqueued)
    have without : kernel.ByVRuntime (pre ++ later) := by
      obtain ⟨early, late, across⟩ := pairwise_append.mp arr.fair.sorted
      exact pairwise_append.mpr ⟨early, (pairwise_cons.mp late).2, fun a member b isLater =>
        across a member b (mem_cons_of_mem t isLater)⟩
    have again : (front ++ t :: back).Perm (pre ++ t :: later) := by
      refine perm_middle.trans ?_
      rw [← split]
      exact perm_middle.symm
    have mem : ∀ u, u ∈ front ++ t :: back ↔ u ∈ pre ++ t :: later := fun u => again.mem_iff
    refine ⟨rfl, front ++ t :: back, ?_, ?_⟩
    · refine arr.fair.reorder rfl rfl rfl rfl (fun u => ?_) shape mem (sorted (without.congr fun u _ => ?_))
      · rw [task_withQueue, fields]
        exact ⟨rfl, rfl, rfl⟩
      · rw [fields]
        rfl
    · refine arr.resting.keep (fun _ => id) rfl fun _ u _ _ isBlocked absent => ?_
      rw [task_withQueue, fields]
      exact ⟨rfl, isBlocked, rfl, rfl, fun member => absent ((mem u).mp member)⟩

end

end Kernel

end RosKernel.Tasking
