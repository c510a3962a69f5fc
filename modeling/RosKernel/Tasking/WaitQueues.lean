import RosKernel.Tasking.Scheduler

/-! Wait queues as the lists of tasks that they link. -/

set_option autoImplicit false

namespace RosKernel.Tasking

open Library List

namespace Kernel

def nextWaiter (kernel : Kernel) (t : TaskId) : Option TaskId := (kernel.task t).nextWaitTask

structure Waits (kernel : Kernel) (queue : WaitQueue) (waiters : List TaskId) : Prop where
  chain : Chain kernel.nextWaiter queue.head waiters
  tail : queue.tail = waiters.getLast?
  nodup : waiters.Nodup

/-- Nothing but the links of wait queues is written. -/
structure LinksWaiters (kernel after : Kernel) : Prop where
  tables : after = { kernel with task := after.task }
  fields : ∀ t, after.task t = { kernel.task t with nextWaitTask := (after.task t).nextWaitTask }

section

variable {kernel after : Kernel} {queue longer : WaitQueue} {waiters : List TaskId} {t : TaskId}

theorem waits_empty (kernel : Kernel) : kernel.Waits ⟨none, none⟩ [] := ⟨rfl, rfl, nodup_nil⟩

theorem Waits.congr (waits : kernel.Waits queue waiters)
    (eq : ∀ u ∈ waiters, (after.task u).nextWaitTask = (kernel.task u).nextWaitTask) : after.Waits queue waiters :=
  ⟨waits.chain.congr eq, waits.tail, waits.nodup⟩

theorem LinksWaiters.modify (kernel : Kernel) (t : TaskId) (next : Option TaskId) :
    kernel.LinksWaiters (kernel.modify t fun task => { task with nextWaitTask := next }) := by
  refine ⟨rfl, fun u => ?_⟩
  rw [task_modify]
  split
  case isTrue eq => rw [eq]
  case isFalse => rfl

theorem LinksWaiters.trans {mid : Kernel} (first : kernel.LinksWaiters mid) (snd : mid.LinksWaiters after) :
    kernel.LinksWaiters after where
  tables := by rw [snd.tables, first.tables]
  fields u := by rw [snd.fields u, first.fields u]

theorem Waits.joinQueue (waits : kernel.Waits queue waiters) (absent : t ∉ waiters)
    (done : kernel.joinQueue queue t = some (longer, after)) : after.Waits longer (waiters ++ [t]) ∧
      kernel.LinksWaiters after ∧ ∀ u ∉ waiters, u ≠ t → after.task u = kernel.task u := by
  have dist : (waiters ++ [t]).Nodup :=
    nodup_append.mpr ⟨waits.nodup, nodup_singleton t, fun u mem v isNew => by
      obtain rfl := mem_singleton.mp isNew
      exact fun eq => absent (eq ▸ mem)⟩
  have last := LinksWaiters.modify kernel t none
  have ended : (kernel.modify t fun task => { task with nextWaitTask := none }).nextWaiter t = none := by
    simp [nextWaiter]
  have linked : Chain (kernel.modify t fun task => { task with nextWaitTask := none }).nextWaiter queue.head waiters := by
    refine waits.chain.congr fun u mem => ?_
    have other : u ≠ t := fun eq => absent (eq ▸ mem)
    simp [nextWaiter, other]
  unfold Kernel.joinQueue at done
  cases waiters with
  | nil =>
    have empty : queue.head = none := waits.chain
    rw [empty] at done
    cases done
    refine ⟨⟨⟨rfl, ended⟩, rfl, dist⟩, last, fun u _ other => ?_⟩
    rw [task_modify, if_neg other]
  | cons first rest =>
    obtain ⟨tail, isTail⟩ : ∃ tail, (first :: rest).getLast? = some tail := ⟨_, getLast?_cons⟩
    rw [waits.chain.1, waits.tail, isTail] at done
    cases done
    have inQueue : tail ∈ first :: rest := mem_of_getLast? isTail
    have notTail : t ≠ tail := fun eq => absent (eq ▸ inQueue)
    have relinked := @Chain.relink _ _ _ _ (first :: rest) [] [t] (some t) (by simpa using linked) waits.nodup ⟨rfl, ended⟩
      fun u mem isNew => absent (mem_singleton.mp isNew ▸ mem)
    rw [isTail] at relinked
    refine ⟨⟨?_, getLast?_concat.symm, dist⟩, last.trans (LinksWaiters.modify ..), fun u out other => ?_⟩
    · rw [waits.chain.1] at relinked
      refine relinked.congr fun u _ => ?_
      by_cases isLast : u = tail
      · subst isLast
        simp [nextWaiter, relinkNext]
      · simp [nextWaiter, relinkNext, isLast]
    · have notLast : u ≠ tail := fun eq => out (eq ▸ inQueue)
      rw [task_modify, if_neg notLast, task_modify, if_neg other]

theorem Waits.leaveQueue {rest : List TaskId} (waits : kernel.Waits queue (t :: rest)) :
    kernel.Waits (kernel.leaveQueue queue t) rest := by
  have next : (kernel.task t).nextWaitTask = rest.head? := waits.chain.2.head_eq
  refine ⟨waits.chain.2, ?_, (nodup_cons.mp waits.nodup).2⟩
  unfold Kernel.leaveQueue
  rw [next]
  cases rest with
  | nil => rfl
  | cons snd tail =>
    rw [waits.tail]
    simp

end

end Kernel

end RosKernel.Tasking
