import RosKernel.Tasking.ProcessCalls
import RosKernel.Tasking.RunQueue

/-! The run queue as an ordered multiset.

A queued task goes behind its equals, a dequeued task leaves the others where they are, and the
task that is picked is one of the smallest vruntime, the first of them that came.
-/

set_option autoImplicit false

namespace RosKernel.Tasking

open Library List

namespace Kernel

/-- The tree is valid and its order is the order of the vruntimes. -/
structure OrderedQueue (kernel : Kernel) (nodes : List TaskId) : Prop extends kernel.RunQueue nodes where
  sorted : kernel.ByVRuntime nodes

/-- The tasks of one vruntime. -/
def level (kernel : Kernel) (vruntime : Nat) (nodes : List TaskId) : List TaskId :=
  nodes.filter fun u => (kernel.task u).vruntime = vruntime

/-- The queue holds the tasks of each vruntime in the order of their arrival. -/
def Arrived (kernel : Kernel) (nodes arrivals : List TaskId) : Prop :=
  ∀ vruntime, kernel.level vruntime nodes = kernel.level vruntime arrivals

section

variable {kernel : Kernel} {nodes arrivals before after : List TaskId} {t : TaskId}

theorem level_append (vruntime : Nat) (early late : List TaskId) :
    kernel.level vruntime (early ++ late) = kernel.level vruntime early ++ kernel.level vruntime late :=
  filter_append early late

theorem level_single (vruntime : Nat) (t : TaskId) :
    kernel.level vruntime [t] = if (kernel.task t).vruntime = vruntime then [t] else [] := by
  unfold level
  by_cases eq : (kernel.task t).vruntime = vruntime <;> simp [eq]

theorem level_enqueued (vruntime : Nat) (late : ∀ u ∈ after, (kernel.task t).vruntime < (kernel.task u).vruntime) :
    kernel.level vruntime (before ++ t :: after) = kernel.level vruntime (before ++ after ++ [t]) := by
  rw [level_append, level_append, level_append, ← singleton_append, level_append, level_single]
  split
  case isTrue eq =>
    have nobody : kernel.level vruntime after = [] := by
      apply filter_eq_nil_iff.mpr
      intro u mem equal
      exact Nat.ne_of_gt (eq ▸ late u mem) (of_decide_eq_true equal)
    rw [nobody, append_nil, append_nil]
  case isFalse => rw [nil_append, append_nil]

theorem Arrived.enqueue (arrived : kernel.Arrived (before ++ after) arrivals)
    (late : ∀ u ∈ after, (kernel.task t).vruntime < (kernel.task u).vruntime) :
    kernel.Arrived (before ++ t :: after) (arrivals ++ [t]) := by
  intro vruntime
  rw [level_enqueued vruntime late, level_append, arrived vruntime, ← level_append]

theorem level_without (vruntime : Nat) (t : TaskId) (nodes : List TaskId) :
    kernel.level vruntime (nodes.filter (· ≠ t)) = (kernel.level vruntime nodes).filter (· ≠ t) :=
  filter_comm _ _ nodes

theorem Arrived.dequeue (arrived : kernel.Arrived (before ++ t :: after) arrivals) (nodup : (before ++ t :: after).Nodup) :
    kernel.Arrived (before ++ after) (arrivals.filter (· ≠ t)) := by
  have others : before ++ after = (before ++ t :: after).filter (· ≠ t) := by
    rw [nodup_middle, nodup_cons, mem_append, not_or] at nodup
    obtain ⟨⟨notBefore, notAfter⟩, _⟩ := nodup
    have kept : ∀ rest : List TaskId, t ∉ rest → rest.filter (· ≠ t) = rest := by
      intro rest absent
      apply filter_eq_self.mpr
      intro u mem
      exact decide_eq_true fun eq => absent (eq ▸ mem)
    rw [filter_append, filter_cons_of_neg (by simp), kept before notBefore, kept after notAfter]
  intro vruntime
  rw [others, level_without, level_without, arrived vruntime]

theorem Arrived.head (arrived : kernel.Arrived (t :: after) arrivals) :
    (kernel.level (kernel.task t).vruntime arrivals).head? = some t := by
  rw [← arrived, level, filter_cons_of_pos (by simp)]
  rfl

end

section

variable {kernel other : Kernel} {nodes before after : List TaskId} {t : TaskId}

theorem cfsDequeue_clears (done : kernel.cfsDequeue t = some other) :
    (∀ side, other.tree.child side t = none) ∧ other.tree.parent t = none := by
  obtain ⟨leftmost, _, ht⟩ := Option.bind_eq_some_iff.mp done
  obtain ⟨tree, erased, rfl⟩ := Option.map_eq_some_iff.mp ht
  exact Links.erase_clears erased

theorem ByVRuntime.remove (sorted : kernel.ByVRuntime (before ++ t :: after)) : kernel.ByVRuntime (before ++ after) :=
  List.Pairwise.sublist (List.Sublist.append_left (sublist_cons_self t after) before) sorted

theorem ByVRuntime.head (sorted : kernel.ByVRuntime (t :: after)) :
    ∀ u ∈ t :: after, (kernel.task t).vruntime ≤ (kernel.task u).vruntime := by
  intro u mem
  rcases mem_cons.mp mem with rfl | later
  · exact Nat.le_refl _
  · exact (pairwise_cons.mp sorted).1 u later

theorem OrderedQueue.enqueue (valid : kernel.OrderedQueue nodes) (created : t < kernel.nextTask) (fresh : t ∉ nodes)
    (notIdle : (kernel.task t).pid ≠ pidIdle) :
    ∃ other before after, kernel.cfsEnqueue t = some other ∧ nodes = before ++ after ∧
      (∀ u ∈ before, (kernel.task u).vruntime ≤ (kernel.task t).vruntime) ∧
      (∀ u ∈ after, (kernel.task t).vruntime < (kernel.task u).vruntime) ∧
      other.OrderedQueue (before ++ t :: after) ∧ other.task = kernel.task := by
  obtain ⟨tree, leftmost, before, after, enqueued, rfl, shape, mid⟩ :=
    valid.toRunQueue.cfsEnqueue_between fresh created notIdle
  obtain ⟨early, late⟩ := mid valid.sorted
  have sorted : kernel.ByVRuntime (before ++ t :: after) := valid.sorted.insert early late
  exact ⟨_, before, after, enqueued, rfl, early, late, ⟨shape, sorted⟩, rfl⟩

theorem OrderedQueue.dequeue (valid : kernel.OrderedQueue (before ++ t :: after)) :
    ∃ other, kernel.cfsDequeue t = some other ∧ other.OrderedQueue (before ++ after) ∧ other.task = kernel.task := by
  obtain ⟨tree, leftmost, dequeued, remaining⟩ := valid.toRunQueue.cfsDequeue
  exact ⟨_, dequeued, ⟨remaining, valid.sorted.remove⟩, rfl⟩

theorem OrderedQueue.pickNext (valid : kernel.OrderedQueue nodes) :
    ∃ other, kernel.cfsPickNext = some (nodes.head?, other) ∧ other.OrderedQueue nodes.tail ∧ other.task = kernel.task := by
  cases nodes with
  | nil => exact ⟨kernel, valid.toRunQueue.cfsPickNext_empty, valid, rfl⟩
  | cons first rest =>
    obtain ⟨tree, leftmost, picked, remaining⟩ := valid.toRunQueue.cfsPickNext
    exact ⟨_, picked, ⟨remaining, (pairwise_cons.mp valid.sorted).2⟩, rfl⟩

theorem Arrived.congr {arrivals : List TaskId} (arrived : kernel.Arrived nodes arrivals) (eq : other.task = kernel.task) :
    other.Arrived nodes arrivals := by
  intro vruntime
  unfold level
  rw [eq]
  exact arrived vruntime

end

/-- The CFS tree is an ordered multiset, and `CFSPickNext` takes the first of its smallest tasks. -/
theorem run_queue_ordered {kernel : Kernel} {nodes : List TaskId} (valid : kernel.OrderedQueue nodes) :
    (∀ t, t < kernel.nextTask → t ∉ nodes → (kernel.task t).pid ≠ pidIdle →
      ∃ other before after, kernel.cfsEnqueue t = some other ∧ nodes = before ++ after ∧
        (∀ u ∈ before, (kernel.task u).vruntime ≤ (kernel.task t).vruntime) ∧
        (∀ u ∈ after, (kernel.task t).vruntime < (kernel.task u).vruntime) ∧
        other.OrderedQueue (before ++ t :: after) ∧ other.task = kernel.task ∧
        ∀ arrivals, kernel.Arrived nodes arrivals → other.Arrived (before ++ t :: after) (arrivals ++ [t])) ∧
    (∀ before t after, nodes = before ++ t :: after →
      ∃ other, kernel.cfsDequeue t = some other ∧ other.OrderedQueue (before ++ after) ∧
        (∀ side, other.tree.child side t = none) ∧ other.tree.parent t = none ∧ other.task = kernel.task ∧
        ∀ arrivals, kernel.Arrived nodes arrivals → other.Arrived (before ++ after) (arrivals.filter (· ≠ t))) ∧
    ∃ other, kernel.cfsPickNext = some (nodes.head?, other) ∧ other.OrderedQueue nodes.tail ∧ other.task = kernel.task ∧
      ∀ t ∈ nodes.head?, (∀ u ∈ nodes, (kernel.task t).vruntime ≤ (kernel.task u).vruntime) ∧
        ∀ arrivals, kernel.Arrived nodes arrivals → (kernel.level (kernel.task t).vruntime arrivals).head? = some t := by
  refine ⟨?_, ?_, ?_⟩
  · intro t created fresh notIdle
    obtain ⟨other, before, after, enqueued, rfl, early, late, ord, eq⟩ := valid.enqueue created fresh notIdle
    exact ⟨other, before, after, enqueued, rfl, early, late, ord, eq,
      fun arrivals arrived => (arrived.enqueue late).congr eq⟩
  · intro before t after split
    subst split
    obtain ⟨other, dequeued, ord, eq⟩ := valid.dequeue
    obtain ⟨noChild, noParent⟩ := cfsDequeue_clears dequeued
    exact ⟨other, dequeued, ord, noChild, noParent, eq,
      fun arrivals arrived => (arrived.dequeue valid.toRunQueue.nodup).congr eq⟩
  · obtain ⟨other, picked, ord, eq⟩ := valid.pickNext
    refine ⟨other, picked, ord, eq, fun t first => ?_⟩
    cases nodes with
    | nil => exact nomatch first
    | cons head rest =>
      obtain rfl : head = t := Option.some.inj first
      exact ⟨valid.sorted.head, fun arrivals arrived => arrived.head⟩

/-- A black task over a red one, and a third that waits outside. -/
def queuedPair : Kernel := { powerOn 1000 ⟨0, 0, 0⟩ with
  task := fun t => { (default : Task) with pid := t + 1, vruntime := if t = 1 then 20 else 10 }
  nextTask := 3
  tree := ⟨some 0, fun side t => if side = .right ∧ t = 0 then some 1 else none, fun t => if t = 1 then some 0 else none,
    fun t => t = 1⟩
  cfsLeftmost := some 0 }

theorem queuedPair_valid : queuedPair.OrderedQueue [0, 1] where
  tree := ⟨.node false .leaf 0 (.node true .leaf 1 .leaf), 1,
    ⟨⟨⟨rfl, rfl, rfl, rfl⟩, trivial, ⟨rfl, rfl, rfl, rfl⟩, trivial, trivial⟩, rfl, by decide⟩,
    by simp [RbTree.Balanced, RbTree.isRed], rfl, rfl⟩
  leftmost := rfl
  created := by decide
  sorted := by unfold ByVRuntime; decide

theorem run_queue_ordered_pair :
    (∃ other before after, queuedPair.cfsEnqueue 2 = some other ∧ [0, 1] = before ++ after ∧
      other.OrderedQueue (before ++ 2 :: after)) ∧
    (∃ other, queuedPair.cfsDequeue 0 = some other ∧ other.OrderedQueue [1] ∧ other.tree.parent 0 = none) ∧
    ∃ other, queuedPair.cfsPickNext = some (some 0, other) ∧ other.OrderedQueue [1] := by
  obtain ⟨enqueues, dequeues, other, picked, remaining, _⟩ := run_queue_ordered queuedPair_valid
  refine ⟨?_, ?_, other, picked, remaining⟩
  · obtain ⟨other, before, after, enqueued, split, _, _, ord, _⟩ := enqueues 2 (by decide) (by decide) (by decide)
    exact ⟨other, before, after, enqueued, split, ord⟩
  · obtain ⟨other, dequeued, ord, _, noParent, _⟩ := dequeues [] 0 [1] rfl
    exact ⟨other, dequeued, ord, noParent⟩

end Kernel

end RosKernel.Tasking
