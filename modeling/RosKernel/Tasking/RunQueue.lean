import Mathlib.Data.List.Perm.Subperm
import RosKernel.Tasking.Scheduler

/-! The run queue as the list of tasks that its tree holds in order.

Every operation on the tree is a change of that list. The list is sorted by vruntime as long as
no task in it has its vruntime written.
-/

set_option autoImplicit false

namespace RosKernel.Tasking

open Library List Option

namespace Kernel

/-- The tree holds the tasks in this order, and `CFSLeftmost` names the first. -/
structure RunQueue (kernel : Kernel) (nodes : List TaskId) : Prop where
  tree : kernel.tree.RedBlack nodes
  leftmost : kernel.cfsLeftmost = nodes.head?
  created : ∀ t ∈ nodes, t < kernel.nextTask

def ByVRuntime (kernel : Kernel) (nodes : List TaskId) : Prop :=
  nodes.Pairwise fun a b => (kernel.task a).vruntime ≤ (kernel.task b).vruntime

def withQueue (kernel : Kernel) (tree : Links TaskId) (leftmost : Option TaskId) : Kernel := { kernel with
  tree := tree
  cfsLeftmost := leftmost }

section

variable {kernel other : Kernel} {nodes rest before after : List TaskId} {t : TaskId}

@[simp] theorem task_withQueue (tree : Links TaskId) (leftmost : Option TaskId) :
    (kernel.withQueue tree leftmost).task = kernel.task := rfl

@[simp] theorem nextTask_withQueue (tree : Links TaskId) (leftmost : Option TaskId) :
    (kernel.withQueue tree leftmost).nextTask = kernel.nextTask := rfl

section

variable (queue : kernel.RunQueue nodes)
include queue

theorem RunQueue.congr (tree : other.tree = kernel.tree) (leftmost : other.cfsLeftmost = kernel.cfsLeftmost)
    (grows : kernel.nextTask ≤ other.nextTask) : other.RunQueue nodes where
  tree := tree ▸ queue.tree
  leftmost := leftmost.trans queue.leftmost
  created t mem := Nat.lt_of_lt_of_le (queue.created t mem) grows

theorem RunQueue.modify (t : TaskId) (change : Task → Task) : (kernel.modify t change).RunQueue nodes :=
  queue.congr rfl rfl (Nat.le_refl _)

theorem RunQueue.nodup : nodes.Nodup := queue.tree.nodup

theorem RunQueue.length_lt_fuel : nodes.length < kernel.fuel := by
  have within : nodes ⊆ range kernel.nextTask := fun t mem => mem_range.mpr (queue.created t mem)
  have bound := (List.Nodup.subperm queue.nodup within).length_le
  rw [length_range] at bound
  exact Nat.lt_succ_of_le bound

end

theorem runQueue_empty (root : kernel.tree.root = none) (leftmost : kernel.cfsLeftmost = none) : kernel.RunQueue [] :=
  ⟨Links.redBlack_empty root, leftmost, fun _ mem => nomatch mem⟩

theorem ByVRuntime.congr (sorted : kernel.ByVRuntime nodes)
    (eq : ∀ t ∈ nodes, (other.task t).vruntime = (kernel.task t).vruntime) : other.ByVRuntime nodes := by
  refine List.Pairwise.imp_of_mem (fun {a b} first snd ord => ?_) sorted
  rw [eq a first, eq b snd]
  exact ord

theorem ByVRuntime.insert (sorted : kernel.ByVRuntime (before ++ after))
    (early : ∀ u ∈ before, (kernel.task u).vruntime ≤ (kernel.task t).vruntime)
    (late : ∀ u ∈ after, (kernel.task t).vruntime < (kernel.task u).vruntime) : kernel.ByVRuntime (before ++ t :: after) := by
  obtain ⟨first, snd, across⟩ := pairwise_append.mp sorted
  refine pairwise_append.mpr ⟨first, pairwise_cons.mpr ⟨fun u mem => Nat.le_of_lt (late u mem), snd⟩, ?_⟩
  intro node mem follower isAfter
  rcases mem_cons.mp isAfter with rfl | isAfter
  · exact early node mem
  · exact across node mem follower isAfter

section

variable (queue : kernel.RunQueue nodes) (fresh : t ∉ nodes) (created : t < kernel.nextTask)
  (notIdle : (kernel.task t).pid ≠ pidIdle)
include queue fresh created notIdle

theorem RunQueue.cfsEnqueue_between :
    ∃ tree leftmost before after, kernel.cfsEnqueue t = some (kernel.withQueue tree leftmost) ∧
      nodes = before ++ after ∧ (kernel.withQueue tree leftmost).RunQueue (before ++ t :: after) ∧
      (kernel.ByVRuntime nodes → (∀ u ∈ before, (kernel.task u).vruntime ≤ (kernel.task t).vruntime) ∧
        ∀ u ∈ after, (kernel.task t).vruntime < (kernel.task u).vruntime) := by
  obtain ⟨first, tree, before, after, ins, rfl, shape, isFirst, placed⟩ :=
    @Links.RedBlack.insert _ kernel.tree _ nodes (fun key => decide ((kernel.task t).vruntime < (kernel.task key).vruntime))
      _ t queue.tree fresh queue.length_lt_fuel
  refine ⟨tree, if first then some t else kernel.cfsLeftmost, before, after, ?_, rfl, ⟨shape, ?_, ?_⟩, fun sorted => ?_⟩
  · unfold Kernel.cfsEnqueue
    rw [if_neg notIdle]
    dsimp only
    rw [ins]
    rfl
  · change (if first then some t else kernel.cfsLeftmost) = _
    cases before with
    | nil => rw [isFirst.mpr rfl, if_pos rfl, nil_append, head?_cons]
    | cons head tail =>
      have later : first = false := Bool.eq_false_iff.mpr fun isTrue => nomatch isFirst.mp isTrue
      rw [later, queue.leftmost]
      rfl
  · intro node mem
    rcases mem_append.mp mem with early | late
    · exact queue.created node (mem_append_left _ early)
    · rcases mem_cons.mp late with rfl | late
      · exact created
      · exact queue.created node (mem_append_right _ late)
  · have monotone : (before ++ after).Pairwise fun a b =>
        decide ((kernel.task t).vruntime < (kernel.task a).vruntime) = true →
        decide ((kernel.task t).vruntime < (kernel.task b).vruntime) = true :=
      sorted.imp fun ord below => decide_eq_true (Nat.lt_of_lt_of_le (of_decide_eq_true below) ord)
    obtain ⟨notBefore, afterIt⟩ := placed monotone
    exact ⟨fun u mem => Nat.le_of_not_lt (of_decide_eq_false (notBefore u mem)),
      fun u mem => of_decide_eq_true (afterIt u mem)⟩

theorem RunQueue.cfsEnqueue : ∃ tree leftmost before after, kernel.cfsEnqueue t = some (kernel.withQueue tree leftmost) ∧
      nodes = before ++ after ∧ (kernel.withQueue tree leftmost).RunQueue (before ++ t :: after) ∧
      (kernel.ByVRuntime nodes → kernel.ByVRuntime (before ++ t :: after)) := by
  obtain ⟨tree, leftmost, before, after, enqueued, rfl, shape, mid⟩ := queue.cfsEnqueue_between fresh created notIdle
  refine ⟨tree, leftmost, before, after, enqueued, rfl, shape, fun sorted => ?_⟩
  obtain ⟨early, late⟩ := mid sorted
  exact sorted.insert early late

end

theorem RunQueue.cfsDequeue (queue : kernel.RunQueue (before ++ t :: after)) :
    ∃ tree leftmost, kernel.cfsDequeue t = some (kernel.withQueue tree leftmost) ∧
      (kernel.withQueue tree leftmost).RunQueue (before ++ after) := by
  obtain ⟨tree, erased, shape⟩ := queue.tree.erase queue.length_lt_fuel
  have created : ∀ node ∈ before ++ after, node < kernel.nextTask := by
    intro node mem
    refine queue.created node (mem_append.mpr ((mem_append.mp mem).imp id ?_))
    exact mem_cons_of_mem t
  unfold Kernel.cfsDequeue
  cases before with
  | nil =>
    have first : kernel.cfsLeftmost = some t := queue.leftmost
    have lt : after.length ≤ kernel.fuel := by
      have bound := queue.length_lt_fuel
      simp only [nil_append, length_cons] at bound
      omega
    rw [first, if_pos rfl, queue.tree.secondNode lt, Option.bind_some, erased]
    exact ⟨tree, after.head?, rfl, shape, rfl, created⟩
  | cons head tail =>
    have first : kernel.cfsLeftmost = some head := queue.leftmost
    have other : some t ≠ kernel.cfsLeftmost := by
      rw [first]
      intro eq
      obtain rfl : t = head := some.inj eq
      exact (nodup_cons.mp queue.nodup).1 (by simp)
    rw [if_neg other, Option.bind_some, erased]
    exact ⟨tree, kernel.cfsLeftmost, rfl, shape, first, created⟩

theorem RunQueue.cfsPickNext (queue : kernel.RunQueue (t :: rest)) :
    ∃ tree leftmost, kernel.cfsPickNext = some (some t, kernel.withQueue tree leftmost) ∧
      (kernel.withQueue tree leftmost).RunQueue rest := by
  obtain ⟨tree, leftmost, dequeued, remaining⟩ := @RunQueue.cfsDequeue kernel [] rest t queue
  refine ⟨tree, leftmost, ?_, remaining⟩
  unfold Kernel.cfsPickNext
  simp only [queue.leftmost, head?_cons, dequeued, Option.map_some]

theorem RunQueue.cfsPickNext_empty (queue : kernel.RunQueue []) : kernel.cfsPickNext = some (none, kernel) := by
  simp only [Kernel.cfsPickNext, queue.leftmost, head?_nil]

end

section

variable {kernel : Kernel} {nodes rest : List TaskId} {t prev : TaskId}

theorem task_saveContext (prev u : TaskId) : (kernel.saveContext prev).task u =
    if u = prev then (kernel.task prev).saveRsp kernel.cpu.rsp else kernel.task u :=
  kernel.task_modify prev u (Task.saveRsp · kernel.cpu.rsp)

theorem RunQueue.saveContext (queue : kernel.RunQueue nodes) (prev : TaskId) : (kernel.saveContext prev).RunQueue nodes :=
  queue.congr rfl rfl (Nat.le_refl _)

/-- The task is the current one, it is RUNNING and it is not the idle task. -/
def Executes (kernel : Kernel) (t : TaskId) : Prop :=
  kernel.getCurrentTaskPtr = some t ∧ (kernel.task t).pid ≠ pidIdle ∧ (kernel.task t).state = .running

instance (kernel : Kernel) (t : TaskId) : Decidable (kernel.Executes t) := inferInstanceAs (Decidable (_ ∧ _ ∧ _))

/-- The running task is put aside: it is queued if it could go on. -/
inductive Suspends (kernel : Kernel) (nodes : List TaskId) : Kernel → List TaskId → Prop where
  | nobody : kernel.getCurrentTaskPtr = none → Suspends kernel nodes kernel nodes
  | aside {prev : TaskId} : kernel.getCurrentTaskPtr = some prev → ¬kernel.Executes prev →
      Suspends kernel nodes (kernel.saveContext prev) nodes
  | queued {prev : TaskId} {tree : Links TaskId} {leftmost : Option TaskId} {before after : List TaskId} :
      kernel.Executes prev → nodes = before ++ after → (kernel.ByVRuntime nodes → kernel.ByVRuntime (before ++ prev :: after)) →
      Suspends kernel nodes (((kernel.saveContext prev).modify prev (Task.setState · .ready)).withQueue tree leftmost)
        (before ++ prev :: after)

/-- The choice of the next task: the first in the queue, or else the idle task. -/
inductive Picks (kernel : Kernel) : List TaskId → TaskId → Kernel → List TaskId → Prop where
  | first {next : TaskId} {rest : List TaskId} {tree : Links TaskId} {leftmost : Option TaskId} :
      kernel.RunQueue (next :: rest) → (kernel.withQueue tree leftmost).RunQueue rest →
      Picks kernel (next :: rest) next ((kernel.withQueue tree leftmost).raiseMinVRuntime (kernel.task next).vruntime) rest
  | idle {next : TaskId} : kernel.RunQueue [] → kernel.getTaskPID pidIdle = some next → Picks kernel [] next kernel []

theorem vruntime_put_aside (prev u : TaskId) :
    (((kernel.saveContext prev).modify prev (Task.setState · .ready)).task u).vruntime = (kernel.task u).vruntime := by
  rw [task_modify, task_saveContext, task_saveContext]
  split
  case isTrue eq => rw [eq, if_pos rfl]; rfl
  case isFalse => rfl

section

variable (queue : kernel.RunQueue nodes)
include queue

theorem RunQueue.switchOut (runs : kernel.getCurrentTaskPtr = some prev) (created : prev < kernel.nextTask)
    (absent : (kernel.task prev).state = .running → prev ∉ nodes) :
    ∃ middle waiting, kernel.switchOut prev = some middle ∧ kernel.Suspends nodes middle waiting ∧ middle.RunQueue waiting := by
  have fields : ((kernel.saveContext prev).task prev).pid = (kernel.task prev).pid ∧
      ((kernel.saveContext prev).task prev).state = (kernel.task prev).state := by
    rw [task_saveContext, if_pos rfl]
    exact ⟨rfl, rfl⟩
  unfold Kernel.switchOut
  dsimp only
  rw [fields.1, fields.2]
  by_cases goesOn : (kernel.task prev).pid ≠ pidIdle ∧ (kernel.task prev).state = .running
  · have notIdle : (((kernel.saveContext prev).modify prev (Task.setState · .ready)).task prev).pid ≠ pidIdle := by
      rw [task_modify, if_pos rfl]
      exact fun idle => goesOn.1 (fields.1.symm.trans idle)
    obtain ⟨tree, leftmost, before, after, enqueued, split, shape, sorted⟩ :=
      ((queue.saveContext prev).modify prev (Task.setState · .ready)).cfsEnqueue (absent goesOn.2) created notIdle
    have stillSorted : kernel.ByVRuntime nodes → kernel.ByVRuntime (before ++ prev :: after) := fun ord =>
      (sorted (ord.congr fun u _ => vruntime_put_aside prev u)).congr fun u _ => (vruntime_put_aside prev u).symm
    rw [if_pos goesOn]
    exact ⟨_, _, enqueued, .queued ⟨runs, goesOn⟩ split stillSorted, shape⟩
  · rw [if_neg goesOn]
    exact ⟨_, _, rfl, .aside runs fun executes => goesOn executes.2, queue.saveContext prev⟩

theorem RunQueue.chooseNext {picked : Kernel} (done : kernel.chooseNext = some (t, picked)) :
    ∃ rest, kernel.Picks nodes t picked rest := by
  cases nodes with
  | nil =>
    rw [Kernel.chooseNext, queue.cfsPickNext_empty] at done
    obtain ⟨idle, hf, eq⟩ := Option.map_eq_some_iff.mp done
    cases eq
    exact ⟨[], .idle queue hf⟩
  | cons next rest =>
    obtain ⟨tree, leftmost, ht, remaining⟩ := queue.cfsPickNext
    rw [Kernel.chooseNext, ht] at done
    cases done
    exact ⟨rest, .first queue remaining⟩

theorem RunQueue.schedule {after : Kernel} (done : kernel.schedule = some after)
    (created : ∀ prev, kernel.getCurrentTaskPtr = some prev → prev < kernel.nextTask)
    (absent : ∀ prev, kernel.getCurrentTaskPtr = some prev → (kernel.task prev).state = .running → prev ∉ nodes) :
    ∃ middle waiting next picked rest, kernel.Suspends nodes middle waiting ∧ middle.Picks waiting next picked rest ∧
      after = picked.switchIn next := by
  have suspended : ∃ middle waiting, kernel.Suspends nodes middle waiting ∧ middle.RunQueue waiting ∧
      (middle.chooseNext.map fun chosen => chosen.2.switchIn chosen.1) = some after := by
    unfold Kernel.schedule at done
    cases runs : kernel.getCurrentTaskPtr with
    | none =>
      rw [runs] at done
      exact ⟨kernel, nodes, .nobody runs, queue, done⟩
    | some prev =>
      obtain ⟨middle, waiting, out, suspends, shape⟩ := queue.switchOut runs (created prev runs) (absent prev runs)
      rw [runs] at done
      dsimp only at done
      rw [out] at done
      exact ⟨middle, waiting, suspends, shape, done⟩
  obtain ⟨middle, waiting, suspends, shape, chosen⟩ := suspended
  obtain ⟨⟨next, picked⟩, choice, rfl⟩ := Option.map_eq_some_iff.mp chosen
  obtain ⟨rest, picks⟩ := shape.chooseNext choice
  exact ⟨middle, waiting, next, picked, rest, suspends, picks, rfl⟩

theorem RunQueue.schedulerStart {after : Kernel} (done : kernel.schedulerStart = some after) :
    ∃ first tree leftmost rest cpu, after = { (kernel.withQueue tree leftmost).modify first (Task.setState · .running) with
        currentTaskIndex := after.currentTaskIndex, cpu := cpu } ∧
      after.RunQueue rest ∧ (∀ u ∈ rest, u ∈ nodes ∧ u ≠ first) ∧
      ((nodes = first :: rest ∧ after.currentTaskIndex = (kernel.task first).pid) ∨
        (nodes = [] ∧ kernel.taskArray pidIdle = some first ∧ after.currentTaskIndex = pidIdle)) := by
  cases nodes with
  | nil =>
    rw [Kernel.schedulerStart, queue.cfsPickNext_empty] at done
    obtain ⟨idle, held, rfl⟩ := Option.map_eq_some_iff.mp done
    exact ⟨idle, kernel.tree, kernel.cfsLeftmost, [], _, rfl, queue.congr rfl rfl (Nat.le_refl _),
      fun _ mem => (nomatch mem), .inr ⟨rfl, held, rfl⟩⟩
  | cons first rest =>
    obtain ⟨tree, leftmost, ht, remaining⟩ := queue.cfsPickNext
    rw [Kernel.schedulerStart, ht] at done
    cases done
    refine ⟨first, tree, leftmost, rest, _, rfl, remaining.congr rfl rfl (Nat.le_refl _), fun u mem => ?_, .inl ⟨rfl, rfl⟩⟩
    exact ⟨.tail _ mem, fun eq => (nodup_cons.mp queue.nodup).1 (eq ▸ mem)⟩

end

section

variable {middle picked : Kernel} {waiting : List TaskId} {next : TaskId}

section

variable (suspends : kernel.Suspends nodes middle waiting)
include suspends

theorem Suspends.tables :
    middle.taskArray = kernel.taskArray ∧ middle.nextTask = kernel.nextTask ∧ middle.minVRuntime = kernel.minVRuntime := by
  cases suspends <;> exact ⟨rfl, rfl, rfl⟩

theorem Suspends.other (ne : kernel.getCurrentTaskPtr ≠ some t) : middle.task t = kernel.task t := by
  cases suspends with
  | nobody => rfl
  | @aside prev runs =>
    have dist : t ≠ prev := fun eq => ne (eq ▸ runs)
    rw [task_saveContext, if_neg dist]
  | @queued prev _ _ _ _ executes =>
    have dist : t ≠ prev := fun eq => ne (eq ▸ executes.1)
    rw [task_withQueue, task_modify, if_neg dist, task_saveContext, if_neg dist]

theorem Suspends.fields (t : TaskId) :
    middle.task t = ((kernel.task t).saveRsp (middle.task t).rsp).setState (middle.task t).state := by
  by_cases runs : kernel.getCurrentTaskPtr = some t
  · cases suspends with
    | nobody => rfl
    | aside again =>
      obtain rfl := some.inj (runs.symm.trans again)
      rw [task_saveContext, if_pos rfl]
      rfl
    | queued executes =>
      obtain rfl := some.inj (runs.symm.trans executes.1)
      rw [task_withQueue, task_modify, if_pos rfl, task_saveContext, if_pos rfl]
      rfl
  · rw [suspends.other runs]
    rfl

theorem Suspends.mem_iff : t ∈ waiting ↔ t ∈ nodes ∨ kernel.Executes t := by
  cases suspends with
  | nobody nobodyRuns =>
    have idles : ¬kernel.Executes t := fun executes => nomatch executes.1.symm.trans nobodyRuns
    simp [idles]
  | aside runs stops =>
    have idles : ¬kernel.Executes t := fun executes => stops (some.inj (executes.1.symm.trans runs) ▸ executes)
    simp [idles]
  | @queued prev _ _ before after executes split =>
    have unique : kernel.Executes t ↔ t = prev :=
      ⟨fun also => some.inj (also.1.symm.trans executes.1), fun eq => eq ▸ executes⟩
    rw [split, unique, mem_append, mem_append, mem_cons]
    tauto

theorem Suspends.state (t : TaskId) : (kernel.Executes t ∧ (middle.task t).state = .ready) ∨
      (¬kernel.Executes t ∧ (middle.task t).state = (kernel.task t).state) := by
  cases suspends with
  | nobody nobodyRuns => exact .inr ⟨fun executes => (nomatch executes.1.symm.trans nobodyRuns), rfl⟩
  | @aside prev runs stops =>
    refine .inr ⟨fun executes => stops (some.inj (executes.1.symm.trans runs) ▸ executes), ?_⟩
    rw [task_saveContext]
    split
    case isTrue eq => exact eq ▸ rfl
    case isFalse => rfl
  | @queued prev _ _ _ _ executes =>
    rw [task_withQueue, task_modify]
    by_cases eq : t = prev
    · rw [if_pos eq]
      exact .inl ⟨eq ▸ executes, rfl⟩
    · rw [if_neg eq, task_saveContext, if_neg eq]
      exact .inr ⟨fun also => eq (some.inj (also.1.symm.trans executes.1)), rfl⟩

end

section

variable (picks : kernel.Picks nodes next picked rest)
include picks

theorem Picks.tables : ∃ tree leftmost minVRuntime,
    picked = { kernel with tree := tree, cfsLeftmost := leftmost, minVRuntime := minVRuntime } := by
  cases picks <;> exact ⟨_, _, _, rfl⟩

theorem Picks.task_switchIn (u : TaskId) : (picked.switchIn next).task u =
    if u = next then (kernel.task next).setState .running else kernel.task u := by
  obtain ⟨tree, leftmost, minVRuntime, rfl⟩ := picks.tables
  exact Kernel.task_modify _ next u (Task.setState · .running)

theorem Picks.tables_switchIn :
    (picked.switchIn next).taskArray = kernel.taskArray ∧ (picked.switchIn next).nextTask = kernel.nextTask ∧
      (picked.switchIn next).currentTaskIndex = (kernel.task next).pid := by
  obtain ⟨tree, leftmost, minVRuntime, rfl⟩ := picks.tables
  exact ⟨rfl, rfl, rfl⟩

theorem Picks.remaining : picked.RunQueue rest := by
  cases picks with
  | first _ queue => exact queue.congr rfl rfl (Nat.le_refl _)
  | idle queue => exact queue

theorem Picks.mem_rest (mem : t ∈ rest) : t ∈ nodes ∧ t ≠ next := by
  cases picks with
  | first queue =>
    refine ⟨.tail _ mem, fun eq => ?_⟩
    exact (nodup_cons.mp queue.nodup).1 (eq ▸ mem)
  | idle => exact nomatch mem

theorem Picks.chosen : next ∈ nodes ∨ kernel.getTaskPID pidIdle = some next := by
  cases picks with
  | first => exact .inl mem_cons_self
  | idle _ hf => exact .inr hf

end

end

end

end Kernel

end RosKernel.Tasking
