import Mathlib.Algebra.BigOperators.Group.Finset.Basic
import RosKernel.Tasking.Blocking

/-! The timer wheel and the walk through one of its buckets. -/

set_option autoImplicit false

namespace RosKernel.Tasking

open Library Memory List
open Function (update update_of_ne update_self)

namespace Kernel

/-- Each sleeping task is once in the bucket of its tick, which is still to be checked, and they
are counted. The counter is a 64-bit word. -/
structure TimerWheel (kernel : Kernel) (lists : Nat → List TaskId) : Prop where
  linked : ∀ index < timerWheelSize, Chain kernel.nextSleeper (kernel.sleepWheel index) (lists index)
  placed : ∀ index < timerWheelSize, ∀ t ∈ lists index, (kernel.task t).sleepTick % timerWheelSize = index
  pending : ∀ index < timerWheelSize, ∀ t ∈ lists index, kernel.lastCheckedTick < (kernel.task t).sleepTick
  created : ∀ index < timerWheelSize, ∀ t ∈ lists index, t < kernel.nextTask
  counted : kernel.totalSleepingTasks = ∑ index ∈ Finset.range timerWheelSize, (lists index).length
  word : kernel.totalSleepingTasks < 2 ^ 64

/-- What a task is when the check has woken it. -/
def wokenTask (kernel : Kernel) (t : TaskId) : Task := { kernel.task t with
  nextSleepQueue := none
  state := .ready
  sleepTick := 0
  vruntime := kernel.wakeVRuntime kernel.minVRuntime }

/-- A sleeper is taken off its bucket, of which `prev` comes before it, and is woken. -/
def wakeOne (kernel : Kernel) (index : Nat) (prev : Option TaskId) (t : TaskId) : Option Kernel :=
  ({ kernel with totalSleepingTasks := sub64 kernel.totalSleepingTasks 1 }.unlinkSleeper index prev
    (kernel.nextSleeper t)).wakeSleeper t

/-- The tasks are woken one after another, each of them with one `CFSEnqueue`. -/
inductive WakesEach : Kernel → List TaskId → Kernel → Prop where
  | done {kernel : Kernel} : WakesEach kernel [] kernel
  | wake {kernel middle after : Kernel} {index : Nat} {prev : Option TaskId} {t : TaskId} {woken : List TaskId} :
      kernel.wakeOne index prev t = some middle → WakesEach middle woken after → WakesEach kernel (t :: woken) after

/-- The listed tasks have been woken; of the other sleepers only the links are written, and of the
tasks that do not sleep nothing. -/
structure Woken (kernel after : Kernel) (lists : Nat → List TaskId) (woken : List TaskId) : Prop where
  awake : ∀ u ∈ woken, after.task u = kernel.wokenTask u
  asleep : ∀ u ∉ woken, after.task u = { kernel.task u with nextSleepQueue := (after.task u).nextSleepQueue }
  outside : ∀ u, (∀ index < timerWheelSize, u ∉ lists index) → after.task u = kernel.task u
  minVRuntime : after.minVRuntime = kernel.minVRuntime

section

variable {kernel middle after : Kernel} {lists : Nat → List TaskId} {index now : Nat} {before rest : List TaskId} {t : TaskId}
  {prev : Option TaskId} {nodes woken more : List TaskId} {due : TaskId → Bool}

theorem WakesEach.append (first : kernel.WakesEach woken middle) (snd : middle.WakesEach more after) :
    kernel.WakesEach (woken ++ more) after := by
  induction first with
  | done => exact snd
  | wake step _ ih => exact .wake step (ih snd)

theorem cfsEnqueue_shape (done : kernel.cfsEnqueue t = some after) :
    ∃ tree leftmost, after = kernel.withQueue tree leftmost := by
  unfold cfsEnqueue at done
  split at done
  · exact ⟨kernel.tree, kernel.cfsLeftmost, (Option.some.inj done).symm⟩
  · obtain ⟨ins, _, rfl⟩ := Option.map_eq_some_iff.mp done
    exact ⟨_, _, rfl⟩

theorem wakeOne_shape (done : kernel.wakeOne index prev t = some after) (ne : prev ≠ some t) :
    (∀ u, after.task u = if u = t then kernel.wokenTask t
      else { kernel.task u with nextSleepQueue := relinkNext kernel.nextSleeper prev (kernel.nextSleeper t) u }) ∧
    ∃ tree leftmost, after = { kernel with
      tree := tree
      cfsLeftmost := leftmost
      task := after.task
      sleepWheel := update kernel.sleepWheel index
        (relinkHead (kernel.sleepWheel index) prev (kernel.nextSleeper t))
      totalSleepingTasks := sub64 kernel.totalSleepingTasks 1 } := by
  obtain ⟨tree, leftmost, rfl⟩ := cfsEnqueue_shape done
  constructor
  · intro u
    rw [task_withQueue, task_modify]
    by_cases eq : u = t
    · rw [if_pos eq, if_pos eq, task_unlinkSleeper, if_neg ne]
      cases prev <;> rfl
    · rw [if_neg eq, if_neg eq, task_unlinkSleeper]
      by_cases isPrev : prev = some u
      · rw [if_pos isPrev, isPrev]
        simp [relinkNext]
      · rw [if_neg isPrev, relinkNext_of_ne isPrev]
        rfl
  · refine ⟨tree, leftmost, ?_⟩
    rw [← wheel_unlinkSleeper]
    cases prev <;> rfl

theorem TimerWheel.apart (wheel : kernel.TimerWheel lists) {other : Nat} (lt : index < timerWheelSize)
    (alsoSmall : other < timerWheelSize) (mem : t ∈ lists index) (also : t ∈ lists other) : index = other :=
  (wheel.placed index lt t mem).symm.trans (wheel.placed other alsoSmall t also)

theorem sleepers_update (lt : index < timerWheelSize) (shorter : List TaskId) :
    ∑ other ∈ Finset.range timerWheelSize, (update lists index shorter other).length + (lists index).length =
      ∑ other ∈ Finset.range timerWheelSize, (lists other).length + shorter.length := by
  have mem := Finset.mem_range.mpr lt
  rw [← Finset.add_sum_erase _ _ mem, ← Finset.add_sum_erase _ (fun other => (lists other).length) mem,
    update_self]
  have eq : ∀ other ∈ (Finset.range timerWheelSize).erase index,
      (update lists index shorter other).length = (lists other).length := fun other isOther => by
    rw [update_of_ne (Finset.ne_of_mem_erase isOther)]
  rw [Finset.sum_congr rfl eq]
  omega

theorem Woken.refl (kernel : Kernel) (lists : Nat → List TaskId) : kernel.Woken kernel lists [] :=
  ⟨fun _ mem => (nomatch mem), fun _ _ => rfl, fun _ _ => rfl, rfl⟩

theorem Woken.trans {left : Nat → List TaskId} (first : kernel.Woken middle lists woken) (second : middle.Woken after left more)
    (gone : ∀ index < timerWheelSize, ∀ u ∈ left index, u ∉ woken ∧ u ∈ lists index) :
    kernel.Woken after lists (woken ++ more) where
  awake u mem := by
    by_cases early : u ∈ woken
    · rw [second.outside u fun index small isLeft => (gone index small u isLeft).1 early]
      exact first.awake u early
    · have late : u ∈ more := (mem_append.mp mem).resolve_left early
      rw [second.awake u late]
      unfold wokenTask wakeVRuntime
      rw [first.asleep u early, first.minVRuntime]
  asleep u absent := by
    obtain ⟨notEarly, notLate⟩ := not_or.mp (mt mem_append.mpr absent)
    rw [second.asleep u notLate, first.asleep u notEarly]
  outside u sleepless := by
    rw [second.outside u fun index small isLeft => sleepless index small (gone index small u isLeft).2]
    exact first.outside u sleepless
  minVRuntime := second.minVRuntime.trans first.minVRuntime

theorem Woken.tick (woke : kernel.Woken after lists woken) (absent : t ∉ woken) :
    (after.task t).sleepTick = (kernel.task t).sleepTick := by
  rw [woke.asleep t absent]

section

variable (wheel : kernel.TimerWheel lists) (lt : index < timerWheelSize) (split : lists index = before ++ t :: rest)
include wheel lt split

theorem TimerWheel.fresh : t ∉ before ++ rest := by
  have chain : Chain kernel.nextSleeper (kernel.sleepWheel index) (before ++ t :: rest) := split ▸ wheel.linked index lt
  exact (nodup_cons.mp (perm_middle.nodup_iff.mp chain.nodup)).1

theorem TimerWheel.left {other : Nat} (isSmall : other < timerWheelSize) {u : TaskId}
    (mem : u ∈ update lists index (before ++ rest) other) : u ≠ t ∧ u ∈ lists other := by
  have fresh := wheel.fresh lt split
  by_cases h : other = index
  · subst h
    rw [update_self] at mem
    refine ⟨fun eq => fresh (eq ▸ mem), ?_⟩
    rw [split]
    exact mem_append.mpr ((mem_append.mp mem).imp id (mem_cons_of_mem t))
  · rw [update_of_ne h] at mem
    refine ⟨fun eq => h (wheel.apart isSmall lt (eq ▸ mem) ?_), mem⟩
    rw [split]
    exact mem_append_right _ mem_cons_self

end

theorem TimerWheel.wakeOne (wheel : kernel.TimerWheel lists) (lt : index < timerWheelSize)
    (split : lists index = before ++ t :: rest) (done : kernel.wakeOne index before.getLast? t = some after) :
    after.TimerWheel (update lists index (before ++ rest)) ∧ kernel.Woken after lists [t] := by
  have chain : Chain kernel.nextSleeper (kernel.sleepWheel index) (before ++ t :: rest) := split ▸ wheel.linked index lt
  have parts := nodup_append.mp chain.nodup
  have fresh := wheel.fresh lt split
  have last : before.getLast? ≠ some t := fun isLast => fresh (mem_append_left _ (mem_of_getLast? isLast))
  obtain ⟨tasks, tree, leftmost, shape⟩ := wakeOne_shape done last
  have linked : ∀ u, before.getLast? = some u → u ∈ lists index := fun u isLast => by
    rw [split]
    exact mem_append_left _ (mem_of_getLast? isLast)
  have woke : kernel.Woken after lists [t] := by
    refine ⟨fun u mem => ?_, fun u absent => ?_, fun u sleepless => ?_, by rw [shape]⟩
    · grind
    · grind
    · have other : u ≠ t := by
        rintro rfl
        apply sleepless index lt
        rw [split]
        exact mem_append_right _ mem_cons_self
      rw [tasks, if_neg other, relinkNext_of_ne fun isLast => sleepless index lt (linked u isLast)]
      rfl
  have ticks : ∀ u, u ≠ t → (after.task u).sleepTick = (kernel.task u).sleepTick := fun u other =>
    woke.tick fun mem => other (mem_singleton.mp mem)
  have links : ∀ u, u ≠ t → after.nextSleeper u = relinkNext kernel.nextSleeper before.getLast? (kernel.nextSleeper t) u := by
    intro u other
    unfold nextSleeper
    rw [tasks, if_neg other]
    rfl
  have left : ∀ other, ∀ u ∈ update lists index (before ++ rest) other, other < timerWheelSize →
      u ≠ t ∧ u ∈ lists other := fun other u mem isSmall => wheel.left lt split isSmall mem
  refine ⟨⟨fun other isSmall => ?_, fun other isSmall u mem => ?_, fun other isSmall u mem => ?_,
    fun other isSmall u mem => ?_, ?_, ?_⟩, woke⟩
  · have heads : after.sleepWheel = update kernel.sleepWheel index
        (relinkHead (kernel.sleepWheel index) before.getLast? (kernel.nextSleeper t)) := by rw [shape]
    rw [heads]
    by_cases h : other = index
    · subst h
      rw [update_self, update_self]
      have relinked := chain.relink parts.1 chain.suffix.2 fun u early late =>
        parts.2.2 u early u (mem_cons_of_mem t late) rfl
      exact relinked.congr fun u mem => links u fun eq => fresh (eq ▸ mem)
    · rw [update_of_ne h, update_of_ne h]
      refine (wheel.linked other isSmall).congr fun u mem => ?_
      have notLast : before.getLast? ≠ some u := fun isLast =>
        h (wheel.apart isSmall lt mem (linked u isLast))
      rw [links u (left other u (by rwa [update_of_ne h]) isSmall).1, relinkNext_of_ne notLast]
  · obtain ⟨dist, old⟩ := left other u mem isSmall
    rw [ticks u dist]
    exact wheel.placed other isSmall u old
  · obtain ⟨dist, old⟩ := left other u mem isSmall
    have tracker : after.lastCheckedTick = kernel.lastCheckedTick := by rw [shape]
    rw [ticks u dist, tracker]
    exact wheel.pending other isSmall u old
  · have names : after.nextTask = kernel.nextTask := by rw [shape]
    rw [names]
    exact wheel.created other isSmall u (left other u mem isSmall).2
  · have total := @sleepers_update lists index lt (before ++ rest)
    rw [split, ← wheel.counted, length_append, length_append, length_cons] at total
    have count : after.totalSleepingTasks = sub64 kernel.totalSleepingTasks 1 := by rw [shape]
    have word := wheel.word
    rw [count, sub64_eq (by omega) word]
    omega
  · rw [shape]
    exact Nat.mod_lt _ (by decide)

/-- No sleeper is in the run queue. -/
def SleepersApart (lists : Nat → List TaskId) (nodes : List TaskId) : Prop :=
  ∀ index < timerWheelSize, ∀ t ∈ lists index, t ∉ nodes

/-- The woken tasks that `CFSEnqueue` takes. -/
def runnable (kernel : Kernel) (woken : List TaskId) : List TaskId :=
  woken.filter fun t => (kernel.task t).pid ≠ pidIdle

theorem runnable_congr (eq : ∀ t, (after.task t).pid = (kernel.task t).pid) : after.runnable woken = kernel.runnable woken := by
  exact filter_congr fun t _ => by rw [eq t]

theorem runnable_subset (mem : t ∈ kernel.runnable woken) : t ∈ woken := (mem_filter.mp mem).1

theorem wakeOne_pid (done : kernel.wakeOne index prev t = some after) (ne : prev ≠ some t) (u : TaskId) :
    (after.task u).pid = (kernel.task u).pid := by
  rw [(wakeOne_shape done ne).1]
  split
  case isTrue eq => rw [eq]; rfl
  case isFalse => rfl

theorem RunQueue.wakeOne (queue : kernel.RunQueue nodes) (fresh : t ∉ nodes) (created : t < kernel.nextTask)
    (ne : prev ≠ some t) : ∃ after longer, kernel.wakeOne index prev t = some after ∧ after.RunQueue longer ∧
      longer.Perm (kernel.runnable [t] ++ nodes) := by
  obtain ⟨unlinked, isUnlinked⟩ : ∃ unlinked, unlinked =
    ({ kernel with totalSleepingTasks := sub64 kernel.totalSleepingTasks 1 }.unlinkSleeper index prev
      (kernel.nextSleeper t)) := ⟨_, rfl⟩
  have eq := @sameQueue_unlinkSleeper { kernel with totalSleepingTasks := sub64 kernel.totalSleepingTasks 1 } index prev
    (kernel.nextSleeper t)
  rw [← isUnlinked] at eq
  have pid : (unlinked.task t).pid = (kernel.task t).pid := by
    rw [isUnlinked, task_unlinkSleeper, if_neg ne]
  obtain ⟨woken, isWoken⟩ : ∃ woken, woken = unlinked.modify t fun task => { task with
      nextSleepQueue := none
      state := .ready
      sleepTick := 0
      vruntime := unlinked.wakeVRuntime unlinked.minVRuntime } := ⟨_, rfl⟩
  have queued : woken.RunQueue nodes := by
    rw [isWoken]
    exact (eq.runQueue (queue.congr rfl rfl (Nat.le_refl _))).modify t _
  have wokenPid : (woken.task t).pid = (kernel.task t).pid := by
    rw [isWoken, task_modify, if_pos rfl]
    exact pid
  have enqueues : kernel.wakeOne index prev t = woken.cfsEnqueue t := by
    rw [isWoken, isUnlinked]
    rfl
  rw [enqueues]
  by_cases idle : (kernel.task t).pid = pidIdle
  · refine ⟨woken, nodes, ?_, queued, ?_⟩
    · unfold Kernel.cfsEnqueue
      rw [if_pos (wokenPid.trans idle)]
    · have none : kernel.runnable [t] = [] := by simp [runnable, idle]
      rw [none, nil_append]
  · have isCreated : t < woken.nextTask := by
      rw [isWoken]
      exact eq.names ▸ created
    obtain ⟨tree, leftmost, early, late, enqueued, split, shape, _⟩ :=
      queued.cfsEnqueue fresh isCreated (wokenPid ▸ idle)
    refine ⟨_, _, enqueued, shape, ?_⟩
    have one : kernel.runnable [t] = [t] := by simp [runnable, idle]
    rw [one, split]
    exact perm_middle

theorem TimerWheel.wakeBucket {rounds : Nat} (wheel : kernel.TimerWheel lists) (lt : index < timerWheelSize)
    (split : lists index = before ++ rest) (expired : ∀ t ∈ rest, due t = decide ((kernel.task t).sleepTick ≤ now))
    (done : wakeBucket index now rounds kernel before.getLast? rest.head? = some after) :
    kernel.WakesEach (rest.filter due) after ∧
      after.TimerWheel (update lists index (before ++ rest.filter (!due ·))) ∧
      kernel.Woken after lists (rest.filter due) := by
  induction rest generalizing kernel lists before rounds with
  | nil =>
    have eq : after = kernel := by
      cases rounds <;> exact (Option.some.inj done).symm
    have whole : update lists index (before ++ [].filter (!due ·)) = lists := by
      rw [filter_nil, ← split, Function.update_eq_self]
    rw [whole, eq]
    exact ⟨.done, wheel, .refl kernel lists⟩
  | cons t rest ih =>
    cases rounds with
    | zero => exact nomatch done
    | succ rounds =>
      have chain : Chain kernel.nextSleeper (kernel.sleepWheel index) (before ++ t :: rest) := split ▸ wheel.linked index lt
      have next : kernel.nextSleeper t = rest.head? := Chain.next_eq chain
      have mine := expired t mem_cons_self
      unfold Kernel.wakeBucket at done
      dsimp only [head?_cons] at done
      by_cases isDue : (kernel.task t).sleepTick ≤ now
      · rw [if_pos isDue, next] at done
        obtain ⟨middle, woken, remaining⟩ := Option.bind_eq_some_iff.mp done
        have step : kernel.wakeOne index before.getLast? t = some middle := by
          unfold Kernel.wakeOne
          rw [next]
          exact woken
        obtain ⟨shorter, woke⟩ := wheel.wakeOne lt split step
        have others : ∀ u ∈ rest, u ∉ [t] := fun u mem eq =>
          wheel.fresh lt split (mem_append_right _ (mem_singleton.mp eq ▸ mem))
        obtain ⟨history, scanned, further⟩ := ih shorter (by rw [update_self])
          (fun u mem => by
            rw [woke.tick (others u mem)]
            exact expired u (mem_cons_of_mem t mem)) remaining
        rw [Function.update_idem] at scanned
        have isTrue : due t = true := mine.trans (decide_eq_true isDue)
        rw [filter_cons_of_pos isTrue, filter_cons_of_neg (by simp [isTrue])]
        refine ⟨.wake step history, scanned, woke.trans further fun other isSmall u mem => ?_⟩
        obtain ⟨dist, old⟩ := wheel.left lt split isSmall mem
        exact ⟨fun eq => dist (mem_singleton.mp eq), old⟩
      · rw [if_neg isDue, next] at done
        have last : some t = (before ++ [t]).getLast? := by simp
        rw [last] at done
        obtain ⟨history, scanned, kept⟩ := ih wheel (by rw [split, append_assoc]; rfl)
          (fun u mem => expired u (mem_cons_of_mem t mem)) done
        have isFalse : due t = false := mine.trans (decide_eq_false isDue)
        rw [filter_cons_of_neg (by simp [isFalse]), filter_cons_of_pos (by simp [isFalse])]
        refine ⟨history, ?_, kept⟩
        rwa [append_assoc] at scanned

theorem RunQueue.wakeBucket {rounds : Nat} (queue : kernel.RunQueue nodes) (wheel : kernel.TimerWheel lists)
    (ne : SleepersApart lists nodes) (lt : index < timerWheelSize) (split : lists index = before ++ rest)
    (expired : ∀ t ∈ rest, due t = decide ((kernel.task t).sleepTick ≤ now)) (enough : rest.length ≤ rounds) :
    ∃ after longer, wakeBucket index now rounds kernel before.getLast? rest.head? = some after ∧ after.RunQueue longer ∧
      longer.Perm (kernel.runnable (rest.filter due) ++ nodes) ∧
      (∀ t, (after.task t).pid = (kernel.task t).pid) ∧ after.nextTask = kernel.nextTask := by
  induction rest generalizing kernel lists before rounds nodes with
  | nil =>
    refine ⟨kernel, nodes, ?_, queue, List.Perm.refl _, fun _ => rfl, rfl⟩
    cases rounds <;> rfl
  | cons t rest ih =>
    cases rounds with
    | zero => exact absurd enough (Nat.not_succ_le_zero _)
    | succ rounds =>
      have fewer : rest.length ≤ rounds := Nat.le_of_succ_le_succ enough
      have chain : Chain kernel.nextSleeper (kernel.sleepWheel index) (before ++ t :: rest) := split ▸ wheel.linked index lt
      have next : kernel.nextSleeper t = rest.head? := Chain.next_eq chain
      have mine := expired t mem_cons_self
      have isHere : t ∈ lists index := by
        rw [split]
        exact mem_append_right _ mem_cons_self
      have fresh := wheel.fresh lt split
      have last : before.getLast? ≠ some t := fun isLast => fresh (mem_append_left _ (mem_of_getLast? isLast))
      unfold Kernel.wakeBucket
      dsimp only [head?_cons]
      by_cases isDue : (kernel.task t).sleepTick ≤ now
      · obtain ⟨middle, mid, step, queued, order⟩ :=
          @RunQueue.wakeOne kernel index t before.getLast? nodes queue (ne index lt t isHere)
            (wheel.created index lt t isHere) last
        obtain ⟨shorter, woke⟩ := wheel.wakeOne lt split step
        have pids := wakeOne_pid step last
        have names : middle.nextTask = kernel.nextTask := by
          obtain ⟨tree, leftmost, shape⟩ := (wakeOne_shape step last).2
          rw [shape]
        have stillApart : SleepersApart (update lists index (before ++ rest)) mid := by
          intro other isSmall u mem inQueue
          have old := wheel.left lt split isSmall mem
          rcases mem_append.mp (order.subset inQueue) with isIt | wasQueued
          · exact old.1 (mem_singleton.mp (runnable_subset isIt))
          · exact ne other isSmall u old.2 wasQueued
        obtain ⟨after, longer, walked, shape, perm, samePids, sameNames⟩ := ih queued shorter stillApart
          (by rw [update_self]) (fun u mem => by
            rw [woke.tick fun eq => fresh (mem_append_right _ (mem_singleton.mp eq ▸ mem))]
            exact expired u (mem_cons_of_mem t mem)) fewer
        have isTrue : due t = true := mine.trans (decide_eq_true isDue)
        refine ⟨after, longer, ?_, shape, ?_, fun u => (samePids u).trans (pids u), sameNames.trans names⟩
        · rw [if_pos isDue, next]
          refine Option.bind_eq_some_iff.mpr ⟨middle, ?_, walked⟩
          rw [← next]
          exact step
        · rw [filter_cons_of_pos isTrue, ← singleton_append]
          have parts : kernel.runnable ([t] ++ rest.filter due) = kernel.runnable [t] ++ kernel.runnable (rest.filter due) :=
            filter_append ..
          rw [runnable_congr pids] at perm
          rw [parts, append_assoc]
          exact (perm.trans (List.Perm.append_left _ order)).trans (perm_append_comm_assoc ..)
      · have isFalse : due t = false := mine.trans (decide_eq_false isDue)
        have prev : some t = (before ++ [t]).getLast? := by simp
        rw [if_neg isDue, next, prev, filter_cons_of_neg (by simp [isFalse])]
        exact ih queue wheel ne (by rw [split, append_assoc]; rfl)
          (fun u mem => expired u (mem_cons_of_mem t mem)) fewer

end

end Kernel

end RosKernel.Tasking
