import RosKernel.Tasking.TimerWheel

/-! A whole check of the timer wheel: the scan comes to every sleeper that is due. -/

set_option autoImplicit false

namespace RosKernel.Tasking

open Library Memory
open Function (update update_of_ne update_self)

namespace Kernel

section

variable {kernel middle after : Kernel} {lists : Nat → List TaskId} {index now : Nat} {before rest : List TaskId} {t : TaskId}
  {prev : Option TaskId} {nodes woken more : List TaskId} {due : TaskId → Bool}

/-- What the scan of these ticks wakes, bucket by bucket. -/
def expiredAt (due : TaskId → Bool) : List Nat → (Nat → List TaskId) → List TaskId
  | [], _ => []
  | tick :: ticks, lists =>
    let index := tick % timerWheelSize
    (lists index).filter due ++ expiredAt due ticks (update lists index ((lists index).filter (!due ·)))

/-- What the scan of these ticks leaves in the buckets. -/
def pruned (due : TaskId → Bool) (ticks : List Nat) (lists : Nat → List TaskId) (index : Nat) : List TaskId :=
  if ∃ tick ∈ ticks, tick % timerWheelSize = index then (lists index).filter (!due ·) else lists index

theorem pruned_cons (tick : Nat) (ticks : List Nat) :
    pruned due ticks (update lists (tick % timerWheelSize) ((lists (tick % timerWheelSize)).filter (!due ·))) =
      pruned due (tick :: ticks) lists := by
  funext index
  unfold pruned
  by_cases h : index = tick % timerWheelSize
  · subst h
    simp [List.filter_filter]
  · have other : tick % timerWheelSize ≠ index := Ne.symm h
    rw [update_of_ne h]
    simp [other]

theorem mem_expiredAt (ticks : List Nat) : t ∈ expiredAt due ticks lists ↔
    due t = true ∧ ∃ tick ∈ ticks, t ∈ lists (tick % timerWheelSize) := by
  induction ticks generalizing lists with
  | nil => simp [expiredAt]
  | cons tick ticks ih =>
    simp only [expiredAt, List.mem_append, List.mem_filter, ih, List.mem_cons, exists_eq_or_imp]
    constructor
    · rintro (⟨mem, isDue⟩ | ⟨isDue, other, scanned, mem⟩)
      · exact ⟨isDue, .inl mem⟩
      · refine ⟨isDue, .inr ⟨other, scanned, ?_⟩⟩
        by_cases h : other % timerWheelSize = tick % timerWheelSize
        · grind
        · rwa [update_of_ne h] at mem
    · rintro ⟨isDue, mem | ⟨other, scanned, mem⟩⟩
      · exact .inl ⟨mem, isDue⟩
      · by_cases h : other % timerWheelSize = tick % timerWheelSize
        · exact .inl ⟨h ▸ mem, isDue⟩
        · grind

theorem nodup_expiredAt (ticks : List Nat) (nodup : ∀ index < timerWheelSize, (lists index).Nodup)
    (dist : ∀ index < timerWheelSize, ∀ other < timerWheelSize, ∀ t ∈ lists index, t ∈ lists other → index = other) :
    (expiredAt due ticks lists).Nodup := by
  induction ticks generalizing lists with
  | nil => exact List.nodup_nil
  | cons tick ticks ih =>
    have lt : tick % timerWheelSize < timerWheelSize := Nat.mod_lt _ (by decide)
    have subset : ∀ index, ∀ t ∈ update lists (tick % timerWheelSize)
        ((lists (tick % timerWheelSize)).filter (!due ·)) index, t ∈ lists index := by
      intro index t mem
      by_cases h : index = tick % timerWheelSize
      · grind
      · rwa [update_of_ne h] at mem
    refine List.nodup_append.mpr ⟨(nodup _ lt).filter _, ?_, ?_⟩
    · apply ih
      · intro index isSmall
        by_cases h : index = tick % timerWheelSize
        · grind
        · rw [update_of_ne h]
          exact nodup index isSmall
      · grind
    · rintro t first u snd rfl
      obtain ⟨mem, isDue⟩ := List.mem_filter.mp first
      obtain ⟨_, other, _, again⟩ := (mem_expiredAt ticks).mp snd
      have h := dist _ lt _ (Nat.mod_lt _ (by decide)) t mem (subset _ t again)
      rw [← h, update_self] at again
      simp [isDue] at again

theorem TimerWheel.stays (wheel : kernel.TimerWheel lists) (lt : index < timerWheelSize) {other : Nat}
    (isSmall : other < timerWheelSize) (mem : t ∈ update lists index ((lists index).filter (!due ·)) other) :
    t ∉ (lists index).filter due ∧ t ∈ lists other := by
  by_cases h : other = index
  · grind
  · rw [update_of_ne h] at mem
    exact ⟨fun also => h (wheel.apart isSmall lt mem (List.mem_filter.mp also).1), mem⟩

theorem TimerWheel.wakeBuckets {ticks : List Nat} (wheel : kernel.TimerWheel lists)
    (expired : ∀ index < timerWheelSize, ∀ t ∈ lists index, due t = decide ((kernel.task t).sleepTick ≤ now))
    (done : wakeBuckets now ticks kernel = some after) :
    kernel.WakesEach (expiredAt due ticks lists) after ∧ after.TimerWheel (pruned due ticks lists) ∧
      kernel.Woken after lists (expiredAt due ticks lists) := by
  induction ticks generalizing kernel lists with
  | nil =>
    cases done
    have whole : pruned due [] lists = lists := by
      funext index
      simp [pruned]
    rw [whole]
    exact ⟨.done, wheel, .refl _ lists⟩
  | cons tick ticks ih =>
    have lt : tick % timerWheelSize < timerWheelSize := Nat.mod_lt _ (by decide)
    obtain ⟨middle, first, remaining⟩ := Option.bind_eq_some_iff.mp done
    rw [(wheel.linked _ lt).head_eq] at first
    obtain ⟨history, left, kept⟩ := @TimerWheel.wakeBucket kernel middle lists _ now [] _ due _ wheel lt rfl (expired _ lt) first
    rw [List.nil_append] at left
    obtain ⟨later, scanned, still⟩ := ih left (fun index isSmall t mem => by
      obtain ⟨notWoken, old⟩ := wheel.stays lt isSmall mem
      rw [kept.tick notWoken]
      exact expired index isSmall t old) remaining
    rw [pruned_cons] at scanned
    exact ⟨history.append later, scanned, kept.trans still fun index isSmall t mem => wheel.stays lt isSmall mem⟩

theorem TimerWheel.length_le_fuel (wheel : kernel.TimerWheel lists) (lt : index < timerWheelSize) :
    (lists index).length ≤ kernel.fuel := by
  have within : lists index ⊆ List.range kernel.nextTask := fun t mem =>
    List.mem_range.mpr (wheel.created index lt t mem)
  have bound := (List.Nodup.subperm (wheel.linked index lt).nodup within).length_le
  rw [List.length_range] at bound
  exact Nat.le_succ_of_le bound

theorem RunQueue.wakeBuckets {ticks : List Nat} (queue : kernel.RunQueue nodes) (wheel : kernel.TimerWheel lists)
    (ne : SleepersApart lists nodes)
    (expired : ∀ index < timerWheelSize, ∀ t ∈ lists index, due t = decide ((kernel.task t).sleepTick ≤ now)) :
    ∃ after longer, wakeBuckets now ticks kernel = some after ∧ after.RunQueue longer ∧
      longer.Perm (kernel.runnable (expiredAt due ticks lists) ++ nodes) := by
  induction ticks generalizing kernel lists nodes with
  | nil => exact ⟨kernel, nodes, rfl, queue, List.Perm.refl _⟩
  | cons tick ticks ih =>
    have lt : tick % timerWheelSize < timerWheelSize := Nat.mod_lt _ (by decide)
    obtain ⟨middle, mid, walked, shape, order, pids, _⟩ := @RunQueue.wakeBucket kernel lists _ now [] _ nodes due _
      queue wheel ne lt rfl (expired _ lt) (wheel.length_le_fuel lt)
    obtain ⟨_, left, kept⟩ := @TimerWheel.wakeBucket kernel middle lists _ now [] _ due _ wheel lt rfl (expired _ lt) walked
    have stillApart : SleepersApart (update lists (tick % timerWheelSize)
        ((lists (tick % timerWheelSize)).filter (!due ·))) mid := by
      intro index isSmall t mem inQueue
      obtain ⟨notWoken, old⟩ := wheel.stays lt isSmall mem
      rcases List.mem_append.mp (order.subset inQueue) with woken | wasQueued
      · exact notWoken (runnable_subset woken)
      · exact ne index isSmall t old wasQueued
    obtain ⟨after, longer, scanned, queued, perm⟩ := ih shape left stillApart fun index isSmall t mem => by
      obtain ⟨notWoken, old⟩ := wheel.stays lt isSmall mem
      rw [kept.tick notWoken]
      exact expired index isSmall t old
    refine ⟨after, longer, ?_, queued, ?_⟩
    · refine Option.bind_eq_some_iff.mpr ⟨middle, ?_, scanned⟩
      rw [(wheel.linked _ lt).head_eq]
      exact walked
    · have parts : kernel.runnable (expiredAt due (tick :: ticks) lists) =
          kernel.runnable ((lists (tick % timerWheelSize)).filter due) ++ kernel.runnable (expiredAt due ticks
            (update lists (tick % timerWheelSize) ((lists (tick % timerWheelSize)).filter (!due ·)))) :=
        List.filter_append ..
      rw [runnable_congr pids] at perm
      rw [parts, List.append_assoc]
      exact (perm.trans (List.Perm.append_left _ order)).trans (List.perm_append_comm_assoc ..)

/-- The ticks that the check scans. -/
def scannedTicks (kernel : Kernel) : List Nat :=
  let startTick := if timerWheelSize < kernel.lapicTicks - kernel.lastCheckedTick
    then kernel.lapicTicks - timerWheelSize + 1 else kernel.lastCheckedTick + 1
  List.range' startTick (kernel.lapicTicks + 1 - startTick)

/-- The scan comes to the bucket of every tick since the last check, or to every bucket. -/
theorem scannedTicks_cover {tick : Nat} (recent : kernel.lastCheckedTick < tick) (isDue : tick ≤ kernel.lapicTicks) :
    ∃ other ∈ kernel.scannedTicks, other % timerWheelSize = tick % timerWheelSize := by
  unfold scannedTicks timerWheelSize
  simp only [List.mem_range'_1]
  split
  · refine ⟨tick + 512 * ((kernel.lapicTicks - tick) / 512), ?_, Nat.add_mul_mod_self_left ..⟩
    omega
  · exact ⟨tick, by omega, rfl⟩

theorem TimerWheel.track {left : Nat → List TaskId} (wheel : kernel.TimerWheel lists)
    (same : ∀ index < timerWheelSize, left index = lists index)
    (future : ∀ index < timerWheelSize, ∀ t ∈ lists index, now < (kernel.task t).sleepTick) :
    { kernel with lastCheckedTick := now }.TimerWheel left where
  linked index small := same index small ▸ wheel.linked index small
  placed index small := same index small ▸ wheel.placed index small
  pending index small := same index small ▸ future index small
  created index small := same index small ▸ wheel.created index small
  counted := wheel.counted.trans (Finset.sum_congr rfl fun index mem => by rw [same index (Finset.mem_range.mp mem)])
  word := wheel.word

theorem TimerWheel.empty (wheel : kernel.TimerWheel lists) (none : kernel.totalSleepingTasks = 0) (lt : index < timerWheelSize) :
    lists index = [] := by
  have total := wheel.counted.symm.trans none
  have each := Finset.sum_eq_zero_iff.mp total index (Finset.mem_range.mpr lt)
  exact List.eq_nil_of_length_eq_zero each

/-- The bucket without the sleepers that are due at `now`. -/
def later (kernel : Kernel) (lists : Nat → List TaskId) (now index : Nat) : List TaskId :=
  (lists index).filter fun t => now < (kernel.task t).sleepTick

/-- The check wakes `woken`, which are the sleepers that are due, each of them once. It ends if the
run queue is well formed and holds no sleeper. -/
structure WakesDue (kernel : Kernel) (lists : Nat → List TaskId) (woken : List TaskId) : Prop where
  nodup : woken.Nodup
  expired : ∀ t, t ∈ woken ↔ (∃ index < timerWheelSize, t ∈ lists index) ∧ (kernel.task t).sleepTick ≤ kernel.lapicTicks
  wakes : ∀ after, kernel.checkSleepingTasks = some after → ∃ scanned, kernel.WakesEach woken scanned ∧
    kernel.Woken scanned lists woken ∧ after = { scanned with lastCheckedTick := kernel.lapicTicks } ∧
    after.TimerWheel (kernel.later lists kernel.lapicTicks)
  ends : ∀ nodes, kernel.RunQueue nodes → SleepersApart lists nodes → ∃ after longer,
    kernel.checkSleepingTasks = some after ∧ after.RunQueue longer ∧ longer.Perm (kernel.runnable woken ++ nodes)

section

variable (wheel : kernel.TimerWheel lists)
include wheel

theorem TimerWheel.wakesNone
    (future : ∀ index < timerWheelSize, ∀ t ∈ lists index, kernel.lapicTicks < (kernel.task t).sleepTick)
    (checked : kernel.checkSleepingTasks = some { kernel with lastCheckedTick := kernel.lapicTicks }) :
    kernel.WakesDue lists [] where
  nodup := List.nodup_nil
  expired t := by
    refine iff_of_false List.not_mem_nil ?_
    rintro ⟨⟨index, lt, mem⟩, isDue⟩
    exact absurd isDue (Nat.not_le_of_lt (future index lt t mem))
  wakes after done := by
    obtain rfl := Option.some.inj (checked.symm.trans done)
    refine ⟨kernel, .done, .refl kernel lists, rfl, wheel.track (fun index lt => ?_) future⟩
    exact List.filter_eq_self.mpr fun t mem => decide_eq_true (future index lt t mem)
  ends nodes queue _ := ⟨_, nodes, checked, queue.congr rfl rfl (Nat.le_refl _), List.Perm.refl _⟩

theorem TimerWheel.wakesScanned {due : TaskId → Bool}
    (isDue : due = fun t => decide ((kernel.task t).sleepTick ≤ kernel.lapicTicks))
    (checked : kernel.checkSleepingTasks = (Kernel.wakeBuckets kernel.lapicTicks kernel.scannedTicks kernel).map fun scanned => { scanned with lastCheckedTick := kernel.lapicTicks }) :
    kernel.WakesDue lists (expiredAt due kernel.scannedTicks lists) := by
  have expired : ∀ index < timerWheelSize, ∀ t ∈ lists index,
      due t = decide ((kernel.task t).sleepTick ≤ kernel.lapicTicks) := fun index _ t _ => congrFun isDue t
  have covered : ∀ index < timerWheelSize, ∀ t ∈ lists index, due t = true →
      ∃ tick ∈ kernel.scannedTicks, tick % timerWheelSize = index := by
    intro index lt t mem isTrue
    rw [isDue] at isTrue
    obtain ⟨tick, scanned, h⟩ := scannedTicks_cover (wheel.pending index lt t mem) (of_decide_eq_true isTrue)
    exact ⟨tick, scanned, h.trans (wheel.placed index lt t mem)⟩
  refine ⟨?_, fun t => ?_, fun after done => ?_, fun nodes queue ne => ?_⟩
  · exact nodup_expiredAt _ (fun index lt => (wheel.linked index lt).nodup)
      fun index lt other alsoSmall t mem also => wheel.apart lt alsoSmall mem also
  · rw [mem_expiredAt]
    constructor
    · rintro ⟨isTrue, tick, _, mem⟩
      rw [isDue] at isTrue
      exact ⟨⟨_, Nat.mod_lt _ (by decide), mem⟩, of_decide_eq_true isTrue⟩
    · rintro ⟨⟨index, lt, mem⟩, isPast⟩
      have isTrue : due t = true := by
        rw [isDue]
        exact decide_eq_true isPast
      obtain ⟨tick, scanned, h⟩ := covered index lt t mem isTrue
      exact ⟨isTrue, tick, scanned, h.symm ▸ mem⟩
  · rw [checked] at done
    obtain ⟨scanned, walked, rfl⟩ := Option.map_eq_some_iff.mp done
    obtain ⟨history, left, woke⟩ := wheel.wakeBuckets expired walked
    have remains : ∀ index < timerWheelSize, kernel.later lists kernel.lapicTicks index =
        pruned due kernel.scannedTicks lists index := by
      intro index lt
      have negated : ∀ t, (!due t) = decide (kernel.lapicTicks < (kernel.task t).sleepTick) := by
        intro t
        rw [isDue, ← decide_not]
        exact decide_eq_decide.mpr Nat.not_le
      unfold pruned later
      split
      case isTrue => exact List.filter_congr fun t _ => (negated t).symm
      case isFalse unscanned =>
        -- a bucket that the scan leaves out has no sleeper that is due
        refine List.filter_eq_self.mpr fun t mem => ?_
        rw [← negated, Bool.not_eq_true']
        exact Bool.eq_false_iff.mpr fun isTrue => unscanned (covered index lt t mem isTrue)
    refine ⟨scanned, history, woke, rfl, left.track remains fun index lt t mem => ?_⟩
    rw [← remains index lt] at mem
    have future := of_decide_eq_true (List.mem_filter.mp mem).2
    have notWoken : t ∉ expiredAt due kernel.scannedTicks lists := by
      intro also
      have past := ((mem_expiredAt _).mp also).1
      rw [isDue] at past
      exact Nat.not_le_of_lt future (of_decide_eq_true past)
    rw [woke.tick notWoken]
    exact future
  · obtain ⟨scanned, longer, walked, shape, order⟩ := queue.wakeBuckets wheel ne expired
    refine ⟨{ scanned with lastCheckedTick := kernel.lapicTicks }, longer, ?_, shape.congr rfl rfl (Nat.le_refl _), order⟩
    rw [checked, walked]
    rfl

theorem TimerWheel.wakesDue (ord : kernel.lastCheckedTick ≤ kernel.lapicTicks) (word : kernel.lapicTicks < 2 ^ 64 - 1) :
    ∃ woken, kernel.WakesDue lists woken := by
  have unfolded : kernel.checkSleepingTasks =
      if kernel.totalSleepingTasks = 0 then some { kernel with lastCheckedTick := kernel.lapicTicks }
      else if kernel.lapicTicks ≤ kernel.lastCheckedTick then some kernel
      else if kernel.lapicTicks + 1 = 2 ^ 64 then none
      else (Kernel.wakeBuckets kernel.lapicTicks kernel.scannedTicks kernel).map
        fun scanned => { scanned with lastCheckedTick := kernel.lapicTicks } := rfl
  by_cases none : kernel.totalSleepingTasks = 0
  · rw [if_pos none] at unfolded
    refine ⟨[], wheel.wakesNone (fun index lt t mem => ?_) unfolded⟩
    rw [wheel.empty none lt] at mem
    exact nomatch mem
  rw [if_neg none] at unfolded
  by_cases quiet : kernel.lapicTicks ≤ kernel.lastCheckedTick
  · rw [if_pos quiet] at unfolded
    have tracker : kernel = { kernel with lastCheckedTick := kernel.lapicTicks } := by
      have eq := Nat.le_antisymm quiet ord
      cases kernel
      cases eq
      rfl
    refine ⟨[], wheel.wakesNone (fun index lt t mem => ?_) (unfolded.trans (congrArg some tracker))⟩
    exact Nat.lt_of_le_of_lt quiet (wheel.pending index lt t mem)
  · rw [if_neg quiet, if_neg (by omega)] at unfolded
    exact ⟨_, wheel.wakesScanned rfl unfolded⟩

end

theorem TimerWheel.wheelHolds (wheel : kernel.TimerWheel lists) {indices : List Nat}
    (lt : ∀ index ∈ indices, index < timerWheelSize) :
    kernel.wheelHolds t indices = some (decide (∃ index ∈ indices, t ∈ lists index)) := by
  induction indices with
  | nil => simp [Kernel.wheelHolds]
  | cons index rest ih =>
    have isSmall := lt index List.mem_cons_self
    have chain := wheel.linked index isSmall
    obtain ⟨before, after, split, pass, halt⟩ := exists_halt (· == t) (lists index)
    have bound := wheel.length_le_fuel isSmall
    rw [split, List.length_append] at bound
    have hf := seek_eq none (split ▸ chain) pass halt (Nat.le_trans (Nat.le_add_right ..) bound)
    unfold Kernel.wheelHolds
    rw [hf, Option.bind_some]
    have rest := ih fun other mem => lt other (List.mem_cons_of_mem index mem)
    cases after with
    | nil =>
      have absent : t ∉ lists index := by
        rw [split, List.append_nil]
        intro mem
        simpa using pass t mem
      simp [rest, absent]
    | cons node after =>
      have isIt : node = t := by simpa using halt node rfl
      have present : t ∈ lists index := by
        rw [split, isIt]
        exact List.mem_append_right _ List.mem_cons_self
      simp [present]

/-- The buckets after `AddToSleepList`. -/
def withSleeper (kernel : Kernel) (lists : Nat → List TaskId) (t : TaskId) : Nat → List TaskId :=
  let index := (kernel.task t).sleepTick % timerWheelSize
  if t ∈ lists index then lists else update lists index (t :: lists index)

theorem TimerWheel.addToSleepList (wheel : kernel.TimerWheel lists) (ord : kernel.lastCheckedTick ≤ kernel.lapicTicks)
    (future : kernel.lapicTicks < (kernel.task t).sleepTick) (created : t < kernel.nextTask)
    (room : kernel.totalSleepingTasks + 1 < 2 ^ 64) :
    ∃ after, kernel.addToSleepList t = some after ∧ after.TimerWheel (kernel.withSleeper lists t) := by
  obtain ⟨index, isIndex⟩ : ∃ index, index = (kernel.task t).sleepTick % timerWheelSize := ⟨_, rfl⟩
  have lt : index < timerWheelSize := isIndex ▸ Nat.mod_lt _ (by decide)
  have held : (∃ other ∈ List.range timerWheelSize, t ∈ lists other) ↔ t ∈ lists index := by
    constructor
    · rintro ⟨other, inRange, mem⟩
      rw [isIndex, wheel.placed other (List.mem_range.mp inRange) t mem]
      exact mem
    · exact fun mem => ⟨index, List.mem_range.mpr lt, mem⟩
  have searched := @TimerWheel.wheelHolds kernel lists t wheel (List.range timerWheelSize) fun _ => List.mem_range.mp
  unfold Kernel.addToSleepList withSleeper
  rw [if_neg (by omega), searched, Option.map_some]
  rw [← isIndex]
  by_cases present : t ∈ lists index
  · grind
  · rw [if_neg present, if_neg (by simpa using mt held.mp present)]
    refine ⟨_, rfl, ?_⟩
    have elsewhere : ∀ other < timerWheelSize, t ∉ lists other := fun other isSmall mem =>
      present (held.mp ⟨other, List.mem_range.mpr isSmall, mem⟩)
    have ticks : ∀ u, ((kernel.modify t fun task => { task with nextSleepQueue := kernel.sleepWheel index }).task u).sleepTick =
        (kernel.task u).sleepTick := by
      intro u
      rw [task_modify]
      split
      case isTrue eq => rw [eq]
      case isFalse => rfl
    have longer : ∀ other < timerWheelSize, ∀ u ∈ update lists index (t :: lists index) other,
        (u = t ∧ other = index) ∨ u ∈ lists other := by
      intro other isSmall u mem
      by_cases h : other = index
      · grind
      · rw [update_of_ne h] at mem
        exact .inr mem
    constructor
    · intro other isSmall
      have kept : Chain (kernel.modify t fun task => { task with nextSleepQueue := kernel.sleepWheel index }).nextSleeper
          (kernel.sleepWheel other) (lists other) := by
        refine (wheel.linked other isSmall).congr fun u mem => ?_
        have dist : u ≠ t := fun eq => elsewhere other isSmall (eq ▸ mem)
        unfold nextSleeper
        rw [task_modify, if_neg dist]
      by_cases h : other = index
      · subst h
        change Chain _ (update kernel.sleepWheel other (some t) other) _
        rw [update_self, update_self]
        refine ⟨rfl, ?_⟩
        have link : (kernel.modify t fun task => { task with nextSleepQueue := kernel.sleepWheel other }).nextSleeper t =
            kernel.sleepWheel other := by
          unfold nextSleeper
          rw [task_modify, if_pos rfl]
        exact link.symm ▸ kept
      · change Chain _ (update kernel.sleepWheel index (some t) other) _
        rw [update_of_ne h, update_of_ne h]
        exact kept
    · intro other isSmall u mem
      rw [ticks u]
      rcases longer other isSmall u mem with ⟨rfl, rfl⟩ | old
      · exact isIndex.symm
      · exact wheel.placed other isSmall u old
    · intro other isSmall u mem
      rw [ticks u]
      rcases longer other isSmall u mem with ⟨rfl, rfl⟩ | old
      · exact Nat.lt_of_le_of_lt ord future
      · exact wheel.pending other isSmall u old
    · intro other isSmall u mem
      rcases longer other isSmall u mem with ⟨rfl, rfl⟩ | old
      · exact created
      · exact wheel.created other isSmall u old
    · have total := @sleepers_update lists index lt (t :: lists index)
      rw [← wheel.counted, List.length_cons] at total
      change add64 kernel.totalSleepingTasks 1 = _
      rw [add64_eq room]
      omega
    · exact add64_lt ..

/-- The wheel misses no deadline: a check at any later tick wakes the sleepers that are due and
keeps the wheel, and so does a task that goes to sleep. -/
theorem timerWheel_exact (wheel : kernel.TimerWheel lists) (ordered : kernel.lastCheckedTick ≤ kernel.lapicTicks) :
    (kernel.lapicTicks < 2 ^ 64 - 1 → ∃ woken, kernel.WakesDue lists woken) ∧
      ∀ t, kernel.lapicTicks < (kernel.task t).sleepTick → t < kernel.nextTask → kernel.totalSleepingTasks + 1 < 2 ^ 64 →
        ∃ after, kernel.addToSleepList t = some after ∧ after.TimerWheel (kernel.withSleeper lists t) :=
  ⟨wheel.wakesDue ordered, fun _ future created room => wheel.addToSleepList ordered future created room⟩

/-- Two sleepers share a bucket; the first of them is due, with more than a round to catch up. -/
def twoSleepers : Kernel := { powerOn 1000 ⟨0, 0, 0⟩ with
  task := fun t =>
    if t = 0 then { constructed 0 0 0 0 0 with pid := 1, sleepTick := 600, nextSleepQueue := some 1 }
    else if t = 1 then { constructed 1 0 0 0 0 with pid := 2, sleepTick := 1112 }
    else { constructed 2 0 0 0 0 with pid := 3, sleepTick := 1500 }
  nextTask := 3
  sleepWheel := update (fun _ => none) 88 (some 0)
  totalSleepingTasks := 2
  lapicTicks := 1000 }

def twoLists : Nat → List TaskId := update (fun _ => []) 88 [0, 1]

theorem twoSleepers_wheel : twoSleepers.TimerWheel twoLists := by
  have each : ∀ index, ∀ t ∈ twoLists index, index = 88 ∧ (t = 0 ∨ t = 1) := by
    intro index t mem
    unfold twoLists at mem
    by_cases h : index = 88
    · grind
    · rw [update_of_ne h] at mem
      exact nomatch mem
  refine ⟨fun index _ => ?_, fun index _ t mem => ?_, fun index _ t mem => ?_, fun index _ t mem => ?_, ?_, by decide⟩
  · unfold twoLists
    change Chain _ (update (fun _ => none) 88 (some 0) index) _
    by_cases h : index = 88
    · subst h
      rw [update_self, update_self]
      exact ⟨rfl, rfl, rfl⟩
    · rw [update_of_ne h, update_of_ne h]
      exact rfl
  · obtain ⟨rfl, rfl | rfl⟩ := each index t mem <;> rfl
  · obtain ⟨_, rfl | rfl⟩ := each index t mem <;> decide
  · obtain ⟨_, rfl | rfl⟩ := each index t mem <;> decide
  · have total := @sleepers_update (fun _ => []) 88 (by decide) [0, 1]
    simp only [List.length_nil, Finset.sum_const_zero, Nat.add_zero, Nat.zero_add] at total
    exact total.symm

theorem twoSleepers_exact : (∃ woken, twoSleepers.WakesDue twoLists woken) ∧
    ∃ after, twoSleepers.addToSleepList 2 = some after ∧ after.TimerWheel (twoSleepers.withSleeper twoLists 2) :=
  have exact := timerWheel_exact twoSleepers_wheel (by decide)
  ⟨exact.1 (by decide), exact.2 2 (by decide) (by decide) (by decide)⟩

end

end Kernel

end RosKernel.Tasking
