import RosKernel.Process.MappedFiles

/-! The reference counts of open files over whole runs. -/

set_option autoImplicit false

namespace RosKernel.Process

open Library Memory List Option

/-- The condition under which each call keeps the counts. -/
def FileState.KeepsCounts (state : FileState) : FileCall → Prop
  | .open _ _ => True
  | .shmOpen _ _ _ _ _ _ => True
  | .close _ _ => True
  | .dup2 _ _ _ => True
  | .mmap pid addr length prot flags fd offset newOk =>
    state.MapsRegular pid addr.toNat length.toNat prot.toNat flags.toNat fd.toNat offset.toNat newOk
  | .munmap pid addr length _ => state.UnmapsPartly pid addr.toNat length.toNat
  | .mprotect pid addr len prot _ => state.ProtectsApart pid addr.toNat len.toNat prot.toNat
  | .fork pid taskOk stackOk cloneOk _ => state.Forks pid taskOk stackOk cloneOk
  -- The file of an image that could be opened is never deleted.
  | .execve pid opened _ _ => opened = none ∨ state.task pid = none
  | .destroyTask pid => pidUserStart ≤ pid → state.Anonymous pid

def FileState.TasksOrdered (state : FileState) : Prop := ∀ task, some task ∈ state.tasks → Ordered task.space.vmas

section

variable {state after : FileState} {pid : Nat} {vmas : List VMArea}

section

variable (ord : state.TasksOrdered)
include ord

theorem FileState.TasksOrdered.of_task {task : Task} (h : state.task pid = some task) :
    Ordered task.space.vmas := ord task (mem_of_getElem? (tasks_of_task h))

theorem FileState.TasksOrdered.setTask {new : Option Task} (added : ∀ task, new = some task → Ordered task.space.vmas) :
    (state.setTask pid new).TasksOrdered := by
  intro task mem
  rcases mem_or_eq_of_mem_set mem with old | eq
  · exact ord task old
  · exact added task eq.symm

theorem FileState.TasksOrdered.of_eq (eq : after.tasks = state.tasks) :
    after.TasksOrdered := fun task mem => ord task (eq ▸ mem)

theorem FileState.TasksOrdered.setDescriptor {task : Task} {fd : Nat} {entry : Option FileId}
    (areas : Ordered task.space.vmas) : (state.setTask pid (task.setDescriptor fd entry)).TasksOrdered := by
  refine ord.setTask fun changed eq => ?_
  cases eq
  exact areas

end

theorem ordered_cons {area : VMArea} : Ordered (area :: vmas) ↔ area.start ≤ area.stop ∧ Ordered vmas :=
  forall_mem_cons

theorem Ordered.join {cur : VMArea} (ord : Ordered (cur :: vmas)) :
    Ordered ((Process.tryMergeNext cur vmas).1 :: (Process.tryMergeNext cur vmas).2) := by
  have eq : Ordered ([] ++ cur :: vmas) := ord
  exact eq.tryMergeNext.1

theorem Ordered.insertAfter {new iter : VMArea} (ord : Ordered (iter :: vmas)) (first : new.start ≤ new.stop) :
    Ordered (Process.insertAfter new iter vmas).1 := by
  induction vmas generalizing iter with
  | nil => exact (ordered_cons.mpr ⟨(ordered_cons.mp ord).1, ordered_cons.mpr ⟨first, forall_mem_nil _⟩⟩).join
  | cons next rest ih =>
    obtain ⟨iterOrdered, later⟩ := ordered_cons.mp ord
    unfold Process.insertAfter
    by_cases further : next.start < new.start
    · rw [if_pos further]
      exact ordered_cons.mpr ⟨iterOrdered, ih later⟩
    · rw [if_neg further]
      exact (ordered_cons.mpr ⟨iterOrdered, (ordered_cons.mpr ⟨first, later⟩).join⟩).join

theorem Ordered.insertVmaSorted {new : VMArea} (ord : Ordered vmas) (first : new.start ≤ new.stop) :
    Ordered (Process.insertVmaSorted new vmas).1 := by
  cases vmas with
  | nil => exact ordered_cons.mpr ⟨first, ord⟩
  | cons head rest =>
    simp only [Process.insertVmaSorted]
    split
    · exact (ordered_cons.mpr ⟨first, ord⟩).join
    · exact ord.insertAfter first

theorem Ordered.munmap (ord : Ordered vmas) (addr endAddr : Nat) :
    Ordered (vmas.flatMap fun area => (area.carve addr endAddr).kept) := by
  intro piece mem
  obtain ⟨area, areaMember, pieceMember⟩ := mem_flatMap.mp mem
  have whole := ord area areaMember
  unfold VMArea.carve at pieceMember
  split_ifs at pieceMember with ne hin starts ends cut backed
  · rwa [mem_singleton.mp pieceMember]
  · exact nomatch pieceMember
  · simp only [mem_cons, not_mem_nil, or_false] at pieceMember
    rcases pieceMember with rfl | rfl
    · exact Nat.le_of_lt starts
    · exact Nat.le_of_lt ends
  · grind
  · grind
  · rw [mem_singleton.mp pieceMember]
    exact Nat.le_of_lt cut
  · rwa [mem_singleton.mp pieceMember]

theorem mmapArea_ordered {addr length virtualAddr prot flags off mmapNextAddr : Nat} {backingFile : Option FileId}
    (chosen : mmapAddress vmas mmapNextAddr addr length = some (.ok virtualAddr)) :
    (mmapArea virtualAddr length prot flags backingFile off).start ≤
      (mmapArea virtualAddr length prot flags backingFile off).stop := by
  have valid := valid_of_mmapAddress chosen
  have agrees : mul64 (sub64 (add64 length pageSize) 1 / pageSize) pageSize = pageAlign length := by
    rw [pageAlign, pageMask_eq (add64_lt _ _)]
    simp only [mul64, sub64, add64, pageSize]
    omega
  simp only [isValidUserRange, Bool.and_eq_true, Bool.not_eq_true', decide_eq_false_iff_not, Nat.not_lt] at valid
  simp only [mmapArea, agrees]
  exact valid.1.2

theorem closeStale_tasks (table : List (Option FileId)) (state : FileState) :
    (state.closeStale table).1.tasks = state.tasks := by
  induction table generalizing state with
  | nil => rfl
  | cons entry rest ih =>
    cases entry with
    | none => exact ih state
    | some id =>
      simp only [FileState.closeStale]
      split
      · exact (ih _).trans (vfsClose_tasks state id)
      · exact ih state

theorem foldl_drop_tasks (table : List (Option FileId)) (state : FileState) :
    (table.foldl FileState.dropDescriptor state).tasks = state.tasks := by
  induction table generalizing state with
  | nil => rfl
  | cons entry rest ih =>
    rw [foldl_cons, ih]
    cases entry with
    | none => rfl
    | some id =>
      simp only [FileState.dropDescriptor]
      split
      · exact vfsClose_tasks _ id
      · rfl

section

variable (ord : state.TasksOrdered)
include ord

theorem FileState.TasksOrdered.placeShm {task : Task} {id : FileId} (areas : Ordered task.space.vmas) :
    (state.placeShm pid task id).TasksOrdered := by
  have cleared : (state.closeStale task.fdTable).1.TasksOrdered := ord.of_eq (closeStale_tasks _ _)
  unfold FileState.placeShm
  split
  · exact ord.setDescriptor areas
  · simp only
    split
    · exact cleared.setDescriptor areas
    · split
      · split
        · exact cleared.setDescriptor areas
        next other _ => exact (cleared.of_eq (vfsClose_tasks _ other)).setDescriptor areas
      · refine FileState.TasksOrdered.setTask ?_ fun kept eq => ?_
        · exact cleared.of_eq rfl
        · cases eq
          exact areas

theorem FileState.TasksOrdered.addRef {id : FileId} {change : Int} : (state.addRef id change).TasksOrdered := ord

theorem FileState.TasksOrdered.sysOpen {opened : Option String} (ht : state.sysOpen pid opened = some after) :
    after.TasksOrdered := by
  unfold FileState.sysOpen at ht
  split at ht
  next h =>
    split at ht
    · cases ht
      exact ord.of_eq (vfsClose_tasks _ _)
    · cases ht
      exact (ord.of_eq rfl).setDescriptor (ord.of_task h)
  · cases ht
    exact ord

theorem FileState.TasksOrdered.sysShmOpen {name : String} {size phys : Nat} {create newOk : Bool}
    (ht : state.sysShmOpen pid name size phys create newOk = some after) : after.TasksOrdered := by
  unfold FileState.sysShmOpen at ht
  split at ht
  · cases ht
    exact ord
  next h =>
    split at ht
    · cases ht
      exact ord
    · split at ht
      · cases ht
      · cases ht
        apply FileState.TasksOrdered.placeShm
        · exact ord.of_eq rfl
        · exact ord.of_task h

theorem FileState.TasksOrdered.sysClose {fd : Nat} (ht : state.sysClose pid fd = some after) : after.TasksOrdered := by
  unfold FileState.sysClose at ht
  split at ht
  · cases ht
    exact ord
  next h =>
    split at ht
    · cases ht
      exact ord
    · cases ht
      exact (ord.of_eq (closeDescriptor_tasks _ _)).setDescriptor (ord.of_task h)

theorem FileState.TasksOrdered.sysDup2 {oldFd newFd : Nat} (ht : state.sysDup2 pid oldFd newFd = some after) :
    after.TasksOrdered := by
  unfold FileState.sysDup2 at ht
  split at ht
  · cases ht
    exact ord
  next h =>
    split at ht
    · cases ht
      exact ord
    · split at ht
      · cases ht
        exact ord
      · cases ht
        apply FileState.TasksOrdered.addRef
        split
        · exact ord.setDescriptor (ord.of_task h)
        · exact (ord.of_eq (closeDescriptor_tasks _ _)).setDescriptor (ord.of_task h)

theorem FileState.TasksOrdered.runMm {Result : Type} {task : Task} {ret : Option (Result × AddressSpace × List MmEffect)}
    (areas : ∀ res space effects, ret = some (res, space, effects) → Ordered space.vmas)
    (ht : state.runMm pid task ret = some after) : after.TasksOrdered := by
  obtain ⟨⟨res, space, effects⟩, same, rfl⟩ := map_eq_some_iff.mp ht
  refine FileState.TasksOrdered.setTask (ord.of_eq (foldl_applyEffect_tasks _ _)) fun changed eq => ?_
  cases eq
  exact areas res space effects same

theorem FileState.TasksOrdered.sysMMap {addr length prot flags fd off : Nat} {newOk : Nat → Bool}
    (ht : state.sysMMap pid addr length prot flags fd off newOk = some after) : after.TasksOrdered := by
  unfold FileState.sysMMap at ht
  split at ht
  · cases ht
    exact ord
  next task h =>
    refine ord.runMm (fun res space effects ret => ?_) ht
    have areas := ord.of_task h
    rcases sysMMap_inv ret with ⟨_, _, rfl, _⟩ | ⟨virtualAddr, backingFile, _, chosen, _, outcome⟩
    · exact areas
    · rcases outcome with ⟨_, _, rfl, _⟩ | ⟨_, _, _, ins, rfl, vmas, _⟩
      · exact areas
      · rw [vmas]
        exact areas.insertVmaSorted (mmapArea_ordered chosen)

theorem FileState.TasksOrdered.sysMunmap {addr length : Nat} {newOk : Nat → Bool}
    (ht : state.sysMunmap pid addr length newOk = some after) : after.TasksOrdered := by
  unfold FileState.sysMunmap at ht
  split at ht
  · cases ht
    exact ord
  next task h =>
    refine ord.runMm (fun res space effects called => ?_) ht
    obtain ⟨⟨_, vmas', _⟩, ret, eq⟩ := map_eq_some_iff.mp called
    cases eq
    rcases munmap_cases ret with ⟨_, rfl, _⟩ | ⟨_, _, _, rfl, _⟩
    · exact ord.of_task h
    · exact (ord.of_task h).munmap _ _

theorem FileState.TasksOrdered.sysMprotect {addr len prot : Nat} {newOk : Nat → Bool}
    (ne : state.ProtectsApart pid addr len prot) (ht : state.sysMprotect pid addr len prot newOk = some after) :
    after.TasksOrdered := by
  unfold FileState.sysMprotect at ht
  split at ht
  · cases ht
    exact ord
  next task h =>
    refine ord.runMm (fun res space effects called => ?_) ht
    obtain ⟨⟨_, vmas', _⟩, ret, eq⟩ := map_eq_some_iff.mp called
    cases eq
    rcases mprotect_cases ret with ⟨rfl, _⟩ | ⟨some_, hal, valid, run⟩
    · exact ord.of_task h
    · exact (run.tracks (Nat.le_of_lt (add64_lt _ _)) (ord.of_task h)
        (ne task h some_ hal valid)).1

theorem FileState.TasksOrdered.sysFork {taskOk stackOk cloneOk : Bool} {newOk : Nat → Bool}
    (ht : state.sysFork pid taskOk stackOk cloneOk newOk = some after) : after.TasksOrdered := by
  unfold FileState.sysFork at ht
  split at ht
  · cases ht
    exact ord
  next task h =>
    have cnt := ord.of_eq (foldl_retain_tasks task.fdTable state)
    split_ifs at ht
    · cases ht
      exact ord
    · cases ht
      exact cnt
    · split at ht
      · cases ht
        exact cnt
      · cases ht
        refine cnt.setTask fun child eq => ?_
        cases eq
        exact ord.of_task h

theorem FileState.TasksOrdered.destroyTask (ht : state.destroyTask pid = some after) : after.TasksOrdered := by
  unfold FileState.destroyTask at ht
  split at ht
  · cases ht
    exact ord
  · split at ht
    · cases ht
      exact ord
    · cases ht
      refine FileState.TasksOrdered.of_eq (ord.setTask fun _ eq => ?_) (foldl_drop_tasks _ _)
      exact absurd eq.symm (some_ne_none _)

end

end

structure FileState.Good (state : FileState) : Prop where
  counted : Counted state []
  ordered : state.TasksOrdered

theorem sysExecve_unopened {state : FileState} {pid : Nat} {opened : Option String} {loaded : Option (Nat × Nat)}
    {newOk : Nat → Bool} (unopened : opened = none ∨ state.task pid = none) :
    state.sysExecve pid opened loaded newOk = some state := by
  unfold FileState.sysExecve
  rcases unopened with rfl | absent
  · cases state.task pid <;> rfl
  · rw [absent]

theorem FileState.Good.step {state after : FileState} {call : FileCall} (good : state.Good)
    (condition : state.KeepsCounts call) (ht : state.step call = some after) : after.Good := by
  obtain ⟨cnt, ord⟩ := good
  cases call with
  | «open» pid opened => exact ⟨cnt.sysOpen ht, ord.sysOpen ht⟩
  | shmOpen pid name size phys create newOk => exact ⟨cnt.sysShmOpen ht, ord.sysShmOpen ht⟩
  | close pid fd => exact ⟨cnt.sysClose ht, ord.sysClose ht⟩
  | dup2 pid oldFd newFd => exact ⟨cnt.sysDup2 ht, ord.sysDup2 ht⟩
  | mmap pid addr length prot flags fd off newOk =>
    exact ⟨cnt.sysMMap condition ht, ord.sysMMap ht⟩
  | munmap pid addr length newOk => exact ⟨cnt.sysMunmap condition ht, ord.sysMunmap ht⟩
  | mprotect pid addr len prot newOk =>
    exact ⟨cnt.sysMprotect (fun task h => ord.of_task h) condition ht,
      ord.sysMprotect condition ht⟩
  | fork pid taskOk stackOk cloneOk newOk => exact ⟨cnt.sysFork condition ht, ord.sysFork ht⟩
  | execve pid opened loaded newOk =>
    cases (sysExecve_unopened condition).symm.trans ht
    exact ⟨cnt, ord⟩
  | destroyTask pid => exact ⟨cnt.destroyTask condition ht, ord.destroyTask ht⟩

/-- Before any file is opened: no descriptors, and areas without files. -/
structure FileState.Booted (state : FileState) : Prop where
  dead : ∀ id, state.live id = false
  closed : ∀ task, some task ∈ state.tasks → ∀ entry ∈ task.fdTable, entry = none
  anonymous : ∀ task, some task ∈ state.tasks → ∀ area ∈ task.space.vmas, area.backingFile = none ∧ area.start ≤ area.stop

theorem FileState.Booted.good {state : FileState} (booted : state.Booted) : state.Good := by
  have none_ : ∀ id, state.refs id = 0 := by
    intro id
    apply sum_eq_zero
    intro count mem
    obtain ⟨slot, inTasks, rfl⟩ := mem_map.mp mem
    cases slot with
    | none => rfl
    | some task =>
      have absent : some id ∉ task.fdTable := fun entry =>
        some_ne_none id (booted.closed task inTasks _ entry)
      have areas := areaRefs_anonymous (fun area h => (booted.anonymous task inTasks area h).1) id
      rw [slotRefs, Task.refs, areas, count_eq_zero.mpr absent]
      rfl
  constructor
  · constructor
    · intro id live
      rw [booted.dead] at live
      cases live
    · intro id
      rw [none_, booted.dead]
      simp
    · exact fun id _ => booted.dead id
  · exact fun task mem area h => (booted.anonymous task mem area h).2

/-- In every run whose calls meet their condition, a file's count is the number of
descriptors and areas that point to it, and exactly the files that are pointed to are
there. -/
theorem file_refs_counted {init state : FileState} (booted : init.Booted)
    (reached : Reaches FileState.step FileState.KeepsCounts init state) (id : FileId) :
    (state.live id = true → (state.files id).refCount = state.refs id) ∧
      (state.live id = true ↔ 0 < state.refs id) := by
  have good : state.Good := reached.invariant FileState.Good booted.good
    fun _ _ _ good condition ht => good.step condition ht
  have cnt := good.counted.counted id
  have pointed := good.counted.pointed id
  exact ⟨fun live => by simpa using cnt live, pointed⟩

/-- One user task with an image and a stack, and a framebuffer of 1024 by 768 pixels. -/
def singleTask : FileState where
  tasks := (replicate maxTask none).set pidUserStart
    (some ⟨replicate maxFileInProcess none, length_replicate, execveSpace 0x400000 0x401000 fun _ => true⟩)
  taskSlots := length_set.trans length_replicate
  files := fun _ => ⟨.dir, "", 0, 0, false⟩
  live := fun _ => false
  nextFile := 0
  regions := fun _ => ⟨"", 0, 0, 0, false⟩
  framebuffer := some ⟨0xE0000000, 4096, 768⟩

theorem singleTask_booted : singleTask.Booted := by
  have only : ∀ task, some task ∈ singleTask.tasks → task =
      ⟨replicate maxFileInProcess none, length_replicate, execveSpace 0x400000 0x401000 fun _ => true⟩ := by
    intro task mem
    rcases mem_or_eq_of_mem_set mem with empty | eq
    · exact nomatch eq_of_mem_replicate empty
    · exact Option.some.inj eq
  constructor
  · exact fun _ => rfl
  · grind
  · intro task mem area inList
    rw [only task mem] at inList
    revert area
    decide

/-- The task of `singleTask` with one descriptor, of file 0, and any areas. -/
def openTask (space : AddressSpace) : Task :=
  ⟨(replicate maxFileInProcess none).set 0 (some 0), length_set.trans length_replicate, space⟩

/-- `singleTask` after opening a file, and then mapping a page of it. -/
def openedFile : FileState := (singleTask.step (.open 10 (some "/a"))).getD singleTask

def mappedFile : FileState := (openedFile.step (.mmap 10 0 0x1000 3 1 0 0 fun _ => true)).getD openedFile

theorem openedFile_regular : openedFile.MapsRegular 10 0 0x1000 3 1 0 0 fun _ => true := by
  intro task virtualAddr id taken h chosen backed
  have known : openedFile.task 10 = some (openTask (execveSpace 0x400000 0x401000 fun _ => true)) := rfl
  cases known.symm.trans h
  have first : mmapAddress (execveSpace 0x400000 0x401000 fun _ => true).vmas userHeapStart 0 0x1000 =
    some (.ok userHeapStart) := rfl
  cases first.symm.trans chosen
  have shared : mmapBacking (openedFile.descriptors (openTask (execveSpace 0x400000 0x401000 fun _ => true))) 1 0 0
    1 = .ok (some 0, [.retain 0]) := rfl
  cases shared.symm.trans backed
  refine ⟨by decide +kernel, by decide +kernel, ?_⟩
  simp +decide [VMArea.Separate, VMArea.JoinsFile, openTask, execveSpace]

theorem mappedFile_partly : mappedFile.UnmapsPartly 10 0x200000000 0x1000 := by
  intro task h _ _ _
  have known : mappedFile.task 10 = some (openTask ⟨[⟨0x400000, 0x401000, 7, 2, none, 0⟩,
    ⟨userHeapStart, 0x200001000, 3, 1, some 0, 0⟩, ⟨stackBase, userStackTop, 3, 0x22, none, 0⟩], 0x200001000⟩) := rfl
  cases known.symm.trans h
  refine ⟨by decide, fun id pos => ?_⟩
  by_cases zero : id = 0
  · subst zero
    decide +kernel
  · simp +decide [openTask, areaRefs, VMArea.inside, Ne.symm zero] at pos

/-- A file is opened, mapped and unmapped: two references between, one of the descriptor after. -/
theorem file_refs_counted_after_open :
    ((mappedFile.files 0).refCount, mappedFile.refs 0) = (2, 2) ∧
      ∃ state, mappedFile.step (.munmap 10 0x200000000 0x1000 fun _ => true) = some state ∧
        Reaches FileState.step FileState.KeepsCounts singleTask state ∧ state.live 0 = true ∧
          (state.files 0).refCount = state.refs 0 := by
  have opened : singleTask.step (.open 10 (some "/a")) = some openedFile := rfl
  have mapped : openedFile.step (.mmap 10 0 0x1000 3 1 0 0 fun _ => true) = some mappedFile := rfl
  have ran : ((mappedFile.step (.munmap 10 0x200000000 0x1000 fun _ => true)).map fun state => state.live 0) =
      some true := by
    decide +kernel
  obtain ⟨state, ht, live⟩ := map_eq_some_iff.mp ran
  have hr : Reaches FileState.step FileState.KeepsCounts singleTask state :=
    .next (.munmap 10 0x200000000 0x1000 fun _ => true) (.next (.mmap 10 0 0x1000 3 1 0 0 fun _ => true)
      (.next (.open _ _) .start trivial opened) openedFile_regular mapped) mappedFile_partly ht
  exact ⟨by decide +kernel, state, ht, hr, live, (file_refs_counted singleTask_booted hr 0).1 live⟩

/-- A mapping of the framebuffer is not counted: one descriptor and one area point to
the file, and its count is one. -/
theorem framebuffer_not_counted :
    ¬ ∀ (init state : FileState), init.Booted → Reaches FileState.step (fun _ _ => True) init state →
      ∀ id, state.live id = true → (state.files id).refCount = state.refs id := by
  intro claimed
  have ran : (((singleTask.step (.open 10 (some "/dev/fb0"))).bind
      (·.step (.mmap 10 0 0x1000 3 1 0 0 fun _ => true))).map
        fun state => (state.live 0, (state.files 0).refCount, state.refs 0)) = some (true, 1, 2) := by
    decide +kernel
  obtain ⟨state, ht, values⟩ := map_eq_some_iff.mp ran
  obtain ⟨opened, first, snd⟩ := bind_eq_some_iff.mp ht
  simp only [Prod.mk.injEq] at values
  have hr : Reaches FileState.step (fun _ _ => True) singleTask state :=
    .next _ (.next _ .start trivial first) trivial snd
  have cnt := claimed singleTask state singleTask_booted hr 0 values.1
  rw [values.2.1, values.2.2] at cnt
  exact absurd cnt (by decide)

end RosKernel.Process
