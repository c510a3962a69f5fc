import Mathlib.Algebra.BigOperators.Group.List.Basic
import RosKernel.Library.Runs
import RosKernel.Process.Files

/-! Reference counts of open files.

A file's count should be the number of descriptors and areas that point to it, over
all tasks. Calls move references in several steps, so the invariant carries a list of
references that are held by the call itself: counted, but in no table yet or any more.
-/

set_option autoImplicit false

namespace RosKernel.Process

open Library Memory List
open Function (update update_of_ne update_self)

def areaRefs (id : FileId) (vmas : List VMArea) : Nat := vmas.countP fun area => area.backingFile == some id

def Task.refs (task : Task) (id : FileId) : Nat := task.fdTable.count (some id) + areaRefs id task.space.vmas

def slotRefs (id : FileId) : Option Task → Nat
  | none => 0
  | some task => task.refs id

/-- Descriptors and areas of all tasks that point to a file. -/
def FileState.refs (state : FileState) (id : FileId) : Nat := (state.tasks.map (slotRefs id)).sum

structure Counted (state : FileState) (held : List FileId) : Prop where
  counted : ∀ id, state.live id = true → (state.files id).refCount = state.refs id + held.count id
  pointed : ∀ id, state.live id = true ↔ 0 < state.refs id + held.count id
  fresh : ∀ id, state.nextFile ≤ id → state.live id = false

section

variable {state : FileState} {held : List FileId} {id : FileId}

theorem Counted.congr {held' : List FileId} (cnt : Counted state held)
    (eq : ∀ id, held'.count id = held.count id) : Counted state held' := by
  constructor
  · intro id
    rw [eq]
    exact cnt.counted id
  · intro id
    rw [eq]
    exact cnt.pointed id
  · exact cnt.fresh

theorem Counted.live_of_refs (cnt : Counted state held) (points : 0 < state.refs id) : state.live id = true :=
  (cnt.pointed id).mpr (by omega)

theorem Counted.live_of_held (cnt : Counted state held) (mem : id ∈ held) : state.live id = true :=
  (cnt.pointed id).mpr (Nat.add_pos_right _ (count_pos_iff.mpr mem))

@[simp] theorem addRef_refs (change : Int) (other : FileId) : (state.addRef id change).refs other = state.refs other :=
  rfl

@[simp] theorem addRef_live (change : Int) : (state.addRef id change).live = state.live := rfl

theorem addRef_refCount (change : Int) (other : FileId) : ((state.addRef id change).files other).refCount =
    if other = id then (state.files id).refCount + change else (state.files other).refCount := by
  simp only [FileState.addRef]
  by_cases eq : other = id
  · subst eq
    rw [update_self, if_pos rfl]
  · rw [update_of_ne eq, if_neg eq]

theorem addRef_files_ne (change : Int) {other : FileId} (ne : other ≠ id) :
    (state.addRef id change).files other = state.files other := update_of_ne ne _ _

theorem Counted.retain (cnt : Counted state held) (alive : state.live id = true) :
    Counted (state.addRef id 1) (id :: held) := by
  constructor
  · intro other live
    rw [addRef_refCount, addRef_refs, count_cons]
    by_cases eq : other = id
    · subst eq
      simp only [if_pos, beq_self_eq_true, cnt.counted other alive]
      omega
    · simp only [if_neg eq, beq_iff_eq, if_neg (Ne.symm eq), cnt.counted other live]
      rfl
  · intro other
    rw [addRef_refs, addRef_live, cnt.pointed, count_cons]
    by_cases eq : other = id
    · subst eq
      have := (cnt.pointed other).mp alive
      omega
    · simp only [beq_iff_eq, if_neg (Ne.symm eq), Nat.add_zero]
  · exact cnt.fresh

theorem Counted.release (cnt : Counted state (id :: held)) (others : 0 < state.refs id + held.count id) :
    Counted (state.addRef id (-1)) held := by
  constructor
  · intro other live
    have pre := cnt.counted other live
    rw [addRef_refCount, addRef_refs]
    by_cases eq : other = id
    · grind
    · grind
  · intro other
    rw [addRef_refs, addRef_live, cnt.pointed, count_cons]
    by_cases eq : other = id
    · grind
    · simp only [beq_iff_eq, if_neg (Ne.symm eq), Nat.add_zero]
  · exact cnt.fresh

theorem Counted.delete {files : FileId → File} {regions : Nat → ShmRegion} (cnt : Counted state (id :: held))
    (last : state.refs id + held.count id = 0) (others : ∀ other, other ≠ id → files other = state.files other) :
    Counted { state with
      files := files
      regions := regions
      live := update state.live id false } held := by
  constructor
  · intro other live
    by_cases eq : other = id
    · subst eq
      simp at live
    · simp only [update_of_ne eq] at live
      have pre := cnt.counted other live
      rw [count_cons_of_ne (Ne.symm eq)] at pre
      simp only [others other eq]
      exact pre
  · intro other
    by_cases eq : other = id
    · subst eq
      simp only [update_self, Bool.false_eq_true, false_iff, Nat.not_lt, Nat.le_zero]
      exact last
    · simp only [update_of_ne eq]
      have pre := cnt.pointed other
      rw [count_cons_of_ne (Ne.symm eq)] at pre
      exact pre
  · intro other behind
    by_cases eq : other = id
    · subst eq
      exact update_self ..
    · simp only [update_of_ne eq]
      exact cnt.fresh other behind

theorem Counted.refCount_held (cnt : Counted state (id :: held)) :
    (state.files id).refCount = state.refs id + held.count id + 1 := by
  rw [cnt.counted id (cnt.live_of_held (.head _)), count_cons_self]
  omega

theorem Counted.vfsClose (cnt : Counted state (id :: held)) : Counted (state.vfsClose id) held := by
  have pre := cnt.refCount_held
  unfold FileState.vfsClose
  simp only
  split
  next more =>
    rw [addRef_refCount, if_pos rfl] at more
    exact cnt.release (by omega)
  next last =>
    rw [addRef_refCount, if_pos rfl] at last
    exact cnt.delete (by omega) fun other ne => addRef_files_ne (-1) ne

theorem Counted.closeLast (cnt : Counted state (id :: held)) (last : state.refs id + held.count id = 0) :
    Counted ((state.addRef id (-1)).vfsClose id) held := by
  have pre := cnt.refCount_held
  unfold FileState.vfsClose
  simp only
  split
  next more =>
    rw [addRef_refCount, if_pos rfl, addRef_refCount, if_pos rfl] at more
    omega
  next =>
    refine cnt.delete last fun other ne => ?_
    rw [addRef_files_ne _ ne, addRef_files_ne _ ne]

theorem Counted.closeDescriptor (cnt : Counted state (id :: held)) :
    Counted (state.closeDescriptor id) held := by
  have pre := cnt.refCount_held
  unfold FileState.closeDescriptor
  simp only [show 0 < (state.files id).refCount by omega, if_true]
  split
  next last =>
    rw [addRef_refCount, if_pos rfl] at last
    exact cnt.closeLast (by omega)
  next more =>
    rw [addRef_refCount, if_pos rfl] at more
    exact cnt.release (by omega)

theorem Counted.dropDescriptor (cnt : Counted state (id :: held)) :
    Counted (state.dropDescriptor (some id)) held := by
  have pre := cnt.refCount_held
  unfold FileState.dropDescriptor
  simp only
  split
  next last =>
    rw [addRef_refCount, if_pos rfl] at last
    exact cnt.closeLast (by omega)
  next more =>
    rw [addRef_refCount, if_pos rfl] at more
    exact cnt.release (by omega)

theorem Counted.newFile (cnt : Counted state held) (file : File) (one : file.refCount = 1) :
    Counted (state.newFile file) (state.nextFile :: held) := by
  have dead := cnt.fresh state.nextFile (Nat.le_refl _)
  have unseen : state.refs state.nextFile + held.count state.nextFile = 0 := by
    have := cnt.pointed state.nextFile
    rw [dead] at this
    simp only [Bool.false_eq_true, false_iff] at this
    omega
  constructor
  · intro other live
    simp only [FileState.newFile] at live ⊢
    by_cases eq : other = state.nextFile
    · subst eq
      rw [update_self, one, count_cons_self]
      simp only [FileState.refs] at unseen ⊢
      omega
    · rw [update_of_ne eq] at live ⊢
      rw [count_cons_of_ne (Ne.symm eq)]
      exact cnt.counted other live
  · intro other
    simp only [FileState.newFile]
    by_cases eq : other = state.nextFile
    · grind
    · rw [update_of_ne eq, count_cons_of_ne (Ne.symm eq)]
      exact cnt.pointed other
  · intro other behind
    simp only [FileState.newFile] at behind ⊢
    rw [update_of_ne (Nat.ne_of_gt behind)]
    exact cnt.fresh other (Nat.le_of_succ_le behind)

end

section

variable {state : FileState} {held held' : List FileId} {pid : Nat}

theorem sum_map_set {α : Type} {list : List α} {i : Nat} {old : α} (new : α) (f : α → Nat)
    (h : list[i]? = some old) : ((list.set i new).map f).sum + f old = (list.map f).sum + f new := by
  induction list generalizing i with
  | nil => exact nomatch h
  | cons head rest ih =>
    cases i with
    | zero =>
      cases h
      simp only [set_cons_zero, map_cons, sum_cons]
      omega
    | succ i =>
      have := ih (getElem?_cons_succ ▸ h)
      simp only [set_cons_succ, map_cons, sum_cons]
      omega

theorem Counted.setTask {old new : Option Task} (cnt : Counted state held) (h : state.tasks[pid]? = some old)
    (moved : ∀ id, slotRefs id new + held'.count id = slotRefs id old + held.count id) :
    Counted (state.setTask pid new) held' := by
  have total : ∀ id, (state.setTask pid new).refs id + held'.count id = state.refs id + held.count id := by
    intro id
    have sum : (state.setTask pid new).refs id + slotRefs id old = state.refs id + slotRefs id new :=
      sum_map_set new (slotRefs id) h
    have := moved id
    omega
  constructor
  · intro id live
    have pre : ((state.setTask pid new).files id).refCount = state.refs id + held.count id :=
      cnt.counted id live
    have := total id
    omega
  · intro id
    rw [total]
    exact cnt.pointed id
  · exact cnt.fresh

theorem slotRefs_le {old : Option Task} (h : state.tasks[pid]? = some old) (id : FileId) :
    slotRefs id old ≤ state.refs id := by
  have sum := sum_map_set none (slotRefs id) h
  have cleared : slotRefs id none = 0 := rfl
  unfold FileState.refs
  omega

theorem tasks_of_task {task : Task} (h : state.task pid = some task) : state.tasks[pid]? = some (some task) := by
  unfold FileState.task at h
  cases slot : state.tasks[pid]? with
  | none =>
    rw [slot] at h
    exact nomatch h
  | some entry =>
    rw [slot] at h
    exact congrArg some h

theorem slot_of_descriptor {task : Task} {fd : Nat} {id : FileId} (points : task.descriptor fd = some id) :
    task.fdTable[fd]? = some (some id) := by
  unfold Task.descriptor at points
  cases slot : task.fdTable[fd]? with
  | none =>
    rw [slot] at points
    exact nomatch points
  | some entry =>
    rw [slot] at points
    exact congrArg some points

theorem refs_pos_of_descriptor {task : Task} {id : FileId} (fd : Nat) (h : state.task pid = some task)
    (points : task.descriptor fd = some id) : 0 < state.refs id := by
  have counts : 0 < task.fdTable.count (some id) :=
    count_pos_iff.mpr (mem_of_getElem? (slot_of_descriptor points))
  have := slotRefs_le (tasks_of_task h) id
  simp only [slotRefs, Task.refs] at this
  omega

theorem count_setDescriptor (task : Task) {fd : Nat} {old : Option FileId} (new : Option FileId)
    (h : task.fdTable[fd]? = some old) (id : FileId) :
    (task.setDescriptor fd new).refs id + (if old = some id then 1 else 0) =
      task.refs id + if new = some id then 1 else 0 := by
  have sums := sum_map_set new (fun entry => if entry = some id then 1 else 0) h
  have counts : ∀ table : List (Option FileId),
      (table.map fun entry => if entry = some id then 1 else 0).sum = table.count (some id) := by
    intro table
    induction table with
    | nil => rfl
    | cons entry rest ih =>
      rw [map_cons, sum_cons, ih, count_cons, Nat.add_comm]
      simp only [beq_iff_eq]
  rw [counts, counts] at sums
  simp only [Task.refs, Task.setDescriptor]
  omega

theorem vfsClose_setTask (state : FileState) (id : FileId) (task : Option Task) :
    (state.vfsClose id).setTask pid task = (state.setTask pid task).vfsClose id := by
  by_cases more : 0 < ((state.addRef id (-1)).files id).refCount
  · have closed : state.vfsClose id = state.addRef id (-1) := if_pos more
    rw [closed]
    exact (if_pos more).symm
  · simp only [FileState.vfsClose, if_neg more]
    exact (if_neg more).symm

theorem closeDescriptor_setTask (state : FileState) (id : FileId) (task : Option Task) :
    (state.closeDescriptor id).setTask pid task = (state.setTask pid task).closeDescriptor id := by
  have rest : ∀ state : FileState,
      (if (state.files id).refCount = 0 then state.vfsClose id else state).setTask pid task =
        if ((state.setTask pid task).files id).refCount = 0 then (state.setTask pid task).vfsClose id
        else state.setTask pid task := by
    intro state
    by_cases last : (state.files id).refCount = 0
    · rw [if_pos last, vfsClose_setTask]
      exact (if_pos last).symm
    · rw [if_neg last]
      exact (if_neg last).symm
  simp only [FileState.closeDescriptor]
  rw [rest]
  by_cases some_ : 0 < (state.files id).refCount
  · have eq : 0 < ((state.setTask pid task).files id).refCount := some_
    rw [if_pos some_, if_pos eq]
    rfl
  · have eq : ¬ 0 < ((state.setTask pid task).files id).refCount := some_
    rw [if_neg some_, if_neg eq]

theorem vfsClose_tasks (state : FileState) (id : FileId) : (state.vfsClose id).tasks = state.tasks := by
  unfold FileState.vfsClose
  simp only
  split_ifs <;> rfl

theorem closeDescriptor_tasks (state : FileState) (id : FileId) : (state.closeDescriptor id).tasks = state.tasks := by
  unfold FileState.closeDescriptor
  simp only
  split_ifs
  · exact vfsClose_tasks _ id
  · rfl
  · exact vfsClose_tasks _ id
  · rfl

theorem setTask_setTask (first snd : Option Task) :
    (state.setTask pid first).setTask pid snd = state.setTask pid snd := by
  simp only [FileState.setTask, set_set]

theorem setDescriptor_setDescriptor (task : Task) (fd : Nat) (first snd : Option FileId) :
    (task.setDescriptor fd first).setDescriptor fd snd = task.setDescriptor fd snd := by
  simp only [Task.setDescriptor, set_set]

theorem tasks_setTask {old : Option Task} (new : Option Task) (h : state.tasks[pid]? = some old) :
    (state.setTask pid new).tasks[pid]? = some new := by
  obtain ⟨bound, _⟩ := List.getElem?_eq_some_iff.mp h
  exact getElem?_set_self bound

theorem fdTable_setDescriptor (task : Task) {fd : Nat} {old : Option FileId} (new : Option FileId)
    (h : task.fdTable[fd]? = some old) : (task.setDescriptor fd new).fdTable[fd]? = some new := by
  obtain ⟨bound, _⟩ := List.getElem?_eq_some_iff.mp h
  exact getElem?_set_self bound

theorem Counted.install {task : Task} {fd : Nat} {id : FileId} (cnt : Counted state (id :: held))
    (h : state.tasks[pid]? = some (some task)) (empty : task.fdTable[fd]? = some none) :
    Counted (state.setTask pid (task.setDescriptor fd id)) held := by
  apply cnt.setTask h
  intro other
  have := count_setDescriptor task (some id) empty other
  rw [count_cons]
  simp only [slotRefs, beq_iff_eq, Option.some.injEq, reduceCtorEq, if_false] at this ⊢
  omega

theorem Counted.take {task : Task} {fd : Nat} {id : FileId} (cnt : Counted state held)
    (h : state.tasks[pid]? = some (some task)) (points : task.fdTable[fd]? = some (some id)) :
    Counted (state.setTask pid (task.setDescriptor fd none)) (id :: held) := by
  apply cnt.setTask h
  intro other
  have := count_setDescriptor task none points other
  rw [count_cons]
  simp only [slotRefs, beq_iff_eq, Option.some.injEq, reduceCtorEq, if_false] at this ⊢
  omega

end

section

variable {state after : FileState} {pid : Nat}

theorem slot_of_findIdx {table : List (Option FileId)} {fd : Nat} (hf : table.findIdx? Option.isNone = some fd) :
    table[fd]? = some none := by
  obtain ⟨bound, empty, _⟩ := findIdx?_eq_some_iff_getElem.mp hf
  rw [getElem?_eq_getElem bound, Option.isNone_iff_eq_none.mp empty]

theorem Counted.sysOpen {opened : Option String} (cnt : Counted state [])
    (ht : state.sysOpen pid opened = some after) : Counted after [] := by
  unfold FileState.sysOpen at ht
  split at ht
  next task _ fileName h =>
    have created := cnt.newFile ⟨.dir, fileName, 1, 0, true⟩ rfl
    split at ht
    · cases ht
      exact created.vfsClose
    next fd empty =>
      cases ht
      exact created.install (tasks_of_task h) (slot_of_findIdx empty)
  · cases ht
    exact cnt

theorem Counted.sysClose {fd : Nat} (cnt : Counted state []) (ht : state.sysClose pid fd = some after) :
    Counted after [] := by
  unfold FileState.sysClose at ht
  split at ht
  · cases ht
    exact cnt
  next task h =>
    split at ht
    · cases ht
      exact cnt
    next id points =>
      cases ht
      rw [closeDescriptor_setTask]
      exact (cnt.take (tasks_of_task h) (slot_of_descriptor points)).closeDescriptor

theorem Counted.sysDup2 {oldFd newFd : Nat} (cnt : Counted state [])
    (ht : state.sysDup2 pid oldFd newFd = some after) : Counted after [] := by
  unfold FileState.sysDup2 at ht
  split at ht
  · cases ht
    exact cnt
  next task h =>
    split at ht
    · cases ht
      exact cnt
    next valid =>
      simp only [not_or, Nat.not_le] at valid
      split at ht
      · cases ht
        exact cnt
      next id points =>
        obtain ⟨old, newSlot⟩ : ∃ old, task.fdTable[newFd]? = some old :=
          ⟨_, getElem?_eq_getElem (task.slots.symm ▸ valid.1)⟩
        -- First clear the new descriptor; the old one keeps the file alive meanwhile.
        have cleared : ∃ closed : FileState, Counted closed [] ∧ after =
            (closed.addRef id 1).setTask pid (task.setDescriptor newFd id) ∧
            closed.tasks[pid]? = some (some (task.setDescriptor newFd none)) := by
          cases ht
          cases other : task.descriptor newFd with
          | none =>
            refine ⟨state.setTask pid (task.setDescriptor newFd none), ?_, ?_, tasks_setTask _ (tasks_of_task h)⟩
            · apply cnt.setTask (tasks_of_task h)
              intro file
              have unset : old = none := by
                rw [Task.descriptor, newSlot] at other
                exact other
              have := count_setDescriptor task none newSlot file
              rw [unset] at this
              simp only [slotRefs]
              omega
            · exact congrArg (FileState.addRef · id 1) (setTask_setTask _ _).symm
          | some closing =>
            refine ⟨(state.setTask pid (task.setDescriptor newFd none)).closeDescriptor closing, ?_, ?_, ?_⟩
            · exact (cnt.take (tasks_of_task h) (slot_of_descriptor other)).closeDescriptor
            · rw [← closeDescriptor_setTask]
              exact congrArg (FileState.addRef · id 1) (setTask_setTask _ _).symm
            · rw [← closeDescriptor_setTask]
              apply tasks_setTask
              rw [closeDescriptor_tasks]
              exact tasks_of_task h
        obtain ⟨closed, counts, rfl, tasks⟩ := cleared
        have alive : closed.live id = true := by
          apply counts.live_of_refs
          have oldTask : closed.task pid = some (task.setDescriptor newFd none) := by
            rw [FileState.task, tasks]
            rfl
          apply refs_pos_of_descriptor oldFd oldTask
          rw [Task.descriptor, Task.setDescriptor, getElem?_set_ne (Ne.symm valid.2), slot_of_descriptor points]
          rfl
        have installed := (counts.retain alive).install tasks (fdTable_setDescriptor task none newSlot)
        rwa [setDescriptor_setDescriptor] at installed

theorem closeStale_eq {table : List (Option FileId)} (pos : ∀ id, some id ∈ table → 0 < (state.files id).refCount) :
    state.closeStale table = (state, table) := by
  induction table with
  | nil => rfl
  | cons entry rest ih =>
    have eq := ih fun id mem => pos id (.tail _ mem)
    cases entry with
    | none => simp only [FileState.closeStale, eq]
    | some id =>
      have := pos id (.head _)
      simp only [FileState.closeStale, if_neg (show ¬ (state.files id).refCount ≤ 0 by omega), eq]

theorem Counted.regions {regions : Nat → ShmRegion} {held : List FileId} (cnt : Counted state held) :
    Counted { state with regions := regions } held := ⟨cnt.counted, cnt.pointed, cnt.fresh⟩

theorem Counted.placeShm {task : Task} {id : FileId} (cnt : Counted state [id])
    (h : state.task pid = some task) (unseen : state.refs id = 0) : Counted (state.placeShm pid task id) [] := by
  unfold FileState.placeShm
  split
  next fd empty => exact cnt.install (tasks_of_task h) (slot_of_findIdx empty)
  next full =>
    have kept : state.closeStale task.fdTable = (state, task.fdTable) := by
      apply closeStale_eq
      intro other mem
      obtain ⟨fd, slot⟩ := getElem?_of_mem mem
      have points : 0 < state.refs other := refs_pos_of_descriptor fd h (by rw [Task.descriptor, slot]; rfl)
      have := cnt.counted other (cnt.live_of_refs points)
      omega
    simp only [kept, full]
    split
    next fd hf =>
      have single := find?_some hf
      cases points : task.descriptor fd with
      | none =>
        have eq : Task.descriptor { task with fdTable := task.fdTable } fd = none := points
        rw [eq] at single
        exact nomatch single
      | some other =>
        have cleared := cnt.take (tasks_of_task h) (slot_of_descriptor points)
        have installed := cleared.vfsClose.install (by
          rw [← vfsClose_setTask]
          apply tasks_setTask
          rw [vfsClose_tasks]
          exact tasks_of_task h) (fdTable_setDescriptor task none (slot_of_descriptor points))
        rw [setDescriptor_setDescriptor, ← vfsClose_setTask, setTask_setTask] at installed
        exact installed
    next =>
      have deleted : Counted { state with live := update state.live id false } [] :=
        cnt.delete (by rw [unseen]; rfl) fun _ _ => rfl
      apply deleted.setTask (tasks_of_task h)
      intro other
      rfl

theorem Counted.sysShmOpen {name : String} {size phys : Nat} {create newOk : Bool} (cnt : Counted state [])
    (ht : state.sysShmOpen pid name size phys create newOk = some after) : Counted after [] := by
  unfold FileState.sysShmOpen at ht
  split at ht
  · cases ht
    exact cnt
  next task h =>
    split at ht
    · cases ht
      exact cnt
    next region regions _ =>
      split at ht
      · exact nomatch ht
      · cases ht
        refine (cnt.regions.newFile _ rfl).placeShm h ?_
        have unseen := cnt.pointed state.nextFile
        rw [cnt.fresh _ (Nat.le_refl _)] at unseen
        simp only [Bool.false_eq_true, false_iff] at unseen
        have eq : ∀ file, ({ state with regions := regions }.newFile file).refs state.nextFile =
          state.refs state.nextFile := fun _ => rfl
        rw [eq]
        omega

end

end RosKernel.Process
